import Mathlib.Data.Set.Card
import KCas.Slots
import KCas.Library.Search

/-! What constructions and drops report and count. A construction looks at one slot
after another, so it may find each of them taken without all of them ever being so
at once. A drop takes the minimum with 1, where it should subtract 1. -/
namespace KCas

open Labelled Search

variable {P : Params} {load : Workload P.numWords} {cells : ℕ → ℕ} {κ κ' : Clients P.numWords}
  {c d t : ℕ} {trace front back segment : ClientTrace P} {x y z : ClientTransition P}
  {event : ClientEvent}

deriving instance DecidableEq for ClientEvent

/-! ### Full pools -/

/-- All slots are in use. -/
def AllInUse (P : Params) (s : Shared) : Prop :=
  ∀ t < P.numThreads, s.state.threadIndexSlots t = true

instance (s : Shared) : Decidable (AllInUse P s) :=
  inferInstanceAs (Decidable (∀ t < P.numThreads, s.state.threadIndexSlots t = true))

instance {numWords : ℕ} (client : Client numWords) : Decidable (client = .outside) :=
  match client with
  | .outside => isTrue rfl
  | .constructing _ | .counting _ | .holding .. | .uncounting | .panicked => isFalse nofun

/-- The steps of a run from the one with which the client starts a construction to
the one with which that fails. -/
structure FailedConstruction (P : Params) (c : ℕ) (segment : ClientTrace P) : Prop where
  starts : ∃ x ∈ segment.head?, x.actor.client = c ∧ x.before.clients c = .outside
  once : ∀ x ∈ segment.tail, x.before.clients c ≠ .outside
  fails : ∃ y ∈ segment.getLast?, y.actor.client = c ∧ y.event = .noThreadIdAvailable

instance (segment : ClientTrace P) : Decidable (FailedConstruction P c segment) :=
  decidable_of_iff ((∃ x ∈ segment.head?, x.actor.client = c ∧ x.before.clients c = .outside) ∧
      (∀ x ∈ segment.tail, x.before.clients c ≠ .outside) ∧
      ∃ y ∈ segment.getLast?, y.actor.client = c ∧ y.event = .noThreadIdAvailable)
    ⟨fun ⟨starts, once, fails⟩ => ⟨starts, once, fails⟩, fun ⟨starts, once, fails⟩ =>
      ⟨starts, once, fails⟩⟩

/-- A slot that a construction in progress has found taken is given back only while
all slots are in use. -/
def NotBehindScan (P : Params) (x : ClientTransition P) : Prop :=
  ∀ t, x.before.clients x.actor.client = .holding (convertThreadIndexToThreadId t) [] →
    x.event = .dropped → (∃ d i, x.before.clients d = .constructing i ∧ t < i) →
      AllInUse P x.before.shared

/-- The client has found the slots below its position taken, and they still are. -/
def Scanned (κ : Clients P.numWords) (c : ℕ) : Prop :=
  ∀ i, κ.clients c = .constructing i → ∀ t < i, κ.shared.state.threadIndexSlots t = true

theorem Scanned.moveTo {a : ℕ} {shared : Shared} {completed : ℕ → ℕ} {client : Client P.numWords}
    (scanned : Scanned κ c)
    (slots : ∀ t, κ.shared.state.threadIndexSlots t = true →
      shared.state.threadIndexSlots t = true)
    (own : ∀ i, client = .constructing i → ∀ t < i, shared.state.threadIndexSlots t = true) :
    Scanned (κ.moveTo a shared completed client) c := by
  intro i position
  by_cases same : c = a
  · subst same
    rw [Clients.moveTo_self] at position
    exact own i position
  · rw [Clients.moveTo_other same] at position
    exact fun t below => slots t (scanned i position t below)

/-- A scan stays ahead of the free slots, unless one is given back behind it. -/
theorem scanned_step (moves : ClientMoves P load x.before x.actor.client x.event x.after)
    (behind : NotBehindScan P x) (scanned : Scanned x.before c) :
    AllInUse P x.before.shared ∨ Scanned x.after c := by
  obtain ⟨κ, ⟨a, drops, spurious⟩, event, κ'⟩ := x
  simp only at moves scanned ⊢
  cases moves with
  | begins => exact .inr (scanned.moveTo (fun _ taken => taken) (by simp))
  | @passes i before taken more =>
    by_cases own : a = c
    · subst own
      refine .inr (scanned.moveTo (fun _ taken => taken) ?_)
      rintro j same t below
      obtain rfl : i + 1 = j := by simpa using same
      rcases Nat.lt_succ_iff_lt_or_eq.mp below with earlier | rfl
      · exact scanned i before t earlier
      · exact taken
    · right
      intro j position
      rw [Clients.moveTo_other (Ne.symm own)] at position
      exact scanned j position
  | @takes i =>
    refine .inr (scanned.moveTo (fun t taken => ?_) (by simp))
    by_cases same : t = i <;> simp [Shared.storeSlot, same, taken]
  | @drops t before =>
    by_cases scanning : ∃ i, κ.clients c = .constructing i ∧ t < i
    · exact .inl (behind t before rfl ⟨c, scanning⟩)
    · right
      intro i position u below
      have other : c ≠ a := by
        rintro rfl
        rw [Clients.moveTo_self] at position
        cases position
      rw [Clients.moveTo_other other] at position
      have ahead : u ≠ t := by
        rintro rfl
        exact scanning ⟨i, position, below⟩
      simpa [Clients.moveTo, Shared.storeSlot, ahead] using scanned i position u below
  | calls before effect =>
    refine .inr (scanned.moveTo (fun t taken => ?_) (by simp))
    rwa [effect.slots.1]
  | _ => exact .inr (scanned.moveTo (fun _ taken => taken) (by simp))

/-- While the client goes on all slots have been in use at once, or those that it has
looked at still are. -/
theorem scanned_of_run (ok : PoolOk P κ) (outside : κ.clients c = .outside)
    (run : Run (clientStep P load) κ segment κ') (behind : ∀ x ∈ segment, NotBehindScan P x) :
    PoolOk P κ' ∧ ((∃ x ∈ segment, AllInUse P x.before.shared) ∨ Scanned κ' c) := by
  refine run.invariant (NotBehindScan P) (fun segment κ' => PoolOk P κ' ∧
    ((∃ x ∈ segment, AllInUse P x.before.shared) ∨ Scanned κ' c)) ⟨ok, .inr ?_⟩ ?_ behind
  · intro i position
    cases position.symm.trans outside
  · rintro segment before actor event after - stepped admitted ⟨ok, earlier⟩
    have moves := clientMoves_of_step ok stepped
    refine ⟨poolOk_step ok moves, ?_⟩
    rcases earlier with ⟨x, member, full⟩ | scanned
    · exact .inl ⟨x, List.mem_append_left _ member, full⟩
    · rcases scanned_step (x := ⟨before, actor, event, after⟩) moves admitted scanned with
        full | onward
      · exact .inl ⟨_, List.mem_append_right _ (List.mem_singleton.mpr rfl), full⟩
      · exact .inr onward

/-- In a run in which no slot is given back behind a scan, a construction fails only
if all slots were in use at some moment since it began. -/
theorem construction_fails_when_full (run : ClientRun P load cells trace κ)
    (behind : ∀ x ∈ trace, NotBehindScan P x) (shape : trace = front ++ segment ++ back)
    (failed : FailedConstruction P c segment) :
    ∃ x ∈ segment, AllInUse P x.before.shared := by
  subst shape
  obtain ⟨⟨x, first, -, outside⟩, -, y, last, own, none⟩ := failed
  obtain ⟨steps, rfl⟩ := List.getLast?_eq_some_iff.mp last
  obtain ⟨rest, start⟩ := List.head?_eq_some_iff.mp first
  obtain ⟨middle, reached, -⟩ := run.cut
  obtain ⟨begun, earlier, onward⟩ := reached.cut
  obtain ⟨scan, taken, -⟩ := onward.last
  have same : x.before = begun := by
    rw [start] at onward
    exact onward.head
  rw [same] at outside
  obtain ⟨ok, found⟩ := scanned_of_run (poolOk_of_run earlier) outside scan
    fun z member => behind z (by simp [member])
  rcases found with ⟨z, member, full⟩ | scanned
  · exact ⟨z, List.mem_append_left _ member, full⟩
  · refine ⟨y, by simp, ?_⟩
    have moves := clientMoves_of_step ok taken
    rw [own, none] at moves
    generalize y.after = after at moves
    cases moves with
    | nothingToScan _ empty => exact fun t within => absurd within (by omega)
    | @fails i position busy count =>
      intro t within
      rcases Nat.lt_succ_iff_lt_or_eq.mp (count ▸ within) with below | rfl
      · exact scanned i position t below
      · exact busy

/-- Two clients have the two thread ids and a third one finds none left. -/
theorem construction_fails_when_full_third : ∃ (segment : ClientTrace twoThreads)
    (κ : Clients twoThreads.numWords),
    (∃ front, ClientRun twoThreads contended (fun _ => 0) (front ++ segment) κ) ∧
      FailedConstruction twoThreads 2 segment ∧
      ∃ x ∈ segment, AllInUse twoThreads x.before.shared := by
  obtain ⟨trace, κ, run, none, failed⟩ := exists_run_of_replay (clientStep twoThreads contended)
    (Clients.initial twoThreads fun _ => 0) (clientTurns [(0, 3), (1, 4), (2, 3)])
    (fun trace _ => (∀ x ∈ trace, x.event ≠ .dropped) ∧
      FailedConstruction twoThreads 2 (trace.drop 7)) (by decide +kernel)
  have cut : trace.take 7 ++ trace.drop 7 ++ [] = trace := by simp
  exact ⟨trace.drop 7, κ, ⟨trace.take 7, by simpa using run⟩, failed,
    construction_fails_when_full run (fun x member _ _ dropped => absurd dropped (none x member))
      cut.symm failed⟩

/-- A slot that the second client has found taken is given back before the third
client, which found it taken as well, takes the other one. -/
def overtakenTurns : List ClientActor :=
  clientTurns [(0, 3), (1, 2), (2, 2)] ++ [⟨0, true, false⟩] ++ clientTurns [(2, 1), (1, 1)]

theorem not_construction_fails_when_full : ¬ ∀ (P : Params) (load : Workload P.numWords)
    (cells : ℕ → ℕ) (front segment back : ClientTrace P) (κ : Clients P.numWords) (c : ℕ),
    ClientRun P load cells (front ++ segment ++ back) κ → FailedConstruction P c segment →
      ∃ x ∈ segment, AllInUse P x.before.shared := by
  intro claim
  obtain ⟨trace, κ, run, failed, free⟩ := exists_run_of_replay (clientStep twoThreads contended)
    (Clients.initial twoThreads fun _ => 0) overtakenTurns
    (fun trace _ => FailedConstruction twoThreads 1 (trace.drop 3) ∧
      ∀ x ∈ trace, ¬ AllInUse twoThreads x.before.shared) (by decide +kernel)
  have cut : trace = trace.take 3 ++ trace.drop 3 ++ [] := by simp
  obtain ⟨x, member, full⟩ := claim twoThreads contended (fun _ => 0) _ _ _ κ 1 (cut ▸ run) failed
  exact free x (List.mem_of_mem_drop member) full

/-! ### The counter -/

/-- The client is counted: it has counted itself for its wrapper, and not yet taken
itself back. -/
def Client.Counted {numWords : ℕ} : Client numWords → Prop
  | .holding .. | .uncounting => True
  | _ => False

/-- The client is neither in a construction nor in a drop. -/
def Client.Settled {numWords : ℕ} : Client numWords → Prop
  | .outside | .holding .. => True
  | _ => False

instance {numWords : ℕ} (client : Client numWords) : Decidable client.Settled :=
  match client with
  | .outside | .holding .. => isTrue trivial
  | .constructing _ | .counting _ | .uncounting | .panicked => isFalse not_false

def counted (κ : Clients P.numWords) : Set ℕ := {c | (κ.clients c).Counted}

/-- The number of live wrappers. -/
noncomputable def liveWrappers (κ : Clients P.numWords) : ℕ :=
  Set.ncard {c | (κ.clients c).liveId.isSome}

/-- The number of slots that are true. -/
def takenSlots (P : Params) (s : Shared) : ℕ :=
  ((Finset.range P.numThreads).filter fun t => s.state.threadIndexSlots t = true).card

/-- `num_threads_in_use` counts the live wrappers. -/
structure CountsLive (P : Params) (κ : Clients P.numWords) : Prop where
  counter : κ.shared.state.numThreadsInUse = liveWrappers κ
  slots : liveWrappers κ = takenSlots P κ.shared
  last : liveWrappers κ = 0 → κ.shared.state.numThreadsInUse = 0

/-- The client takes itself back: the `fetch_min` of `drop`. -/
def TakesBack (x : ClientTransition P) : Prop :=
  x.before.clients x.actor.client = .uncounting

/-- The other clients that are counted. -/
noncomputable def othersCounted (x : ClientTransition P) : ℕ :=
  (counted x.before \ {x.actor.client}).ncard

/-- The live wrappers have the slots that are true. -/
theorem liveWrappers_eq (ok : PoolOk P κ) : liveWrappers κ = takenSlots P κ.shared := by
  let index (c : ℕ) : ℕ := (κ.clients c).liveId.getD 0 - 1
  have live_index {c t : ℕ} (owns : (κ.clients c).Owns t) : index c = t := by
    simp [index, Client.liveId_eq.mpr owns, convertThreadIndexToThreadId]
  have owner {c : ℕ} (live : (κ.clients c).liveId.isSome) : (κ.clients c).Owns (index c) := by
    obtain ⟨threadId, same⟩ := Option.isSome_iff_exists.mp live
    obtain ⟨t, rfl, owns⟩ := ok.index_of_live same
    rwa [live_index owns]
  have injective : Set.InjOn index {c | (κ.clients c).liveId.isSome} := by
    intro c liveC d liveD same
    exact ok.exclusive c d _ (owner liveC) (same ▸ owner liveD)
  have image : index '' {c | (κ.clients c).liveId.isSome} =
      ((Finset.range P.numThreads).filter fun t => κ.shared.state.threadIndexSlots t = true) := by
    ext t
    simp only [Set.mem_image, Finset.coe_filter, Finset.mem_range, Set.mem_ofPred_eq]
    constructor
    · rintro ⟨c, live, rfl⟩
      exact ok.owned c _ (owner live)
    · rintro ⟨-, taken⟩
      obtain ⟨c, owns⟩ := ok.owner t taken
      exact ⟨c, by simp [Client.liveId_eq.mpr owns], live_index owns⟩
  rw [liveWrappers, ← injective.ncard_image, image, Set.ncard_coe_finset]
  rfl

theorem takenSlots_lt (P : Params) (s : Shared) : takenSlots P s < 2 ^ P.usizeBits := by
  have bound : takenSlots P s ≤ P.numThreads := by
    apply (Finset.card_filter_le _ _).trans
    simp
  have ids := Nat.lt_size_self (P.numThreads + 1)
  have wide : 2 ^ (P.numThreads + 1).size ≤ 2 ^ P.usizeBits :=
    Nat.pow_le_pow_right (by omega) (Nat.le_of_add_right_le P.two_le_sequence_bits)
  omega

section Moves

variable {shared : Shared} {completed : ℕ → ℕ} {client : Client P.numWords}

theorem counted_moveTo_same (same : client.Counted ↔ (κ.clients c).Counted) :
    counted (κ.moveTo c shared completed client) = counted κ := by
  ext d
  by_cases own : d = c
  · subst own
    simp [counted, Clients.moveTo_self, same]
  · simp [counted, Clients.moveTo_other own]

theorem counted_moveTo_insert (is : client.Counted) :
    counted (κ.moveTo c shared completed client) = insert c (counted κ) := by
  ext d
  by_cases own : d = c
  · subst own
    simp [counted, Clients.moveTo_self, is]
  · simp [counted, Clients.moveTo_other own, own]

theorem counted_moveTo_remove (isNot : ¬ client.Counted) :
    counted (κ.moveTo c shared completed client) = counted κ \ {c} := by
  ext d
  by_cases own : d = c
  · subst own
    simp [counted, Clients.moveTo_self, isNot]
  · simp [counted, Clients.moveTo_other own, own]

end Moves

/-- A client counts itself, takes itself back, or leaves the counter alone. -/
theorem counter_step (moves : ClientMoves P load κ c event κ') :
    (κ.clients c ≠ .uncounting ∧ counted κ' = counted κ ∧
      κ'.shared.state.numThreadsInUse = κ.shared.state.numThreadsInUse) ∨
    (κ.clients c ≠ .uncounting ∧ c ∉ counted κ ∧ counted κ' = insert c (counted κ) ∧
      κ'.shared.state.numThreadsInUse =
        (κ.shared.state.numThreadsInUse + 1) % 2 ^ P.usizeBits) ∨
    (κ.clients c = .uncounting ∧ counted κ' = counted κ \ {c} ∧
      κ'.shared.state.numThreadsInUse = min κ.shared.state.numThreadsInUse 1) := by
  cases moves with
  | counts before =>
    exact .inr (.inl ⟨by simp [before], by simp [counted, before, Client.Counted],
      counted_moveTo_insert trivial, rfl⟩)
  | uncounts before =>
    exact .inr (.inr ⟨before, counted_moveTo_remove not_false, rfl⟩)
  | calls before effect =>
    exact .inl ⟨by simp [before], counted_moveTo_same (by simp [before, Client.Counted]),
      effect.slots.2⟩
  | begins before | nothingToScan before | takes before | passes before | fails before
  | drops before | enters before =>
    exact .inl ⟨by simp [before], counted_moveTo_same (by simp [before, Client.Counted]), rfl⟩

theorem counted_finite (run : ClientRun P load cells trace κ) : (counted κ).Finite := by
  have both : PoolOk P κ ∧ (counted κ).Finite := by
    refine run.invariant (fun _ => True) (fun _ κ => PoolOk P κ ∧ (counted κ).Finite)
      ⟨poolOk_initial, ?_⟩ ?_ fun _ _ => trivial
    · simp [counted, Clients.initial, Client.Counted]
    · rintro - κ actor event κ' - stepped - ⟨ok, finite⟩
      have moves := clientMoves_of_step ok stepped
      refine ⟨poolOk_step ok moves, ?_⟩
      rcases counter_step moves with ⟨-, same, -⟩ | ⟨-, -, same, -⟩ | ⟨-, same, -⟩
      · rwa [same]
      · rw [same]
        exact finite.insert _
      · rw [same]
        exact finite.sdiff
  exact both.2

/-- As long as nobody takes itself back, the counter goes with the counted clients. -/
theorem counter_of_run (ok : PoolOk P κ) (finite : (counted κ).Finite)
    (small : κ.shared.state.numThreadsInUse < 2 ^ P.usizeBits)
    (run : Run (clientStep P load) κ back κ') (none : ∀ x ∈ back, ¬ TakesBack x) :
    ∃ more, (counted κ').ncard = (counted κ).ncard + more ∧
      κ'.shared.state.numThreadsInUse =
        (κ.shared.state.numThreadsInUse + more) % 2 ^ P.usizeBits := by
  have all : PoolOk P κ' ∧ (counted κ').Finite ∧ ∃ more,
      (counted κ').ncard = (counted κ).ncard + more ∧
      κ'.shared.state.numThreadsInUse =
        (κ.shared.state.numThreadsInUse + more) % 2 ^ P.usizeBits := by
    refine run.invariant (fun x => ¬ TakesBack x) (fun _ κ' => PoolOk P κ' ∧ (counted κ').Finite ∧
      ∃ more, (counted κ').ncard = (counted κ).ncard + more ∧
        κ'.shared.state.numThreadsInUse =
          (κ.shared.state.numThreadsInUse + more) % 2 ^ P.usizeBits)
      ⟨ok, finite, 0, rfl, (Nat.mod_eq_of_lt small).symm⟩ ?_ none
    rintro - before actor event after - stepped stays ⟨ok, finite, more, members, count⟩
    have moves := clientMoves_of_step ok stepped
    refine ⟨poolOk_step ok moves, ?_⟩
    rcases counter_step moves with ⟨-, same, kept⟩ | ⟨-, fresh, same, added⟩ | ⟨takes, -⟩
    · exact ⟨same ▸ finite, more, same ▸ members, kept.trans count⟩
    · refine ⟨same ▸ finite.insert _, more + 1, ?_, ?_⟩
      · rw [same, Set.ncard_insert_of_notMem fresh finite, members]
        rfl
      · rw [added, count, Nat.mod_add_mod]
        rfl
    · exact absurd takes stays
  exact all.2.2

/-- Once nobody is in a construction or a drop the live wrappers are counted. -/
theorem liveWrappers_of_settled (settled : ∀ c, (κ.clients c).Settled) :
    liveWrappers κ = (counted κ).ncard := by
  have same : {c | (κ.clients c).liveId.isSome} = counted κ := by
    ext c
    have here := settled c
    simp only [counted, Set.mem_ofPred_eq]
    cases client : κ.clients c with
    | outside => simp [Client.liveId, Client.Counted]
    | holding threadId stack => simp [Client.liveId, Client.Counted]
    | _ =>
      rw [client] at here
      exact here.elim
  rw [liveWrappers, same]

theorem countsLive_iff (ok : PoolOk P κ) (settled : ∀ c, (κ.clients c).Settled) :
    CountsLive P κ ↔ κ.shared.state.numThreadsInUse = (counted κ).ncard := by
  have live := liveWrappers_of_settled settled
  constructor
  · intro counts
    rw [counts.counter, live]
  · intro counter
    rw [← live] at counter
    exact ⟨counter, liveWrappers_eq ok, fun none => counter.trans none⟩

theorem counts_live_of_last (run : ClientRun P load cells (front ++ x :: back) κ)
    (settled : ∀ c, (κ.clients c).Settled) (takes : TakesBack x)
    (last : ∀ y ∈ back, ¬ TakesBack y) :
    CountsLive P κ ↔ min x.before.shared.state.numThreadsInUse 1 = othersCounted x := by
  obtain ⟨earlier, taken, onward⟩ := run.split
  have ok := poolOk_of_run earlier
  have moves := clientMoves_of_step ok taken
  have ok' := poolOk_of_run run
  rcases counter_step moves with ⟨stays, -⟩ | ⟨stays, -⟩ | ⟨-, same, counter⟩
  · exact absurd takes stays
  · exact absurd takes stays
  · have wide : 2 ^ 1 ≤ 2 ^ P.usizeBits :=
      Nat.pow_le_pow_right (by omega) ((by decide : 1 ≤ 3).trans P.three_le_usizeBits)
    have finite : (counted x.after).Finite := by
      rw [same]
      exact (counted_finite earlier).sdiff
    obtain ⟨more, members, count⟩ := counter_of_run (poolOk_step ok moves) finite
      (by omega) onward last
    have bound := takenSlots_lt P κ.shared
    rw [← liveWrappers_eq ok', liveWrappers_of_settled settled, members] at bound
    rw [countsLive_iff ok' settled, othersCounted, ← same, count, members, ← counter]
    constructor
    · intro right
      have small : x.after.shared.state.numThreadsInUse + more < 2 ^ P.usizeBits := by
        by_contra overflow
        have full : x.after.shared.state.numThreadsInUse + more = 2 ^ P.usizeBits := by omega
        rw [full, Nat.mod_self] at right
        omega
      rw [Nat.mod_eq_of_lt small] at right
      omega
    · intro right
      rw [right, Nat.mod_eq_of_lt bound]

/-- While nobody is in a construction or a drop, the counter is right if and only if
no drop has changed it yet, or at the last change the minimum with 1 was the number
of the others that were counted. -/
theorem counts_live_iff (run : ClientRun P load cells trace κ)
    (settled : ∀ c, (κ.clients c).Settled) :
    CountsLive P κ ↔ ∀ front x back, trace = front ++ x :: back → TakesBack x →
      (∀ y ∈ back, ¬ TakesBack y) →
        min x.before.shared.state.numThreadsInUse 1 = othersCounted x := by
  by_cases some : ∃ x ∈ trace, TakesBack x
  · constructor
    · rintro counts front x back rfl takes last
      exact (counts_live_of_last run settled takes last).mp counts
    · intro right
      obtain ⟨front, x, back, rfl, takes, last⟩ := exists_last_member some
      exact (counts_live_of_last run settled takes last).mpr (right front x back rfl takes last)
  · have none (x : ClientTransition P) (member : x ∈ trace) : ¬ TakesBack x := fun takes =>
      some ⟨x, member, takes⟩
    have ok := poolOk_of_run run
    have empty : counted (Clients.initial P cells) = ∅ := by
      simp [counted, Clients.initial, Client.Counted]
    obtain ⟨more, members, count⟩ := counter_of_run poolOk_initial (by simp [empty])
      (Nat.two_pow_pos _) run none
    have bound := takenSlots_lt P κ.shared
    rw [← liveWrappers_eq ok, liveWrappers_of_settled settled, members, empty, Set.ncard_empty,
      Nat.zero_add] at bound
    constructor
    · rintro - front x back rfl takes
      exact absurd takes (none x (by simp))
    · intro _
      rw [countsLive_iff ok settled, members, count, empty, Set.ncard_empty, Nat.zero_add]
      refine (Nat.mod_eq_of_lt ?_).trans (Nat.zero_add more)
      simpa [Clients.initial, State.new] using bound

/-- Clients that never moved have no wrapper. -/
theorem settled_of_run {few : ℕ} (run : ClientRun P load cells trace κ)
    (moved : ∀ x ∈ trace, x.actor.client < few) (settled : ∀ c < few, (κ.clients c).Settled)
    (c : ℕ) : (κ.clients c).Settled := by
  by_cases among : c < few
  · exact settled c among
  · have both : PoolOk P κ ∧ κ.clients c = .outside := by
      refine run.invariant (fun x => x.actor.client < few)
        (fun _ κ => PoolOk P κ ∧ κ.clients c = .outside) ⟨poolOk_initial, rfl⟩ ?_ moved
      rintro - κ actor event κ' - stepped own ⟨ok, outside⟩
      have moves := clientMoves_of_step ok stepped
      refine ⟨poolOk_step ok moves, ?_⟩
      rw [moves.other (by rintro rfl; exact among own), outside]
    rw [both.2]
    trivial

/-- Of two clients with wrappers the first one drops its own. -/
def dropTurns : List ClientActor :=
  clientTurns [(0, 3), (1, 4)] ++ [⟨0, true, false⟩] ++ clientTurns [(0, 1)]

/-- The counter is right after that, because one other client was counted. -/
theorem counts_live_drop : ∃ (trace : ClientTrace twoThreads) (κ : Clients twoThreads.numWords),
    ClientRun twoThreads contended (fun _ => 0) trace κ ∧
      κ.shared.state.numThreadsInUse = 1 ∧
      ∀ front x back, trace = front ++ x :: back → TakesBack x → (∀ y ∈ back, ¬ TakesBack y) →
        min x.before.shared.state.numThreadsInUse 1 = othersCounted x := by
  obtain ⟨trace, κ, run, moved, settled, counter, taken⟩ := exists_run_of_replay
    (clientStep twoThreads contended) (Clients.initial twoThreads fun _ => 0) dropTurns
    (fun trace κ => (∀ x ∈ trace, x.actor.client < 2) ∧ (∀ c : ℕ, c < 2 → (κ.clients c).Settled) ∧
      κ.shared.state.numThreadsInUse = 1 ∧ takenSlots twoThreads κ.shared = 1) (by decide +kernel)
  have slots := liveWrappers_eq (poolOk_of_run run)
  rw [taken] at slots
  refine ⟨trace, κ, run, counter, (counts_live_iff run (settled_of_run run moved settled)).mp ?_⟩
  exact ⟨counter.trans slots.symm, slots.trans taken.symm, by omega⟩

/-- A client constructs a wrapper and drops it. -/
def onlyTurns : List ClientActor :=
  clientTurns [(0, 3)] ++ [⟨0, true, false⟩] ++ clientTurns [(0, 1)]

theorem not_counts_live : ¬ ∀ (P : Params) (load : Workload P.numWords) (cells : ℕ → ℕ)
    (trace : ClientTrace P) (κ : Clients P.numWords), ClientRun P load cells trace κ →
      (∀ c, (κ.clients c).Settled) → CountsLive P κ := by
  intro claim
  obtain ⟨trace, κ, run, moved, settled, counter, taken⟩ := exists_run_of_replay
    (clientStep twoThreads contended) (Clients.initial twoThreads fun _ => 0) onlyTurns
    (fun trace κ => (∀ x ∈ trace, x.actor.client < 1) ∧ (∀ c : ℕ, c < 1 → (κ.clients c).Settled) ∧
      κ.shared.state.numThreadsInUse = 1 ∧ takenSlots twoThreads κ.shared = 0) (by decide +kernel)
  have counts := claim twoThreads contended _ trace κ run (settled_of_run run moved settled)
  rw [counts.counter, counts.slots, taken] at counter
  cases counter

end KCas
