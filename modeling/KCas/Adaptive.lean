import KCas.Library.Levels
import KCas.Library.Progress
import KCas.Pool

/-! Thread ids go by how many clients there are at once, not by how many there may be. A
construction passes a slot only while another client has it, so each slot further up there
is room for one client less. And no construction waits for anybody. -/
namespace KCas

open Labelled Levels

variable {P : Params} {load : Workload P.numWords} {cells : ℕ → ℕ} {κ κ' : Clients P.numWords}
  {c d k t : ℕ} {event : ClientEvent} {trace steps : ClientTrace P}

/-- The slot that a client looks at or has. -/
def Client.slot {numWords : ℕ} : Client numWords → Option ℕ
  | .constructing i => some i
  | .counting threadIndex => some threadIndex
  | .holding threadId _ => some (threadId - 1)
  | .outside | .uncounting | .panicked => none

/-- The slots of the clients that construct a wrapper or have one. -/
def Clients.slots {numWords : ℕ} (κ : Clients numWords) (c : ℕ) : Option ℕ := (κ.clients c).slot

theorem slots_moveTo {shared : Shared} {completed : ℕ → ℕ} {client : Client P.numWords} :
    (κ.moveTo c shared completed client).slots = Function.update κ.slots c client.slot := by
  funext d
  by_cases own : d = c
  · subst own
    simp [Clients.slots, Clients.moveTo_self]
  · simp [Clients.slots, Clients.moveTo_other own, own]

theorem Client.slot_of_owns {numWords : ℕ} {client : Client numWords} (owns : client.Owns t) :
    client.slot = some t := by
  cases client with
  | counting i => exact congrArg some owns
  | holding threadId stack =>
    rw [show threadId = convertThreadIndexToThreadId t from owns]
    rfl
  | _ => exact owns.elim

/-- Another client has the slot that is found taken. -/
theorem PoolOk.exists_other (ok : PoolOk P κ) {i : ℕ} (position : κ.clients c = .constructing i)
    (taken : κ.shared.state.threadIndexSlots i = true) :
    ∃ d, d ≠ c ∧ κ.slots d = some i := by
  obtain ⟨d, owns⟩ := ok.owner i taken
  refine ⟨d, ?_, Client.slot_of_owns owns⟩
  rintro rfl
  rw [position] at owns
  exact owns

/-- Clients come in at slot 0, pass a slot that another one has, and leave. -/
theorem staggered_step (ok : PoolOk P κ) (moves : ClientMoves P load κ c event κ')
    (room : AtMost k κ'.slots) (staggered : Staggered k κ.slots) : Staggered k κ'.slots := by
  cases moves with
  | begins =>
    rw [slots_moveTo] at room ⊢
    exact staggered.enter room
  | @passes i before taken =>
    obtain ⟨d, apart, past⟩ := ok.exists_other before taken
    rw [slots_moveTo]
    exact staggered.climb (by simp [Clients.slots, before, Client.slot]) past apart
  | nothingToScan | fails | drops | uncounts =>
    rw [slots_moveTo]
    exact staggered.update (.inl rfl)
  | takes before | counts before | enters before | calls before =>
    rw [slots_moveTo]
    exact staggered.update (.inr (by simp [Clients.slots, before, Client.slot,
      convertThreadIndexToThreadId]))

theorem staggered_of_run (run : ClientRun P load cells trace κ)
    (room : ∀ x ∈ trace, AtMost k x.after.slots) : PoolOk P κ ∧ Staggered k κ.slots := by
  refine run.invariant (fun x => AtMost k x.after.slots)
    (fun _ κ => PoolOk P κ ∧ Staggered k κ.slots) ⟨poolOk_initial, ?_⟩ ?_ room
  · exact staggered_of_none fun _ => rfl
  · rintro - before actor event after - stepped room ⟨ok, staggered⟩
    have moves := clientMoves_of_step ok stepped
    exact ⟨poolOk_step ok moves, staggered_step ok moves room staggered⟩

/-- If no more than `k` clients construct wrappers or have one at once, all thread ids are
at most `k`; and as long as that is no more than `NUM_THREADS`, no construction fails. -/
theorem ids_adapt (run : ClientRun P load cells trace κ)
    (room : ∀ x ∈ trace, AtMost k x.after.slots) :
    (∀ c threadId, (κ.clients c).liveId = some threadId → threadId ≤ k) ∧
    (0 < P.numThreads → k ≤ P.numThreads → ∀ x ∈ trace, x.event ≠ .noThreadIdAvailable) := by
  refine ⟨?_, ?_⟩
  · obtain ⟨ok, staggered⟩ := staggered_of_run run room
    intro c threadId live
    obtain ⟨t, rfl, owns⟩ := ok.index_of_live live
    exact staggered.lt (Client.slot_of_owns owns)
  · intro some le x member none
    obtain ⟨front, reached, stepped, earlier⟩ := run.of_mem member
    obtain ⟨ok, staggered⟩ := staggered_of_run reached fun y early => room y (earlier y early)
    have moves := clientMoves_of_step ok stepped
    rw [none] at moves
    generalize x.after = after at moves
    cases moves with
    | nothingToScan _ empty => omega
    | @fails i before taken last =>
      obtain ⟨d, apart, past⟩ := ok.exists_other before taken
      have more := staggered.succ_lt (c := x.actor.client) (by
        simp [Clients.slots, before, Client.slot]) past apart
      omega

/-- All clients that came in are among the first ones, and few of those are in. -/
theorem atMost_of_few {few : ℕ} (outside : ∀ c, few ≤ c → κ.slots c = none)
    (count : ((Finset.range few).filter fun c => (κ.slots c).isSome).card ≤ k) :
    AtMost k κ.slots := by
  intro members inside
  refine (Finset.card_le_card fun c member => ?_).trans count
  have here := inside c member
  refine Finset.mem_filter.mpr ⟨Finset.mem_range.mpr ?_, here⟩
  by_contra beyond
  rw [outside c (by omega)] at here
  cases here

/-- Clients that never moved are not in. -/
theorem slots_of_run {few : ℕ} (run : ClientRun P load cells trace κ)
    (moved : ∀ x ∈ trace, x.actor.client < few) (beyond : few ≤ c) : κ.slots c = none := by
  have both : PoolOk P κ ∧ κ.slots c = none := by
    refine run.invariant (fun x => x.actor.client < few)
      (fun _ κ => PoolOk P κ ∧ κ.slots c = none) ⟨poolOk_initial, rfl⟩ ?_ moved
    rintro - before actor event after - stepped own ⟨ok, outside⟩
    have moves := clientMoves_of_step ok stepped
    have own : actor.client < few := own
    refine ⟨poolOk_step ok moves, ?_⟩
    rwa [Clients.slots, moves.other (by omega)]
  exact both.2

/-- Three clients come and go, two at a time. -/
theorem ids_adapt_handedOn : ∃ (trace : ClientTrace twoThreads) (κ : Clients twoThreads.numWords),
    ClientRun twoThreads contended (fun _ => 0) trace κ ∧ trace.length = 70 ∧
      (∀ c threadId, (κ.clients c).liveId = some threadId → threadId ≤ 2) ∧
      ∀ x ∈ trace, x.event ≠ .noThreadIdAvailable := by
  obtain ⟨trace, κ, run, length, moved, few⟩ := exists_run_of_replay
    (clientStep twoThreads contended) (Clients.initial twoThreads fun _ => 0) handedOnTurns
    (fun trace _ => trace.length = 70 ∧ (∀ x ∈ trace, x.actor.client < 3) ∧ ∀ x ∈ trace,
      ((Finset.range 3).filter fun c => (x.after.slots c).isSome).card ≤ 2) (by decide +kernel)
  have adapts := ids_adapt run (k := 2) fun x member => by
    obtain ⟨front, back, rfl⟩ := List.append_of_mem member
    have reached : ClientRun twoThreads contended (fun _ => 0) (front ++ [x]) x.after := by
      obtain ⟨earlier, stepped, -⟩ := run.split
      exact earlier.snoc stepped
    refine atMost_of_few (fun c beyond => slots_of_run reached ?_ beyond) (few x member)
    exact fun y early => moved y (by
      simp only [List.mem_append, List.mem_cons, List.not_mem_nil] at early ⊢
      tauto)
  exact ⟨trace, κ, run, length, adapts.1, adapts.2 (by decide) (Nat.le_refl 2)⟩

/-! ### Steps of a construction -/

/-- The accesses that a construction or a drop is still to make if no slot from `bound` on
is looked at. -/
def Client.left {numWords : ℕ} (bound : ℕ) : Client numWords → ℕ
  | .constructing i => bound - i + 1
  | .counting _ | .uncounting => 1
  | .outside | .holding .. | .panicked => 0

/-- Every step of a construction or a drop is one access less. -/
theorem left_own {bound : ℕ} (moves : ClientMoves P load κ c event κ')
    (inside : ¬ (κ.clients c).Settled) (next : ∀ i, κ'.clients c = .constructing i → i < bound)
    (here : ∀ i, κ.clients c = .constructing i → i < bound) :
    (κ'.clients c).left bound < (κ.clients c).left bound := by
  cases moves with
  | begins before | nothingToScan before | drops before | enters before | calls before =>
    rw [before] at inside
    exact absurd trivial inside
  | @passes i before =>
    rw [Clients.moveTo_self] at next ⊢
    have below := next _ rfl
    simp only [before, Client.left]
    omega
  | @takes i before =>
    have below := here i before
    simp only [Clients.moveTo_self, before, Client.left]
    omega
  | fails before | counts before | uncounts before =>
    simp [Clients.moveTo_self, before, Client.left]

theorem left_le {bound : ℕ} (client : Client P.numWords) : client.left bound ≤ bound + 1 := by
  cases client <;> simp only [Client.left] <;> omega

/-- A step of the client. -/
def ownStep (c : ℕ) (x : ClientTransition P) : Bool := x.actor.client = c

/-- The accesses of a client that stays in a construction or a drop. -/
theorem countP_own_le {bound : ℕ} (run : ClientRun P load cells trace κ)
    (onward : Run (clientStep P load) κ steps κ')
    (inside : ∀ x ∈ steps, ¬ (x.before.clients c).Settled)
    (below : ∀ front κ, front <+: trace ++ steps → ClientRun P load cells front κ →
      ∀ i, κ.clients c = .constructing i → i < bound) :
    steps.countP (ownStep c) ≤ bound + 1 := by
  have whole := run.append onward
  have lowers {x : ClientTransition P} (member : x ∈ steps) :
      (x.after.clients c).left bound ≤ (x.before.clients c).left bound ∧ (ownStep c x = true →
        (x.after.clients c).left bound < (x.before.clients c).left bound) := by
    obtain ⟨front, back, rfl⟩ := List.append_of_mem member
    have split : ClientRun P load cells ((trace ++ front) ++ x :: back) κ' := by
      simpa using whole
    obtain ⟨reached, stepped, -⟩ := split.split
    have moves := clientMoves_of_step (poolOk_of_run reached) stepped
    by_cases own : x.actor.client = c
    · subst own
      have lower := left_own moves (inside x member)
        (below _ _ ⟨back, by simp⟩ (reached.snoc stepped)) (below _ _ ⟨x :: back, by simp⟩ reached)
      exact ⟨Nat.le_of_lt lower, fun _ => lower⟩
    · rw [moves.other (Ne.symm own)]
      exact ⟨Nat.le_refl _, by simp [ownStep, own]⟩
  have few := onward.countP_le_of_lowers (fun κ => (κ.clients c).left bound)
    (fun x member takes => (lowers member).2 takes) fun x member _ => (lowers member).1
  have start : (κ.clients c).left bound ≤ bound + 1 := left_le _
  omega

/-- A client in a construction or a drop can always go on, and is through after
`NUM_THREADS + 1` accesses at the latest, whatever the others do; if no more than `k`
clients construct wrappers or have one at once, after `k + 1`. -/
theorem construction_wait_free (run : ClientRun P load cells trace κ)
    (onward : Run (clientStep P load) κ steps κ')
    (inside : ∀ x ∈ steps, ¬ (x.before.clients c).Settled) :
    steps.countP (ownStep c) ≤ P.numThreads + 1 ∧
    (∀ k, (∀ x ∈ trace ++ steps, AtMost k x.after.slots) →
      steps.countP (ownStep c) ≤ k + 1) ∧
    (¬ (κ'.clients c).Settled → ∀ drops spurious,
      (clientStep P load κ' ⟨c, drops, spurious⟩).isSome) := by
  have whole := run.append onward
  refine ⟨?_, ?_, ?_⟩
  · refine countP_own_le run onward inside ?_
    rintro front κ - reached i position
    have within := (poolOk_of_run reached).client c
    rwa [position] at within
  · intro k room
    refine countP_own_le run onward inside ?_
    rintro front κ ⟨back, split⟩ reached i position
    have staggered := (staggered_of_run reached fun x member => room x (by
      rw [← split]
      exact List.mem_append_left _ member)).2
    exact staggered.lt (by rw [Clients.slots, position]; rfl)
  · intro unsettled drops spurious
    have position := (poolOk_of_run whole).client c
    unfold clientStep
    cases here : κ'.clients c with
    | outside | holding =>
      rw [here] at unsettled
      exact absurd trivial unsettled
    | panicked =>
      rw [here] at position
      exact position.elim
    | _ => simp [here]

/-- The construction that is overtaken is through as soon as one that is not. -/
theorem construction_wait_free_overtaken : ∃ (steps : ClientTrace twoThreads)
    (κ κ' : Clients twoThreads.numWords), Run (clientStep twoThreads contended) κ steps κ' ∧
      steps.length = 6 ∧ (∃ x ∈ steps, x.event = .noThreadIdAvailable) ∧
      steps.countP (ownStep 1) ≤ 3 := by
  obtain ⟨trace, κ', run, length, inside, fails⟩ := exists_run_of_replay
    (clientStep twoThreads contended) (Clients.initial twoThreads fun _ => 0) overtakenTurns
    (fun trace _ => (trace.drop 4).length = 6 ∧
      (∀ x ∈ trace.drop 4, ¬ (x.before.clients 1).Settled) ∧
      ∃ x ∈ trace.drop 4, x.event = .noThreadIdAvailable) (by decide +kernel)
  rw [← List.take_append_drop 4 trace] at run
  obtain ⟨κ, earlier, onward⟩ := run.cut
  exact ⟨trace.drop 4, κ, κ', onward, length, fails,
    (construction_wait_free earlier onward inside).1⟩

end KCas
