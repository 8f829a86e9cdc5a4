import Mathlib.Data.List.Chain
import KCas.Nesting
import KCas.Library.Search

/-! Claims form a prefix. While a call is at Claiming its markers are on the
first words of its list and nowhere else, and nobody who claims for it is ahead
of them. A helper was let in by a marker on one of those words; when it has to
help in turn, it is blocked at a later one. -/
namespace KCas

open Labelled Search

variable {P : Params} {load : Workload P.numWords} {cells : ℕ → ℕ} {s s' : Shared}
  {σ : Config P.numWords} {h t n w target expected value : ℕ} {role : Role} {pc : Pc}
  {op : Operation} {event : Event} {frame caller : Frame P.numWords}
  {frames stack rest : List (Frame P.numWords)} {trace front back : Trace P}
  {x : Transition (Config P.numWords) Actor Event} {before : ℕ → ℕ → Prop}

/-! ### The prefix -/

/-- The word at which an activation is in the loop of `claim`. -/
def Pc.claimsAt : Pc → Option ℕ
  | .claimLoadTarget w | .claimLoadExpected w _ | .claimExchange w _ _ | .claimVerify w _ _ _ |
    .claimHelp w _ _ => some w
  | _ => none

/-- The marker of the current call of thread index `t` is on the first `k`
words of that call. -/
structure ClaimsPrefix (P : Params) (load : Workload P.numWords) (σ : Config P.numWords)
    (t k : ℕ) : Prop where
  atMost : k ≤ P.numWords
  marked : ∀ w < P.numWords, σ.shared.cells ((load.call t (σ.threads t).completed).target w) =
    P.marker t (σ.shared.sequenceOf P t) ↔ w < k
  only : ∀ address, σ.shared.cells address = P.marker t (σ.shared.sequenceOf P t) →
    ∃ w < P.numWords, address = (load.call t (σ.threads t).completed).target w
  claimers : ∀ h < P.numThreads, ∀ role op pc, .operating role op pc ∈ (σ.threads h).stack →
    op.threadIndex = t → op.sequence = σ.shared.sequenceOf P t → ∀ w ∈ pc.claimsAt, w ≤ k

/-- Whoever claims at a word has the words below it claimed. -/
theorem claimedBelow_of_claimsAt (position : PcOk P load s role t n pc)
    (claims : w ∈ pc.claimsAt) : w < P.numWords ∧ ClaimedBelow P load s t n w := by
  cases pc <;> simp only [Pc.claimsAt, Option.mem_def, Option.some.injEq, reduceCtorEq] at claims
  case claimLoadTarget => exact claims ▸ position
  case claimLoadExpected => exact claims ▸ ⟨position.1, position.2.1⟩
  case claimExchange => exact claims ▸ ⟨position.1, position.2.1⟩
  case claimVerify => exact claims ▸ ⟨position.1.1, position.1.2.1⟩
  case claimHelp => exact claims ▸ ⟨position.1, position.2.1⟩

theorem claimsPrefix_of_configOk (ok : ConfigOk P load σ) (rules : UsageRules P load cells)
    (within : t < P.numThreads) (claiming : σ.shared.stageOf P t = .claiming) :
    ∃ k, ClaimsPrefix P load σ t k := by
  have active : σ.shared.stageOf P t ≠ .inactive := by simp [claiming]
  have current := (ok.inProgress within active).1
  have counted := (ok.shared.row t within active).1
  -- the invariant speaks of some word of the marked address, and no other word has it
  have closed (w : ℕ) (inRange : w < P.numWords)
      (marked : Marked P load σ.shared t (σ.shared.sequenceOf P t) w) :
      ∀ i < w, Marked P load σ.shared t (σ.shared.sequenceOf P t) i := by
    obtain ⟨j, inRange', same, below⟩ := ok.shared.claimed t within claiming _ marked
    obtain rfl := rules.distinct t within _ counted w inRange j inRange' same
    exact below
  obtain ⟨k, atMost, marked⟩ := exists_boundary closed
  refine ⟨k, atMost, fun w inRange => current ▸ marked w inRange, fun address held => ?_, ?_⟩
  · obtain ⟨w, inRange, own, -⟩ := ok.shared.claimed t within claiming address held
    exact ⟨w, inRange, current ▸ own⟩
  · rintro h withinHelper role op pc member rfl sequence w claims
    obtain ⟨u, m, rfl, held⟩ := workOk_of_mem withinHelper (ok.callStacks h withinHelper) member
    obtain ⟨inRange, below⟩ := claimedBelow_of_claimsAt held.position claims
    by_contra further
    have last := below sequence.symm claiming k (by omega)
    rw [Params.operation_sequence] at sequence
    exact absurd ((marked k (by omega)).mp (sequence ▸ last)) (Nat.lt_irrefl k)

/-! ### Where a value was met -/

/-- Thread index `h` found `value` when it tried to claim the word for `op`. -/
def Met (trace : Trace P) (h : ℕ) (op : Operation) (w target expected value : ℕ) : Prop :=
  ∃ y ∈ trace, y.actor.thread = h ∧
    y.event = .exchangeCell .claim op w target expected op.threadAndSequence (.error value)

/-- The marker of the call that an activation of `help_thread` works for. -/
def Frame.helps {numWords : ℕ} : Frame numWords → Option ℕ
  | .initializing .. => none
  | .helpThread marker => some marker
  | .operating _ op _ => some op.threadAndSequence

/-- A value that is about to be looked at was met in its cell. -/
def MetHere (trace : Trace P) (h : ℕ) : Frame P.numWords → Prop
  | .operating _ op (.claimVerify w target expected actual) =>
    Met trace h op w target expected actual
  | _ => True

/-- An activation is called for a marker that its caller met. -/
def MetBy (trace : Trace P) (h : ℕ) (marker : Option ℕ) : Frame P.numWords → Prop
  | .operating _ op (.claimHelp w target expected) =>
    ∀ value ∈ marker, Met trace h op w target expected value
  | _ => True

/-- All values that a call stack deals with were met. -/
structure AllMet (trace : Trace P) (h : ℕ) (stack : List (Frame P.numWords)) : Prop where
  here : ∀ frame ∈ stack, MetHere trace h frame
  called : stack.IsChain fun frame caller => MetBy trace h frame.helps caller

theorem Met.append (met : Met front h op w target expected value) :
    Met (front ++ back) h op w target expected value := by
  obtain ⟨y, member, found⟩ := met
  exact ⟨y, List.mem_append_left _ member, found⟩

theorem MetHere.append (met : MetHere front h frame) : MetHere (front ++ back) h frame := by
  unfold MetHere at met ⊢
  split
  · exact met.append
  · trivial

theorem MetBy.append {marker : Option ℕ} (met : MetBy front h marker caller) :
    MetBy (front ++ back) h marker caller := by
  unfold MetBy at met ⊢
  split
  · exact fun value called => (met value called).append
  · trivial

namespace AllMet

theorem append (met : AllMet front h stack) : AllMet (front ++ back) h stack :=
  ⟨fun frame member => (met.here frame member).append,
    met.called.imp fun _ _ called => called.append⟩

theorem tail (met : AllMet trace h (frame :: rest)) : AllMet trace h rest :=
  ⟨fun later member => met.here later (List.mem_cons_of_mem _ member), met.called.tail⟩

theorem cons (below : AllMet trace h rest) (here : MetHere trace h frame)
    (called : ∀ caller ∈ rest.head?, MetBy trace h frame.helps caller) :
    AllMet trace h (frame :: rest) :=
  ⟨List.forall_mem_cons.mpr ⟨here, below.here⟩, below.called.cons called⟩

/-- The running activation moves on and still works for the same call. -/
theorem moved {frame' : Frame P.numWords} (met : AllMet front h (frame :: rest))
    (same : frame'.helps = frame.helps) (here : MetHere (front ++ back) h frame') :
    AllMet (front ++ back) h (frame' :: rest) := by
  refine met.tail.append.cons here fun caller member => ?_
  rw [same]
  exact (met.called.rel_head? member).append

end AllMet

theorem metHere_of_calm (calm : pc.Calm) :
    MetHere trace h (.operating role op pc : Frame P.numWords) := by
  cases pc <;> trivial

theorem allMet_step (reached : Reached P load cells trace x)
    (met : AllMet trace x.actor.thread (x.before.threads x.actor.thread).stack) :
    AllMet (trace ++ [x]) x.actor.thread (x.after.threads x.actor.thread).stack := by
  have held := reached.before.callStacks _ reached.within
  have moves := reached.moves
  generalize x.before.threads x.actor.thread = thread at met held moves
  generalize x.after.threads x.actor.thread = thread' at moves
  generalize after : x.after.shared = s' at moves
  generalize happened : x.event = event at moves
  cases moves with
  | invoke => exact ⟨by simp [MetHere], .singleton _⟩
  | respond => exact ⟨by simp, .nil⟩
  | @helpReturned completed role op w target expected helped result rest =>
    exact met.tail.moved rfl trivial
  | @move completed frame rest _ _ frames moves =>
    cases moves with
    | @init u words pc _ _ frames moves =>
      have alone : rest = [] := by
        cases rest with
        | nil => rfl
        | cons caller rest => exact held.1.elim
      subst alone
      cases moves with
      | storeStage => exact ⟨by simpa using metHere_of_calm turn_claimFrom.calm, .singleton _⟩
      | _ => exact ⟨by simp [MetHere], .singleton _⟩
    | @help u k pc helpee fits entry =>
      exact met.moved rfl (metHere_of_calm (turn_of_helpEntry entry).calm)
    | @operate role u k pc _ _ _ moves =>
      obtain ⟨v, m, same, ok⟩ := workOk_of_mem reached.within held List.mem_cons_self
      obtain ⟨rfl, rfl, -⟩ := (Operation.mk.injEq ..).mp same
      rcases moves.calm_or ok.position with ⟨pc', rfl, calm⟩ |
        ⟨w, target, expected, rfl, -, -, rfl, rfl⟩ |
        ⟨w, target, expected, actual, rfl, -, -, -, -, rfl⟩
      · exact met.moved rfl (metHere_of_calm calm)
      · exact met.moved rfl ⟨x, by simp, rfl, happened⟩
      · have found : Met trace x.actor.thread (P.operation u k) w target expected actual :=
          met.here _ List.mem_cons_self
        have waiting : AllMet (trace ++ [x]) x.actor.thread
            (.operating role (P.operation u k) (.claimHelp w target expected) :: rest) :=
          met.moved rfl trivial
        refine waiting.cons trivial ?_
        rintro caller ⟨⟩ value ⟨⟩
        exact found.append

theorem allMet_of_execution (rules : UsageRules P load cells) (run : Execution P load cells trace σ)
    (h : ℕ) : AllMet trace h (σ.threads h).stack := by
  refine execution_always (fun trace σ => ∀ h, AllMet trace h (σ.threads h).stack) rules
    (fun h => ⟨by simp [Config.initial], .nil⟩) (fun trace x reached met h => ?_) run h
  by_cases same : h = x.actor.thread
  · subst same
    exact allMet_step reached (met _)
  · rw [reached.others h same]
    exact (met h).append

/-! ### Helpers that help -/

/-- A helper's verification of the stage succeeds, and `claim` enters
`help_thread` for the value it met at word `w`. -/
structure HelpsInTurn (P : Params) (x : Transition (Config P.numWords) Actor Event)
    (op : Operation) (w target expected actual : ℕ) (rest : List (Frame P.numWords)) : Prop where
  verifies : (x.before.threads x.actor.thread).stack =
    .operating .helper op (.claimVerify w target expected actual) :: rest
  enters : (x.after.threads x.actor.thread).stack =
    .helpThread actual :: .operating .helper op (.claimHelp w target expected) :: rest

/-- The helper of `op` was let in by the marker of `op`, which its caller met at
word `j` of that call. -/
def LetInAt (P : Params) (load : Workload P.numWords) (front : Trace P) (h : ℕ) (op : Operation)
    (j : ℕ) (rest : List (Frame P.numWords)) : Prop :=
  ∃ role calling i address expected below,
    rest = .operating role calling (.claimHelp i address expected) :: below ∧
      address = (load.call op.threadIndex op.sequence).target j ∧
      Met front h calling i address expected op.threadAndSequence

/-- A helper that helps in turn does so for a call at Claiming, at a word of
that call after the one that let it in. -/
structure BlockedFurther (P : Params) (load : Workload P.numWords) (front : Trace P)
    (x : Transition (Config P.numWords) Actor Event) (op : Operation) (w target : ℕ)
    (rest : List (Frame P.numWords)) : Prop where
  sequence : x.before.shared.sequenceOf P op.threadIndex = op.sequence
  claiming : x.before.shared.stageOf P op.threadIndex = .claiming
  inRange : w < P.numWords
  address : target = (load.call op.threadIndex op.sequence).target w
  letIn : ∃ j < w, LetInAt P load front x.actor.thread op j rest

theorem HelpsInTurn.verified (inTurn : HelpsInTurn P x op w target expected value rest)
    (reached : Reached P load cells front x) :
    x.before.shared.sequenceOf P op.threadIndex = op.sequence ∧
      x.before.shared.stageOf P op.threadIndex = .claiming := by
  obtain ⟨verifies, enters⟩ := inTurn
  have moves := reached.moves
  generalize x.before.threads x.actor.thread = thread at verifies moves
  generalize x.after.threads x.actor.thread = thread' at enters moves
  generalize x.after.shared = s' at moves
  generalize x.event = event at moves
  obtain ⟨completed, stack⟩ := thread
  obtain rfl : stack = _ := verifies
  cases moves with
  | move moves =>
    cases moves with
    | operate moves =>
      cases moves with
      | verifiedMarker current claiming => exact ⟨current, claiming⟩
      | verifiedReal => simp at enters
      | claimDiverted => simp at enters

/-- In one order of the addresses, the word after which another comes is earlier
in the list. -/
theorem lt_of_before (strict : IsStrictOrder ℕ before) (listed : ListedInOrder P load before)
    (call : CallOk P load s t n) {i j : ℕ} (inRange : i < P.numWords)
    (earlier : before ((load.call t n).target i) ((load.call t n).target j)) : i < j := by
  by_contra notBefore
  rcases Nat.eq_or_lt_of_le (Nat.le_of_not_lt notBefore) with rfl | later
  · exact strict.irrefl _ earlier
  · exact strict.irrefl _
      (strict.trans _ _ _ earlier (listed t call.within n call.counted i inRange j later))

theorem blockedFurther_of_helpsInTurn (rules : UsageRules P load cells)
    (ordered : GlobalOrder P load) (reached : Reached P load cells front x)
    (inTurn : HelpsInTurn P x op w target expected value rest) :
    BlockedFurther P load front x op w target rest := by
  obtain ⟨order, strict, listed⟩ := ordered
  obtain ⟨sequence, claiming⟩ := inTurn.verified reached
  have nested := nested_of_execution rules listed reached.run _ reached.within
  have held := reached.before.callStacks _ reached.within
  have met := allMet_of_execution rules reached.run x.actor.thread
  rw [inTurn.verifies] at nested held met
  cases rest with
  | nil => cases held.1
  | cons caller below =>
    obtain ⟨address, waits⟩ := waits_of_waiting held.2.1
    obtain ⟨t, n, rfl, call, standsOn, further⟩ := nested.2.1 address waits
    obtain ⟨u, k, -, same, -, -, position⟩ := held.1
    obtain ⟨rfl, rfl, -⟩ := (Operation.mk.injEq ..).mp same
    obtain ⟨⟨inRange, -, own, -⟩, -⟩ := position
    obtain ⟨j, inRange', stands, -⟩ := standsOn sequence claiming
    have target_eq := own.2 sequence
    have earlier : order address target := further sequence claiming
    rw [stands, target_eq] at earlier
    refine ⟨sequence, claiming, inRange, target_eq, j,
      lt_of_before strict listed call inRange' earlier, ?_⟩
    unfold Frame.waitsAt at waits
    split at waits
    · cases waits
      exact ⟨_, _, _, _, _, below, rfl, stands, met.called.rel_head? rfl _ rfl⟩
    · cases waits

/-- What the markers of calls at Claiming look like in a state, and what the run
to it says about helpers that help in turn. -/
structure ClaimsInOrder (P : Params) (load : Workload P.numWords) (trace : Trace P)
    (σ : Config P.numWords) : Prop where
  marks : ∀ t < P.numThreads, σ.shared.stageOf P t = .claiming → ∃ k, ClaimsPrefix P load σ t k
  helpers : ∀ front x back, trace = front ++ x :: back → ∀ op w target expected actual rest,
    HelpsInTurn P x op w target expected actual rest →
      BlockedFurther P load front x op w target rest

/-- In every run under the usage rules and one order of the addresses, claims
form a prefix while the stage is Claiming, and a helper that helps in turn is
blocked after the word that let it in. -/
theorem claimsInOrder_of_execution (rules : UsageRules P load cells) (ordered : GlobalOrder P load)
    (run : Execution P load cells trace σ) : ClaimsInOrder P load trace σ where
  marks _ within claiming :=
    claimsPrefix_of_configOk (configOk_of_execution rules run) rules within claiming
  helpers := by
    rintro front x back rfl op w target expected actual rest inTurn
    exact blockedFurther_of_helpsInTurn rules ordered (reached_of_split rules run) inTurn

/-- The first two calls hold one cell each, and the third one meets the first. -/
def chained : Workload threeThreads.numWords := .ofCalls
  [[twoWords (onCell 0 0 1) (onCell 1 0 1)],
    [twoWords (onCell 1 0 1) (onCell 2 0 1)],
    [twoWords (onCell 0 0 1) (onCell 2 0 1)]]

theorem chained_rules : UsageRules threeThreads chained fun _ => 0 :=
  usageRules_of_checks (by decide +kernel)

/-- The third thread helps the first one, and inside of it the second one. -/
theorem claimsInOrder_chained : ∃ (trace : Trace threeThreads) (σ : Config threeThreads.numWords),
    Execution threeThreads chained (fun _ => 0) trace σ ∧
      σ.shared.stageOf threeThreads 0 = .claiming ∧ nesting (σ.threads 2).stack = 2 ∧
        ClaimsInOrder threeThreads chained trace σ := by
  obtain ⟨trace, σ, run, claiming, deep⟩ := exists_execution threeThreads chained (fun _ => 0)
    [(0, 12), (1, 12), (2, 21)]
    (fun _ σ => σ.shared.stageOf threeThreads 0 = .claiming ∧ nesting (σ.threads 2).stack = 2)
    (by decide +kernel)
  exact ⟨trace, σ, run, claiming, deep, claimsInOrder_of_execution chained_rules
    (globalOrder_of_ascending (by decide +kernel)) run⟩

end KCas
