import Mathlib.Data.Finset.Card
import Mathlib.Data.Finset.Union
import KCas.Helping

/-! How deep helpers help helpers. An activation waits at a cell that holds the
marker of the call it had helped; that call's own activation waits, if at all,
at a later word of its list. With one order for all lists the cells on a call
stack therefore ascend. -/
namespace KCas

open Labelled

variable {P : Params} {load : Workload P.numWords} {cells : ℕ → ℕ} {s s' : Shared}
  {σ : Config P.numWords} {owner h t u n k w target address value : ℕ} {role : Role} {pc : Pc}
  {event : Event} {frame : Frame P.numWords} {frames stack rest : List (Frame P.numWords)}
  {trace front back : Trace P} {x : Transition (Config P.numWords) Actor Event}
  {before : ℕ → ℕ → Prop}

/-- While the call is at Claiming, the cell is one of its words, and its marker
is on that word and all words before it. -/
def StandsOn (P : Params) (load : Workload P.numWords) (s : Shared) (t n address : ℕ) : Prop :=
  s.sequenceOf P t = n → s.stageOf P t = .claiming → ∃ w < P.numWords,
    address = (load.call t n).target w ∧ ∀ i < w + 1, Marked P load s t n i

/-- The value found at the cell is the marker of a call that stands on it. -/
def BlockedBy (P : Params) (load : Workload P.numWords) (s : Shared) (address value : ℕ) : Prop :=
  ∃ t n, value = P.marker t n ∧ CallOk P load s t n ∧ StandsOn P load s t n address

theorem StandsOn.evolve (standsOn : StandsOn P load s t n address)
    (evo : Evolves P load owner s s') (call : CallOk P load s t n) :
    StandsOn P load s' t n address := by
  intro current claiming
  obtain ⟨same, -, kept | edge⟩ := evo.current_back call.within call.started current
  · have before : s.stageOf P t = .claiming := kept ▸ claiming
    obtain ⟨w, inRange, own, marked⟩ := standsOn same before
    exact ⟨w, inRange, own, fun i below => evo.marks t call.within n call.counted same before
      current claiming _ (marked i below)⟩
  · exact absurd claiming edge.target_ne_claiming

theorem BlockedBy.evolve (blocked : BlockedBy P load s address value)
    (evo : Evolves P load owner s s') : BlockedBy P load s' address value := by
  obtain ⟨t, n, rfl, call, standsOn⟩ := blocked
  exact ⟨t, n, rfl, evo.callOk call, standsOn.evolve evo call⟩

theorem SharedOk.found (shared : SharedOk P load s) (address : ℕ) :
    P.Legal (s.cells address) ∨ BlockedBy P load s address (s.cells address) := by
  refine (shared.cell address).imp_right ?_
  rintro ⟨t, within, n, counted, held, started⟩
  refine ⟨t, n, held, ⟨within, counted, started⟩, fun current claiming => ?_⟩
  obtain ⟨w, inRange, own, below⟩ := shared.claimed t within claiming address (current ▸ held)
  rw [current] at own below
  refine ⟨w, inRange, own, fun i lt => ?_⟩
  rcases Nat.lt_succ_iff_lt_or_eq.mp lt with earlier | rfl
  · exact below i earlier
  · rw [Marked, ← own]
    exact held

/-! ### Call stacks -/

/-- The cell at which an activation waits. -/
def Frame.waitsAt {numWords : ℕ} : Frame numWords → Option ℕ
  | .operating _ _ (.claimHelp _ target _) => some target
  | _ => none

/-- The target addresses of all calls. -/
def targetAddresses (P : Params) (load : Workload P.numWords) : Finset ℕ :=
  (Finset.range P.numThreads).biUnion fun t => (Finset.range (load.count t)).biUnion fun n =>
    (Finset.range P.numWords).image fun w => (load.call t n).target w

/-- What an activation knows of the cell it met a value in. -/
def Meets (P : Params) (load : Workload P.numWords) (s : Shared) : Frame P.numWords → Prop
  | .operating _ _ (.claimVerify _ target _ actual) =>
    P.Legal actual ∨ BlockedBy P load s target actual
  | .operating _ _ (.claimHelp _ target _) => target ∈ targetAddresses P load
  | _ => True

/-- An activation called by one that waits at `address` helps a call that stands
there, and is itself only ever blocked further on. -/
def Beyond (P : Params) (load : Workload P.numWords) (before : ℕ → ℕ → Prop) (s : Shared)
    (address : ℕ) : Frame P.numWords → Prop
  | .initializing .. => False
  | .helpThread marker => BlockedBy P load s address marker
  | .operating _ op pc => ∃ t n, op = P.operation t n ∧ CallOk P load s t n ∧
    StandsOn P load s t n address ∧
      match pc with
      | .claimVerify _ target _ _ => s.sequenceOf P t = n → s.stageOf P t = .claiming →
        before address target
      | .claimHelp _ target _ => before address target
      | _ => True

/-- The invariant of one call stack. -/
def Nested (P : Params) (load : Workload P.numWords) (before : ℕ → ℕ → Prop) (s : Shared) :
    List (Frame P.numWords) → Prop
  | [] => True
  | [frame] => Meets P load s frame
  | frame :: caller :: rest => Meets P load s frame ∧
    (∀ address ∈ caller.waitsAt, Beyond P load before s address frame) ∧
      Nested P load before s (caller :: rest)

theorem Meets.evolve (meets : Meets P load s frame) (evo : Evolves P load owner s s') :
    Meets P load s' frame := by
  unfold Meets at meets ⊢
  split
  · exact meets.imp_right fun blocked => blocked.evolve evo
  · exact meets
  · trivial

theorem Beyond.evolve (beyond : Beyond P load before s address frame)
    (evo : Evolves P load owner s s') : Beyond P load before s' address frame := by
  cases frame with
  | initializing => exact beyond
  | helpThread marker => exact BlockedBy.evolve beyond evo
  | operating role op pc =>
    obtain ⟨t, n, rfl, call, standsOn, position⟩ := beyond
    refine ⟨t, n, rfl, evo.callOk call, standsOn.evolve evo call, ?_⟩
    cases pc with
    | claimVerify w target expected actual =>
      intro current claiming
      obtain ⟨same, -, kept | edge⟩ := evo.current_back call.within call.started current
      · exact position same (kept ▸ claiming)
      · exact absurd claiming edge.target_ne_claiming
    | claimHelp w target expected => exact position
    | _ => trivial

theorem Nested.evolve (nested : Nested P load before s stack) (evo : Evolves P load owner s s') :
    Nested P load before s' stack := by
  induction stack with
  | nil => trivial
  | cons frame rest ih =>
    cases rest with
    | nil => exact Meets.evolve nested evo
    | cons caller rest =>
      obtain ⟨meets, beyond, below⟩ := nested
      exact ⟨meets.evolve evo, fun address waits => (beyond address waits).evolve evo, ih below⟩

theorem Nested.tail (nested : Nested P load before s (frame :: stack)) :
    Nested P load before s stack := by
  cases stack with
  | nil => trivial
  | cons caller rest => exact nested.2.2

/-- A position at which nothing was met. -/
def Pc.Calm : Pc → Prop
  | .claimVerify .. | .claimHelp .. => False
  | _ => True

theorem Pc.Turn.calm (turn : pc.Turn) : pc.Calm := by
  cases pc <;> trivial

theorem meets_of_calm {op : Operation} (calm : pc.Calm) :
    Meets P load s (.operating role op pc) := by
  cases pc <;> trivial

theorem beyond_of_calm (call : CallOk P load s t n) (standsOn : StandsOn P load s t n address)
    (calm : pc.Calm) : Beyond P load before s address (.operating role (P.operation t n) pc) := by
  refine ⟨t, n, rfl, call, standsOn, ?_⟩
  cases pc <;> trivial

theorem beyond_operating (beyond : Beyond P load before s address
    (.operating role (P.operation t n) pc)) :
    CallOk P load s t n ∧ StandsOn P load s t n address := by
  obtain ⟨u, k, same, call, standsOn, -⟩ := beyond
  obtain ⟨rfl, rfl, -⟩ := (Operation.mk.injEq ..).mp same
  exact ⟨call, standsOn⟩

/-- The moves of an operation, by what they leave the activation at. -/
theorem OperationMoves.calm_or (position : PcOk P load s role t n pc)
    (moves : OperationMoves P s role t n pc event s' frames) :
    (∃ pc', frames = [.operating role (P.operation t n) pc'] ∧ pc'.Calm) ∨
      (∃ w target expected, pc = .claimExchange w target expected ∧ s' = s ∧
        s.cells target ≠ P.marker t n ∧
        event = .exchangeCell .claim (P.operation t n) w target expected (P.marker t n)
          (.error (s.cells target)) ∧
        frames =
          [.operating role (P.operation t n) (.claimVerify w target expected (s.cells target))]) ∨
      ∃ w target expected actual, pc = .claimVerify w target expected actual ∧ s' = s ∧
        s.sequenceOf P t = n ∧ s.stageOf P t = .claiming ∧ ¬ P.Legal actual ∧
        frames = [.helpThread actual,
          .operating role (P.operation t n) (.claimHelp w target expected)] := by
  cases moves with
  | claimFoundOther other foreign => exact .inr (.inl ⟨_, _, _, rfl, rfl, foreign, rfl, rfl⟩)
  | verifiedMarker current claiming within foreign =>
    exact .inr (.inr ⟨_, _, _, _, rfl, rfl, current, claiming, foreign, rfl⟩)
  | claimed | claimFoundOwn => exact .inl ⟨_, rfl, turn_claimFrom.calm⟩
  | claimDiverted diverted =>
    exact .inl ⟨_, rfl, (turn_of_goesOn (goesOn_of_claimDiverted diverted)).calm⟩
  | stageChanged sequence stage edge => exact .inl ⟨_, rfl, turn_afterStageChanged.calm⟩
  | stageRefused diverted =>
    exact .inl ⟨_, rfl, (turn_of_goesOn (goesOn_of_stageRefused position diverted)).calm⟩
  | setDone | setVerified => exact .inl ⟨_, rfl, turn_setFrom.calm⟩
  | setDiverted diverted =>
    exact .inl ⟨_, rfl, (turn_of_goesOn (goesOn_of_setDiverted position.2 diverted)).calm⟩
  | reverted | revertMissed => exact .inl ⟨_, rfl, (turn_revertBelow position.2.1).calm⟩
  | _ => exact .inl ⟨_, rfl, trivial⟩

theorem target_mem (within : t < P.numThreads) (counted : n < load.count t)
    (inRange : w < P.numWords) : (load.call t n).target w ∈ targetAddresses P load := by
  simp only [targetAddresses, Finset.mem_biUnion, Finset.mem_range, Finset.mem_image]
  exact ⟨t, within, n, counted, w, inRange, rfl⟩

/-- A call that stands on a cell and is blocked at a later step of its claim
loop is blocked at a cell that comes after. -/
theorem before_of_blocked (listed : ListedInOrder P load before) (call : CallOk P load s t n)
    (standsOn : StandsOn P load s t n address)
    (position : PcOk P load s role t n (.claimExchange w target expected))
    (foreign : s.cells target ≠ P.marker t n) (current : s.sequenceOf P t = n)
    (claiming : s.stageOf P t = .claiming) : before address target := by
  obtain ⟨inRange, -, target_eq, -⟩ := position
  obtain ⟨j, -, rfl, marked⟩ := standsOn current claiming
  obtain rfl := target_eq.2 current
  refine listed t call.within n call.counted w inRange j ?_
  by_contra notBefore
  exact foreign (marked w (by omega))

/-- A step of the running activation keeps the invariant of the stack. -/
theorem nested_of_operationMoves (shared : SharedOk P load s) (listed : ListedInOrder P load before)
    (call : CallOk P load s t n) (position : PcOk P load s role t n pc)
    (evo : Evolves P load owner s s')
    (moves : OperationMoves P s role t n pc event s' frames)
    (nested : Nested P load before s (.operating role (P.operation t n) pc :: rest)) :
    Nested P load before s' (frames ++ rest) := by
  have meets : Meets P load s (.operating role (P.operation t n) pc) := by
    cases rest with
    | nil => exact nested
    | cons caller rest => exact nested.1
  rcases moves.calm_or position with ⟨pc', rfl, calm⟩ |
    ⟨w, target, expected, rfl, rfl, foreign, -, rfl⟩ |
    ⟨w, target, expected, actual, rfl, rfl, current, claiming, unreal, rfl⟩
  · cases rest with
    | nil => exact meets_of_calm calm
    | cons caller rest =>
      refine ⟨meets_of_calm calm, fun address waits => ?_, nested.2.2.evolve evo⟩
      obtain ⟨call, standsOn⟩ := beyond_operating (nested.2.1 address waits)
      exact beyond_of_calm (evo.callOk call) (standsOn.evolve evo call) calm
  · have found : Meets P load s'
        (.operating role (P.operation t n) (.claimVerify w target expected (s'.cells target))) :=
      shared.found target
    cases rest with
    | nil => exact found
    | cons caller rest =>
      refine ⟨found, fun address waits => ?_, nested.2.2⟩
      obtain ⟨call, standsOn⟩ := beyond_operating (nested.2.1 address waits)
      exact ⟨t, n, rfl, call, standsOn, fun current claiming =>
        before_of_blocked listed call standsOn position foreign current claiming⟩
  · obtain ⟨⟨inRange, -, address, -⟩, -⟩ := position
    have here : target ∈ targetAddresses P load := by
      rw [address.2 current]
      exact target_mem call.within call.counted inRange
    have blocked : BlockedBy P load s' target actual := meets.resolve_left unreal
    refine ⟨trivial, fun a waits => Option.mem_some.mp waits ▸ blocked, ?_⟩
    cases rest with
    | nil => exact here
    | cons caller rest =>
      refine ⟨here, fun address waits => ?_, nested.2.2⟩
      obtain ⟨u, k, same, call, standsOn, further⟩ := nested.2.1 address waits
      obtain ⟨rfl, rfl, -⟩ := (Operation.mk.injEq ..).mp same
      exact ⟨t, n, rfl, call, standsOn, further current claiming⟩

theorem nested_of_threadMoves {thread thread' : Thread P.numWords} (shared : SharedOk P load s)
    (rules : UsageRules P load cells) (listed : ListedInOrder P load before)
    (within : t < P.numThreads)
    (held : StackOk P load s t thread.completed thread.stack)
    (evo : Evolves P load owner s s') (moves : ThreadMoves P load s t thread event s' thread')
    (nested : Nested P load before s thread.stack) : Nested P load before s' thread'.stack := by
  cases moves with
  | invoke more => trivial
  | respond => trivial
  | @helpReturned completed role op w target expected helped result rest harmless =>
    have below := nested.tail
    cases rest with
    | nil => trivial
    | cons caller rest =>
      refine ⟨trivial, fun address waits => ?_, below.2.2⟩
      obtain ⟨u, k, rfl, call, standsOn, -⟩ := below.2.1 address waits
      exact ⟨u, k, rfl, call, standsOn, trivial⟩
  | @move completed frame rest _ _ frames moves =>
    cases moves with
    | init moves =>
      have alone : rest = [] := by
        cases rest with
        | nil => rfl
        | cons caller rest => exact held.1.elim
      subst alone
      cases moves with
      | storeStage => exact meets_of_calm turn_claimFrom.calm
      | _ => trivial
    | @help u k pc helpee fits entry =>
      cases rest with
      | nil => exact held.elim
      | cons caller rest =>
        refine ⟨meets_of_calm (turn_of_helpEntry entry).calm, fun address waits => ?_, nested.2.2⟩
        obtain ⟨v, m, same, call, standsOn⟩ := nested.2.1 address waits
        obtain ⟨rfl, rfl⟩ := Params.marker_inj helpee fits call.within
          (rules.marker_lt call.within call.counted) same
        exact beyond_of_calm call standsOn (turn_of_helpEntry entry).calm
    | @operate role u k pc _ _ _ moves =>
      obtain ⟨v, m, same, ok⟩ := workOk_of_mem within held List.mem_cons_self
      obtain ⟨rfl, rfl, -⟩ := (Operation.mk.injEq ..).mp same
      exact nested_of_operationMoves shared listed ok.call ok.position evo moves nested

/-- In every run under one order of the addresses the call stacks are nested. -/
theorem nested_of_execution (rules : UsageRules P load cells) (listed : ListedInOrder P load before)
    (run : Execution P load cells trace σ) :
    ∀ t < P.numThreads, Nested P load before σ.shared (σ.threads t).stack := by
  refine execution_always (fun _ σ => ∀ t < P.numThreads,
    Nested P load before σ.shared (σ.threads t).stack) rules (fun t _ => trivial) ?_ run
  intro trace x reached nested t within
  by_cases same : t = x.actor.thread
  · subst same
    exact nested_of_threadMoves reached.before.shared rules listed within
      (reached.before.callStacks _ within) reached.evolves reached.moves (nested _ within)
  · rw [reached.others t same]
    exact (nested t within).evolve reached.evolves

/-! ### The bound -/

/-- The activations of `help_thread` on a call stack, each inside the `claim` of
the activation below it. -/
def nesting {numWords : ℕ} (stack : List (Frame numWords)) : ℕ :=
  stack.countP fun
    | .helpThread _ => true
    | .operating .helper _ _ => true
    | _ => false

/-- The cells at which the activations below the running one wait. -/
def waitingAt {numWords : ℕ} (stack : List (Frame numWords)) : List ℕ :=
  stack.tail.filterMap Frame.waitsAt

theorem waits_of_waiting (waiting : Waiting P frame) : ∃ address, frame.waitsAt = some address := by
  cases frame with
  | initializing => exact waiting.elim
  | helpThread => exact waiting.elim
  | operating role op pc =>
    cases pc with
    | claimHelp w target expected => exact ⟨target, rfl⟩
    | _ => exact waiting.elim

theorem nesting_eq (held : StackOk P load s t n stack) :
    nesting stack = (waitingAt stack).length := by
  induction stack with
  | nil => rfl
  | cons frame rest ih =>
    cases rest with
    | nil =>
      cases frame with
      | helpThread => exact held.elim
      | initializing => rfl
      | operating role op pc =>
        obtain ⟨rfl, -⟩ := held
        rfl
    | cons caller rest =>
      obtain ⟨helper, waiting, below⟩ := held
      obtain ⟨address, waits⟩ := waits_of_waiting waiting
      have one : nesting (frame :: caller :: rest) = nesting (caller :: rest) + 1 := by
        cases frame with
        | initializing => exact helper.elim
        | helpThread marker => simp [nesting]
        | operating role op pc =>
          obtain ⟨u, k, rfl, -⟩ := helper
          simp [nesting]
      rw [one, ih below]
      simp [waitingAt, waits]

theorem meets_target {caller : Frame P.numWords} (meets : Meets P load s caller)
    (waits : caller.waitsAt = some address) : address ∈ targetAddresses P load := by
  unfold Frame.waitsAt at waits
  split at waits
  · cases waits
    exact meets
  · cases waits

theorem beyond_target {caller : Frame P.numWords}
    (beyond : Beyond P load before s address caller) {further : ℕ}
    (waits : caller.waitsAt = some further) : before address further := by
  unfold Frame.waitsAt at waits
  split at waits
  · cases waits
    obtain ⟨u, k, -, -, -, position⟩ := beyond
    exact position
  · cases waits

/-- The cells of a nested stack come one after another. -/
theorem waitingAt_sorted (transitive : ∀ a b c, before a b → before b c → before a c)
    (held : StackOk P load s t n (frame :: stack))
    (nested : Nested P load before s (frame :: stack)) :
    (stack.filterMap Frame.waitsAt).Pairwise (fun later earlier => before earlier later) ∧
      ∀ address ∈ stack.filterMap Frame.waitsAt, address ∈ targetAddresses P load := by
  induction stack generalizing frame with
  | nil => simp
  | cons caller rest ih =>
    obtain ⟨address, waits⟩ := waits_of_waiting held.2.1
    obtain ⟨sorted, targets⟩ := ih held.2.2 nested.2.2
    have here : address ∈ targetAddresses P load := by
      cases rest with
      | nil => exact meets_target nested.2.2 waits
      | cons below rest => exact meets_target nested.2.2.1 waits
    rw [List.filterMap_cons_some waits]
    refine ⟨List.pairwise_cons.mpr ⟨?_, sorted⟩, ?_⟩
    · cases rest with
      | nil => simp
      | cons below rest =>
        obtain ⟨next, waitsBelow⟩ := waits_of_waiting held.2.2.2.1
        have step : before next address :=
          beyond_target (nested.2.2.2.1 next waitsBelow) waits
        rw [List.filterMap_cons_some waitsBelow] at sorted ⊢
        intro earlier member
        rcases List.mem_cons.mp member with rfl | later
        · exact step
        · exact transitive _ _ _ ((List.pairwise_cons.mp sorted).1 earlier later) step
    · intro a member
      rcases List.mem_cons.mp member with rfl | later
      · exact here
      · exact targets a later

/-- Under one order of all addresses, helping is never nested deeper than there
are target addresses. -/
theorem nesting_le (rules : UsageRules P load cells) (ordered : GlobalOrder P load)
    (run : Execution P load cells trace σ) : ∀ t < P.numThreads,
      nesting (σ.threads t).stack ≤ (targetAddresses P load).card := by
  intro t within
  obtain ⟨before, strict, listed⟩ := ordered
  have held := (configOk_of_execution rules run).callStacks t within
  have nested := nested_of_execution rules listed run t within
  rw [nesting_eq held, waitingAt]
  generalize (σ.threads t).stack = stack at held nested
  cases stack with
  | nil => exact Nat.zero_le _
  | cons frame rest =>
    obtain ⟨sorted, targets⟩ := waitingAt_sorted strict.trans held nested
    have distinct : (rest.filterMap Frame.waitsAt).Nodup := by
      refine sorted.imp fun {later earlier} step => ?_
      rintro rfl
      exact strict.irrefl _ step
    rw [List.tail_cons, ← List.toFinset_card_of_nodup distinct]
    exact Finset.card_le_card fun a member => targets a (List.mem_toFinset.mp member)

/-- In the contended run the second thread helps the first one, one deep. -/
theorem nesting_le_contended : ∃ (trace : Trace twoThreads) (σ : Config twoThreads.numWords),
    Execution twoThreads contended (fun _ => 0) trace σ ∧ nesting (σ.threads 1).stack = 1 ∧
      ∀ t < 2, nesting (σ.threads t).stack ≤ (targetAddresses twoThreads contended).card := by
  obtain ⟨trace, σ, run, helping⟩ := exists_execution twoThreads contended (fun _ => 0)
    [(0, 18), (1, 16)] (fun _ σ => nesting (σ.threads 1).stack = 1) (by decide +kernel)
  exact ⟨trace, σ, run, helping,
    nesting_le contended_rules (globalOrder_of_ascending (by decide +kernel)) run⟩

/-! ### The rule for pairs of calls -/

/-- A list that has both addresses has the first one first. -/
def ListsBefore {numWords : ℕ} (words : KCasWords numWords) (first second : ℕ) : Prop :=
  ∀ j < numWords, ∀ i < numWords, first = words.target i → second = words.target j → i < j

instance {numWords : ℕ} (words : KCasWords numWords) (first second : ℕ) :
    Decidable (ListsBefore words first second) :=
  inferInstanceAs (Decidable (∀ j < numWords, ∀ i < numWords, _ → _ → _))

/-- The addresses that two lists share come in the same order. -/
def SameOrder {numWords : ℕ} (words words' : KCasWords numWords) : Prop :=
  ∀ j < numWords, ∀ i < j, ListsBefore words' (words.target i) (words.target j)

instance {numWords : ℕ} (words words' : KCasWords numWords) : Decidable (SameOrder words words') :=
  inferInstanceAs (Decidable (∀ j < numWords, ∀ i < j, _))

/-- Any two calls list the addresses they share in the same order. -/
def PairwiseOrder (P : Params) (load : Workload P.numWords) : Prop :=
  ∀ t < P.numThreads, ∀ n < load.count t, ∀ u < P.numThreads, ∀ k < load.count u,
    SameOrder (load.call t n) (load.call u k)

instance (P : Params) (load : Workload P.numWords) : Decidable (PairwiseOrder P load) :=
  inferInstanceAs (Decidable (∀ t < P.numThreads, ∀ n < load.count t, ∀ u < P.numThreads,
    ∀ k < load.count u, _))

/-- Three calls of which each shares one address with each other. -/
def cyclic : Workload threeThreads.numWords := .ofCalls
  [[twoWords (onCell 0 0 1) (onCell 1 0 1)],
    [twoWords (onCell 1 0 1) (onCell 2 0 1)],
    [twoWords (onCell 2 0 1) (onCell 0 0 1)]]

theorem cyclic_rules : UsageRules threeThreads cyclic fun _ => 0 :=
  usageRules_of_checks (by decide +kernel)

/-- Every thread claims its first word. Then the first thread helps the second,
inside of it the third, inside of it the first, and inside of it the second. -/
def cyclicTurns : List (ℕ × ℕ) := [(0, 12), (1, 12), (2, 12), (0, 28)]

theorem not_nesting_le : ¬ ∀ (P : Params) (load : Workload P.numWords) (cells : ℕ → ℕ),
    UsageRules P load cells → PairwiseOrder P load → ∀ trace σ, Execution P load cells trace σ →
      ∀ t < P.numThreads, nesting (σ.threads t).stack ≤ (targetAddresses P load).card := by
  intro claim
  obtain ⟨trace, σ, run, deep⟩ := exists_execution threeThreads cyclic (fun _ => 0) cyclicTurns
    (fun _ σ => nesting (σ.threads 0).stack = 4) (by decide +kernel)
  have bound := claim threeThreads cyclic (fun _ => 0) cyclic_rules (by decide +kernel) trace σ run
    0 (by decide)
  rw [deep] at bound
  exact absurd bound (by decide +kernel)

end KCas
