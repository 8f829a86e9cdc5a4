import KCas.Reachable

/-! A step of a run seen from the activations: which of them it moves, where the
ones after it come from, and what it leaves alone. The invariants that follow
are about activations wherever they are on a call stack. -/
namespace KCas

open Labelled

abbrev Trace (P : Params) := List (Transition (Config P.numWords) Actor Event)

variable {P : Params} {load : Workload P.numWords} {cells : ℕ → ℕ} {s s' : Shared}
  {σ : Config P.numWords} {h t n w target expected : ℕ} {role : Role} {pc : Pc} {event : Event}
  {frames stack : List (Frame P.numWords)}

/-- Somewhere on the stack of thread index `h` an activation runs the call of
thread index `t` with sequence `n`, and `pc` is its position. -/
structure Works (P : Params) (σ : Config P.numWords) (h : ℕ) (role : Role) (t n : ℕ) (pc : Pc) :
    Prop where
  within : h < P.numThreads
  member : .operating role (P.operation t n) pc ∈ (σ.threads h).stack

/-- What the invariant says about an activation on the stack of thread index
`h`, whose own call is `completed`. -/
structure WorkOk (P : Params) (load : Workload P.numWords) (s : Shared) (h completed : ℕ)
    (role : Role) (t n : ℕ) (pc : Pc) : Prop where
  call : CallOk P load s t n
  position : PcOk P load s role t n pc
  own : role = .originator → t = h ∧ n = completed ∧ RowAt P s t n pc
  words : role = .helper → 0 < P.numWords

/-- The row of an originator that moves carries its call. -/
theorem WorkOk.current {completed : ℕ} (ok : WorkOk P load s h completed role t n pc)
    (moves : OperationMoves P s role t n pc event s' frames) (originator : role = .originator) :
    s.sequenceOf P t = n :=
  ((ok.own originator).2.2.active moves.unfinished).2

theorem workOk_of_originatorOk {op : Operation} (within : h < P.numThreads)
    (held : OriginatorOk P load s h n (.operating role op pc)) :
    op = P.operation h n ∧ WorkOk P load s h n role h n pc := by
  obtain ⟨rfl, rfl, counted, row, position⟩ := held
  exact ⟨rfl, ⟨within, counted, row.started⟩, position, fun _ => ⟨rfl, rfl, row⟩, by simp⟩

theorem workOk_of_helperOk {op : Operation} {completed : ℕ}
    (held : HelperOk P load s (.operating role op pc)) :
    ∃ t n, op = P.operation t n ∧ WorkOk P load s h completed role t n pc := by
  obtain ⟨t, n, rfl, rfl, call, words, position⟩ := held
  exact ⟨t, n, rfl, call, position, by simp, fun _ => words⟩

theorem workOk_of_mem {op : Operation} {completed : ℕ} (within : h < P.numThreads)
    (held : StackOk P load s h completed stack) (member : .operating role op pc ∈ stack) :
    ∃ t n, op = P.operation t n ∧ WorkOk P load s h completed role t n pc := by
  induction stack with
  | nil => cases member
  | cons frame rest ih =>
    cases rest with
    | nil =>
      obtain rfl := List.mem_singleton.mp member
      exact ⟨_, _, workOk_of_originatorOk within held⟩
    | cons caller rest =>
      rcases List.mem_cons.mp member with rfl | later
      · exact workOk_of_helperOk held.1
      · exact ih held.2.2 later

theorem Works.ok (works : Works P σ h role t n pc) (ok : ConfigOk P load σ) :
    WorkOk P load σ.shared h (σ.threads h).completed role t n pc := by
  obtain ⟨u, k, same, held⟩ :=
    workOk_of_mem works.within (ok.callStacks h works.within) works.member
  obtain ⟨rfl, rfl, -⟩ := (Operation.mk.injEq ..).mp same
  exact held

/-- The activations that a step of a thread with call stack `stack` puts there. -/
inductive Arrives (P : Params) (s : Shared) (h : ℕ) (stack : List (Frame P.numWords))
    (event : Event) (s' : Shared) : Role → ℕ → ℕ → Pc → Prop where
  | moved {role t n pc pc' rest frames} :
      stack = .operating role (P.operation t n) pc :: rest →
      OperationMoves P s role t n pc event s' frames →
      .operating role (P.operation t n) pc' ∈ frames →
      Arrives P s h stack event s' role t n pc'
  | published {words n} :
      stack = [.initializing (h + 1) h words (.storeStage n)] →
      event = .storeStage h (P.stageWord .claiming n) →
      s' = s.storeStage h (P.stageWord .claiming n) →
      Arrives P s h stack event s' .originator h n (claimFrom P .originator (P.operation h n) 0)
  | entered {t n pc rest} :
      stack = .helpThread (P.marker t n) :: rest → t < P.numThreads →
      n < 2 ^ P.markerSequenceBits → HelpEntry P s t n pc → event = .silent → s' = s →
      Arrives P s h stack event s' .helper t n pc
  | resumed {role t n helped result w target expected rest} :
      stack = .operating .helper helped (.returned result) ::
        .operating role (P.operation t n) (.claimHelp w target expected) :: rest →
      event = .silent → s' = s →
      Arrives P s h stack event s' role t n (.claimExchange w target expected)

theorem OperationMoves.frames_eq (moves : OperationMoves P s role t n pc event s' frames)
    {role' : Role} {op : Operation} {pc' : Pc} (member : .operating role' op pc' ∈ frames) :
    role' = role ∧ op = P.operation t n := by
  cases moves <;> simp_all

theorem arrives_of_threadMoves {thread thread' : Thread P.numWords} {role : Role}
    (held : StackOk P load s h thread.completed thread.stack)
    (moves : ThreadMoves P load s h thread event s' thread')
    (member : .operating role (P.operation t n) pc ∈ thread'.stack) :
    .operating role (P.operation t n) pc ∈ thread.stack ∨
      Arrives P s h thread.stack event s' role t n pc := by
  cases moves with
  | invoke more => simp at member
  | respond => simp at member
  | helpReturned harmless =>
    rcases List.mem_cons.mp member with same | below
    · obtain ⟨rfl, rfl, rfl⟩ := (Frame.operating.injEq ..).mp same
      exact .inr (.resumed rfl rfl rfl)
    · exact .inl (List.mem_cons_of_mem _ (List.mem_cons_of_mem _ below))
  | @move completed frame rest _ _ frames moves =>
    rcases List.mem_append.mp member with fresh | below
    · right
      cases moves with
      | @init u words pc _ _ _ moves =>
        cases moves with
        | storeStage =>
          have alone : rest = [] ∧ u = h := by
            cases rest with
            | nil => exact ⟨rfl, held.2.1⟩
            | cons caller rest => exact held.1.elim
          obtain ⟨rfl, rfl⟩ := alone
          simp only [List.mem_singleton, Frame.operating.injEq] at fresh
          obtain ⟨rfl, same, rfl⟩ := fresh
          obtain ⟨rfl, rfl, -⟩ := (Operation.mk.injEq ..).mp same
          exact .published rfl rfl rfl
        | _ => simp at fresh
      | help within fits entry =>
        simp only [List.mem_singleton, Frame.operating.injEq] at fresh
        obtain ⟨rfl, same, rfl⟩ := fresh
        obtain ⟨rfl, rfl, -⟩ := (Operation.mk.injEq ..).mp same
        exact .entered rfl within fits entry rfl rfl
      | operate moves =>
        obtain ⟨rfl, same⟩ := moves.frames_eq fresh
        obtain ⟨rfl, rfl, -⟩ := (Operation.mk.injEq ..).mp same
        exact .moved rfl moves fresh
    · exact .inl (List.mem_cons_of_mem _ below)

/-! ### Steps of a run -/

/-- A step that follows the run `trace`, with all that the invariant says about it. -/
structure Reached (P : Params) (load : Workload P.numWords) (cells : ℕ → ℕ) (trace : Trace P)
    (x : Transition (Config P.numWords) Actor Event) : Prop where
  run : Execution P load cells trace x.before
  taken : step P load x.before x.actor = some (x.event, x.after)
  before : ConfigOk P load x.before
  after : ConfigOk P load x.after
  within : x.actor.thread < P.numThreads
  moves : ThreadMoves P load x.before.shared x.actor.thread (x.before.threads x.actor.thread)
    x.event x.after.shared (x.after.threads x.actor.thread)
  others : ∀ u, u ≠ x.actor.thread → x.after.threads u = x.before.threads u
  evolves : Evolves P load x.actor.thread x.before.shared x.after.shared

variable {trace front back : Trace P} {x : Transition (Config P.numWords) Actor Event}

theorem reached_of_step (rules : UsageRules P load cells)
    (run : Execution P load cells trace x.before)
    (taken : step P load x.before x.actor = some (x.event, x.after)) :
    Reached P load cells trace x := by
  have before := configOk_of_execution rules run
  obtain ⟨within, moves, others⟩ := threadMoves_of_step before rules taken
  obtain ⟨-, evolves, -⟩ :=
    kept_of_threadMoves before.shared rules within (before.callStacks _ within) moves
  refine ⟨run, taken, before, configOk_of_step before rules taken, within, moves, ?_, evolves⟩
  intro u other
  rw [others, Function.update_of_ne other]

theorem reached_of_split (rules : UsageRules P load cells)
    (run : Execution P load cells (front ++ x :: back) σ) : Reached P load cells front x := by
  obtain ⟨earlier, taken, -⟩ := run.split
  exact reached_of_step rules earlier taken

/-- The invariant rule for runs under the usage rules whose steps are all admitted. -/
theorem execution_invariant (admitted : Transition (Config P.numWords) Actor Event → Prop)
    (holds : Trace P → Config P.numWords → Prop) (rules : UsageRules P load cells)
    (initially : holds [] (Config.initial P.numWords cells))
    (kept : ∀ trace x, Reached P load cells trace x → admitted x → holds trace x.before →
      holds (trace ++ [x]) x.after)
    (run : Execution P load cells trace σ) (all : ∀ x ∈ trace, admitted x) : holds trace σ := by
  apply run.invariant admitted holds initially _ all
  intro trace before actor event after earlier stepped allowed held
  have reached : Reached P load cells trace ⟨before, actor, event, after⟩ :=
    reached_of_step rules earlier stepped
  exact kept trace _ reached allowed held

/-- The invariant rule for all runs under the usage rules. -/
theorem execution_always (holds : Trace P → Config P.numWords → Prop)
    (rules : UsageRules P load cells) (initially : holds [] (Config.initial P.numWords cells))
    (kept : ∀ trace x, Reached P load cells trace x → holds trace x.before →
      holds (trace ++ [x]) x.after)
    (run : Execution P load cells trace σ) : holds trace σ :=
  execution_invariant (fun _ => True) holds rules initially
    (fun trace x reached _ held => kept trace x reached held) run fun _ _ => trivial

/-! ### Cells -/

/-- What a step does to the cell at `address`. -/
inductive CellStep (P : Params) (x : Transition (Config P.numWords) Actor Event) (address : ℕ) :
    Prop where
  | kept : x.after.shared.cells address = x.before.shared.cells address → CellStep P x address
  | claimed {role : Role} {t n w expected : ℕ} :
      Works P x.before x.actor.thread role t n (.claimExchange w address expected) →
      x.event = .exchangeCell .claim (P.operation t n) w address expected (P.marker t n)
        (.ok expected) →
      x.before.shared.cells address = expected → x.after.shared.cells address = P.marker t n →
      CellStep P x address
  | set {role : Role} {t n w desired : ℕ} :
      Works P x.before x.actor.thread role t n (.setExchange w address desired) →
      x.event = .exchangeCell .set (P.operation t n) w address (P.marker t n) desired
        (.ok (P.marker t n)) →
      x.before.shared.cells address = P.marker t n → x.after.shared.cells address = desired →
      CellStep P x address
  | reverted {role : Role} {t n w expected : ℕ} {next : RevertNext} :
      Works P x.before x.actor.thread role t n (.revertExchange w address expected next) →
      x.event = .exchangeCell .revert (P.operation t n) w address (P.marker t n) expected
        (.ok (P.marker t n)) →
      x.before.shared.cells address = P.marker t n → x.after.shared.cells address = expected →
      CellStep P x address

/-- The moves that write to a cell. -/
theorem OperationMoves.cell (moves : OperationMoves P s role t n pc event s' frames)
    (address : ℕ) : s'.cells address = s.cells address ∨
      (∃ w expected, pc = .claimExchange w address expected ∧
        event = .exchangeCell .claim (P.operation t n) w address expected (P.marker t n)
          (.ok expected) ∧ s.cells address = expected ∧ s'.cells address = P.marker t n) ∨
      (∃ w desired, pc = .setExchange w address desired ∧
        event = .exchangeCell .set (P.operation t n) w address (P.marker t n) desired
          (.ok (P.marker t n)) ∧ s.cells address = P.marker t n ∧ s'.cells address = desired) ∨
      ∃ w expected next, pc = .revertExchange w address expected next ∧
        event = .exchangeCell .revert (P.operation t n) w address (P.marker t n) expected
          (.ok (P.marker t n)) ∧ s.cells address = P.marker t n ∧ s'.cells address = expected := by
  cases moves with
  | @claimed w target expected found =>
    by_cases same : address = target
    · subst same
      exact .inr (.inl ⟨w, expected, rfl, rfl, found, s.setCell_self⟩)
    · exact .inl (s.setCell_of_ne same)
  | @setDone w target desired found =>
    by_cases same : address = target
    · subst same
      exact .inr (.inr (.inl ⟨w, desired, rfl, rfl, found, s.setCell_self⟩))
    · exact .inl (s.setCell_of_ne same)
  | @reverted w target expected next found =>
    by_cases same : address = target
    · subst same
      exact .inr (.inr (.inr ⟨w, expected, next, rfl, rfl, found, s.setCell_self⟩))
    · exact .inl (s.setCell_of_ne same)
  | _ => exact .inl rfl

theorem InitMoves.cell {words : KCasWords P.numWords} {pc : InitPc}
    (moves : InitMoves P s t words pc event s' frames) : s'.cells = s.cells := by
  cases moves <;> rfl

namespace Reached

variable (reached : Reached P load cells trace x)

include reached

/-- An activation after the step was there before it, or arrived with it. -/
theorem works (works : Works P x.after h role t n pc) :
    Works P x.before h role t n pc ∨ (h = x.actor.thread ∧ Arrives P x.before.shared h
      (x.before.threads h).stack x.event x.after.shared role t n pc) := by
  by_cases same : h = x.actor.thread
  · subst same
    rcases arrives_of_threadMoves (reached.before.callStacks _ reached.within) reached.moves
      works.member with kept | arrived
    · exact .inl ⟨works.within, kept⟩
    · exact .inr ⟨rfl, arrived⟩
  · left
    exact ⟨works.within, reached.others h same ▸ works.member⟩

/-- The rule for what all activations know: those that stay keep it, the one
that moves has it at its next position, and those that arrive start with it. -/
theorem all_work {known known' : ℕ → ℕ → Pc → Prop}
    (kept : ∀ h completed role t n pc, WorkOk P load x.before.shared h completed role t n pc →
      known t n pc → known' t n pc)
    (moved : ∀ completed role t n pc pc' frames,
      WorkOk P load x.before.shared x.actor.thread completed role t n pc → known t n pc →
      OperationMoves P x.before.shared role t n pc x.event x.after.shared frames →
      .operating role (P.operation t n) pc' ∈ frames → known' t n pc')
    (published : ∀ t n, known' t n (claimFrom P .originator (P.operation t n) 0))
    (entered : ∀ t n pc, x.after.shared = x.before.shared → HelpEntry P x.before.shared t n pc →
      known' t n pc)
    (resumed : ∀ t n w target expected, known t n (.claimHelp w target expected) →
      known' t n (.claimExchange w target expected))
    (held : ∀ h role t n pc, Works P x.before h role t n pc → known t n pc) :
    ∀ h role t n pc, Works P x.after h role t n pc → known' t n pc := by
  intro h role t n pc works
  rcases reached.works works with before | ⟨rfl, arrives⟩
  · exact kept _ _ _ _ _ _ (before.ok reached.before) (held _ _ _ _ _ before)
  · cases arrives with
    | @moved _ _ _ pc _ rest frames stack moves member =>
      have mover : Works P x.before x.actor.thread role t n pc :=
        ⟨reached.within, stack ▸ List.mem_cons_self⟩
      exact moved _ _ _ _ _ _ _ (mover.ok reached.before) (held _ _ _ _ _ mover) moves member
    | published => exact published _ _
    | entered stack within fits entry event same => exact entered _ _ _ same entry
    | @resumed _ _ _ helped result w target expected rest stack =>
      have waiting : Works P x.before x.actor.thread role t n (.claimHelp w target expected) := by
        refine ⟨reached.within, ?_⟩
        rw [stack]
        exact List.mem_cons_of_mem _ List.mem_cons_self
      exact resumed _ _ _ _ _ (held _ _ _ _ _ waiting)

theorem cellStep (address : ℕ) : CellStep P x address := by
  have moves := reached.moves
  generalize shape : x.before.threads x.actor.thread = thread at moves
  generalize x.after.threads x.actor.thread = thread' at moves
  generalize same : x.event = event at moves
  generalize same' : x.after.shared = s' at moves
  cases moves with
  | invoke => exact .kept (by rw [same'])
  | helpReturned => exact .kept (by rw [same'])
  | respond => exact .kept (by rw [same'])
  | @move completed frame rest _ _ frames moves =>
    cases moves with
    | help => exact .kept (by rw [same'])
    | init moves => exact .kept (by rw [same', moves.cell])
    | @operate role t n pc _ _ _ moves =>
      have works : Works P x.before x.actor.thread role t n pc :=
        ⟨reached.within, by rw [shape]; exact List.mem_cons_self⟩
      rcases moves.cell address with kept | ⟨w, expected, rfl, rfl, found, wrote⟩ |
        ⟨w, desired, rfl, rfl, found, wrote⟩ | ⟨w, expected, next, rfl, rfl, found, wrote⟩
      · exact .kept (same' ▸ kept)
      · exact .claimed works same found (same' ▸ wrote)
      · exact .set works same found (same' ▸ wrote)
      · exact .reverted works same found (same' ▸ wrote)

end Reached

end KCas
