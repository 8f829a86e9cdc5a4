import KCas.Preservation

/-! Every step of one thread keeps the invariant of its own call stack, and with
it every run under the usage rules keeps the invariant of the configuration. -/
namespace KCas

open Labelled

variable {P : Params} {load : Workload P.numWords} {cells : ℕ → ℕ} {s s' : Shared}
  {owner t n w target expected desired : ℕ} {role : Role} {pc : Pc} {event : Event}
  {frames : List (Frame P.numWords)}

/-! ### The originator's row -/

/-- The originator has not made its last store yet. -/
def Pc.Unfinished (pc : Pc) : Prop := ∀ result, pc ≠ .finished result

/-- Where the functions that only decide how to go on lead to: the head of a
loop, a stage exchange, or the end of the work. -/
def Pc.Turn : Pc → Prop
  | .claimLoadTarget _ | .changeStage .. | .setLoadTarget _ | .revertLoadTarget .. | .prepare _ |
    .returned _ | .panicked => True
  | _ => False

theorem Pc.Turn.unfinished (turn : pc.Turn) : pc.Unfinished := by
  rintro result rfl
  exact turn

theorem turn_claimFrom {op : Operation} : (claimFrom P role op w).Turn := by
  unfold claimFrom
  split
  · trivial
  · cases role <;> trivial

theorem turn_setFrom : (setFrom P role w).Turn := by
  unfold setFrom
  split
  · trivial
  · cases role <;> trivial

theorem turn_revertAllWords {next : RevertNext} : (revertAllWords P next).Turn := by
  unfold revertAllWords
  split <;> trivial

theorem turn_revertBelow {next : RevertNext} (pending : NextOk P s role t n next) :
    (revertBelow role next w).Turn := by
  cases w with
  | succ w => trivial
  | zero =>
    cases next with
    | fail error => exact pending.elim
    | _ => trivial

theorem turn_afterStageChanged {next : StageNext} : (afterStageChanged P role next).Turn := by
  cases next with
  | set => exact turn_setFrom
  | revert w => cases role <;> trivial
  | ok => trivial

theorem turn_of_goesOn (goes : GoesOn P s role t n pc) : pc.Turn := by
  cases goes with
  | set => exact turn_setFrom
  | revert => exact turn_revertAllWords

theorem turn_of_helpEntry (entry : HelpEntry P s t n pc) : pc.Turn := by
  cases entry with
  | claiming => exact turn_claimFrom
  | setting => exact turn_setFrom
  | reverting => exact turn_revertAllWords
  | _ => trivial

/-- At every position before the last store the row is at a stage of the call. -/
theorem rowAt_of_active (words : 0 < P.numWords) (active : s.stageOf P t ≠ .inactive)
    (sequence : s.sequenceOf P t = n) (unfinished : pc.Unfinished) : RowAt P s t n pc := by
  cases pc with
  | finished result => exact absurd rfl (unfinished result)
  | changeStage current desired next => exact ⟨active, sequence, .inl words⟩
  | _ => exact ⟨active, sequence⟩

theorem RowAt.active (row : RowAt P s t n pc) (unfinished : pc.Unfinished) :
    s.stageOf P t ≠ .inactive ∧ s.sequenceOf P t = n := by
  cases pc with
  | finished result => exact absurd rfl (unfinished result)
  | changeStage current desired next => exact ⟨row.1, row.2.1⟩
  | _ => exact row

/-- A call that is finished makes no more moves. -/
theorem OperationMoves.unfinished (moves : OperationMoves P s role t n pc event s' frames) :
    pc.Unfinished := by
  rintro result rfl
  cases moves

theorem rowAt_afterStageChanged {current desired : Stage} {next : StageNext}
    (position : PcOk P load s .originator t n (.changeStage current desired next))
    (active : s'.stageOf P t ≠ .inactive) (sequence : s'.sequenceOf P t = n) :
    RowAt P s' t n (afterStageChanged P .originator next) := by
  rcases position with ⟨-, -, rfl, -⟩ | ⟨w, -, -, -, rfl, -⟩ | ⟨helper, -⟩ | ⟨helper, -⟩
  · simp only [afterStageChanged, setFrom]
    split <;> exact ⟨active, sequence⟩
  · exact ⟨active, sequence⟩
  · cases helper
  · cases helper

theorem rowAt_of_operationMoves (rules : UsageRules P load cells) (call : CallOk P load s t n)
    (position : PcOk P load s .originator t n pc) (row : RowAt P s t n pc)
    (moves : OperationMoves P s .originator t n pc event s' frames) :
    ∀ pc', .operating .originator (P.operation t n) pc' ∈ frames → RowAt P s' t n pc' := by
  have fits := rules.stage_lt call.within (Nat.le_of_lt call.counted)
  intro pc' member
  cases moves with
  | claimed | claimFoundOwn =>
    obtain rfl := eq_of_mem_operating member
    exact rowAt_of_active (Nat.zero_lt_of_lt position.1) row.1 row.2 turn_claimFrom.unfinished
  | verifiedReal current claiming real =>
    obtain rfl := eq_of_mem_operating member
    exact rowAt_of_active (Nat.zero_lt_of_lt position.1.1) row.1 row.2 (by simp [Pc.Unfinished])
  | claimDiverted diverted =>
    obtain rfl := eq_of_mem_operating member
    exact rowAt_of_active (Nat.zero_lt_of_lt position.1.1) row.1 row.2
      (turn_of_goesOn (goesOn_of_claimDiverted diverted)).unfinished
  | stageChanged sequence stage edge =>
    obtain rfl := eq_of_mem_operating member
    refine rowAt_afterStageChanged position ?_ (Shared.sequenceOf_storeStage_self fits)
    rw [Shared.stageOf_storeStage_self fits]
    exact edge.target_ne_inactive
  | stageRefused diverted =>
    obtain rfl := eq_of_mem_operating member
    exact rowAt_of_active (words_of_refused (.inr row) diverted) row.1 row.2.1
      (turn_of_goesOn (goesOn_of_stageRefused position diverted)).unfinished
  | setDone | setVerified =>
    obtain rfl := eq_of_mem_operating member
    exact rowAt_of_active (Nat.zero_lt_of_lt position.1) row.1 row.2 turn_setFrom.unfinished
  | setDiverted diverted =>
    obtain rfl := eq_of_mem_operating member
    exact rowAt_of_active (Nat.zero_lt_of_lt position.1) row.1 row.2
      (turn_of_goesOn (goesOn_of_setDiverted position.2 diverted)).unfinished
  | reverted | revertMissed =>
    obtain rfl := eq_of_mem_operating member
    exact rowAt_of_active (Nat.zero_lt_of_lt position.1) row.1 row.2
      (turn_revertBelow position.2.1).unfinished
  | prepared =>
    obtain rfl := eq_of_mem_operating member
    have fits' := rules.stage_lt call.within call.counted
    exact ⟨Shared.stageOf_storeStage_self fits', Shared.sequenceOf_storeStage_self fits'⟩
  | _ =>
    obtain rfl : pc' = _ := by simpa using member
    exact row

/-! ### Stacks -/

theorem initOk_loopEnd {words : KCasWords P.numWords}
    (stored : Stored P s t words w) (atMost : w ≤ P.numWords) :
    InitOk P s t words (if w < P.numWords then .storeTarget w else .loadStage) := by
  split
  · rename_i more
    exact ⟨more, stored⟩
  · obtain rfl : w = P.numWords := by omega
    exact stored

/-- The accesses of `initialize_operation` fill the row, up to the store that
publishes the call. -/
theorem initOk_of_initMoves {words : KCasWords P.numWords} {pc : InitPc}
    (position : InitOk P s t words pc) (moves : InitMoves P s t words pc event s' frames) :
    (∃ pc', frames = [.initializing (t + 1) t words pc'] ∧ InitOk P s' t words pc' ∧
      s'.state.stageAndSequenceNumbers = s.state.stageAndSequenceNumbers) ∨
      ∃ n, pc = .storeStage n := by
  cases moves with
  | @storeTarget w inRange =>
    refine .inl ⟨_, rfl, ⟨inRange, ?_, ?_⟩, rfl⟩
    · intro i below
      simpa [Shared.storeTarget, Nat.ne_of_lt below] using position.2 i below
    · simp [Shared.storeTarget]
  | @storeExpected w inRange =>
    refine .inl ⟨_, rfl, ⟨inRange, ?_, position.2.2, ?_⟩, rfl⟩
    · intro i below
      simpa [Shared.storeExpected, Nat.ne_of_lt below] using position.2.1 i below
    · simp [Shared.storeExpected]
  | @storeDesired w inRange =>
    refine .inl ⟨_, rfl, initOk_loopEnd ?_ inRange, rfl⟩
    intro i below
    rcases Nat.lt_succ_iff_lt_or_eq.mp below with earlier | rfl
    · simpa [Shared.storeDesired, Nat.ne_of_lt earlier] using position.2.1 i earlier
    · exact ⟨position.2.2.1, position.2.2.2, by simp [Shared.storeDesired]⟩
  | loadStage => exact .inl ⟨_, rfl, ⟨rfl, position⟩, rfl⟩
  | storeStage => exact .inr ⟨_, rfl⟩

theorem originatorOk_of_initMoves (rules : UsageRules P load cells) (within : t < P.numThreads)
    {pc : InitPc} (counted : n < load.count t) (inactive : s.stageOf P t = .inactive)
    (sequence : s.sequenceOf P t = n) (position : InitOk P s t (load.call t n) pc)
    (moves : InitMoves P s t (load.call t n) pc event s' frames) :
    ∃ frame, frames = [frame] ∧ OriginatorOk P load s' t n frame := by
  rcases initOk_of_initMoves position moves with ⟨pc', rfl, position', words⟩ | ⟨k, rfl⟩
  · have word := congrFun words t
    exact ⟨_, rfl, rfl, rfl, rfl, counted, (Shared.stageOf_congr word).trans inactive,
      (Shared.sequenceOf_congr word).trans sequence, position'⟩
  · cases moves
    obtain ⟨rfl, -⟩ := position
    subst sequence
    have fits := rules.stage_lt within (Nat.le_of_lt counted)
    have stage : (s.storeStage t (P.stageWord .claiming (s.sequenceOf P t))).stageOf P t =
        .claiming := Shared.stageOf_storeStage_self fits
    have current : (s.storeStage t (P.stageWord .claiming (s.sequenceOf P t))).sequenceOf P t =
        s.sequenceOf P t := Shared.sequenceOf_storeStage_self fits
    refine ⟨_, rfl, rfl, rfl, counted, ?_, pcOk_claimFrom (Nat.zero_le _)
      fun _ _ i below => absurd below (Nat.not_lt_zero i)⟩
    simp only [claimFrom]
    split
    · exact ⟨by simp [stage], current⟩
    · exact ⟨by simp [stage], current, .inr stage⟩

theorem pcOk_of_helpEntry (words : 0 < P.numWords) (entry : HelpEntry P s t n pc) :
    PcOk P load s .helper t n pc := by
  cases entry with
  | retired gone => exact ⟨rfl, by simp, fun current => absurd current (by omega)⟩
  | terminal sequence stage ended => exact ⟨rfl, by simp, fun _ => by simpa [stage] using ended⟩
  | claiming sequence stage =>
    exact pcOk_claimFrom (Nat.zero_le _) fun _ _ i below => absurd below (Nat.not_lt_zero i)
  | setting sequence stage => exact pcOk_setFrom fun _ => by simp [stage]
  | reverting sequence stage => exact pcOk_revertAllWords words ⟨rfl, fun _ => by simp [stage]⟩

/-- A helper's move evolves the shared memory for everyone, its own originator
included, and keeps its stack. -/
theorem kept_of_helperMoves {frame caller : Frame P.numWords} {rest : List (Frame P.numWords)}
    (shared : SharedOk P load s) (rules : UsageRules P load cells) (within : t < P.numThreads)
    (held : StackOk P load s t n (frame :: caller :: rest))
    (moves : Moves P s frame event s' frames) :
    SharedOk P load s' ∧ (∀ owner, Evolves P load owner s s') ∧
      StackOk P load s' t n (frames ++ caller :: rest) := by
  obtain ⟨helper, waits, below⟩ := held
  cases moves with
  | init moves => exact helper.elim
  | @help u k pc helpee fits entry =>
    obtain ⟨v, m, same, call, words⟩ := helper
    obtain ⟨rfl, rfl⟩ := Params.marker_inj helpee fits call.within
      (rules.marker_lt call.within call.counted) same
    exact ⟨shared, fun owner => .refl P load owner s,
      ⟨u, k, rfl, rfl, call, words, pcOk_of_helpEntry words entry⟩, waits, below⟩
  | operate moves =>
    obtain ⟨u, k, rfl, same, call, words, position⟩ := helper
    obtain ⟨rfl, rfl, -⟩ := (Operation.mk.injEq ..).mp same
    have evo (owner : ℕ) : Evolves P load owner s s' :=
      evolves_of_operationMoves shared rules call position (by simp) (.inl ⟨rfl, words⟩) moves
    refine ⟨sharedOk_of_operationMoves shared rules call position (by simp) moves, evo, ?_⟩
    have after := (evo (t + 1)).stackOk within (by omega) below
    have onward := onward_of_operationMoves shared rules call position (.inl ⟨rfl, words⟩) moves
    have call' := (evo t).callOk call
    cases onward with
    | stays position' => exact ⟨⟨_, _, rfl, rfl, call', words, position'⟩, waits, after⟩
    | helps helping position' =>
      exact ⟨helping, trivial, ⟨_, _, rfl, rfl, call', words, position'⟩, waits, after⟩

/-- An originator's move evolves the shared memory for everyone else, and keeps
its stack. -/
theorem kept_of_originatorMoves {frame : Frame P.numWords}
    (shared : SharedOk P load s) (rules : UsageRules P load cells) (within : t < P.numThreads)
    (held : OriginatorOk P load s t n frame) (moves : Moves P s frame event s' frames) :
    SharedOk P load s' ∧ Evolves P load t s s' ∧ StackOk P load s' t n frames := by
  cases moves with
  | init moves =>
    obtain ⟨-, rfl, rfl, counted, inactive, sequence, position⟩ := held
    refine ⟨sharedOk_of_initMoves shared rules within counted inactive sequence position moves,
      evolves_of_initMoves rules within counted inactive sequence position moves, ?_⟩
    obtain ⟨frame, rfl, ok⟩ :=
      originatorOk_of_initMoves rules within counted inactive sequence position moves
    exact ok
  | help => exact held.elim
  | operate moves =>
    obtain ⟨rfl, same, counted, row, position⟩ := held
    obtain ⟨rfl, rfl, -⟩ := (Operation.mk.injEq ..).mp same
    have call : CallOk P load s _ _ := ⟨within, counted, row.started⟩
    have evo := evolves_of_operationMoves shared rules call position (fun _ => row) (.inr rfl) moves
    refine ⟨sharedOk_of_operationMoves shared rules call position (fun _ => row) moves, evo, ?_⟩
    have rows := rowAt_of_operationMoves rules call position row moves
    have onward := onward_of_operationMoves shared rules call position (.inr ⟨rfl, row⟩) moves
    cases onward with
    | stays position' => exact ⟨rfl, rfl, counted, rows _ (by simp), position'⟩
    | helps helping position' =>
      exact ⟨helping, trivial, rfl, rfl, counted, rows _ (by simp), position'⟩

theorem initOk_start {words : KCasWords P.numWords} :
    InitOk P s t words (if 0 < P.numWords then .storeTarget 0 else .loadStage) :=
  initOk_loopEnd (fun w below => absurd below (Nat.not_lt_zero w)) (Nat.zero_le _)

theorem stackOk_of_helpReturned {op : Operation} {frame : Frame P.numWords}
    {rest : List (Frame P.numWords)}
    (held : StackOk P load s t n
      (frame :: .operating role op (.claimHelp w target expected) :: rest)) :
    StackOk P load s t n (.operating role op (.claimExchange w target expected) :: rest) := by
  obtain ⟨-, -, below⟩ := held
  cases rest with
  | nil => exact below
  | cons caller rest => exact below

/-- What one step of a thread keeps. -/
theorem kept_of_threadMoves {thread thread' : Thread P.numWords} (shared : SharedOk P load s)
    (rules : UsageRules P load cells) (within : t < P.numThreads)
    (held : StackOk P load s t thread.completed thread.stack)
    (moves : ThreadMoves P load s t thread event s' thread') :
    SharedOk P load s' ∧ Evolves P load t s s' ∧
      StackOk P load s' t thread'.completed thread'.stack := by
  cases moves with
  | invoke more =>
    exact ⟨shared, .refl P load t s, rfl, rfl, rfl, more, held.1, held.2, initOk_start⟩
  | helpReturned => exact ⟨shared, .refl P load t s, stackOk_of_helpReturned held⟩
  | respond => exact ⟨shared, .refl P load t s, held.2.2.2.1⟩
  | @move completed frame rest _ _ frames moves =>
    cases rest with
    | nil =>
      rw [List.append_nil]
      exact kept_of_originatorMoves shared rules within held moves
    | cons caller rest =>
      obtain ⟨shared', evo, stack⟩ := kept_of_helperMoves shared rules within held moves
      exact ⟨shared', evo t, stack⟩

/-- A call whose row was published was entered. -/
theorem StackOk.began {stack : List (Frame P.numWords)} {k : ℕ} (held : StackOk P load s t k stack)
    (started : Started P s t n) : n < k ∨ (n = k ∧ stack ≠ []) := by
  induction stack with
  | nil =>
    rcases started with gone | ⟨-, active⟩
    · exact .inl (held.2 ▸ gone)
    · exact absurd held.1 active
  | cons frame rest ih =>
    cases rest with
    | cons caller rest => exact (ih held.2.2).imp_right fun last => ⟨last.1, List.cons_ne_nil _ _⟩
    | nil =>
      have bound : n ≤ k := by
        cases frame with
        | helpThread => exact held.elim
        | initializing =>
          obtain ⟨-, -, -, -, inactive, sequence, -⟩ := held
          rcases started with gone | ⟨-, active⟩
          · exact Nat.le_of_lt (sequence ▸ gone)
          · exact absurd inactive active
        | operating role op pc =>
          have row := held.2.2.2.1
          by_cases last : pc.Unfinished
          · have sequence := (row.active last).2
            rcases started with gone | ⟨current, -⟩ <;> omega
          · simp only [Pc.Unfinished, ne_eq, not_forall, not_not] at last
            obtain ⟨result, rfl⟩ := last
            obtain ⟨inactive, sequence⟩ := row
            rcases started with gone | ⟨-, active⟩
            · omega
            · exact absurd inactive active
      exact (Nat.lt_or_eq_of_le bound).imp_right fun same => ⟨same, List.cons_ne_nil _ _⟩

/-- Only a call that is to be made is in progress. -/
theorem StackOk.counted {stack : List (Frame P.numWords)} (held : StackOk P load s t n stack)
    (busy : stack ≠ []) : n < load.count t := by
  induction stack with
  | nil => exact absurd rfl busy
  | cons frame rest ih =>
    cases rest with
    | cons caller rest => exact ih held.2.2 (List.cons_ne_nil _ _)
    | nil =>
      cases frame with
      | helpThread => exact held.elim
      | initializing => exact held.2.2.2.1
      | operating => exact held.2.2.1

/-! ### Configurations -/

theorem configOk_of_step {σ σ' : Config P.numWords} {actor : Actor} (ok : ConfigOk P load σ)
    (rules : UsageRules P load cells) (stepped : step P load σ actor = some (event, σ')) :
    ConfigOk P load σ' := by
  obtain ⟨within, moves, others⟩ := threadMoves_of_step ok rules stepped
  obtain ⟨shared, evo, stack⟩ :=
    kept_of_threadMoves ok.shared rules within (ok.callStacks actor.thread within) moves
  refine ⟨shared, fun u inRange => ?_⟩
  by_cases same : u = actor.thread
  · rw [same]
    exact stack
  · rw [others, Function.update_of_ne same]
    exact evo.stackOk inRange same (ok.callStacks u inRange)

/-- `State::new()` stands for Inactive at sequence 0 in every row. -/
theorem extractStage_zero : extractStageFromStageAndSequence P.usizeBits 0 = .ok .inactive :=
  Params.stageWord_inactive_zero P ▸ Params.extractStage_stageWord (Nat.two_pow_pos _)

theorem stageOf_initial : (Config.initial P.numWords cells).shared.stageOf P t = .inactive := by
  simp [Shared.stageOf, Config.initial, State.new, extractStage_zero]

theorem sequenceOf_initial : (Config.initial P.numWords cells).shared.sequenceOf P t = 0 := by
  simp [Shared.sequenceOf, Config.initial, State.new, extractSequenceFromStageAndSequence]

theorem configOk_initial (rules : UsageRules P load cells) :
    ConfigOk P load (Config.initial P.numWords cells) := by
  refine ⟨⟨?_, ?_, ?_, ?_, ?_, ?_, ?_⟩, fun t _ => ⟨stageOf_initial, sequenceOf_initial⟩⟩
  · intro t _
    rw [stageOf_initial, sequenceOf_initial, Params.stageWord_inactive_zero]
    rfl
  · intro t _
    rw [sequenceOf_initial]
    exact Nat.zero_le _
  · intro t _ active
    exact absurd stageOf_initial active
  · rintro t _ n (gone | ⟨-, active⟩)
    · rw [sequenceOf_initial] at gone
      omega
    · exact absurd stageOf_initial active
  · intro t _ w _
    exact ⟨P.legal_zero, P.legal_zero⟩
  · intro address
    exact .inl (rules.cells_legal address)
  · intro t _ claiming
    rw [stageOf_initial] at claiming
    cases claiming

/-- The invariant holds throughout every run under the usage rules. -/
theorem configOk_of_execution {trace : List (Transition (Config P.numWords) Actor Event)}
    {σ : Config P.numWords} (rules : UsageRules P load cells)
    (run : Execution P load cells trace σ) : ConfigOk P load σ :=
  run.state_invariant (configOk_initial rules) fun _ _ _ _ stepped held =>
    configOk_of_step held rules stepped

end KCas
