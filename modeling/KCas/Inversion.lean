import KCas.Stability

/-! Every step of the machine is one of the moves: under the invariant the
packed words decode, and no function takes a branch that ends in a fatal error
or a panic. -/
namespace KCas

variable {P : Params} {load : Workload P.numWords} {cells : ℕ → ℕ} {s : Shared} {t n w : ℕ}
  {role : Role} {pc : Pc} {spurious : Bool} {outcome : Outcome P.numWords} {wanted : Stage}

/-! ### Words -/

theorem SharedOk.sequence_fits (shared : SharedOk P load s) (rules : UsageRules P load cells)
    (within : t < P.numThreads) : s.sequenceOf P t < 2 ^ P.stageSequenceBits :=
  rules.stage_lt within (shared.bound t within)

theorem SharedOk.extractStage (shared : SharedOk P load s) (rules : UsageRules P load cells)
    (within : t < P.numThreads) :
    extractStageFromStageAndSequence P.usizeBits (s.state.stageAndSequenceNumbers t) =
      .ok (s.stageOf P t) := by
  rw [shared.word t within, Params.extractStage_stageWord (shared.sequence_fits rules within)]

/-- An exchange on a stage word compares the stage and the sequence. -/
theorem SharedOk.word_eq_iff (shared : SharedOk P load s) (rules : UsageRules P load cells)
    (within : t < P.numThreads) (counted : n ≤ load.count t) {stage : Stage} :
    s.state.stageAndSequenceNumbers t = P.stageWord stage n ↔
      s.stageOf P t = stage ∧ s.sequenceOf P t = n := by
  rw [shared.word t within]
  exact Params.stageWord_inj (shared.sequence_fits rules within) (rules.stage_lt within counted)

/-- A published call is over or its row is at one of its stages. -/
theorem Started.over_or_at (started : Started P s t n) (other : s.sequenceOf P t ≠ n) :
    n < s.sequenceOf P t := by
  rcases started with gone | ⟨same, -⟩
  · exact gone
  · exact absurd same other

theorem Started.active (started : Started P s t n) (current : s.sequenceOf P t = n) :
    s.stageOf P t ≠ .inactive := by
  rcases started with gone | ⟨-, active⟩
  · omega
  · exact active

/-! ### Verifications and stage exchanges that fail -/

/-- How an originator or a helper handles a failed verification. -/
def onVerificationError (P : Params) (role : Role) (op : Operation) (currentStage : Stage)
    (error : StageAndSequenceVerificationError) : Pc :=
  match role with
  | .originator =>
    handleConcurrentStageAndSequenceVerificationErrorAndTransition P op currentStage error
  | .helper =>
    helpHandleConcurrentStageAndSequenceVerificationErrorAndTransition P op currentStage error

theorem afterClaim_verificationError {op : Operation}
    {error : StageAndSequenceVerificationError} :
    afterClaim P role op (.error (.stageAndSequenceVerificationError w error)) =
      onVerificationError P role op .claiming error := by
  cases role <;> rfl

theorem afterSet_verificationError {op : Operation}
    {error : StageAndSequenceVerificationError} :
    afterSet P role op (.error (.stageAndSequenceVerificationError w error)) =
      onVerificationError P role op .setting error := by
  cases role <;> rfl

theorem diverted_of_verificationError (shared : SharedOk P load s)
    (rules : UsageRules P load cells) (call : CallOk P load s t n)
    (own : role = .originator → s.sequenceOf P t = n)
    {error : StageAndSequenceVerificationError}
    (failed : verifyStageAndSequenceHaveNotChanged P (s.state.stageAndSequenceNumbers t) wanted n =
      .error error) :
    Diverted P s role t n wanted (onVerificationError P role (P.operation t n) wanted error) := by
  simp only [verifyStageAndSequenceHaveNotChanged, shared.extractStage rules call.within] at failed
  change (if s.sequenceOf P t ≠ n then _ else _) = _ at failed
  split at failed
  · rename_i other
    cases failed
    cases role with
    | originator => exact absurd (own rfl) other
    | helper => exact .retired rfl (call.started.over_or_at other)
  · rename_i current
    simp only [ne_eq, not_not] at current
    split at failed
    · rename_i moved
      cases failed
      have diverted : Diverted P s role t n wanted (onStage P role wanted (s.stageOf P t)) :=
        .stage current rfl moved (call.started.active current)
      cases role <;> exact diverted
    · cases failed

theorem verified (shared : SharedOk P load s) (rules : UsageRules P load cells)
    (within : t < P.numThreads)
    (passed : verifyStageAndSequenceHaveNotChanged P (s.state.stageAndSequenceNumbers t) wanted n =
      .ok ()) : s.sequenceOf P t = n ∧ s.stageOf P t = wanted := by
  simp only [verifyStageAndSequenceHaveNotChanged, shared.extractStage rules within] at passed
  change (if s.sequenceOf P t ≠ n then _ else _) = _ at passed
  split at passed
  · cases passed
  · rename_i current
    split at passed
    · cases passed
    · rename_i kept
      exact ⟨not_not.mp current, not_not.mp kept⟩

theorem diverted_of_refused (shared : SharedOk P load s) (rules : UsageRules P load cells)
    (call : CallOk P load s t n) (own : role = .originator → s.sequenceOf P t = n)
    (refused : s.state.stageAndSequenceNumbers t ≠ P.stageWord wanted n) :
    Diverted P s role t n wanted (afterStageNotChanged P role (P.operation t n) wanted
      (s.state.stageAndSequenceNumbers t)) := by
  have same : s.state.stageAndSequenceNumbers t = P.stageWord wanted n ↔ _ :=
    shared.word_eq_iff rules call.within (Nat.le_of_lt call.counted)
  have stage := shared.extractStage rules call.within
  by_cases current : s.sequenceOf P t = n
  · have moved : s.stageOf P t ≠ wanted := fun kept => refused (same.mpr ⟨kept, current⟩)
    have diverted : Diverted P s role t n wanted (onStage P role wanted (s.stageOf P t)) :=
      .stage current rfl moved (call.started.active current)
    have unchanged : extractSequenceFromStageAndSequence P.usizeBits
        (s.state.stageAndSequenceNumbers t) = (P.operation t n).sequence := current
    cases role with
    | originator =>
      simp only [afterStageNotChanged, changeStageAndTransition, stage, unchanged, ne_eq,
        not_true_eq_false, ↓reduceIte]
      exact diverted
    | helper =>
      simp only [afterStageNotChanged, helpChangeStageAndTransition, stage, unchanged, ne_eq,
        not_true_eq_false, ↓reduceIte]
      exact diverted
  · have changed : extractSequenceFromStageAndSequence P.usizeBits
        (s.state.stageAndSequenceNumbers t) ≠ (P.operation t n).sequence := current
    cases role with
    | originator => exact absurd (own rfl) current
    | helper =>
      simp only [afterStageNotChanged, helpChangeStageAndTransition, stage, changed, ne_eq,
        not_false_eq_true, ↓reduceIte]
      exact .retired rfl (call.started.over_or_at current)

/-! ### Operations -/

theorem PcOk.stageEdge {current desired : Stage} {next : StageNext}
    (position : PcOk P load s role t n (.changeStage current desired next)) :
    StageEdge current desired := by
  rcases position with ⟨rfl, rfl, -⟩ | ⟨w, -, rfl, rfl, -⟩ | ⟨-, rfl, rfl, -⟩ | ⟨-, rfl, rfl, -⟩
  · exact .toSetting
  · exact .toReverting
  · exact .toSuccessful
  · exact .toReverted

/-- Every access of an operation is a move. -/
theorem operationMoves_of_operate (shared : SharedOk P load s) (rules : UsageRules P load cells)
    (call : CallOk P load s t n) (own : role = .originator → s.sequenceOf P t = n)
    (position : PcOk P load s role t n pc)
    (ran : operate P s spurious role (P.operation t n) pc = some outcome) :
    OperationMoves P s role t n pc outcome.event outcome.shared outcome.frames := by
  have within := call.within
  cases pc with
  | claimLoadTarget w =>
    simp only [operate, Params.operation_threadIndex, within, position.1, and_self, ↓reduceIte,
      shared.filled t within n call.started w position.1, Option.some.injEq] at ran
    subst ran
    exact .claimLoadTarget
  | claimLoadExpected w target =>
    simp only [operate, Params.operation_threadIndex, within, position.1, and_self, ↓reduceIte,
      Option.some.injEq] at ran
    subst ran
    exact .claimLoadExpected
  | claimExchange w target expected =>
    simp only [operate, Params.operation_threadAndSequence, Option.some.injEq] at ran
    by_cases matching : s.cells target = expected
    · cases spurious with
      | false =>
        simp only [Shared.exchangeCellWeak, Shared.exchangeCell, matching, ↓reduceIte,
          Bool.false_eq_true] at ran
        subst ran
        exact .claimed matching
      | true =>
        simp only [Shared.exchangeCellWeak, matching, ↓reduceIte] at ran
        subst ran
        exact .claimSpurious matching
    · have failed : s.exchangeCellWeak spurious target expected (P.marker t n) =
          (.error (s.cells target), s) := by
        cases spurious <;> simp [Shared.exchangeCellWeak, Shared.exchangeCell, matching]
      simp only [failed, matching, ↓reduceIte] at ran
      by_cases mine : s.cells target = P.marker t n
      · simp only [mine, ↓reduceIte] at ran
        subst ran
        exact .claimFoundOwn mine (mine ▸ matching)
      · simp only [mine, ↓reduceIte] at ran
        subst ran
        exact .claimFoundOther matching mine
  | claimVerify w target expected actual =>
    obtain ⟨-, -, -, value⟩ := position
    simp only [operate, Params.operation_threadIndex, Params.operation_sequence, within,
      ↓reduceIte, Option.some.injEq] at ran
    cases result : verifyStageAndSequenceHaveNotChanged P (s.state.stageAndSequenceNumbers t)
        .claiming n with
    | error error =>
      simp only [result] at ran
      subst ran
      simp only [afterClaim_verificationError]
      exact .claimDiverted (diverted_of_verificationError shared rules call own result)
    | ok passed =>
      obtain ⟨current, claiming⟩ := verified shared rules within result
      simp only [result] at ran
      subst ran
      rcases value with real | ⟨u, helpee, k, counted, rfl, -⟩
      · have top := real
        simp only [Params.Legal] at top
        simp only [claimClassify, top, ↓reduceIte]
        have reverting : afterClaim P role (P.operation t n)
            (.error (.valueWasNotExpectedValue w target actual)) =
            .changeStage .claiming .reverting (.revert w) := by
          cases role <;> rfl
        rw [reverting]
        exact .verifiedReal current claiming real
      · have foreign : ¬ P.Legal (P.marker u k) := rules.marker_not_legal helpee counted
        have top := Params.extractThread_marker helpee (rules.marker_lt helpee counted)
        have tops := foreign
        simp only [Params.Legal, top] at tops
        simp only [claimClassify, top, tops, ↓reduceIte, show u + 1 ≤ P.numThreads from helpee]
        exact .verifiedMarker current claiming helpee foreign
  | claimHelp w target expected => simp [operate] at ran
  | changeStage current desired next =>
    have same : s.state.stageAndSequenceNumbers t = P.stageWord current n ↔ _ :=
      shared.word_eq_iff rules within (Nat.le_of_lt call.counted)
    have words (stage : Stage) : constructStageAndSequence P.usizeBits stage n =
      P.stageWord stage n := rfl
    simp only [operate, Params.operation_threadIndex, Params.operation_sequence, within,
      ↓reduceIte, Shared.exchangeStage, words, Option.some.injEq] at ran
    by_cases matching : s.state.stageAndSequenceNumbers t = P.stageWord current n
    · obtain ⟨stage, sequence⟩ := same.mp matching
      simp only [matching, ↓reduceIte] at ran
      subst ran
      exact .stageChanged sequence stage position.stageEdge
    · simp only [matching, ↓reduceIte] at ran
      subst ran
      exact .stageRefused (diverted_of_refused shared rules call own matching)
  | setLoadTarget w =>
    simp only [operate, Params.operation_threadIndex, within, position.1, and_self, ↓reduceIte,
      shared.filled t within n call.started w position.1, Option.some.injEq] at ran
    subst ran
    exact .setLoadTarget
  | setLoadDesired w target =>
    simp only [operate, Params.operation_threadIndex, within, position.1, and_self, ↓reduceIte,
      Option.some.injEq] at ran
    subst ran
    exact .setLoadDesired
  | setExchange w target desired =>
    simp only [operate, Params.operation_threadAndSequence, Shared.exchangeCell,
      Option.some.injEq] at ran
    by_cases matching : s.cells target = P.marker t n
    · simp only [matching, ↓reduceIte] at ran
      subst ran
      exact .setDone matching
    · simp only [matching, ↓reduceIte] at ran
      subst ran
      exact .setMissed matching
  | setVerify w =>
    simp only [operate, Params.operation_threadIndex, Params.operation_sequence, within,
      ↓reduceIte, Option.some.injEq] at ran
    cases result : verifyStageAndSequenceHaveNotChanged P (s.state.stageAndSequenceNumbers t)
        .setting n with
    | error error =>
      simp only [result] at ran
      subst ran
      simp only [afterSet_verificationError]
      exact .setDiverted (diverted_of_verificationError shared rules call own result)
    | ok passed =>
      obtain ⟨current, setting⟩ := verified shared rules within result
      simp only [result] at ran
      subst ran
      exact .setVerified current setting
  | revertLoadTarget w next =>
    simp only [operate, Params.operation_threadIndex, within, position.1, and_self, ↓reduceIte,
      shared.filled t within n call.started w position.1, Option.some.injEq] at ran
    subst ran
    exact .revertLoadTarget
  | revertLoadExpected w target next =>
    simp only [operate, Params.operation_threadIndex, within, position.1, and_self, ↓reduceIte,
      Option.some.injEq] at ran
    subst ran
    exact .revertLoadExpected
  | revertExchange w target expected next =>
    simp only [operate, Params.operation_threadAndSequence, Shared.exchangeCell,
      Option.some.injEq] at ran
    by_cases matching : s.cells target = P.marker t n
    · simp only [matching, ↓reduceIte] at ran
      subst ran
      exact .reverted matching
    · simp only [matching, ↓reduceIte] at ran
      subst ran
      exact .revertMissed matching
  | prepare result =>
    have fits : n + 1 < 2 ^ P.stageSequenceBits := rules.stage_lt within call.counted
    simp only [operate, Params.operation_threadIndex, Params.operation_sequence,
      prepareForNextOperation_eq P fits, within, ↓reduceIte, Option.some.injEq] at ran
    subst ran
    exact .prepared
  | finished result => simp [operate] at ran
  | returned result => simp [operate] at ran
  | panicked => simp [operate] at ran

/-! ### The other activations -/

theorem helpEntry_of_load (shared : SharedOk P load s) (rules : UsageRules P load cells)
    (call : CallOk P load s t n) :
    HelpEntry P s t n (helpThreadAt P (P.operation t n) (s.state.stageAndSequenceNumbers t)) := by
  simp only [helpThreadAt, shared.extractStage rules call.within]
  change HelpEntry P s t n (if s.sequenceOf P t ≠ n then _ else _)
  split
  · rename_i other
    exact .retired (call.started.over_or_at other)
  · rename_i current
    simp only [ne_eq, not_not] at current
    cases stage : s.stageOf P t with
    | inactive => exact absurd stage (call.started.active current)
    | claiming => exact .claiming current stage
    | setting => exact .setting current stage
    | reverting => exact .reverting current stage
    | successful => exact .terminal current stage (.inl rfl)
    | reverted => exact .terminal current stage (.inr rfl)

/-- The load of `help_thread` is a move. -/
theorem moves_of_helpThread (shared : SharedOk P load s) (rules : UsageRules P load cells)
    (call : CallOk P load s t n) :
    Moves P s (.helpThread (P.marker t n)) (helpThread P s (P.marker t n)).event
      (helpThread P s (P.marker t n)).shared (helpThread P s (P.marker t n)).frames := by
  have fits := rules.marker_lt call.within call.counted
  simp only [helpThread, Params.extractThread_marker call.within fits,
    Params.extractSequence_marker call.within fits, convertThreadIdToThreadIndex,
    Nat.add_one_ne_zero, ↓reduceIte, Nat.add_sub_cancel, call.within]
  exact .help call.within fits (helpEntry_of_load shared rules call)

/-- The words that `initialize_operation` still has to store. -/
def InitPc.Fits (numWords : ℕ) : InitPc → Prop
  | .storeTarget w | .storeExpected w | .storeDesired w => w < numWords
  | .loadStage | .storeStage _ => True

theorem InitOk.fits {words : KCasWords P.numWords} {pc : InitPc}
    (position : InitOk P s t words pc) : pc.Fits P.numWords := by
  cases pc with
  | loadStage => trivial
  | storeStage => trivial
  | _ => exact position.1

/-- Every access of `initialize_operation` is a move. -/
theorem moves_of_initializeOperation (within : t < P.numThreads) {words : KCasWords P.numWords}
    {pc : InitPc} (fits : pc.Fits P.numWords) :
    Moves P s (.initializing (t + 1) t words pc)
      (initializeOperation P s (t + 1) t words pc).event
      (initializeOperation P s (t + 1) t words pc).shared
      (initializeOperation P s (t + 1) t words pc).frames := by
  refine .init ?_
  cases pc with
  | storeTarget w =>
    have inRange : w < P.numWords := fits
    simp only [initializeOperation, within, inRange, and_self, ↓reduceIte]
    exact .storeTarget inRange
  | storeExpected w =>
    have inRange : w < P.numWords := fits
    simp only [initializeOperation, within, inRange, and_self, ↓reduceIte]
    exact .storeExpected inRange
  | storeDesired w =>
    have inRange : w < P.numWords := fits
    simp only [initializeOperation, within, inRange, and_self, ↓reduceIte]
    exact .storeDesired inRange
  | loadStage =>
    simp only [initializeOperation, within, ↓reduceIte]
    exact .loadStage
  | storeStage n => exact .storeStage

/-- Every access of an activation at the bottom of a stack is a move. -/
theorem moves_of_originator (shared : SharedOk P load s) (rules : UsageRules P load cells)
    (within : t < P.numThreads) {frame : Frame P.numWords}
    (held : OriginatorOk P load s t n frame)
    (ran : frameStep P s spurious frame = some outcome) :
    Moves P s frame outcome.event outcome.shared outcome.frames := by
  cases frame with
  | initializing threadId threadIndex words pc =>
    obtain ⟨rfl, rfl, -, -, -, -, position⟩ := held
    simp only [frameStep, Option.some.injEq] at ran
    subst ran
    exact moves_of_initializeOperation within position.fits
  | helpThread marker => exact held.elim
  | operating role op pc =>
    obtain ⟨rfl, rfl, counted, row, position⟩ := held
    have ran' : operate P s spurious .originator (P.operation t n) pc = some outcome := ran
    refine .operate (operationMoves_of_operate shared rules ⟨within, counted, row.started⟩ ?_
      position ran')
    intro _
    cases pc with
    | finished result => simp [operate] at ran'
    | changeStage current desired next => exact row.2.1
    | _ => exact row.2

/-- Every access of a helping activation is a move. -/
theorem moves_of_helper (shared : SharedOk P load s) (rules : UsageRules P load cells)
    {frame : Frame P.numWords} (held : HelperOk P load s frame)
    (ran : frameStep P s spurious frame = some outcome) :
    Moves P s frame outcome.event outcome.shared outcome.frames := by
  cases frame with
  | initializing => exact held.elim
  | helpThread marker =>
    obtain ⟨t, n, rfl, call, -⟩ := held
    simp only [frameStep, Option.some.injEq] at ran
    subst ran
    exact moves_of_helpThread shared rules call
  | operating role op pc =>
    obtain ⟨t, n, rfl, rfl, call, -, position⟩ := held
    exact .operate (operationMoves_of_operate shared rules call (by simp) position ran)

/-! ### Threads -/

/-- The steps of one thread: it enters a call, returns from `help_thread`,
returns from `kcas`, or its running activation moves. -/
inductive ThreadMoves (P : Params) (load : Workload P.numWords) (s : Shared) (t : ℕ) :
    Thread P.numWords → Event → Shared → Thread P.numWords → Prop where
  | invoke {completed} : completed < load.count t →
      ThreadMoves P load s t ⟨completed, []⟩ .invoked s
        ⟨completed, [.initializing (t + 1) t (load.call t completed)
          (if 0 < P.numWords then .storeTarget 0 else .loadStage)]⟩
  | helpReturned {completed role op w target expected helped result rest} :
      (∀ error, result ≠ .error (.fatal error)) →
      ThreadMoves P load s t
        ⟨completed, .operating .helper helped (.returned result) ::
          .operating role op (.claimHelp w target expected) :: rest⟩ .silent s
        ⟨completed, .operating role op (.claimExchange w target expected) :: rest⟩
  | respond {completed op result} :
      ThreadMoves P load s t ⟨completed, [.operating .originator op (.finished result)]⟩
        (.responded result) s ⟨completed + 1, []⟩
  | move {completed frame rest event after frames} :
      Moves P s frame event after frames →
      ThreadMoves P load s t ⟨completed, frame :: rest⟩ event after
        ⟨completed, frames ++ rest⟩

theorem Moves.frames_ne_nil {frame : Frame P.numWords} {event : Event} {after : Shared}
    {frames : List (Frame P.numWords)} (moves : Moves P s frame event after frames) :
    frames ≠ [] := by
  cases moves with
  | init moves => cases moves <;> simp
  | help _ _ entry => simp
  | operate moves => cases moves <;> simp

/-- A step of a call stack whose activations satisfy the invariant. -/
theorem threadMoves_of_stackStep (shared : SharedOk P load s) (rules : UsageRules P load cells)
    (within : t < P.numThreads) {completed : ℕ} {stack : List (Frame P.numWords)}
    (held : StackOk P load s t completed stack)
    (ran : stackStep P s spurious stack = some outcome) :
    ThreadMoves P load s t ⟨completed, stack⟩ outcome.event outcome.shared
      ⟨if outcome.frames.isEmpty then completed + 1 else completed, outcome.frames⟩ := by
  unfold stackStep at ran
  split at ran
  · cases ran
  · -- `help_thread` returns to the `claim` that called it
    rename_i helped result role op w target expected rest
    have returned := held.1
    obtain ⟨u, k, -, -, -, -, -, harmless, -⟩ := returned
    cases ran
    have onward : afterHelp P role op w target expected result =
        .claimExchange w target expected := by
      cases result with
      | ok _ => rfl
      | error error =>
        cases error with
        | fatal fatal => exact absurd rfl (harmless fatal)
        | _ => rfl
    rw [onward]
    exact .helpReturned harmless
  · cases ran
    exact .respond
  · rename_i frame rest _ _
    obtain ⟨inner, accessed, rfl⟩ := Option.map_eq_some_iff.mp ran
    have moves : Moves P s frame inner.event inner.shared inner.frames := by
      cases rest with
      | nil => exact moves_of_originator shared rules within held accessed
      | cons caller rest => exact moves_of_helper shared rules held.1 accessed
    have some := moves.frames_ne_nil
    have busy : (inner.frames ++ rest).isEmpty = false := by
      cases shape : inner.frames with
      | nil => exact absurd shape some
      | cons => rfl
    simp only [busy, Bool.false_eq_true, ↓reduceIte]
    exact .move moves

/-- A step of the machine from a configuration that satisfies the invariant. -/
theorem threadMoves_of_step {σ σ' : Config P.numWords} {actor : Actor} {event : Event}
    (ok : ConfigOk P load σ) (rules : UsageRules P load cells)
    (stepped : step P load σ actor = some (event, σ')) :
    actor.thread < P.numThreads ∧
      ThreadMoves P load σ.shared actor.thread (σ.threads actor.thread) event σ'.shared
        (σ'.threads actor.thread) ∧
      σ'.threads = Function.update σ.threads actor.thread (σ'.threads actor.thread) := by
  simp only [step] at stepped
  split at stepped
  · rename_i within
    refine ⟨within, ?_⟩
    have held := ok.callStacks actor.thread within
    generalize shape : σ.threads actor.thread = thread at stepped held
    obtain ⟨completed, stack⟩ := thread
    cases stack with
    | nil =>
      simp only at stepped
      split at stepped
      · rename_i more
        simp only [Option.some.injEq, Prod.mk.injEq] at stepped
        obtain ⟨rfl, rfl⟩ := stepped
        simp only [Function.update_self, and_true]
        exact .invoke more
      · cases stepped
    | cons frame rest =>
      simp only at stepped
      split at stepped
      · cases stepped
      · rename_i outcome ran
        simp only [Option.some.injEq, Prod.mk.injEq] at stepped
        obtain ⟨rfl, rfl⟩ := stepped
        simp only [Function.update_self, and_true]
        exact threadMoves_of_stackStep ok.shared rules within held ran
  · cases stepped

end KCas
