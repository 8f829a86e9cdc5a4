import KCas.Capacity
import KCas.Inversion
import KCas.Rollover

/-! The positions that a call can come to whatever the shared memory holds. Nothing
is assumed of the values or of the rows: only an originator prepares the next
operation, a helper works for an existing thread, and an index never leaves its
array. What an access does to the rows follows from its position. -/
namespace KCas

variable {P : Params} {s : Shared} {t w : ℕ} {role : Role} {op : Operation} {pc : Pc}
  {spurious : Bool} {outcome : Outcome P.numWords} {frame : Frame P.numWords}
  {stack : List (Frame P.numWords)}

/-! ### Positions -/

/-- A result that a call reports once it is prepared for the next one. -/
def NotFatal (result : Except Error Unit) : Prop :=
  ∀ error, result ≠ .error (.fatal error)

theorem not_notFatal {error : FatalError} : ¬ NotFatal (.error (.fatal error)) :=
  fun notFatal => notFatal error rfl

theorem notFatal_ok : NotFatal (.ok ()) := by
  rintro error ⟨⟩

theorem notFatal_valueWasNotExpectedValue : NotFatal (.error .valueWasNotExpectedValue) := by
  rintro error ⟨⟩

/-- The closures that an originator's or a helper's functions hand to `revert`. -/
def RevertNext.Fits (role : Role) : RevertNext → Prop
  | .prepare result => role = .originator ∧ NotFatal result
  | .fail _ => role = .originator
  | .changeToReverted | .helpReturn _ => role = .helper

/-- The stage exchanges with their closures. -/
inductive StageNext.Fits (numWords : ℕ) (role : Role) : Stage → Stage → StageNext → Prop where
  | set : StageNext.Fits numWords role .claiming .setting .set
  | revert {w : ℕ} : w < numWords → StageNext.Fits numWords role .claiming .reverting (.revert w)
  | successful : role = .helper → StageNext.Fits numWords role .setting .successful .ok
  | reverted : role = .helper → StageNext.Fits numWords role .reverting .reverted .ok

/-- The positions of an originator or a helper. Without `prepare` a call comes to its
end by a fatal error, and only without words there is a position that panics. -/
def Pc.Fits (numWords : ℕ) (role : Role) : Pc → Prop
  | .claimLoadTarget w | .claimLoadExpected w _ | .claimExchange w .. | .claimVerify w .. |
    .claimHelp w .. | .setLoadTarget w | .setLoadDesired w _ | .setExchange w .. |
    .setVerify w => w < numWords
  | .changeStage current desired next => next.Fits numWords role current desired
  | .revertLoadTarget w next | .revertLoadExpected w _ next | .revertExchange w _ _ next =>
    w < numWords ∧ next.Fits role
  | .prepare result => role = .originator ∧ NotFatal result
  | .finished result => role = .originator ∧ ¬ NotFatal result
  | .returned _ => role = .helper
  | .panicked => numWords = 0

theorem fits_failWith {error : FatalError} : (failWith role error).Fits P.numWords role := by
  cases role with
  | originator => exact ⟨rfl, not_notFatal⟩
  | helper => rfl

theorem fits_revertAllWords {next : RevertNext} (fits : next.Fits role) :
    (revertAllWords P next).Fits P.numWords role := by
  unfold revertAllWords
  split
  · assumption
  · exact ⟨by omega, fits⟩

theorem fits_afterSetOk : (afterSetOk role).Fits P.numWords role := by
  cases role with
  | originator => exact ⟨rfl, notFatal_ok⟩
  | helper => exact .successful rfl

theorem fits_setFrom : (setFrom P role w).Fits P.numWords role := by
  unfold setFrom
  split
  · assumption
  · exact fits_afterSetOk

theorem fits_onStage {current actual : Stage} :
    (onStage P role current actual).Fits P.numWords role := by
  cases role with
  | originator =>
    cases actual with
    | inactive | claiming => exact fits_failWith
    | setting => exact fits_setFrom
    | reverting | reverted => exact fits_revertAllWords ⟨rfl, notFatal_valueWasNotExpectedValue⟩
    | successful => exact fits_revertAllWords ⟨rfl, notFatal_ok⟩
  | helper =>
    cases actual with
    | inactive | claiming => exact fits_failWith
    | setting => exact fits_setFrom
    | reverting | reverted | successful => exact fits_revertAllWords rfl

theorem fits_onVerificationError {current : Stage} {error : StageAndSequenceVerificationError} :
    (onVerificationError P role op current error).Fits P.numWords role := by
  cases error with
  | stageChanged actual =>
    have onward : (onStage P role current actual).Fits P.numWords role := fits_onStage
    cases role <;> exact onward
  | sequenceChanged actual =>
    cases role with
    | originator => exact fits_failWith
    | helper => exact fits_revertAllWords rfl
  | stageOutOfBounds number => cases role <;> exact fits_failWith

theorem fits_afterSet {result : Except SetError Unit} :
    (afterSet P role op result).Fits P.numWords role := by
  cases result with
  | ok => cases role <;> exact fits_afterSetOk
  | error error =>
    cases error with
    | stageAndSequenceVerificationError =>
      rw [afterSet_verificationError]
      exact fits_onVerificationError
    | targetAddressWasNotValidPointer => cases role <;> exact fits_failWith

/-- `claim` fails at one of its words. -/
def ClaimError.Within (numWords : ℕ) : ClaimError → Prop
  | .valueWasNotExpectedValue w .. => w < numWords
  | _ => True

theorem fits_afterClaim {result : Except ClaimError Unit}
    (within : ∀ error, result = .error error → error.Within P.numWords) :
    (afterClaim P role op result).Fits P.numWords role := by
  cases result with
  | ok => cases role <;> exact .set
  | error error =>
    have inRange := within error rfl
    cases error with
    | stageAndSequenceVerificationError =>
      rw [afterClaim_verificationError]
      exact fits_onVerificationError
    | valueWasNotExpectedValue => cases role <;> exact .revert inRange
    | _ => cases role <;> exact fits_failWith

theorem fits_claimFrom : (claimFrom P role op w).Fits P.numWords role := by
  unfold claimFrom
  split
  · assumption
  · exact fits_afterClaim (by simp)

theorem fits_revertBelow {next : RevertNext} (inRange : w < P.numWords) (fits : next.Fits role) :
    (revertBelow role next w).Fits P.numWords role := by
  cases w with
  | succ w => exact ⟨Nat.lt_of_succ_lt inRange, fits⟩
  | zero =>
    cases next with
    | changeToReverted => exact .reverted fits
    | fail error => exact ⟨fits, not_notFatal⟩
    | _ => exact fits

theorem fits_afterStageChanged {current desired : Stage} {next : StageNext}
    (fits : next.Fits P.numWords role current desired) :
    (afterStageChanged P role next).Fits P.numWords role := by
  cases fits with
  | set => exact fits_setFrom
  | revert inRange =>
    cases role with
    | originator => exact ⟨inRange, rfl, notFatal_valueWasNotExpectedValue⟩
    | helper => exact ⟨inRange, rfl⟩
  | successful helper => exact helper
  | reverted helper => exact helper

theorem fits_afterStageNotChanged {current : Stage} {actual : ℕ} :
    (afterStageNotChanged P role op current actual).Fits P.numWords role := by
  cases role with
  | originator =>
    simp only [afterStageNotChanged, changeStageAndTransition]
    split
    · exact ⟨rfl, not_notFatal⟩
    · split
      · exact fits_revertAllWords rfl
      · exact @fits_onStage P .originator _ _
  | helper =>
    simp only [afterStageNotChanged, helpChangeStageAndTransition]
    split
    · rfl
    · split
      · exact fits_revertAllWords rfl
      · exact @fits_onStage P .helper _ _

theorem fits_afterHelp {target expected : ℕ} {result : Except HelpError Unit}
    (inRange : w < P.numWords) :
    (afterHelp P role op w target expected result).Fits P.numWords role := by
  cases result with
  | ok => exact inRange
  | error error =>
    cases error with
    | fatal => exact fits_afterClaim (by rintro error ⟨⟩; trivial)
    | _ => exact inRange

theorem fits_helpThreadAt {word : ℕ} : (helpThreadAt P op word).Fits P.numWords .helper := by
  simp only [helpThreadAt]
  split
  · rfl
  · split
    · rfl
    · split
      · rfl
      · exact fits_claimFrom
      · exact fits_setFrom
      · exact fits_revertAllWords rfl
      · rfl
      · rfl

/-! ### Call stacks -/

/-- An activation that helps. Only with words there are markers to meet. -/
def HelperFits (P : Params) : Frame P.numWords → Prop
  | .initializing .. => False
  | .helpThread marker => 0 < P.numWords ∧ isValueAKcasMarker P.usizeBits P.numThreads marker
  | .operating role op pc => role = .helper ∧ 0 < P.numWords ∧ op.threadIndex < P.numThreads ∧
    op = P.operation op.threadIndex op.sequence ∧ pc.Fits P.numWords .helper

/-- The activation at the bottom of a stack of thread index `t`. -/
def OwnFits (P : Params) (t : ℕ) : Frame P.numWords → Prop
  | .initializing threadId threadIndex _ pc =>
    threadId = t + 1 ∧ threadIndex = t ∧ pc.Fits P.numWords
  | .helpThread _ => False
  | .operating role op pc => role = .originator ∧ op = P.operation t op.sequence ∧
    (pc.Fits P.numWords .originator ∨ ∃ result, pc = .finished result)

/-- A call stack of thread index `t`, the running activation first. -/
def StackFits (P : Params) (t : ℕ) : List (Frame P.numWords) → Prop
  | [] => True
  | [frame] => OwnFits P t frame
  | frame :: caller :: rest =>
    HelperFits P frame ∧ Waiting P caller ∧ StackFits P t (caller :: rest)

/-! ### Accesses -/

/-- What an operation's accesses show when they do not touch `State`. -/
def Event.Cellwise (op : Operation) : Event → Prop
  | .silent => True
  | .exchangeStage _ _ _ _ _ (.error _) => True
  | .exchangeCell .claim op' _ _ _ new _ => op' = op ∧ new = op.threadAndSequence
  | .exchangeCell _ op' .. => op' = op
  | _ => False

/-- What an access of an operation does to `State`, and where it leaves the
operation. -/
inductive OperationEffect (P : Params) (s : Shared) (role : Role) (op : Operation) :
    Pc → Event → Shared → List (Frame P.numWords) → Prop where
  | moved {pc pc' : Pc} {event : Event} {cells : ℕ → ℕ} : pc'.Fits P.numWords role →
      event.Cellwise op →
      OperationEffect P s role op pc event { s with cells := cells } [.operating role op pc']
  | helps {w target expected marker : ℕ} : w < P.numWords →
      isValueAKcasMarker P.usizeBits P.numThreads marker = true →
      OperationEffect P s role op (.claimVerify w target expected marker) .silent s
        [.helpThread marker, .operating role op (.claimHelp w target expected)]
  | exchanged {current desired : Stage} {next : StageNext} :
      next.Fits P.numWords role current desired →
      s.state.stageAndSequenceNumbers op.threadIndex = P.stageWord current op.sequence →
      OperationEffect P s role op (.changeStage current desired next)
        (.exchangeStage role op current desired next (.ok (P.stageWord current op.sequence)))
        (s.storeStage op.threadIndex (P.stageWord desired op.sequence))
        [.operating role op (afterStageChanged P role next)]
  | prepared {result : Except Error Unit} : role = .originator → NotFatal result →
      OperationEffect P s role op (.prepare result)
        (.storeStage op.threadIndex
          (P.stageWord .inactive (nextSequence P.usizeBits P.numThreads op.sequence)))
        (s.storeStage op.threadIndex
          (P.stageWord .inactive (nextSequence P.usizeBits P.numThreads op.sequence)))
        [.operating role op (.finished result)]

/-- The access does not touch the cells either. -/
theorem OperationEffect.unmoved {pc' : Pc} {event : Event} (fits : pc'.Fits P.numWords role)
    (cellwise : event.Cellwise op) :
    OperationEffect P s role op pc event s [.operating role op pc'] :=
  @OperationEffect.moved P s role op pc pc' event s.cells fits cellwise

theorem Params.markerSequenceBits_lt (P : Params) :
    getBitLengthOfNumThreads P.usizeBits P.numThreads < P.usizeBits := by
  have bits := P.markerSequenceBits_add
  simp only [Params.threadBits] at bits
  omega

theorem fits_claimClassify {target expected actual : ℕ} (inRange : w < P.numWords) :
    OperationEffect P s role op (.claimVerify w target expected actual) .silent s
      (claimClassify P role op w target expected actual) := by
  have room := P.markerSequenceBits_lt
  rw [claimClassify_eq]
  cases reading : readingOf P.usizeBits P.numThreads actual with
  | real =>
    refine .unmoved (fits_afterClaim ?_) trivial
    rintro error ⟨⟩
    exact inRange
  | marker => exact .helps inRange ((readingOf_eq_marker room).mp reading)
  | illegal =>
    refine .unmoved (fits_afterClaim ?_) trivial
    rintro error ⟨⟩
    trivial

theorem exchangeCell_cells (s : Shared) (target expected new : ℕ) :
    ∃ cells, (s.exchangeCell target expected new).2 = { s with cells := cells } := by
  unfold Shared.exchangeCell
  split
  · exact ⟨_, rfl⟩
  · exact ⟨s.cells, rfl⟩

theorem exchangeCellWeak_cells (s : Shared) (spurious : Bool) (target expected new : ℕ) :
    ∃ cells, (s.exchangeCellWeak spurious target expected new).2 = { s with cells := cells } := by
  unfold Shared.exchangeCellWeak
  split
  · exact ⟨s.cells, rfl⟩
  · exact exchangeCell_cells s target expected new

/-- Every access of an operation that is at one of its positions. -/
theorem effect_of_operate (within : op.threadIndex < P.numThreads)
    (fits : pc.Fits P.numWords role) (ran : operate P s spurious role op pc = some outcome) :
    OperationEffect P s role op pc outcome.event outcome.shared outcome.frames := by
  cases pc with
  | claimLoadTarget w =>
    have inRange : w < P.numWords := fits
    simp only [operate, within, inRange, and_self, ↓reduceIte, Option.some.injEq] at ran
    subst ran
    refine .unmoved ?_ trivial
    split
    · exact fits_afterClaim (by rintro error ⟨⟩; trivial)
    · exact inRange
  | claimLoadExpected w target =>
    have inRange : w < P.numWords := fits
    simp only [operate, within, inRange, and_self, ↓reduceIte, Option.some.injEq] at ran
    subst ran
    exact .unmoved inRange trivial
  | claimExchange w target expected =>
    have inRange : w < P.numWords := fits
    simp only [operate, Option.some.injEq] at ran
    have kept := exchangeCellWeak_cells s spurious target expected op.threadAndSequence
    generalize s.exchangeCellWeak spurious target expected op.threadAndSequence = exchanged
      at ran kept
    obtain ⟨result, after⟩ := exchanged
    obtain ⟨cells, rfl⟩ := kept
    subst ran
    refine .moved ?_ ⟨rfl, rfl⟩
    split
    · exact fits_claimFrom
    · split
      · exact inRange
      · split
        · exact fits_claimFrom
        · exact inRange
  | claimVerify w target expected actual =>
    have inRange : w < P.numWords := fits
    simp only [operate, within, ↓reduceIte, Option.some.injEq] at ran
    subst ran
    split
    · exact .unmoved (fits_afterClaim (by rintro error ⟨⟩; trivial)) trivial
    · exact fits_claimClassify inRange
  | claimHelp => simp [operate] at ran
  | changeStage current desired next =>
    have words (stage : Stage) : constructStageAndSequence P.usizeBits stage op.sequence =
      P.stageWord stage op.sequence := rfl
    simp only [operate, within, ↓reduceIte, Shared.exchangeStage, words, Option.some.injEq] at ran
    by_cases matching : s.state.stageAndSequenceNumbers op.threadIndex =
        P.stageWord current op.sequence
    · simp only [matching, ↓reduceIte] at ran
      subst ran
      exact .exchanged fits matching
    · simp only [matching, ↓reduceIte] at ran
      subst ran
      exact .unmoved fits_afterStageNotChanged trivial
  | setLoadTarget w =>
    have inRange : w < P.numWords := fits
    simp only [operate, within, inRange, and_self, ↓reduceIte, Option.some.injEq] at ran
    subst ran
    refine .unmoved ?_ trivial
    split
    · exact fits_afterSet
    · exact inRange
  | setLoadDesired w target =>
    have inRange : w < P.numWords := fits
    simp only [operate, within, inRange, and_self, ↓reduceIte, Option.some.injEq] at ran
    subst ran
    exact .unmoved inRange trivial
  | setExchange w target desired =>
    have inRange : w < P.numWords := fits
    simp only [operate, Option.some.injEq] at ran
    have kept := exchangeCell_cells s target op.threadAndSequence desired
    generalize s.exchangeCell target op.threadAndSequence desired = exchanged at ran kept
    obtain ⟨result, after⟩ := exchanged
    obtain ⟨cells, rfl⟩ := kept
    subst ran
    refine .moved ?_ rfl
    split
    · exact fits_setFrom
    · exact inRange
  | setVerify w =>
    simp only [operate, within, ↓reduceIte, Option.some.injEq] at ran
    subst ran
    split
    · exact .unmoved fits_afterSet trivial
    · exact .unmoved fits_setFrom trivial
  | revertLoadTarget w next =>
    obtain ⟨inRange, nextFits⟩ := fits
    simp only [operate, within, inRange, and_self, ↓reduceIte, Option.some.injEq] at ran
    subst ran
    refine .unmoved ?_ trivial
    split
    · exact fits_failWith
    · exact ⟨inRange, nextFits⟩
  | revertLoadExpected w target next =>
    obtain ⟨inRange, nextFits⟩ := fits
    simp only [operate, within, inRange, and_self, ↓reduceIte, Option.some.injEq] at ran
    subst ran
    exact .unmoved ⟨inRange, nextFits⟩ trivial
  | revertExchange w target expected next =>
    obtain ⟨inRange, nextFits⟩ := fits
    simp only [operate, Option.some.injEq] at ran
    have kept := exchangeCell_cells s target op.threadAndSequence expected
    generalize s.exchangeCell target op.threadAndSequence expected = exchanged at ran kept
    obtain ⟨result, after⟩ := exchanged
    obtain ⟨cells, rfl⟩ := kept
    subst ran
    exact .moved (fits_revertBelow inRange nextFits) rfl
  | prepare result =>
    simp only [operate, prepareForNextOperation_nextSequence, within, ↓reduceIte,
      Option.some.injEq] at ran
    subst ran
    exact .prepared fits.1 fits.2
  | finished => simp [operate] at ran
  | returned => simp [operate] at ran
  | panicked => simp [operate] at ran

/-! ### Steps of a call -/

/-- The operation has not come to an end. -/
def Pc.Going : Pc → Prop
  | .finished _ | .returned _ | .panicked => False
  | _ => True

theorem going_of_operate (ran : operate P s spurious role op pc = some outcome) : pc.Going := by
  cases pc with
  | finished => simp [operate] at ran
  | returned => simp [operate] at ran
  | panicked => simp [operate] at ran
  | _ => trivial

/-- What one step of a call of thread index `t` does to its stack and to `State`. -/
inductive CallEffect (P : Params) (t : ℕ) (s : Shared) :
    List (Frame P.numWords) → Event → Shared → List (Frame P.numWords) → Prop where
  | init {words : KCasWords P.numWords} {pc : InitPc} {event : Event} {s' : Shared}
      {frames : List (Frame P.numWords)} : InitMoves P s t words pc event s' frames →
      CallEffect P t s [.initializing (t + 1) t words pc] event s' frames
  | help {u n : ℕ} {rest : List (Frame P.numWords)} : u < P.numThreads →
      CallEffect P t s (.helpThread (P.marker u n) :: rest) .silent s
        (.operating .helper (P.operation u n)
          (helpThreadAt P (P.operation u n) (s.state.stageAndSequenceNumbers u)) :: rest)
  | operate {role : Role} {op : Operation} {pc : Pc} {event : Event} {s' : Shared}
      {frames rest : List (Frame P.numWords)} : pc.Going →
      OperationEffect P s role op pc event s' frames →
      CallEffect P t s (.operating role op pc :: rest) event s' (frames ++ rest)
  | helpReturned {helped op : Operation} {role : Role} {w target expected : ℕ}
      {result : Except HelpError Unit} {rest : List (Frame P.numWords)} :
      CallEffect P t s
        (.operating .helper helped (.returned result) ::
          .operating role op (.claimHelp w target expected) :: rest) .silent s
        (.operating role op (afterHelp P role op w target expected result) :: rest)
  | respond {op : Operation} {result : Except Error Unit} :
      CallEffect P t s [.operating .originator op (.finished result)] (.responded result) s []

/-- The load of `help_thread` for a value that is a marker. -/
theorem helpThread_of_marker {marker : ℕ}
    (marked : isValueAKcasMarker P.usizeBits P.numThreads marker = true) :
    ∃ u < P.numThreads, ∃ n, marker = P.marker u n ∧
      extractThreadFromThreadAndSequence P.usizeBits P.numThreads marker = u + 1 ∧
      extractSequenceFromThreadAndSequence P.usizeBits P.numThreads marker = n ∧
      helpThread P s marker = ⟨.silent, s, [.operating .helper (P.operation u n)
        (helpThreadAt P (P.operation u n) (s.state.stageAndSequenceNumbers u))]⟩ := by
  have room := P.markerSequenceBits_lt
  have range := marked
  simp only [isValueAKcasMarker, Bool.and_eq_true, decide_eq_true_eq] at range
  obtain ⟨u, threadId⟩ := Nat.exists_eq_succ_of_ne_zero (Nat.ne_of_gt range.1)
  have same := eq_constructThreadAndSequence room range.2
  have within : u < P.numThreads := by omega
  have marker_eq : marker = P.marker u
      (extractSequenceFromThreadAndSequence P.usizeBits P.numThreads marker) := by
    rw [Params.marker, convertThreadIndexToThreadId, ← Nat.succ_eq_add_one, ← threadId]
    exact same
  refine ⟨u, within, _, marker_eq, threadId, rfl, ?_⟩
  simp only [helpThread, threadId, convertThreadIdToThreadIndex, Nat.succ_ne_zero, ↓reduceIte,
    Nat.succ_eq_add_one, Nat.add_sub_cancel, within, Params.operation, ← marker_eq]

/-- Every step of a call whose activations are at their positions. -/
theorem effect_of_stackStep (within : t < P.numThreads) (fits : StackFits P t stack)
    (ran : stackStep P s spurious stack = some outcome) :
    CallEffect P t s stack outcome.event outcome.shared outcome.frames := by
  unfold stackStep at ran
  split at ran
  · cases ran
  · cases ran
    exact .helpReturned
  · cases ran
    exact .respond
  · rename_i frame rest _ _
    obtain ⟨inner, accessed, rfl⟩ := Option.map_eq_some_iff.mp ran
    cases frame with
    | initializing threadId threadIndex words pc =>
      cases rest with
      | cons caller rest => exact fits.1.elim
      | nil =>
        obtain ⟨rfl, rfl, pcFits⟩ := fits
        simp only [frameStep, Option.some.injEq] at accessed
        subst accessed
        have moves : Moves P s (.initializing (threadIndex + 1) threadIndex words pc) _ _ _ :=
          moves_of_initializeOperation within pcFits
        simp only [List.append_nil]
        cases moves with
        | init moves => exact .init moves
    | helpThread marker =>
      have marked : isValueAKcasMarker P.usizeBits P.numThreads marker = true := by
        cases rest with
        | nil => exact fits.elim
        | cons caller rest => exact fits.1.2
      obtain ⟨u, inRange, n, rfl, -, -, loaded⟩ := helpThread_of_marker (s := s) marked
      simp only [frameStep, Option.some.injEq] at accessed
      subst accessed
      rw [loaded]
      exact .help inRange
    | operating role op pc =>
      have position : op.threadIndex < P.numThreads ∧ pc.Fits P.numWords role := by
        cases rest with
        | nil =>
          obtain ⟨rfl, same, pcFits | ⟨result, rfl⟩⟩ := fits
          · rw [same]
            exact ⟨within, pcFits⟩
          · cases accessed
        | cons caller rest =>
          obtain ⟨⟨rfl, -, inRange, -, pcFits⟩, -⟩ := fits
          exact ⟨inRange, pcFits⟩
      exact .operate (going_of_operate accessed)
        (effect_of_operate position.1 position.2 accessed)

theorem OperationEffect.frames_ne_nil {event : Event} {s' : Shared}
    {frames : List (Frame P.numWords)} (effect : OperationEffect P s role op pc event s' frames) :
    frames ≠ [] := by
  cases effect <;> simp

/-- The running activation is at another of its positions. -/
theorem stackFits_pc {pc' : Pc} {rest : List (Frame P.numWords)}
    (fits : StackFits P t (.operating role op pc :: rest)) (position : pc'.Fits P.numWords role) :
    StackFits P t (.operating role op pc' :: rest) := by
  cases rest with
  | nil =>
    obtain ⟨rfl, same, -⟩ := fits
    exact ⟨rfl, same, .inl position⟩
  | cons caller rest =>
    obtain ⟨⟨rfl, words, within, same, -⟩, waiting, below⟩ := fits
    exact ⟨⟨rfl, words, within, same, position⟩, waiting, below⟩

/-- A call goes on at positions. -/
theorem CallEffect.fits {event : Event} {s' : Shared} {stack' : List (Frame P.numWords)}
    (effect : CallEffect P t s stack event s' stack') (fits : StackFits P t stack) :
    StackFits P t stack' := by
  cases effect with
  | init moves =>
    cases moves with
    | storeTarget inRange => exact ⟨rfl, rfl, inRange⟩
    | storeExpected inRange => exact ⟨rfl, rfl, inRange⟩
    | storeDesired inRange =>
      refine ⟨rfl, rfl, ?_⟩
      split
      · assumption
      · trivial
    | loadStage => exact ⟨rfl, rfl, trivial⟩
    | storeStage => exact ⟨rfl, rfl, .inl fits_claimFrom⟩
  | @help u n rest inRange =>
    cases rest with
    | nil => exact fits.elim
    | cons caller rest =>
      obtain ⟨⟨words, -⟩, waiting, below⟩ := fits
      exact ⟨⟨rfl, words, inRange, rfl, fits_helpThreadAt⟩, waiting, below⟩
  | @operate role op pc _ _ frames rest going effect =>
    cases effect with
    | moved position => exact stackFits_pc fits position
    | helps inRange marked =>
      exact ⟨⟨Nat.lt_of_le_of_lt (Nat.zero_le _) inRange, marked⟩, trivial,
        stackFits_pc fits inRange⟩
    | exchanged next => exact stackFits_pc fits (fits_afterStageChanged next)
    | prepared own =>
      cases rest with
      | nil => exact ⟨own, fits.2.1, .inr ⟨_, rfl⟩⟩
      | cons caller rest => cases own.symm.trans fits.1.1
  | @helpReturned helped op role w target expected result rest =>
    obtain ⟨-, -, below⟩ := fits
    cases rest with
    | nil =>
      obtain ⟨rfl, same, inRange | ⟨result, ended⟩⟩ := below
      · exact ⟨rfl, same, .inl (fits_afterHelp inRange)⟩
      · cases ended
    | cons caller rest =>
      obtain ⟨⟨rfl, words, within, same, inRange⟩, waiting, below⟩ := below
      exact ⟨⟨rfl, words, within, same, fits_afterHelp inRange⟩, waiting, below⟩
  | respond => trivial

/-! ### The rows -/

/-- A call leaves the slots and the counter alone. -/
theorem CallEffect.slots {event : Event} {s' : Shared} {stack' : List (Frame P.numWords)}
    (effect : CallEffect P t s stack event s' stack') :
    s'.state.threadIndexSlots = s.state.threadIndexSlots ∧
      s'.state.numThreadsInUse = s.state.numThreadsInUse := by
  cases effect with
  | init moves => cases moves <;> exact ⟨rfl, rfl⟩
  | operate going effect => cases effect <;> exact ⟨rfl, rfl⟩
  | _ => exact ⟨rfl, rfl⟩

/-- The stores of an operation without an exchange are in the rows of its own thread
index. -/
theorem CallEffect.own {event : Event} {s' : Shared} {stack' : List (Frame P.numWords)} {u : ℕ}
    (effect : CallEffect P t s stack event s' stack') (fits : StackFits P t stack) :
    (∀ w, event = .storeRow u w → u = t) ∧ (∀ word, event = .storeStage u word → u = t) := by
  cases effect with
  | init moves => cases moves <;> simp +contextual [eq_comm]
  | @operate role op pc _ _ frames rest going effect =>
    cases effect with
    | moved position cellwise =>
      constructor
      · rintro w rfl
        exact cellwise.elim
      · rintro word rfl
        exact cellwise.elim
    | prepared own =>
      cases rest with
      | nil =>
        obtain ⟨-, same, -⟩ := fits
        refine ⟨by simp, fun word stored => ?_⟩
        rw [← (Event.storeStage.injEq ..).mp stored |>.1, same]
        rfl
      | cons caller rest => cases own.symm.trans fits.1.1
    | _ => simp
  | _ => simp

/-- Without such a store the words of a row stay as they are. -/
theorem CallEffect.words_kept {event : Event} {s' : Shared} {stack' : List (Frame P.numWords)}
    {u : ℕ} (effect : CallEffect P t s stack event s' stack')
    (none : ∀ w, event ≠ .storeRow u w) :
    s'.state.targetAddresses u = s.state.targetAddresses u ∧
      s'.state.expectedValues u = s.state.expectedValues u ∧
      s'.state.desiredValues u = s.state.desiredValues u := by
  cases effect with
  | init moves =>
    cases moves with
    | loadStage => exact ⟨rfl, rfl, rfl⟩
    | storeStage => exact ⟨rfl, rfl, rfl⟩
    | @storeTarget w inRange =>
      have other : u ≠ t := by
        rintro rfl
        exact none w rfl
      simp [Shared.storeTarget, other]
    | @storeExpected w inRange =>
      have other : u ≠ t := by
        rintro rfl
        exact none w rfl
      simp [Shared.storeExpected, other]
    | @storeDesired w inRange =>
      have other : u ≠ t := by
        rintro rfl
        exact none w rfl
      simp [Shared.storeDesired, other]
  | operate going effect => cases effect <;> exact ⟨rfl, rfl, rfl⟩
  | _ => exact ⟨rfl, rfl, rfl⟩

/-- Without a plain store the stage word of a row changes by an exchange only. -/
theorem CallEffect.stage_kept {event : Event} {s' : Shared} {stack' : List (Frame P.numWords)}
    {u : ℕ} (effect : CallEffect P t s stack event s' stack')
    (none : ∀ word, event ≠ .storeStage u word) :
    s'.state.stageAndSequenceNumbers u = s.state.stageAndSequenceNumbers u ∨
      ∃ role op current desired next actual, op.threadIndex = u ∧
        event = .exchangeStage role op current desired next (.ok actual) := by
  cases effect with
  | init moves =>
    cases moves with
    | storeStage =>
      have other : u ≠ t := by
        rintro rfl
        exact none _ rfl
      simp [Shared.storeStage, other]
    | _ => exact .inl rfl
  | @operate role op pc _ _ frames rest going effect =>
    cases effect with
    | exchanged next word =>
      by_cases same : op.threadIndex = u
      · exact .inr ⟨role, op, _, _, _, _, same, rfl⟩
      · simp [Shared.storeStage, Ne.symm same]
    | prepared own =>
      have other : u ≠ op.threadIndex := by
        rintro rfl
        exact none _ rfl
      simp [Shared.storeStage, other]
    | _ => exact .inl rfl
  | _ => exact .inl rfl

end KCas
