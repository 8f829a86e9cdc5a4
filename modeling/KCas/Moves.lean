import KCas.Usage

/-! Everything one access of one activation can do, with the packed words taken
apart and without the branches that are never taken. The invariants that
exclude those branches are in `KCas.Invariant`, the proof that every step is a
move in `KCas.Inversion`; all later invariants are derived from the moves. -/
namespace KCas

/-- The three arguments of the functions that run the call of thread index `t`
with sequence `n`. -/
def Params.operation (P : Params) (t n : ℕ) : Operation := ⟨t, n, P.marker t n⟩

@[simp] theorem Params.operation_threadIndex {P : Params} {t n : ℕ} :
    (P.operation t n).threadIndex = t := rfl
@[simp] theorem Params.operation_sequence {P : Params} {t n : ℕ} :
    (P.operation t n).sequence = n := rfl
@[simp] theorem Params.operation_threadAndSequence {P : Params} {t n : ℕ} :
    (P.operation t n).threadAndSequence = P.marker t n := rfl

/-- A move to one position leaves the activation there. -/
theorem eq_of_mem_operating {numWords : ℕ} {role : Role} {op : Operation} {pc pc' : Pc}
    (member : .operating role op pc' ∈ [(.operating role op pc : Frame numWords)]) : pc' = pc := by
  simpa using member

/-- How a function goes on when its row is at another stage of its sequence. -/
def onStage (P : Params) (role : Role) (currentStage actualStage : Stage) : Pc :=
  match role with
  | .originator => handleConcurrentStageChangeAndTransition P currentStage actualStage
  | .helper => helpHandleConcurrentStageChangeAndTransition P currentStage actualStage

/-- How a helper leaves an operation whose sequence is over. -/
def onRetired (P : Params) (t n actualSequence : ℕ) : Pc :=
  revertAllWords P (.helpReturn (.error (.sequenceChangedWhileHelping
    (convertThreadIndexToThreadId t) n actualSequence)))

/-- The row of an operation is not at the stage that its function looked for,
and this is how the function goes on. -/
inductive Diverted (P : Params) (s : Shared) (role : Role) (t n : ℕ) (wanted : Stage) :
    Pc → Prop where
  | stage {actual : Stage} : s.sequenceOf P t = n → s.stageOf P t = actual → actual ≠ wanted →
      actual ≠ .inactive → Diverted P s role t n wanted (onStage P role wanted actual)
  | retired : role = .helper → n < s.sequenceOf P t →
      Diverted P s role t n wanted (onRetired P t n (s.sequenceOf P t))

/-- The stage exchanges an operation makes. -/
inductive StageEdge : Stage → Stage → Prop where
  | toSetting : StageEdge .claiming .setting
  | toReverting : StageEdge .claiming .reverting
  | toSuccessful : StageEdge .setting .successful
  | toReverted : StageEdge .reverting .reverted

section

variable (P : Params) (s : Shared)

/-- The moves of an operation's positions. -/
inductive OperationMoves (role : Role) (t n : ℕ) :
    Pc → Event → Shared → List (Frame P.numWords) → Prop where
  | claimLoadTarget {w} :
      OperationMoves role t n (.claimLoadTarget w) .silent s
        [.operating role (P.operation t n)
          (.claimLoadExpected w (s.state.targetAddresses t w))]
  | claimLoadExpected {w target} :
      OperationMoves role t n (.claimLoadExpected w target) .silent s
        [.operating role (P.operation t n)
          (.claimExchange w target (s.state.expectedValues t w))]
  | claimed {w target expected} : s.cells target = expected →
      OperationMoves role t n (.claimExchange w target expected)
        (.exchangeCell .claim (P.operation t n) w target expected (P.marker t n) (.ok expected))
        (s.setCell target (P.marker t n))
        [.operating role (P.operation t n) (claimFrom P role (P.operation t n) (w + 1))]
  | claimSpurious {w target expected} : s.cells target = expected →
      OperationMoves role t n (.claimExchange w target expected)
        (.exchangeCell .claim (P.operation t n) w target expected (P.marker t n)
          (.error expected)) s
        [.operating role (P.operation t n) (.claimExchange w target expected)]
  | claimFoundOwn {w target expected} : s.cells target = P.marker t n →
      P.marker t n ≠ expected →
      OperationMoves role t n (.claimExchange w target expected)
        (.exchangeCell .claim (P.operation t n) w target expected (P.marker t n)
          (.error (P.marker t n))) s
        [.operating role (P.operation t n) (claimFrom P role (P.operation t n) (w + 1))]
  | claimFoundOther {w target expected} : s.cells target ≠ expected →
      s.cells target ≠ P.marker t n →
      OperationMoves role t n (.claimExchange w target expected)
        (.exchangeCell .claim (P.operation t n) w target expected (P.marker t n)
          (.error (s.cells target))) s
        [.operating role (P.operation t n) (.claimVerify w target expected (s.cells target))]
  | verifiedReal {w target expected actual} : s.sequenceOf P t = n →
      s.stageOf P t = .claiming → P.Legal actual →
      OperationMoves role t n (.claimVerify w target expected actual) .silent s
        [.operating role (P.operation t n) (.changeStage .claiming .reverting (.revert w))]
  | verifiedMarker {w target expected u k} : s.sequenceOf P t = n →
      s.stageOf P t = .claiming → u < P.numThreads → ¬ P.Legal (P.marker u k) →
      OperationMoves role t n (.claimVerify w target expected (P.marker u k)) .silent s
        [.helpThread (P.marker u k),
          .operating role (P.operation t n) (.claimHelp w target expected)]
  | claimDiverted {w target expected actual pc} : Diverted P s role t n .claiming pc →
      OperationMoves role t n (.claimVerify w target expected actual) .silent s
        [.operating role (P.operation t n) pc]
  | stageChanged {current desired next} : s.sequenceOf P t = n → s.stageOf P t = current →
      StageEdge current desired →
      OperationMoves role t n (.changeStage current desired next)
        (.exchangeStage role (P.operation t n) current desired next
          (.ok (P.stageWord current n)))
        (s.storeStage t (P.stageWord desired n))
        [.operating role (P.operation t n) (afterStageChanged P role next)]
  | stageRefused {current desired next pc} : Diverted P s role t n current pc →
      OperationMoves role t n (.changeStage current desired next)
        (.exchangeStage role (P.operation t n) current desired next
          (.error (s.state.stageAndSequenceNumbers t))) s
        [.operating role (P.operation t n) pc]
  | setLoadTarget {w} :
      OperationMoves role t n (.setLoadTarget w) .silent s
        [.operating role (P.operation t n) (.setLoadDesired w (s.state.targetAddresses t w))]
  | setLoadDesired {w target} :
      OperationMoves role t n (.setLoadDesired w target) .silent s
        [.operating role (P.operation t n)
          (.setExchange w target (s.state.desiredValues t w))]
  | setDone {w target desired} : s.cells target = P.marker t n →
      OperationMoves role t n (.setExchange w target desired)
        (.exchangeCell .set (P.operation t n) w target (P.marker t n) desired
          (.ok (P.marker t n)))
        (s.setCell target desired)
        [.operating role (P.operation t n) (setFrom P role (w + 1))]
  | setMissed {w target desired} : s.cells target ≠ P.marker t n →
      OperationMoves role t n (.setExchange w target desired)
        (.exchangeCell .set (P.operation t n) w target (P.marker t n) desired
          (.error (s.cells target))) s
        [.operating role (P.operation t n) (.setVerify w)]
  | setVerified {w} : s.sequenceOf P t = n → s.stageOf P t = .setting →
      OperationMoves role t n (.setVerify w) .silent s
        [.operating role (P.operation t n) (setFrom P role (w + 1))]
  | setDiverted {w pc} : Diverted P s role t n .setting pc →
      OperationMoves role t n (.setVerify w) .silent s
        [.operating role (P.operation t n) pc]
  | revertLoadTarget {w next} :
      OperationMoves role t n (.revertLoadTarget w next) .silent s
        [.operating role (P.operation t n)
          (.revertLoadExpected w (s.state.targetAddresses t w) next)]
  | revertLoadExpected {w target next} :
      OperationMoves role t n (.revertLoadExpected w target next) .silent s
        [.operating role (P.operation t n)
          (.revertExchange w target (s.state.expectedValues t w) next)]
  | reverted {w target expected next} : s.cells target = P.marker t n →
      OperationMoves role t n (.revertExchange w target expected next)
        (.exchangeCell .revert (P.operation t n) w target (P.marker t n) expected
          (.ok (P.marker t n)))
        (s.setCell target expected)
        [.operating role (P.operation t n) (revertBelow role next w)]
  | revertMissed {w target expected next} : s.cells target ≠ P.marker t n →
      OperationMoves role t n (.revertExchange w target expected next)
        (.exchangeCell .revert (P.operation t n) w target (P.marker t n) expected
          (.error (s.cells target))) s
        [.operating role (P.operation t n) (revertBelow role next w)]
  | prepared {result} :
      OperationMoves role t n (.prepare result)
        (.storeStage t (P.stageWord .inactive (n + 1)))
        (s.storeStage t (P.stageWord .inactive (n + 1)))
        [.operating role (P.operation t n) (.finished result)]

/-- The moves of `initialize_operation` for the call of thread index `t`. -/
inductive InitMoves (t : ℕ) (words : KCasWords P.numWords) :
    InitPc → Event → Shared → List (Frame P.numWords) → Prop where
  | storeTarget {w} : w < P.numWords →
      InitMoves t words (.storeTarget w) (.storeRow t w) (s.storeTarget t w (words.target w))
        [.initializing (t + 1) t words (.storeExpected w)]
  | storeExpected {w} : w < P.numWords →
      InitMoves t words (.storeExpected w) (.storeRow t w)
        (s.storeExpected t w (words.expected w))
        [.initializing (t + 1) t words (.storeDesired w)]
  | storeDesired {w} : w < P.numWords →
      InitMoves t words (.storeDesired w) (.storeRow t w)
        (s.storeDesired t w (words.desired w))
        [.initializing (t + 1) t words
          (if w + 1 < P.numWords then .storeTarget (w + 1) else .loadStage)]
  | loadStage :
      InitMoves t words .loadStage .silent s
        [.initializing (t + 1) t words (.storeStage (s.sequenceOf P t))]
  | storeStage {n} :
      InitMoves t words (.storeStage n) (.storeStage t (P.stageWord .claiming n))
        (s.storeStage t (P.stageWord .claiming n))
        [.operating .originator (P.operation t n)
          (claimFrom P .originator (P.operation t n) 0)]

/-- What the load of `help_thread` for the marker of call `n` of thread index
`t` leads to. -/
inductive HelpEntry (t n : ℕ) : Pc → Prop where
  | retired : n < s.sequenceOf P t →
      HelpEntry t n (.returned (.error (.sequenceChangedWhileHelping
        (convertThreadIndexToThreadId t) n (s.sequenceOf P t))))
  | terminal {stage} : s.sequenceOf P t = n → s.stageOf P t = stage →
      stage = .successful ∨ stage = .reverted →
      HelpEntry t n (.returned (.error (.helpeeStageIsAlreadyTerminal
        (convertThreadIndexToThreadId t) stage)))
  | claiming : s.sequenceOf P t = n → s.stageOf P t = .claiming →
      HelpEntry t n (claimFrom P .helper (P.operation t n) 0)
  | setting : s.sequenceOf P t = n → s.stageOf P t = .setting → HelpEntry t n (setFrom P .helper 0)
  | reverting : s.sequenceOf P t = n → s.stageOf P t = .reverting →
      HelpEntry t n (revertAllWords P .changeToReverted)

/-- The moves of one activation. -/
inductive Moves : Frame P.numWords → Event → Shared → List (Frame P.numWords) → Prop where
  | init {t words pc event after frames} : InitMoves P s t words pc event after frames →
      Moves (.initializing (t + 1) t words pc) event after frames
  | help {t n pc} : t < P.numThreads → n < 2 ^ P.markerSequenceBits → HelpEntry P s t n pc →
      Moves (.helpThread (P.marker t n)) .silent s [.operating .helper (P.operation t n) pc]
  | operate {role t n pc event after frames} :
      OperationMoves P s role t n pc event after frames →
      Moves (.operating role (P.operation t n) pc) event after frames

end

end KCas
