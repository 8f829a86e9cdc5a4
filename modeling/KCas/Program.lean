import Mathlib.Control.Monad.Basic
import KCas.State

/-! The code of `claim.rs`, `set.rs`, `revert.rs`, `stage_change.rs` and of
`kcas/mod.rs`, cut at its atomic accesses. A `Pc` is a position just before one
access to shared memory, with the locals that are live there; the functions of
the source that only decide how to go on become functions that return the next
position. An originator and a helper run the same loops and differ in the
functions around them, exactly as the source's pairs of functions do. -/
namespace KCas

/-! ### Errors the functions pass to each other -/

/-- `StageAndSequenceVerificationError`. -/
inductive StageAndSequenceVerificationError where
  | stageChanged (actualStage : Stage)
  | sequenceChanged (actualSequence : ℕ)
  | stageOutOfBounds (stage : ℕ)
  deriving DecidableEq, Repr

/-- `HelpError`. -/
inductive HelpError where
  | sequenceChangedWhileHelping (threadId : ℕ)
      (originalSequence actualSequence : ℕ)
  | helpeeStageIsAlreadyTerminal (threadId : ℕ) (stage : Stage)
  | fatal (error : FatalError)
  deriving DecidableEq, Repr

/-- `ClaimError`. -/
inductive ClaimError where
  | stageAndSequenceVerificationError (failedWordNum : ℕ)
      (error : StageAndSequenceVerificationError)
  | valueWasNotExpectedValue (wordNum targetAddress actualValue : ℕ)
  | targetAddressWasNotValidPointer (wordNum targetAddress : ℕ)
  | fatalErrorWhileHelping (error : FatalError)
  | topBitsOfValueWereIllegal (wordNum targetAddress value : ℕ)
      (numReservedBits : ℕ)
  deriving DecidableEq, Repr

/-- `SetError`. -/
inductive SetError where
  | stageAndSequenceVerificationError (failedWordNum : ℕ)
      (error : StageAndSequenceVerificationError)
  | targetAddressWasNotValidPointer (wordNum targetAddress : ℕ)
  deriving DecidableEq, Repr

/-- `RevertError`. -/
inductive RevertError where
  | targetAddressWasNotValidPointer (wordNum targetAddress : ℕ)
  deriving DecidableEq, Repr

/-! ### Positions -/

/-- Which thread runs an operation's functions: the one that called `kcas`, or
one that met the operation's marker (the `help_` functions). -/
inductive Role where
  | originator
  | helper
  deriving DecidableEq, Repr

/-- The three arguments every function below `claim_and_transition` passes on. -/
structure Operation where
  threadIndex : ℕ
  sequence : ℕ
  threadAndSequence : ℕ
  deriving DecidableEq, Repr

/-- The closures handed to `change_stage_and_transition` and its twin. -/
inductive StageNext where
  /-- `set_and_transition` or `help_set_and_transition`. -/
  | set
  /-- `revert_and_transition` or its twin, from this word downwards. -/
  | revert (startingWordNum : ℕ)
  /-- `|| Ok(())`. -/
  | ok
  deriving DecidableEq, Repr

/-- The closures handed to `revert_and_transition` and its twin. -/
inductive RevertNext where
  /-- `prepare_for_next_operation`, then this result. -/
  | prepare (result : Except Error Unit)
  /-- `|| Err(Error::Fatal(..))`. -/
  | fail (error : FatalError)
  /-- `help_change_stage_and_transition` from Reverting to Reverted. -/
  | changeToReverted
  /-- A helper's `|| Ok(())` or `|| Err(..)`. -/
  | helpReturn (result : Except HelpError Unit)

/-- Positions of `initialize_operation`. -/
inductive InitPc where
  | storeTarget (wordNum : ℕ)
  | storeExpected (wordNum : ℕ)
  | storeDesired (wordNum : ℕ)
  | loadStage
  | storeStage (sequence : ℕ)

/-- Positions inside an operation, each just before one atomic access (or, at
`claimHelp`, inside a call of `help_thread`; the last three are the ends). -/
inductive Pc where
  | claimLoadTarget (wordNum : ℕ)
  | claimLoadExpected (wordNum target : ℕ)
  | claimExchange (wordNum target expected : ℕ)
  | claimVerify (wordNum target expected actual : ℕ)
  | claimHelp (wordNum target expected : ℕ)
  | changeStage (current desired : Stage) (next : StageNext)
  | setLoadTarget (wordNum : ℕ)
  | setLoadDesired (wordNum target : ℕ)
  | setExchange (wordNum target desired : ℕ)
  | setVerify (wordNum : ℕ)
  | revertLoadTarget (wordNum : ℕ) (next : RevertNext)
  | revertLoadExpected (wordNum target : ℕ) (next : RevertNext)
  | revertExchange (wordNum target expected : ℕ) (next : RevertNext)
  | prepare (result : Except Error Unit)
  | finished (result : Except Error Unit)
  | returned (result : Except HelpError Unit)
  | panicked

/-- One activation on a thread's call stack. -/
inductive Frame (numWords : ℕ) where
  /-- `kcas`, inside `initialize_operation`. -/
  | initializing (threadId threadIndex : ℕ) (words : KCasWords numWords)
      (pc : InitPc)
  /-- `help_thread`, before its load of the stage word. -/
  | helpThread (threadAndSequence : ℕ)
  /-- `claim_and_transition` and what it calls, or `help_thread` after its load. -/
  | operating (role : Role) (op : Operation) (pc : Pc)

/-- The loop of an exchange on a target cell. -/
inductive Pass where
  | claim
  | set
  | revert
  deriving DecidableEq, Repr

/-- What one step does, as far as anyone else can tell. -/
inductive Event where
  | invoked
  | silent
  | storeRow (threadIndex wordNum : ℕ)
  | storeStage (threadIndex word : ℕ)
  | exchangeStage (role : Role) (op : Operation) (current desired : Stage) (next : StageNext)
      (result : Except ℕ ℕ)
  | exchangeCell (pass : Pass) (op : Operation) (wordNum target : ℕ)
      (expected new : ℕ) (result : Except ℕ ℕ)
  | responded (result : Except Error Unit)
  deriving DecidableEq

/-! ### How a function goes on after an access -/

section Control

variable (P : Params)

/-- The tail of an originator's or a helper's function that ends in an error. -/
def failWith (role : Role) (error : FatalError) : Pc :=
  match role with
  | .originator => .finished (.error (.fatal error))
  | .helper => .returned (.error (.fatal error))

/-- `revert` from word `NUM_WORDS - 1` downwards, and then the closure. -/
def revertAllWords (next : RevertNext) : Pc :=
  if P.numWords = 0 then .panicked else .revertLoadTarget (P.numWords - 1) next

/-- What `set_and_transition` and its twin do when `set` returned `Ok(())`. -/
def afterSetOk (role : Role) : Pc :=
  match role with
  | .originator => .prepare (.ok ())
  | .helper => .changeStage .setting .successful .ok

/-- The head of the loop of `set`. -/
def setFrom (role : Role) (wordNum : ℕ) : Pc :=
  if wordNum < P.numWords then .setLoadTarget wordNum else afterSetOk role

def handleConcurrentStageChangeAndTransition (currentStage actualStage : Stage) : Pc :=
  match actualStage with
  | .inactive | .claiming =>
    .finished (.error (.fatal (.illegalStageChange currentStage actualStage)))
  | .setting => setFrom P .originator 0
  | .reverting | .reverted => revertAllWords P (.prepare (.error .valueWasNotExpectedValue))
  | .successful => revertAllWords P (.prepare (.ok ()))

def helpHandleConcurrentStageChangeAndTransition (currentStage actualStage : Stage) : Pc :=
  match actualStage with
  | .inactive | .claiming =>
    .returned (.error (.fatal (.illegalStageChange currentStage actualStage)))
  | .setting => setFrom P .helper 0
  | .reverting => revertAllWords P .changeToReverted
  | .reverted | .successful => revertAllWords P (.helpReturn (.ok ()))

def handleConcurrentStageAndSequenceVerificationErrorAndTransition (op : Operation)
    (currentStage : Stage) : StageAndSequenceVerificationError → Pc
  | .stageChanged actualStage =>
    handleConcurrentStageChangeAndTransition P currentStage actualStage
  | .sequenceChanged _ =>
    .finished (.error (.fatal (.sequenceNumChangedByNonOriginatingThread
      (convertThreadIndexToThreadId op.threadIndex))))
  | .stageOutOfBounds actualStageNumber =>
    .finished (.error (.fatal (.stageOutOfBounds actualStageNumber)))

def helpHandleConcurrentStageAndSequenceVerificationErrorAndTransition (op : Operation)
    (currentStage : Stage) : StageAndSequenceVerificationError → Pc
  | .stageChanged actualStage =>
    helpHandleConcurrentStageChangeAndTransition P currentStage actualStage
  | .sequenceChanged actualSequence =>
    revertAllWords P (.helpReturn (.error (.sequenceChangedWhileHelping
      (convertThreadIndexToThreadId op.threadIndex) op.sequence actualSequence)))
  | .stageOutOfBounds actualStageNumber =>
    .returned (.error (.fatal (.stageOutOfBounds actualStageNumber)))

/-- `set_and_transition`, after `set` returned. -/
def setAndTransition (op : Operation) : Except SetError Unit → Pc
  | .ok () => afterSetOk .originator
  | .error (.stageAndSequenceVerificationError _ error) =>
    handleConcurrentStageAndSequenceVerificationErrorAndTransition P op .setting error
  | .error (.targetAddressWasNotValidPointer wordNum targetAddress) =>
    .finished (.error (.fatal (.targetAddressWasNotValidPointer wordNum targetAddress)))

/-- `help_set_and_transition`, after `set` returned. -/
def helpSetAndTransition (op : Operation) : Except SetError Unit → Pc
  | .ok () => afterSetOk .helper
  | .error (.stageAndSequenceVerificationError _ error) =>
    helpHandleConcurrentStageAndSequenceVerificationErrorAndTransition P op .setting error
  | .error (.targetAddressWasNotValidPointer wordNum targetAddress) =>
    .returned (.error (.fatal (.targetAddressWasNotValidPointer wordNum targetAddress)))

def afterSet (role : Role) (op : Operation) (result : Except SetError Unit) : Pc :=
  match role with
  | .originator => setAndTransition P op result
  | .helper => helpSetAndTransition P op result

/-- `claim_and_transition`, after `claim` returned. -/
def claimAndTransition (op : Operation) : Except ClaimError Unit → Pc
  | .ok () => .changeStage .claiming .setting .set
  | .error (.stageAndSequenceVerificationError _ error) =>
    handleConcurrentStageAndSequenceVerificationErrorAndTransition P op .claiming error
  | .error (.valueWasNotExpectedValue wordNum _ _) =>
    .changeStage .claiming .reverting (.revert wordNum)
  | .error (.targetAddressWasNotValidPointer wordNum targetAddress) =>
    .finished (.error (.fatal (.targetAddressWasNotValidPointer wordNum targetAddress)))
  | .error (.fatalErrorWhileHelping fatalError) => .finished (.error (.fatal fatalError))
  | .error (.topBitsOfValueWereIllegal wordNum targetAddress value numReservedBits) =>
    .finished (.error (.fatal
      (.topBitsOfValueWereIllegal wordNum targetAddress value numReservedBits)))

/-- `help_claim_and_transition`, after `claim` returned. -/
def helpClaimAndTransition (op : Operation) : Except ClaimError Unit → Pc
  | .ok () => .changeStage .claiming .setting .set
  | .error (.stageAndSequenceVerificationError _ error) =>
    helpHandleConcurrentStageAndSequenceVerificationErrorAndTransition P op .claiming error
  | .error (.valueWasNotExpectedValue wordNum _ _) =>
    .changeStage .claiming .reverting (.revert wordNum)
  | .error (.targetAddressWasNotValidPointer wordNum targetAddress) =>
    .returned (.error (.fatal (.targetAddressWasNotValidPointer wordNum targetAddress)))
  | .error (.fatalErrorWhileHelping fatalError) => .returned (.error (.fatal fatalError))
  | .error (.topBitsOfValueWereIllegal wordNum targetAddress value numReservedBits) =>
    .returned (.error (.fatal
      (.topBitsOfValueWereIllegal wordNum targetAddress value numReservedBits)))

def afterClaim (role : Role) (op : Operation) (result : Except ClaimError Unit) : Pc :=
  match role with
  | .originator => claimAndTransition P op result
  | .helper => helpClaimAndTransition P op result

/-- The head of the loop of `claim`. -/
def claimFrom (role : Role) (op : Operation) (wordNum : ℕ) : Pc :=
  if wordNum < P.numWords then .claimLoadTarget wordNum else afterClaim P role op (.ok ())

/-- `revert_and_transition`, after `revert` returned `Ok(())`: the closure. -/
def afterRevertOk : RevertNext → Pc
  | .prepare result => .prepare result
  | .fail error => .finished (.error (.fatal error))
  | .changeToReverted => .changeStage .reverting .reverted .ok
  | .helpReturn result => .returned result

/-- `revert_and_transition` or its twin, after `revert` returned. -/
def revertAndTransition (role : Role) (next : RevertNext) : Except RevertError Unit → Pc
  | .ok () => afterRevertOk next
  | .error (.targetAddressWasNotValidPointer wordNum targetAddress) =>
    failWith role (.targetAddressWasNotValidPointer wordNum targetAddress)

/-- The word after `wordNum` in the downward loop of `revert`. -/
def revertBelow (role : Role) (next : RevertNext) : ℕ → Pc
  | 0 => revertAndTransition role next (.ok ())
  | wordNum + 1 => .revertLoadTarget wordNum next

/-- The closure of `change_stage_and_transition` or its twin, run when the
exchange on the stage word succeeded. -/
def afterStageChanged (role : Role) : StageNext → Pc
  | .set => setFrom P role 0
  | .revert startingWordNum =>
    match role with
    | .originator => .revertLoadTarget startingWordNum (.prepare (.error .valueWasNotExpectedValue))
    | .helper => .revertLoadTarget startingWordNum .changeToReverted
  | .ok => .returned (.ok ())

/-- `change_stage_and_transition`, after its exchange found `actual`. -/
def changeStageAndTransition (op : Operation) (currentStage : Stage) (actual : ℕ) : Pc :=
  match extractStageFromStageAndSequence P.usizeBits actual with
  | .error error => .finished (.error (.fatal (.stageOutOfBounds error.stage)))
  | .ok actualStage =>
    if extractSequenceFromStageAndSequence P.usizeBits actual ≠ op.sequence then
      revertAllWords P (.fail (.sequenceNumChangedByNonOriginatingThread
        (convertThreadIndexToThreadId op.threadIndex)))
    else handleConcurrentStageChangeAndTransition P currentStage actualStage

/-- `help_change_stage_and_transition`, after its exchange found `actual`. -/
def helpChangeStageAndTransition (op : Operation) (currentStage : Stage) (actual : ℕ) : Pc :=
  match extractStageFromStageAndSequence P.usizeBits actual with
  | .error error => .returned (.error (.fatal (.stageOutOfBounds error.stage)))
  | .ok actualStage =>
    let actualSequence := extractSequenceFromStageAndSequence P.usizeBits actual
    if actualSequence ≠ op.sequence then
      revertAllWords P (.helpReturn (.error (.sequenceChangedWhileHelping
        (convertThreadIndexToThreadId op.threadIndex) op.sequence actualSequence)))
    else helpHandleConcurrentStageChangeAndTransition P currentStage actualStage

def afterStageNotChanged (role : Role) (op : Operation) (currentStage : Stage)
    (actual : ℕ) : Pc :=
  match role with
  | .originator => changeStageAndTransition P op currentStage actual
  | .helper => helpChangeStageAndTransition P op currentStage actual

/-- `verify_stage_and_sequence_have_not_changed`, on the word it loaded. -/
def verifyStageAndSequenceHaveNotChanged (actual : ℕ) (expectedStage : Stage)
    (expectedSequence : ℕ) : Except StageAndSequenceVerificationError Unit :=
  let actualSequence := extractSequenceFromStageAndSequence P.usizeBits actual
  match extractStageFromStageAndSequence P.usizeBits actual with
  | .error error => .error (.stageOutOfBounds error.stage)
  | .ok actualStage =>
    if actualSequence ≠ expectedSequence then .error (.sequenceChanged actualSequence)
    else if actualStage ≠ expectedStage then .error (.stageChanged actualStage)
    else .ok ()

/-- The part of `'cas_loop` of `claim` after `help_thread` returned. -/
def afterHelp (role : Role) (op : Operation) (wordNum target : ℕ)
    (expected : ℕ) : Except HelpError Unit → Pc
  | .ok () => .claimExchange wordNum target expected
  | .error (.sequenceChangedWhileHelping ..) => .claimExchange wordNum target expected
  | .error (.helpeeStageIsAlreadyTerminal ..) => .claimExchange wordNum target expected
  | .error (.fatal fatalError) => afterClaim P role op (.error (.fatalErrorWhileHelping fatalError))

/-- The part of `help_thread` after its load found `stageAndSequence`. -/
def helpThreadAt (op : Operation) (stageAndSequence : ℕ) : Pc :=
  let threadId := convertThreadIndexToThreadId op.threadIndex
  match extractStageFromStageAndSequence P.usizeBits stageAndSequence with
  | .error error => .returned (.error (.fatal (.stageOutOfBounds error.stage)))
  | .ok stage =>
    let sequence := extractSequenceFromStageAndSequence P.usizeBits stageAndSequence
    if sequence ≠ op.sequence then
      .returned (.error (.sequenceChangedWhileHelping threadId op.sequence sequence))
    else
      match stage with
      | .inactive => .returned (.error (.fatal (.illegalHelpeeStage .inactive)))
      | .claiming => claimFrom P .helper op 0
      | .setting => setFrom P .helper 0
      | .reverting => revertAllWords P .changeToReverted
      | .successful | .reverted =>
        .returned (.error (.helpeeStageIsAlreadyTerminal threadId stage))

end Control

/-! ### The accesses -/

/-- What a step of the running activation does: the event, the shared memory
after it, and the activations that replace it, the innermost first. -/
structure Outcome (numWords : ℕ) where
  event : Event
  shared : Shared
  frames : List (Frame numWords)

section Accesses

variable (P : Params) (s : Shared)

/-- `prepare_for_next_operation`: the stage word it stores, or `none` where the
remainder by a zero mask panics. -/
def prepareForNextOperation (sequence : ℕ) : Option ℕ :=
  let mask := getSequenceMaskForThreadAndSequence P.usizeBits P.numThreads
  if mask = 0 then none
  else
    let nextSequence := (sequence + 1 % mask) % 2 ^ P.usizeBits
    some (constructStageAndSequence P.usizeBits .inactive nextSequence)

/-- One access of `initialize_operation`. -/
def initializeOperation (threadId threadIndex : ℕ)
    (words : KCasWords P.numWords) : InitPc → Outcome P.numWords
  | .storeTarget wordNum =>
    if threadIndex < P.numThreads ∧ wordNum < P.numWords then
      ⟨.storeRow threadIndex wordNum, s.storeTarget threadIndex wordNum (words.target wordNum),
        [.initializing threadId threadIndex words (.storeExpected wordNum)]⟩
    else ⟨.silent, s, [.operating .originator ⟨threadIndex, 0, 0⟩ .panicked]⟩
  | .storeExpected wordNum =>
    if threadIndex < P.numThreads ∧ wordNum < P.numWords then
      ⟨.storeRow threadIndex wordNum, s.storeExpected threadIndex wordNum (words.expected wordNum),
        [.initializing threadId threadIndex words (.storeDesired wordNum)]⟩
    else ⟨.silent, s, [.operating .originator ⟨threadIndex, 0, 0⟩ .panicked]⟩
  | .storeDesired wordNum =>
    if threadIndex < P.numThreads ∧ wordNum < P.numWords then
      ⟨.storeRow threadIndex wordNum, s.storeDesired threadIndex wordNum (words.desired wordNum),
        [.initializing threadId threadIndex words
          (if wordNum + 1 < P.numWords then .storeTarget (wordNum + 1) else .loadStage)]⟩
    else ⟨.silent, s, [.operating .originator ⟨threadIndex, 0, 0⟩ .panicked]⟩
  | .loadStage =>
    if threadIndex < P.numThreads then
      let sequence := extractSequenceFromStageAndSequence P.usizeBits
        (s.state.stageAndSequenceNumbers threadIndex)
      ⟨.silent, s, [.initializing threadId threadIndex words (.storeStage sequence)]⟩
    else ⟨.silent, s, [.operating .originator ⟨threadIndex, 0, 0⟩ .panicked]⟩
  | .storeStage sequence =>
    let word := constructStageAndSequence P.usizeBits .claiming sequence
    let threadAndSequence := constructThreadAndSequence P.usizeBits P.numThreads threadId sequence
    let op : Operation := ⟨threadIndex, sequence, threadAndSequence⟩
    ⟨.storeStage threadIndex word, s.storeStage threadIndex word,
      [.operating .originator op (claimFrom P .originator op 0)]⟩

/-- The load of `help_thread`. -/
def helpThread (encountered : ℕ) : Outcome P.numWords :=
  let threadId := extractThreadFromThreadAndSequence P.usizeBits P.numThreads encountered
  let sequence := extractSequenceFromThreadAndSequence P.usizeBits P.numThreads encountered
  match convertThreadIdToThreadIndex threadId with
  | none => ⟨.silent, s, [.operating .helper ⟨0, sequence, encountered⟩ .panicked]⟩
  | some threadIndex =>
    let op : Operation := ⟨threadIndex, sequence, encountered⟩
    if threadIndex < P.numThreads then
      ⟨.silent, s, [.operating .helper op
        (helpThreadAt P op (s.state.stageAndSequenceNumbers threadIndex))]⟩
    else ⟨.silent, s, [.operating .helper op .panicked]⟩

/-- The part of `'cas_loop` of `claim` after the verification succeeded: the
value is real, or a marker to help, or illegal. -/
def claimClassify (role : Role) (op : Operation) (wordNum target : ℕ)
    (expected actual : ℕ) : List (Frame P.numWords) :=
  let topBits := extractThreadFromThreadAndSequence P.usizeBits P.numThreads actual
  if topBits = 0 ∨ topBits = P.topBitsIfValueIsKernelPointer then
    [.operating role op
      (afterClaim P role op (.error (.valueWasNotExpectedValue wordNum target actual)))]
  else if topBits ≤ P.numThreads then
    [.helpThread actual, .operating role op (.claimHelp wordNum target expected)]
  else
    [.operating role op (afterClaim P role op
      (.error (.topBitsOfValueWereIllegal wordNum target actual P.threadBits)))]

/-- One access of an operation. `none` at the ends, and where the activation
waits for `help_thread`. -/
def operate (spurious : Bool) (role : Role) (op : Operation) : Pc → Option (Outcome P.numWords)
  | .claimLoadTarget wordNum => some <|
    if op.threadIndex < P.numThreads ∧ wordNum < P.numWords then
      let target := s.state.targetAddresses op.threadIndex wordNum
      ⟨.silent, s, [.operating role op
        (if target = 0 then
          afterClaim P role op (.error (.targetAddressWasNotValidPointer wordNum target))
        else .claimLoadExpected wordNum target)]⟩
    else ⟨.silent, s, [.operating role op .panicked]⟩
  | .claimLoadExpected wordNum target => some <|
    if op.threadIndex < P.numThreads ∧ wordNum < P.numWords then
      ⟨.silent, s, [.operating role op
        (.claimExchange wordNum target (s.state.expectedValues op.threadIndex wordNum))]⟩
    else ⟨.silent, s, [.operating role op .panicked]⟩
  | .claimExchange wordNum target expected => some <|
    let (result, after) := s.exchangeCellWeak spurious target expected op.threadAndSequence
    ⟨.exchangeCell .claim op wordNum target expected op.threadAndSequence result, after,
      [.operating role op
        (match result with
        | .ok _ => claimFrom P role op (wordNum + 1)
        | .error actual =>
          if actual = expected then .claimExchange wordNum target expected
          else if actual = op.threadAndSequence then claimFrom P role op (wordNum + 1)
          else .claimVerify wordNum target expected actual)]⟩
  | .claimVerify wordNum target expected actual => some <|
    if op.threadIndex < P.numThreads then
      match verifyStageAndSequenceHaveNotChanged P
          (s.state.stageAndSequenceNumbers op.threadIndex) .claiming op.sequence with
      | .error error => ⟨.silent, s, [.operating role op
          (afterClaim P role op (.error (.stageAndSequenceVerificationError wordNum error)))]⟩
      | .ok () => ⟨.silent, s, claimClassify P role op wordNum target expected actual⟩
    else ⟨.silent, s, [.operating role op .panicked]⟩
  | .claimHelp .. => none
  | .changeStage current desired next => some <|
    if op.threadIndex < P.numThreads then
      let (result, after) := s.exchangeStage op.threadIndex
        (constructStageAndSequence P.usizeBits current op.sequence)
        (constructStageAndSequence P.usizeBits desired op.sequence)
      ⟨.exchangeStage role op current desired next result, after,
        [.operating role op
          (match result with
          | .ok _ => afterStageChanged P role next
          | .error actual => afterStageNotChanged P role op current actual)]⟩
    else ⟨.silent, s, [.operating role op .panicked]⟩
  | .setLoadTarget wordNum => some <|
    if op.threadIndex < P.numThreads ∧ wordNum < P.numWords then
      let target := s.state.targetAddresses op.threadIndex wordNum
      ⟨.silent, s, [.operating role op
        (if target = 0 then
          afterSet P role op (.error (.targetAddressWasNotValidPointer wordNum target))
        else .setLoadDesired wordNum target)]⟩
    else ⟨.silent, s, [.operating role op .panicked]⟩
  | .setLoadDesired wordNum target => some <|
    if op.threadIndex < P.numThreads ∧ wordNum < P.numWords then
      ⟨.silent, s, [.operating role op
        (.setExchange wordNum target (s.state.desiredValues op.threadIndex wordNum))]⟩
    else ⟨.silent, s, [.operating role op .panicked]⟩
  | .setExchange wordNum target desired => some <|
    let (result, after) := s.exchangeCell target op.threadAndSequence desired
    ⟨.exchangeCell .set op wordNum target op.threadAndSequence desired result, after,
      [.operating role op
        (match result with
        | .ok _ => setFrom P role (wordNum + 1)
        | .error _ => .setVerify wordNum)]⟩
  | .setVerify wordNum => some <|
    if op.threadIndex < P.numThreads then
      match verifyStageAndSequenceHaveNotChanged P
          (s.state.stageAndSequenceNumbers op.threadIndex) .setting op.sequence with
      | .error error => ⟨.silent, s, [.operating role op
          (afterSet P role op (.error (.stageAndSequenceVerificationError wordNum error)))]⟩
      -- the source compares the value with the desired one here and goes on either way
      | .ok () => ⟨.silent, s, [.operating role op (setFrom P role (wordNum + 1))]⟩
    else ⟨.silent, s, [.operating role op .panicked]⟩
  | .revertLoadTarget wordNum next => some <|
    if op.threadIndex < P.numThreads ∧ wordNum < P.numWords then
      let target := s.state.targetAddresses op.threadIndex wordNum
      ⟨.silent, s, [.operating role op
        (if target = 0 then
          revertAndTransition role next (.error (.targetAddressWasNotValidPointer wordNum target))
        else .revertLoadExpected wordNum target next)]⟩
    else ⟨.silent, s, [.operating role op .panicked]⟩
  | .revertLoadExpected wordNum target next => some <|
    if op.threadIndex < P.numThreads ∧ wordNum < P.numWords then
      ⟨.silent, s, [.operating role op
        (.revertExchange wordNum target (s.state.expectedValues op.threadIndex wordNum) next)]⟩
    else ⟨.silent, s, [.operating role op .panicked]⟩
  | .revertExchange wordNum target expected next => some <|
    let (result, after) := s.exchangeCell target op.threadAndSequence expected
    -- whatever the exchange found, the loop goes on to the next word
    ⟨.exchangeCell .revert op wordNum target op.threadAndSequence expected result, after,
      [.operating role op (revertBelow role next wordNum)]⟩
  | .prepare result => some <|
    match prepareForNextOperation P op.sequence with
    | none => ⟨.silent, s, [.operating role op .panicked]⟩
    | some word =>
      if op.threadIndex < P.numThreads then
        ⟨.storeStage op.threadIndex word, s.storeStage op.threadIndex word,
          [.operating role op (.finished result)]⟩
      else ⟨.silent, s, [.operating role op .panicked]⟩
  | .finished _ => none
  | .returned _ => none
  | .panicked => none

/-- One access of the running activation. -/
def frameStep (spurious : Bool) : Frame P.numWords → Option (Outcome P.numWords)
  | .initializing threadId threadIndex words pc =>
    some (initializeOperation P s threadId threadIndex words pc)
  | .helpThread threadAndSequence => some (helpThread P s threadAndSequence)
  | .operating role op pc => operate P s spurious role op pc

/-- One step of a thread inside `kcas`, given its call stack with the running
activation first: the return of `help_thread` to `claim`, the return of `kcas`,
or an access of the running activation. -/
def stackStep (spurious : Bool) : List (Frame P.numWords) → Option (Outcome P.numWords)
  | [] => none
  | .operating .helper _ (.returned result) ::
      .operating role op (.claimHelp wordNum target expected) :: rest =>
    some ⟨.silent, s,
      .operating role op (afterHelp P role op wordNum target expected result) :: rest⟩
  | [.operating .originator _ (.finished result)] => some ⟨.responded result, s, []⟩
  | frame :: rest =>
    (frameStep P s spurious frame).map fun outcome =>
      { outcome with frames := outcome.frames ++ rest }

end Accesses

/-- `kcas` up to its first access: the activation a call begins with. -/
def kcas (P : Params) (threadId : ℕ) (words : KCasWords P.numWords) :
    Frame P.numWords :=
  match convertThreadIdToThreadIndex threadId with
  | none => .operating .originator ⟨0, 0, 0⟩ .panicked
  | some threadIndex =>
    .initializing threadId threadIndex words
      (if 0 < P.numWords then .storeTarget 0 else .loadStage)

end KCas
