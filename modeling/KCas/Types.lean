import Mathlib.Algebra.Group.Nat.Defs
import Mathlib.Data.Nat.Size

/-! The packed words of `types.rs` and the errors of `err.rs`. Every `usize` of
the source, and each of its names there (`WordNum`, `SequenceNum`, `ThreadId`,
`ThreadIndex`, `StageAndSequence`, `ThreadAndSequence`), is a natural number.
The word length is a parameter, and every operation that can leave the word is
reduced explicitly, so that nothing here depends on the target platform. -/
namespace KCas

/-- `usize << usize`: what leaves the word is dropped. -/
def shiftLeft (usizeBits value amount : ℕ) : ℕ :=
  (value <<< amount) % 2 ^ usizeBits

/-- `!usize`. -/
def complement (usizeBits value : ℕ) : ℕ := 2 ^ usizeBits - 1 - value

/-- `usize::MAX`. -/
def usizeMax (usizeBits : ℕ) : ℕ := 2 ^ usizeBits - 1

/-- `thread_id - 1`; `none` is the subtraction that underflows. -/
def convertThreadIdToThreadIndex (threadId : ℕ) : Option ℕ :=
  if threadId = 0 then none else some (threadId - 1)

def convertThreadIndexToThreadId (threadIndex : ℕ) : ℕ := threadIndex + 1

/-- The stage of a KCAS operation, published in shared state by the thread
that started it. -/
inductive Stage where
  | inactive
  | claiming
  | setting
  | reverting
  | successful
  | reverted
  deriving DecidableEq, Repr

/-- `stage as usize`. -/
def Stage.toUsize : Stage → ℕ
  | .inactive => 0
  | .claiming => 1
  | .setting => 2
  | .reverting => 3
  | .successful => 4
  | .reverted => 5

/-- `StageOutOfBoundsError`: the number that names no stage. -/
structure StageOutOfBoundsError where
  stage : ℕ
  deriving DecidableEq, Repr

/-- `Stage::try_from`. -/
def Stage.tryFrom : ℕ → Except StageOutOfBoundsError Stage
  | 0 => .ok .inactive
  | 1 => .ok .claiming
  | 2 => .ok .setting
  | 3 => .ok .reverting
  | 4 => .ok .successful
  | 5 => .ok .reverted
  | number => .error ⟨number⟩

/-- `FatalError`, every variant with all of its fields. -/
inductive FatalError where
  | stageOutOfBounds (stage : ℕ)
  | illegalStageChange (originalStage actualStage : Stage)
  | illegalHelpeeStage (stage : Stage)
  | targetAddressWasNotValidPointer (wordNum targetAddress : ℕ)
  | sequenceNumChangedByNonOriginatingThread (originatingThreadId : ℕ)
  | triedToSetValueWhichWasNotClaimMarker (wordNum targetAddress actualValue : ℕ)
  | topBitsOfValueWereIllegal (wordNum targetAddress value : ℕ)
      (numReservedBits : ℕ)
  | sharedStateWasNotValidPointer
  deriving DecidableEq, Repr

/-- `Error`: what a kcas call reports to its caller. -/
inductive Error where
  | fatal (error : FatalError)
  | valueWasNotExpectedValue
  deriving DecidableEq, Repr

/-- `STAGE_BIT_LENGTH`. -/
def stageBitLength : ℕ := 3

/-- `SEQUENCE_MASK_FOR_STAGE_AND_SEQUENCE`. -/
def sequenceMaskForStageAndSequence (usizeBits : ℕ) : ℕ :=
  complement usizeBits (shiftLeft usizeBits 0b111 (usizeBits - stageBitLength))

def constructStageAndSequence (usizeBits : ℕ) (stage : Stage) (sequence : ℕ) :
    ℕ :=
  shiftLeft usizeBits stage.toUsize (usizeBits - stageBitLength) ||| sequence

def extractStageFromStageAndSequence (usizeBits stageAndSequence : ℕ) :
    Except StageOutOfBoundsError Stage :=
  Stage.tryFrom (stageAndSequence >>> (usizeBits - stageBitLength))

def extractSequenceFromStageAndSequence (usizeBits stageAndSequence : ℕ) :
    ℕ :=
  stageAndSequence &&& sequenceMaskForStageAndSequence usizeBits

/-- The `while` loop of `get_bit_length_of_num_threads`. The first argument is
`usize::BITS - i`, so its zero case is the loop's first test. -/
def bitLengthFrom (number : ℕ) : (remaining : ℕ) → (i : ℕ) → ℕ
  | 0, i => i
  | remaining + 1, i =>
    if number >>> i ≠ 0 then bitLengthFrom number remaining (i + 1) else i

def getBitLengthOfNumThreads (usizeBits numThreads : ℕ) : ℕ :=
  bitLengthFrom (numThreads + 1) usizeBits 0

def getSequenceMaskForThreadAndSequence (usizeBits numThreads : ℕ) : ℕ :=
  complement usizeBits
    (shiftLeft usizeBits (usizeMax usizeBits)
      (usizeBits - getBitLengthOfNumThreads usizeBits numThreads))

def constructThreadAndSequence (usizeBits numThreads threadId : ℕ)
    (sequence : ℕ) : ℕ :=
  shiftLeft usizeBits threadId (usizeBits - getBitLengthOfNumThreads usizeBits numThreads)
    ||| sequence

def extractThreadFromThreadAndSequence (usizeBits numThreads : ℕ)
    (threadAndSequence : ℕ) : ℕ :=
  threadAndSequence >>> (usizeBits - getBitLengthOfNumThreads usizeBits numThreads)

def extractSequenceFromThreadAndSequence (usizeBits numThreads : ℕ)
    (threadAndSequence : ℕ) : ℕ :=
  threadAndSequence &&& getSequenceMaskForThreadAndSequence usizeBits numThreads

/-- Whether a value is a marker of one of the `NUM_THREADS` threads. -/
def isValueAKcasMarker (usizeBits numThreads value : ℕ) : Bool :=
  let topBits := extractThreadFromThreadAndSequence usizeBits numThreads value
  decide (topBits > 0) && decide (topBits ≤ numThreads)

end KCas
