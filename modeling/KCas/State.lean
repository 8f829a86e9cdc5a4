import Mathlib.Logic.Function.Basic
import KCas.Types

/-! The shared `State` of `kcas/mod.rs`, the words of one call, and the target
cells. Arrays are functions of their index; the code that indexes them checks
the bounds itself, because an index out of range is a panic there. -/
namespace KCas

/-- The bytes of the fields of a `State<NUM_THREADS, NUM_WORDS>`: one counter,
the slots, the three rows of words of every thread and its stage word. -/
def stateBytes (usizeBytes numThreads numWords : ℕ) : ℕ :=
  usizeBytes + numThreads + 3 * (numThreads * numWords * usizeBytes) + numThreads * usizeBytes

/-- A platform and the two const parameters, for which a `State` exists at all:
Rust promises a `usize` of at least 16 bits, and the compiler rejects a type
larger than `isize::MAX` bytes. Nothing else is assumed of them. -/
structure Params where
  usizeBytes : ℕ
  numThreads : ℕ
  numWords : ℕ
  two_le_usizeBytes : 2 ≤ usizeBytes
  state_fits : stateBytes usizeBytes numThreads numWords < 2 ^ (8 * usizeBytes - 1)

namespace Params

variable (P : Params)

/-- `usize::BITS`. -/
def usizeBits : ℕ := 8 * P.usizeBytes

/-- The bits a marker spends on the thread id. -/
def threadBits : ℕ := getBitLengthOfNumThreads P.usizeBits P.numThreads

/-- The marker an operation writes into the cells it claims. -/
def marker (threadIndex sequence : ℕ) : ℕ :=
  constructThreadAndSequence P.usizeBits P.numThreads (convertThreadIndexToThreadId threadIndex)
    sequence

/-- The word a row's stage and sequence are stored in. -/
def stageWord (stage : Stage) (sequence : ℕ) : ℕ :=
  constructStageAndSequence P.usizeBits stage sequence

/-- The pattern `claim` recomputes for the top bits of a kernel pointer. -/
def topBitsIfValueIsKernelPointer : ℕ :=
  usizeMax P.usizeBits >>> (P.usizeBits - P.threadBits)

/-- The reserved top bits of the value are all 0s or all 1s. -/
def Legal (value : ℕ) : Prop :=
  extractThreadFromThreadAndSequence P.usizeBits P.numThreads value = 0 ∨
    extractThreadFromThreadAndSequence P.usizeBits P.numThreads value =
      P.topBitsIfValueIsKernelPointer

instance (value : ℕ) : Decidable (P.Legal value) :=
  inferInstanceAs (Decidable (_ ∨ _))

end Params

/-- One word of a call. The reference of the source is a pointer that is not
null. -/
structure KCasWord where
  targetAddress : ℕ
  expectedValue : ℕ
  desiredValue : ℕ
  nonNull : targetAddress ≠ 0

/-- `[KCasWord; NUM_WORDS]`. -/
abbrev KCasWords (numWords : ℕ) := Fin numWords → KCasWord

namespace KCasWords

variable {numWords : ℕ} (words : KCasWords numWords)

def target (wordNum : ℕ) : ℕ :=
  if h : wordNum < numWords then (words ⟨wordNum, h⟩).targetAddress else 0

def expected (wordNum : ℕ) : ℕ :=
  if h : wordNum < numWords then (words ⟨wordNum, h⟩).expectedValue else 0

def desired (wordNum : ℕ) : ℕ :=
  if h : wordNum < numWords then (words ⟨wordNum, h⟩).desiredValue else 0

theorem target_ne_zero {wordNum : ℕ} (within : wordNum < numWords) :
    words.target wordNum ≠ 0 := by
  simp [target, within, (words ⟨wordNum, within⟩).nonNull]

end KCasWords

/-- `State<NUM_THREADS, NUM_WORDS>`. -/
structure State where
  numThreadsInUse : ℕ
  threadIndexSlots : ℕ → Bool
  targetAddresses : ℕ → ℕ → ℕ
  expectedValues : ℕ → ℕ → ℕ
  desiredValues : ℕ → ℕ → ℕ
  stageAndSequenceNumbers : ℕ → ℕ

/-- `State::new()`. -/
def State.new : State where
  numThreadsInUse := 0
  threadIndexSlots := fun _ => false
  targetAddresses := fun _ _ => 0
  expectedValues := fun _ _ => 0
  desiredValues := fun _ _ => 0
  stageAndSequenceNumbers := fun _ => 0

/-- Everything the threads share: the cells that can be targets, and `State`. -/
structure Shared where
  cells : ℕ → ℕ
  state : State

namespace Shared

variable (s : Shared)

def setCell (address value : ℕ) : Shared :=
  { s with cells := Function.update s.cells address value }

def storeTarget (t wordNum address : ℕ) : Shared :=
  { s with
    state :=
      { s.state with
        targetAddresses := Function.update s.state.targetAddresses t
          (Function.update (s.state.targetAddresses t) wordNum address) } }

def storeExpected (t wordNum value : ℕ) : Shared :=
  { s with
    state :=
      { s.state with
        expectedValues := Function.update s.state.expectedValues t
          (Function.update (s.state.expectedValues t) wordNum value) } }

def storeDesired (t wordNum value : ℕ) : Shared :=
  { s with
    state :=
      { s.state with
        desiredValues := Function.update s.state.desiredValues t
          (Function.update (s.state.desiredValues t) wordNum value) } }

def storeStage (t word : ℕ) : Shared :=
  { s with
    state :=
      { s.state with
        stageAndSequenceNumbers := Function.update s.state.stageAndSequenceNumbers t word } }

theorem setCell_self {address value : ℕ} : (s.setCell address value).cells address = value := by
  simp [setCell]

theorem setCell_of_ne {address other value : ℕ} (ne : other ≠ address) :
    (s.setCell address value).cells other = s.cells other := by
  simp [setCell, ne]

/-- `compare_exchange` on a target cell: `Ok(previous)` when it swapped,
`Err(actual)` when it did not. -/
def exchangeCell (address expected new : ℕ) : Except ℕ ℕ × Shared :=
  if s.cells address = expected then (.ok expected, s.setCell address new)
  else (.error (s.cells address), s)

/-- `compare_exchange_weak`: it may also fail although the comparison would
succeed, and then reports the value it found all the same. -/
def exchangeCellWeak (spurious : Bool) (address expected new : ℕ) :
    Except ℕ ℕ × Shared :=
  if spurious then (.error (s.cells address), s) else s.exchangeCell address expected new

/-- `compare_exchange` on a stage word. -/
def exchangeStage (t current desired : ℕ) :
    Except ℕ ℕ × Shared :=
  if s.state.stageAndSequenceNumbers t = current then (.ok current, s.storeStage t desired)
  else (.error (s.state.stageAndSequenceNumbers t), s)

end Shared

end KCas
