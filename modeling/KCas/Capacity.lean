import Mathlib.Order.Bounds.Defs
import KCas.Encoding

/-! What a marker looks like, for every word length and every number of threads:
the thread ids and sequences are exactly what the encoding keeps, and markers,
real values and illegal values share the words among them. The rule of the crate
docs for the largest number of threads admits two that are too large. -/
namespace KCas

variable {usizeBits numThreads r b threadId sequence value : ℕ}

/-- What `claim` takes a word for that is neither the expected value nor its own
marker. -/
inductive Reading where
  | real
  | marker
  | illegal
  deriving DecidableEq

/-- The three-way test of `claim`. -/
def readingOf (usizeBits numThreads value : ℕ) : Reading :=
  let numSequenceBits := usizeBits - getBitLengthOfNumThreads usizeBits numThreads
  let topBitsIfValueIsKernelPointer := usizeMax usizeBits >>> numSequenceBits
  let topBits := extractThreadFromThreadAndSequence usizeBits numThreads value
  if topBits = 0 ∨ topBits = topBitsIfValueIsKernelPointer then .real
  else if topBits ≤ numThreads then .marker
  else .illegal

/-- `claim` goes on as the three-way test says. -/
theorem claimClassify_eq (P : Params) (role : Role) (op : Operation)
    (wordNum target expected actual : ℕ) :
    claimClassify P role op wordNum target expected actual =
      match readingOf P.usizeBits P.numThreads actual with
      | .real => [.operating role op
          (afterClaim P role op (.error (.valueWasNotExpectedValue wordNum target actual)))]
      | .marker => [.helpThread actual, .operating role op (.claimHelp wordNum target expected)]
      | .illegal => [.operating role op
          (afterClaim P role op
            (.error (.topBitsOfValueWereIllegal wordNum target actual P.threadBits)))] := by
  by_cases real : extractThreadFromThreadAndSequence P.usizeBits P.numThreads actual = 0 ∨
      extractThreadFromThreadAndSequence P.usizeBits P.numThreads actual =
        P.topBitsIfValueIsKernelPointer
  · have reading : readingOf P.usizeBits P.numThreads actual = .real := if_pos real
    simp only [claimClassify, real, ↓reduceIte, reading]
  · by_cases small : extractThreadFromThreadAndSequence P.usizeBits P.numThreads actual ≤
        P.numThreads
    · have reading : readingOf P.usizeBits P.numThreads actual = .marker :=
        (if_neg real).trans (if_pos small)
      simp only [claimClassify, real, small, ↓reduceIte, reading]
    · have reading : readingOf P.usizeBits P.numThreads actual = .illegal :=
        (if_neg real).trans (if_neg small)
      simp only [claimClassify, real, small, ↓reduceIte, reading]

/-- The top `r` bits of the value are all 0s or all 1s. -/
def UniformTopBits (usizeBits r value : ℕ) : Prop :=
  value >>> (usizeBits - r) = 0 ∨ value >>> (usizeBits - r) = 2 ^ r - 1

instance : Decidable (UniformTopBits usizeBits r value) := inferInstanceAs (Decidable (_ ∨ _))

theorem readingOf_eq_real : readingOf usizeBits numThreads value = .real ↔
    UniformTopBits usizeBits (getBitLengthOfNumThreads usizeBits numThreads) value := by
  simp only [readingOf, kernelPointerBits_eq, UniformTopBits, extractThreadFromThreadAndSequence]
  split
  · rename_i real
    exact ⟨fun _ => real, fun _ => rfl⟩
  · rename_i other
    refine ⟨fun same => ?_, fun uniform => absurd uniform other⟩
    by_cases small : value >>> (usizeBits - getBitLengthOfNumThreads usizeBits numThreads) ≤
        numThreads <;> simp [small] at same

/-! ### The bit length -/

/-- The loop finds the least length that leaves the all-ones pattern free, if the
word has that many bits. -/
theorem getBitLengthOfNumThreads_isLeast
    (room : getBitLengthOfNumThreads usizeBits numThreads < usizeBits) :
    IsLeast {k | numThreads + 1 < 2 ^ k} (getBitLengthOfNumThreads usizeBits numThreads) := by
  have size := getBitLengthOfNumThreads_eq usizeBits numThreads
  have whole : getBitLengthOfNumThreads usizeBits numThreads = (numThreads + 1).size := by omega
  rw [whole]
  exact ⟨Nat.lt_size_self _, fun k small => Nat.size_le.mpr small⟩

theorem threadId_small (room : getBitLengthOfNumThreads usizeBits numThreads < usizeBits)
    (atMost : threadId ≤ numThreads) :
    threadId + 1 < 2 ^ getBitLengthOfNumThreads usizeBits numThreads :=
  Nat.lt_of_le_of_lt (Nat.succ_le_succ atMost) (getBitLengthOfNumThreads_isLeast room).1

/-! ### Markers -/

/-- A word whose top bits are a thread id is the marker of that id. -/
theorem eq_constructThreadAndSequence
    (room : getBitLengthOfNumThreads usizeBits numThreads < usizeBits)
    (atMost : extractThreadFromThreadAndSequence usizeBits numThreads value ≤ numThreads) :
    value = constructThreadAndSequence usizeBits numThreads
      (extractThreadFromThreadAndSequence usizeBits numThreads value)
      (extractSequenceFromThreadAndSequence usizeBits numThreads value) := by
  have small := threadId_small room atMost
  have fields : extractSequenceFromThreadAndSequence usizeBits numThreads value =
      value % 2 ^ (usizeBits - getBitLengthOfNumThreads usizeBits numThreads) := by
    rw [extractSequenceFromThreadAndSequence, getSequenceMaskForThreadAndSequence_eq,
      Nat.and_two_pow_sub_one_eq_mod]
  have fits := Nat.mod_lt value
    (Nat.two_pow_pos (usizeBits - getBitLengthOfNumThreads usizeBits numThreads))
  rw [constructThreadAndSequence_eq (by omega) (by rwa [fields]), fields,
    extractThreadFromThreadAndSequence, Nat.shiftRight_eq_div_pow]
  exact (Nat.div_add_mod' value _).symm

/-- Markers are what `is_value_a_kcas_marker` says they are, and what `claim`
helps. -/
theorem readingOf_eq_marker
    (room : getBitLengthOfNumThreads usizeBits numThreads < usizeBits) :
    readingOf usizeBits numThreads value = .marker ↔
      isValueAKcasMarker usizeBits numThreads value = true := by
  have bound : numThreads + 1 < 2 ^ getBitLengthOfNumThreads usizeBits numThreads :=
    (getBitLengthOfNumThreads_isLeast room).1
  simp only [readingOf, kernelPointerBits_eq, isValueAKcasMarker, Bool.and_eq_true,
    decide_eq_true_eq]
  generalize extractThreadFromThreadAndSequence usizeBits numThreads value = topBits
  split
  · simp only [reduceCtorEq, false_iff]
    omega
  · split
    · simp only [true_iff]
      omega
    · simp only [reduceCtorEq, false_iff]
      omega

theorem isValueAKcasMarker_construct
    (room : getBitLengthOfNumThreads usizeBits numThreads < usizeBits) (pos : 1 ≤ threadId)
    (atMost : threadId ≤ numThreads)
    (fits : sequence < 2 ^ (usizeBits - getBitLengthOfNumThreads usizeBits numThreads)) :
    isValueAKcasMarker usizeBits numThreads
      (constructThreadAndSequence usizeBits numThreads threadId sequence) = true := by
  have small := threadId_small room atMost
  simp only [isValueAKcasMarker, Bool.and_eq_true, decide_eq_true_eq,
    extractThread_constructThreadAndSequence (Nat.lt_of_succ_lt small) fits]
  exact ⟨pos, atMost⟩

/-- The markers of `numThreads` threads whose ids take `b` bits. -/
structure ExactEncoding (usizeBits numThreads b : ℕ) : Prop where
  least : IsLeast {k | numThreads + 1 < 2 ^ k} b
  roundTrip : ∀ threadId, 1 ≤ threadId → threadId ≤ numThreads →
    ∀ sequence < 2 ^ (usizeBits - b),
      extractThreadFromThreadAndSequence usizeBits numThreads
          (constructThreadAndSequence usizeBits numThreads threadId sequence) = threadId ∧
        extractSequenceFromThreadAndSequence usizeBits numThreads
          (constructThreadAndSequence usizeBits numThreads threadId sequence) = sequence
  injective : ∀ threadId, 1 ≤ threadId → threadId ≤ numThreads →
    ∀ sequence < 2 ^ (usizeBits - b), ∀ threadId', 1 ≤ threadId' → threadId' ≤ numThreads →
      ∀ sequence' < 2 ^ (usizeBits - b), (threadId, sequence) ≠ (threadId', sequence') →
        constructThreadAndSequence usizeBits numThreads threadId sequence ≠
          constructThreadAndSequence usizeBits numThreads threadId' sequence'
  recognised : ∀ value < 2 ^ usizeBits, isValueAKcasMarker usizeBits numThreads value = true ↔
    ∃ threadId, 1 ≤ threadId ∧ threadId ≤ numThreads ∧ ∃ sequence < 2 ^ (usizeBits - b),
      value = constructThreadAndSequence usizeBits numThreads threadId sequence
  disjoint : ∀ value < 2 ^ usizeBits, UniformTopBits usizeBits b value →
    isValueAKcasMarker usizeBits numThreads value = false
  /-- The test of `claim` has one outcome for each word. -/
  reading : ∀ value < 2 ^ usizeBits,
    (readingOf usizeBits numThreads value = .real ↔ UniformTopBits usizeBits b value) ∧
    (readingOf usizeBits numThreads value = .marker ↔
      isValueAKcasMarker usizeBits numThreads value = true) ∧
    (readingOf usizeBits numThreads value = .illegal ↔
      ¬ UniformTopBits usizeBits b value ∧ isValueAKcasMarker usizeBits numThreads value = false)

/-- The encoding is exact whenever the thread ids leave a bit for the sequence. -/
theorem exact_encoding (room : getBitLengthOfNumThreads usizeBits numThreads < usizeBits) :
    ExactEncoding usizeBits numThreads (getBitLengthOfNumThreads usizeBits numThreads) := by
  have trip {threadId sequence : ℕ} (atMost : threadId ≤ numThreads)
      (fits : sequence < 2 ^ (usizeBits - getBitLengthOfNumThreads usizeBits numThreads)) :
      extractThreadFromThreadAndSequence usizeBits numThreads
          (constructThreadAndSequence usizeBits numThreads threadId sequence) = threadId ∧
        extractSequenceFromThreadAndSequence usizeBits numThreads
          (constructThreadAndSequence usizeBits numThreads threadId sequence) = sequence := by
    have small := Nat.lt_of_succ_lt (threadId_small room atMost)
    exact ⟨extractThread_constructThreadAndSequence small fits,
      extractSequence_constructThreadAndSequence small fits⟩
  have disjoint {value : ℕ} (uniform : UniformTopBits usizeBits
      (getBitLengthOfNumThreads usizeBits numThreads) value) :
      isValueAKcasMarker usizeBits numThreads value = false := by
    rw [← Bool.not_eq_true, ← readingOf_eq_marker room, readingOf_eq_real.mpr uniform]
    simp
  refine ⟨getBitLengthOfNumThreads_isLeast room, ?_, ?_, ?_, ?_, ?_⟩
  · intro threadId _ atMost sequence fits
    exact trip atMost fits
  · intro threadId _ atMost sequence fits threadId' _ atMost' sequence' fits' other same
    have ids := (trip atMost fits).1
    have sequences := (trip atMost fits).2
    rw [same, (trip atMost' fits').1] at ids
    rw [same, (trip atMost' fits').2] at sequences
    exact other (Prod.ext ids.symm sequences.symm)
  · intro value _
    constructor
    · intro marked
      have range := marked
      simp only [isValueAKcasMarker, Bool.and_eq_true, decide_eq_true_eq] at range
      refine ⟨_, range.1, range.2, _, ?_, eq_constructThreadAndSequence room range.2⟩
      rw [extractSequenceFromThreadAndSequence, getSequenceMaskForThreadAndSequence_eq,
        Nat.and_two_pow_sub_one_eq_mod]
      exact Nat.mod_lt _ (Nat.two_pow_pos _)
    · rintro ⟨threadId, pos, atMost, sequence, fits, rfl⟩
      exact isValueAKcasMarker_construct room pos atMost fits
  · exact fun value _ => disjoint
  · intro value _
    refine ⟨readingOf_eq_real, readingOf_eq_marker room, ?_⟩
    rw [← readingOf_eq_real, ← Bool.not_eq_true, ← readingOf_eq_marker room]
    cases readingOf usizeBits numThreads value <;> simp

/-- The ids of two threads take two bits of a word of four. -/
theorem exact_encoding_narrow : ExactEncoding 4 2 2 :=
  exact_encoding (by decide)

/-! ### The capacity rule -/

/-- The value is never taken for a marker, and `claim` fails on it as it fails
on any unexpected real value. -/
def TreatedAsReal (usizeBits numThreads value : ℕ) : Prop :=
  isValueAKcasMarker usizeBits numThreads value = false ∧
    readingOf usizeBits numThreads value = .real ∧
    ∀ P : Params, P.usizeBits = usizeBits → P.numThreads = numThreads →
      ∀ role op wordNum target expected, claimClassify P role op wordNum target expected value =
        [.operating role op
          (afterClaim P role op (.error (.valueWasNotExpectedValue wordNum target value)))]

/-- Values that are uniform on more bits than are reserved are uniform on those. -/
theorem UniformTopBits.of_le (fewer : b ≤ r) (within : r ≤ usizeBits)
    (uniform : UniformTopBits usizeBits r value) : UniformTopBits usizeBits b value := by
  have shift : value >>> (usizeBits - b) = value >>> (usizeBits - r) >>> (r - b) := by
    rw [← Nat.shiftRight_add]
    congr 1
    omega
  rw [UniformTopBits, shift]
  rcases uniform with zero | ones
  · exact .inl (by rw [zero, Nat.zero_shiftRight])
  · exact .inr (by rw [ones, Packing.ones_shiftRight fewer])

theorem treatedAsReal_of_uniform
    (room : getBitLengthOfNumThreads usizeBits numThreads < usizeBits)
    (uniform : UniformTopBits usizeBits (getBitLengthOfNumThreads usizeBits numThreads) value) :
    TreatedAsReal usizeBits numThreads value := by
  have real := readingOf_eq_real.mpr uniform
  refine ⟨?_, real, ?_⟩
  · rw [← Bool.not_eq_true, ← readingOf_eq_marker room, real]
    simp
  · rintro P rfl rfl role op wordNum target expected
    rw [claimClassify_eq, real]

/-- The number of threads that the crate docs admit for values with `r` uniform
top bits is safe if and only if one more than it is not `2 ^ r` or larger. -/
theorem capacity_rule_iff (pos : 1 ≤ r) (room : r < usizeBits - 1) (threads : 1 ≤ numThreads)
    (admitted : numThreads ≤ 2 ^ r) :
    (∀ value < 2 ^ usizeBits, UniformTopBits usizeBits r value →
      TreatedAsReal usizeBits numThreads value) ↔ numThreads + 1 < 2 ^ r := by
  have size := getBitLengthOfNumThreads_eq usizeBits numThreads
  have sizeLe : (numThreads + 1).size ≤ r + 1 := by
    rw [Nat.size_le, Nat.pow_succ]
    have two : 2 ^ 1 ≤ 2 ^ r := Nat.pow_le_pow_right (by omega) pos
    omega
  have bits : getBitLengthOfNumThreads usizeBits numThreads = (numThreads + 1).size := by omega
  constructor
  · intro safe
    by_contra large
    -- one bit more is reserved than the values keep uniform
    have reserved : getBitLengthOfNumThreads usizeBits numThreads = r + 1 := by
      rw [bits]
      have := Nat.lt_size.mpr (Nat.le_of_not_lt large)
      omega
    have small : 2 ^ (usizeBits - (r + 1)) < 2 ^ (usizeBits - r) :=
      Nat.pow_lt_pow_right (by omega) (by omega)
    have word : 2 ^ (usizeBits - r) ≤ 2 ^ usizeBits :=
      Nat.pow_le_pow_right (by omega) (Nat.sub_le _ _)
    have real := (safe (2 ^ (usizeBits - (r + 1))) (by omega)
      (.inl (by rw [Nat.shiftRight_eq_div_pow, Nat.div_eq_of_lt small]))).1
    have one : extractThreadFromThreadAndSequence usizeBits numThreads
        (2 ^ (usizeBits - (r + 1))) = 1 := by
      rw [extractThreadFromThreadAndSequence, reserved, Nat.shiftRight_eq_div_pow,
        Nat.div_self (Nat.two_pow_pos _)]
    simp [isValueAKcasMarker, one] at real
    omega
  · intro small value _ uniform
    have fewer : getBitLengthOfNumThreads usizeBits numThreads ≤ r := by
      rw [bits]
      exact Nat.size_le.mpr small
    exact treatedAsReal_of_uniform (by omega) (uniform.of_le fewer (by omega))

/-- 4094 threads leave the 52-bit pointers alone, the largest power of 2 among them. -/
theorem capacity_rule_4094 : UniformTopBits 64 12 (2 ^ 51) ∧ TreatedAsReal 64 4094 (2 ^ 51) := by
  have safe : ∀ value < 2 ^ 64, UniformTopBits 64 12 value → TreatedAsReal 64 4094 value :=
    (capacity_rule_iff (by decide) (by decide) (by decide) (by decide)).mpr (by decide)
  have uniform : UniformTopBits 64 12 (2 ^ 51) := by decide
  exact ⟨uniform, safe (2 ^ 51) (by decide) uniform⟩

/-- 4096 threads take it for a marker of thread 1. -/
theorem not_capacity_rule : ¬ ∀ usizeBits r numThreads, 1 ≤ r → r < usizeBits - 1 →
    1 ≤ numThreads → numThreads ≤ 2 ^ r → ∀ value < 2 ^ usizeBits,
      UniformTopBits usizeBits r value → TreatedAsReal usizeBits numThreads value := by
  intro claim
  have real := (claim 64 12 4096 (by decide) (by decide) (by decide) (by decide) (2 ^ 51)
    (by decide) (by decide)).1
  exact absurd real (by decide)

end KCas
