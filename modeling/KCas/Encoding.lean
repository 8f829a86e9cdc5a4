import KCas.Library.Packing
import KCas.Program

/-! What the packed words mean: the bit length of `types.rs`, the fields of a
stage word and of a marker, and that markers and real values never meet. -/
namespace KCas

/-- The loop of `get_bit_length_of_num_threads` stops at the bit length of the
number, or at the end of the word if that comes first. -/
theorem bitLengthFrom_eq (number remaining i : ℕ) (below : i ≤ number.size) :
    bitLengthFrom number remaining i = min number.size (i + remaining) := by
  induction remaining generalizing i with
  | zero => simp [bitLengthFrom, below]
  | succ remaining ih =>
    have test : number >>> i ≠ 0 ↔ i < number.size := by
      rw [Nat.shiftRight_eq_div_pow, Nat.lt_size, Ne, Nat.div_eq_zero_iff]
      simp
    simp only [bitLengthFrom, test]
    split
    · rename_i more
      rw [ih (i + 1) more]
      congr 1
      omega
    · omega

theorem getBitLengthOfNumThreads_eq (usizeBits numThreads : ℕ) :
    getBitLengthOfNumThreads usizeBits numThreads = min (numThreads + 1).size usizeBits := by
  simp [getBitLengthOfNumThreads, bitLengthFrom_eq]

theorem sequenceMaskForStageAndSequence_eq {usizeBits : ℕ} (wide : stageBitLength ≤ usizeBits) :
    sequenceMaskForStageAndSequence usizeBits = 2 ^ (usizeBits - stageBitLength) - 1 :=
  Packing.complement_high_ones (b := 3) (Nat.sub_le _ _) (by simp [stageBitLength] at wide ⊢; omega)

theorem getSequenceMaskForThreadAndSequence_eq (usizeBits numThreads : ℕ) :
    getSequenceMaskForThreadAndSequence usizeBits numThreads =
      2 ^ (usizeBits - getBitLengthOfNumThreads usizeBits numThreads) - 1 :=
  Packing.complement_high_ones (Nat.sub_le _ _) (Nat.le_add_right _ _)

/-! ### The fields of any word -/

section Fields

variable {usizeBits numThreads threadId sequence : ℕ} {stage : Stage}

theorem tryFrom_toUsize (stage : Stage) : Stage.tryFrom stage.toUsize = .ok stage := by
  cases stage <;> rfl

theorem constructStageAndSequence_eq (wide : stageBitLength ≤ usizeBits)
    (fits : sequence < 2 ^ (usizeBits - stageBitLength)) :
    constructStageAndSequence usizeBits stage sequence =
      stage.toUsize * 2 ^ (usizeBits - stageBitLength) + sequence := by
  refine Packing.or_eq_add ?_ (Nat.sub_le _ _) fits
  rw [Nat.sub_sub_self wide]
  cases stage <;> simp [Stage.toUsize, stageBitLength]

theorem extractStage_constructStageAndSequence (wide : stageBitLength ≤ usizeBits)
    (fits : sequence < 2 ^ (usizeBits - stageBitLength)) :
    extractStageFromStageAndSequence usizeBits
      (constructStageAndSequence usizeBits stage sequence) = .ok stage := by
  rw [constructStageAndSequence_eq wide fits, extractStageFromStageAndSequence]
  exact (congrArg Stage.tryFrom (Packing.high_of_packed fits)).trans (tryFrom_toUsize stage)

theorem extractSequence_constructStageAndSequence (wide : stageBitLength ≤ usizeBits)
    (fits : sequence < 2 ^ (usizeBits - stageBitLength)) :
    extractSequenceFromStageAndSequence usizeBits
      (constructStageAndSequence usizeBits stage sequence) = sequence := by
  rw [constructStageAndSequence_eq wide fits, extractSequenceFromStageAndSequence,
    sequenceMaskForStageAndSequence_eq wide]
  exact Packing.low_of_packed fits

theorem getBitLengthOfNumThreads_le :
    getBitLengthOfNumThreads usizeBits numThreads ≤ usizeBits := by
  rw [getBitLengthOfNumThreads_eq]
  exact Nat.min_le_right _ _

theorem constructThreadAndSequence_eq
    (small : threadId < 2 ^ getBitLengthOfNumThreads usizeBits numThreads)
    (fits : sequence < 2 ^ (usizeBits - getBitLengthOfNumThreads usizeBits numThreads)) :
    constructThreadAndSequence usizeBits numThreads threadId sequence =
      threadId * 2 ^ (usizeBits - getBitLengthOfNumThreads usizeBits numThreads) + sequence := by
  refine Packing.or_eq_add ?_ (Nat.sub_le _ _) fits
  rwa [Nat.sub_sub_self getBitLengthOfNumThreads_le]

theorem extractThread_constructThreadAndSequence
    (small : threadId < 2 ^ getBitLengthOfNumThreads usizeBits numThreads)
    (fits : sequence < 2 ^ (usizeBits - getBitLengthOfNumThreads usizeBits numThreads)) :
    extractThreadFromThreadAndSequence usizeBits numThreads
      (constructThreadAndSequence usizeBits numThreads threadId sequence) = threadId := by
  rw [constructThreadAndSequence_eq small fits]
  exact Packing.high_of_packed fits

theorem extractSequence_constructThreadAndSequence
    (small : threadId < 2 ^ getBitLengthOfNumThreads usizeBits numThreads)
    (fits : sequence < 2 ^ (usizeBits - getBitLengthOfNumThreads usizeBits numThreads)) :
    extractSequenceFromThreadAndSequence usizeBits numThreads
      (constructThreadAndSequence usizeBits numThreads threadId sequence) = sequence := by
  rw [constructThreadAndSequence_eq small fits, extractSequenceFromThreadAndSequence,
    getSequenceMaskForThreadAndSequence_eq]
  exact Packing.low_of_packed fits

/-- The pattern `claim` recomputes for the top bits of a kernel pointer. -/
theorem kernelPointerBits_eq :
    usizeMax usizeBits >>> (usizeBits - getBitLengthOfNumThreads usizeBits numThreads) =
      2 ^ getBitLengthOfNumThreads usizeBits numThreads - 1 :=
  Packing.ones_shiftRight getBitLengthOfNumThreads_le

end Fields

namespace Params

variable {P : Params} {t u n k : ℕ} {stage stage' : Stage} {value : ℕ}

/-- The size limit on `State` keeps the thread ids far from filling the word:
at least two bits are left for the sequence. -/
theorem two_le_sequence_bits (P : Params) : (P.numThreads + 1).size + 2 ≤ P.usizeBits := by
  have fits := P.state_fits
  have bytes := P.two_le_usizeBytes
  have rows : P.numThreads * 2 ≤ P.numThreads * P.usizeBytes := Nat.mul_le_mul_left _ bytes
  have half : 2 ^ (8 * P.usizeBytes - 1) = 2 * 2 ^ (8 * P.usizeBytes - 2) := by
    rw [← Nat.pow_succ', Nat.succ_eq_add_one]
    congr 1
    omega
  have small : P.numThreads + 1 < 2 ^ (P.usizeBits - 2) := by
    simp only [stateBytes] at fits
    rw [usizeBits]
    omega
  have size := Nat.size_le.mpr small
  simp only [usizeBits] at size ⊢
  omega

theorem threadBits_eq (P : Params) : P.threadBits = (P.numThreads + 1).size := by
  have room := P.two_le_sequence_bits
  rw [threadBits, getBitLengthOfNumThreads_eq]
  omega

/-- The bits of a marker that hold the sequence. -/
def markerSequenceBits (P : Params) : ℕ := P.usizeBits - P.threadBits

/-- The bits of a stage word that hold the sequence. -/
def stageSequenceBits (P : Params) : ℕ := P.usizeBits - stageBitLength

theorem markerSequenceBits_add (P : Params) :
    P.markerSequenceBits + P.threadBits = P.usizeBits ∧ 2 ≤ P.markerSequenceBits := by
  have room := P.two_le_sequence_bits
  have bits := P.threadBits_eq
  simp only [markerSequenceBits]
  omega

theorem three_le_usizeBits (P : Params) : stageBitLength ≤ P.usizeBits := by
  have bytes := P.two_le_usizeBytes
  simp only [stageBitLength, usizeBits]
  omega

theorem threadId_lt (within : t < P.numThreads) : t + 1 < 2 ^ P.threadBits - 1 := by
  have bound := Nat.lt_size_self (P.numThreads + 1)
  rw [← P.threadBits_eq] at bound
  omega

/-! ### Stage words -/

theorem stageWord_eq (fits : n < 2 ^ P.stageSequenceBits) :
    P.stageWord stage n = stage.toUsize * 2 ^ P.stageSequenceBits + n :=
  constructStageAndSequence_eq P.three_le_usizeBits fits

theorem extractStage_stageWord (fits : n < 2 ^ P.stageSequenceBits) :
    extractStageFromStageAndSequence P.usizeBits (P.stageWord stage n) = .ok stage :=
  extractStage_constructStageAndSequence P.three_le_usizeBits fits

theorem extractSequence_stageWord (fits : n < 2 ^ P.stageSequenceBits) :
    extractSequenceFromStageAndSequence P.usizeBits (P.stageWord stage n) = n :=
  extractSequence_constructStageAndSequence P.three_le_usizeBits fits

theorem stageWord_inj (fits : n < 2 ^ P.stageSequenceBits) (fits' : k < 2 ^ P.stageSequenceBits) :
    P.stageWord stage n = P.stageWord stage' k ↔ stage = stage' ∧ n = k := by
  constructor
  · intro same
    have stages : Except.ok stage = Except.ok stage' :=
      (extractStage_stageWord fits).symm.trans (same ▸ extractStage_stageWord fits')
    have sequences : n = k :=
      (extractSequence_stageWord fits).symm.trans (same ▸ extractSequence_stageWord fits')
    exact ⟨Except.ok.inj stages, sequences⟩
  · rintro ⟨rfl, rfl⟩
    rfl

/-- The word of `State::new()` is Inactive at sequence 0. -/
theorem stageWord_inactive_zero (P : Params) : P.stageWord .inactive 0 = 0 := by
  rw [stageWord_eq (Nat.two_pow_pos _)]
  simp [Stage.toUsize]

/-! ### Markers -/

theorem threadId_fits (within : t < P.numThreads) : t + 1 < 2 ^ P.threadBits :=
  Nat.lt_of_lt_of_le (threadId_lt within) (Nat.sub_le _ _)

theorem marker_eq (within : t < P.numThreads) (fits : n < 2 ^ P.markerSequenceBits) :
    P.marker t n = (t + 1) * 2 ^ P.markerSequenceBits + n :=
  constructThreadAndSequence_eq (threadId_fits within) fits

theorem extractThread_marker (within : t < P.numThreads) (fits : n < 2 ^ P.markerSequenceBits) :
    extractThreadFromThreadAndSequence P.usizeBits P.numThreads (P.marker t n) = t + 1 :=
  extractThread_constructThreadAndSequence (threadId_fits within) fits

theorem extractSequence_marker (within : t < P.numThreads) (fits : n < 2 ^ P.markerSequenceBits) :
    extractSequenceFromThreadAndSequence P.usizeBits P.numThreads (P.marker t n) = n :=
  extractSequence_constructThreadAndSequence (threadId_fits within) fits

theorem marker_inj (within : t < P.numThreads) (fits : n < 2 ^ P.markerSequenceBits)
    (within' : u < P.numThreads) (fits' : k < 2 ^ P.markerSequenceBits)
    (same : P.marker t n = P.marker u k) : t = u ∧ n = k := by
  rw [marker_eq within fits, marker_eq within' fits'] at same
  have fields := Packing.packed_inj fits fits' same
  omega

theorem topBitsIfValueIsKernelPointer_eq (P : Params) :
    P.topBitsIfValueIsKernelPointer = 2 ^ P.threadBits - 1 :=
  kernelPointerBits_eq

/-- No marker is a real value. -/
theorem marker_not_legal (within : t < P.numThreads) (fits : n < 2 ^ P.markerSequenceBits) :
    ¬ P.Legal (P.marker t n) := by
  have id := threadId_lt within
  rw [Legal, extractThread_marker within fits, topBitsIfValueIsKernelPointer_eq]
  omega

theorem legal_zero (P : Params) : P.Legal 0 := by
  simp [Legal, extractThreadFromThreadAndSequence]

/-- `is_value_a_kcas_marker` is false for every real value. -/
theorem isValueAKcasMarker_of_legal (real : P.Legal value) :
    isValueAKcasMarker P.usizeBits P.numThreads value = false := by
  have bound := Nat.lt_size_self (P.numThreads + 1)
  rw [← P.threadBits_eq] at bound
  rw [Legal, topBitsIfValueIsKernelPointer_eq] at real
  rcases real with zero | ones
  · simp [isValueAKcasMarker, zero]
  · simp only [isValueAKcasMarker, ones, Bool.and_eq_false_iff, decide_eq_false_iff_not]
    omega

theorem isValueAKcasMarker_marker (within : t < P.numThreads)
    (fits : n < 2 ^ P.markerSequenceBits) :
    isValueAKcasMarker P.usizeBits P.numThreads (P.marker t n) = true := by
  simp only [isValueAKcasMarker, extractThread_marker within fits, Bool.and_eq_true,
    decide_eq_true_eq]
  omega

end Params

/-- `prepare_for_next_operation` stores Inactive at the next sequence: the
remainder applies to the 1 alone, and the mask is larger than that. -/
theorem prepareForNextOperation_eq (P : Params) {n : ℕ}
    (fits : n + 1 < 2 ^ P.stageSequenceBits) :
    prepareForNextOperation P n = some (P.stageWord .inactive (n + 1)) := by
  have bits := P.markerSequenceBits_add
  have mask : getSequenceMaskForThreadAndSequence P.usizeBits P.numThreads =
      2 ^ P.markerSequenceBits - 1 :=
    getSequenceMaskForThreadAndSequence_eq _ _
  have four : 2 ^ 2 ≤ 2 ^ P.markerSequenceBits := Nat.pow_le_pow_right (by omega) bits.2
  have word : 2 ^ P.stageSequenceBits ≤ 2 ^ P.usizeBits :=
    Nat.pow_le_pow_right (by omega) (Nat.sub_le _ _)
  simp only [prepareForNextOperation, mask]
  rw [if_neg (by omega), Nat.mod_eq_of_lt (a := 1) (by omega), Nat.mod_eq_of_lt (by omega)]
  rfl

end KCas
