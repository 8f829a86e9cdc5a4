import KCas.Encoding

/-! The sequence numbers of one thread id, over any number of its operations.
`prepare_for_next_operation` takes the remainder of 1 and not of the next
sequence, so the counter leaves the narrower of the two fields that it is packed
into, and only the stage bits, which it reaches last, turn it back. -/
namespace KCas

variable {usizeBits numThreads sequence n : ℕ}

/-- `sequence + 1 % get_sequence_mask_for_thread_and_sequence()`. -/
def nextSequence (usizeBits numThreads sequence : ℕ) : ℕ :=
  (sequence + 1 % getSequenceMaskForThreadAndSequence usizeBits numThreads) % 2 ^ usizeBits

theorem prepareForNextOperation_nextSequence (P : Params) (sequence : ℕ) :
    prepareForNextOperation P sequence = some (constructStageAndSequence P.usizeBits .inactive
      (nextSequence P.usizeBits P.numThreads sequence)) := by
  have four : 2 ^ 2 ≤ 2 ^ P.markerSequenceBits :=
    Nat.pow_le_pow_right (by omega) P.markerSequenceBits_add.2
  have mask : getSequenceMaskForThreadAndSequence P.usizeBits P.numThreads =
      2 ^ P.markerSequenceBits - 1 :=
    getSequenceMaskForThreadAndSequence_eq _ _
  simp only [prepareForNextOperation, nextSequence]
  rw [if_neg (by omega)]

/-- What `initialize_operation` extracts from the word that
`prepare_for_next_operation` stored for `sequence`. -/
def loadedSequence (usizeBits sequence : ℕ) : ℕ :=
  extractSequenceFromStageAndSequence usizeBits
    (constructStageAndSequence usizeBits .inactive sequence)

/-- The sequence that the `n`-th `prepare_for_next_operation` stores, starting
from 0. Each operation runs with the sequence that it loads. -/
def storedSequence (usizeBits numThreads : ℕ) : ℕ → ℕ
  | 0 => 0
  | n + 1 =>
    nextSequence usizeBits numThreads
      (loadedSequence usizeBits (storedSequence usizeBits numThreads n))

/-- What the sequence that is stored after the operation with sequence `previous`
is good for: both packed words give it back, with whatever they are packed with,
and it is another one. -/
structure Usable (usizeBits numThreads previous sequence : ℕ) : Prop where
  stageWord : ∀ stage : Stage,
    extractStageFromStageAndSequence usizeBits
        (constructStageAndSequence usizeBits stage sequence) = .ok stage ∧
      extractSequenceFromStageAndSequence usizeBits
        (constructStageAndSequence usizeBits stage sequence) = sequence
  marker : ∀ threadId, 1 ≤ threadId → threadId ≤ numThreads →
    extractThreadFromThreadAndSequence usizeBits numThreads
        (constructThreadAndSequence usizeBits numThreads threadId sequence) = threadId ∧
      extractSequenceFromThreadAndSequence usizeBits numThreads
        (constructThreadAndSequence usizeBits numThreads threadId sequence) = sequence
  fresh : sequence ≠ previous

section Counting

variable (threads : 1 ≤ numThreads)
  (room : getBitLengthOfNumThreads usizeBits numThreads + 2 ≤ usizeBits)

include room

theorem nextSequence_eq (fits : sequence + 1 < 2 ^ usizeBits) :
    nextSequence usizeBits numThreads sequence = sequence + 1 := by
  have four : 2 ^ 2 ≤ 2 ^ (usizeBits - getBitLengthOfNumThreads usizeBits numThreads) :=
    Nat.pow_le_pow_right (by omega) (by omega)
  rw [nextSequence, getSequenceMaskForThreadAndSequence_eq, Nat.mod_eq_of_lt (a := 1) (by omega),
    Nat.mod_eq_of_lt fits]

theorem threadId_fits_of_le {threadId : ℕ} (atMost : threadId ≤ numThreads) :
    threadId < 2 ^ getBitLengthOfNumThreads usizeBits numThreads := by
  have size := getBitLengthOfNumThreads_eq usizeBits numThreads
  have bound := Nat.lt_size_self (numThreads + 1)
  rw [show getBitLengthOfNumThreads usizeBits numThreads = (numThreads + 1).size by omega]
  omega

include threads

/-- With a thread there are at least two bits of thread ids, and a word is wider
than the stage. -/
theorem stageBitLength_lt : stageBitLength < usizeBits := by
  have size := getBitLengthOfNumThreads_eq usizeBits numThreads
  have two : 1 < (numThreads + 1).size := Nat.lt_size.mpr (by omega)
  simp only [stageBitLength]
  omega

theorem loadedSequence_eq (sequence : ℕ) :
    loadedSequence usizeBits sequence = sequence % 2 ^ (usizeBits - stageBitLength) := by
  have wide := Nat.le_of_lt (stageBitLength_lt threads room)
  rw [loadedSequence, extractSequenceFromStageAndSequence, sequenceMaskForStageAndSequence_eq wide,
    Nat.and_two_pow_sub_one_eq_mod]
  simp [constructStageAndSequence, shiftLeft, Stage.toUsize]

/-- The counter goes round in the bits below the stage. -/
theorem storedSequence_succ (n : ℕ) :
    loadedSequence usizeBits (storedSequence usizeBits numThreads n) =
        n % 2 ^ (usizeBits - stageBitLength) ∧
      storedSequence usizeBits numThreads (n + 1) = n % 2 ^ (usizeBits - stageBitLength) + 1 := by
  have wide := stageBitLength_lt threads room
  have pos : 0 < 2 ^ (usizeBits - stageBitLength) := Nat.two_pow_pos _
  have narrower : 2 ^ (usizeBits - stageBitLength) < 2 ^ usizeBits :=
    Nat.pow_lt_pow_right (by omega) (by simp only [stageBitLength] at wide ⊢; omega)
  have stored (k : ℕ) (loaded : loadedSequence usizeBits (storedSequence usizeBits numThreads k) =
      k % 2 ^ (usizeBits - stageBitLength)) : storedSequence usizeBits numThreads (k + 1) =
        k % 2 ^ (usizeBits - stageBitLength) + 1 := by
    have below := Nat.mod_lt k pos
    rw [storedSequence, loaded]
    exact nextSequence_eq room (by omega)
  induction n with
  | zero =>
    have loaded : loadedSequence usizeBits (storedSequence usizeBits numThreads 0) =
        0 % 2 ^ (usizeBits - stageBitLength) :=
      loadedSequence_eq threads room 0
    exact ⟨loaded, stored 0 loaded⟩
  | succ n ih =>
    have below := Nat.mod_lt n pos
    have loaded : loadedSequence usizeBits (storedSequence usizeBits numThreads (n + 1)) =
        (n + 1) % 2 ^ (usizeBits - stageBitLength) := by
      rw [ih.2, loadedSequence_eq threads room, Nat.mod_add_mod]
    exact ⟨loaded, stored (n + 1) loaded⟩

theorem usable_iff {previous : ℕ} (other : sequence ≠ previous) :
    Usable usizeBits numThreads previous sequence ↔
      sequence < 2 ^ (usizeBits - stageBitLength) ∧
        sequence < 2 ^ (usizeBits - getBitLengthOfNumThreads usizeBits numThreads) := by
  have wide := Nat.le_of_lt (stageBitLength_lt threads room)
  constructor
  · intro usable
    constructor
    · rw [← (usable.stageWord .inactive).2, extractSequenceFromStageAndSequence,
        sequenceMaskForStageAndSequence_eq wide, Nat.and_two_pow_sub_one_eq_mod]
      exact Nat.mod_lt _ (Nat.two_pow_pos _)
    · rw [← (usable.marker 1 (Nat.le_refl 1) threads).2, extractSequenceFromThreadAndSequence,
        getSequenceMaskForThreadAndSequence_eq, Nat.and_two_pow_sub_one_eq_mod]
      exact Nat.mod_lt _ (Nat.two_pow_pos _)
  · rintro ⟨inStage, inMarker⟩
    refine ⟨fun stage => ?_, fun threadId _ atMost => ?_, other⟩
    · exact ⟨extractStage_constructStageAndSequence wide inStage,
        extractSequence_constructStageAndSequence wide inStage⟩
    · have small := threadId_fits_of_le room atMost
      exact ⟨extractThread_constructThreadAndSequence small inMarker,
        extractSequence_constructThreadAndSequence small inMarker⟩

/-- The sequence stored after `n + 1` operations is usable if and only if it has
not left the narrower of the two fields since the counter last went round. -/
theorem rollover_iff (n : ℕ) : Usable usizeBits numThreads
      (loadedSequence usizeBits (storedSequence usizeBits numThreads n))
      (storedSequence usizeBits numThreads (n + 1)) ↔
    n % 2 ^ (usizeBits - stageBitLength) + 1 <
      2 ^ (usizeBits - max stageBitLength (getBitLengthOfNumThreads usizeBits numThreads)) := by
  obtain ⟨loaded, stored⟩ := storedSequence_succ threads room n
  rw [usable_iff threads room (by omega), stored]
  rcases Nat.le_total stageBitLength (getBitLengthOfNumThreads usizeBits numThreads) with
    fewer | more
  · have narrow : 2 ^ (usizeBits - getBitLengthOfNumThreads usizeBits numThreads) ≤
        2 ^ (usizeBits - stageBitLength) := Nat.pow_le_pow_right (by omega) (by omega)
    rw [Nat.max_eq_right fewer]
    omega
  · have narrow : 2 ^ (usizeBits - stageBitLength) ≤
        2 ^ (usizeBits - getBitLengthOfNumThreads usizeBits numThreads) :=
      Nat.pow_le_pow_right (by omega) (by omega)
    rw [Nat.max_eq_left more]
    omega

end Counting

/-- On 16 bits with 255 threads, whose ids take 9 of them, the first 127
sequences are usable. -/
theorem rollover_first : Usable 16 255 (loadedSequence 16 (storedSequence 16 255 126))
    (storedSequence 16 255 127) :=
  (rollover_iff (by decide) (by decide) 126).mpr (by decide)

/-- The next one is or-ed into the thread id of its marker. -/
theorem not_rollover : ¬ ∀ usizeBits numThreads, 1 ≤ numThreads →
    getBitLengthOfNumThreads usizeBits numThreads + 2 ≤ usizeBits → ∀ n,
      Usable usizeBits numThreads
        (loadedSequence usizeBits (storedSequence usizeBits numThreads n))
        (storedSequence usizeBits numThreads (n + 1)) := by
  intro claim
  have usable := claim 16 255 (by decide) (by decide) 127
  have stored : storedSequence 16 255 128 = 128 :=
    (storedSequence_succ (by decide) (by decide) 127).2
  rw [stored] at usable
  exact absurd (usable.marker 1 (by decide) (by decide)).2 (by decide)

end KCas
