import KCas.Encoding
import KCas.Machine

/-! The documented usage rules, and what a row of `State` says once its packed
word is taken apart. -/
namespace KCas

/-- The rules every caller follows: the reserved top bits of all values are
uniform, the addresses of one call are distinct, and no sequence number
overflows either of the two fields it is packed into. A marker carries the
sequence of a call, a stage word also the one after it. -/
structure UsageRules (P : Params) (load : Workload P.numWords) (cells : ℕ → ℕ) : Prop where
  cells_legal : ∀ address, P.Legal (cells address)
  expected_legal : ∀ t < P.numThreads, ∀ n < load.count t, ∀ w < P.numWords,
    P.Legal ((load.call t n).expected w)
  desired_legal : ∀ t < P.numThreads, ∀ n < load.count t, ∀ w < P.numWords,
    P.Legal ((load.call t n).desired w)
  distinct : ∀ t < P.numThreads, ∀ n < load.count t, ∀ i < P.numWords, ∀ j < P.numWords,
    (load.call t n).target i = (load.call t n).target j → i = j
  marker_fits : ∀ t < P.numThreads, load.count t ≤ 2 ^ P.markerSequenceBits
  stage_fits : ∀ t < P.numThreads, load.count t < 2 ^ P.stageSequenceBits

/-- All calls list their addresses in the order `before`. -/
def ListedInOrder (P : Params) (load : Workload P.numWords) (before : ℕ → ℕ → Prop) : Prop :=
  ∀ t < P.numThreads, ∀ n < load.count t, ∀ j < P.numWords, ∀ i < j,
    before ((load.call t n).target i) ((load.call t n).target j)

instance (P : Params) (load : Workload P.numWords) (before : ℕ → ℕ → Prop) [DecidableRel before] :
    Decidable (ListedInOrder P load before) :=
  inferInstanceAs (Decidable (∀ t < P.numThreads, ∀ n < load.count t, ∀ j < P.numWords, ∀ i < j, _))

/-- The rule of one global address order. -/
def GlobalOrder (P : Params) (load : Workload P.numWords) : Prop :=
  ∃ before : ℕ → ℕ → Prop, IsStrictOrder ℕ before ∧ ListedInOrder P load before

namespace UsageRules

variable {P : Params} {load : Workload P.numWords} {cells : ℕ → ℕ} {t u n k : ℕ}

theorem marker_lt (rules : UsageRules P load cells) (within : t < P.numThreads)
    (counted : n < load.count t) : n < 2 ^ P.markerSequenceBits :=
  Nat.lt_of_lt_of_le counted (rules.marker_fits t within)

theorem stage_lt (rules : UsageRules P load cells) (within : t < P.numThreads)
    (counted : n ≤ load.count t) : n < 2 ^ P.stageSequenceBits :=
  Nat.lt_of_le_of_lt counted (rules.stage_fits t within)

theorem marker_inj (rules : UsageRules P load cells) (within : t < P.numThreads)
    (counted : n < load.count t) (within' : u < P.numThreads) (counted' : k < load.count u)
    (same : P.marker t n = P.marker u k) : t = u ∧ n = k :=
  Params.marker_inj within (rules.marker_lt within counted) within'
    (rules.marker_lt within' counted') same

theorem marker_not_legal (rules : UsageRules P load cells) (within : t < P.numThreads)
    (counted : n < load.count t) : ¬ P.Legal (P.marker t n) :=
  Params.marker_not_legal within (rules.marker_lt within counted)

end UsageRules

/-- Addresses in ascending order are one global order. -/
theorem globalOrder_of_ascending {P : Params} {load : Workload P.numWords}
    (ascending : ListedInOrder P load (· < ·)) : GlobalOrder P load :=
  ⟨(· < ·), { irrefl := Nat.lt_irrefl, trans := fun _ _ _ => Nat.lt_trans }, ascending⟩

/-! ### Small systems -/

/-- The rules on the words of one call. -/
def WordsLegal (P : Params) (words : KCasWords P.numWords) : Prop :=
  (∀ w < P.numWords, P.Legal (words.expected w) ∧ P.Legal (words.desired w)) ∧
    ∀ i < P.numWords, ∀ j < P.numWords, words.target i = words.target j → i = j

instance (P : Params) (words : KCasWords P.numWords) : Decidable (WordsLegal P words) :=
  inferInstanceAs (Decidable (_ ∧ _))

/-- On cells that hold 0 the rules are finitely many checks. -/
theorem usageRules_of_checks {P : Params} {load : Workload P.numWords}
    (checks : ∀ t < P.numThreads, load.count t ≤ 2 ^ P.markerSequenceBits ∧
      load.count t < 2 ^ P.stageSequenceBits ∧ ∀ n < load.count t, WordsLegal P (load.call t n)) :
    UsageRules P load fun _ => 0 where
  cells_legal := fun _ => P.legal_zero
  expected_legal t within n counted w inRange :=
    (((checks t within).2.2 n counted).1 w inRange).1
  desired_legal t within n counted w inRange :=
    (((checks t within).2.2 n counted).1 w inRange).2
  distinct t within n counted := ((checks t within).2.2 n counted).2
  marker_fits t within := (checks t within).1
  stage_fits t within := (checks t within).2.1

/-- A word on the cell number `i`, at address `8 * (i + 1)`. -/
def onCell (i expected desired : ℕ) : KCasWord :=
  ⟨8 * (i + 1), expected, desired, Nat.mul_ne_zero (Nat.succ_ne_zero 7) (Nat.succ_ne_zero i)⟩

def oneWord (word : KCasWord) : KCasWords 1 := fun _ => word

def twoWords (first second : KCasWord) : KCasWords 2 := fun w => if w = 0 then first else second

/-- 64-bit platforms with two to four threads, and calls of one or two words. -/
def twoThreads : Params := ⟨8, 2, 2, by decide, by decide⟩

def twoThreadsOneWord : Params := ⟨8, 2, 1, by decide, by decide⟩

def threeThreads : Params := ⟨8, 3, 2, by decide, by decide⟩

def threeThreadsOneWord : Params := ⟨8, 3, 1, by decide, by decide⟩

def fourThreads : Params := ⟨8, 4, 2, by decide, by decide⟩

/-- Each thread calls once, on the same cells. -/
def contended : Workload twoThreads.numWords := .ofCalls
  [[twoWords (onCell 0 0 1) (onCell 1 0 1)],
    [twoWords (onCell 0 0 2) (onCell 1 0 2)]]

theorem contended_rules : UsageRules twoThreads contended fun _ => 0 :=
  usageRules_of_checks (by decide +kernel)

/-- The second thread finds the first one about to set its words, helps it to
the end and then fails on its own. -/
def contendedTurns : List (ℕ × ℕ) := [(0, 18), (1, 30), (0, 10)]

/-! ### Rows -/

namespace Shared

/-- The stage a row publishes. -/
def stageOf (P : Params) (s : Shared) (t : ℕ) : Stage :=
  match extractStageFromStageAndSequence P.usizeBits (s.state.stageAndSequenceNumbers t) with
  | .ok stage => stage
  | .error _ => .inactive

/-- The sequence a row publishes. -/
def sequenceOf (P : Params) (s : Shared) (t : ℕ) : ℕ :=
  extractSequenceFromStageAndSequence P.usizeBits (s.state.stageAndSequenceNumbers t)

variable {P : Params} {s s' : Shared} {t u w n address value : ℕ} {stage : Stage}

theorem stageOf_congr (same : s'.state.stageAndSequenceNumbers t =
    s.state.stageAndSequenceNumbers t) : s'.stageOf P t = s.stageOf P t := by
  simp [stageOf, same]

theorem sequenceOf_congr (same : s'.state.stageAndSequenceNumbers t =
    s.state.stageAndSequenceNumbers t) : s'.sequenceOf P t = s.sequenceOf P t := by
  simp [sequenceOf, same]

theorem stageOf_storeStage_ne (other : t ≠ u) :
    (s.storeStage u value).stageOf P t = s.stageOf P t := by
  simp [stageOf, storeStage, other]

theorem sequenceOf_storeStage_ne (other : t ≠ u) :
    (s.storeStage u value).sequenceOf P t = s.sequenceOf P t := by
  simp [sequenceOf, storeStage, other]

theorem stageOf_storeStage_self (fits : n < 2 ^ P.stageSequenceBits) :
    (s.storeStage t (P.stageWord stage n)).stageOf P t = stage := by
  simp [stageOf, storeStage, Params.extractStage_stageWord fits]

theorem sequenceOf_storeStage_self (fits : n < 2 ^ P.stageSequenceBits) :
    (s.storeStage t (P.stageWord stage n)).sequenceOf P t = n := by
  simp [sequenceOf, storeStage, Params.extractSequence_stageWord fits]

end Shared

end KCas
