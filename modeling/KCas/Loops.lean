import KCas.State
import KCas.Library.Search

/-! The three loops of a call on the content of the cells alone: what `claim`,
`set` and `revert` do to it when nobody else is there. A call claims its words
upwards, up to the first one that it cannot pass, and then sets or reverts. -/
namespace KCas

open Search

variable {numWords : ℕ} {words : KCasWords numWords} {marker : ℕ} {c d : ℕ → ℕ}
  {w i k f address : ℕ}

/-- The cells after `claim` has passed the first words. -/
def claimLoop (words : KCasWords numWords) (marker : ℕ) (c : ℕ → ℕ) : ℕ → ℕ → ℕ
  | 0 => c
  | w + 1 => Function.update (claimLoop words marker c w) (words.target w) marker

/-- `claim` passes a word whose cell holds the expected value, or its marker. -/
def Passes (words : KCasWords numWords) (marker : ℕ) (c : ℕ → ℕ) (w : ℕ) : Prop :=
  claimLoop words marker c w (words.target w) = words.expected w ∨
    claimLoop words marker c w (words.target w) = marker

/-- One exchange of `set` or `revert`: a marker gives way to the value. -/
def unmark (marker : ℕ) (c : ℕ → ℕ) (target value : ℕ) : ℕ → ℕ :=
  if c target = marker then Function.update c target value else c

/-- The cells after `set` has dealt with the first words. -/
def setLoop (words : KCasWords numWords) (marker : ℕ) (c : ℕ → ℕ) : ℕ → ℕ → ℕ
  | 0 => c
  | w + 1 => unmark marker (setLoop words marker c w) (words.target w) (words.desired w)

/-- The cells after `revert` has dealt with the first `count` words, the last one
first. -/
def revertLoop (words : KCasWords numWords) (marker : ℕ) (c : ℕ → ℕ) : (count : ℕ) → ℕ → ℕ
  | 0 => c
  | w + 1 => revertLoop words marker (unmark marker c (words.target w) (words.expected w)) w

/-- What a call without rivals returns, and the cells it leaves. -/
inductive CallOutcome (words : KCasWords numWords) (marker : ℕ) (c : ℕ → ℕ) :
    Except Error Unit → (ℕ → ℕ) → Prop where
  | succeeds : (∀ w < numWords, Passes words marker c w) →
      CallOutcome words marker c (.ok ())
        (setLoop words marker (claimLoop words marker c numWords) numWords)
  | fails {f : ℕ} : f < numWords → (∀ w < f, Passes words marker c w) →
      ¬ Passes words marker c f →
      CallOutcome words marker c (.error .valueWasNotExpectedValue)
        (revertLoop words marker (claimLoop words marker c f) (f + 1))

/-! ### Claimed cells -/

theorem claimLoop_of_claimed (below : i < w) :
    claimLoop words marker c w (words.target i) = marker := by
  induction w with
  | zero => cases below
  | succ w ih =>
    by_cases same : words.target i = words.target w
    · simp [claimLoop, same]
    · rcases Nat.lt_succ_iff_lt_or_eq.mp below with earlier | rfl
      · simpa [claimLoop, same] using ih earlier
      · exact absurd rfl same

theorem claimLoop_of_free (free : ∀ i < w, words.target i ≠ address) :
    claimLoop words marker c w address = c address := by
  induction w with
  | zero => rfl
  | succ w ih =>
    have other : address ≠ words.target w := (free w (Nat.lt_succ_self w)).symm
    simpa [claimLoop, other] using ih fun i below => free i (Nat.lt_succ_of_lt below)

/-- `claim` finds its marker where an earlier word has the same target. -/
theorem passes_iff : Passes words marker c w ↔
    c (words.target w) = words.expected w ∨ c (words.target w) = marker ∨
      ∃ i < w, words.target i = words.target w := by
  by_cases repeated : ∃ i < w, words.target i = words.target w
  · obtain ⟨i, below, same⟩ := repeated
    have found : claimLoop words marker c w (words.target w) = marker :=
      same ▸ claimLoop_of_claimed below
    exact ⟨fun _ => .inr (.inr ⟨i, below, same⟩), fun _ => .inr found⟩
  · have free : claimLoop words marker c w (words.target w) = c (words.target w) :=
      claimLoop_of_free fun i below same => repeated ⟨i, below, same⟩
    rw [Passes, free]
    exact or_congr_right (or_iff_left repeated).symm

/-- The word at which `claim` stops is the same for everybody. -/
theorem failing_unique (passed : ∀ w < f, Passes words marker c w)
    (stops : ¬ Passes words marker c f) (passed' : ∀ w < k, Passes words marker c w)
    (stops' : ¬ Passes words marker c k) : f = k := by
  rcases Nat.lt_trichotomy f k with less | same | more
  · exact absurd (passed' f less) stops
  · exact same
  · exact absurd (passed k more) stops'

/-! ### Reverted cells -/

theorem unmark_of_ne {target value : ℕ} (other : c address ≠ marker) :
    unmark marker c target value address = c address := by
  unfold unmark
  split
  · rename_i marked
    have : address ≠ target := by
      rintro rfl
      exact other marked
    simp [this]
  · rfl

theorem unmark_of_other {target value : ℕ} (other : address ≠ target) :
    unmark marker c target value address = c address := by
  unfold unmark
  split <;> simp [other]

theorem unmark_self {value : ℕ} (marked : c address = marker) :
    unmark marker c address value address = value := by
  simp [unmark, marked]

theorem revertLoop_of_ne (other : d address ≠ marker) :
    revertLoop words marker d k address = d address := by
  induction k generalizing d with
  | zero => rfl
  | succ k ih =>
    have kept : unmark marker d (words.target k) (words.expected k) address = d address :=
      unmark_of_ne other
    rw [revertLoop, ih (by rwa [kept]), kept]

/-- A word that writes a real value back into its cell: no word after it, of those
reverted, has the same target and does so. -/
def WritesBack (words : KCasWords numWords) (marker count w : ℕ) : Prop :=
  words.expected w ≠ marker ∧
    ∀ j, w < j → j < count → words.target j = words.target w → words.expected j = marker

/-- A cell with several words gets back the value that the last of them expected. -/
theorem revertLoop_of_writesBack (marked : d (words.target w) = marker) (below : w < k)
    (writes : WritesBack words marker k w) :
    revertLoop words marker d k (words.target w) = words.expected w := by
  induction k generalizing d with
  | zero => cases below
  | succ k ih =>
    rw [revertLoop]
    rcases Nat.lt_succ_iff_lt_or_eq.mp below with earlier | rfl
    · have stays : unmark marker d (words.target k) (words.expected k) (words.target w) =
          marker := by
        by_cases same : words.target k = words.target w
        · rw [same, unmark_self marked]
          exact writes.2 k earlier (Nat.lt_succ_self k) same
        · rw [unmark_of_other (Ne.symm same), marked]
      exact ih stays earlier ⟨writes.1, fun j above inside =>
        writes.2 j above (Nat.lt_succ_of_lt inside)⟩
    · rw [revertLoop_of_ne (by rw [unmark_self marked]; exact writes.1), unmark_self marked]

theorem revertLoop_of_none
    (none : ∀ w < k, words.target w = address → words.expected w = marker) :
    revertLoop words marker d k address = d address := by
  induction k generalizing d with
  | zero => rfl
  | succ k ih =>
    rw [revertLoop, ih fun w below => none w (Nat.lt_succ_of_lt below)]
    by_cases same : words.target k = address
    · by_cases marked : d address = marker
      · rw [same, unmark_self marked, none k (Nat.lt_succ_self k) same, marked]
      · exact unmark_of_ne marked
    · exact unmark_of_other (Ne.symm same)

/-- The first word of a cell that was claimed found the expected value there, or
the marker. -/
theorem content_of_passed (passed : ∀ w < f, Passes words marker c w)
    (below : i < f) : ∃ w < f, words.target w = words.target i ∧
      (c (words.target i) = words.expected w ∨ c (words.target i) = marker) := by
  induction i using Nat.strong_induction_on with
  | _ i ih =>
    rcases passes_iff.mp (passed i below) with matching | marked | ⟨j, earlier, same⟩
    · exact ⟨i, below, rfl, .inl matching⟩
    · exact ⟨i, below, rfl, .inr marked⟩
    · rw [← same]
      exact ih j earlier (Nat.lt_trans earlier below)

/-- A failed call leaves the cells as they were if and only if each word that
writes a value back expected what its cell held. -/
theorem reverted_iff (passed : ∀ w < f, Passes words marker c w)
    (stops : ¬ Passes words marker c f) :
    revertLoop words marker (claimLoop words marker c f) (f + 1) = c ↔
      ∀ w < f, WritesBack words marker f w → c (words.target w) = words.expected w := by
  -- the word that failed was not claimed
  have skipped : revertLoop words marker (claimLoop words marker c f) (f + 1) =
      revertLoop words marker (claimLoop words marker c f) f := by
    rw [revertLoop, unmark, if_neg fun marked => stops (.inr marked)]
  rw [skipped]
  constructor
  · intro restored w below writes
    rw [← revertLoop_of_writesBack (claimLoop_of_claimed below) below writes, restored]
  · intro agree
    funext address
    by_cases claimed : ∃ i < f, words.target i = address
    · obtain ⟨i, below, rfl⟩ := claimed
      by_cases real : ∃ w < f, words.target w = words.target i ∧ words.expected w ≠ marker
      · obtain ⟨w, inside, ⟨same, value⟩, last⟩ := exists_last_below real
        have writes : WritesBack words marker f w := by
          refine ⟨value, fun j above inside' same' => ?_⟩
          by_contra other
          exact last j above inside' ⟨same'.trans same, other⟩
        rw [← same, revertLoop_of_writesBack (claimLoop_of_claimed inside) inside writes]
        exact (agree w inside writes).symm
      · have none (w : ℕ) (inside : w < f) (same : words.target w = words.target i) :
            words.expected w = marker := by
          by_contra value
          exact real ⟨w, inside, same, value⟩
        rw [revertLoop_of_none none, claimLoop_of_claimed below]
        obtain ⟨w, inside, same, held | held⟩ := content_of_passed passed below
        · rw [held, none w inside same]
        · exact held.symm
    · have free (i : ℕ) (below : i < f) : words.target i ≠ address :=
        fun same => claimed ⟨i, below, same⟩
      rw [revertLoop_of_none fun w below same => absurd same (free w below), claimLoop_of_free free]

/-! ### Set cells -/

theorem setLoop_of_other (other : ∀ i < w, words.target i ≠ address) :
    setLoop words marker d w address = d address := by
  induction w with
  | zero => rfl
  | succ w ih =>
    rw [setLoop, unmark_of_other (other w (Nat.lt_succ_self w)).symm]
    exact ih fun i below => other i (Nat.lt_succ_of_lt below)

/-- A claimed cell of a single word gets its desired value. -/
theorem setLoop_of_claimed (below : i < w) (marked : d (words.target i) = marker)
    (single : ∀ j < w, words.target j = words.target i → j = i) :
    setLoop words marker d w (words.target i) = words.desired i := by
  induction w with
  | zero => cases below
  | succ w ih =>
    rw [setLoop]
    rcases Nat.lt_succ_iff_lt_or_eq.mp below with earlier | rfl
    · have other : words.target i ≠ words.target w := fun same =>
        absurd (single w (Nat.lt_succ_self w) same.symm) (Nat.ne_of_gt earlier)
      rw [unmark_of_other other]
      exact ih earlier fun j inside => single j (Nat.lt_succ_of_lt inside)
    · apply unmark_self
      rw [setLoop_of_other fun j inside same =>
        absurd (single j (Nat.lt_succ_of_lt inside) same) (Nat.ne_of_lt inside)]
      exact marked

/-! ### Distinct addresses -/

section Distinct

variable {result : Except Error Unit} {after : ℕ → ℕ}
  (real : ∀ w < numWords, c (words.target w) ≠ marker)
  (distinct : ∀ i < numWords, ∀ j < numWords, words.target i = words.target j → i = j)

include real distinct

/-- With distinct addresses, and a marker that no target holds, `claim` passes the
words that expect what their targets hold. -/
theorem passes_iff_expected (inRange : w < numWords) :
    Passes words marker c w ↔ c (words.target w) = words.expected w := by
  rw [passes_iff]
  constructor
  · rintro (matching | marked | ⟨i, below, same⟩)
    · exact matching
    · exact absurd marked (real w inRange)
    · exact absurd (distinct i (Nat.lt_trans below inRange) w inRange same) (Nat.ne_of_lt below)
  · exact .inl

/-- A call whose words all expect what their targets hold writes all of them. -/
theorem CallOutcome.matching (outcome : CallOutcome words marker c result after)
    (matching : ∀ w < numWords, c (words.target w) = words.expected w) :
    result = .ok () ∧ ∀ w < numWords, after (words.target w) = words.desired w := by
  cases outcome with
  | succeeds passed =>
    refine ⟨rfl, fun w inRange => ?_⟩
    exact setLoop_of_claimed inRange (claimLoop_of_claimed inRange) fun j inRange' same =>
      distinct j inRange' w inRange same
  | @fails f below passed stops =>
    exact absurd ((passes_iff_expected real distinct below).mpr (matching f below)) stops

/-- A call with any other word changes nothing. -/
theorem CallOutcome.mismatch (outcome : CallOutcome words marker c result after)
    (mismatch : ∃ w < numWords, c (words.target w) ≠ words.expected w) :
    result = .error .valueWasNotExpectedValue ∧ after = c := by
  cases outcome with
  | succeeds passed =>
    obtain ⟨w, inRange, other⟩ := mismatch
    exact absurd ((passes_iff_expected real distinct inRange).mp (passed w inRange)) other
  | @fails f below passed stops =>
    refine ⟨rfl, (reverted_iff passed stops).mpr fun w earlier _ => ?_⟩
    exact (passes_iff_expected real distinct (Nat.lt_trans earlier below)).mp (passed w earlier)

/-- No call changes another cell. -/
theorem CallOutcome.other (outcome : CallOutcome words marker c result after)
    (other : ∀ w < numWords, words.target w ≠ address) : after address = c address := by
  by_cases matching : ∀ w < numWords, c (words.target w) = words.expected w
  · cases outcome with
    | succeeds passed => rw [setLoop_of_other other, claimLoop_of_free other]
    | @fails f below passed stops =>
      exact absurd ((passes_iff_expected real distinct below).mpr (matching f below)) stops
  · have mismatch : ∃ w < numWords, c (words.target w) ≠ words.expected w := by
      simpa using matching
    rw [(outcome.mismatch real distinct mismatch).2]

end Distinct

end KCas
