import Mathlib.Data.Nat.Find

/-! Which elements of a list, and which numbers below a bound, have a property: the first
one, the last one, and where a property that is closed downwards ends. -/
namespace Search

open Classical in
/-- The first of the elements with a property. -/
theorem exists_first_member {α : Type} {holds : α → Prop} {list : List α}
    (some : ∃ a ∈ list, holds a) :
    ∃ front a back, list = front ++ a :: back ∧ holds a ∧ ∀ b ∈ front, ¬ holds b := by
  obtain ⟨a, found⟩ : ∃ a, list.find? (fun a => decide (holds a)) = Option.some a := by
    rw [← Option.isSome_iff_exists, List.find?_isSome]
    simpa using some
  obtain ⟨held, front, back, split, none⟩ := List.find?_eq_some_iff_append.mp found
  exact ⟨front, a, back, split, by simpa using held, by simpa using none⟩

/-- The last of them is the first one from the other end. -/
theorem exists_last_member {α : Type} {holds : α → Prop} {list : List α}
    (some : ∃ a ∈ list, holds a) :
    ∃ front a back, list = front ++ a :: back ∧ holds a ∧ ∀ b ∈ back, ¬ holds b := by
  have reversed : ∃ a ∈ list.reverse, holds a := by simpa using some
  obtain ⟨back, a, front, split, held, first⟩ := exists_first_member reversed
  refine ⟨front.reverse, a, back.reverse, ?_, held, by simpa using first⟩
  calc list = (back ++ a :: front).reverse := List.reverse_eq_iff.mp split
    _ = front.reverse ++ a :: back.reverse := by simp

section Below

variable {holds : ℕ → Prop} {bound : ℕ}

open Classical in
/-- The last of the numbers below a bound with a property. -/
theorem exists_last_below (some : ∃ w < bound, holds w) :
    ∃ w < bound, holds w ∧ ∀ j, w < j → j < bound → ¬ holds j := by
  obtain ⟨w, below, held⟩ := some
  have found := Nat.findGreatest_spec (P := fun j => j < bound ∧ holds j) (Nat.le_of_lt below)
    ⟨below, held⟩
  refine ⟨_, found.1, found.2, fun j above inside held' => ?_⟩
  exact Nat.findGreatest_is_greatest above (Nat.le_of_lt inside) ⟨inside, held'⟩

/-- A property of the numbers below a bound that is closed downwards holds of a prefix
of them. -/
theorem exists_boundary (closed : ∀ w < bound, holds w → ∀ i < w, holds i) :
    ∃ k ≤ bound, ∀ w < bound, holds w ↔ w < k := by
  classical
  by_cases all : ∀ w < bound, holds w
  · exact ⟨bound, Nat.le_refl _, fun w below => ⟨fun _ => below, fun _ => all w below⟩⟩
  · push Not at all
    obtain ⟨inRange, fails⟩ := Nat.find_spec all
    refine ⟨Nat.find all, Nat.le_of_lt inRange, fun w below => ⟨fun held => ?_, fun earlier => ?_⟩⟩
    · by_contra notBefore
      rcases Nat.eq_or_lt_of_le (Nat.le_of_not_lt notBefore) with same | further
      · exact fails (same ▸ held)
      · exact fails (closed w below held _ further)
    · by_contra unheld
      exact Nat.find_min all earlier ⟨below, unheld⟩

end Below

end Search
