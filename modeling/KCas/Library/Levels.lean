import Mathlib.Data.Finset.Card
import Mathlib.Logic.Function.Basic

/-! Members that climb levels one after another. A member comes in at level 0, and goes up
from a level only past another one that stays there. So each level up there is room for
one less, whatever the members that leave and come back do in between. -/
namespace Levels

variable {ι : Type} {k i j : ℕ} {level : ι → Option ℕ} {c d : ι}

/-- The member is at level `j` or above. -/
def AtLeast (level : ι → Option ℕ) (j : ℕ) (c : ι) : Prop := ∃ i, level c = some i ∧ j ≤ i

/-- No more than `k` members are in. -/
def AtMost (k : ℕ) (level : ι → Option ℕ) : Prop :=
  ∀ members : Finset ι, (∀ c ∈ members, (level c).isSome) → members.card ≤ k

/-- No more than `k - j` members are at level `j` or above. -/
def Staggered (k : ℕ) (level : ι → Option ℕ) : Prop :=
  ∀ j, ∀ members : Finset ι, (∀ c ∈ members, AtLeast level j c) → members.card ≤ k - j

theorem staggered_of_none (outside : ∀ c, level c = none) : Staggered k level := by
  intro j members above
  have empty : members = ∅ := by
    refine Finset.eq_empty_of_forall_notMem fun c member => ?_
    obtain ⟨i, inside, -⟩ := above c member
    rw [outside c] at inside
    cases inside
  simp [empty]

/-- A member is below level `k`. -/
theorem Staggered.lt (staggered : Staggered k level) (inside : level c = some i) : i < k := by
  have one := staggered i {c} (by simpa using ⟨i, inside, Nat.le_refl i⟩)
  rw [Finset.card_singleton] at one
  omega

/-- Of the members with one level none is at the highest. -/
theorem Staggered.succ_lt (staggered : Staggered k level) (inside : level c = some i)
    (other : level d = some i) (apart : d ≠ c) : i + 1 < k := by
  classical
  have two := staggered i {d, c} (by
    simp only [Finset.mem_insert, Finset.mem_singleton, forall_eq_or_imp, forall_eq]
    exact ⟨⟨i, other, Nat.le_refl i⟩, i, inside, Nat.le_refl i⟩)
  rw [Finset.card_pair apart] at two
  omega

section Update

variable [DecidableEq ι]

theorem atLeast_update_of_ne {new : Option ℕ} (other : d ≠ c) :
    AtLeast (Function.update level c new) j d ↔ AtLeast level j d := by
  simp only [AtLeast, Function.update_of_ne other]

/-- A member that leaves, or stays where it was. -/
theorem Staggered.update {new : Option ℕ} (staggered : Staggered k level)
    (same : new = none ∨ new = level c) : Staggered k (Function.update level c new) := by
  intro j members above
  refine staggered j members fun d member => ?_
  by_cases own : d = c
  · subst own
    obtain ⟨i, inside, le⟩ := above d member
    rw [Function.update_self] at inside
    subst inside
    exact ⟨i, (same.resolve_left (by simp)).symm, le⟩
  · exact (atLeast_update_of_ne own).mp (above d member)

/-- A member that comes in. -/
theorem Staggered.enter (staggered : Staggered k level)
    (room : AtMost k (Function.update level c (some 0))) :
    Staggered k (Function.update level c (some 0)) := by
  intro j members above
  cases j with
  | zero =>
    refine room members fun d member => ?_
    obtain ⟨i, inside, -⟩ := above d member
    rw [inside]
    rfl
  | succ j =>
    refine staggered (j + 1) members fun d member => ?_
    have own : d ≠ c := by
      rintro rfl
      obtain ⟨i, inside, le⟩ := above d member
      rw [Function.update_self] at inside
      cases inside
      omega
    exact (atLeast_update_of_ne own).mp (above d member)

/-- A member goes up past another one, which is not at the next level. -/
theorem Staggered.climb (staggered : Staggered k level) (before : level c = some i)
    (past : level d = some i) (apart : d ≠ c) :
    Staggered k (Function.update level c (some (i + 1))) := by
  intro j members above
  by_cases climbed : c ∈ members ∧ j = i + 1
  · obtain ⟨member, rfl⟩ := climbed
    have fresh : d ∉ members := by
      intro inside
      obtain ⟨l, at_, le⟩ := (atLeast_update_of_ne apart).mp (above d inside)
      rw [past] at at_
      cases at_
      omega
    have more := staggered i (insert d members) (by
      rw [Finset.forall_mem_insert]
      refine ⟨⟨i, past, Nat.le_refl i⟩, fun e inside => ?_⟩
      by_cases own : e = c
      · subst own
        exact ⟨i, before, Nat.le_refl i⟩
      · obtain ⟨l, at_, le⟩ := (atLeast_update_of_ne own).mp (above e inside)
        exact ⟨l, at_, by omega⟩)
    rw [Finset.card_insert_of_notMem fresh] at more
    omega
  · refine staggered j members fun e member => ?_
    by_cases own : e = c
    · subst own
      obtain ⟨l, at_, le⟩ := above e member
      rw [Function.update_self] at at_
      cases at_
      have below : j ≤ i := by
        rcases Nat.lt_or_eq_of_le le with less | same
        · exact Nat.le_of_lt_succ less
        · exact absurd ⟨member, same⟩ climbed
      exact ⟨i, before, below⟩
    · exact (atLeast_update_of_ne own).mp (above e member)

end Update

end Levels
