import Mathlib.Algebra.Group.Nat.Defs
import Mathlib.Data.Nat.Size

/-! Two fields in one machine word: a high field shifted over `k` low bits of a
word of `w` bits, and the masks that take the fields apart again. -/
namespace Packing

variable {w k b high low : ℕ}

/-- Shifting the high field into place and or-ing the low one is arithmetic:
the fields do not overlap and nothing leaves the word. -/
theorem or_eq_add (fits : high < 2 ^ (w - k)) (within : k ≤ w) (small : low < 2 ^ k) :
    (high <<< k) % 2 ^ w ||| low = high * 2 ^ k + low := by
  have room : high <<< k < 2 ^ w := by
    rw [Nat.shiftLeft_eq]
    calc high * 2 ^ k < 2 ^ (w - k) * 2 ^ k := Nat.mul_lt_mul_of_pos_right fits (Nat.two_pow_pos _)
      _ = 2 ^ w := by rw [← Nat.pow_add, Nat.sub_add_cancel within]
  rw [Nat.mod_eq_of_lt room, ← Nat.shiftLeft_add_eq_or_of_lt small, Nat.shiftLeft_eq]

theorem high_of_packed (small : low < 2 ^ k) : (high * 2 ^ k + low) >>> k = high := by
  rw [Nat.shiftRight_eq_div_pow, Nat.mul_comm, Nat.mul_add_div (Nat.two_pow_pos _),
    Nat.div_eq_of_lt small, Nat.add_zero]

theorem low_of_packed (small : low < 2 ^ k) : (high * 2 ^ k + low) &&& (2 ^ k - 1) = low := by
  rw [Nat.and_two_pow_sub_one_eq_mod, Nat.mul_comm, Nat.mul_add_mod, Nat.mod_eq_of_lt small]

/-- Different pairs of fields give different words. -/
theorem packed_inj {high' low' : ℕ} (small : low < 2 ^ k) (small' : low' < 2 ^ k)
    (same : high * 2 ^ k + low = high' * 2 ^ k + low') : high = high' ∧ low = low' := by
  constructor
  · exact (high_of_packed small).symm.trans (same ▸ high_of_packed small')
  · exact (low_of_packed small).symm.trans (same ▸ low_of_packed small')

/-- The complement of ones over the high field leaves the ones of the low field.
Ones that are shifted out of the word make no difference. -/
theorem complement_high_ones (within : k ≤ w) (wide : w ≤ b + k) :
    2 ^ w - 1 - ((2 ^ b - 1) <<< k) % 2 ^ w = 2 ^ k - 1 := by
  have split : 2 ^ (b + k) = 2 ^ w * 2 ^ (b + k - w) := by
    rw [← Nat.pow_add, Nat.add_sub_cancel' wide]
  have le : 2 ^ k ≤ 2 ^ w := Nat.pow_le_pow_right (by omega) within
  have pos : 0 < 2 ^ k := Nat.two_pow_pos _
  have shifted : (2 ^ b - 1) <<< k = 2 ^ w * (2 ^ (b + k - w) - 1) + (2 ^ w - 2 ^ k) := by
    have enough : 2 ^ w ≤ 2 ^ w * 2 ^ (b + k - w) := Nat.le_mul_of_pos_right _ (Nat.two_pow_pos _)
    rw [Nat.shiftLeft_eq, Nat.sub_mul, Nat.one_mul, ← Nat.pow_add, split, Nat.mul_sub, Nat.mul_one]
    omega
  rw [shifted, Nat.mul_add_mod, Nat.mod_eq_of_lt (by omega)]
  omega

/-- Ones shifted down keep only as many ones as remain in the word. -/
theorem ones_shiftRight (within : b ≤ w) : (2 ^ w - 1) >>> (w - b) = 2 ^ b - 1 := by
  have split : 2 ^ w = 2 ^ b * 2 ^ (w - b) := by rw [← Nat.pow_add, Nat.add_sub_cancel' within]
  have posB : 0 < 2 ^ b := Nat.two_pow_pos _
  have pos : 0 < 2 ^ (w - b) := Nat.two_pow_pos _
  rw [Nat.shiftRight_eq_div_pow, split]
  have shape : 2 ^ b * 2 ^ (w - b) - 1 = (2 ^ (w - b)) * (2 ^ b - 1) + (2 ^ (w - b) - 1) := by
    rw [Nat.mul_sub, Nat.mul_one, Nat.mul_comm (2 ^ (w - b))]
    have le : 2 ^ (w - b) ≤ 2 ^ b * 2 ^ (w - b) := Nat.le_mul_of_pos_left _ posB
    omega
  rw [shape, Nat.mul_add_div pos, Nat.div_eq_of_lt (by omega), Nat.add_zero]

end Packing
