import Mathlib

/-!
# Rounding up to a power of two

The mask idiom `(x + a - 1) & ~(a - 1)` on words of `w` bits rounds up to a multiple of
`a`, modulo `2 ^ w`.
-/

namespace AlignUp

open BitVec

/-- The least multiple of `a` that is not below `n`. -/
def alignUp (n a : ℕ) : ℕ := (n + a - 1) / a * a

section Nat

variable {n m a : ℕ}

theorem dvd_alignUp (n a : ℕ) : a ∣ alignUp n a := Nat.dvd_mul_left a _

theorem le_alignUp (ha : 0 < a) : n ≤ alignUp n a := by
  have hdiv := Nat.div_add_mod (n + a - 1) a
  have hmod := Nat.mod_lt (n + a - 1) ha
  rw [alignUp, Nat.mul_comm]
  omega

theorem alignUp_lt (ha : 0 < a) : alignUp n a < n + a := by
  have hdiv := Nat.div_add_mod (n + a - 1) a
  rw [alignUp, Nat.mul_comm]
  omega

theorem alignUp_le (ha : 0 < a) (hnm : n ≤ m) (hm : a ∣ m) : alignUp n a ≤ m := by
  obtain ⟨c, rfl⟩ := hm
  obtain ⟨d, hd⟩ := dvd_alignUp n a
  have hlt := alignUp_lt (n := n) ha
  rw [hd] at hlt ⊢
  refine Nat.mul_le_mul_left a (Nat.le_of_lt_succ ?_)
  by_contra hno
  have hle : a * (c + 1) ≤ a * d := Nat.mul_le_mul_left a (Nat.le_of_not_lt hno)
  rw [Nat.mul_succ] at hle
  omega

end Nat

section BitVec

variable {w k : ℕ}

theorem toNat_twoPow_sub_one (hk : k < w) : (BitVec.twoPow w k - 1).toNat = 2 ^ k - 1 := by
  have hpow : (BitVec.twoPow w k).toNat = 2 ^ k := by
    rw [toNat_twoPow, Nat.mod_eq_of_lt (Nat.pow_lt_pow_right (by decide) hk)]
  have hone : (1 : BitVec w).toNat = 1 := by
    rw [show (1 : BitVec w) = BitVec.ofNat w 1 from rfl, toNat_ofNat,
      Nat.mod_eq_of_lt (Nat.one_lt_two_pow (by omega))]
  rw [toNat_sub_of_le, hpow, hone]
  rw [le_def, hpow, hone]
  exact Nat.one_le_two_pow

theorem toNat_and_not_mask (hk : k < w) (x : BitVec w) :
    (x &&& ~~~(BitVec.twoPow w k - 1)).toNat = x.toNat / 2 ^ k * 2 ^ k := by
  refine Nat.eq_of_testBit_eq fun i => ?_
  rw [Nat.testBit_mul_two_pow, Nat.testBit_div_two_pow, testBit_toNat, getLsbD_and,
    getLsbD_not, ← testBit_toNat (BitVec.twoPow w k - 1), toNat_twoPow_sub_one hk,
    Nat.testBit_two_pow_sub_one]
  by_cases hik : i < k
  · simp [hik]
  · by_cases hiw : i < w
    all_goals simp_all [testBit_toNat, getLsbD_of_ge, Bool.false_and]

theorem toNat_alignUp (hk : k < w) (x : BitVec w) :
    ((x + BitVec.twoPow w k - 1) &&& ~~~(BitVec.twoPow w k - 1)).toNat =
      alignUp x.toNat (2 ^ k) % 2 ^ w := by
  have hsum : x + BitVec.twoPow w k - 1 = x + (BitVec.twoPow w k - 1) := by
    rw [add_sub_assoc]
  have hsub : x.toNat + 2 ^ k - 1 = x.toNat + (2 ^ k - 1) :=
    Nat.add_sub_assoc Nat.one_le_two_pow x.toNat
  have hpow : 2 ^ w = 2 ^ k * 2 ^ (w - k) := by
    rw [← Nat.pow_add, Nat.add_sub_cancel' hk.le]
  rw [toNat_and_not_mask hk, hsum, toNat_add, toNat_twoPow_sub_one hk, alignUp, hsub, hpow,
    Nat.mod_mul_right_div_self, Nat.mul_comm (2 ^ k), Nat.mul_mod_mul_right]

end BitVec

end AlignUp
