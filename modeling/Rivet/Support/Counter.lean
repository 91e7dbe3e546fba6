import Mathlib

/-!
# Free-running counters

A counter that only grows is stored in a word of `w` bits and so wraps around.
Differences of two such counters are exact as long as the true difference fits
the word, and the position in a table whose size is a power of two is the
counter's low bits.
-/

namespace Counter

open BitVec

variable {w : ℕ}

theorem toNat_sub {a b : ℕ} (hle : b ≤ a) (hlt : a - b < 2 ^ w) :
    (BitVec.ofNat w a - BitVec.ofNat w b).toNat = a - b := by
  have hadd : BitVec.ofNat w a = BitVec.ofNat w b + BitVec.ofNat w (a - b) := by
    rw [← ofNat_add, Nat.add_sub_cancel' hle]
  rw [hadd, add_comm, add_sub_cancel, toNat_ofNat, Nat.mod_eq_of_lt hlt]

theorem toInt_sub {a b : ℕ} (hlow : b ≤ a + 2 ^ w) (hhigh : a < b + 2 ^ w) :
    (BitVec.ofNat (w + 1) a - BitVec.ofNat (w + 1) b).toInt = a - b := by
  have hofNat : ∀ n : ℕ, (BitVec.ofNat (w + 1) n).toInt = (n : ℤ).bmod (2 ^ (w + 1)) := by
    intro n
    rw [toInt_eq_toNat_bmod, toNat_ofNat, Int.natCast_emod, Int.emod_bmod]
  rw [BitVec.toInt_sub, hofNat, hofNat, Int.sub_bmod_bmod, Int.bmod_sub_bmod, Nat.pow_succ]
  apply Int.bmod_eq_of_le
  · omega
  · omega

theorem ofNat_inj {a b : ℕ} (hle : b ≤ a) (hlt : a - b < 2 ^ w) :
    BitVec.ofNat w a = BitVec.ofNat w b ↔ a = b := by
  constructor
  · intro h
    have hsub := toNat_sub hle hlt
    rw [h, BitVec.sub_self, BitVec.toNat_zero] at hsub
    omega
  · rintro rfl
    rfl

theorem toNat_and_mask {mask : BitVec w} {k : ℕ} (hk : k ≤ w) (hmask : mask.toNat = 2 ^ k - 1)
    (n : ℕ) : (BitVec.ofNat w n &&& mask).toNat = n % 2 ^ k := by
  rw [toNat_and, hmask, Nat.and_two_pow_sub_one_eq_mod, toNat_ofNat,
    Nat.mod_mod_of_dvd n (Nat.pow_dvd_pow 2 hk)]

theorem mod_ne_mod {i j m : ℕ} (hlt : i < j) (hgap : j < i + m) : i % m ≠ j % m := by
  intro h
  have hmod := Nat.sub_mod_eq_zero_of_mod_eq h.symm
  have hdvd := Nat.le_of_dvd (by omega) (Nat.dvd_of_mod_eq_zero hmod)
  omega

theorem exists_eq_two_pow {n : ℕ} (hpos : n ≠ 0) (h : n &&& (n - 1) = 0) : ∃ k, n = 2 ^ k := by
  have hlo : 2 ^ n.log2 ≤ n := Nat.log2_self_le hpos
  have hhi : n < 2 ^ (n.log2 + 1) := Nat.lt_log2_self
  refine ⟨n.log2, ?_⟩
  by_contra hne
  -- otherwise the leading bit of `n` is also set in `n - 1`
  have hbit : n.testBit n.log2 = true :=
    Nat.testBit_of_two_pow_le_and_two_pow_add_one_gt hlo hhi
  have hbit' : (n - 1).testBit n.log2 = true :=
    Nat.testBit_of_two_pow_le_and_two_pow_add_one_gt (by omega) (by omega)
  have hand : (n &&& (n - 1)).testBit n.log2 = true := by
    rw [Nat.testBit_and, hbit, hbit']
    rfl
  rw [h, Nat.zero_testBit] at hand
  cases hand

end Counter
