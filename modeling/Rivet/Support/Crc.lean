import Mathlib
import Rivet.Support.BitField

/-!
# Reflected CRC registers

A CRC over bytes, least significant bit first, is a shift register of `w` bits
with a feedback polynomial.  A byte is added to the low end of the register,
which is then shifted eight times.  Since bits that lie above the shifted ones
only move down, adding several bytes one after the other is adding their
little-endian word at once.
-/

namespace Crc

open BitVec

variable {w : ℕ}

def shift (poly c : BitVec w) : BitVec w := (c >>> 1) ^^^ (poly &&& -(c &&& 1))

def shifts (poly : BitVec w) : ℕ → BitVec w → BitVec w
  | 0, c => c
  | n + 1, c => shifts poly n (shift poly c)

def feed (poly c : BitVec w) (b : BitVec 8) : BitVec w := shifts poly 8 (c ^^^ b.setWidth w)

def run (poly c : BitVec w) (bytes : List (BitVec 8)) : BitVec w := bytes.foldl (feed poly) c

def word (w : ℕ) : List (BitVec 8) → BitVec w
  | [] => 0
  | b :: bytes => b.setWidth w ^^^ (word w bytes <<< 8)

theorem run_append (poly c : BitVec w) (a b : List (BitVec 8)) :
    run poly c (a ++ b) = run poly (run poly c a) b :=
  List.foldl_append

theorem shifts_add (poly : BitVec w) (m n : ℕ) (c : BitVec w) :
    shifts poly (m + n) c = shifts poly n (shifts poly m c) := by
  induction m generalizing c with
  | zero => rw [Nat.zero_add, shifts]
  | succ m ih => rw [Nat.add_right_comm, shifts, shifts, ih]

theorem shift_xor {poly c y : BitVec w} (hy : y &&& 1 = 0) :
    shift poly (c ^^^ y) = shift poly c ^^^ (y >>> 1) := by
  have hlow : (c ^^^ y) &&& 1 = c &&& 1 := by
    apply BitVec.eq_of_getLsbD_eq
    intro i _
    have hbit : (y &&& 1).getLsbD i = false := by rw [hy]; exact getLsbD_zero
    rw [getLsbD_and] at hbit
    rw [getLsbD_and, getLsbD_and, getLsbD_xor, Bool.and_xor_distrib_right, hbit, Bool.xor_false]
  rw [shift, shift, hlow, ushiftRight_xor_distrib, xor_assoc, xor_assoc, BitVec.xor_comm (y >>> 1)]

theorem shiftLeft_succ_and_one (z : BitVec w) (n : ℕ) : (z <<< (n + 1)) &&& 1 = 0 := by
  ext i hi
  by_cases hlow : i = 0
  · simp [hlow]
  · simp [hlow]

theorem shiftLeft_succ_ushiftRight {z : BitVec w} {n : ℕ} (hz : z.toNat < 2 ^ (w - (n + 1)))
    (hn : n + 1 ≤ w) : (z <<< (n + 1)) >>> 1 = z <<< n := by
  apply eq_of_toNat_eq
  rw [toNat_ushiftRight, BitField.toNat_shiftLeft_of_lt z hz (by omega),
    BitField.toNat_shiftLeft_of_lt z hz (by omega), Nat.shiftRight_eq_div_pow,
    Nat.shiftLeft_eq, Nat.shiftLeft_eq, pow_succ, pow_one, ← mul_assoc,
    Nat.mul_div_cancel _ (by decide)]

theorem shifts_xor (poly c : BitVec w) {z : BitVec w} {n : ℕ} (hz : z.toNat < 2 ^ (w - n))
    (hn : n ≤ w) : shifts poly n (c ^^^ (z <<< n)) = shifts poly n c ^^^ z := by
  induction n generalizing c with
  | zero => rw [shiftLeft_zero, shifts, shifts]
  | succ n ih =>
    have hz' : z.toNat < 2 ^ (w - n) :=
      hz.trans_le (Nat.pow_le_pow_right (by decide) (by omega))
    rw [shifts, shifts, shift_xor (shiftLeft_succ_and_one z n), shiftLeft_succ_ushiftRight hz hn]
    exact ih (shift poly c) hz' (by omega)

theorem word_lt {bytes : List (BitVec 8)} (h : 8 * bytes.length ≤ w) :
    (word w bytes).toNat < 2 ^ (8 * bytes.length) := by
  induction bytes with
  | nil => exact Nat.two_pow_pos _
  | cons b bytes ih =>
    rw [List.length_cons] at h ⊢
    have hrest := ih (by omega)
    have hshift := BitField.toNat_shiftLeft_of_lt (k := 8) _ hrest (by omega)
    rw [word, toNat_xor, hshift, Nat.shiftLeft_eq]
    refine Nat.xor_lt_two_pow ?_ ?_
    · calc (b.setWidth w).toNat ≤ b.toNat := by
            rw [toNat_setWidth]
            exact Nat.mod_le _ _
        _ < 2 ^ 8 := b.isLt
        _ ≤ 2 ^ (8 * (bytes.length + 1)) := Nat.pow_le_pow_right (by decide) (by omega)
    · calc (word w bytes).toNat * 2 ^ 8 < 2 ^ (8 * bytes.length) * 2 ^ 8 :=
            Nat.mul_lt_mul_of_pos_right hrest (by decide)
        _ = 2 ^ (8 * (bytes.length + 1)) := by rw [← pow_add, Nat.mul_succ]

theorem word_bytes (v : BitVec 32) :
    word 32 [v.setWidth 8, (v >>> 8).setWidth 8, (v >>> 16).setWidth 8,
      (v >>> 24).setWidth 8] = v := by
  ext i hi
  simp only [word, getElem_xor, getElem_shiftLeft, getElem_setWidth,
    getLsbD_setWidth, getLsbD_ushiftRight]
  grind

theorem run_eq_shifts (poly c : BitVec w) {bytes : List (BitVec 8)}
    (h : 8 * bytes.length ≤ w) :
    run poly c bytes = shifts poly (8 * bytes.length) (c ^^^ word w bytes) := by
  induction bytes generalizing c with
  | nil => rw [word, List.length_nil, Nat.mul_zero, shifts]; exact xor_zero.symm
  | cons b bytes ih =>
    rw [List.length_cons] at h
    have hlt : (word w bytes).toNat < 2 ^ (w - 8) :=
      (word_lt (by omega)).trans_le (Nat.pow_le_pow_right (by decide) (by omega))
    calc
      run poly c (b :: bytes) = run poly (feed poly c b) bytes := rfl
      _ = shifts poly (8 * bytes.length) (feed poly c b ^^^ word w bytes) :=
        ih (feed poly c b) (by omega)
      _ = shifts poly (8 * bytes.length)
            (shifts poly 8 (c ^^^ b.setWidth w ^^^ (word w bytes <<< 8))) := by
        rw [shifts_xor poly _ hlt (by omega), feed]
      _ = shifts poly (8 * (b :: bytes).length) (c ^^^ word w (b :: bytes)) := by
        rw [← shifts_add, List.length_cons, Nat.mul_succ, Nat.add_comm, xor_assoc, word]

theorem run_not (poly c : BitVec w) {bytes : List (BitVec 8)} (hlen : 8 * bytes.length = w)
    (hword : word w bytes = ~~~c) : run poly c bytes = shifts poly w (BitVec.allOnes w) := by
  have hones : c ^^^ ~~~c = BitVec.allOnes w := by
    ext i hi
    simp
  rw [run_eq_shifts poly c hlen.le, hword, hlen, hones]

end Crc
