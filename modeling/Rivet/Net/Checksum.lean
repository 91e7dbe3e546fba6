import Mathlib
import Rivet.Core

/-!
# The Internet checksum

`riv_ip_checksum` of `net.h` adds the 16-bit words of a buffer into 32 bits and folds
the carries back afterwards.  For a buffer of at most 65535 bytes no carry is lost, so
that the result is the complement of the one's-complement sum, and a buffer that
contains its own checksum sums up to zero.
-/

namespace OnesComplement

variable {w m : ℕ}

def add (a b : BitVec w) : BitVec w := if a.toNat + b.toNat < 2 ^ w then a + b else a + b + 1

def sum (ws : List (BitVec w)) : BitVec w := ws.foldl add 0

/-- The representative of a number modulo `m` that is 0 for 0 only. -/
def rep (m x : ℕ) : ℕ := if x = 0 then 0 else (x - 1) % m + 1

theorem rep_of_le {x : ℕ} (h : x ≤ m) : rep m x = x := by
  unfold rep
  split_ifs with hzero
  · exact hzero.symm
  · rw [Nat.mod_eq_of_lt (by omega)]
    omega

theorem rep_rep_add (m x y : ℕ) : rep m (rep m x + y) = rep m (x + y) := by
  by_cases hzero : x = 0
  · rw [hzero]
    rfl
  have hrep : rep m x = (x - 1) % m + 1 := if_neg hzero
  have hpos : x + y - 1 = x - 1 + y := by omega
  have hsum : (x - 1) % m + 1 + y - 1 = (x - 1) % m + y := by omega
  rw [hrep, rep, rep, if_neg (by omega), if_neg (by omega), hpos, hsum, Nat.mod_add_mod]

theorem rep_add_mul {x : ℕ} (hx : x ≠ 0) (m k : ℕ) : rep m (x + k * m) = rep m x := by
  have hpos : x + k * m - 1 = x - 1 + k * m := by omega
  rw [rep, rep, if_neg hx, if_neg (by omega), hpos, Nat.add_mul_mod_self_right]

theorem rep_le (m : ℕ) (hm : 0 < m) (x : ℕ) : rep m x ≤ m := by
  unfold rep
  split_ifs
  · exact Nat.zero_le m
  · exact Nat.mod_lt _ hm

theorem rep_add_complement (hm : 0 < m) (x : ℕ) : rep m (x + (m - rep m x)) = m := by
  have hle := rep_le m hm x
  rw [← rep_rep_add, Nat.add_sub_cancel' hle]
  exact rep_of_le le_rfl

theorem toNat_add (a b : BitVec w) : (add a b).toNat = rep (2 ^ w - 1) (a.toNat + b.toNat) := by
  unfold add
  split_ifs with hlt
  · rw [BitVec.toNat_add_of_lt hlt, rep_of_le (by omega)]
  have hcarry : a.toNat + b.toNat = a.toNat + b.toNat - (2 ^ w - 1) + 1 * (2 ^ w - 1) := by omega
  rw [hcarry, rep_add_mul (by omega), rep_of_le (by omega), BitVec.toNat_add, BitVec.toNat_add,
    show (1 : BitVec w).toNat = 1 % 2 ^ w from BitVec.toNat_ofNat .., ← Nat.add_mod,
    Nat.mod_eq_sub_mod (by omega), Nat.mod_eq_of_lt (by omega)]
  omega

theorem toNat_sum (ws : List (BitVec w)) :
    (sum ws).toNat = rep (2 ^ w - 1) (ws.map BitVec.toNat).sum := by
  have hfold : ∀ (ws : List (BitVec w)) (a : BitVec w), (ws.foldl add a).toNat =
      rep (2 ^ w - 1) (a.toNat + (ws.map BitVec.toNat).sum) := by
    intro ws
    induction ws with
    | nil =>
      intro a
      exact (rep_of_le (by simp; omega)).symm
    | cons b ws ih =>
      intro a
      rw [List.foldl_cons, ih, toNat_add, rep_rep_add, List.map_cons, List.sum_cons, Nat.add_assoc]
  rw [sum, hfold]
  simp

end OnesComplement

namespace Rivet.Net

open OnesComplement

/-- The loop that adds the words; the last byte of an odd number is added as it is. -/
def sumWords (sum : RivU32) : List RivU8 → RivU32
  | lo :: hi :: rest => sumWords (sum + (hi ++ lo).setWidth 32) rest
  | [last] => sum + last.setWidth 32
  | [] => sum

theorem shift_eq_zero_iff (sum : RivU32) : sum >>> 16 = 0 ↔ sum.toNat < 2 ^ 16 := by
  rw [← BitVec.toNat_inj, BitVec.toNat_ushiftRight, Nat.shiftRight_eq_div_pow]
  exact Nat.div_eq_zero_iff_lt (by decide)

theorem toNat_folded (sum : RivU32) :
    ((sum &&& 0xFFFF#32) + sum >>> 16).toNat = sum.toNat % 2 ^ 16 + sum.toNat / 2 ^ 16 := by
  have hlow : (sum &&& 0xFFFF#32).toNat = sum.toNat % 2 ^ 16 := by
    exact Nat.and_two_pow_sub_one_eq_mod _ 16
  rw [BitVec.toNat_add, hlow, BitVec.toNat_ushiftRight, Nat.shiftRight_eq_div_pow]
  exact Nat.mod_eq_of_lt (by omega)

def foldCarries (sum : RivU32) : RivU32 :=
  if sum >>> 16 = 0 then sum else foldCarries ((sum &&& 0xFFFF#32) + sum >>> 16)
termination_by sum.toNat
decreasing_by
  rename_i hcarry
  rw [shift_eq_zero_iff] at hcarry
  rw [toNat_folded]
  omega

/-- `riv_ip_checksum`, of all bytes of a buffer. -/
def rivIpChecksum (data : List RivU8) : RivU16 :=
  (~~~foldCarries (sumWords 0 data)).setWidth 16

/-- The 16-bit words of a buffer, low byte first; an odd number of bytes is padded with
zero. -/
def words : List RivU8 → List RivU16
  | lo :: hi :: rest => (hi ++ lo) :: words rest
  | [last] => [0#8 ++ last]
  | [] => []

def storeField (data : List RivU8) (k : ℕ) (v : RivU16) : List RivU8 :=
  (data.set k (v.setWidth 8)).set (k + 1) ((v >>> 8).setWidth 8)

def total (data : List RivU8) : ℕ := ((words data).map BitVec.toNat).sum

variable {data : List RivU8}

theorem toNat_foldCarries (sum : RivU32) :
    (foldCarries sum).toNat = rep (2 ^ 16 - 1) sum.toNat := by
  fun_induction foldCarries sum with
  | case1 sum hsmall =>
    have hlt := (shift_eq_zero_iff sum).mp hsmall
    exact (rep_of_le (by omega)).symm
  | case2 sum hcarry ih =>
    rw [shift_eq_zero_iff] at hcarry
    have hsum : sum.toNat =
        sum.toNat % 2 ^ 16 + sum.toNat / 2 ^ 16 + sum.toNat / 2 ^ 16 * (2 ^ 16 - 1) := by omega
    rw [ih, toNat_folded]
    conv_rhs => rw [hsum]
    exact (rep_add_mul (by omega) _ _).symm

theorem total_le (data : List RivU8) : total data ≤ (2 ^ 16 - 1) * ((data.length + 1) / 2) := by
  unfold total
  fun_induction words data with
  | case1 lo hi rest ih =>
    have hword := (hi ++ lo).isLt
    grind
  | case2 last =>
    simp only [List.map_cons, List.map_nil, List.sum_cons, List.sum_nil, List.length_cons]
    omega
  | case3 => exact Nat.zero_le _

theorem toNat_sumWords {sum : RivU32} (h : sum.toNat + total data < 2 ^ 32) :
    (sumWords sum data).toNat = sum.toNat + total data := by
  unfold total at *
  induction data using words.induct generalizing sum with
  | case1 lo hi rest ih =>
    simp only [words, List.map_cons, List.sum_cons] at *
    have hword : ((hi ++ lo).setWidth 32 : RivU32).toNat = (hi ++ lo).toNat :=
      BitVec.toNat_setWidth_of_le (by decide)
    have hadd : (sum + (hi ++ lo).setWidth 32).toNat = sum.toNat + (hi ++ lo).toNat := by
      rw [BitVec.toNat_add_of_lt (by omega), hword]
    rw [sumWords, ih (by omega), hadd, Nat.add_assoc]
  | case2 last =>
    simp only [words, List.map_cons, List.map_nil, List.sum_cons, List.sum_nil] at *
    have hlast : (last.setWidth 32 : RivU32).toNat = (0#8 ++ last).toNat := by
      rw [BitVec.toNat_setWidth_of_le (by decide), BitVec.toNat_append]
      simp
    rw [sumWords, BitVec.toNat_add_of_lt (by omega), hlast]
    rfl
  | case3 => simp [sumWords, words]

theorem toNat_rivIpChecksum (hlen : data.length ≤ 65535) :
    (rivIpChecksum data).toNat = 2 ^ 16 - 1 - rep (2 ^ 16 - 1) (total data) := by
  have htotal := total_le data
  have hzero : (0 : RivU32).toNat = 0 := rfl
  have hsum : (sumWords 0 data).toNat = total data := by
    rw [toNat_sumWords (by omega), hzero, Nat.zero_add]
  have hrep := rep_le (2 ^ 16 - 1) (by decide) (total data)
  rw [rivIpChecksum, BitVec.toNat_setWidth, BitVec.toNat_not, toNat_foldCarries, hsum]
  omega

theorem field_append (v : RivU16) : (v >>> 8).setWidth 8 ++ v.setWidth 8 = v := by grind

theorem total_storeField {k : ℕ} (heven : k % 2 = 0) (hlo : data[k]? = some 0)
    (hhi : data[k + 1]? = some 0) (v : RivU16) :
    total (storeField data k v) = total data + v.toNat := by
  unfold total storeField
  induction data using words.induct generalizing k with
  | case1 lo hi rest ih =>
    match k with
    | 0 =>
      simp only [List.getElem?_cons_zero, List.getElem?_cons_succ, Option.some.injEq] at hlo hhi
      subst hlo hhi
      simp [words, field_append, Nat.add_comm]
    | 1 => cases heven
    | k + 2 =>
      simp_all [words, Nat.add_assoc]
  | case2 last =>
    cases hhi
  | case3 => cases hlo

/-- The checksum is the complement of the one's-complement sum of the words, and a
buffer that has it in a field that was zero verifies. -/
theorem ip_checksum_verifies (hlen : data.length ≤ 65535) :
    rivIpChecksum data = ~~~sum (words data) ∧
      ∀ k, k % 2 = 0 → data[k]? = some 0 → data[k + 1]? = some 0 →
        rivIpChecksum (storeField data k (rivIpChecksum data)) = 0 := by
  have hcheck := toNat_rivIpChecksum hlen
  constructor
  · apply BitVec.eq_of_toNat_eq
    rw [hcheck, BitVec.toNat_not, toNat_sum]
    rfl
  · intro k heven hlo hhi
    have hlen' : (storeField data k (rivIpChecksum data)).length ≤ 65535 := by
      simpa [storeField] using hlen
    have hmod : rep (2 ^ 16 - 1) (total data + (rivIpChecksum data).toNat) = 2 ^ 16 - 1 := by
      rw [hcheck]
      exact rep_add_complement (by decide) _
    apply BitVec.eq_of_toNat_eq
    rw [toNat_rivIpChecksum hlen', total_storeField heven hlo hhi, hmod]
    rfl

/-- A field between two words, with a last byte that is padded. -/
theorem ip_checksum_verifies_odd : rivIpChecksum [0x45, 0x11, 0, 0, 0xFF] =
        ~~~sum (words [0x45, 0x11, 0, 0, 0xFF]) ∧
      rivIpChecksum (storeField [0x45, 0x11, 0, 0, 0xFF] 2
        (rivIpChecksum [0x45, 0x11, 0, 0, 0xFF])) = 0 := by
  obtain ⟨hsum, hstore⟩ := @ip_checksum_verifies [0x45, 0x11, 0, 0, 0xFF] (by decide)
  exact ⟨hsum, hstore 2 rfl rfl rfl⟩

end Rivet.Net
