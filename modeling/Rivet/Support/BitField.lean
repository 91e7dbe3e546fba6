import Mathlib.Data.Nat.Bitwise
import Mathlib.Tactic.Ring

/-!
# Words assembled from bit fields

A word is described by the list of its fields, least significant field first,
each field being a width and a value.  `pack` is the number such a list
denotes and `extract` reads a range of bits back.  The shift-and-or
expressions with which programs build words are related to `pack` field by
field, so that reading a field back is a rewriting step and never an argument
about single bits.
-/

namespace BitField

variable {k lo n w : ℕ} {fields : List (ℕ × ℕ)}

/-- The number whose fields, from the least significant end, are `fields`. -/
def pack : List (ℕ × ℕ) → ℕ
  | [] => 0
  | (w, v) :: fields => v % 2 ^ w + 2 ^ w * pack fields

def width (fields : List (ℕ × ℕ)) : ℕ := (fields.map Prod.fst).sum

/-- The `w` bits of `n` that start at bit `lo`. -/
def extract (lo w n : ℕ) : ℕ := n / 2 ^ lo % 2 ^ w

@[simp] theorem width_nil : width [] = 0 := rfl

@[simp] theorem width_cons (w v : ℕ) (fields : List (ℕ × ℕ)) :
    width ((w, v) :: fields) = w + width fields := by simp [width]

theorem pack_lt (fields : List (ℕ × ℕ)) : pack fields < 2 ^ width fields := by
  induction fields with
  | nil => simp [pack]
  | cons field fields ih =>
    obtain ⟨w, v⟩ := field
    calc
      pack ((w, v) :: fields) = v % 2 ^ w + 2 ^ w * pack fields := rfl
      _ < 2 ^ w * (pack fields + 1) := by
        rw [Nat.mul_add, Nat.mul_one]
        omega
      _ ≤ 2 ^ w * 2 ^ width fields := Nat.mul_le_mul_left _ ih
      _ = 2 ^ width ((w, v) :: fields) := by rw [width_cons, pow_add]

theorem pack_append (fields rest : List (ℕ × ℕ)) :
    pack (fields ++ rest) = pack fields + 2 ^ width fields * pack rest := by
  induction fields with
  | nil => simp [pack]
  | cons field fields ih =>
    grind [pack, width_cons, pow_add]

variable {m v : ℕ} {x y : BitVec n}

theorem pack_singleton (hv : v < 2 ^ w) : pack [(w, v)] = v := by simp [pack, Nat.mod_eq_of_lt hv]

theorem shiftLeft_or_pack (hk : width fields = k) (hv : v < 2 ^ w) :
    v <<< k ||| pack fields = pack (fields ++ [(w, v)]) := by
  have hlt : pack fields < 2 ^ k := hk ▸ pack_lt fields
  rw [← Nat.shiftLeft_add_eq_or_of_lt hlt, pack_append, pack_singleton hv, hk, Nat.shiftLeft_eq]
  ring

@[simp] theorem extract_pack_zero (w v : ℕ) (fields : List (ℕ × ℕ)) :
    extract 0 w (pack ((w, v) :: fields)) = v % 2 ^ w := by simp [extract, pack]

theorem extract_pack_cons (v n : ℕ) (fields : List (ℕ × ℕ)) (h : w ≤ lo) :
    extract lo n (pack ((w, v) :: fields)) = extract (lo - w) n (pack fields) := by
  have hpow : 2 ^ lo = 2 ^ w * 2 ^ (lo - w) := by
    rw [← pow_add, Nat.add_sub_cancel' h]
  have hdiv : pack ((w, v) :: fields) / 2 ^ w = pack fields := by
    simp [pack, Nat.add_mul_div_left]
  rw [extract, extract, hpow, ← Nat.div_div_eq_div_mul, hdiv]

theorem extract_at (i : ℕ) (hm : m = pack fields) (hi : fields[i]? = some (w, v))
    (hlo : width (fields.take i) = lo) (hv : v < 2 ^ w) : extract lo w m = v := by
  subst hm hlo
  induction fields generalizing i with
  | nil => cases hi
  | cons field fields ih =>
    cases i with
    | zero =>
      cases hi
      exact (extract_pack_zero ..).trans (Nat.mod_eq_of_lt hv)
    | succ i => grind [width_cons, extract_pack_cons, Nat.add_sub_cancel_left]

theorem extract_lt (lo w n : ℕ) : extract lo w n < 2 ^ w :=
  Nat.mod_lt _ (Nat.two_pow_pos _)

theorem extract_mod (hm : 2 ^ w = m) : extract lo w n % m = extract lo w n :=
  Nat.mod_eq_of_lt (hm ▸ extract_lt lo w n)

/-- The fields of the given widths that follow each other in `n` from bit `lo` on. -/
def split (n : ℕ) : ℕ → List ℕ → List (ℕ × ℕ)
  | _, [] => []
  | lo, w :: ws => (w, extract lo w n) :: split n (lo + w) ws

theorem pack_split (n lo : ℕ) (ws : List ℕ) : pack (split n lo ws) = extract lo ws.sum n := by
  induction ws generalizing lo with
  | nil => simp [split, pack, extract, Nat.mod_one]
  | cons w ws ih =>
    simp_all [split, pack, extract, pow_add, Nat.mod_mul, Nat.div_div_eq_div_mul]

theorem pack_split_toNat (x : BitVec n) {s : List ℕ} (h : s.sum = n) :
    pack (split x.toNat 0 s) = x.toNat := by
  rw [pack_split, h, extract, pow_zero, Nat.div_one]
  exact Nat.mod_eq_of_lt x.isLt

theorem toNat_ushiftRight_and (x mask : BitVec n) (hmask : mask.toNat = 2 ^ w - 1) :
    ((x >>> k) &&& mask).toNat = extract k w x.toNat := by
  rw [BitVec.toNat_and, hmask, Nat.and_two_pow_sub_one_eq_mod,
    BitVec.toNat_ushiftRight, Nat.shiftRight_eq_div_pow, extract]

theorem toNat_and_ushiftRight_and (x m mask : BitVec n) (hm : (m >>> k) &&& mask = mask)
    (hmask : mask.toNat = 2 ^ w - 1) :
    (((x &&& m) >>> k) &&& mask).toNat = extract k w x.toNat := by
  rw [BitVec.ushiftRight_and_distrib, BitVec.and_assoc, hm]
  exact toNat_ushiftRight_and x mask hmask

theorem toNat_ushiftRight_top (x : BitVec n) (h : lo + w = n) :
    (x >>> lo).toNat = extract lo w x.toNat := by
  rw [BitVec.toNat_ushiftRight, Nat.shiftRight_eq_div_pow, extract, Nat.mod_eq_of_lt]
  rw [Nat.div_lt_iff_lt_mul (Nat.two_pow_pos lo), ← pow_add, Nat.add_comm, h]
  exact x.isLt

theorem toNat_and_mask (x mask : BitVec n) (hmask : mask.toNat = 2 ^ w - 1) :
    (x &&& mask).toNat = x.toNat % 2 ^ w := by simp_all

theorem toNat_shiftLeft_of_lt (x : BitVec n) (hx : x.toNat < 2 ^ w) (hwk : w + k ≤ n) :
    (x <<< k).toNat = x.toNat <<< k := by
  rw [BitVec.toNat_shiftLeft, Nat.mod_eq_of_lt]
  rw [Nat.shiftLeft_eq]
  calc
    x.toNat * 2 ^ k < 2 ^ w * 2 ^ k := Nat.mul_lt_mul_of_pos_right hx (Nat.two_pow_pos _)
    _ = 2 ^ (w + k) := by rw [pow_add]
    _ ≤ 2 ^ n := Nat.pow_le_pow_right (by decide) hwk

theorem toNat_shiftLeft_or (hx : x.toNat = v) (hv : v < 2 ^ w) (hy : y.toNat = pack fields)
    (hk : width fields = k) (hwk : w + k ≤ n) :
    (x <<< k ||| y).toNat = pack (fields ++ [(w, v)]) := by
  grind [BitVec.toNat_or, toNat_shiftLeft_of_lt, shiftLeft_or_pack]

theorem toNat_or_shiftLeft (hx : x.toNat = v) (hv : v < 2 ^ w) (hy : y.toNat = pack fields)
    (hk : width fields = k) (hwk : w + k ≤ n) :
    (y ||| x <<< k).toNat = pack (fields ++ [(w, v)]) := by
  rw [BitVec.or_comm]
  exact toNat_shiftLeft_or hx hv hy hk hwk

theorem toNat_shiftLeft_eq_pack (hx : x.toNat = v) (hv : v < 2 ^ w) (hwk : w + k ≤ n) :
    (x <<< k).toNat = pack [(k, 0), (w, v)] := by
  grind [toNat_shiftLeft_of_lt, Nat.shiftLeft_eq, pack, Nat.mod_eq_of_lt, Nat.mul_comm]

/-! ## Sign bits -/

theorem xor_two_pow (hn : n < 2 ^ (k + 1)) :
    n ^^^ 2 ^ k = if n < 2 ^ k then n + 2 ^ k else n - 2 ^ k := by
  have hset : ∀ m < 2 ^ k, m ^^^ 2 ^ k = m + 2 ^ k := by
    intro m hm
    apply Nat.eq_of_testBit_eq
    intro i
    rw [Nat.testBit_xor, Nat.testBit_two_pow, Nat.add_comm m]
    rcases Nat.lt_trichotomy i k with hik | rfl | hki
    · rw [Nat.testBit_two_pow_add_gt hik]
      simp [Nat.ne_of_gt hik]
    · rw [Nat.testBit_two_pow_add_eq, Nat.testBit_lt_two_pow hm]
      simp
    have hmi : m < 2 ^ i := Nat.lt_trans hm (Nat.pow_lt_pow_right (by decide) hki)
    have hsum : 2 ^ k + m < 2 ^ i := by
      have hle : 2 ^ (k + 1) ≤ 2 ^ i := Nat.pow_le_pow_right (by decide) hki
      omega
    simp_all [Nat.testBit_lt_two_pow, Nat.ne_of_lt]
  split
  · next hlt => exact hset n hlt
  next hge =>
  have hlt : n - 2 ^ k < 2 ^ k := by
    omega
  have hn' : n = (n - 2 ^ k) ^^^ 2 ^ k := by
    rw [hset _ hlt]
    omega
  calc
    n ^^^ 2 ^ k = ((n - 2 ^ k) ^^^ 2 ^ k) ^^^ 2 ^ k := by rw [← hn']
    _ = n - 2 ^ k := by rw [Nat.xor_assoc, Nat.xor_self, Nat.xor_zero]

end BitField
