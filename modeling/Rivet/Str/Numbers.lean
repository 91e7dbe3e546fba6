import Mathlib
import Rivet.Core
import Rivet.Support.CLib
import Rivet.Support.Exec

/-!
# Printed numbers

`riv_u64_to_str` of `str.h` stores the digits of a number, lowest first, into a
temporary of 24 characters and copies them in reverse order.  A number of 64 bits has up
to 64 digits in base two: the temporary is large enough for the bases from seven on
only.
-/

namespace Rivet.Str

open CLib

/-- What makes the behaviour of the string functions undefined. -/
inductive Fault where
  /-- A store behind the end of the temporary. -/
  | outsideTmp
  /-- A character is read behind the terminating NUL. -/
  | pastEnd
  /-- A width that is not an `int`. -/
  | widthOverflow
  deriving DecidableEq, Repr

def dig (upper : Bool) : CStr :=
  (if upper then "0123456789ABCDEF" else "0123456789abcdef").toList

/-- The loop of `riv_u64_to_str` that fills the temporary, in which `room` characters are
left. -/
def digitLoop (dig : CStr) (base : ℕ) : (room v : ℕ) → (tmp : CStr) → Except Fault CStr
  | 0, _, _ => .error .outsideTmp
  | room + 1, v, tmp =>
    let tmp := tmp ++ [dig.getD (v % base) '0']
    if v / base = 0 then .ok tmp else digitLoop dig base room (v / base) tmp

/-- `riv_u64_to_str`: the characters written. -/
def rivU64ToStr (v : RivU64) (base : RivU32) (upper : Bool) : Except Fault CStr :=
  if base < 2 ∨ 16 < base then .ok []
  else (digitLoop (dig upper) base.toNat 24 v.toNat []).map List.reverse

/-- `riv_i64_to_str`. -/
def rivI64ToStr (v : RivU64) : Except Fault CStr :=
  if v.toInt < 0 then (rivU64ToStr (-(v + 1) + 1) 10 false).map ('-' :: ·)
  else rivU64ToStr v 10 false

variable {upper : Bool} {base n : ℕ}

def digitsIn (upper : Bool) (base n : ℕ) : CStr :=
  (Nat.toDigits base n).map fun c => if upper then c.toUpper else c

theorem getD_dig (upper : Bool) {d : ℕ} (hd : d < 16) :
    (dig upper).getD d '0' = if upper then d.digitChar.toUpper else d.digitChar := by
  cases upper with
  | true | false => interval_cases d <;> decide

theorem digitsIn_of_lt (hhigh : base ≤ 16) (hlt : n < base) :
    digitsIn upper base n = [(dig upper).getD n '0'] := by
  grind [digitsIn, Nat.toDigits_of_lt_base, getD_dig]

theorem digitsIn_of_le (hlow : 1 < base) (hhigh : base ≤ 16) (hle : base ≤ n) :
    digitsIn upper base n = digitsIn upper base (n / base) ++ [(dig upper).getD (n % base) '0'] := by
  have hmod : n % base < base := Nat.mod_lt n (by omega)
  rw [digitsIn, Nat.toDigits_of_base_le hlow hle, List.map_append,
    getD_dig upper (hmod.trans_le hhigh)]
  rfl

theorem digitLoop_eq (hlow : 1 < base) (hhigh : base ≤ 16) (room n : ℕ) (tmp : CStr) :
    digitLoop (dig upper) base (room + 1) n tmp =
      if n < base ^ (room + 1) then .ok (tmp ++ (digitsIn upper base n).reverse)
      else .error .outsideTmp := by
  induction room generalizing n tmp with
  | zero =>
    rw [digitLoop, zero_add, pow_one]
    by_cases hlt : n < base
    · simp_all [Nat.div_eq_of_lt, digitsIn_of_lt, Nat.mod_eq_of_lt]
    have hdiv : n / base ≠ 0 := by
      rw [Ne, Nat.div_eq_zero_iff_lt (by omega)]
      exact hlt
    rw [if_neg hdiv, if_neg hlt, digitLoop]
  | succ room ih =>
    rw [digitLoop]
    by_cases hlt : n < base
    · have hpow : n < base ^ (room + 1 + 1) := hlt.trans_le (Nat.le_self_pow (by omega) base)
      simp_all [Nat.div_eq_of_lt, digitsIn_of_lt, Nat.mod_eq_of_lt]
    have hdiv : n / base ≠ 0 := by
      rw [Ne, Nat.div_eq_zero_iff_lt (by omega)]
      exact hlt
    have hpow : n / base < base ^ (room + 1) ↔ n < base ^ (room + 1 + 1) := by
      rw [Nat.div_lt_iff_lt_mul (by omega), ← pow_succ]
    simp [hdiv, ih, digitsIn_of_le hlow hhigh (Nat.le_of_not_lt hlt), hpow]

theorem rivU64ToStr_eq {base : RivU32} (hlow : 2 ≤ base.toNat) (hhigh : base.toNat ≤ 16)
    (v : RivU64) (upper : Bool) : rivU64ToStr v base upper =
      if v.toNat < base.toNat ^ 24 then .ok (digitsIn upper base.toNat v.toNat)
      else .error .outsideTmp := by
  have hbase : ¬(base < 2 ∨ 16 < base) := by
    rw [BitVec.lt_def, BitVec.lt_def]
    grind
  rw [rivU64ToStr, if_neg hbase, digitLoop_eq hlow hhigh]
  split
  · simp [Except.map]
  · rfl

theorem rivU64ToStr_of_ten_le {base : RivU32} (hlow : 10 ≤ base.toNat) (hhigh : base.toNat ≤ 16)
    (v : RivU64) (upper : Bool) :
    rivU64ToStr v base upper = .ok (digitsIn upper base.toNat v.toNat) := by
  have hfits : v.toNat < base.toNat ^ 24 :=
    (v.isLt.trans_le (by decide)).trans_le (Nat.pow_le_pow_left hlow 24)
  rw [rivU64ToStr_eq (by omega) hhigh, if_pos hfits]

theorem rivI64ToStr_eq (v : RivU64) :
    rivI64ToStr v = .ok ((if v.toInt < 0 then ['-'] else []) ++ digitsIn false 10 v.toInt.natAbs) := by
  have hten : (10 : RivU32).toNat = 10 := rfl
  have hprint := fun u => @rivU64ToStr_of_ten_le 10 (by decide) (by decide) u false
  simp only [rivI64ToStr, hprint, hten]
  split
  · next hneg =>
    have habs : (-(v + 1) + 1).toNat = v.toInt.natAbs := by
      have hone : (1 : RivU64).toNat = 1 := rfl
      rw [BitVec.toInt_eq_toNat_cond] at hneg ⊢
      rw [BitVec.toNat_add, BitVec.toNat_neg, BitVec.toNat_add, hone]
      split at hneg <;> omega
    rw [habs]
    rfl
  · next hpos =>
    have habs : v.toNat = v.toInt.natAbs := by
      rw [BitVec.toInt_eq_toNat_cond] at hpos ⊢
      split at hpos <;> omega
    rw [habs]
    rfl

/-- A text that is read as a number, with digits of the table only and without leading
zeros. -/
structure Canonical (upper : Bool) (base n : ℕ) (text : CStr) : Prop where
  digits : ∀ c ∈ text, c ∈ (dig upper).take base
  value : spanDigits base 0 text = (n, [])
  leading : text = ['0'] ∨ text.head? ≠ some '0'

theorem digit_spec (upper : Bool) (hhigh : base ≤ 16) {d : ℕ} (hd : d < base) (acc : ℕ) :
    (dig upper).getD d '0' ∈ (dig upper).take base ∧
      spanDigits base acc [(dig upper).getD d '0'] = (acc * base + d, []) ∧
      (d ≠ 0 → (dig upper).getD d '0' ≠ '0') := by
  have hmem : (dig upper).getD d '0' ∈ (dig upper).take base := by
    have hlen : (dig upper).length = 16 := by
      cases upper with
      | true | false => rfl
    rw [List.mem_take_iff_getElem, List.getD_eq_getElem _ _ (by omega)]
    exact ⟨d, by omega, rfl⟩
  have hval : digitVal ((dig upper).getD d '0') = some d ∧
      (d ≠ 0 → (dig upper).getD d '0' ≠ '0') := by
    have hlt : d < 16 := hd.trans_le hhigh
    cases upper with
    | true | false => interval_cases d <;> decide
  simp_all [spanDigits]

theorem canonical_digitsIn (hlow : 1 < base) (hhigh : base ≤ 16) (n : ℕ) :
    Canonical upper base n (digitsIn upper base n) := by
  induction n using Nat.strong_induction_on with
  | _ n ih =>
    by_cases hlt : n < base
    · obtain ⟨hmem, hval, hzero⟩ := digit_spec upper hhigh hlt 0
      rw [digitsIn_of_lt hhigh hlt]
      refine ⟨fun c hc => List.mem_singleton.mp hc ▸ hmem, by simpa using hval, ?_⟩
      grind
    · have hle : base ≤ n := Nat.le_of_not_lt hlt
      have hmod : n % base < base := Nat.mod_lt n (by omega)
      have hpos : n / base ≠ 0 := (Nat.div_pos hle (by omega)).ne'
      obtain ⟨hmem, hval, -⟩ := digit_spec upper hhigh hmod (n / base)
      obtain ⟨hdigits, hvalue, hleading⟩ := ih (n / base) (Nat.div_lt_self (by omega) hlow)
      rw [digitsIn_of_le hlow hhigh hle]
      refine ⟨?_, ?_, .inr ?_⟩
      · intro c hc
        rcases List.mem_append.mp hc with hc | hc
        · exact hdigits c hc
        · exact List.mem_singleton.mp hc ▸ hmem
      · rw [spanDigits_append hvalue, hval, Nat.div_add_mod']
      · -- the digits of the quotient are neither none nor a single zero
        rcases hleading with hzero | hhead
        · have hread : spanDigits base 0 ['0'] = (0 * base + 0, []) :=
            (digit_spec false hhigh (d := 0) (by omega) 0).2.1
          grind
        · cases hdig : digitsIn upper base (n / base) with
          | nil =>
            rw [hdig] at hvalue
            exact absurd (congrArg Prod.fst hvalue).symm hpos
          | cons c cs =>
            rw [hdig] at hhead
            exact hhead

/-- Where the digits fit in the temporary, `riv_u64_to_str` writes the canonical
representation; otherwise it stores behind the end. -/
theorem u64ToStr_canonical_iff {base : RivU32} (hlow : 2 ≤ base.toNat) (hhigh : base.toNat ≤ 16)
    (v : RivU64) (upper : Bool) :
    (∃ text, rivU64ToStr v base upper = .ok text ∧ Canonical upper base.toNat v.toNat text) ↔
      v.toNat < base.toNat ^ 24 := by
  rw [rivU64ToStr_eq hlow hhigh]
  constructor
  · rintro ⟨text, heq, -⟩
    by_contra hge
    rw [if_neg hge] at heq
    cases heq
  · intro hlt
    rw [if_pos hlt]
    exact ⟨_, rfl, canonical_digitsIn hlow hhigh _⟩

theorem u64ToStr_canonical_hex : ∃ text, rivU64ToStr 0xFFFFFFFFFFFFFFFF 16 true = .ok text ∧
      Canonical true 16 0xFFFFFFFFFFFFFFFF text :=
  (u64ToStr_canonical_iff (by decide) (by decide) 0xFFFFFFFFFFFFFFFF true).mpr (by decide)

/-- The 25 digits of `2 ^ 24` in base two do not fit. -/
theorem u64ToStr_overruns_tmp : rivU64ToStr 0x1000000 2 false = .error .outsideTmp := by
  decide +kernel

end Rivet.Str
