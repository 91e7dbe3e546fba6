import Mathlib.Data.Int.Notation
import Rivet.Assembler.Symbols
import Rivet.Support.BitField

/-!
# Reading instruction bytes and printing lines

Both decoders read from a buffer of which `avail` bytes are present.  They
return zero when they need more bytes than that; an access outside the buffer
is kept apart, so that its absence can be proved.
-/

namespace Rivet.Disassembler

open CLib Assembler BitField

/-- Why a decoder stops without a line. -/
inductive DecodeStop where
  | short
  | fault
  deriving DecidableEq, Repr

/-- `bytes[i]`. -/
def readByte (bytes : List RivU8) (i : ℕ) : Except DecodeStop RivU8 :=
  match bytes[i]? with
  | some b => .ok b
  | none => .error .fault

/-- The test that `n` bytes are present from index `idx` on. -/
def need (bytes : List RivU8) (idx n : ℕ) : Except DecodeStop Unit :=
  if bytes.length < idx + n then .error .short else .ok ()

def joinU32 (b₀ b₁ b₂ b₃ : RivU8) : RivU32 :=
  b₀.setWidth 32 ||| (b₁.setWidth 32 <<< 8)
    ||| (b₂.setWidth 32 <<< 16) ||| (b₃.setWidth 32 <<< 24)

def readU32 (bytes : List RivU8) (idx : ℕ) : Except DecodeStop RivU32 := do
  let b₀ ← readByte bytes idx
  let b₁ ← readByte bytes (idx + 1)
  let b₂ ← readByte bytes (idx + 2)
  let b₃ ← readByte bytes (idx + 3)
  .ok (joinU32 b₀ b₁ b₂ b₃)

/-! ## Printing -/

/-- `%-6s`. -/
def padMnem (s : CStr) : CStr := s ++ List.replicate (6 - s.length) ' '

/-- `%x`. -/
def showHex (n : ℕ) : CStr := Nat.toDigits 16 n

/-- `%0<w>x`. -/
def showHexPad (w n : ℕ) : CStr :=
  List.replicate (w - (showHex n).length) '0' ++ showHex n

/-- `%d`. -/
def showDec (v : ℤ) : CStr :=
  if v < 0 then '-' :: Nat.toDigits 10 v.natAbs else Nat.toDigits 10 v.natAbs

def showLine (mnem : String) (ops : List CStr) : CStr :=
  match ops with
  | [] => mnem.toList
  | _ :: _ => padMnem mnem.toList ++ ' ' :: List.intercalate ", ".toList ops

example : showLine "jal" ["ra".toList, "0x".toList ++ showHex 4096] =
    "jal    ra, 0x1000".toList := by decide

/-! ## Printed numbers are operands -/

theorem isNumeric_showDec (v : ℤ) : isNumeric (showDec v) = true := by
  unfold showDec
  split
  · rfl
  obtain ⟨c, cs, hcs, -, -⟩ := head_toDigits (b := 10) (by decide) (by decide) v.natAbs
  have hdig : c.isDigit = true :=
    Nat.isDigit_of_mem_toDigits (by decide) (by decide)
      (show c ∈ Nat.toDigits 10 v.natAbs by rw [hcs]; simp)
  simp [hcs, isNumeric, hdig]

theorem strtoll_showDec {v : ℤ} (h : v.natAbs < 2 ^ 63) : strtoll (showDec v) 0 = (v, []) := by
  obtain ⟨b, hdetect, hb1, hb2⟩ := detectBase_toDigits_ten v.natAbs
  unfold showDec
  split
  · next hneg =>
    have hsplit : splitSign (('-' :: Nat.toDigits 10 v.natAbs).dropWhile isSpace) =
        (true, Nat.toDigits 10 v.natAbs) := rfl
    rw [strtoll_toDigits hsplit hdetect hb1 hb2 h]
    simp only [if_true]
    congr 1
    omega
  · next hpos =>
    obtain ⟨c, cs, hcs, -, -⟩ := head_toDigits (b := 10) (by decide) (by decide) v.natAbs
    have hsplit : splitSign ((Nat.toDigits 10 v.natAbs).dropWhile isSpace) =
        (false, Nat.toDigits 10 v.natAbs) := by
      have hdig : c.isDigit = true :=
        Nat.isDigit_of_mem_toDigits (by decide) (by decide)
          (show c ∈ Nat.toDigits 10 v.natAbs by rw [hcs]; simp)
      rw [hcs]
      exact splitSign_of_isDigit hdig cs
    rw [strtoll_toDigits hsplit hdetect hb1 hb2 h]
    grind

theorem not_paren_showDec (v : ℤ) : '(' ∉ showDec v := by
  have hdigits : '(' ∉ Nat.toDigits 10 v.natAbs := by
    intro h
    exact absurd (isDigitIn_of_mem_toDigits (by decide) (by decide) _ h) (by decide)
  grind [showDec, split]

theorem strtoll_showHex_clamp (n : ℕ) : strtoll ("0x".toList ++ showHex n) 0 = (clampI64 n, []) :=
  have hsplit : splitSign (("0x".toList ++ showHex n).dropWhile isSpace) =
      (false, '0' :: 'x' :: showHex n) := rfl
  strtoll_toDigits_clamp hsplit (detectBase_hex n) (by decide) (by decide)

theorem strtoll_showHex {n : ℕ} (h : n < 2 ^ 63) :
    strtoll ("0x".toList ++ showHex n) 0 = ((n : ℤ), []) := by
  have hclamp : clampI64 n = n := by
    unfold clampI64
    omega
  rw [strtoll_showHex_clamp, hclamp]

/-! ## Buffers that start with known bytes -/

@[simp] theorem readByte_cons_zero (b : RivU8) (bs : List RivU8) :
    readByte (b :: bs) 0 = .ok b := rfl

@[simp] theorem readByte_cons_succ (b : RivU8) (bs : List RivU8) (i : ℕ) :
    readByte (b :: bs) (i + 1) = readByte bs i := by simp [readByte]

theorem need_eq_ok {bytes : List RivU8} {idx n : ℕ}
    (h : idx + n ≤ bytes.length) : need bytes idx n = .ok () :=
  if_neg (Nat.not_lt.mpr h)

theorem joinU32_leU32 (v : RivU32) :
    joinU32 ((v &&& 0xFF).setWidth 8) (((v >>> 8) &&& 0xFF).setWidth 8)
      (((v >>> 16) &&& 0xFF).setWidth 8) (((v >>> 24) &&& 0xFF).setWidth 8) = v := by
  have hbyte (lo : ℕ) :
      ((((v >>> lo) &&& 0xFF).setWidth 8).setWidth 32).toNat =
        extract lo 8 v.toNat := by
    have h : ((v >>> lo) &&& 0xFF).toNat = extract lo 8 v.toNat :=
      toNat_ushiftRight_and v 0xFF rfl
    have hlt := extract_lt lo 8 v.toNat
    grind [BitVec.toNat_setWidth]
  have h0 : (((v &&& 0xFF).setWidth 8).setWidth 32).toNat =
      pack [(8, extract 0 8 v.toNat)] := by grind [pack_singleton]
  have h1 := toNat_or_shiftLeft (k := 8) (hbyte 8) (extract_lt ..) h0 rfl (by decide)
  have h2 := toNat_or_shiftLeft (k := 16) (hbyte 16) (extract_lt ..) h1 rfl (by decide)
  have h3 := toNat_or_shiftLeft (k := 24) (hbyte 24) (extract_lt ..) h2 rfl (by decide)
  apply BitVec.eq_of_toNat_eq
  rw [joinU32, h3]
  exact pack_split_toNat v (s := [8, 8, 8, 8]) rfl

theorem readU32_leU32 (v : RivU32) (bs : List RivU8) : readU32 (leU32 v ++ bs) 0 = .ok v := by
  have h := joinU32_leU32 v
  simp_all [readU32, leU32, readByte_cons_zero, readByte_cons_succ, bind, Except.bind]

theorem leU32_inj {v w : RivU32} (h : leU32 v = leU32 w) : v = w := by
  have hv := readU32_leU32 v []
  rw [h] at hv
  exact Except.ok.inj (hv.symm.trans (readU32_leU32 w []))

end Rivet.Disassembler
