import Mathlib

/-!
# The ModR/M and SIB rules

What the bytes of a memory operand mean to a 64-bit processor: the register in
the reg field, and an address formed from a base, a scaled index and a
displacement.  The rules are those of the instruction set manual, with the
exceptions it lists: rm = 100 announces a SIB byte, an index of 100 without
REX.X is no index, a SIB base of 101 under mod = 00 is no base and a 32-bit
displacement, and rm = 101 under mod = 00 is relative to the next instruction.
-/

namespace Intel

abbrev Byte := BitVec 8

/-- The four bits of a REX prefix. -/
structure Rex where
  w : ℕ
  r : ℕ
  x : ℕ
  b : ℕ
  deriving DecidableEq, Repr

def Rex.read : List Byte → Option Rex
  | [] => some ⟨0, 0, 0, 0⟩
  | [p] =>
    if p &&& 0xF0 = 0x40 then
      some ⟨(p.toNat >>> 3) &&& 1, (p.toNat >>> 2) &&& 1, (p.toNat >>> 1) &&& 1,
        p.toNat &&& 1⟩
    else none
  | _ => none

def topField (byte : Byte) : ℕ := (byte.toNat >>> 6) &&& 3

def midField (byte : Byte) : ℕ := (byte.toNat >>> 3) &&& 7

def lowField (byte : Byte) : ℕ := byte.toNat &&& 7

inductive Base where
  | absent
  | gpr (r : ℕ)
  | rip
  deriving DecidableEq, Repr

/-- A decoded memory operand; the index comes with its scale factor. -/
structure MemOperand where
  reg : ℕ
  base : Base
  index : Option (ℕ × ℕ)
  disp : BitVec 32
  deriving DecidableEq, Repr

def Base.value (regs : ℕ → BitVec 64) (rip : BitVec 64) : Base → BitVec 64
  | .absent => 0
  | .gpr r => regs r
  | .rip => rip

def scaledIndex (regs : ℕ → BitVec 64) : Option (ℕ × ℕ) → BitVec 64
  | none => 0
  | some (r, scale) => regs r * BitVec.ofNat 64 scale

/-- The effective address, over a register file and the address of the next
instruction. -/
def MemOperand.address (op : MemOperand) (regs : ℕ → BitVec 64) (rip : BitVec 64) :
    BitVec 64 :=
  op.base.value regs rip + scaledIndex regs op.index + op.disp.signExtend 64

def readDisp8 : List Byte → Option (BitVec 32 × List Byte)
  | b :: rest => some (b.signExtend 32, rest)
  | [] => none

def readDisp32 : List Byte → Option (BitVec 32 × List Byte)
  | b₀ :: b₁ :: b₂ :: b₃ :: rest => some (b₃ ++ b₂ ++ b₁ ++ b₀, rest)
  | _ => none

def readDisp (mod : ℕ) (bytes : List Byte) : Option (BitVec 32 × List Byte) :=
  if mod = 0 then some (0, bytes)
  else if mod = 1 then readDisp8 bytes
  else readDisp32 bytes

def sibIndex (rex : Rex) (sib : Byte) : Option (ℕ × ℕ) :=
  if midField sib = 4 ∧ rex.x = 0 then none
  else some (8 * rex.x + midField sib, 2 ^ topField sib)

/-- The memory operand at the front of the bytes, and the bytes after it. -/
def memOperand (rex : Rex) : List Byte → Option (MemOperand × List Byte)
  | [] => none
  | modrm :: rest =>
    let mod := topField modrm
    let reg := 8 * rex.r + midField modrm
    if mod = 3 then none
    else if lowField modrm = 4 then
      match rest with
      | [] => none
      | sib :: rest =>
        if lowField sib = 5 ∧ mod = 0 then
          (readDisp32 rest).map fun (disp, rest) =>
            (⟨reg, .absent, sibIndex rex sib, disp⟩, rest)
        else
          (readDisp mod rest).map fun (disp, rest) =>
            (⟨reg, .gpr (8 * rex.b + lowField sib), sibIndex rex sib, disp⟩, rest)
    else if lowField modrm = 5 ∧ mod = 0 then
      (readDisp32 rest).map fun (disp, rest) => (⟨reg, .rip, none, disp⟩, rest)
    else
      (readDisp mod rest).map fun (disp, rest) =>
        (⟨reg, .gpr (8 * rex.b + lowField modrm), none, disp⟩, rest)

/-! ## One rule for each addressing form -/

section Forms

variable {rex : Rex} {modrm sib : Byte} {bytes rest : List Byte} {disp : BitVec 32}

theorem memOperand_gpr (hmod : topField modrm ≠ 3) (hrm : lowField modrm ≠ 4)
    (hrip : ¬(lowField modrm = 5 ∧ topField modrm = 0))
    (hdisp : readDisp (topField modrm) bytes = some (disp, rest)) :
    memOperand rex (modrm :: bytes) =
      some (⟨8 * rex.r + midField modrm, .gpr (8 * rex.b + lowField modrm), none, disp⟩,
        rest) := by simp_all [memOperand, Option.map_some]

theorem memOperand_sib (hmod : topField modrm ≠ 3) (hrm : lowField modrm = 4)
    (hbase : ¬(lowField sib = 5 ∧ topField modrm = 0))
    (hdisp : readDisp (topField modrm) bytes = some (disp, rest)) :
    memOperand rex (modrm :: sib :: bytes) =
      some (⟨8 * rex.r + midField modrm, .gpr (8 * rex.b + lowField sib),
        sibIndex rex sib, disp⟩, rest) := by grind [memOperand]

theorem memOperand_sib_noBase (hmod : topField modrm = 0) (hrm : lowField modrm = 4)
    (hbase : lowField sib = 5) (hdisp : readDisp32 bytes = some (disp, rest)) :
    memOperand rex (modrm :: sib :: bytes) =
      some (⟨8 * rex.r + midField modrm, .absent, sibIndex rex sib, disp⟩, rest) := by
  simp_all [memOperand, and_self, Option.map_some]

end Forms

theorem signExtend_low_byte {v : BitVec 32} (hlo : -128 ≤ v.toInt) (hhi : v.toInt ≤ 127) :
    ((v &&& 0xFF).setWidth 8).signExtend 32 = v := by
  apply BitVec.eq_of_toInt_eq
  rw [BitVec.toInt_signExtend_of_le (by decide), BitVec.toInt_eq_toNat_bmod]
  have hlow : ((v &&& 0xFF).setWidth 8).toNat = v.toNat % 256 := by
    have hand : (v &&& 0xFF).toNat = v.toNat % 256 := Nat.and_two_pow_sub_one_eq_mod _ 8
    rw [BitVec.toNat_setWidth, hand]
    omega
  rw [BitVec.toInt_eq_toNat_bmod] at hlo hhi ⊢
  simp only [Int.bmod_def] at hlo hhi ⊢
  omega

end Intel
