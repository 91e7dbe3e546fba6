import Rivet.X86.Intel

/-!
# The operands of an instruction

Which operands the bytes of an instruction carry, for a part of the 64-bit
instruction set: an optional REX prefix, an opcode of one or two bytes, and then
what the operand encoding of the opcode asks for.  The encodings have the names of
the instruction set manual.  Immediates of 32 bits are sign-extended, and the
operand of a branch is the address it goes to.
-/

namespace Intel

inductive Operand where
  | reg (r : ℕ)
  | mem (op : MemOperand)
  | imm (v : BitVec 64)
  | imm8 (v : Byte)
  | al
  | dx
  deriving DecidableEq, Repr

/-- The operand encodings.  `mrEither` is `mr` for an operation that does not tell
its operands apart, `mib` is `mi` with an immediate of one byte, and the last five
are an immediate byte on its own and the port instructions. -/
inductive Form where
  | zo | o | oi | mr | mrEither | rm | mi | mib | m | d | ib | alIb | ibAl | alDx | dxAl
  deriving DecidableEq, Repr

def oneByteForm (op : Byte) : Option Form :=
  if op ∈ [0x90, 0xF4, 0xCC, 0xFA, 0xFB, 0xC3, 0xC9, 0xCF] then some .zo
  else if op ∈ [0x01, 0x09, 0x21, 0x29, 0x31, 0x39, 0x89] then some .mr
  else if op ∈ [0x85, 0x87] then some .mrEither
  else if op ∈ [0x03, 0x0B, 0x23, 0x2B, 0x33, 0x3B, 0x8B, 0x8D] then some .rm
  else if op &&& 0xF0 = 0x50 then some .o
  else if op &&& 0xF8 = 0xB8 then some .oi
  else if op ∈ [0x81, 0xC7] then some .mi
  else if op = 0xC1 then some .mib
  else if op ∈ [0xF7, 0xFF] then some .m
  else if op ∈ [0xE8, 0xE9] then some .d
  else if op = 0xCD then some .ib
  else if op = 0xE4 then some .alIb
  else if op = 0xE6 then some .ibAl
  else if op = 0xEC then some .alDx
  else if op = 0xEE then some .dxAl
  else none

/-- The forms of the opcodes behind `0F`. -/
def twoByteForm (op : Byte) : Option Form :=
  if op ∈ [0x05, 0x07, 0x0B] then some .zo
  else if op = 0xAF then some .rm
  else if op &&& 0xF0 = 0x80 then some .d
  else none

def splitRex : List Byte → Rex × List Byte
  | [] => (⟨0, 0, 0, 0⟩, [])
  | p :: rest =>
    match Rex.read [p] with
    | some rex => (rex, rest)
    | none => (⟨0, 0, 0, 0⟩, p :: rest)

/-- The register of a ModR/M byte, its other operand, and the bytes behind them. -/
def regOrMem (rex : Rex) : List Byte → Option (ℕ × Operand × List Byte)
  | [] => none
  | modrm :: rest =>
    if topField modrm = 3 then
      some (8 * rex.r + midField modrm, .reg (8 * rex.b + lowField modrm), rest)
    else (memOperand rex (modrm :: rest)).map fun (op, rest) => (op.reg, .mem op, rest)

def readImm64 : List Byte → Option (BitVec 64 × List Byte)
  | b₀ :: b₁ :: b₂ :: b₃ :: b₄ :: b₅ :: b₆ :: b₇ :: rest =>
    some (b₇ ++ b₆ ++ b₅ ++ b₄ ++ b₃ ++ b₂ ++ b₁ ++ b₀, rest)
  | _ => none

/-- The operands from the bytes behind the opcode, in the orders in which they may
be written; none where the bytes do not fit the form. -/
def Form.orders (rex : Rex) (op : Byte) (next : BitVec 64) (bytes : List Byte) :
    Form → List (List Operand)
  | .zo => if bytes = [] then [[]] else []
  | .o => if bytes = [] then [[.reg (8 * rex.b + lowField op)]] else []
  | .oi =>
    match readImm64 bytes with
    | some (v, []) => if rex.w = 1 then [[.reg (8 * rex.b + lowField op), .imm v]] else []
    | _ => []
  | .mr =>
    match regOrMem rex bytes with
    | some (reg, x, []) => [[x, .reg reg]]
    | _ => []
  | .mrEither =>
    match regOrMem rex bytes with
    | some (reg, x, []) => [[x, .reg reg], [.reg reg, x]]
    | _ => []
  | .rm =>
    match regOrMem rex bytes with
    | some (reg, x, []) => [[.reg reg, x]]
    | _ => []
  | .mi =>
    match (regOrMem rex bytes).bind fun (_, x, rest) => (readDisp32 rest).map (x, ·) with
    | some (x, v, []) => [[x, .imm (v.signExtend 64)]]
    | _ => []
  | .mib =>
    match regOrMem rex bytes with
    | some (_, x, [v]) => [[x, .imm8 v]]
    | _ => []
  | .m =>
    -- the first two operations of the group F7 have an immediate as well
    match regOrMem rex bytes with
    | some (reg, x, []) => if op = 0xF7 ∧ reg % 8 < 2 then [] else [[x]]
    | _ => []
  | .d =>
    match readDisp32 bytes with
    | some (v, []) => [[.imm (next + v.signExtend 64)]]
    | _ => []
  | .ib =>
    match bytes with
    | [v] => [[.imm8 v]]
    | _ => []
  | .alIb =>
    match bytes with
    | [v] => [[.al, .imm8 v]]
    | _ => []
  | .ibAl =>
    match bytes with
    | [v] => [[.imm8 v, .al]]
    | _ => []
  | .alDx => if bytes = [] then [[.al, .dx]] else []
  | .dxAl => if bytes = [] then [[.dx, .al]] else []

/-- The operands that the bytes of an instruction at the address `addr` carry, in
the orders in which they may be written. -/
def operandOrders (addr : BitVec 64) (bytes : List Byte) : List (List Operand) :=
  let next := addr + BitVec.ofNat 64 bytes.length
  match splitRex bytes with
  | (_, []) => []
  | (rex, op :: rest) =>
    if op = 0x0F then
      match rest with
      | [] => []
      | op :: rest => (twoByteForm op).elim [] (Form.orders rex op next rest)
    else (oneByteForm op).elim [] (Form.orders rex op next rest)

/-! ## Rules -/

section Rules

variable {addr : BitVec 64} {front rest : List Byte} {rex : Rex} {op : Byte} {form : Form}

theorem splitRex_append (hrex : Rex.read front = some rex) (hop : Rex.read [op] = none) :
    splitRex (front ++ op :: rest) = (rex, op :: rest) := by
  cases front with
  | nil =>
    cases hrex
    rw [List.nil_append, splitRex, hop]
  | cons p front =>
    cases front with
    | nil => rw [List.singleton_append, splitRex, hrex]
    | cons q front => cases hrex

theorem operandOrders_oneByte (op : Byte) (hrex : Rex.read front = some rex)
    (hop : Rex.read [op] = none) (hne : op ≠ 0x0F) (hform : oneByteForm op = some form) :
    operandOrders addr (front ++ op :: rest) =
      form.orders rex op (addr + BitVec.ofNat 64 (front ++ op :: rest).length) rest := by
  simp_all [operandOrders, splitRex_append, Option.elim_some]

theorem operandOrders_twoByte (op : Byte) (hrex : Rex.read front = some rex)
    (hform : twoByteForm op = some form) : operandOrders addr (front ++ 0x0F :: op :: rest) =
      form.orders rex op (addr + BitVec.ofNat 64 (front ++ 0x0F :: op :: rest).length) rest := by
  have hop : Rex.read [0x0F] = none := by decide
  simp only [operandOrders, splitRex_append hrex hop, if_true, hform, Option.elim_some]

theorem regOrMem_reg {modrm : Byte} (h : topField modrm = 3) : regOrMem rex (modrm :: rest) =
      some (8 * rex.r + midField modrm, .reg (8 * rex.b + lowField modrm), rest) := by
  rw [regOrMem, if_pos h]

theorem regOrMem_mem {bytes : List Byte} {operand : MemOperand}
    (h : memOperand rex bytes = some (operand, rest)) :
    regOrMem rex bytes = some (operand.reg, .mem operand, rest) := by
  cases bytes with
  | nil => cases h
  | cons modrm bytes =>
    have hmod : topField modrm ≠ 3 := by simp_all [memOperand]
    rw [regOrMem, if_neg hmod, h, Option.map_some]

end Rules

end Intel
