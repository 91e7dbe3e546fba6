import Rivet.Disassembler.Basic
import Rivet.X86.Encode

/-!
# The x86-64 disassembler backend

`x86_decode` of `x86_64_disas.c`.  The functions below receive the number of
bytes consumed so far, `idx` of the source, and the bytes from there on, so
that `bytes[idx]` is the first of them.
-/

namespace Rivet.X86

open CLib Disassembler

/-! ## Printed lines -/

/-- A memory operand as it is printed. -/
inductive MemText where
  | rip (disp : RivU32)
  | sum (base : Option ℕ) (index : Option (ℕ × ℕ)) (disp : Option RivI32)
  deriving DecidableEq, Repr

/-- An operand of a printed line, by its conversion. -/
inductive X86Operand where
  | reg (r : ℕ)
  | hex (v : ℕ)
  | byte (v : RivU8)
  | mem (m : MemText)
  | name (s : String)
  deriving DecidableEq, Repr

structure X86Line where
  mnem : String
  ops : List X86Operand
  deriving DecidableEq, Repr

def x86RegName (r : ℕ) : CStr := (x86Regs.getD r "").toList

def MemText.text : MemText → CStr
  | .rip disp => "[rip+0x".toList ++ showHex disp.toNat ++ "]".toList
  | .sum base index disp =>
    let parts : CStr := match base with
      | some r => x86RegName r
      | none => []
    let parts := match index with
      | some (r, scale) =>
        parts ++ (if parts = [] then [] else "+".toList) ++ x86RegName r ++
          "*".toList ++ showDec scale
      | none => parts
    let parts := match disp with
      | some d =>
        if parts = [] then "0x".toList ++ showHex d.toNat
        else if 0 ≤ d.toInt then parts ++ "+0x".toList ++ showHex d.toNat
        else parts ++ "-0x".toList ++ showHex (-d).toNat
      | none => parts
    "[".toList ++ parts ++ "]".toList

def X86Operand.text : X86Operand → CStr
  | .reg r => x86RegName r
  | .hex v => "0x".toList ++ showHex v
  | .byte v => "0x".toList ++ showHexPad 2 v.toNat
  | .mem m => m.text
  | .name s => s.toList

def X86Line.text (l : X86Line) : CStr := showLine l.mnem (l.ops.map X86Operand.text)

/-! ## Opcode tables -/

def x86JccNames : List String :=
  ["jo", "jno", "jb", "jae", "je", "jne", "jbe", "ja",
   "js", "jns", "jp", "jnp", "jl", "jge", "jle", "jg"]

def x86JccName (cc : ℕ) : String := x86JccNames.getD cc "j?"

def x86OneByte : List (RivU8 × String) :=
  [(0x90, "nop"), (0xF4, "hlt"), (0xCC, "int3"), (0xC3, "ret"), (0xFA, "cli"),
   (0xFB, "sti"), (0xC9, "leave"), (0xCF, "iretq")]

/-- What the switch over the opcodes with a ModR/M byte sets. -/
structure OpInfo where
  mnem : String
  digitTable : ℕ
  rmForm : Bool
  hasImm8 : Bool
  hasImm32 : Bool
  deriving DecidableEq, Repr

def OpInfo.named (mnem : String) (rmForm : Bool) : OpInfo :=
  ⟨mnem, 0, rmForm, false, false⟩

def x86OpInfos : List (RivU8 × OpInfo) :=
  [(0x89, .named "mov" false), (0x8B, .named "mov" true), (0x8D, .named "lea" true),
   (0x87, .named "xchg" false), (0x01, .named "add" false), (0x03, .named "add" true),
   (0x29, .named "sub" false), (0x2B, .named "sub" true), (0x21, .named "and" false),
   (0x23, .named "and" true), (0x09, .named "or" false), (0x0B, .named "or" true),
   (0x31, .named "xor" false), (0x33, .named "xor" true), (0x39, .named "cmp" false),
   (0x3B, .named "cmp" true), (0x85, .named "test" false),
   (0x81, ⟨"", 1, false, false, true⟩), (0xC7, ⟨"mov", 0, false, false, true⟩),
   (0xC1, ⟨"", 2, false, true, false⟩), (0xF7, ⟨"", 3, false, false, false⟩),
   (0xFF, ⟨"", 4, false, false, false⟩)]

def x86DigitNames : ℕ → List String
  | 1 => ["add", "or", "adc", "sbb", "and", "sub", "xor", "cmp"]
  | 2 => ["rol", "ror", "rcl", "rcr", "shl", "shr", "?", "sar"]
  | 3 => ["test", "?", "not", "neg", "mul", "imul", "div", "idiv"]
  | 4 => ["inc", "dec", "call", "callf", "jmp", "jmpf", "push", "?"]
  | _ => []

def lookupOp {α : Type} (table : List (RivU8 × α)) (op : RivU8) : Option α :=
  (table.find? fun row => row.1 = op).map Prod.snd

/-! ## The decoder -/

/-- The bits of a REX prefix; the value `0` stands for its absence. -/
def rexW (rex : ℕ) : ℕ := (rex >>> 3) &&& 1
def rexR (rex : ℕ) : ℕ := (rex >>> 2) &&& 1
def rexX (rex : ℕ) : ℕ := (rex >>> 1) &&& 1
def rexB (rex : ℕ) : ℕ := rex &&& 1

/-- The number of bytes consumed, the bytes that follow and a result. -/
abbrev Taken (α : Type) := ℕ × List RivU8 × α

/-- `NEED(n)` before a read. -/
def takeByte (idx : ℕ) (rest : List RivU8) : Except DecodeStop (Taken RivU8) := do
  need rest 0 1
  let v ← readByte rest 0
  .ok (idx + 1, rest.drop 1, v)

/-- `NEED(4)` and `IMM32()`. -/
def takeImm32 (idx : ℕ) (rest : List RivU8) : Except DecodeStop (Taken RivI32) := do
  need rest 0 4
  let v ← readU32 rest 0
  .ok (idx + 4, rest.drop 4, v)

/-- `NEED(8)` and `IMM64()`. -/
def takeImm64 (idx : ℕ) (rest : List RivU8) : Except DecodeStop (Taken RivU64) := do
  need rest 0 8
  let lo ← readU32 rest 0
  let hi ← readU32 rest 4
  .ok (idx + 8, rest.drop 8, hi.setWidth 64 <<< 32 ||| lo.setWidth 64)

/-- The displacement that follows for the given `mod`. -/
def takeDisp (mod idx : ℕ) (rest : List RivU8) :
    Except DecodeStop (Taken (Option RivI32)) :=
  if mod = 1 then do
    let (idx, rest, v) ← takeByte idx rest
    .ok (idx, rest, some (v.signExtend 32))
  else if mod = 2 then do
    let (idx, rest, v) ← takeImm32 idx rest
    .ok (idx, rest, some v)
  else .ok (idx, rest, none)

/-- The memory operand of a ModR/M byte with `mod` other than three. -/
def decodeMem (rex mod rmf idx : ℕ) (rest : List RivU8) :
    Except DecodeStop (Taken MemText) :=
  if rmf = 4 then do
    let (idx, rest, sib) ← takeByte idx rest
    let sc := (sib.toNat >>> 6) &&& 3
    let si := (sib.toNat >>> 3) &&& 7
    let sb := sib.toNat &&& 7
    let index := if si ≠ 4 then some (si ||| (rexX rex <<< 3), 1 <<< sc) else none
    if sb = 5 ∧ mod = 0 then do
      let (idx, rest, disp) ← takeImm32 idx rest
      .ok (idx, rest, .sum none index (some disp))
    else do
      let (idx, rest, disp) ← takeDisp mod idx rest
      .ok (idx, rest, .sum (some (sb ||| (rexB rex <<< 3))) index disp)
  else if rmf = 5 ∧ mod = 0 then do
    let (idx, rest, disp) ← takeImm32 idx rest
    .ok (idx, rest, .rip disp)
  else do
    let (idx, rest, disp) ← takeDisp mod idx rest
    .ok (idx, rest, .sum (some (rmf ||| (rexB rex <<< 3))) none disp)

/-- The rest of an instruction whose opcode takes a ModR/M byte. -/
def decodeModrm (rex idx : ℕ) (info : OpInfo) (rest : List RivU8) :
    Except DecodeStop (ℕ × X86Line) := do
  let (idx, rest, modrm) ← takeByte idx rest
  let mod := (modrm.toNat >>> 6) &&& 3
  let regf := (modrm.toNat >>> 3) &&& 7
  let rmf := modrm.toNat &&& 7
  let reg := X86Operand.reg (regf ||| (rexR rex <<< 3))
  let mnem := if info.digitTable = 0 then info.mnem
    else (x86DigitNames info.digitTable).getD regf ""
  if mod ≠ 3 then do
    let (idx, rest, mem) ← decodeMem rex mod rmf idx rest
    if info.hasImm32 then do
      let (idx, _, imm) ← takeImm32 idx rest
      .ok (idx, ⟨mnem, [.mem mem, .hex imm.toNat]⟩)
    else if info.hasImm8 then do
      let (idx, _, imm) ← takeByte idx rest
      .ok (idx, ⟨mnem, [.mem mem, .hex imm.toNat]⟩)
    else if info.digitTable = 3 ∨ info.digitTable = 4 then .ok (idx, ⟨mnem, [.mem mem]⟩)
    else if info.rmForm then .ok (idx, ⟨mnem, [reg, .mem mem]⟩)
    else .ok (idx, ⟨mnem, [.mem mem, reg]⟩)
  else
    let rm := X86Operand.reg (rmf ||| (rexB rex <<< 3))
    if info.rmForm then .ok (idx, ⟨mnem, [reg, rm]⟩)
    else if info.hasImm32 then do
      let (idx, _, imm) ← takeImm32 idx rest
      .ok (idx, ⟨mnem, [rm, .hex imm.toNat]⟩)
    else if info.hasImm8 then do
      let (idx, _, imm) ← takeByte idx rest
      .ok (idx, ⟨mnem, [rm, .hex imm.toNat]⟩)
    else if info.digitTable = 3 ∨ info.digitTable = 4 then .ok (idx, ⟨mnem, [rm]⟩)
    else .ok (idx, ⟨mnem, [rm, reg]⟩)

/-- The two-byte opcodes, after `0x0F`. -/
def decodeTwoByte (pc : RivU32) (rex idx : ℕ) (rest : List RivU8) :
    Except DecodeStop (ℕ × X86Line) := do
  let (idx, rest, o2) ← takeByte idx rest
  if o2 = 0x05 then .ok (idx, ⟨"syscall", []⟩)
  else if o2 = 0x07 then .ok (idx, ⟨"sysret", []⟩)
  else if o2 = 0x0B then .ok (idx, ⟨"ud2", []⟩)
  else if 0x80 ≤ o2.toNat ∧ o2.toNat ≤ 0x8F then do
    let (idx, _, off) ← takeImm32 idx rest
    .ok (idx, ⟨x86JccName (o2.toNat - 0x80), [.hex (pc + BitVec.ofNat 32 idx + off).toNat]⟩)
  else if o2 = 0xAF then do
    let (idx, _, mr) ← takeByte idx rest
    .ok (idx, ⟨"imul", [.reg (((mr.toNat >>> 3) &&& 7) ||| (rexR rex <<< 3)),
      .reg ((mr.toNat &&& 7) ||| (rexB rex <<< 3))]⟩)
  else .ok (idx, ⟨".byte", [.byte 0x0F, .byte o2]⟩)

/-- `x86_decode` after the opcode `op` has been read. -/
def decodeOp (pc : RivU32) (rex idx : ℕ) (op : RivU8) (rest : List RivU8) :
    Except DecodeStop (ℕ × X86Line) :=
  match lookupOp x86OneByte op with
  | some name => .ok (idx, ⟨name, []⟩)
  | none =>
  if op = 0xCD then do
    let (idx, _, v) ← takeByte idx rest
    .ok (idx, ⟨"int", [.hex v.toNat]⟩)
  else if op = 0xE8 ∨ op = 0xE9 then do
    let (idx, _, off) ← takeImm32 idx rest
    .ok (idx, ⟨if op = 0xE8 then "call" else "jmp",
      [.hex (pc + BitVec.ofNat 32 idx + off).toNat]⟩)
  else if op = 0xEC then .ok (idx, ⟨"in", [.name "al", .name "dx"]⟩)
  else if op = 0xEE then .ok (idx, ⟨"out", [.name "dx", .name "al"]⟩)
  else if op = 0xE4 then do
    let (idx, _, v) ← takeByte idx rest
    .ok (idx, ⟨"in", [.name "al", .hex v.toNat]⟩)
  else if op = 0xE6 then do
    let (idx, _, v) ← takeByte idx rest
    .ok (idx, ⟨"out", [.hex v.toNat, .name "al"]⟩)
  else if 0x50 ≤ op.toNat ∧ op.toNat ≤ 0x57 then
    .ok (idx, ⟨"push", [.reg ((op.toNat - 0x50) ||| (rexB rex <<< 3))]⟩)
  else if 0x58 ≤ op.toNat ∧ op.toNat ≤ 0x5F then
    .ok (idx, ⟨"pop", [.reg ((op.toNat - 0x58) ||| (rexB rex <<< 3))]⟩)
  else if rexW rex ≠ 0 ∧ 0xB8 ≤ op.toNat ∧ op.toNat ≤ 0xBF then do
    let (idx, _, v) ← takeImm64 idx rest
    .ok (idx, ⟨"mov", [.reg ((op.toNat - 0xB8) ||| (rexB rex <<< 3)), .hex v.toNat]⟩)
  else if op = 0x0F then decodeTwoByte pc rex idx rest
  else
    match lookupOp x86OpInfos op with
    | some info => decodeModrm rex idx info rest
    | none => .ok (idx, ⟨".byte", [.byte op]⟩)

/-- `x86_decode`: the number of bytes consumed and the line. -/
def x86Decode (pc : RivU32) (bytes : List RivU8) :
    Except DecodeStop (ℕ × X86Line) := do
  need bytes 0 1
  let b₀ ← readByte bytes 0
  if b₀ &&& 0xF0 = 0x40 then do
    need bytes 1 1
    let op ← readByte bytes 1
    decodeOp pc b₀.toNat 2 op (bytes.drop 2)
  else decodeOp pc 0 1 b₀ (bytes.drop 1)

end Rivet.X86
