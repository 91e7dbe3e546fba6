import Rivet.Disassembler.Basic
import Rivet.Riscv32.Encode

/-!
# The RV32 disassembler backend

`rv_decode` of `riscv32_disas.c`.  A decoded line is kept as the mnemonic and
the operands handed to `snprintf`; `RvLine.text` is the printed form.
-/

namespace Rivet.Riscv32

open CLib Disassembler

/-- An operand of a printed line, by its conversion. -/
inductive RvOperand where
  | reg (r : ℕ)
  | dec (v : ℤ)
  | hex (v : RivU32)
  | word (v : RivU32)
  | offset (v : ℤ) (r : ℕ)
  | flags (s : CStr)
  deriving DecidableEq, Repr

/-- What one call of `snprintf` prints. -/
structure RvLine where
  mnem : String
  ops : List RvOperand
  deriving DecidableEq, Repr

def rvAbiName (r : ℕ) : CStr := (rvAbi.getD r "").toList

def RvOperand.text : RvOperand → CStr
  | .reg r => rvAbiName r
  | .dec v => showDec v
  | .hex v => "0x".toList ++ showHex v.toNat
  | .word v => "0x".toList ++ showHexPad 8 v.toNat
  | .offset v r => showDec v ++ '(' :: rvAbiName r ++ [')']
  | .flags s => s

def RvLine.text (l : RvLine) : CStr := showLine l.mnem (l.ops.map RvOperand.text)

/-- `sext`: the low `bits` bits of `v` as a signed word. -/
def sext (v : RivU32) (bits : ℕ) : RivI32 :=
  let m := (1 : RivU32) <<< (bits - 1)
  (v ^^^ m) - m

def rvOpName (f7 f3 : ℕ) : String :=
  match f7, f3 with
  | 0x00, 0 => "add"
  | 0x20, 0 => "sub"
  | 0x00, 1 => "sll"
  | 0x00, 2 => "slt"
  | 0x00, 3 => "sltu"
  | 0x00, 4 => "xor"
  | 0x00, 5 => "srl"
  | 0x20, 5 => "sra"
  | 0x00, 6 => "or"
  | 0x00, 7 => "and"
  | 0x01, 0 => "mul"
  | 0x01, 1 => "mulh"
  | 0x01, 2 => "mulhsu"
  | 0x01, 3 => "mulhu"
  | 0x01, 4 => "div"
  | 0x01, 5 => "divu"
  | 0x01, 6 => "rem"
  | 0x01, 7 => "remu"
  | _, _ => "???"

def rvOpImmName (f7 f3 : ℕ) : String :=
  match f3 with
  | 0 => "addi"
  | 2 => "slti"
  | 3 => "sltiu"
  | 4 => "xori"
  | 6 => "ori"
  | 7 => "andi"
  | 1 => "slli"
  | 5 => if f7 = 0x20 then "srai" else "srli"
  | _ => "???"

def rvLoadName (f3 : ℕ) : String :=
  match f3 with
  | 0 => "lb"
  | 1 => "lh"
  | 2 => "lw"
  | 4 => "lbu"
  | 5 => "lhu"
  | _ => "???"

def rvStoreName (f3 : ℕ) : String :=
  match f3 with
  | 0 => "sb"
  | 1 => "sh"
  | 2 => "sw"
  | _ => "???"

def rvBranchName (f3 : ℕ) : String :=
  match f3 with
  | 0 => "beq"
  | 1 => "bne"
  | 4 => "blt"
  | 5 => "bge"
  | 6 => "bltu"
  | 7 => "bgeu"
  | _ => "???"

/-- The flag letters of a fence set, most significant bit first. -/
def rvFenceFlags (set : ℕ) : CStr :=
  (if set.testBit 3 then ['i'] else []) ++ (if set.testBit 2 then ['o'] else [])
    ++ (if set.testBit 1 then ['r'] else []) ++ (if set.testBit 0 then ['w'] else [])

def rvFenceText (set : ℕ) : CStr :=
  match rvFenceFlags set with
  | [] => "(none)".toList
  | c :: cs => c :: cs

/-- The line printed for the word `w` at address `pc`. -/
def rvDecodeWord (pc w : RivU32) : RvLine :=
  let op := (w &&& 0x7F).toNat
  let rd := ((w >>> 7) &&& 0x1F).toNat
  let f3 := ((w >>> 12) &&& 0x7).toNat
  let rs1 := ((w >>> 15) &&& 0x1F).toNat
  let rs2 := ((w >>> 20) &&& 0x1F).toNat
  let f7 := ((w >>> 25) &&& 0x7F).toNat
  match op with
  | 0x33 => ⟨rvOpName f7 f3, [.reg rd, .reg rs1, .reg rs2]⟩
  | 0x13 =>
    let imm := sext (w >>> 20) 12
    let imm := if f3 = 1 ∨ f3 = 5 then imm &&& 0x1F else imm
    ⟨rvOpImmName f7 f3, [.reg rd, .reg rs1, .dec imm.toInt]⟩
  | 0x03 =>
    ⟨rvLoadName f3, [.reg rd, .offset (sext (w >>> 20) 12).toInt rs1]⟩
  | 0x23 =>
    let imm := sext (((w >>> 25) <<< 5) ||| ((w >>> 7) &&& 0x1F)) 12
    ⟨rvStoreName f3, [.reg rs2, .offset imm.toInt rs1]⟩
  | 0x63 =>
    let imm := (((w >>> 31) &&& 1) <<< 12) ||| (((w >>> 7) &&& 1) <<< 11)
      ||| (((w >>> 25) &&& 0x3F) <<< 5) ||| (((w >>> 8) &&& 0xF) <<< 1)
    ⟨rvBranchName f3, [.reg rs1, .reg rs2, .hex (pc + sext imm 13)]⟩
  | 0x6F =>
    let imm := (((w >>> 31) &&& 1) <<< 20) ||| (((w >>> 12) &&& 0xFF) <<< 12)
      ||| (((w >>> 20) &&& 1) <<< 11) ||| (((w >>> 21) &&& 0x3FF) <<< 1)
    ⟨"jal", [.reg rd, .hex (pc + sext imm 21)]⟩
  | 0x67 =>
    ⟨"jalr", [.reg rd, .reg rs1, .dec (sext (w >>> 20) 12).toInt]⟩
  | 0x37 => ⟨"lui", [.reg rd, .hex (w >>> 12)]⟩
  | 0x17 => ⟨"auipc", [.reg rd, .hex (w >>> 12)]⟩
  | 0x73 => ⟨if w >>> 20 ≠ 0 then "ebreak" else "ecall", []⟩
  | 0x0F =>
    if f3 = 1 then ⟨"fence.i", []⟩
    else
      let pred := ((w >>> 24) &&& 0xF).toNat
      let succ := ((w >>> 20) &&& 0xF).toNat
      ⟨"fence", [.flags (rvFenceText pred), .flags (rvFenceText succ)]⟩
  | _ => ⟨".word", [.word w]⟩

/-- `rv_decode`: the number of bytes consumed and the line. -/
def rvDecode (pc : RivU32) (bytes : List RivU8) :
    Except DecodeStop (ℕ × RvLine) := do
  need bytes 0 4
  let w ← readU32 bytes 0
  .ok (4, rvDecodeWord pc w)

end Rivet.Riscv32
