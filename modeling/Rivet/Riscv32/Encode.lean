import Rivet.Assembler.Symbols

/-!
# The RV32 assembler backend

Register names, the instruction formats, the instruction table, the
pseudo-operations and `rv_encode` of `riscv32_as.c`.
-/

namespace Rivet.Riscv32

open CLib Assembler

/-! ## Registers -/

def rvAbi : List String :=
  ["zero", "ra", "sp", "gp", "tp", "t0", "t1", "t2", "s0", "s1",
   "a0", "a1", "a2", "a3", "a4", "a5", "a6", "a7",
   "s2", "s3", "s4", "s5", "s6", "s7", "s8", "s9", "s10", "s11",
   "t3", "t4", "t5", "t6"]

/-- The number written after the letter of an `x` register name. -/
def rvXReg : CStr → Option ℕ
  | x :: d :: cs =>
    if (x = 'x' ∨ x = 'X') ∧ d.isDigit then
      let n := atoi (d :: cs)
      if 0 ≤ n ∧ n < 32 then some n.toNat else none
    else none
  | _ => none

def rvRegLookup (s : CStr) : Option ℕ :=
  match rvXReg s with
  | some n => some n
  | none =>
    if s = "fp".toList then some 8
    else rvAbi.findIdx? fun name => name.toList = s

def rvParseReg (s : CStr) : Except AsError ℕ :=
  match rvRegLookup s with
  | some r => .ok r
  | none => rivAsDie "bad RV register:" (some s)

/-! ## Instruction formats -/

/-- A nonnegative C `int` converted to `riv_u32`. -/
abbrev u32 (n : ℕ) : RivU32 := BitVec.ofNat 32 n

def encR (rd f3 rs1 rs2 f7 op : ℕ) : RivU32 :=
  (u32 f7 <<< 25)
    ||| (u32 rs2 <<< 20)
    ||| (u32 rs1 <<< 15)
    ||| (u32 f3 <<< 12)
    ||| (u32 rd <<< 7)
    ||| u32 op

def encI (rd f3 rs1 : ℕ) (imm : RivI32) (op : ℕ) : RivU32 :=
  ((imm &&& 0xFFF) <<< 20)
    ||| (u32 rs1 <<< 15)
    ||| (u32 f3 <<< 12)
    ||| (u32 rd <<< 7)
    ||| u32 op

def encShift (rd f3 rs1 : ℕ) (shamt : RivI32) (f7 op : ℕ) : RivU32 :=
  (u32 f7 <<< 25)
    ||| ((shamt &&& 0x1F) <<< 20)
    ||| (u32 rs1 <<< 15)
    ||| (u32 f3 <<< 12)
    ||| (u32 rd <<< 7)
    ||| u32 op

def encS (rs2 f3 rs1 : ℕ) (imm : RivI32) (op : ℕ) : RivU32 :=
  let i := imm &&& 0xFFF
  ((i >>> 5) <<< 25)
    ||| (u32 rs2 <<< 20)
    ||| (u32 rs1 <<< 15)
    ||| (u32 f3 <<< 12)
    ||| ((i &&& 0x1F) <<< 7)
    ||| u32 op

def encB (rs1 rs2 f3 : ℕ) (off : RivI32) (op : ℕ) : RivU32 :=
  let i := off &&& 0x1FFE
  (((i >>> 12) &&& 1) <<< 31)
    ||| (((i >>> 5) &&& 0x3F) <<< 25)
    ||| (u32 rs2 <<< 20)
    ||| (u32 rs1 <<< 15)
    ||| (u32 f3 <<< 12)
    ||| (((i >>> 1) &&& 0xF) <<< 8)
    ||| (((i >>> 11) &&& 1) <<< 7)
    ||| u32 op

def encU (rd : ℕ) (imm : RivI32) (op : ℕ) : RivU32 :=
  (imm &&& 0xFFFFF000)
    ||| (u32 rd <<< 7)
    ||| u32 op

def encJ (rd : ℕ) (off : RivI32) (op : ℕ) : RivU32 :=
  let i := off &&& 0x1FFFFE
  (((i >>> 20) &&& 1) <<< 31)
    ||| (((i >>> 1) &&& 0x3FF) <<< 21)
    ||| (((i >>> 11) &&& 1) <<< 20)
    ||| (((i >>> 12) &&& 0xFF) <<< 12)
    ||| (u32 rd <<< 7)
    ||| u32 op

/-- `rv_fence_set`, with the flags seen so far in `m`. -/
def rvFenceSet (m : ℕ) : CStr → Except AsError ℕ
  | [] => .ok m
  | c :: cs =>
    if c = 'i' then rvFenceSet (m ||| 8) cs
    else if c = 'o' then rvFenceSet (m ||| 4) cs
    else if c = 'r' then rvFenceSet (m ||| 2) cs
    else if c = 'w' then rvFenceSet (m ||| 1) cs
    else rivAsDie "bad fence flag:" (some (c :: cs))

/-! ## Instruction table -/

/-- The format kinds that drive operand parsing. -/
inductive Kind where
  | r
  | i
  | shift
  | load
  | store
  | branch
  | jal
  | jalr
  | lui
  | auipc
  | sys
  | fence
  deriving DecidableEq, Repr

/-- `insn_t`: a mnemonic, its format and its fixed encoding fields. -/
structure InsnT where
  name : String
  kind : Kind
  f3 : ℕ
  f7 : ℕ
  op : ℕ
  deriving DecidableEq, Repr

def rvIsa : List InsnT :=
  [⟨"add", .r, 0x0, 0x00, 0x33⟩, ⟨"sub", .r, 0x0, 0x20, 0x33⟩, ⟨"sll", .r, 0x1, 0x00, 0x33⟩,
   ⟨"slt", .r, 0x2, 0x00, 0x33⟩,
   ⟨"sltu", .r, 0x3, 0x00, 0x33⟩,
   ⟨"xor", .r, 0x4, 0x00, 0x33⟩,
   ⟨"srl", .r, 0x5, 0x00, 0x33⟩,
   ⟨"sra", .r, 0x5, 0x20, 0x33⟩,
   ⟨"or", .r, 0x6, 0x00, 0x33⟩,
   ⟨"and", .r, 0x7, 0x00, 0x33⟩,
   ⟨"addi", .i, 0x0, 0, 0x13⟩,
   ⟨"slti", .i, 0x2, 0, 0x13⟩,
   ⟨"sltiu", .i, 0x3, 0, 0x13⟩,
   ⟨"xori", .i, 0x4, 0, 0x13⟩,
   ⟨"ori", .i, 0x6, 0, 0x13⟩,
   ⟨"andi", .i, 0x7, 0, 0x13⟩,
   ⟨"slli", .shift, 0x1, 0x00, 0x13⟩,
   ⟨"srli", .shift, 0x5, 0x00, 0x13⟩,
   ⟨"srai", .shift, 0x5, 0x20, 0x13⟩,
   ⟨"lb", .load, 0x0, 0, 0x03⟩,
   ⟨"lh", .load, 0x1, 0, 0x03⟩,
   ⟨"lw", .load, 0x2, 0, 0x03⟩,
   ⟨"lbu", .load, 0x4, 0, 0x03⟩,
   ⟨"lhu", .load, 0x5, 0, 0x03⟩,
   ⟨"sb", .store, 0x0, 0, 0x23⟩,
   ⟨"sh", .store, 0x1, 0, 0x23⟩,
   ⟨"sw", .store, 0x2, 0, 0x23⟩,
   ⟨"beq", .branch, 0x0, 0, 0x63⟩,
   ⟨"bne", .branch, 0x1, 0, 0x63⟩,
   ⟨"blt", .branch, 0x4, 0, 0x63⟩,
   ⟨"bge", .branch, 0x5, 0, 0x63⟩,
   ⟨"bltu", .branch, 0x6, 0, 0x63⟩,
   ⟨"bgeu", .branch, 0x7, 0, 0x63⟩,
   ⟨"jal", .jal, 0, 0, 0x6F⟩,
   ⟨"jalr", .jalr, 0x0, 0, 0x67⟩,
   ⟨"lui", .lui, 0, 0, 0x37⟩,
   ⟨"auipc", .auipc, 0, 0, 0x17⟩,
   ⟨"ecall", .sys, 0, 0, 0x73⟩,
   ⟨"ebreak", .sys, 0, 1, 0x73⟩,
   ⟨"mul", .r, 0x0, 0x01, 0x33⟩,
   ⟨"mulh", .r, 0x1, 0x01, 0x33⟩,
   ⟨"mulhsu", .r, 0x2, 0x01, 0x33⟩,
   ⟨"mulhu", .r, 0x3, 0x01, 0x33⟩,
   ⟨"div", .r, 0x4, 0x01, 0x33⟩,
   ⟨"divu", .r, 0x5, 0x01, 0x33⟩,
   ⟨"rem", .r, 0x6, 0x01, 0x33⟩,
   ⟨"remu", .r, 0x7, 0x01, 0x33⟩,
   ⟨"fence", .fence, 0, 0, 0x0F⟩,
   ⟨"fence.i", .fence, 0x1, 0, 0x0F⟩]

def rvFind (m : CStr) : Option InsnT :=
  rvIsa.find? fun ix => ix.name.toList = m

/-! ## Pseudo-operations -/

/-- `rv_expand_pseudo`: the token list that `rv_encode` goes on with. -/
def rvExpandPseudo (t : List CStr) : Except AsError (List CStr) :=
  match t with
  | [] => .ok t
  | m :: ops =>
    if m = "nop".toList then
      .ok ["addi".toList, "x0".toList, "x0".toList, "0".toList]
    else if m = "mv".toList then
      match ops with
      | rd :: rs :: _ => .ok ["addi".toList, rd, rs, "0".toList]
      | _ => rivAsDie "mv needs 2 ops" none
    else if m = "li".toList then
      match ops with
      | rd :: imm :: _ => .ok ["addi".toList, rd, "x0".toList, imm]
      | _ => rivAsDie "li needs 2 ops" none
    else if m = "j".toList then
      match ops with
      | label :: _ => .ok ["jal".toList, "x0".toList, label]
      | _ => rivAsDie "j needs 1 op" none
    else if m = "ret".toList then
      .ok ["jalr".toList, "x0".toList, "x1".toList, "0".toList]
    else .ok t

/-! ## Encoding of one line -/

/-- `riv_as_parse_imm` cut to `riv_i32`. -/
def parseI32 (st : AsState) (s : CStr) : Except AsError RivI32 := do
  let v ← rivAsParseImm st s
  .ok (BitVec.ofInt 32 v)

/-- The `imm(reg)` operand of a load, a store or a short `jalr`. -/
def splitOffsetOrDie (tok : CStr) : Except AsError (CStr × CStr) := do
  match ← rivAsSplitOffset tok with
  | some parts => .ok parts
  | none => rivAsDie "expected imm(reg):" (some tok)

/-- The instruction word `rv_encode` computes for a table entry and its
operand tokens; `name` is the mnemonic token quoted by the errors. -/
def rvWord (st : AsState) (ix : InsnT) (name : CStr) (ops : List CStr) :
    Except AsError RivU32 :=
  match ix.kind with
  | .r =>
    match ops with
    | a :: b :: c :: _ => do
      let rd ← rvParseReg a
      let rs1 ← rvParseReg b
      let rs2 ← rvParseReg c
      .ok (encR rd ix.f3 rs1 rs2 ix.f7 ix.op)
    | _ => rivAsDie "need 3 operands" (some name)
  | .i =>
    match ops with
    | a :: b :: c :: _ => do
      let rd ← rvParseReg a
      let rs1 ← rvParseReg b
      let imm ← parseI32 st c
      .ok (encI rd ix.f3 rs1 imm ix.op)
    | _ => rivAsDie "need 3 operands" (some name)
  | .shift =>
    match ops with
    | a :: b :: c :: _ => do
      let rd ← rvParseReg a
      let rs1 ← rvParseReg b
      let shamt ← parseI32 st c
      .ok (encShift rd ix.f3 rs1 (shamt &&& 0x1F) ix.f7 ix.op)
    | _ => rivAsDie "need 3 operands" (some name)
  | .load =>
    match ops with
    | a :: b :: _ => do
      let (imm, rs1) ← splitOffsetOrDie b
      let rd ← rvParseReg a
      let rs1 ← rvParseReg rs1
      let imm ← parseI32 st imm
      .ok (encI rd ix.f3 rs1 imm ix.op)
    | _ => rivAsDie "need 2 operands" (some name)
  | .store =>
    match ops with
    | a :: b :: _ => do
      let (imm, rs1) ← splitOffsetOrDie b
      let rs2 ← rvParseReg a
      let rs1 ← rvParseReg rs1
      let imm ← parseI32 st imm
      .ok (encS rs2 ix.f3 rs1 imm ix.op)
    | _ => rivAsDie "need 2 operands" (some name)
  | .branch =>
    match ops with
    | a :: b :: c :: _ => do
      let tgt ← parseI32 st c
      let rs1 ← rvParseReg a
      let rs2 ← rvParseReg b
      .ok (encB rs1 rs2 ix.f3 (tgt - (st.pc + st.base)) ix.op)
    | _ => rivAsDie "need 3 operands" (some name)
  | .jal =>
    match ops with
    | a :: b :: _ => do
      let tgt ← parseI32 st b
      let rd ← rvParseReg a
      .ok (encJ rd (tgt - (st.pc + st.base)) ix.op)
    | _ => rivAsDie "need 2 operands" (some name)
  | .jalr =>
    match ops with
    | [a, b] => do
      let (imm, rs1) ← splitOffsetOrDie b
      let rd ← rvParseReg a
      let rs1 ← rvParseReg rs1
      let imm ← parseI32 st imm
      .ok (encI rd ix.f3 rs1 imm ix.op)
    | a :: b :: c :: _ => do
      let rd ← rvParseReg a
      let rs1 ← rvParseReg b
      let imm ← parseI32 st c
      .ok (encI rd ix.f3 rs1 imm ix.op)
    | _ => rivAsDie "need 3 operands" (some name)
  | .lui | .auipc =>
    match ops with
    | a :: b :: _ => do
      let v ← parseI32 st b
      let rd ← rvParseReg a
      .ok (encU rd (v <<< 12) ix.op)
    | _ => rivAsDie "need 2 operands" (some name)
  | .sys => .ok ((u32 ix.f7 <<< 20) ||| u32 ix.op)
  | .fence =>
    if ix.name = "fence.i" then .ok ((1 <<< 12) ||| u32 ix.op)
    else do
      let (pred, succ) ← match ops with
        | a :: b :: _ => do
          let pred ← rvFenceSet 0 a
          let succ ← rvFenceSet 0 b
          .ok (pred, succ)
        | _ => .ok (0x3, 0x3)
      .ok ((u32 pred <<< 24) ||| (u32 succ <<< 20) ||| u32 ix.op)

/-- `rv_encode`: nothing when the mnemonic is not in the table. -/
def rvEncode (tok : List CStr) (st : AsState) :
    Except AsError (Option AsState) := do
  let tok ← rvExpandPseudo tok
  match tok with
  | [] => .ok none
  | m :: ops =>
    match rvFind m with
    | none => .ok none
    | some ix => do
      let w ← rvWord st ix m ops
      let st' ← rivAsEmitU32 w st
      .ok (some st')

end Rivet.Riscv32
