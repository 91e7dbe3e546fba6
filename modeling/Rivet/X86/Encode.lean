import Mathlib.Data.List.DropRight
import Rivet.Assembler.Symbols

/-!
# The x86-64 assembler backend

Registers, memory operands and `x86_encode` of `x86_64_as.c`.  `x86_encode`
tests the mnemonic against one group after the other; `x86Groups` is that
chain of tests, and each group is a function of its own.
-/

namespace Rivet.X86

open CLib Assembler

/-! ## Registers -/

def x86Regs : List String :=
  ["rax", "rcx", "rdx", "rbx", "rsp", "rbp", "rsi", "rdi",
   "r8", "r9", "r10", "r11", "r12", "r13", "r14", "r15"]

/-- `x86_reg_lookup`; the source returns `-1` where this is `none`. -/
def x86RegLookup (s : CStr) : Option ℕ :=
  x86Regs.findIdx? fun name => name.toList = s

def x86ParseReg (s : CStr) : Except AsError ℕ :=
  match x86RegLookup s with
  | some r => .ok r
  | none => rivAsDie "bad x86_64 register:" (some s)

def x86IsReg (s : CStr) : Bool := (x86RegLookup s).isSome

/-! ## Emit helpers -/

/-- A nonnegative C `int` converted to `riv_u8`. -/
abbrev u8 (n : ℕ) : RivU8 := BitVec.ofNat 8 n

def x86EmitImm32 (v : RivI32) (st : AsState) : Except AsError AsState := do
  let st ← rivAsEmitU8 ((v &&& 0xFF).setWidth 8) st
  let st ← rivAsEmitU8 (((v >>> 8) &&& 0xFF).setWidth 8) st
  let st ← rivAsEmitU8 (((v >>> 16) &&& 0xFF).setWidth 8) st
  rivAsEmitU8 (((v >>> 24) &&& 0xFF).setWidth 8) st

def leU64 (v : RivU64) : List RivU8 :=
  (List.range 8).map fun i => ((v >>> (8 * i)) &&& 0xFF).setWidth 8

def x86EmitImm64 (v : ℤ) (st : AsState) : Except AsError AsState :=
  emitAll (leU64 (BitVec.ofInt 64 v)) st

def x86EmitRex (w r x b : ℕ) (st : AsState) : Except AsError AsState :=
  if w ≠ 0 ∨ r ≠ 0 ∨ x ≠ 0 ∨ b ≠ 0 then
    rivAsEmitU8 (u8 (0x40 ||| (w <<< 3) ||| (r <<< 2) ||| (x <<< 1) ||| b)) st
  else .ok st

def x86EmitModrm (mod regOrDigit rm : ℕ) (st : AsState) : Except AsError AsState :=
  rivAsEmitU8 (u8 ((mod <<< 6) ||| ((regOrDigit &&& 7) <<< 3) ||| (rm &&& 7))) st

def x86EmitRrMr (dst src : ℕ) (opcode : RivU8) (st : AsState) :
    Except AsError AsState := do
  let st ← x86EmitRex 1 ((src >>> 3) &&& 1) 0 ((dst >>> 3) &&& 1) st
  let st ← rivAsEmitU8 opcode st
  x86EmitModrm 3 src dst st

def x86EmitRi32 (dst digit : ℕ) (imm : RivI32) (st : AsState) :
    Except AsError AsState := do
  let st ← x86EmitRex 1 0 0 ((dst >>> 3) &&& 1) st
  let st ← rivAsEmitU8 0x81 st
  let st ← x86EmitModrm 3 digit dst st
  x86EmitImm32 imm st

def x86EmitShift (dst digit : ℕ) (imm8 : RivI32) (st : AsState) :
    Except AsError AsState := do
  let st ← x86EmitRex 1 0 0 ((dst >>> 3) &&& 1) st
  let st ← rivAsEmitU8 0xC1 st
  let st ← x86EmitModrm 3 digit dst st
  rivAsEmitU8 ((imm8 &&& 0xFF).setWidth 8) st

def x86EmitUnary (opcode : RivU8) (dst digit : ℕ) (st : AsState) :
    Except AsError AsState := do
  let st ← x86EmitRex 1 0 0 ((dst >>> 3) &&& 1) st
  let st ← rivAsEmitU8 opcode st
  x86EmitModrm 3 digit dst st

def x86EmitUnaryF7 : ℕ → ℕ → AsState → Except AsError AsState := x86EmitUnary 0xF7

def x86EmitUnaryFf : ℕ → ℕ → AsState → Except AsError AsState := x86EmitUnary 0xFF

/-! ## Memory operands -/

/-- `x86_mem`: `base` and `index` are register numbers, or `-1`. -/
structure X86Mem where
  base : ℤ
  index : ℤ
  scale : ℕ
  hasDisp : Bool
  disp : RivI32
  deriving DecidableEq, Repr

def x86IsMem (s : CStr) : Bool := s.head? = some '['

def isBlank (c : Char) : Bool := c = ' ' || c = '\t'

def isSign (c : Char) : Bool := c = '+' || c = '-'

/-- The signed atoms of a memory operand, from the position `p` on, with the
sign last met and the number of atoms stored so far. -/
def splitAtoms (sign : ℤ) (n : ℕ) (p : CStr) : Except AsError (List (ℤ × CStr)) :=
  let start := p.dropWhile isBlank
  if start = [] then .ok []
  else do
    let atom := (start.takeWhile fun c => !isSign c).rdropWhile isBlank
    let stored ←
      (if atom = [] then .ok []
      else if 8 ≤ n then rivAsDie "too many mem atoms" none
      else .ok [(sign, atom)])
    match _h : start.dropWhile fun c => !isSign c with
    | [] => .ok stored
    | saved :: rest => do
      let atoms ← splitAtoms (if saved = '-' then -1 else 1) (n + stored.length) rest
      .ok (stored ++ atoms)
termination_by p.length
decreasing_by
  have h₁ := (List.dropWhile_suffix isBlank (l := p)).length_le
  have h₂ := (List.dropWhile_suffix (fun c => !isSign c) (l := p.dropWhile isBlank)).length_le
  rw [_h, List.length_cons] at h₂
  omega

/-- The register and the scale of an atom with a star; the source has cut the
atom `a` at the star, and its errors quote the part before it. -/
def x86ParseScaled (st : AsState) (a r : CStr) : Except AsError (ℕ × ℕ) := do
  let l := a.dropWhile isBlank
  let r := r.dropWhile isBlank
  let (reg, sc) ←
    (match x86RegLookup l with
    | some reg => do
      let sc ← rivAsParseImm st r
      .ok (reg, BitVec.ofInt 32 sc)
    | none =>
      match x86RegLookup r with
      | none => rivAsDie "bad index reg:" (some a)
      | some reg => do
        let sc ← rivAsParseImm st l
        .ok (reg, BitVec.ofInt 32 sc))
  if sc ≠ 1 ∧ sc ≠ 2 ∧ sc ≠ 4 ∧ sc ≠ 8 then rivAsDie "bad scale (1/2/4/8):" (some a)
  else .ok (reg, sc.toNat)

/-- One round of the second loop of `x86_parse_mem`. -/
def x86MemAtom (st : AsState) (m : X86Mem) (atom : ℤ × CStr) :
    Except AsError X86Mem :=
  let (sign, a) := atom
  match a.dropWhile (· ≠ '*') with
  | _ :: r => do
    let (reg, sc) ← x86ParseScaled st (a.takeWhile (· ≠ '*')) r
    .ok { m with index := reg, scale := sc }
  | [] =>
    match x86RegLookup a with
    | some reg =>
      if m.base < 0 then .ok { m with base := reg }
      else .ok { m with index := reg, scale := 1 }
    | none => do
      let v ← rivAsParseImm st a
      .ok { m with disp := m.disp + BitVec.ofInt 32 (v * sign), hasDisp := true }

def x86ParseMem (st : AsState) (tok : CStr) : Except AsError X86Mem :=
  if tok.length < 2 ∨ tok.head? ≠ some '[' ∨ tok.getLast? ≠ some ']' then
    rivAsDie "bad mem operand:" (some tok)
  else if 128 ≤ tok.length - 2 then rivAsDie "mem operand too long" none
  else do
    let atoms ← splitAtoms 1 0 tok.tail.dropLast
    atoms.foldlM (x86MemAtom st) ⟨-1, -1, 1, false, 0⟩

/-- The low three bits of a register number, `7` for the absent one. -/
def and7 (reg : ℤ) : ℕ := (reg % 8).toNat

/-- The fourth bit of a register number, `0` for the absent one. -/
def highBit (reg : ℤ) : ℕ := if 0 ≤ reg then (reg.toNat >>> 3) &&& 1 else 0

def x86EmitRexForMem (w regField : ℕ) (m : X86Mem) (st : AsState) :
    Except AsError AsState :=
  x86EmitRex w ((regField >>> 3) &&& 1) (highBit m.index) (highBit m.base) st

def fitsI8 (v : RivI32) : Bool := -128 ≤ v.toInt ∧ v.toInt ≤ 127

/-- `has_sib`. -/
def X86Mem.hasSib (m : X86Mem) : Bool := 0 ≤ m.index ∨ (0 ≤ m.base ∧ and7 m.base = 4)

/-- `force_zero_disp`: a base of `rbp` or `r13` takes a displacement. -/
def X86Mem.forceZeroDisp (m : X86Mem) : Bool :=
  0 ≤ m.base ∧ and7 m.base = 5 ∧ m.hasDisp = false

def X86Mem.mod (m : X86Mem) : ℕ :=
  if ¬(m.hasDisp ∨ m.forceZeroDisp) then 0
  else if fitsI8 m.disp then 1
  else 2

def X86Mem.rm (m : X86Mem) : ℕ := if m.hasSib then 4 else and7 m.base

def X86Mem.sib (m : X86Mem) : RivU8 :=
  let sc := if m.scale = 1 then 0 else if m.scale = 2 then 1
    else if m.scale = 4 then 2 else 3
  let sibIndex := if 0 ≤ m.index then and7 m.index else 4
  let sibBase := if 0 ≤ m.base then and7 m.base else 5
  u8 ((sc <<< 6) ||| (sibIndex <<< 3) ||| sibBase)

def x86EmitMem (regField : ℕ) (m : X86Mem) (st : AsState) :
    Except AsError AsState := do
  let st ← x86EmitModrm m.mod regField m.rm st
  let st ← (if m.hasSib then rivAsEmitU8 m.sib st else .ok st)
  if m.hasSib ∧ m.mod = 0 ∧ m.base < 0 then x86EmitImm32 m.disp st
  else if m.mod = 1 then rivAsEmitU8 ((m.disp &&& 0xFF).setWidth 8) st
  else if m.mod = 2 then x86EmitImm32 m.disp st
  else .ok st

/-- `x86_emit_rm_or_mr`: `op dst, src` where one side may be memory. -/
def x86EmitRmOrMr (mName : CStr) (opcodeMr opcodeRm : RivU8)
    (dstTok srcTok : CStr) (st : AsState) : Except AsError AsState :=
  let srcIsMem := x86IsMem srcTok
  let dstIsMem := x86IsMem dstTok
  if srcIsMem ∧ dstIsMem then rivAsDie "memory-to-memory not allowed:" (some mName)
  else if ¬srcIsMem ∧ ¬dstIsMem then do
    let dst ← x86ParseReg dstTok
    let src ← x86ParseReg srcTok
    x86EmitRrMr dst src opcodeMr st
  else if srcIsMem then do
    let dst ← x86ParseReg dstTok
    let mem ← x86ParseMem st srcTok
    let st ← x86EmitRexForMem 1 dst mem st
    let st ← rivAsEmitU8 opcodeRm st
    x86EmitMem dst mem st
  else do
    let src ← x86ParseReg srcTok
    let mem ← x86ParseMem st dstTok
    let st ← x86EmitRexForMem 1 src mem st
    let st ← rivAsEmitU8 opcodeMr st
    x86EmitMem src mem st

/-! ## Opcode tables -/

def x86ZeroOps : List (String × List RivU8) :=
  [("nop", [0x90]), ("hlt", [0xF4]), ("int3", [0xCC]), ("cli", [0xFA]),
   ("sti", [0xFB]), ("ret", [0xC3]), ("syscall", [0x0F, 0x05]),
   ("sysret", [0x48, 0x0F, 0x07]), ("ud2", [0x0F, 0x0B]), ("leave", [0xC9]),
   ("iretq", [0x48, 0xCF])]

/-- `x86_jcc_opcode`. -/
def x86JccOpcodes : List (String × RivU8) :=
  [("jo", 0x80), ("jno", 0x81), ("jb", 0x82), ("jc", 0x82), ("jae", 0x83),
   ("jnc", 0x83), ("je", 0x84), ("jz", 0x84), ("jne", 0x85), ("jnz", 0x85),
   ("jbe", 0x86), ("jna", 0x86), ("ja", 0x87), ("jnbe", 0x87), ("js", 0x88),
   ("jns", 0x89), ("jp", 0x8A), ("jnp", 0x8B), ("jl", 0x8C), ("jge", 0x8D),
   ("jle", 0x8E), ("jg", 0x8F)]

/-- `x86_arith_digit`. -/
def x86ArithDigits : List (String × ℕ) :=
  [("add", 0), ("or", 1), ("and", 4), ("sub", 5), ("xor", 6), ("cmp", 7)]

/-- `x86_arith_mr_opcode`. -/
def x86ArithMrOpcodes : List (String × RivU8) :=
  [("add", 0x01), ("or", 0x09), ("and", 0x21), ("sub", 0x29), ("xor", 0x31),
   ("cmp", 0x39), ("test", 0x85)]

/-- The table `op_rm` of the arithmetic operations with a memory operand. -/
def x86OpRm : List (String × RivU8 × RivU8) :=
  [("add", 0x01, 0x03), ("sub", 0x29, 0x2B), ("and", 0x21, 0x23),
   ("or", 0x09, 0x0B), ("xor", 0x31, 0x33), ("cmp", 0x39, 0x3B),
   ("test", 0x85, 0x85)]

/-- The entry of the mnemonic `m` in a table. -/
def lookupMnem {α : Type} (table : List (String × α)) (m : CStr) : Option α :=
  (table.find? fun row => row.1.toList = m).map Prod.snd

/-! ## The encoder -/

/-- The groups below receive the operand tokens and return the state after
the line; a line they do not accept dies. -/
abbrev Handler := List CStr → AsState → Except AsError AsState

def x86Int : Handler
  | a :: _, st => do
    let st ← rivAsEmitU8 0xCD st
    let v ← rivAsParseImm st a
    rivAsEmitU8 (BitVec.ofInt 8 v) st
  | [], _ => rivAsDie "int needs imm8" none

def x86PushPop (m : CStr) : Handler
  | a :: _, st => do
    let r ← x86ParseReg a
    let st ← (if 8 ≤ r then rivAsEmitU8 0x41 st else .ok st)
    rivAsEmitU8 (u8 ((if m[1]? = some 'u' then 0x50 else 0x58) + (r &&& 7))) st
  | [], _ => rivAsDie "needs register" (some m)

def fitsI32 (v : ℤ) : Bool := -0x80000000 ≤ v ∧ v ≤ 0x7FFFFFFF

def x86Mov : Handler
  | a :: b :: _, st =>
    if x86IsMem a ∨ x86IsMem b then
      if x86IsMem a ∧ ¬x86IsReg b ∧ ¬x86IsMem b then do
        let mem ← x86ParseMem st a
        let imm ← rivAsParseImm st b
        let st ← x86EmitRexForMem 1 0 mem st
        let st ← rivAsEmitU8 0xC7 st
        let st ← x86EmitMem 0 mem st
        x86EmitImm32 (BitVec.ofInt 32 imm) st
      else x86EmitRmOrMr "mov".toList 0x89 0x8B a b st
    else do
      let dst ← x86ParseReg a
      if x86IsReg b then do
        let src ← x86ParseReg b
        x86EmitRrMr dst src 0x89 st
      else do
        let imm ← rivAsParseImm st b
        if fitsI32 imm then do
          let st ← x86EmitRex 1 0 0 ((dst >>> 3) &&& 1) st
          let st ← rivAsEmitU8 0xC7 st
          let st ← x86EmitModrm 3 0 dst st
          x86EmitImm32 (BitVec.ofInt 32 imm) st
        else do
          let st ← x86EmitRex 1 0 0 ((dst >>> 3) &&& 1) st
          let st ← rivAsEmitU8 (u8 (0xB8 + (dst &&& 7))) st
          x86EmitImm64 imm st
  | _, _ => rivAsDie "mov needs 2 operands" none

def x86Xchg : Handler
  | a :: b :: _, st => do
    let dst ← x86ParseReg a
    let src ← x86ParseReg b
    x86EmitRrMr dst src 0x87 st
  | _, _ => rivAsDie "xchg needs 2 regs" none

/-- The arithmetic group; `mr` is the opcode of the mnemonic `m`. -/
def x86Arith (m : CStr) (mr : RivU8) : Handler
  | a :: b :: _, st =>
    if x86IsMem a ∨ x86IsMem b then
      match lookupMnem x86OpRm m with
      | some (mr, rm) => x86EmitRmOrMr m mr rm a b st
      | none => rivAsDie "mem not supported for" (some m)
    else do
      let dst ← x86ParseReg a
      if x86IsReg b then do
        let src ← x86ParseReg b
        x86EmitRrMr dst src mr st
      else
        match lookupMnem x86ArithDigits m with
        | none => rivAsDie "only reg/reg supported for" (some m)
        | some dg => do
          let imm ← rivAsParseImm st b
          x86EmitRi32 dst dg (BitVec.ofInt 32 imm) st
  | _, _ => rivAsDie "needs 2 operands" (some m)

def x86Lea : Handler
  | a :: b :: _, st => do
    let dst ← x86ParseReg a
    if ¬x86IsMem b then rivAsDie "lea: second op must be [mem]" none
    else do
      let mem ← x86ParseMem st b
      let st ← x86EmitRexForMem 1 dst mem st
      let st ← rivAsEmitU8 0x8D st
      x86EmitMem dst mem st
  | _, _ => rivAsDie "lea reg, [mem]" none

def x86Imul : Handler
  | a :: b :: _, st => do
    let dst ← x86ParseReg a
    let src ← x86ParseReg b
    let st ← x86EmitRex 1 ((dst >>> 3) &&& 1) 0 ((src >>> 3) &&& 1) st
    let st ← rivAsEmitU8 0x0F st
    let st ← rivAsEmitU8 0xAF st
    x86EmitModrm 3 dst src st
  | _, _ => rivAsDie "imul reg, reg only" none

def x86IncDec (m : CStr) : Handler
  | a :: _, st => do
    let r ← x86ParseReg a
    x86EmitUnaryFf r (if m.head? = some 'i' then 0 else 1) st
  | [], _ => rivAsDie "needs register" (some m)

def x86NegNot (m : CStr) : Handler
  | a :: _, st => do
    let r ← x86ParseReg a
    x86EmitUnaryF7 r
      (if m.head? = some 'n' then (if m[1]? = some 'e' then 3 else 2) else 2) st
  | [], _ => rivAsDie "needs register" (some m)

def x86MulDiv (m : CStr) : Handler
  | a :: _, st => do
    let r ← x86ParseReg a
    x86EmitUnaryF7 r
      (if m = "mul".toList then 4 else if m = "div".toList then 6 else 7) st
  | [], _ => rivAsDie "needs register" (some m)

def x86ShiftOp (m : CStr) : Handler
  | a :: b :: _, st => do
    let r ← x86ParseReg a
    let v ← rivAsParseImm st b
    x86EmitShift r
      (if m = "shl".toList then 4 else if m = "shr".toList then 5 else 7)
      (BitVec.ofInt 32 v) st
  | _, _ => rivAsDie "needs reg, imm8" (some m)

/-- The distance from the end of a branch of the given size to its target. -/
def x86RelOffset (st : AsState) (size : RivU32) (tgt : ℤ) : RivI32 :=
  BitVec.ofInt 32 (tgt - (st.pc + st.base + size).toNat)

def x86JmpCall (m : CStr) : Handler
  | a :: _, st => do
    let tgt ← rivAsParseImm st a
    let off := x86RelOffset st 5 tgt
    let st ← rivAsEmitU8 (if m = "jmp".toList then 0xE9 else 0xE8) st
    x86EmitImm32 off st
  | [], _ => rivAsDie "needs target" (some m)

def x86Jcc (m : CStr) (cc : RivU8) : Handler
  | a :: _, st => do
    let tgt ← rivAsParseImm st a
    let off := x86RelOffset st 6 tgt
    let st ← rivAsEmitU8 0x0F st
    let st ← rivAsEmitU8 cc st
    x86EmitImm32 off st
  | [], _ => rivAsDie "jcc needs target" (some m)

def x86In : Handler
  | a :: b :: _, st =>
    if a ≠ "al".toList then rivAsDie "in al, ..." none
    else if b = "dx".toList then rivAsEmitU8 0xEC st
    else do
      let st ← rivAsEmitU8 0xE4 st
      let v ← rivAsParseImm st b
      rivAsEmitU8 (BitVec.ofInt 8 v) st
  | _, _ => rivAsDie "in al, ..." none

def x86Out : Handler
  | a :: b :: _, st =>
    if b ≠ "al".toList then rivAsDie "out ..., al" none
    else if a = "dx".toList then rivAsEmitU8 0xEE st
    else do
      let st ← rivAsEmitU8 0xE6 st
      let v ← rivAsParseImm st a
      rivAsEmitU8 (BitVec.ofInt 8 v) st
  | _, _ => rivAsDie "out ..., al" none

/-- The tests of `x86_encode` on the mnemonic `m`, in their order, each with
the group it guards. -/
def x86Groups (m : CStr) : List (Option Handler) :=
  [(lookupMnem x86ZeroOps m).map fun bytes _ st => emitAll bytes st,
   if m = "int".toList then some x86Int else none,
   if m = "push".toList ∨ m = "pop".toList then some (x86PushPop m) else none,
   if m = "mov".toList then some x86Mov else none,
   if m = "xchg".toList then some x86Xchg else none,
   (lookupMnem x86ArithMrOpcodes m).map (x86Arith m),
   if m = "lea".toList then some x86Lea else none,
   if m = "imul".toList then some x86Imul else none,
   if m = "inc".toList ∨ m = "dec".toList then some (x86IncDec m) else none,
   if m = "neg".toList ∨ m = "not".toList then some (x86NegNot m) else none,
   if m = "mul".toList ∨ m = "div".toList ∨ m = "idiv".toList then some (x86MulDiv m)
     else none,
   if m = "shl".toList ∨ m = "shr".toList ∨ m = "sar".toList then some (x86ShiftOp m)
     else none,
   if m = "jmp".toList ∨ m = "call".toList then some (x86JmpCall m) else none,
   (lookupMnem x86JccOpcodes m).map (x86Jcc m),
   if m = "in".toList then some x86In else none,
   if m = "out".toList then some x86Out else none]

/-- The group that handles the mnemonic `m`. -/
def x86Handler (m : CStr) : Option Handler := (x86Groups m).findSome? id

/-- `x86_encode`: nothing when the mnemonic is not recognised. -/
def x86Encode (tok : List CStr) (st : AsState) :
    Except AsError (Option AsState) :=
  match tok with
  | [] => .ok none
  | m :: ops =>
    match x86Handler m with
    | none => .ok none
    | some handler => do
      let st' ← handler ops st
      .ok (some st')

end Rivet.X86
