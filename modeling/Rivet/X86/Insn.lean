import Rivet.X86.Encode

/-!
# The instructions of the x86-64 backend

An accepted line is one instruction, and what `x86_encode` emits for it are the
bytes of that instruction.  `LineForm` lists the lines that are accepted, with the
operands and the instruction of each; every group of mnemonics stores one of them.
-/

namespace Rivet.X86

open CLib Assembler List Exec Option

variable {st st' : AsState} {a m : CStr} {ops : List CStr} {α : Type}

/-! ## Byte sequences -/

def rexBytes (w r x b : ℕ) : List RivU8 :=
  if w ≠ 0 ∨ r ≠ 0 ∨ x ≠ 0 ∨ b ≠ 0 then
    [u8 (0x40 ||| (w <<< 3) ||| (r <<< 2) ||| (x <<< 1) ||| b)]
  else []

def modrmByte (mod regOrDigit rm : ℕ) : RivU8 :=
  u8 ((mod <<< 6) ||| ((regOrDigit &&& 7) <<< 3) ||| (rm &&& 7))

def X86Mem.dispBytes (m : X86Mem) : List RivU8 :=
  if m.hasSib ∧ m.mod = 0 ∧ m.base < 0 then leU32 m.disp
  else if m.mod = 1 then [(m.disp &&& 0xFF).setWidth 8]
  else if m.mod = 2 then leU32 m.disp
  else []

def X86Mem.bytes (reg : ℕ) (m : X86Mem) : List RivU8 :=
  modrmByte m.mod reg m.rm :: ((if m.hasSib then [m.sib] else []) ++ m.dispBytes)

def X86Mem.rex (reg : ℕ) (m : X86Mem) : List RivU8 :=
  rexBytes 1 ((reg >>> 3) &&& 1) (highBit m.index) (highBit m.base)

/-- The forms of instructions the encoder emits.  `plain` is a fixed byte
sequence, `imm8` an opcode with one byte, `stack` a push or a pop, `rr` and
`unary` have register operands, `mem` one memory operand. -/
inductive X86Insn where
  | plain (bytes : List RivU8)
  | imm8 (opcode v : RivU8)
  | stack (opcode : ℕ) (r : ℕ)
  | rr (opcode : RivU8) (dst src : ℕ)
  | ri32 (digit dst : ℕ) (imm : RivI32)
  | movImm32 (dst : ℕ) (imm : RivI32)
  | movImm64 (dst : ℕ) (imm : RivU64)
  | mem (opcode : RivU8) (reg : ℕ) (m : X86Mem)
  | movMem (m : X86Mem) (imm : RivI32)
  | imul (dst src : ℕ)
  | unary (opcode : RivU8) (dst digit : ℕ)
  | shift (dst digit : ℕ) (imm : RivU8)
  | branch (opcode : RivU8) (off : RivI32)
  | jcc (cc : RivU8) (off : RivI32)

def X86Insn.bytes : X86Insn → List RivU8
  | .plain bytes => bytes
  | .imm8 opcode v => [opcode, v]
  | .stack opcode r => (if 8 ≤ r then [0x41] else []) ++ [u8 (opcode + (r &&& 7))]
  | .rr opcode dst src =>
    rexBytes 1 ((src >>> 3) &&& 1) 0 ((dst >>> 3) &&& 1) ++
      [opcode, modrmByte 3 src dst]
  | .ri32 digit dst imm =>
    rexBytes 1 0 0 ((dst >>> 3) &&& 1) ++ [0x81, modrmByte 3 digit dst] ++ leU32 imm
  | .movImm32 dst imm =>
    rexBytes 1 0 0 ((dst >>> 3) &&& 1) ++ [0xC7, modrmByte 3 0 dst] ++ leU32 imm
  | .movImm64 dst imm =>
    rexBytes 1 0 0 ((dst >>> 3) &&& 1) ++ [u8 (0xB8 + (dst &&& 7))] ++ leU64 imm
  | .mem opcode reg m => m.rex reg ++ [opcode] ++ m.bytes reg
  | .movMem m imm => m.rex 0 ++ [0xC7] ++ m.bytes 0 ++ leU32 imm
  | .imul dst src =>
    rexBytes 1 ((dst >>> 3) &&& 1) 0 ((src >>> 3) &&& 1) ++
      [0x0F, 0xAF, modrmByte 3 dst src]
  | .unary opcode dst digit =>
    rexBytes 1 0 0 ((dst >>> 3) &&& 1) ++ [opcode, modrmByte 3 digit dst]
  | .shift dst digit imm =>
    rexBytes 1 0 0 ((dst >>> 3) &&& 1) ++ [0xC1, modrmByte 3 digit dst, imm]
  | .branch opcode off => opcode :: leU32 off
  | .jcc cc off => 0x0F :: cc :: leU32 off

/-- The memory operands `x86_parse_mem` can return. -/
structure X86Mem.WF (m : X86Mem) : Prop where
  base_ge : -1 ≤ m.base
  base_lt : m.base < 16
  index_ge : -1 ≤ m.index
  index_lt : m.index < 16
  scale_mem : m.scale ∈ [1, 2, 4, 8]
  disp_zero : m.hasDisp = false → m.disp = 0

def rrOpcodes : List RivU8 := [0x89, 0x87, 0x01, 0x09, 0x21, 0x29, 0x31, 0x39, 0x85]

def memOpcodes : List RivU8 :=
  [0x89, 0x8B, 0x8D, 0x01, 0x03, 0x09, 0x0B, 0x21, 0x23, 0x29, 0x2B, 0x31, 0x33,
   0x39, 0x3B, 0x85]

/-- The opcodes and operands of each form that the encoder uses. -/
def X86Insn.WF : X86Insn → Prop
  | .plain bytes => bytes ∈ x86ZeroOps.map Prod.snd ∨ bytes = [0xEC] ∨ bytes = [0xEE]
  | .imm8 opcode _ => opcode ∈ [0xCD, 0xE4, 0xE6]
  | .stack opcode r => opcode ∈ [0x50, 0x58] ∧ r < 16
  | .rr opcode dst src => opcode ∈ rrOpcodes ∧ dst < 16 ∧ src < 16
  | .ri32 digit dst _ => digit ∈ [0, 1, 4, 5, 6, 7] ∧ dst < 16
  | .movImm32 dst _ | .movImm64 dst _ => dst < 16
  | .mem opcode reg m => opcode ∈ memOpcodes ∧ reg < 16 ∧ m.WF
  | .movMem m _ => m.WF
  | .imul dst src => dst < 16 ∧ src < 16
  | .unary opcode dst digit =>
    (opcode, digit) ∈ [(0xFF, 0), (0xFF, 1), (0xF7, 2), (0xF7, 3), (0xF7, 4),
      (0xF7, 6), (0xF7, 7)] ∧ dst < 16
  | .shift dst digit _ => digit ∈ [4, 5, 7] ∧ dst < 16
  | .branch opcode _ => opcode ∈ [0xE8, 0xE9]
  | .jcc cc _ => cc ∈ x86JccOpcodes.map Prod.snd

/-! ## What the emit helpers store -/

theorem x86EmitImm32_eq (v : RivI32) (st : AsState) :
    x86EmitImm32 v st = emitAll (leU32 v) st := by simp [x86EmitImm32, leU32, emitAll, bind_pure]

theorem x86EmitRex_eq (w r x b : ℕ) (st : AsState) :
    x86EmitRex w r x b st = emitAll (rexBytes w r x b) st := by
  unfold x86EmitRex rexBytes
  split
  · rw [emitAll_singleton]
  · rw [emitAll_nil]

theorem x86EmitModrm_eq (mod reg rm : ℕ) (st : AsState) :
    x86EmitModrm mod reg rm st = emitAll [modrmByte mod reg rm] st := by
  rw [emitAll_singleton]
  rfl

theorem emitAll_bind (as bs : List RivU8) (st : AsState) :
    (emitAll as st >>= fun st => emitAll bs st) = emitAll (as ++ bs) st :=
  (emitAll_append as bs st).symm

theorem x86EmitRrMr_eq (dst src : ℕ) (opcode : RivU8) (st : AsState) :
    x86EmitRrMr dst src opcode st = emitAll (X86Insn.rr opcode dst src).bytes st := by
  simp only [x86EmitRrMr, x86EmitRex_eq, x86EmitModrm_eq, ← emitAll_singleton,
    emitAll_bind, X86Insn.bytes, singleton_append]

theorem x86EmitRi32_eq (dst digit : ℕ) (imm : RivI32) (st : AsState) :
    x86EmitRi32 dst digit imm st = emitAll (X86Insn.ri32 digit dst imm).bytes st := by
  simp only [x86EmitRi32, x86EmitRex_eq, x86EmitModrm_eq, x86EmitImm32_eq,
    ← emitAll_singleton, emitAll_bind, X86Insn.bytes, append_assoc,
    cons_append, nil_append]

theorem x86EmitShift_eq (dst digit : ℕ) (imm8 : RivI32) (st : AsState) :
    x86EmitShift dst digit imm8 st =
      emitAll (X86Insn.shift dst digit ((imm8 &&& 0xFF).setWidth 8)).bytes st := by
  simp only [x86EmitShift, x86EmitRex_eq, x86EmitModrm_eq, ← emitAll_singleton,
    emitAll_bind, X86Insn.bytes, singleton_append]

theorem x86EmitUnary_eq (opcode : RivU8) (dst digit : ℕ) (st : AsState) :
    x86EmitUnary opcode dst digit st = emitAll (X86Insn.unary opcode dst digit).bytes st := by
  simp only [x86EmitUnary, x86EmitRex_eq, x86EmitModrm_eq, ← emitAll_singleton,
    emitAll_bind, X86Insn.bytes, singleton_append]

theorem x86EmitMem_eq (reg : ℕ) (m : X86Mem) (st : AsState) :
    x86EmitMem reg m st = emitAll (m.bytes reg) st := by
  have hdisp (st : AsState) :
      (if m.hasSib ∧ m.mod = 0 ∧ m.base < 0 then x86EmitImm32 m.disp st
        else if m.mod = 1 then rivAsEmitU8 ((m.disp &&& 0xFF).setWidth 8) st
        else if m.mod = 2 then x86EmitImm32 m.disp st
        else .ok st) = emitAll m.dispBytes st := by
    unfold X86Mem.dispBytes
    grind [x86EmitImm32_eq, emitAll_singleton, emitAll_nil]
  simp only [x86EmitMem, hdisp, x86EmitModrm_eq]
  by_cases hsib : m.hasSib = true
  · simp only [if_pos hsib, ← emitAll_singleton, emitAll_bind, X86Mem.bytes, singleton_append]
  · simp only [if_neg hsib, ok_bind, emitAll_bind, X86Mem.bytes, singleton_append, nil_append]

theorem x86EmitOpMem_eq (opcode : RivU8) (reg : ℕ) (m : X86Mem) (st : AsState) :
    (do
      let st ← x86EmitRexForMem 1 reg m st
      let st ← rivAsEmitU8 opcode st
      x86EmitMem reg m st) = emitAll (X86Insn.mem opcode reg m).bytes st := by
  simp only [x86EmitRexForMem, x86EmitRex_eq, ← emitAll_singleton, x86EmitMem_eq,
    emitAll_bind, X86Insn.bytes, X86Mem.rex, append_assoc, singleton_append]

/-! ## Registers and memory operands of accepted lines -/

theorem x86RegLookup_lt {s : CStr} {r : ℕ} (h : x86RegLookup s = some r) : r < 16 :=
  (List.findIdx?_eq_some_iff_getElem.mp h).1

theorem x86IsReg_of_lookup {r : ℕ} (h : x86RegLookup a = some r) : x86IsReg a = true := by
  rw [x86IsReg, h, isSome_some]

theorem x86IsMem_of_reg {r : ℕ} (h : x86RegLookup a = some r) : x86IsMem a = false := by
  have hnames : ∀ name ∈ x86Regs, x86IsMem name.toList = false := by decide
  obtain ⟨hlt, hname, -⟩ := findIdx?_eq_some_iff_getElem.mp h
  grind

theorem x86ParseReg_eq_ok {s : CStr} {r : ℕ} (h : x86ParseReg s = .ok r) :
    x86RegLookup s = some r ∧ r < 16 := by
  unfold x86ParseReg at h
  split at h
  · next hr =>
    cases h
    exact ⟨hr, x86RegLookup_lt hr⟩
  · cases h

/-- The register of an atom with a star: the factor before it, or else the one
after it. -/
def scaledReg (a : CStr) : Option ℕ :=
  (x86RegLookup ((a.takeWhile (· ≠ '*')).dropWhile isBlank)).or
    (x86RegLookup ((a.dropWhile (· ≠ '*')).tail.dropWhile isBlank))

theorem x86ParseScaled_eq_ok {l r : CStr} {reg sc : ℕ} (h : x86ParseScaled st l r = .ok (reg, sc)) :
    (x86RegLookup (l.dropWhile isBlank)).or (x86RegLookup (r.dropWhile isBlank)) =
      some reg ∧ sc ∈ [1, 2, 4, 8] := by
  obtain ⟨⟨reg', sc'⟩, hparts, h⟩ := of_bind_eq_ok h
  simp only at h
  split at h
  · cases h
  next hsc =>
  cases h
  constructor
  · split at hparts
    · next hl =>
      obtain ⟨v, -, hv⟩ := of_bind_eq_ok hparts
      cases hv
      rw [hl, some_or]
    · next hl =>
      split at hparts
      · cases hparts
      next hr =>
      obtain ⟨v, -, hv⟩ := of_bind_eq_ok hparts
      cases hv
      rw [hl, hr, none_or]
  grind

/-- What an accepted atom does to the operand read so far. -/
inductive AtomStep (st : AsState) (m : X86Mem) (sign : ℤ) (a : CStr) : X86Mem → Prop where
  | scaled {reg sc : ℕ} (hstar : '*' ∈ a) (hreg : scaledReg a = some reg)
      (hsc : sc ∈ [1, 2, 4, 8]) : AtomStep st m sign a { m with index := reg, scale := sc }
  | base {reg : ℕ} (hstar : '*' ∉ a) (hreg : x86RegLookup a = some reg)
      (hbase : m.base < 0) : AtomStep st m sign a { m with base := reg }
  | index {reg : ℕ} (hstar : '*' ∉ a) (hreg : x86RegLookup a = some reg)
      (hbase : ¬m.base < 0) : AtomStep st m sign a { m with index := reg, scale := 1 }
  | disp {v : ℤ} (hstar : '*' ∉ a) (hreg : x86RegLookup a = none)
      (hv : rivAsParseImm st a = .ok v) :
      AtomStep st m sign a
        { m with disp := m.disp + BitVec.ofInt 32 (v * sign), hasDisp := true }

theorem dropWhile_star_eq_nil : a.dropWhile (· ≠ '*') = [] ↔ '*' ∉ a := by
  rw [dropWhile_eq_nil_iff]
  grind

theorem x86MemAtom_step {m m' : X86Mem} {sign : ℤ} (h : x86MemAtom st m (sign, a) = .ok m') :
    AtomStep st m sign a m' := by
  unfold x86MemAtom at h
  simp only at h
  split at h
  · next r hr =>
    obtain ⟨⟨reg, sc⟩, hparts, h⟩ := of_bind_eq_ok h
    obtain ⟨hreg, hsc⟩ := x86ParseScaled_eq_ok hparts
    cases h
    have hstar : '*' ∈ a := by grind [dropWhile_star_eq_nil.mpr]
    refine .scaled hstar ?_ hsc
    rw [scaledReg, hr]
    exact hreg
  · next hr =>
    have hstar : '*' ∉ a := dropWhile_star_eq_nil.mp hr
    split at h
    · next reg hreg =>
      split at h
      · next hbase =>
        cases h
        exact .base hstar hreg hbase
      · next hbase =>
        cases h
        exact .index hstar hreg hbase
    · next hreg =>
      obtain ⟨v, hv, h⟩ := of_bind_eq_ok h
      cases h
      exact .disp hstar hreg hv

theorem scaledReg_lt {reg : ℕ} (h : scaledReg a = some reg) : reg < 16 := by
  rw [scaledReg, or_eq_some_iff] at h
  rcases h with h | ⟨-, h⟩
  · exact x86RegLookup_lt h
  · exact x86RegLookup_lt h

theorem AtomStep.wf {m m' : X86Mem} {sign : ℤ} (h : AtomStep st m sign a m') (hm : m.WF) :
    m'.WF := by
  cases h with
  | scaled hstar hreg hsc =>
    have hlt := scaledReg_lt hreg
    exact ⟨hm.base_ge, hm.base_lt, by simp only; omega, by simp only; omega, hsc,
      hm.disp_zero⟩
  | base hstar hreg hbase =>
    have hlt := x86RegLookup_lt hreg
    exact ⟨by simp only; omega, by simp only; omega, hm.index_ge, hm.index_lt,
      hm.scale_mem, hm.disp_zero⟩
  | index hstar hreg hbase =>
    have hlt := x86RegLookup_lt hreg
    exact ⟨hm.base_ge, hm.base_lt, by simp only; omega, by simp only; omega,
      by simp, hm.disp_zero⟩
  | disp hstar hreg hv =>
    exact ⟨hm.base_ge, hm.base_lt, hm.index_ge, hm.index_lt, hm.scale_mem,
      fun hdisp => nomatch hdisp⟩

def X86Mem.empty : X86Mem := ⟨-1, -1, 1, false, 0⟩

theorem X86Mem.empty_wf : X86Mem.empty.WF := by refine ⟨?_, ?_, ?_, ?_, ?_, fun _ => rfl⟩ <;> decide

theorem x86ParseMem_eq_ok {tok : CStr} {m : X86Mem} (h : x86ParseMem st tok = .ok m) :
    ∃ atoms, splitAtoms 1 0 tok.tail.dropLast = .ok atoms ∧
      atoms.foldlM (x86MemAtom st) X86Mem.empty = .ok m := by
  unfold x86ParseMem at h
  split at h
  · cases h
  · split at h
    · cases h
    · exact of_bind_eq_ok h

theorem x86ParseMem_wf {tok : CStr} {m : X86Mem} (h : x86ParseMem st tok = .ok m) : m.WF := by
  obtain ⟨atoms, -, h⟩ := x86ParseMem_eq_ok h
  refine foldlM_inv h X86Mem.empty_wf ?_
  intro atom _ m m' hm hatom
  exact (x86MemAtom_step hatom).wf hm

/-! ## The forms of accepted lines -/

def stackOps : List (String × ℕ) := [("push", 0x50), ("pop", 0x58)]

def loadOps : List (String × RivU8) :=
  ("mov", 0x8B) :: ("lea", 0x8D) :: x86OpRm.map fun row => (row.1, row.2.2)

def storeOps : List (String × RivU8) :=
  ("mov", 0x89) :: x86OpRm.map fun row => (row.1, row.2.1)

def rrOps : List (String × RivU8) := ("mov", 0x89) :: ("xchg", 0x87) :: x86ArithMrOpcodes

def unaryOps : List (String × RivU8 × ℕ) :=
  [("inc", 0xFF, 0), ("dec", 0xFF, 1), ("neg", 0xF7, 3), ("not", 0xF7, 2), ("mul", 0xF7, 4),
   ("div", 0xF7, 6), ("idiv", 0xF7, 7)]

def shiftOps : List (String × ℕ) := [("shl", 4), ("shr", 5), ("sar", 7)]

def branchOps : List (String × RivU8) := [("jmp", 0xE9), ("call", 0xE8)]

/-- The mnemonic and the operands of an accepted line, with its instruction. -/
inductive LineForm (st : AsState) : CStr → List CStr → X86Insn → Prop where
  | zero {name bytes ops} (h : (name, bytes) ∈ x86ZeroOps) :
      LineForm st name.toList ops (.plain bytes)
  | int {a rest v} (hv : rivAsParseImm st a = .ok v) :
      LineForm st "int".toList (a :: rest) (.imm8 0xCD (BitVec.ofInt 8 v))
  | stack {name opcode a rest r} (h : (name, opcode) ∈ stackOps) (hr : x86RegLookup a = some r) :
      LineForm st name.toList (a :: rest) (.stack opcode r)
  | load {name opcode a b rest r m} (h : (name, opcode) ∈ loadOps)
      (hr : x86RegLookup a = some r) (hb : x86IsMem b = true) (hm : x86ParseMem st b = .ok m) :
      LineForm st name.toList (a :: b :: rest) (.mem opcode r m)
  | store {name opcode a b rest r m} (h : (name, opcode) ∈ storeOps) (ha : x86IsMem a = true)
      (hm : x86ParseMem st a = .ok m) (hr : x86RegLookup b = some r) :
      LineForm st name.toList (a :: b :: rest) (.mem opcode r m)
  | storeImm {a b rest m v} (ha : x86IsMem a = true) (hm : x86ParseMem st a = .ok m)
      (hb : x86IsMem b = false) (hreg : x86IsReg b = false) (hv : rivAsParseImm st b = .ok v) :
      LineForm st "mov".toList (a :: b :: rest) (.movMem m (BitVec.ofInt 32 v))
  | rr {name opcode a b rest dst src} (h : (name, opcode) ∈ rrOps)
      (hdst : x86RegLookup a = some dst) (hsrc : x86RegLookup b = some src) :
      LineForm st name.toList (a :: b :: rest) (.rr opcode dst src)
  | movImm32 {a b rest dst v} (hdst : x86RegLookup a = some dst) (hb : x86IsMem b = false)
      (hreg : x86IsReg b = false) (hv : rivAsParseImm st b = .ok v) (hfits : fitsI32 v = true) :
      LineForm st "mov".toList (a :: b :: rest) (.movImm32 dst (BitVec.ofInt 32 v))
  | movImm64 {a b rest dst v} (hdst : x86RegLookup a = some dst) (hb : x86IsMem b = false)
      (hreg : x86IsReg b = false) (hv : rivAsParseImm st b = .ok v) (hfits : fitsI32 v = false) :
      LineForm st "mov".toList (a :: b :: rest) (.movImm64 dst (BitVec.ofInt 64 v))
  | arithImm {name digit a b rest dst v} (h : (name, digit) ∈ x86ArithDigits)
      (hdst : x86RegLookup a = some dst) (hb : x86IsMem b = false) (hreg : x86IsReg b = false)
      (hv : rivAsParseImm st b = .ok v) :
      LineForm st name.toList (a :: b :: rest) (.ri32 digit dst (BitVec.ofInt 32 v))
  | imul {a b rest dst src} (hdst : x86RegLookup a = some dst) (hsrc : x86RegLookup b = some src) :
      LineForm st "imul".toList (a :: b :: rest) (.imul dst src)
  | unary {name opcode digit a rest r} (h : (name, opcode, digit) ∈ unaryOps)
      (hr : x86RegLookup a = some r) : LineForm st name.toList (a :: rest) (.unary opcode r digit)
  | shift {name digit a b rest r v} (h : (name, digit) ∈ shiftOps) (hr : x86RegLookup a = some r)
      (hv : rivAsParseImm st b = .ok v) :
      LineForm st name.toList (a :: b :: rest) (.shift r digit (BitVec.ofInt 8 v))
  | branch {name opcode a rest v} (h : (name, opcode) ∈ branchOps)
      (hv : rivAsParseImm st a = .ok v) :
      LineForm st name.toList (a :: rest) (.branch opcode (x86RelOffset st 5 v))
  | jcc {name cc a rest v} (h : (name, cc) ∈ x86JccOpcodes) (hv : rivAsParseImm st a = .ok v) :
      LineForm st name.toList (a :: rest) (.jcc cc (x86RelOffset st 6 v))
  | inDx {rest} : LineForm st "in".toList ("al".toList :: "dx".toList :: rest) (.plain [0xEC])
  | inImm {b rest v} (hb : b ≠ "dx".toList) (hv : rivAsParseImm st b = .ok v) :
      LineForm st "in".toList ("al".toList :: b :: rest) (.imm8 0xE4 (BitVec.ofInt 8 v))
  | outDx {rest} : LineForm st "out".toList ("dx".toList :: "al".toList :: rest) (.plain [0xEE])
  | outImm {a rest v} (ha : a ≠ "dx".toList) (hv : rivAsParseImm st a = .ok v) :
      LineForm st "out".toList (a :: "al".toList :: rest) (.imm8 0xE6 (BitVec.ofInt 8 v))

theorem LineForm.wf {i : X86Insn} (h : LineForm st m ops i) : i.WF := by
  have hstack : ∀ row ∈ stackOps, row.2 ∈ [0x50, 0x58] := by decide
  have hload : ∀ row ∈ loadOps, row.2 ∈ memOpcodes := by decide
  have hstore : ∀ row ∈ storeOps, row.2 ∈ memOpcodes := by decide
  have hrr : ∀ row ∈ rrOps, row.2 ∈ rrOpcodes := by decide
  have hdigit : ∀ row ∈ x86ArithDigits, row.2 ∈ [0, 1, 4, 5, 6, 7] := by decide
  have hunary : ∀ row ∈ unaryOps, row.2 ∈ [((0xFF : RivU8), 0), (0xFF, 1), (0xF7, 2),
      (0xF7, 3), (0xF7, 4), (0xF7, 6), (0xF7, 7)] := by decide
  have hshift : ∀ row ∈ shiftOps, row.2 ∈ [4, 5, 7] := by decide
  have hbranch : ∀ row ∈ branchOps, row.2 ∈ [0xE8, 0xE9] := by decide
  cases h with
  | zero h => exact .inl (mem_map_of_mem h)
  | int | inImm | outImm => simp [X86Insn.WF]
  | stack h hr => exact ⟨hstack _ h, x86RegLookup_lt hr⟩
  | load h hr _ hm => exact ⟨hload _ h, x86RegLookup_lt hr, x86ParseMem_wf hm⟩
  | store h _ hm hr => exact ⟨hstore _ h, x86RegLookup_lt hr, x86ParseMem_wf hm⟩
  | storeImm _ hm => exact x86ParseMem_wf hm
  | rr h hdst hsrc => exact ⟨hrr _ h, x86RegLookup_lt hdst, x86RegLookup_lt hsrc⟩
  | movImm32 hdst | movImm64 hdst => exact x86RegLookup_lt hdst
  | arithImm h hdst => exact ⟨hdigit _ h, x86RegLookup_lt hdst⟩
  | imul hdst hsrc => exact ⟨x86RegLookup_lt hdst, x86RegLookup_lt hsrc⟩
  | unary h hr => exact ⟨hunary _ h, x86RegLookup_lt hr⟩
  | shift h hr => exact ⟨hshift _ h, x86RegLookup_lt hr⟩
  | branch h => exact hbranch _ h
  | jcc h => exact mem_map_of_mem h
  | inDx => exact .inr (.inl rfl)
  | outDx => exact .inr (.inr rfl)

/-! ## What the groups of mnemonics accept -/

/-- The group of a mnemonic and the function that handles it. -/
inductive Group (m : CStr) : Handler → Prop where
  | zero {bytes : List RivU8} (h : lookupMnem x86ZeroOps m = some bytes) :
      Group m fun _ st => emitAll bytes st
  | int (h : m = "int".toList) : Group m x86Int
  | pushPop (h : m = "push".toList ∨ m = "pop".toList) : Group m (x86PushPop m)
  | mov (h : m = "mov".toList) : Group m x86Mov
  | xchg (h : m = "xchg".toList) : Group m x86Xchg
  | arith {mr : RivU8} (h : lookupMnem x86ArithMrOpcodes m = some mr) :
      Group m (x86Arith m mr)
  | lea (h : m = "lea".toList) : Group m x86Lea
  | imul (h : m = "imul".toList) : Group m x86Imul
  | incDec (h : m = "inc".toList ∨ m = "dec".toList) : Group m (x86IncDec m)
  | negNot (h : m = "neg".toList ∨ m = "not".toList) : Group m (x86NegNot m)
  | mulDiv (h : m = "mul".toList ∨ m = "div".toList ∨ m = "idiv".toList) :
      Group m (x86MulDiv m)
  | shiftOp (h : m = "shl".toList ∨ m = "shr".toList ∨ m = "sar".toList) :
      Group m (x86ShiftOp m)
  | jmpCall (h : m = "jmp".toList ∨ m = "call".toList) : Group m (x86JmpCall m)
  | jcc {cc : RivU8} (h : lookupMnem x86JccOpcodes m = some cc) : Group m (x86Jcc m cc)
  | inPort (h : m = "in".toList) : Group m x86In
  | outPort (h : m = "out".toList) : Group m x86Out

theorem of_guard {c : Prop} [Decidable c] {x f : α} (h : (if c then some x else none) = some f) :
    c ∧ x = f := by
  by_cases hc : c
  all_goals grind

theorem x86Handler_group {f : Handler} (h : x86Handler m = some f) : Group m f := by
  obtain ⟨g, hg, hgf⟩ := exists_of_findSome?_eq_some h
  subst hgf
  simp only [x86Groups, mem_cons, not_mem_nil, or_false] at hg
  rcases hg with hg | hg | hg | hg | hg | hg | hg | hg | hg | hg | hg | hg | hg | hg | hg | hg
  all_goals
    first
    | obtain ⟨hm, rfl⟩ := of_guard hg.symm
      constructor
      exact hm
    | obtain ⟨v, hrow, rfl⟩ := map_eq_some_iff.mp hg.symm
      constructor
      exact hrow

theorem lookupMnem_row {table : List (String × α)} {v : α} (h : lookupMnem table m = some v) :
    ∃ name, (name, v) ∈ table ∧ m = name.toList := by
  unfold lookupMnem at h
  rw [map_eq_some_iff] at h
  grind

/-- The line has one of the forms, and its instruction is stored. -/
def Stores (st : AsState) (m : CStr) (ops : List CStr) (st' : AsState) : Prop :=
  ∃ i, LineForm st m ops i ∧ emitAll i.bytes st = .ok st'

theorem emitImm8_eq_ok {opcode : RivU8} (h : (do
      let st ← rivAsEmitU8 opcode st
      let v ← rivAsParseImm st a
      rivAsEmitU8 (BitVec.ofInt 8 v) st) = .ok st') :
    ∃ v, rivAsParseImm st a = .ok v ∧
      emitAll (X86Insn.imm8 opcode (BitVec.ofInt 8 v)).bytes st = .ok st' := by
  obtain ⟨st₁, h₁, h⟩ := of_bind_eq_ok h
  obtain ⟨v, hv, h₂⟩ := of_bind_eq_ok h
  obtain ⟨-, rfl⟩ := rivAsEmitU8_eq_ok h₁
  refine ⟨v, (rivAsParseImm_congr (put_pass opcode st) (put_symtab opcode st) a).symm.trans hv, ?_⟩
  rw [X86Insn.bytes, emitAll_cons, h₁, ok_bind, emitAll_singleton]
  exact h₂

theorem x86EmitRmOrMr_stores {name : String} {mName b : CStr} {mr rm : RivU8} {rest : List CStr}
    (hload : (name, rm) ∈ loadOps) (hstore : (name, mr) ∈ storeOps)
    (hmem : x86IsMem a = true ∨ x86IsMem b = true)
    (h : x86EmitRmOrMr mName mr rm a b st = .ok st') :
    Stores st name.toList (a :: b :: rest) st' := by
  unfold x86EmitRmOrMr at h
  simp only at h
  split_ifs at h with hboth hnone hb
  · cases h
  · grind
  · obtain ⟨r, hr, h⟩ := of_bind_eq_ok h
    obtain ⟨m, hm, h⟩ := of_bind_eq_ok h
    rw [x86EmitOpMem_eq] at h
    exact ⟨_, .load hload (x86ParseReg_eq_ok hr).1 hb hm, h⟩
  · obtain ⟨r, hr, h⟩ := of_bind_eq_ok h
    obtain ⟨m, hm, h⟩ := of_bind_eq_ok h
    rw [x86EmitOpMem_eq] at h
    exact ⟨_, .store hstore (hmem.resolve_right hb) hm (x86ParseReg_eq_ok hr).1, h⟩

theorem x86Mov_store_eq (m : X86Mem) (imm : RivI32) (st : AsState) :
    (do
      let st ← x86EmitRexForMem 1 0 m st
      let st ← rivAsEmitU8 0xC7 st
      let st ← x86EmitMem 0 m st
      x86EmitImm32 imm st) = emitAll (X86Insn.movMem m imm).bytes st := by
  simp only [x86EmitRexForMem, x86EmitRex_eq, ← emitAll_singleton, x86EmitMem_eq,
    x86EmitImm32_eq, emitAll_bind, X86Insn.bytes, X86Mem.rex, append_assoc]

theorem x86Mov_imm32_eq (dst : ℕ) (imm : RivI32) (st : AsState) :
    (do
      let st ← x86EmitRex 1 0 0 ((dst >>> 3) &&& 1) st
      let st ← rivAsEmitU8 0xC7 st
      let st ← x86EmitModrm 3 0 dst st
      x86EmitImm32 imm st) = emitAll (X86Insn.movImm32 dst imm).bytes st := by
  simp only [x86EmitRex_eq, ← emitAll_singleton, x86EmitModrm_eq, x86EmitImm32_eq,
    emitAll_bind, X86Insn.bytes, append_assoc, cons_append, nil_append]

theorem x86Mov_imm64_eq (dst : ℕ) (imm : ℤ) (st : AsState) :
    (do
      let st ← x86EmitRex 1 0 0 ((dst >>> 3) &&& 1) st
      let st ← rivAsEmitU8 (u8 (0xB8 + (dst &&& 7))) st
      x86EmitImm64 imm st) =
      emitAll (X86Insn.movImm64 dst (BitVec.ofInt 64 imm)).bytes st := by
  simp only [x86EmitRex_eq, ← emitAll_singleton, x86EmitImm64, emitAll_bind,
    X86Insn.bytes, append_assoc]

theorem x86Mov_stores (h : x86Mov ops st = .ok st') : Stores st "mov".toList ops st' := by
  obtain _ | ⟨a, _ | ⟨b, rest⟩⟩ := ops
  · cases h
  · cases h
  simp only [x86Mov] at h
  split_ifs at h with hmem hstore hreg
  · obtain ⟨m, hm, h⟩ := of_bind_eq_ok h
    obtain ⟨v, hv, h⟩ := of_bind_eq_ok h
    rw [x86Mov_store_eq] at h
    exact ⟨_, .storeImm hstore.1 hm (eq_false_of_ne_true hstore.2.2)
      (eq_false_of_ne_true hstore.2.1) hv, h⟩
  · exact x86EmitRmOrMr_stores (by decide) (by decide) hmem h
  · obtain ⟨dst, hdst, h⟩ := of_bind_eq_ok h
    obtain ⟨src, hsrc, h⟩ := of_bind_eq_ok h
    rw [x86EmitRrMr_eq] at h
    exact ⟨_, .rr (by decide) (x86ParseReg_eq_ok hdst).1 (x86ParseReg_eq_ok hsrc).1, h⟩
  · obtain ⟨dst, hdst, h⟩ := of_bind_eq_ok h
    obtain ⟨v, hv, h⟩ := of_bind_eq_ok h
    have hdst := (x86ParseReg_eq_ok hdst).1
    have hb : x86IsMem b = false := eq_false_of_ne_true fun h => hmem (.inr h)
    have hreg := eq_false_of_ne_true hreg
    rw [x86Mov_imm32_eq, x86Mov_imm64_eq] at h
    split_ifs at h with hfits
    · exact ⟨_, .movImm32 hdst hb hreg hv hfits, h⟩
    · exact ⟨_, .movImm64 hdst hb hreg hv (eq_false_of_ne_true hfits), h⟩

theorem x86Arith_stores {name : String} {mr : RivU8} (hrow : (name, mr) ∈ x86ArithMrOpcodes)
    (h : x86Arith name.toList mr ops st = .ok st') : Stores st name.toList ops st' := by
  obtain _ | ⟨a, _ | ⟨b, rest⟩⟩ := ops
  · cases h
  · cases h
  simp only [x86Arith] at h
  split_ifs at h with hmem hreg
  · split at h
    · next mr' rm hops =>
      obtain ⟨name', hname, hm⟩ := lookupMnem_row hops
      rw [hm]
      refine x86EmitRmOrMr_stores (.tail _ (.tail _ ?_)) (.tail _ ?_) hmem h
      · exact mem_map.mpr ⟨_, hname, rfl⟩
      · exact mem_map.mpr ⟨_, hname, rfl⟩
    · cases h
  · obtain ⟨dst, hdst, h⟩ := of_bind_eq_ok h
    obtain ⟨src, hsrc, h⟩ := of_bind_eq_ok h
    rw [x86EmitRrMr_eq] at h
    exact ⟨_, .rr (.tail _ (.tail _ hrow)) (x86ParseReg_eq_ok hdst).1 (x86ParseReg_eq_ok hsrc).1, h⟩
  · obtain ⟨dst, hdst, h⟩ := of_bind_eq_ok h
    split at h
    · cases h
    next digit hdigit =>
    obtain ⟨name', hname, hm⟩ := lookupMnem_row hdigit
    obtain ⟨v, hv, h⟩ := of_bind_eq_ok h
    rw [x86EmitRi32_eq] at h
    rw [hm]
    exact ⟨_, .arithImm hname (x86ParseReg_eq_ok hdst).1
      (eq_false_of_ne_true fun h => hmem (.inr h)) (eq_false_of_ne_true hreg) hv, h⟩

theorem shift_byte (v : ℤ) : (BitVec.ofInt 32 v &&& 0xFF).setWidth 8 = BitVec.ofInt 8 v := by
  apply BitVec.eq_of_toNat_eq
  have hmask : (BitVec.ofInt 32 v).toNat &&& (0xFF : BitVec 32).toNat =
      (BitVec.ofInt 32 v).toNat % 2 ^ 8 := Nat.and_two_pow_sub_one_eq_mod _ 8
  rw [BitVec.toNat_setWidth, BitVec.toNat_and, hmask, BitVec.toNat_ofInt, BitVec.toNat_ofInt]
  omega

theorem unary_stores {name : String} {opcode : RivU8} {digit : ℕ} {rest : List CStr}
    (hrow : (name, opcode, digit) ∈ unaryOps)
    (h : (x86ParseReg a >>= fun r => x86EmitUnary opcode r digit st) = .ok st') :
    Stores st name.toList (a :: rest) st' := by
  obtain ⟨r, hr, h⟩ := of_bind_eq_ok h
  rw [x86EmitUnary_eq] at h
  exact ⟨_, .unary hrow (x86ParseReg_eq_ok hr).1, h⟩

theorem shift_stores {name : String} {digit : ℕ} {b : CStr} {rest : List CStr}
    (hrow : (name, digit) ∈ shiftOps) (h : (do
      let r ← x86ParseReg a
      let v ← rivAsParseImm st b
      x86EmitShift r digit (BitVec.ofInt 32 v) st) = .ok st') :
    Stores st name.toList (a :: b :: rest) st' := by
  obtain ⟨r, hr, h⟩ := of_bind_eq_ok h
  obtain ⟨v, hv, h⟩ := of_bind_eq_ok h
  rw [x86EmitShift_eq, shift_byte] at h
  exact ⟨_, .shift hrow (x86ParseReg_eq_ok hr).1 hv, h⟩

theorem Group.stores {f : Handler} (hg : Group m f) (h : f ops st = .ok st') :
    Stores st m ops st' := by
  cases hg with
  | zero hrow =>
    obtain ⟨name, hname, rfl⟩ := lookupMnem_row hrow
    exact ⟨_, .zero hname, h⟩
  | mov hm => exact hm ▸ x86Mov_stores h
  | arith hrow =>
    obtain ⟨name, hname, rfl⟩ := lookupMnem_row hrow
    exact x86Arith_stores hname h
  | int hm =>
    obtain _ | ⟨a, rest⟩ := ops
    · cases h
    obtain ⟨v, hv, h⟩ := emitImm8_eq_ok h
    exact hm ▸ ⟨_, .int hv, h⟩
  | pushPop hm =>
    obtain _ | ⟨a, rest⟩ := ops
    · cases h
    obtain ⟨r, hr, h⟩ := of_bind_eq_ok h
    have hr := (x86ParseReg_eq_ok hr).1
    have hbytes (opcode : ℕ) : (do
        let st ← (if 8 ≤ r then rivAsEmitU8 0x41 st else .ok st)
        rivAsEmitU8 (u8 (opcode + (r &&& 7))) st) =
          emitAll (X86Insn.stack opcode r).bytes st := by
      rw [X86Insn.bytes, ← emitAll_bind]
      grind [emitAll_singleton, emitAll_nil]
    rw [hbytes] at h
    rcases hm with rfl | rfl
    · exact ⟨_, .stack (by decide) hr, h⟩
    · exact ⟨_, .stack (by decide) hr, h⟩
  | xchg hm =>
    obtain _ | ⟨a, _ | ⟨b, rest⟩⟩ := ops
    · cases h
    · cases h
    obtain ⟨dst, hdst, h⟩ := of_bind_eq_ok h
    obtain ⟨src, hsrc, h⟩ := of_bind_eq_ok h
    rw [x86EmitRrMr_eq] at h
    exact hm ▸ ⟨_, .rr (by decide) (x86ParseReg_eq_ok hdst).1
      (x86ParseReg_eq_ok hsrc).1, h⟩
  | lea hm =>
    obtain _ | ⟨a, _ | ⟨b, rest⟩⟩ := ops
    · cases h
    · cases h
    obtain ⟨r, hr, h⟩ := of_bind_eq_ok h
    split at h
    · cases h
    · next hmem =>
      obtain ⟨m, hm', h⟩ := of_bind_eq_ok h
      rw [x86EmitOpMem_eq] at h
      exact hm ▸ ⟨_, .load (by decide) (x86ParseReg_eq_ok hr).1 (not_not.mp hmem) hm', h⟩
  | imul hm =>
    obtain _ | ⟨a, _ | ⟨b, rest⟩⟩ := ops
    · cases h
    · cases h
    obtain ⟨dst, hdst, h⟩ := of_bind_eq_ok h
    obtain ⟨src, hsrc, h⟩ := of_bind_eq_ok h
    refine hm ▸ ⟨_, .imul (x86ParseReg_eq_ok hdst).1 (x86ParseReg_eq_ok hsrc).1, ?_⟩
    simpa only [x86EmitRex_eq, ← emitAll_singleton, x86EmitModrm_eq, emitAll_bind,
      X86Insn.bytes, singleton_append] using h
  | incDec hm | negNot hm =>
    obtain _ | ⟨a, rest⟩ := ops
    · cases h
    rcases hm with rfl | rfl
    · exact unary_stores (by decide) h
    · exact unary_stores (by decide) h
  | mulDiv hm =>
    obtain _ | ⟨a, rest⟩ := ops
    · cases h
    rcases hm with rfl | rfl | rfl
    · exact unary_stores (by decide) h
    · exact unary_stores (by decide) h
    · exact unary_stores (by decide) h
  | shiftOp hm =>
    obtain _ | ⟨a, _ | ⟨b, rest⟩⟩ := ops
    · cases h
    · cases h
    rcases hm with rfl | rfl | rfl
    · exact shift_stores (by decide) h
    · exact shift_stores (by decide) h
    · exact shift_stores (by decide) h
  | jmpCall hm =>
    obtain _ | ⟨a, rest⟩ := ops
    · cases h
    obtain ⟨v, hv, h⟩ := of_bind_eq_ok h
    simp only [← emitAll_singleton, x86EmitImm32_eq, emitAll_bind, singleton_append] at h
    rcases hm with rfl | rfl
    · exact ⟨_, .branch (by decide) hv, h⟩
    · exact ⟨_, .branch (by decide) hv, h⟩
  | jcc hrow =>
    obtain ⟨name, hname, rfl⟩ := lookupMnem_row hrow
    obtain _ | ⟨a, rest⟩ := ops
    · cases h
    obtain ⟨v, hv, h⟩ := of_bind_eq_ok h
    simp only [← emitAll_singleton, x86EmitImm32_eq, emitAll_bind, singleton_append] at h
    exact ⟨_, .jcc hname hv, h⟩
  | inPort hm =>
    obtain _ | ⟨a, _ | ⟨b, rest⟩⟩ := ops
    · cases h
    · cases h
    simp only [x86In] at h
    split_ifs at h with hal hdx
    · cases h
    · rw [not_not.mp hal, hdx, hm]
      exact ⟨_, .inDx, by rwa [← emitAll_singleton] at h⟩
    · obtain ⟨v, hv, h⟩ := emitImm8_eq_ok h
      rw [not_not.mp hal, hm]
      exact ⟨_, .inImm hdx hv, h⟩
  | outPort hm =>
    obtain _ | ⟨a, _ | ⟨b, rest⟩⟩ := ops
    · cases h
    · cases h
    simp only [x86Out] at h
    split_ifs at h with hal hdx
    · cases h
    · rw [not_not.mp hal, hdx, hm]
      exact ⟨_, .outDx, by rwa [← emitAll_singleton] at h⟩
    · obtain ⟨v, hv, h⟩ := emitImm8_eq_ok h
      rw [not_not.mp hal, hm]
      exact ⟨_, .outImm hdx hv, h⟩

/-! ## Accepted lines -/

/-- The instruction `i` is stored between the states. -/
structure Emits (i : X86Insn) (st st' : AsState) : Prop where
  wf : i.WF
  eq : emitAll i.bytes st = .ok st'

theorem Emits.emitted_eq {i : X86Insn} (h : Emits i st st') : emitted st st' = i.bytes :=
  emitted_of_emitAll h.eq

theorem x86Encode_eq_some {tok : List CStr} (h : x86Encode tok st = .ok (some st')) :
    ∃ m ops i, tok = m :: ops ∧ LineForm st m ops i ∧ Emits i st st' := by
  obtain _ | ⟨m, ops⟩ := tok
  · cases h
  simp only [x86Encode] at h
  split at h
  · cases h
  next f hf =>
  obtain ⟨st1, hst, h⟩ := of_bind_eq_ok h
  cases h
  obtain ⟨i, hform, hemit⟩ := (x86Handler_group hf).stores hst
  exact ⟨m, ops, i, rfl, hform, hform.wf, hemit⟩

theorem x86Encode_emits {tok : List CStr} (h : x86Encode tok st = .ok (some st')) :
    ∃ i, Emits i st st' := by
  obtain ⟨m, ops, i, -, -, hemit⟩ := x86Encode_eq_some h
  exact ⟨i, hemit⟩

end Rivet.X86
