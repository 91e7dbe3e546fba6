import Rivet.X86.Lines

/-!
# Decoding what was assembled

An accepted line without a memory operand says which line the disassembler
should print for it: the same mnemonic, up to the aliases of the conditions, the
same registers, and each immediate cut to the width of its field.  `x86_decode`
prints that line for the emitted bytes.
-/

namespace Rivet.X86

open CLib Assembler Disassembler Option

variable {st : AsState} {a b m tok : CStr} {name : String} {x : X86Operand} {rest : List CStr}
  {i : X86Insn}

/-! ## The line a source line stands for -/

/-- The operands of the forms without memory operands.  The source of a `mov` is
a register or an immediate, whose field is as wide as its value requires. -/
inductive OperandKind where
  | reg
  | imm (width : ℕ)
  | regOrImm (width : ℕ)
  | movSource
  | port
  | al
  deriving DecidableEq, Repr

/-- The value of an operand, cut to a field of `width v` bits. -/
def readImm (st : AsState) (width : ℤ → ℕ) (tok : CStr) : Option X86Operand :=
  match rivAsParseImm st tok with
  | .ok v => some (.hex (v % 2 ^ width v).toNat)
  | .error _ => none

def readReg (tok : CStr) : Option X86Operand := (x86RegLookup tok).map .reg

def OperandKind.read (st : AsState) (tok : CStr) : OperandKind → Option X86Operand
  | .reg => readReg tok
  | .imm width => readImm st (fun _ => width) tok
  | .regOrImm width => (readReg tok).or (readImm st (fun _ => width) tok)
  | .movSource => (readReg tok).or (readImm st (fun v => if fitsI32 v then 32 else 64) tok)
  | .port => if tok = "dx".toList then some (.name "dx") else readImm st (fun _ => 8) tok
  | .al => if tok = "al".toList then some (.name "al") else none

def readOperands (st : AsState) : List OperandKind → List CStr → Option (List X86Operand)
  | [], [] => some []
  | k :: ks, tok :: toks => do
    let x ← k.read st tok
    let xs ← readOperands st ks toks
    some (x :: xs)
  | _, _ => none

def otherForms : List (String × List OperandKind) :=
  [("int", [.imm 8]), ("push", [.reg]), ("pop", [.reg]), ("mov", [.reg, .movSource]),
   ("xchg", [.reg, .reg]), ("test", [.reg, .reg]), ("imul", [.reg, .reg]),
   ("inc", [.reg]), ("dec", [.reg]), ("neg", [.reg]), ("not", [.reg]), ("mul", [.reg]),
   ("div", [.reg]), ("idiv", [.reg]), ("shl", [.reg, .imm 8]), ("shr", [.reg, .imm 8]),
   ("sar", [.reg, .imm 8]), ("jmp", [.imm 32]), ("call", [.imm 32]), ("in", [.al, .port]),
   ("out", [.port, .al])]

def registerForms : List (String × List OperandKind) :=
  x86ZeroOps.map (fun row => (row.1, [])) ++ otherForms ++
  x86ArithDigits.map (fun row => (row.1, [.reg, .regOrImm 32])) ++
  x86JccOpcodes.map fun row => (row.1, [.imm 32])

def registerForm (m : CStr) : Option (String × List OperandKind) :=
  registerForms.find? fun row => row.1.toList = m

/-- The conditions with two names, and the name that is printed. -/
def conditionAliases : List (String × String) :=
  [("jc", "jb"), ("jnc", "jae"), ("jz", "je"), ("jnz", "jne"), ("jna", "jbe"), ("jnbe", "ja")]

def canonicalName (name : String) : String :=
  (lookupMnem conditionAliases name.toList).getD name

/-- The line that stands for the source line `m ops`. -/
def sourceLine (st : AsState) (m : CStr) (ops : List CStr) : Option X86Line := do
  let (name, kinds) ← registerForm m
  let xs ← readOperands st kinds ops
  some ⟨canonicalName name, xs⟩

def ExactOperands (m : CStr) (ops : List CStr) : Prop :=
  ∀ name kinds, registerForm m = some (name, kinds) → ops.length = kinds.length

/-! ## Operands read one by one -/

theorem readImm_eq {width : ℤ → ℕ} {v : ℤ} (h : rivAsParseImm st tok = .ok v) :
    readImm st width tok = some (.hex (BitVec.ofInt (width v) v).toNat) := by
  rw [readImm, h, BitVec.toNat_ofInt]
  norm_cast

theorem readReg_eq {r : ℕ} (h : x86RegLookup tok = some r) : readReg tok = some (.reg r) := by
  rw [readReg, h]
  rfl

theorem readReg_eq_none (h : x86IsReg tok = false) : readReg tok = none := by
  rw [x86IsReg, isSome_eq_false_iff, isNone_iff_eq_none] at h
  rw [readReg, h]
  rfl

theorem sourceLine_zero (hform : registerForm m = some (name, [])) :
    sourceLine st m [] = some ⟨canonicalName name, []⟩ := by
  rw [sourceLine, hform]
  rfl

variable {k : OperandKind}

theorem sourceLine_one (hform : registerForm m = some (name, [k])) (hx : k.read st a = some x) :
    sourceLine st m [a] = some ⟨canonicalName name, [x]⟩ := by
  rw [sourceLine, hform]
  simp only [bind_eq_bind, bind_some, readOperands, hx]

theorem sourceLine_two {l : OperandKind} {y : X86Operand}
    (hform : registerForm m = some (name, [k, l])) (hx : k.read st a = some x)
    (hy : l.read st b = some y) : sourceLine st m [a, b] = some ⟨canonicalName name, [x, y]⟩ := by
  rw [sourceLine, hform]
  simp only [bind_eq_bind, bind_some, readOperands, hx, hy]

theorem ExactOperands.nil {ops : List CStr} (h : ExactOperands m ops)
    (hform : registerForm m = some (name, [])) : ops = [] :=
  List.eq_nil_of_length_eq_zero (h name [] hform)

theorem ExactOperands.one (h : ExactOperands m (a :: rest))
    (hform : registerForm m = some (name, [k])) : rest = [] := by
  have hlen := h name [k] hform
  simp_all

theorem ExactOperands.two {l : OperandKind} (h : ExactOperands m (a :: b :: rest))
    (hform : registerForm m = some (name, [k, l])) : rest = [] := by
  have hlen := h name [k, l] hform
  simp_all

/-! ## Fields of the emitted instructions -/

theorem add_x86RelOffset (st : AsState) (size : RivU32) (tgt : ℤ) :
    st.pc + st.base + size + x86RelOffset st size tgt = BitVec.ofInt 32 tgt := by
  have hend : st.pc + st.base + size = BitVec.ofInt 32 (st.pc + st.base + size).toNat := by grind
  rw [x86RelOffset]
  nth_rewrite 1 [hend]
  rw [← BitVec.ofInt_add, add_sub_cancel]

/-! ## The groups of mnemonics -/

def X86Insn.MovesImm : X86Insn → Prop
  | .movImm32 _ _ | .movImm64 _ _ => True
  | _ => False

/-- The instruction `i` is printed as the source line, when that has exactly the
operands of its form. -/
structure Reads (st : AsState) (m : CStr) (ops : List CStr) (i : X86Insn) : Prop where
  noMem : ¬i.HasMem
  eq : ExactOperands m ops → sourceLine st m ops = i.line? (st.pc + st.base)

theorem reads_one {k : OperandKind} (hform : registerForm m = some (name, [k]))
    (hx : k.read st a = some x) (hmem : ¬i.HasMem)
    (hline : i.line? (st.pc + st.base) = some ⟨canonicalName name, [x]⟩) :
    Reads st m (a :: rest) i := by
  refine ⟨hmem, fun hexact => ?_⟩
  have hrest := hexact.one hform
  grind [sourceLine_one]

theorem reads_two {k l : OperandKind} {y : X86Operand} (hform : registerForm m = some (name, [k, l]))
    (hx : k.read st a = some x) (hy : l.read st b = some y) (hmem : ¬i.HasMem)
    (hline : i.line? (st.pc + st.base) = some ⟨canonicalName name, [x, y]⟩) :
    Reads st m (a :: b :: rest) i := by
  refine ⟨hmem, fun hexact => ?_⟩
  have hrest := hexact.two hform
  grind [sourceLine_two]

theorem zeroOps_form : ∀ row ∈ x86ZeroOps, registerForm row.1.toList = some (row.1, []) ∧
    (plainLines.find? fun line => line.1 = row.2).map Prod.snd =
      some ⟨canonicalName row.1, []⟩ := by decide

theorem stackOps_form : ∀ row ∈ stackOps, registerForm row.1.toList = some (row.1, [.reg]) ∧
    (if row.2 = 0x50 then "push" else "pop") = canonicalName row.1 := by decide

theorem rrOps_form : ∀ row ∈ rrOps, (∃ k ∈ [.reg, .movSource, .regOrImm 32],
      registerForm row.1.toList = some (row.1, [.reg, k])) ∧
    (lookupOp x86OpInfos row.2).map OpInfo.mnem = some (canonicalName row.1) := by decide

theorem arithDigits_form : ∀ row ∈ x86ArithDigits,
    registerForm row.1.toList = some (row.1, [.reg, .regOrImm 32]) ∧
      (x86DigitNames 1).getD row.2 "" = canonicalName row.1 := by decide

theorem unaryOps_form : ∀ row ∈ unaryOps, registerForm row.1.toList = some (row.1, [.reg]) ∧
    (x86DigitNames (if row.2.1 = 0xF7 then 3 else 4)).getD row.2.2 "" = canonicalName row.1 := by
  decide

theorem shiftOps_form : ∀ row ∈ shiftOps, registerForm row.1.toList = some (row.1, [.reg, .imm 8]) ∧
      (x86DigitNames 2).getD row.2 "" = canonicalName row.1 := by decide

theorem branchOps_form : ∀ row ∈ branchOps, registerForm row.1.toList = some (row.1, [.imm 32]) ∧
    (if row.2 = 0xE8 then "call" else "jmp") = canonicalName row.1 := by decide

theorem jcc_form : ∀ row ∈ x86JccOpcodes, registerForm row.1.toList = some (row.1, [.imm 32]) ∧
    x86JccName (row.2.toNat - 0x80) = canonicalName row.1 := by decide

theorem LineForm.reads {ops : List CStr} (h : LineForm st m ops i)
    (hmem : ∀ a ∈ ops, x86IsMem a = false) : Reads st m ops i := by
  cases h with
  | zero h =>
    obtain ⟨hform, hline⟩ := zeroOps_form _ h
    refine ⟨id, fun hexact => ?_⟩
    have hops := hexact.nil hform
    subst hops
    exact (sourceLine_zero hform).trans hline.symm
  | int hv => exact reads_one rfl (readImm_eq hv) id rfl
  | stack h hr =>
    obtain ⟨hform, hname⟩ := stackOps_form _ h
    exact reads_one hform (readReg_eq hr) id (by rw [X86Insn.line?, hname])
  | load _ _ hb | store _ hb | storeImm hb => exact absurd hb (by simp_all)
  | rr h hdst hsrc =>
    obtain ⟨⟨k, hk, hform⟩, hname⟩ := rrOps_form _ h
    obtain ⟨info, hinfo, hmnem⟩ := map_eq_some_iff.mp hname
    refine reads_two hform (readReg_eq hdst) ?_ id
      (by rw [X86Insn.line?, hinfo, map_some, hmnem])
    grind [OperandKind.read, readReg_eq]
  | movImm32 hdst _ hreg hv hfits =>
    refine reads_two rfl (readReg_eq hdst) ?_ id rfl
    rw [OperandKind.read, readReg_eq_none hreg, none_or, readImm_eq hv, if_pos hfits]
  | movImm64 hdst _ hreg hv hfits =>
    refine reads_two rfl (readReg_eq hdst) ?_ id rfl
    simp_all [OperandKind.read, readReg_eq_none, readImm_eq, Bool.eq_false_iff.mp]
  | arithImm h hdst _ hreg hv =>
    obtain ⟨hform, hname⟩ := arithDigits_form _ h
    refine reads_two hform (readReg_eq hdst) ?_ id (by rw [X86Insn.line?, hname])
    rw [OperandKind.read, readReg_eq_none hreg, none_or, readImm_eq hv]
  | imul hdst hsrc =>
    exact reads_two rfl (readReg_eq hdst) (readReg_eq hsrc) id rfl
  | unary h hr =>
    obtain ⟨hform, hname⟩ := unaryOps_form _ h
    exact reads_one hform (readReg_eq hr) id (by rw [X86Insn.line?, hname])
  | shift h hr hv =>
    obtain ⟨hform, hname⟩ := shiftOps_form _ h
    exact reads_two hform (readReg_eq hr) (readImm_eq hv) id
      (by rw [X86Insn.line?, hname])
  | branch h hv =>
    obtain ⟨hform, hname⟩ := branchOps_form _ h
    exact reads_one hform (readImm_eq hv) id (by rw [X86Insn.line?, add_x86RelOffset, hname])
  | jcc h hv =>
    obtain ⟨hform, hname⟩ := jcc_form _ h
    exact reads_one hform (readImm_eq hv) id (by rw [X86Insn.line?, add_x86RelOffset, hname])
  | inDx => exact reads_two rfl rfl rfl id rfl
  | inImm hb hv =>
    exact reads_two rfl rfl ((if_neg hb).trans (readImm_eq hv)) id rfl
  | outDx => exact reads_two rfl rfl rfl id rfl
  | outImm ha hv =>
    exact reads_two rfl ((if_neg ha).trans (readImm_eq hv)) rfl id rfl

end Rivet.X86
