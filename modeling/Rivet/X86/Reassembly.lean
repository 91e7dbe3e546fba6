import Rivet.Disassembler.Retokenize
import Rivet.X86.PassSize
import Rivet.X86.Reading

/-!
# Reassembling printed lines

The text printed for an emitted instruction is given to the assembler again, at
the same address.  Immediates are printed without a sign, and the encoder
chooses the form of `mov` by the signed value that it reads: a negative
immediate moved into a register does not come back, every other line does.
-/

namespace Rivet.X86

open CLib Assembler Disassembler

variable {digit dst r : ℕ} {name : String} {i : X86Insn} {line : X86Line} {m : CStr}
  {opcode : RivU8} {st : AsState} {v : ℤ}

/-- What is printed for the bytes between the states is accepted in the first of
them, and stores the same bytes. -/
def Reassembles (st st' : AsState) : Prop :=
  ∃ n line toks st'', x86Decode (st.pc + st.base) (emitted st st') = .ok (n, line) ∧
    tokenize line.text = .ok toks ∧ x86Encode toks st = .ok (some st'') ∧
    emitted st st'' = emitted st st'

def NegativeMov (st : AsState) (m : CStr) (ops : List CStr) : Prop :=
  m = "mov".toList ∧ ∃ a b rest v, ops = a :: b :: rest ∧ x86IsReg b = false ∧
    rivAsParseImm st b = .ok v ∧ v < 0

/-! ## Tokens of a printed line -/

def X86Line.tokens (l : X86Line) : List CStr := l.mnem.toList :: l.ops.map X86Operand.text

theorem plainToken_reg (h : r < 16) : PlainToken (X86Operand.reg r).text := by
  have hall : ∀ r < 16, PlainToken (x86RegName r) := by decide
  exact hall r h

theorem plainToken_hex (v : ℕ) : PlainToken (X86Operand.hex v).text := plainToken_showHex v

theorem X86Line.tokenize_text {l : X86Line} (hmnem : PlainToken l.mnem.toList)
    (hops : ∀ o ∈ l.ops, PlainToken o.text) (hlen : l.ops.length < archMaxTokens) :
    tokenize l.text = .ok l.tokens := by
  refine tokenize_showLine hmnem ?_ (by rwa [List.length_map])
  grind

theorem tokenize_one {x : X86Operand} (hname : PlainToken name.toList) (hx : PlainToken x.text) :
    tokenize (X86Line.text ⟨name, [x]⟩) = .ok (X86Line.tokens ⟨name, [x]⟩) := by
  refine X86Line.tokenize_text hname ?_ (show 1 < archMaxTokens by decide)
  intro o ho
  rw [List.mem_singleton.mp ho]
  exact hx

theorem tokenize_two {x y : X86Operand} (hname : PlainToken name.toList) (hx : PlainToken x.text)
    (hy : PlainToken y.text) :
    tokenize (X86Line.text ⟨name, [x, y]⟩) = .ok (X86Line.tokens ⟨name, [x, y]⟩) := by
  refine X86Line.tokenize_text hname ?_ (show 2 < archMaxTokens by decide)
  grind

theorem X86Insn.WF.tokenize_line (h : i.WF) {pc : RivU32} (hline : i.line? pc = some line) :
    tokenize line.text = .ok line.tokens := by
  cases i with
  | plain bytes =>
    have hall : plainLines.all (fun row => PlainToken row.2.mnem.toList ∧
        (∀ o ∈ row.2.ops, PlainToken o.text) ∧ row.2.ops.length < archMaxTokens) = true := by
      decide
    rw [X86Insn.line?, Option.map_eq_some_iff] at hline
    obtain ⟨row, hrow, rfl⟩ := hline
    grind [X86Line.tokenize_text]
  | imm8 opcode v =>
    simp only [X86Insn.WF, List.mem_cons, List.not_mem_nil, or_false] at h
    rcases h with rfl | rfl | rfl
    · cases hline
      exact tokenize_one (by decide) (plainToken_hex _)
    · cases hline
      exact tokenize_two (by decide) (by decide) (plainToken_hex _)
    · cases hline
      exact tokenize_two (by decide) (plainToken_hex _) (by decide)
  | stack opcode r =>
    cases hline
    refine tokenize_one ?_ (plainToken_reg h.2)
    split <;> decide
  | rr opcode dst src =>
    have hall : rrOpcodes.all (fun op => ((lookupOp x86OpInfos op).map fun info =>
        decide (PlainToken info.mnem.toList)) = some true) = true := by decide
    have hplain := of_decide_eq_true (List.all_eq_true.mp hall opcode h.1)
    rw [X86Insn.line?, Option.map_eq_some_iff] at hline
    obtain ⟨info, hinfo, rfl⟩ := hline
    rw [hinfo, Option.map_some, Option.some.injEq, decide_eq_true_eq] at hplain
    exact tokenize_two hplain (plainToken_reg h.2.1) (plainToken_reg h.2.2)
  | ri32 digit dst imm =>
    have hall : ∀ digit ∈ ([0, 1, 4, 5, 6, 7] : List ℕ),
        PlainToken ((x86DigitNames 1).getD digit "").toList := by decide
    cases hline
    exact tokenize_two (hall digit h.1) (plainToken_reg h.2) (plainToken_hex _)
  | movImm32 | movImm64 =>
    cases hline
    exact tokenize_two (by decide) (plainToken_reg h) (plainToken_hex _)
  | mem opcode reg m => cases hline
  | movMem m imm => cases hline
  | imul dst src =>
    cases hline
    exact tokenize_two (by decide) (plainToken_reg h.1) (plainToken_reg h.2)
  | unary opcode dst digit =>
    have hall : ∀ row ∈ [((0xFF : RivU8), 0), (0xFF, 1), (0xF7, 2), (0xF7, 3), (0xF7, 4),
        (0xF7, 6), (0xF7, 7)],
        PlainToken ((x86DigitNames (if row.1 = 0xF7 then 3 else 4)).getD row.2 "").toList := by
      decide
    cases hline
    exact tokenize_one (hall (opcode, digit) h.1) (plainToken_reg h.2)
  | shift dst digit imm =>
    have hall : ∀ digit ∈ ([4, 5, 7] : List ℕ),
        PlainToken ((x86DigitNames 2).getD digit "").toList := by decide
    cases hline
    exact tokenize_two (hall digit h.1) (plainToken_reg h.2) (plainToken_hex _)
  | branch opcode off =>
    cases hline
    refine tokenize_one ?_ (plainToken_hex _)
    split <;> decide
  | jcc cc off =>
    have hall : (x86JccOpcodes.map Prod.snd).all (fun cc =>
        PlainToken (x86JccName (cc.toNat - 0x80)).toList) = true := by decide
    have hplain : PlainToken (x86JccName (cc.toNat - 0x80)).toList :=
      of_decide_eq_true (List.all_eq_true.mp hall cc h)
    rw [X86Insn.line?, Option.some.injEq] at hline
    rw [← hline]
    exact tokenize_one hplain (plainToken_hex _)

/-! ## Printed operands -/

theorem regName_facts : ∀ r < 16,
    x86RegLookup (x86RegName r) = some r ∧ x86IsMem (x86RegName r) = false := by decide

theorem x86IsMem_regName (h : r < 16) : x86IsMem (X86Operand.reg r).text = false :=
  (regName_facts r h).2

theorem x86ParseReg_regName (h : r < 16) : x86ParseReg (X86Operand.reg r).text = .ok r := by
  rw [x86ParseReg, X86Operand.text, (regName_facts r h).1]

theorem x86IsReg_regName (h : r < 16) : x86IsReg (X86Operand.reg r).text = true := by
  rw [x86IsReg, X86Operand.text, (regName_facts r h).1]
  rfl

theorem x86IsMem_hex (n : ℕ) : x86IsMem (X86Operand.hex n).text = false := rfl

theorem x86IsReg_hex (n : ℕ) : x86IsReg (X86Operand.hex n).text = false := by
  have hall : x86Regs.all (fun name => name.toList.head? ≠ some '0') = true := by decide
  rw [x86IsReg, Option.isSome_eq_false_iff, Option.isNone_iff_eq_none, x86RegLookup,
    List.findIdx?_eq_none_iff]
  intro name hname
  rw [decide_eq_false_iff_not]
  intro heq
  have hhead := of_decide_eq_true (List.all_eq_true.mp hall name hname)
  exact hhead (by rw [heq]; rfl)

theorem rivAsParseImm_hex (st : AsState) (n : ℕ) :
    rivAsParseImm st (X86Operand.hex n).text = .ok (clampI64 n) :=
  rivAsParseImm_of_strtoll rfl (strtoll_showHex_clamp n)

theorem ofInt_clampI64 {w : ℕ} (hw : w ≤ 63) (v : BitVec w) :
    BitVec.ofInt w (clampI64 v.toNat) = v := by
  have hlt : v.toNat < 2 ^ 63 := Nat.lt_of_lt_of_le v.isLt (Nat.pow_le_pow_right (by decide) hw)
  have hclamp : clampI64 v.toNat = v.toNat := by
    unfold clampI64
    omega
  simp_all

/-! ## Each group on the operands that are printed -/

section Groups

variable {st : AsState} {dst src r n : ℕ}

theorem emitImm8_hex (v : RivU8) :
    (do
      let st ← rivAsEmitU8 opcode st
      let v ← rivAsParseImm st (X86Operand.hex v.toNat).text
      rivAsEmitU8 (BitVec.ofInt 8 v) st) = emitAll (X86Insn.imm8 opcode v).bytes st := by
  simp only [rivAsParseImm_hex, Exec.ok_bind, ofInt_clampI64 (show 8 ≤ 63 by decide),
    ← emitAll_singleton, emitAll_bind, X86Insn.bytes, List.singleton_append]

theorem x86PushPop_regName (m : CStr) (hr : r < 16) : x86PushPop m [(X86Operand.reg r).text] st =
      emitAll (X86Insn.stack (if m[1]? = some 'u' then 0x50 else 0x58) r).bytes st := by
  rw [x86PushPop, x86ParseReg_regName hr, Exec.ok_bind, X86Insn.bytes, ← emitAll_bind]
  grind [emitAll_singleton, emitAll_nil]

theorem x86Mov_regNames (hdst : dst < 16) (hsrc : src < 16) :
    x86Mov [(X86Operand.reg dst).text, (X86Operand.reg src).text] st =
      emitAll (X86Insn.rr 0x89 dst src).bytes st := by
  simp only [x86Mov, x86IsMem_regName hdst, x86IsMem_regName hsrc, Bool.false_eq_true, or_self,
    if_false, x86ParseReg_regName hdst, x86ParseReg_regName hsrc, x86IsReg_regName hsrc,
    if_true, Exec.ok_bind, x86EmitRrMr_eq]

/-- The instruction that the encoder chooses for a move of the value `v`. -/
def movImmInsn (dst : ℕ) (v : ℤ) : X86Insn :=
  if fitsI32 v then .movImm32 dst (BitVec.ofInt 32 v) else .movImm64 dst (BitVec.ofInt 64 v)

theorem x86Mov_hex (hdst : dst < 16) :
    x86Mov [(X86Operand.reg dst).text, (X86Operand.hex n).text] st =
      emitAll (movImmInsn dst (clampI64 n)).bytes st := by
  simp only [x86Mov, x86IsMem_regName hdst, x86IsMem_hex, Bool.false_eq_true, or_self,
    if_false, x86ParseReg_regName hdst, x86IsReg_hex, Exec.ok_bind, rivAsParseImm_hex,
    x86Mov_imm32_eq, x86Mov_imm64_eq, movImmInsn]
  split <;> rfl

theorem x86Xchg_regNames (hdst : dst < 16) (hsrc : src < 16) :
    x86Xchg [(X86Operand.reg dst).text, (X86Operand.reg src).text] st =
      emitAll (X86Insn.rr 0x87 dst src).bytes st := by
  simp_all [x86Xchg, x86ParseReg_regName, Exec.ok_bind, x86EmitRrMr_eq]

theorem x86Arith_regNames (m : CStr) (mr : RivU8) (hdst : dst < 16) (hsrc : src < 16) :
    x86Arith m mr [(X86Operand.reg dst).text, (X86Operand.reg src).text] st =
      emitAll (X86Insn.rr mr dst src).bytes st := by
  simp only [x86Arith, x86IsMem_regName hdst, x86IsMem_regName hsrc, Bool.false_eq_true,
    or_self, if_false, x86ParseReg_regName hdst, x86ParseReg_regName hsrc,
    x86IsReg_regName hsrc, if_true, Exec.ok_bind, x86EmitRrMr_eq]

theorem x86Arith_hex {mr : RivU8} (hdst : dst < 16)
    (hdigit : lookupMnem x86ArithDigits m = some digit) (imm : RivI32) :
    x86Arith m mr [(X86Operand.reg dst).text, (X86Operand.hex imm.toNat).text] st =
      emitAll (X86Insn.ri32 digit dst imm).bytes st := by
  simp only [x86Arith, x86IsMem_regName hdst, x86IsMem_hex, Bool.false_eq_true, or_self,
    if_false, x86ParseReg_regName hdst, x86IsReg_hex, Exec.ok_bind, hdigit, rivAsParseImm_hex,
    ofInt_clampI64 (show 32 ≤ 63 by decide), x86EmitRi32_eq]

theorem x86Imul_regNames (hdst : dst < 16) (hsrc : src < 16) :
    x86Imul [(X86Operand.reg dst).text, (X86Operand.reg src).text] st =
      emitAll (X86Insn.imul dst src).bytes st := by
  simp only [x86Imul, x86ParseReg_regName hdst, x86ParseReg_regName hsrc, Exec.ok_bind,
    x86EmitRex_eq, ← emitAll_singleton, x86EmitModrm_eq, emitAll_bind, X86Insn.bytes,
    List.singleton_append]

theorem emitUnary_regName (hr : r < 16) :
    (x86ParseReg (X86Operand.reg r).text >>= fun r => x86EmitUnary opcode r digit st) =
      emitAll (X86Insn.unary opcode r digit).bytes st := by
  rw [x86ParseReg_regName hr, Exec.ok_bind, x86EmitUnary_eq]

theorem emitShift_hex (hr : r < 16) (imm : RivU8) :
    (do
      let r ← x86ParseReg (X86Operand.reg r).text
      let v ← rivAsParseImm st (X86Operand.hex imm.toNat).text
      x86EmitShift r digit (BitVec.ofInt 32 v) st) =
      emitAll (X86Insn.shift r digit imm).bytes st := by
  simp only [x86ParseReg_regName hr, Exec.ok_bind, rivAsParseImm_hex, x86EmitShift_eq, shift_byte,
    ofInt_clampI64 (show 8 ≤ 63 by decide)]

theorem x86RelOffset_target (size : RivU32) (off : RivI32) :
    x86RelOffset st size (clampI64 (st.pc + st.base + size + off).toNat) = off := by
  grind [ofInt_clampI64, BitVec.add_right_inj, add_x86RelOffset]

theorem x86JmpCall_hex (m : CStr) (off : RivI32) :
    x86JmpCall m [(X86Operand.hex (st.pc + st.base + 5 + off).toNat).text] st =
      emitAll (X86Insn.branch (if m = "jmp".toList then 0xE9 else 0xE8) off).bytes st := by
  simp only [x86JmpCall, rivAsParseImm_hex, Exec.ok_bind, x86RelOffset_target,
    ← emitAll_singleton, x86EmitImm32_eq, emitAll_bind, X86Insn.bytes, List.singleton_append]

theorem x86Jcc_hex (m : CStr) (cc : RivU8) (off : RivI32) :
    x86Jcc m cc [(X86Operand.hex (st.pc + st.base + 6 + off).toNat).text] st =
      emitAll (X86Insn.jcc cc off).bytes st := by
  simp only [x86Jcc, rivAsParseImm_hex, Exec.ok_bind, x86RelOffset_target,
    ← emitAll_singleton, x86EmitImm32_eq, emitAll_bind, X86Insn.bytes, List.singleton_append]

end Groups

/-! ## Printed lines are accepted again -/

def Reencodes (line : X86Line) (st : AsState) (i : X86Insn) : Prop :=
  ∃ f, x86Handler line.mnem.toList = some f ∧
    f (line.ops.map X86Operand.text) st = emitAll i.bytes st

theorem Reencodes.eq (h : Reencodes line st i) :
    x86Encode line.tokens st = emitAll i.bytes st >>= fun st' => .ok (some st') := by
  obtain ⟨f, hf, hline⟩ := h
  rw [X86Line.tokens, x86Encode, hf]
  simp only [hline]

theorem x86Handler_of_findIdx {k : ℕ} {f : Handler}
    (hidx : (x86Groups m).findIdx? Option.isSome = some k)
    (hf : (x86Groups m)[k]? = some (some f)) : x86Handler m = some f := by
  obtain ⟨hk, hsome, hfirst⟩ := List.findIdx?_eq_some_iff_getElem.mp hidx
  rw [x86Handler, List.findSome?_eq_some_iff]
  refine ⟨(x86Groups m).take k, some f, (x86Groups m).drop (k + 1), ?_, rfl, ?_⟩
  · rw [List.getElem?_eq_getElem hk, Option.some.injEq] at hf
    rw [← hf, List.getElem_cons_drop, List.take_append_drop]
  intro g hg
  obtain ⟨j, hj, rfl⟩ := List.getElem_of_mem hg
  rw [List.length_take] at hj
  simp_all

theorem reencodes_as (name : String) {mnem : String} {ops : List X86Operand} {f : Handler}
    (hname : mnem = name) (hf : x86Handler name.toList = some f)
    (hrun : f (ops.map X86Operand.text) st = emitAll i.bytes st) : Reencodes ⟨mnem, ops⟩ st i := by
  subst hname
  exact ⟨f, hf, hrun⟩

theorem reencodes_rr {src : ℕ} (hop : opcode ∈ rrOpcodes) (hdst : dst < 16) (hsrc : src < 16)
    {pc : RivU32} (hline : (X86Insn.rr opcode dst src).line? pc = some line) :
    Reencodes line st (.rr opcode dst src) := by
  rw [X86Insn.line?, Option.map_eq_some_iff] at hline
  obtain ⟨info, hinfo, rfl⟩ := hline
  simp only [rrOpcodes, List.mem_cons, List.not_mem_nil, or_false] at hop
  rcases hop with rfl | rfl | rfl | rfl | rfl | rfl | rfl | rfl | rfl
  · exact reencodes_as "mov" (by cases hinfo; rfl) rfl (x86Mov_regNames hdst hsrc)
  · exact reencodes_as "xchg" (by cases hinfo; rfl) rfl (x86Xchg_regNames hdst hsrc)
  · exact reencodes_as "add" (by cases hinfo; rfl) rfl (x86Arith_regNames _ _ hdst hsrc)
  · exact reencodes_as "or" (by cases hinfo; rfl) rfl (x86Arith_regNames _ _ hdst hsrc)
  · exact reencodes_as "and" (by cases hinfo; rfl) rfl (x86Arith_regNames _ _ hdst hsrc)
  · exact reencodes_as "sub" (by cases hinfo; rfl) rfl (x86Arith_regNames _ _ hdst hsrc)
  · exact reencodes_as "xor" (by cases hinfo; rfl) rfl (x86Arith_regNames _ _ hdst hsrc)
  · exact reencodes_as "cmp" (by cases hinfo; rfl) rfl (x86Arith_regNames _ _ hdst hsrc)
  · exact reencodes_as "test" (by cases hinfo; rfl) rfl (x86Arith_regNames _ _ hdst hsrc)

theorem reencodes_ri32 {imm : RivI32} (hdigit : digit ∈ [0, 1, 4, 5, 6, 7]) (hdst : dst < 16) :
    Reencodes ⟨(x86DigitNames 1).getD digit "", [.reg dst, .hex imm.toNat]⟩ st
      (.ri32 digit dst imm) := by
  simp only [List.mem_cons, List.not_mem_nil, or_false] at hdigit
  rcases hdigit with rfl | rfl | rfl | rfl | rfl | rfl
  · exact reencodes_as "add" rfl rfl (x86Arith_hex hdst (by decide) imm)
  · exact reencodes_as "or" rfl rfl (x86Arith_hex hdst (by decide) imm)
  · exact reencodes_as "and" rfl rfl (x86Arith_hex hdst (by decide) imm)
  · exact reencodes_as "sub" rfl rfl (x86Arith_hex hdst (by decide) imm)
  · exact reencodes_as "xor" rfl rfl (x86Arith_hex hdst (by decide) imm)
  · exact reencodes_as "cmp" rfl rfl (x86Arith_hex hdst (by decide) imm)

theorem reencodes_unary (h : (X86Insn.unary opcode dst digit).WF) :
    Reencodes ⟨(x86DigitNames (if opcode = 0xF7 then 3 else 4)).getD digit "", [.reg dst]⟩ st
      (.unary opcode dst digit) := by
  obtain ⟨hop, hdst⟩ := h
  simp only [List.mem_cons, List.not_mem_nil, or_false, Prod.mk.injEq] at hop
  rcases hop with ⟨rfl, rfl⟩ | ⟨rfl, rfl⟩ | ⟨rfl, rfl⟩ | ⟨rfl, rfl⟩ | ⟨rfl, rfl⟩ | ⟨rfl, rfl⟩ |
    ⟨rfl, rfl⟩
  · exact reencodes_as "inc" rfl rfl (emitUnary_regName hdst)
  · exact reencodes_as "dec" rfl rfl (emitUnary_regName hdst)
  · exact reencodes_as "not" rfl rfl (emitUnary_regName hdst)
  · exact reencodes_as "neg" rfl rfl (emitUnary_regName hdst)
  · exact reencodes_as "mul" rfl rfl (emitUnary_regName hdst)
  · exact reencodes_as "div" rfl rfl (emitUnary_regName hdst)
  · exact reencodes_as "idiv" rfl rfl (emitUnary_regName hdst)

theorem reencodes_shift {imm : RivU8} (hdigit : digit ∈ [4, 5, 7]) (hdst : dst < 16) :
    Reencodes ⟨(x86DigitNames 2).getD digit "", [.reg dst, .hex imm.toNat]⟩ st
      (.shift dst digit imm) := by
  simp only [List.mem_cons, List.not_mem_nil, or_false] at hdigit
  rcases hdigit with rfl | rfl | rfl
  · exact reencodes_as "shl" rfl rfl (emitShift_hex hdst imm)
  · exact reencodes_as "shr" rfl rfl (emitShift_hex hdst imm)
  · exact reencodes_as "sar" rfl rfl (emitShift_hex hdst imm)

theorem reencodes_jcc {cc : RivU8} {off : RivI32} (hcc : cc ∈ x86JccOpcodes.map Prod.snd) :
    Reencodes ⟨x86JccName (cc.toNat - 0x80), [.hex (st.pc + st.base + 6 + off).toNat]⟩ st
      (.jcc cc off) := by
  have hall : (x86JccOpcodes.map Prod.snd).all (fun cc =>
      (x86Groups (x86JccName (cc.toNat - 0x80)).toList).findIdx? Option.isSome = some 13 ∧
        lookupMnem x86JccOpcodes (x86JccName (cc.toNat - 0x80)).toList = some cc) = true := by
    decide +kernel
  have hfacts := of_decide_eq_true (List.all_eq_true.mp hall cc hcc)
  generalize x86JccName (cc.toNat - 0x80) = name at hfacts ⊢
  obtain ⟨hidx, hrow⟩ := hfacts
  refine ⟨x86Jcc name.toList cc, x86Handler_of_findIdx hidx ?_, x86Jcc_hex _ cc off⟩
  simp only [x86Groups, List.getElem?_cons_succ, List.getElem?_cons_zero, hrow, Option.map_some]

theorem reencodes_zero {bytes : List RivU8} (h : (name, bytes) ∈ x86ZeroOps) :
    Reencodes ⟨name, []⟩ st (.plain bytes) := by
  have hall : x86ZeroOps.all (fun row =>
      (x86Groups row.1.toList).findIdx? Option.isSome = some 0 ∧
        lookupMnem x86ZeroOps row.1.toList = some row.2) = true := by
    decide +kernel
  obtain ⟨hidx, hrow⟩ := of_decide_eq_true (List.all_eq_true.mp hall _ h)
  refine ⟨fun _ st => emitAll bytes st, x86Handler_of_findIdx hidx ?_, rfl⟩
  simp only [x86Groups, List.getElem?_cons_zero, hrow, Option.map_some]

theorem reencodes_plain {bytes : List RivU8} (h : (bytes, line) ∈ plainLines) :
    Reencodes line st (.plain bytes) := by
  rw [plainLines, List.mem_append, List.mem_map] at h
  rcases h with ⟨row, hrow, heq⟩ | h
  · cases heq
    exact reencodes_zero hrow
  rcases List.mem_pair.mp h with heq | heq
  · cases heq
    exact ⟨x86In, rfl, (emitAll_singleton _ _).symm⟩
  · cases heq
    exact ⟨x86Out, rfl, (emitAll_singleton _ _).symm⟩

theorem X86Insn.WF.reencodes (h : i.WF) (himm : ¬i.MovesImm)
    (hline : i.line? (st.pc + st.base) = some line) : Reencodes line st i := by
  cases i with
  | plain bytes =>
    rw [X86Insn.line?, Option.map_eq_some_iff] at hline
    obtain ⟨⟨bytes', line'⟩, hrow, rfl⟩ := hline
    have heq := List.find?_some hrow
    rw [decide_eq_true_eq] at heq
    subst heq
    exact reencodes_plain (List.mem_of_find?_eq_some hrow)
  | imm8 opcode v =>
    simp only [X86Insn.WF, List.mem_cons, List.not_mem_nil, or_false] at h
    rcases h with rfl | rfl | rfl
    · cases hline
      exact reencodes_as "int" rfl rfl (emitImm8_hex v)
    · cases hline
      exact reencodes_as "in" rfl rfl (emitImm8_hex v)
    · cases hline
      exact reencodes_as "out" rfl rfl (emitImm8_hex v)
  | stack opcode r =>
    obtain ⟨hop, hr⟩ := h
    simp only [List.mem_cons, List.not_mem_nil, or_false] at hop
    cases hline
    rcases hop with rfl | rfl
    · exact reencodes_as "push" rfl rfl (x86PushPop_regName _ hr)
    · exact reencodes_as "pop" rfl rfl (x86PushPop_regName _ hr)
  | rr opcode dst src => exact reencodes_rr h.1 h.2.1 h.2.2 hline
  | ri32 digit dst imm =>
    cases hline
    exact reencodes_ri32 h.1 h.2
  | movImm32 | movImm64 => exact absurd trivial himm
  | mem opcode reg m => cases hline
  | movMem m imm => cases hline
  | imul dst src =>
    cases hline
    exact reencodes_as "imul" rfl rfl (x86Imul_regNames h.1 h.2)
  | unary opcode dst digit =>
    cases hline
    exact reencodes_unary h
  | shift dst digit imm =>
    cases hline
    exact reencodes_shift h.1 h.2
  | branch opcode off =>
    simp only [X86Insn.WF, List.mem_cons, List.not_mem_nil, or_false] at h
    cases hline
    rcases h with rfl | rfl
    · exact reencodes_as "call" rfl rfl (x86JmpCall_hex _ off)
    · exact reencodes_as "jmp" rfl rfl (x86JmpCall_hex _ off)
  | jcc cc off =>
    rw [X86Insn.line?, Option.some.injEq] at hline
    rw [← hline]
    exact reencodes_jcc h

/-! ## Accepted lines -/

theorem Emits.reassembles_iff {j : X86Insn} {st' : AsState} (h : Emits i st st')
    (hmem : ¬i.HasMem) (hline : i.line? (st.pc + st.base) = some line)
    (hread : Reencodes line st j) : Reassembles st st' ↔ j.bytes = i.bytes := by
  obtain ⟨line', hline', hdec⟩ := h.wf.decodesTo hmem (st.pc + st.base)
  cases hline.symm.trans hline'
  have hdec : x86Decode (st.pc + st.base) (emitted st st') = .ok (i.bytes.length, line) := by
    rw [h.emitted_eq, ← List.append_nil i.bytes, hdec []]
    rw [List.append_nil]
  have htok := h.wf.tokenize_line hline
  constructor
  · rintro ⟨n, line', toks, st'', hdec', htok', henc, hbytes⟩
    cases hdec.symm.trans hdec'
    cases htok.symm.trans htok'
    rw [hread.eq] at henc
    obtain ⟨st1, hemit, heq⟩ := Exec.of_bind_eq_ok henc
    cases heq
    rw [emitted_of_emitAll hemit, h.emitted_eq] at hbytes
    exact hbytes
  · intro hbytes
    refine ⟨i.bytes.length, line, line.tokens, st', hdec, htok, ?_, rfl⟩
    rw [hread.eq, hbytes, h.eq]
    rfl

theorem leU64_injective {v w : RivU64} (h : leU64 v = leU64 w) : v = w := by
  have hv := takeImm64_leU64 0 v []
  grind [takeImm64_leU64]

theorem movImm64_injective {v w : RivU64}
    (h : (X86Insn.movImm64 dst v).bytes = (X86Insn.movImm64 dst w).bytes) : v = w :=
  leU64_injective (List.append_cancel_left h)

theorem reencodes_mov {n : ℕ} (hdst : dst < 16) :
    Reencodes ⟨"mov", [.reg dst, .hex n]⟩ st (movImmInsn dst (clampI64 n)) :=
  reencodes_as "mov" rfl rfl (x86Mov_hex hdst)

theorem movImmInsn_of_fits (hfits : fitsI32 v = true) :
    (movImmInsn dst (clampI64 (BitVec.ofInt 32 v).toNat)).bytes =
      (X86Insn.movImm32 dst (BitVec.ofInt 32 v)).bytes ↔ ¬v < 0 := by
  simp only [fitsI32, decide_eq_true_eq] at hfits
  have hword : (BitVec.ofInt 32 v).toNat = (v % 2 ^ 32).toNat := by
    norm_cast
  by_cases hneg : v < 0
  · have hclamp : clampI64 (BitVec.ofInt 32 v).toNat = v + 2 ^ 32 := by
      unfold clampI64
      omega
    have hlong : fitsI32 (v + 2 ^ 32) = false := by
      simp only [fitsI32, decide_eq_false_iff_not]
      omega
    refine iff_of_false ?_ (not_not_intro hneg)
    rw [hclamp, movImmInsn, hlong]
    intro h
    have hlen := congrArg List.length h
    exact absurd hlen (by decide : (10 : ℕ) ≠ 7)
  · have hclamp : clampI64 (BitVec.ofInt 32 v).toNat = v := by
      unfold clampI64
      omega
    have hshort : fitsI32 v = true := by
      simp only [fitsI32, decide_eq_true_eq]
      exact hfits
    simp_all [movImmInsn]

theorem movImmInsn_of_not_fits (hfits : fitsI32 v = false) (hbounds : -2 ^ 63 ≤ v ∧ v < 2 ^ 63) :
    (movImmInsn dst (clampI64 (BitVec.ofInt 64 v).toNat)).bytes =
      (X86Insn.movImm64 dst (BitVec.ofInt 64 v)).bytes ↔ ¬v < 0 := by
  have hlong := hfits
  have hword : (BitVec.ofInt 64 v).toNat = (v % 2 ^ 64).toNat := by
    norm_cast
  by_cases hneg : v < 0
  · have hclamp : clampI64 (BitVec.ofInt 64 v).toNat = 2 ^ 63 - 1 := by
      unfold clampI64
      omega
    have hmax : fitsI32 (2 ^ 63 - 1) = false := by decide
    refine iff_of_false ?_ (not_not_intro hneg)
    rw [hclamp, movImmInsn, hmax]
    intro h
    have heq := congrArg BitVec.toNat (movImm64_injective h)
    rw [hword, BitVec.toNat_ofInt] at heq
    omega
  · have hclamp : clampI64 (BitVec.ofInt 64 v).toNat = v := by
      unfold clampI64
      omega
    refine iff_of_true ?_ hneg
    rw [hclamp, movImmInsn, hlong]
    rfl

theorem negativeMov_iff {a b : CStr} {rest : List CStr} (hnoreg : x86IsReg b = false)
    (hv : rivAsParseImm st b = .ok v) : NegativeMov st "mov".toList (a :: b :: rest) ↔ v < 0 := by
  constructor
  · rintro ⟨-, a', b', rest', w, hops, -, hw, hneg⟩
    cases hops
    cases hv.symm.trans hw
    exact hneg
  · intro hneg
    exact ⟨rfl, a, b, rest, v, rfl, hnoreg, hv, hneg⟩

theorem LineForm.not_negativeMov {ops : List CStr} (h : LineForm st m ops i) (himm : ¬i.MovesImm)
    (hmem : ∀ a ∈ ops, x86IsMem a = false) : ¬NegativeMov st m ops := by
  rintro ⟨hm, a, b, rest, v, rfl, hreg, -, -⟩
  have hmov : registerForm m = some ("mov", [.reg, .movSource]) := by
    rw [hm]
    decide
  cases h with
  | zero h => cases (zeroOps_form _ h).1.symm.trans hmov
  | stack h => cases (stackOps_form _ h).1.symm.trans hmov
  | unary h => cases (unaryOps_form _ h).1.symm.trans hmov
  | shift h => cases (shiftOps_form _ h).1.symm.trans hmov
  | branch h => cases (branchOps_form _ h).1.symm.trans hmov
  | jcc h => cases (jcc_form _ h).1.symm.trans hmov
  | arithImm h => cases (arithDigits_form _ h).1.symm.trans hmov
  | int | imul | inDx | inImm | outDx | outImm => exact absurd hm (by decide)
  | rr _ _ hsrc => simp [x86IsReg_of_lookup hsrc] at hreg
  | load _ _ hb | store _ hb | storeImm hb => exact absurd hb (by simp_all)
  | movImm32 | movImm64 => exact himm trivial

/-- The line printed for an accepted line without a memory operand comes back
exactly when it is not a move of a negative immediate. -/
theorem reassembles_iff_not_negativeMov {m : CStr} {ops : List CStr} {st st' : AsState}
    (h : x86Encode (m :: ops) st = .ok (some st')) (hmem : ∀ a ∈ ops, x86IsMem a = false) :
    Reassembles st st' ↔ ¬NegativeMov st m ops := by
  obtain ⟨_, _, i, htok, hform, hemit⟩ := x86Encode_eq_some h
  cases htok
  have hreads := hform.reads hmem
  by_cases himm : i.MovesImm
  · cases hform with
    | movImm32 hdst hb hreg hv hfits =>
      rw [hemit.reassembles_iff id rfl (reencodes_mov hemit.wf), negativeMov_iff hreg hv]
      exact movImmInsn_of_fits hfits
    | movImm64 hdst hb hreg hv hfits =>
      rw [hemit.reassembles_iff id rfl (reencodes_mov hemit.wf), negativeMov_iff hreg hv]
      exact movImmInsn_of_not_fits hfits (rivAsParseImm_bounds hv)
    | _ => exact absurd himm id
  · obtain ⟨line, hline, -⟩ := hemit.wf.decodesTo hreads.noMem (st.pc + st.base)
    refine iff_of_true ?_ (hform.not_negativeMov himm hmem)
    exact (hemit.reassembles_iff hreads.noMem hline (hemit.wf.reencodes himm hline)).mpr rfl

/-- `call -8` at `0x1000` is printed with its target modulo `2 ^ 32` and comes
back. -/
theorem reassembles_iff_not_negativeMov_call : ∃ st', x86Encode ["call".toList, "-8".toList]
        ⟨fun _ => 0, 0, 0, 0x1000, .emit, 1, [], .x86_64⟩ = .ok (some st') ∧
      Reassembles ⟨fun _ => 0, 0, 0, 0x1000, .emit, 1, [], .x86_64⟩ st' := by
  have hmem : ∀ a ∈ ["-8".toList], x86IsMem a = false := by decide
  obtain ⟨st', henc⟩ : ∃ st', x86Encode ["call".toList, "-8".toList]
      ⟨fun _ => 0, 0, 0, 0x1000, .emit, 1, [], .x86_64⟩ = .ok (some st') := ⟨_, rfl⟩
  refine ⟨st', henc, (reassembles_iff_not_negativeMov henc hmem).mpr ?_⟩
  rintro ⟨hm, -⟩
  exact absurd hm (by decide)

/-- `mov rax, -1` takes seven bytes and is printed as a move of `0xffffffff`,
which takes ten. -/
theorem negative_mov_grows : ∃ st' st'', x86Encode ["mov".toList, "rax".toList, "-1".toList]
        ⟨fun _ => 0, 0, 0, 0, .emit, 1, [], .x86_64⟩ = .ok (some st') ∧
      x86Decode 0 (emitted ⟨fun _ => 0, 0, 0, 0, .emit, 1, [], .x86_64⟩ st') =
        .ok (7, ⟨"mov", [.reg 0, .hex 0xFFFFFFFF]⟩) ∧
      tokenize (X86Line.text ⟨"mov", [.reg 0, .hex 0xFFFFFFFF]⟩) =
        .ok ["mov".toList, "rax".toList, "0xffffffff".toList] ∧
      x86Encode ["mov".toList, "rax".toList, "0xffffffff".toList]
        ⟨fun _ => 0, 0, 0, 0, .emit, 1, [], .x86_64⟩ = .ok (some st'') ∧
      emitted ⟨fun _ => 0, 0, 0, 0, .emit, 1, [], .x86_64⟩ st' =
        [0x48, 0xC7, 0xC0, 0xFF, 0xFF, 0xFF, 0xFF] ∧
      emitted ⟨fun _ => 0, 0, 0, 0, .emit, 1, [], .x86_64⟩ st'' =
        [0x48, 0xB8, 0xFF, 0xFF, 0xFF, 0xFF, 0, 0, 0, 0] ∧
      ¬Reassembles ⟨fun _ => 0, 0, 0, 0, .emit, 1, [], .x86_64⟩ st' := by
  have htok : tokenize (X86Line.text ⟨"mov", [.reg 0, .hex 0xFFFFFFFF]⟩) =
      .ok ["mov".toList, "rax".toList, "0xffffffff".toList] :=
    tokenize_two (by decide) (plainToken_reg (by decide)) (plainToken_hex _)
  refine ⟨_, _, rfl, rfl, htok, rfl, rfl, rfl, ?_⟩
  rintro ⟨n, line, toks, st₂, hdec, htok', henc, hbytes⟩
  cases hdec
  cases htok.symm.trans htok'
  cases henc
  exact absurd hbytes (by decide)

end Rivet.X86
