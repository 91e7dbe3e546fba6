import Rivet.Riscv32.Fields

/-!
# Assembling and disassembling one RV32 instruction

An instruction is a table entry with the operands its format carries.  A token
list spells it when the assembler reads exactly these operands from the
tokens; `RvInsn.line` is the line that reports it.  Whatever tokens spell an
instruction, the four bytes that `rv_encode` emits for them are decoded to
that line.
-/

namespace Rivet.Riscv32

open CLib Assembler Disassembler BitField

variable {s : CStr} {st : AsState} {ops : List CStr}

/-! ## Instructions -/

/-- A row of the instruction table with the given format. -/
structure Entry (k : Kind) where
  ix : InsnT
  mem : ix ∈ rvIsa
  kind_eq : ix.kind = k

/-- An instruction with its operands; branches and jumps carry the
displacement from their own address. -/
inductive RvInsn where
  | r (e : Entry .r) (rd rs1 rs2 : Fin 32)
  | i (e : Entry .i) (rd rs1 : Fin 32) (imm : ℤ)
  | shift (e : Entry .shift) (rd rs1 shamt : Fin 32)
  | load (e : Entry .load) (rd rs1 : Fin 32) (off : ℤ)
  | store (e : Entry .store) (rs2 rs1 : Fin 32) (off : ℤ)
  | branch (e : Entry .branch) (rs1 rs2 : Fin 32) (disp : ℤ)
  | jal (e : Entry .jal) (rd : Fin 32) (disp : ℤ)
  | jalr (e : Entry .jalr) (rd rs1 : Fin 32) (imm : ℤ)
  | lui (e : Entry .lui) (rd : Fin 32) (imm : ℕ)
  | auipc (e : Entry .auipc) (rd : Fin 32) (imm : ℕ)
  | sys (e : Entry .sys)
  | fence (pred succ : ℕ)
  | fenceI

def RvInsn.InRange : RvInsn → Prop
  | .i _ _ _ imm | .jalr _ _ _ imm => -2048 ≤ imm ∧ imm ≤ 2047
  | .load _ _ _ off | .store _ _ _ off => -2048 ≤ off ∧ off ≤ 2047
  | .branch _ _ _ disp => disp % 2 = 0 ∧ -4096 ≤ disp ∧ disp ≤ 4094
  | .jal _ _ disp => disp % 2 = 0 ∧ -2 ^ 20 ≤ disp ∧ disp ≤ 2 ^ 20 - 2
  | .lui _ _ imm | .auipc _ _ imm => imm < 2 ^ 20
  | .fence pred succ => (0 < pred ∧ pred < 16) ∧ 0 < succ ∧ succ < 16
  | .r .. | .shift .. | .sys _ | .fenceI => True

/-- The line that reports an instruction at address `pc`. -/
def RvInsn.line (pc : RivU32) : RvInsn → RvLine
  | .r e rd rs1 rs2 => ⟨e.ix.name, [.reg rd, .reg rs1, .reg rs2]⟩
  | .i e rd rs1 imm => ⟨e.ix.name, [.reg rd, .reg rs1, .dec imm]⟩
  | .shift e rd rs1 shamt => ⟨e.ix.name, [.reg rd, .reg rs1, .dec (shamt : ℕ)]⟩
  | .load e rd rs1 off => ⟨e.ix.name, [.reg rd, .offset off rs1]⟩
  | .store e rs2 rs1 off => ⟨e.ix.name, [.reg rs2, .offset off rs1]⟩
  | .branch e rs1 rs2 disp =>
    ⟨e.ix.name, [.reg rs1, .reg rs2, .hex (pc + BitVec.ofInt 32 disp)]⟩
  | .jal e rd disp => ⟨e.ix.name, [.reg rd, .hex (pc + BitVec.ofInt 32 disp)]⟩
  | .jalr e rd rs1 imm => ⟨e.ix.name, [.reg rd, .reg rs1, .dec imm]⟩
  | .lui e rd imm => ⟨e.ix.name, [.reg rd, .hex (u32 imm)]⟩
  | .auipc e rd imm => ⟨e.ix.name, [.reg rd, .hex (u32 imm)]⟩
  | .sys e => ⟨e.ix.name, []⟩
  | .fence pred succ =>
    ⟨"fence", [.flags (rvFenceFlags pred), .flags (rvFenceFlags succ)]⟩
  | .fenceI => ⟨"fence.i", []⟩

/-- The operand `s` is an offset and a base register. -/
def SpellsOffset (st : AsState) (s : CStr) (off : ℤ) (rs1 : ℕ) : Prop :=
  ∃ imm reg, rivAsSplitOffset s = .ok (some (imm, reg)) ∧
    rivAsParseImm st imm = .ok off ∧ rvRegLookup reg = some rs1

/-- The operand `s` is an address `disp` away from the instruction. -/
def SpellsTarget (st : AsState) (s : CStr) (disp : ℤ) : Prop :=
  ∃ t, rivAsParseImm st s = .ok t ∧
    BitVec.ofInt 32 t = st.pc + st.base + BitVec.ofInt 32 disp

/-- The operand tokens `ops` are read, in the state `st`, as the operands of
the instruction.  Tokens after the last operand are not looked at. -/
def RvInsn.SpelledBy (st : AsState) : RvInsn → List CStr → Prop
  | .r _ rd rs1 rs2, a :: b :: c :: _ =>
    rvRegLookup a = some (rd : ℕ) ∧ rvRegLookup b = some (rs1 : ℕ) ∧
      rvRegLookup c = some (rs2 : ℕ)
  | .i _ rd rs1 imm, a :: b :: c :: _ =>
    rvRegLookup a = some (rd : ℕ) ∧ rvRegLookup b = some (rs1 : ℕ) ∧
      rivAsParseImm st c = .ok imm
  | .shift _ rd rs1 shamt, a :: b :: c :: _ =>
    rvRegLookup a = some (rd : ℕ) ∧ rvRegLookup b = some (rs1 : ℕ) ∧
      rivAsParseImm st c = .ok (shamt : ℕ)
  | .load _ rd rs1 off, a :: b :: _ =>
    rvRegLookup a = some (rd : ℕ) ∧ SpellsOffset st b off rs1
  | .store _ rs2 rs1 off, a :: b :: _ =>
    rvRegLookup a = some (rs2 : ℕ) ∧ SpellsOffset st b off rs1
  | .branch _ rs1 rs2 disp, a :: b :: c :: _ =>
    rvRegLookup a = some (rs1 : ℕ) ∧ rvRegLookup b = some (rs2 : ℕ) ∧
      SpellsTarget st c disp
  | .jal _ rd disp, a :: b :: _ =>
    rvRegLookup a = some (rd : ℕ) ∧ SpellsTarget st b disp
  | .jalr _ rd rs1 imm, [a, b] =>
    rvRegLookup a = some (rd : ℕ) ∧ SpellsOffset st b imm rs1
  | .jalr _ rd rs1 imm, a :: b :: c :: _ =>
    rvRegLookup a = some (rd : ℕ) ∧ rvRegLookup b = some (rs1 : ℕ) ∧
      rivAsParseImm st c = .ok imm
  | .lui _ rd imm, a :: b :: _ =>
    rvRegLookup a = some (rd : ℕ) ∧ rivAsParseImm st b = .ok (imm : ℤ)
  | .auipc _ rd imm, a :: b :: _ =>
    rvRegLookup a = some (rd : ℕ) ∧ rivAsParseImm st b = .ok (imm : ℤ)
  | .sys _, _ => True
  | .fence pred succ, a :: b :: _ =>
    rvFenceSet 0 a = .ok pred ∧ rvFenceSet 0 b = .ok succ
  | .fence pred succ, _ => pred = 3 ∧ succ = 3
  | .fenceI, _ => True
  | _, _ => False

def RvInsn.entry : RvInsn → InsnT
  | .r e _ _ _ => e.ix
  | .i e _ _ _ => e.ix
  | .shift e _ _ _ => e.ix
  | .load e _ _ _ => e.ix
  | .store e _ _ _ => e.ix
  | .branch e _ _ _ => e.ix
  | .jal e _ _ => e.ix
  | .jalr e _ _ _ => e.ix
  | .lui e _ _ => e.ix
  | .auipc e _ _ => e.ix
  | .sys e => e.ix
  | .fence _ _ => ⟨"fence", .fence, 0, 0, 0x0F⟩
  | .fenceI => ⟨"fence.i", .fence, 0x1, 0, 0x0F⟩

def RvInsn.word : RvInsn → RivU32
  | .r e rd rs1 rs2 => encR rd e.ix.f3 rs1 rs2 e.ix.f7 e.ix.op
  | .i e rd rs1 imm => encI rd e.ix.f3 rs1 (BitVec.ofInt 32 imm) e.ix.op
  | .shift e rd rs1 shamt =>
    encShift rd e.ix.f3 rs1 (BitVec.ofInt 32 (shamt : ℕ) &&& 0x1F) e.ix.f7 e.ix.op
  | .load e rd rs1 off => encI rd e.ix.f3 rs1 (BitVec.ofInt 32 off) e.ix.op
  | .store e rs2 rs1 off => encS rs2 e.ix.f3 rs1 (BitVec.ofInt 32 off) e.ix.op
  | .branch e rs1 rs2 disp => encB rs1 rs2 e.ix.f3 (BitVec.ofInt 32 disp) e.ix.op
  | .jal e rd disp => encJ rd (BitVec.ofInt 32 disp) e.ix.op
  | .jalr e rd rs1 imm => encI rd e.ix.f3 rs1 (BitVec.ofInt 32 imm) e.ix.op
  | .lui e rd imm | .auipc e rd imm => encU rd (BitVec.ofInt 32 imm <<< 12) e.ix.op
  | .sys e => (u32 e.ix.f7 <<< 20) ||| u32 e.ix.op
  | .fence pred succ => (u32 pred <<< 24) ||| (u32 succ <<< 20) ||| u32 0x0F
  | .fenceI => (1 <<< 12) ||| u32 0x0F

/-! ## The table against the decoder -/

theorem RvInsn.entry_mem (n : RvInsn) : n.entry ∈ rvIsa := by
  cases n with
  | fence | fenceI => simp only [RvInsn.entry]; decide
  | r e | i e | shift e | load e | store e | branch e | jal e | jalr e | lui e | auipc e
  | sys e => exact e.mem

theorem rvFind_name : ∀ ix ∈ rvIsa, rvFind ix.name.toList = some ix := by decide

theorem name_not_pseudo : ∀ ix ∈ rvIsa, ix.name.toList ∉
      ["nop".toList, "mv".toList, "li".toList, "j".toList, "ret".toList] := by decide

theorem row_r : ∀ ix ∈ rvIsa, ix.kind = .r →
    ix.op = 0x33 ∧ ix.f3 < 8 ∧ ix.f7 < 128 ∧ rvOpName ix.f7 ix.f3 = ix.name := by decide

theorem row_i : ∀ ix ∈ rvIsa, ix.kind = .i → ix.op = 0x13 ∧ ix.f3 < 8 ∧ ¬(ix.f3 = 1 ∨ ix.f3 = 5) ∧
      rvOpImmName 0 ix.f3 = ix.name := by decide

theorem row_shift : ∀ ix ∈ rvIsa, ix.kind = .shift →
    ix.op = 0x13 ∧ (ix.f3 = 1 ∨ ix.f3 = 5) ∧ ix.f7 < 128 ∧ rvOpImmName ix.f7 ix.f3 = ix.name := by
  decide

theorem row_load : ∀ ix ∈ rvIsa, ix.kind = .load →
    ix.op = 0x03 ∧ ix.f3 < 8 ∧ rvLoadName ix.f3 = ix.name := by decide

theorem row_store : ∀ ix ∈ rvIsa, ix.kind = .store →
    ix.op = 0x23 ∧ ix.f3 < 8 ∧ rvStoreName ix.f3 = ix.name := by decide

theorem row_branch : ∀ ix ∈ rvIsa, ix.kind = .branch →
    ix.op = 0x63 ∧ ix.f3 < 8 ∧ rvBranchName ix.f3 = ix.name := by decide

theorem row_jal : ∀ ix ∈ rvIsa, ix.kind = .jal → ix.op = 0x6F ∧ "jal" = ix.name := by decide

theorem row_jalr : ∀ ix ∈ rvIsa, ix.kind = .jalr → ix.op = 0x67 ∧ ix.f3 = 0 ∧ "jalr" = ix.name := by
  decide

theorem row_lui : ∀ ix ∈ rvIsa, ix.kind = .lui → ix.op = 0x37 ∧ "lui" = ix.name := by decide

theorem row_auipc : ∀ ix ∈ rvIsa, ix.kind = .auipc → ix.op = 0x17 ∧ "auipc" = ix.name := by decide

theorem row_sys : ∀ ix ∈ rvIsa, ix.kind = .sys →
    (((u32 ix.f7 <<< 20) ||| u32 ix.op) &&& 0x7F).toNat = 0x73 ∧
      (if ((u32 ix.f7 <<< 20) ||| u32 ix.op) >>> 20 ≠ 0 then "ebreak" else "ecall") = ix.name := by
  decide

theorem rvOpImmName_of_not_shift {f3 : ℕ} (f7 : ℕ) (h : ¬(f3 = 1 ∨ f3 = 5)) :
    rvOpImmName f7 f3 = rvOpImmName 0 f3 := by
  unfold rvOpImmName
  split <;> first | rfl | exact absurd (Or.inr rfl) h

/-! ## Operands -/

theorem rvParseReg_of_lookup {r : ℕ} (h : rvRegLookup s = some r) : rvParseReg s = .ok r := by
  rw [rvParseReg, h]

theorem parseI32_of_parseImm {v : ℤ} (h : rivAsParseImm st s = .ok v) :
    parseI32 st s = .ok (BitVec.ofInt 32 v) := by
  rw [parseI32, h]
  rfl

theorem splitOffsetOrDie_of_split {parts : CStr × CStr}
    (h : rivAsSplitOffset s = .ok (some parts)) : splitOffsetOrDie s = .ok parts := by
  rw [splitOffsetOrDie, h]
  rfl

/-! ## The emitted word -/

theorem fence_toNat {pred succ : ℕ} (hpred : pred < 16) (hsucc : succ < 16) :
    ((u32 pred <<< 24) ||| (u32 succ <<< 20) ||| u32 0x0F).toNat =
      pack [(20, 0x0F), (4, succ), (4, pred)] := by
  have s0 : (u32 0x0F).toNat = pack [(20, 0x0F)] := by decide
  have s1 := u32_shiftLeft_or (w := 4) (k := 20) hsucc s0 rfl (by decide)
  have s2 := u32_shiftLeft_or (w := 4) (k := 24) hpred s1 rfl (by decide)
  rw [BitVec.or_assoc]
  exact s2

theorem rvDecodeWord_fence {pc w : RivU32} {pred succ : ℕ}
    (hw : w.toNat = pack [(20, 0x0F), (4, succ), (4, pred)])
    (hpred : pred < 16) (hsucc : succ < 16) : rvDecodeWord pc w =
      ⟨"fence", [.flags (rvFenceText pred), .flags (rvFenceText succ)]⟩ := by
  have hop : (w &&& 0x7F).toNat = 0x0F := by
    rw [toNat_and_mask (w := 7) w _ rfl, hw]
    simp only [pack]
    omega
  have hf3 : ((w >>> 12) &&& 0x7).toNat = 0 := by
    rw [toNat_ushiftRight_and (w := 3) w _ rfl, hw]
    simp only [pack, extract]
    omega
  have hp : ((w >>> 24) &&& 0xF).toNat = pred := field_at 2 hw rfl rfl rfl hpred
  have hsc : ((w >>> 20) &&& 0xF).toNat = succ := field_at 1 hw rfl rfl rfl hsucc
  simp only [rvDecodeWord, hop, hf3, hp, hsc]
  rfl

theorem rvFenceText_of_pos {set : ℕ} (hpos : 0 < set) (hlt : set < 16) :
    rvFenceText set = rvFenceFlags set := by interval_cases set <;> rfl

theorem encU_ofInt_toNat {rd op imm : ℕ} (himm : imm < 2 ^ 20) (hrd : rd < 32) (hop : op < 128) :
    (encU rd (BitVec.ofInt 32 imm <<< 12) op).toNat =
      pack [(7, op), (5, rd), (20, imm)] := by grind [BitVec.toNat_ofInt, encU_toNat]

variable {n : RvInsn}

theorem rvWord_of_spelledBy (hspell : n.SpelledBy st ops) :
    rvWord st n.entry n.entry.name.toList ops = .ok n.word := by
  cases n with
  | r e rd rs1 rs2 =>
    match ops, hspell with
    | a :: b :: c :: _, ⟨ha, hb, hc⟩ =>
      simp only [rvWord, RvInsn.entry, e.kind_eq, rvParseReg_of_lookup ha,
        rvParseReg_of_lookup hb, rvParseReg_of_lookup hc]
      rfl
  | i e | shift e =>
    match ops, hspell with
    | a :: b :: c :: _, ⟨ha, hb, hc⟩ =>
      simp only [rvWord, RvInsn.entry, e.kind_eq, rvParseReg_of_lookup ha,
        rvParseReg_of_lookup hb, parseI32_of_parseImm hc]
      rfl
  | load e | store e =>
    match ops, hspell with
    | a :: b :: _, ⟨ha, imm, reg, hb, himm, hreg⟩ =>
      simp_all [rvWord, RvInsn.entry, e.kind_eq, splitOffsetOrDie_of_split, rvParseReg_of_lookup,
        parseI32_of_parseImm, Exec.ok_bind, RvInsn.word]
  | branch e rs1 rs2 disp =>
    match ops, hspell with
    | a :: b :: c :: _, ⟨ha, hb, t, hc, ht⟩ =>
      simp [rvWord, RvInsn.entry, e.kind_eq, rvParseReg_of_lookup ha, rvParseReg_of_lookup hb,
        parseI32_of_parseImm hc, RvInsn.word, displacement_eq ht]
  | jal e rd disp =>
    match ops, hspell with
    | a :: b :: _, ⟨ha, t, hb, ht⟩ =>
      simp [rvWord, RvInsn.entry, e.kind_eq, rvParseReg_of_lookup ha, parseI32_of_parseImm hb,
        RvInsn.word, displacement_eq ht]
  | jalr e rd rs1 imm =>
    match ops, hspell with
    | [a, b], ⟨ha, imm, reg, hb, himm, hreg⟩ =>
      simp_all [rvWord, RvInsn.entry, e.kind_eq, splitOffsetOrDie_of_split, rvParseReg_of_lookup,
        parseI32_of_parseImm, Exec.ok_bind, RvInsn.word]
    | a :: b :: c :: _, ⟨ha, hb, hc⟩ =>
      simp only [rvWord, RvInsn.entry, e.kind_eq, rvParseReg_of_lookup ha,
        rvParseReg_of_lookup hb, parseI32_of_parseImm hc]
      rfl
  | lui e | auipc e =>
    match ops, hspell with
    | a :: b :: _, ⟨ha, hb⟩ =>
      simp only [rvWord, RvInsn.entry, e.kind_eq, rvParseReg_of_lookup ha,
        parseI32_of_parseImm hb]
      rfl
  | sys e => simp only [rvWord, RvInsn.entry, e.kind_eq, RvInsn.word]
  | fence pred succ =>
    match ops, hspell with
    | a :: b :: _, ⟨ha, hb⟩ =>
      simp only [rvWord, RvInsn.entry, ha, hb]
      rfl
    | [], ⟨hp, hs⟩ =>
      subst hp hs
      rfl
    | [_], ⟨hp, hs⟩ =>
      subst hp hs
      rfl
  | fenceI => rfl

theorem rvDecodeWord_word (hrange : n.InRange) (pc : RivU32) :
    rvDecodeWord pc n.word = n.line pc := by
  cases n with
  | r e rd rs1 rs2 =>
    obtain ⟨hop, hf3, hf7, hname⟩ := row_r e.ix e.mem e.kind_eq
    have hw := encR_toNat rd.isLt hf3 rs1.isLt rs2.isLt hf7 (show 0x33 < 128 by decide)
    rw [RvInsn.word, hop, rvDecodeWord_r hw rd.isLt hf3 rs1.isLt rs2.isLt hf7, hname]
    rfl
  | i e rd rs1 imm =>
    obtain ⟨hop, hf3, hshift, hname⟩ := row_i e.ix e.mem e.kind_eq
    have hw := encI_toNat (BitVec.ofInt 32 imm) rd.isLt hf3 rs1.isLt
      (show 0x13 < 128 by decide)
    rw [RvInsn.word, hop, rvDecodeWord_i hw rd.isLt hf3 rs1.isLt
      (fun f7 => (rvOpImmName_of_not_shift f7 hshift).trans hname) hshift
      hrange.1 hrange.2]
    rfl
  | shift e rd rs1 shamt =>
    obtain ⟨hop, hshift, hf7, hname⟩ := row_shift e.ix e.mem e.kind_eq
    have hf3 : e.ix.f3 < 8 := by omega
    have hval : (BitVec.ofInt 32 ((shamt : ℕ) : ℤ) &&& 0x1F).toNat % 2 ^ 5 = shamt := by
      rw [toNat_and_mask (w := 5) _ _ rfl, BitVec.toNat_ofInt]
      omega
    have hw := encShift_toNat (BitVec.ofInt 32 (shamt : ℕ) &&& 0x1F) rd.isLt hf3
      rs1.isLt hf7 (show 0x13 < 128 by decide)
    rw [hval] at hw
    rw [RvInsn.word, hop, rvDecodeWord_shift hw rd.isLt hf3 rs1.isLt shamt.isLt hf7 hshift, hname]
    rfl
  | load e rd rs1 off =>
    obtain ⟨hop, hf3, hname⟩ := row_load e.ix e.mem e.kind_eq
    have hw := encI_toNat (BitVec.ofInt 32 off) rd.isLt hf3 rs1.isLt
      (show 0x03 < 128 by decide)
    rw [RvInsn.word, hop, rvDecodeWord_load hw rd.isLt hf3 rs1.isLt hrange.1 hrange.2, hname]
    rfl
  | store e rs2 rs1 off =>
    obtain ⟨hop, hf3, hname⟩ := row_store e.ix e.mem e.kind_eq
    have hw := encS_toNat (BitVec.ofInt 32 off) rs2.isLt hf3 rs1.isLt
      (show 0x23 < 128 by decide)
    rw [RvInsn.word, hop, rvDecodeWord_store hw rs2.isLt hf3 rs1.isLt hrange.1 hrange.2, hname]
    rfl
  | branch e rs1 rs2 disp =>
    obtain ⟨hop, hf3, hname⟩ := row_branch e.ix e.mem e.kind_eq
    have hw := encB_toNat (BitVec.ofInt 32 disp) rs1.isLt rs2.isLt hf3
      (show 0x63 < 128 by decide)
    rw [RvInsn.word, hop, rvDecodeWord_branch hw rs1.isLt rs2.isLt hf3 hrange.1 hrange.2.1
      hrange.2.2, hname]
    rfl
  | jal e rd disp =>
    obtain ⟨hop, hname⟩ := row_jal e.ix e.mem e.kind_eq
    have hw := encJ_toNat (BitVec.ofInt 32 disp) rd.isLt (show 0x6F < 128 by decide)
    rw [RvInsn.word, hop, rvDecodeWord_jal hw rd.isLt hrange.1 hrange.2.1 hrange.2.2, hname]
    rfl
  | jalr e rd rs1 imm =>
    obtain ⟨hop, hf3, hname⟩ := row_jalr e.ix e.mem e.kind_eq
    have hw := encI_toNat (BitVec.ofInt 32 imm) rd.isLt (show 0 < 8 by decide) rs1.isLt
      (show 0x67 < 128 by decide)
    rw [RvInsn.word, hop, hf3, rvDecodeWord_jalr hw rd.isLt rs1.isLt hrange.1 hrange.2, hname]
    rfl
  | lui e rd imm =>
    obtain ⟨hop, hname⟩ := row_lui e.ix e.mem e.kind_eq
    have hw := encU_ofInt_toNat hrange rd.isLt (show 0x37 < 128 by decide)
    obtain ⟨hop', hrd, htop⟩ := upper_fields hw (by decide) rd.isLt hrange
    simp only [RvInsn.word, hop, rvDecodeWord, hop', hrd, htop, hname]
    rfl
  | auipc e rd imm =>
    obtain ⟨hop, hname⟩ := row_auipc e.ix e.mem e.kind_eq
    have hw := encU_ofInt_toNat hrange rd.isLt (show 0x17 < 128 by decide)
    obtain ⟨hop', hrd, htop⟩ := upper_fields hw (by decide) rd.isLt hrange
    simp only [RvInsn.word, hop, rvDecodeWord, hop', hrd, htop, hname]
    rfl
  | sys e =>
    obtain ⟨hop, hname⟩ := row_sys e.ix e.mem e.kind_eq
    show rvDecodeWord pc ((u32 e.ix.f7 <<< 20) ||| u32 e.ix.op) = _
    simp only [rvDecodeWord, hop, hname]
    rfl
  | fence pred succ =>
    obtain ⟨⟨hp0, hp⟩, hs0, hs⟩ := hrange
    rw [RvInsn.word, rvDecodeWord_fence (fence_toNat hp hs) hp hs, rvFenceText_of_pos hp0 hp,
      rvFenceText_of_pos hs0 hs]
    rfl
  | fenceI => rfl

/-- The word computed for the operands of an instruction, and the line it is
decoded to. -/
def DecodesTo (st : AsState) (n : RvInsn) (ops : List CStr) : Prop :=
  ∃ w, rvWord st n.entry n.entry.name.toList ops = .ok w ∧
    rvDecodeWord (st.pc + st.base) w = n.line (st.pc + st.base)

theorem decodesTo_of_spelledBy (hrange : n.InRange) (hspell : n.SpelledBy st ops) :
    DecodesTo st n ops :=
  ⟨n.word, rvWord_of_spelledBy hspell, rvDecodeWord_word hrange _⟩

/-! ## Printed operands -/

theorem rvRegLookup_rvAbiName : ∀ r : Fin 32,
    rvRegLookup (rvAbiName r) = some (r : ℕ) ∧ ')' ∉ rvAbiName r := by decide

theorem rvFenceSet_rvFenceFlags {set : ℕ} (h : set < 16) :
    rvFenceSet 0 (rvFenceFlags set) = .ok set := by interval_cases set <;> rfl

theorem parseImm_dec {v : ℤ} (h1 : -2 ^ 31 ≤ v) (h2 : v < 2 ^ 31) :
    rivAsParseImm st (RvOperand.dec v).text = .ok v :=
  rivAsParseImm_of_strtoll (isNumeric_showDec v) (strtoll_showDec (by omega))

theorem parseImm_hex (v : RivU32) : rivAsParseImm st (RvOperand.hex v).text = .ok (v.toNat : ℤ) :=
  rivAsParseImm_of_strtoll rfl (strtoll_showHex (by omega))

theorem spellsOffset_text {off : ℤ} (r : Fin 32) (h1 : -2048 ≤ off) (h2 : off ≤ 2047) :
    SpellsOffset st (RvOperand.offset off r).text off r := by
  obtain ⟨hreg, hparen⟩ := rvRegLookup_rvAbiName r
  refine ⟨showDec off, rvAbiName r, rivAsSplitOffset_eq ?_ hparen, ?_, hreg⟩
  · exact not_paren_showDec off
  · exact parseImm_dec (by omega) (by omega)

theorem spellsTarget_text {disp : ℤ} :
    SpellsTarget st (RvOperand.hex (st.pc + st.base + BitVec.ofInt 32 disp)).text disp :=
  ⟨_, parseImm_hex _, by rw [BitVec.ofInt_natCast, BitVec.ofNat_toNat, BitVec.setWidth_eq]⟩

theorem RvInsn.spelledBy_text (st : AsState) (hrange : n.InRange) :
    n.SpelledBy st ((n.line (st.pc + st.base)).ops.map RvOperand.text) := by
  have hreg := fun r : Fin 32 => (rvRegLookup_rvAbiName r).1
  cases n with
  | r e rd rs1 rs2 => exact ⟨hreg rd, hreg rs1, hreg rs2⟩
  | i _ rd rs1 | jalr _ rd rs1 =>
    obtain ⟨h1, h2⟩ := hrange
    exact ⟨hreg rd, hreg rs1, parseImm_dec (by omega) (by omega)⟩
  | shift e rd rs1 shamt =>
    exact ⟨hreg rd, hreg rs1, parseImm_dec (by omega) (by omega)⟩
  | load e rd rs1 off => exact ⟨hreg rd, spellsOffset_text rs1 hrange.1 hrange.2⟩
  | store e rs2 rs1 off => exact ⟨hreg rs2, spellsOffset_text rs1 hrange.1 hrange.2⟩
  | branch e rs1 rs2 disp => exact ⟨hreg rs1, hreg rs2, spellsTarget_text⟩
  | jal e rd disp => exact ⟨hreg rd, spellsTarget_text⟩
  | lui _ rd | auipc _ rd =>
    refine ⟨hreg rd, (parseImm_hex _).trans ?_⟩
    rw [u32_toNat hrange (by decide)]
  | sys e => trivial
  | fence pred succ =>
    exact ⟨rvFenceSet_rvFenceFlags hrange.1.2, rvFenceSet_rvFenceFlags hrange.2.2⟩
  | fenceI => trivial

/-! ## Encoding and decoding a line -/

theorem rvExpandPseudo_name (n : RvInsn) (ops : List CStr) :
    rvExpandPseudo (n.entry.name.toList :: ops) = .ok (n.entry.name.toList :: ops) := by
  have h := name_not_pseudo _ n.entry_mem
  unfold rvExpandPseudo
  simp_all

theorem rvEncode_of_rvWord {w : RivU32} (hw : rvWord st n.entry n.entry.name.toList ops = .ok w)
    (hfit : st.pc.toNat + 4 ≤ maxProg) :
    rvEncode (n.entry.name.toList :: ops) st = .ok (some (st.putAll (leU32 w))) := by
  have hemit : rivAsEmitU32 w st = .ok (st.putAll (leU32 w)) := by
    rw [rivAsEmitU32_eq]
    exact emitAll_of_fits hfit
  simp only [rvEncode, rvExpandPseudo_name, rvFind_name _ n.entry_mem, hw, hemit, Exec.ok_bind]

/-- Whatever tokens spell an instruction that its format can represent, the
four bytes `rv_encode` emits for them are decoded at the same address to the
line that reports it; and the operands of that line are such tokens. -/
theorem rvDecode_rvEncode (n : RvInsn) (st : AsState) (hrange : n.InRange)
    (hfit : st.pc.toNat + 4 ≤ maxProg) :
    n.SpelledBy st ((n.line (st.pc + st.base)).ops.map RvOperand.text) ∧ ∀ ops, n.SpelledBy st ops →
        ∃ st', rvEncode (n.entry.name.toList :: ops) st = .ok (some st') ∧
          (emitted st st').length = 4 ∧ rvDecode (st.pc + st.base) (emitted st st') =
            .ok (4, n.line (st.pc + st.base)) := by
  refine ⟨n.spelledBy_text st hrange, fun ops hspell => ?_⟩
  obtain ⟨w, hw, hline⟩ := decodesTo_of_spelledBy hrange hspell
  have hbytes : emitted st (st.putAll (leU32 w)) = leU32 w := emitted_putAll hfit
  refine ⟨st.putAll (leU32 w), rvEncode_of_rvWord hw hfit, ?_, ?_⟩
  · rw [hbytes]
    rfl
  have hread := readU32_leU32 w []
  rw [List.append_nil] at hread
  rw [hbytes, rvDecode, need_eq_ok (show 0 + 4 ≤ (leU32 w).length from Nat.le_refl 4), hread]
  simp only [Exec.ok_bind, hline]

/-- A `jal` two bytes below the largest backward displacement. -/
theorem rvDecode_rvEncode_jal : ∃ st', rvEncode ["jal".toList, "ra".toList, "0x7ff00004".toList]
        ⟨fun _ => 0, 4, 4, 0x80000000, .emit, 1, [], .riscv32⟩ = .ok (some st') ∧
      rvDecode 0x80000004 (emitted ⟨fun _ => 0, 4, 4, 0x80000000, .emit, 1, [], .riscv32⟩ st') =
        .ok (4, ⟨"jal", [.reg 1, .hex 0x7ff00004]⟩) := by
  have h := (rvDecode_rvEncode (.jal ⟨⟨"jal", .jal, 0, 0, 0x6F⟩, by decide, rfl⟩ 1 (-2 ^ 20))
    ⟨fun _ => 0, 4, 4, 0x80000000, .emit, 1, [], .riscv32⟩
    ⟨by decide, by decide, by decide⟩ (by decide)).2
    ["ra".toList, "0x7ff00004".toList]
    ⟨by decide, 0x7ff00004, by decide, by decide⟩
  obtain ⟨st', hst, -, hdec⟩ := h
  exact ⟨st', hst, hdec⟩

end Rivet.Riscv32
