import Rivet.X86.Lines

/-!
# Instruction boundaries

`x86_decode`, started on the first byte of an instruction the encoder has
emitted, consumes exactly its bytes, whatever follows them.
-/

namespace Rivet.X86

open CLib Assembler Disassembler List

variable {m : X86Mem} {i : X86Insn}

/-! ## Memory operands -/

/-- The bytes of the displacement for a given `mod`. -/
def modDisp (mod : ℕ) (disp : RivI32) : List RivU8 :=
  if mod = 1 then [(disp &&& 0xFF).setWidth 8] else if mod = 2 then leU32 disp else []

theorem takeDisp_modDisp (mod idx : ℕ) (disp : RivI32) (rest : List RivU8) :
    ∃ d, takeDisp mod idx (modDisp mod disp ++ rest) =
      .ok (idx + (modDisp mod disp).length, rest, d) := by
  by_cases h1 : mod = 1
  · simp [takeDisp, modDisp, h1, takeByte_cons, Exec.ok_bind]
  by_cases h2 : mod = 2
  · refine ⟨some disp, ?_⟩
    simp only [takeDisp, modDisp, if_neg h1, if_pos h2, takeImm32_leU32, Exec.ok_bind]
    rfl
  simp_all [takeDisp, modDisp]

theorem and7_lt (reg : ℤ) : and7 reg < 8 := by
  unfold and7
  omega

theorem sib_fields (m : X86Mem) : (m.sib.toNat >>> 6) &&& 3 =
        (if m.scale = 1 then 0 else if m.scale = 2 then 1 else if m.scale = 4 then 2 else 3) ∧
      (m.sib.toNat >>> 3) &&& 7 = (if 0 ≤ m.index then and7 m.index else 4) ∧
      m.sib.toNat &&& 7 = if 0 ≤ m.base then and7 m.base else 5 := by
  refine packed_fields _ ?_ _ ?_ _ ?_
  all_goals grind [and7_lt]

theorem X86Mem.mod_lt (m : X86Mem) : m.mod < 3 := by
  unfold X86Mem.mod
  split_ifs <;> decide

theorem X86Mem.mod_ne_zero (hbase : 0 ≤ m.base) (h5 : and7 m.base = 5) : m.mod ≠ 0 := by
  have hforce : m.hasDisp = true ∨ m.forceZeroDisp = true := by
    simp_all [X86Mem.forceZeroDisp]
  unfold X86Mem.mod
  rw [if_neg (not_not.mpr hforce)]
  split <;> decide

theorem X86Mem.rm_lt (m : X86Mem) : m.rm < 8 := by
  unfold X86Mem.rm
  split
  · decide
  · exact and7_lt _

theorem X86Mem.rm_and (m : X86Mem) : m.rm &&& 7 = m.rm :=
  (Nat.and_two_pow_sub_one_eq_mod m.rm 3).trans (Nat.mod_eq_of_lt m.rm_lt)

theorem X86Mem.WF.base_of_low (hm : m.WF) (h : and7 m.base ≠ 7) : 0 ≤ m.base := by
  by_contra hneg
  have hbase : m.base = -1 := by
    have := hm.base_ge
    omega
  exact h (by rw [hbase]; rfl)

theorem X86Mem.WF.base_ne_four (hm : m.WF) (hsib : ¬m.hasSib = true) : and7 m.base ≠ 4 := by
  intro h4
  have hbase := hm.base_of_low (by rw [h4]; decide)
  exact hsib (by simp [X86Mem.hasSib, hbase, h4])

theorem X86Mem.WF.not_rip (hm : m.WF) : ¬(and7 m.base = 5 ∧ m.mod = 0) := by
  rintro ⟨h5, hmod⟩
  have hbase := hm.base_of_low (by rw [h5]; decide)
  exact X86Mem.mod_ne_zero hbase h5 hmod

theorem decodeMem_bytes (hm : m.WF) (rex idx : ℕ) (rest : List RivU8) :
    ∃ text, decodeMem rex m.mod m.rm idx
        ((if m.hasSib then [m.sib] else []) ++ m.dispBytes ++ rest) =
      .ok (idx + ((if m.hasSib then [m.sib] else []) ++ m.dispBytes).length, rest, text) := by
  by_cases hsib : m.hasSib = true
  · have hrm : m.rm = 4 := if_pos hsib
    simp only [if_pos hsib, cons_append, nil_append, length_cons]
    rw [decodeMem, if_pos hrm, takeByte_cons]
    simp only [Exec.ok_bind, (sib_fields m).2.2]
    by_cases hnobase : m.base < 0
    · by_cases hmod : m.mod = 0
      · have hdisp : m.dispBytes = leU32 m.disp := if_pos ⟨hsib, hmod, hnobase⟩
        rw [if_neg (not_le.mpr hnobase), if_pos ⟨rfl, hmod⟩, hdisp, takeImm32_leU32]
        exact ⟨_, rfl⟩
      · have hdisp : m.dispBytes = modDisp m.mod m.disp := if_neg fun h => hmod h.2.1
        obtain ⟨d, hd⟩ := takeDisp_modDisp m.mod (idx + 1) m.disp rest
        simp_all [not_le.mpr, Exec.ok_bind, Nat.add_assoc, Nat.add_comm]
    · have hbase : 0 ≤ m.base := not_lt.mp hnobase
      have hdisp : m.dispBytes = modDisp m.mod m.disp := if_neg fun h => hnobase h.2.2
      obtain ⟨d, hd⟩ := takeDisp_modDisp m.mod (idx + 1) m.disp rest
      rw [if_pos hbase, if_neg fun h => X86Mem.mod_ne_zero hbase h.1 h.2, hdisp, hd]
      rw [Exec.ok_bind, Nat.add_assoc, Nat.add_comm 1]
      exact ⟨_, rfl⟩
  · have hrm : m.rm = and7 m.base := if_neg hsib
    have hdisp : m.dispBytes = modDisp m.mod m.disp := if_neg fun h => hsib h.1
    obtain ⟨d, hd⟩ := takeDisp_modDisp m.mod idx m.disp rest
    have hne4 : m.rm ≠ 4 := hrm ▸ hm.base_ne_four hsib
    have hne5 : ¬(m.rm = 5 ∧ m.mod = 0) := hrm ▸ hm.not_rip
    simp [hsib, hdisp, decodeMem, hne4, hne5, hd]

/-! ## Instructions -/

/-- The instruction `i` is decoded to its last byte, whatever follows. -/
def DecodesWhole (i : X86Insn) : Prop :=
  ∀ (pc : RivU32) (rest : List RivU8), ∃ line,
    x86Decode pc (i.bytes ++ rest) = .ok (i.bytes.length, line)

theorem memOpcodes_info : ∀ op ∈ memOpcodes,
    ∃ info ∈ lookupOp x86OpInfos op, info.hasImm8 = false ∧ info.hasImm32 = false := by decide

theorem imm32Opcodes_info : ∀ op ∈ ([0x81, 0xC7] : List RivU8), ∃ info ∈ lookupOp x86OpInfos op,
      info.rmForm = false ∧ info.hasImm32 = true := by decide

theorem decodeModrm_mem {info : OpInfo} (hm : m.WF) (h8 : info.hasImm8 = false)
    (h32 : info.hasImm32 = false) (rex idx reg : ℕ) (rest : List RivU8) :
    ∃ line, decodeModrm rex idx info (m.bytes reg ++ rest) =
      .ok (idx + (m.bytes reg).length, line) := by
  obtain ⟨hmod, -, hrm⟩ := modrmByte_fields (show m.mod < 4 by have := m.mod_lt; omega) reg m.rm
  obtain ⟨text, htext⟩ := decodeMem_bytes hm rex (idx + 1) rest
  have hne3 : m.mod ≠ 3 := by
    have := m.mod_lt
    omega
  rw [X86Mem.bytes, cons_append, decodeModrm, takeByte_cons]
  simp only [Exec.ok_bind, hmod, hrm, m.rm_and, hne3, ne_eq, not_false_eq_true, if_true, htext,
    h8, h32, Bool.false_eq_true, if_false, length_cons]
  split_ifs <;> exact ⟨_, by rw [Nat.add_assoc, Nat.add_comm 1]⟩

theorem decodeModrm_mem_imm32 {info : OpInfo} (hm : m.WF) (h32 : info.hasImm32 = true)
    (rex idx reg : ℕ) (imm : RivI32) (rest : List RivU8) :
    ∃ line, decodeModrm rex idx info (m.bytes reg ++ (leU32 imm ++ rest)) =
      .ok (idx + (m.bytes reg).length + 4, line) := by
  obtain ⟨hmod, -, hrm⟩ := modrmByte_fields (show m.mod < 4 by have := m.mod_lt; omega) reg m.rm
  obtain ⟨text, htext⟩ := decodeMem_bytes hm rex (idx + 1) (leU32 imm ++ rest)
  have hne3 : m.mod ≠ 3 := by
    have := m.mod_lt
    omega
  rw [X86Mem.bytes, cons_append, decodeModrm, takeByte_cons]
  simp only [Exec.ok_bind, hmod, hrm, m.rm_and, hne3, ne_eq, not_false_eq_true, if_true, htext,
    h32, takeImm32_leU32, length_cons]
  grind

theorem decodesWhole_mem {opcode : RivU8} {reg : ℕ} (hop : opcode ∈ memOpcodes) (hm : m.WF) :
    DecodesWhole (.mem opcode reg m) := by
  intro pc rest
  obtain ⟨info, hinfo, h8, h32⟩ := memOpcodes_info opcode hop
  obtain ⟨rex, hrex, hrex40, -⟩ :=
    rexBytes_eq (and_one_lt (reg >>> 3)) (highBit_lt m.index) (highBit_lt m.base)
  obtain ⟨line, hline⟩ := decodeModrm_mem hm h8 h32 rex.toNat 2 reg rest
  refine ⟨line, ?_⟩
  simp only [X86Insn.bytes, X86Mem.rex, hrex, cons_append, nil_append, length_cons]
  rw [x86Decode_rex hrex40, decodeOp_modrm hinfo, hline, Nat.add_comm 2]

theorem decodesWhole_movMem {imm : RivI32} (hm : m.WF) : DecodesWhole (.movMem m imm) := by
  intro pc rest
  obtain ⟨rex, hrex, hrex40, -⟩ :=
    rexBytes_eq (and_one_lt (0 >>> 3)) (highBit_lt m.index) (highBit_lt m.base)
  obtain ⟨info, hinfo, -, h32⟩ := imm32Opcodes_info 0xC7 (by decide)
  obtain ⟨line, hline⟩ := decodeModrm_mem_imm32 hm h32 rex.toNat 2 0 imm rest
  refine ⟨line, ?_⟩
  simp only [X86Insn.bytes, X86Mem.rex, hrex, cons_append, nil_append,
    append_assoc, length_cons, length_append]
  rw [x86Decode_rex hrex40, decodeOp_modrm hinfo, hline]
  congr 2
  change _ = (m.bytes 0).length + 4 + 1 + 1
  omega

theorem X86Insn.WF.decodesWhole (h : i.WF) : DecodesWhole i := by
  by_cases hmem : i.HasMem
  · cases i with
    | mem opcode reg m => exact decodesWhole_mem h.1 h.2.2
    | movMem m imm => exact decodesWhole_movMem h
    | _ => exact absurd hmem id
  · intro pc rest
    obtain ⟨line, -, hline⟩ := h.decodesTo hmem pc
    exact ⟨line, hline rest⟩

theorem X86Insn.WF.bytes_ne_nil (h : i.WF) : i.bytes ≠ [] := by
  cases i with
  | plain bytes =>
    have hall : ∀ bytes ∈ x86ZeroOps.map Prod.snd, bytes ≠ [] := by decide
    rcases h with h | rfl | rfl
    · exact hall bytes h
    · exact cons_ne_nil _ _
    · exact cons_ne_nil _ _
  | _ => simp [X86Insn.bytes, leU32, X86Mem.bytes]

/-! ## Whole sequences -/

/-- Lines encoded one after the other, with the bytes each of them emitted. -/
inductive EncodesSeq : List (List CStr) → AsState → List (List RivU8) → AsState → Prop where
  | nil (st : AsState) : EncodesSeq [] st [] st
  | cons {tok : List CStr} {toks : List (List CStr)} {st st₁ st' : AsState}
      {chunks : List (List RivU8)} (hline : x86Encode tok st = .ok (some st₁))
      (hlines : EncodesSeq toks st₁ chunks st') :
      EncodesSeq (tok :: toks) st (emitted st st₁ :: chunks) st'

theorem takesWhole_of_wf (h : i.WF) : TakesWhole (archDecode .x86_64) i.bytes := by
  refine ⟨h.bytes_ne_nil, fun pc rest => ?_⟩
  obtain ⟨line, hline⟩ := h.decodesWhole pc rest
  simp_all [archDecode]

theorem EncodesSeq.emits {toks : List (List CStr)} {st st' : AsState}
    {chunks : List (List RivU8)} (h : EncodesSeq toks st chunks st') :
    (∀ chunk ∈ chunks, TakesWhole (archDecode .x86_64) chunk) ∧
      emitAll chunks.flatten st = .ok st' := by
  induction h with
  | nil st => exact ⟨fun _ hc => absurd hc not_mem_nil, rfl⟩
  | cons hline hlines ih =>
    obtain ⟨i, hi⟩ := x86Encode_emits hline
    rw [hi.emitted_eq]
    refine ⟨forall_mem_cons.mpr ⟨takesWhole_of_wf hi.wf, ih.1⟩, ?_⟩
    simp [emitAll_append, hi.eq, ih.2]

/-- An accepted line is decoded with the length it was emitted with, whatever
follows; the listing of an encoded sequence has one line for each instruction
and goes on after its last byte. -/
theorem x86Decode_x86Encode_length :
    (∀ (tok : List CStr) (st st' : AsState), x86Encode tok st = .ok (some st') →
      ∀ (pc : RivU32) (rest : List RivU8), ∃ line,
        x86Decode pc (emitted st st' ++ rest) = .ok ((emitted st st').length, line)) ∧
    (∀ (toks : List (List CStr)) (st st' : AsState) (chunks : List (List RivU8)),
      EncodesSeq toks st chunks st' →
      ∀ (pc : RivU32) (rest : List RivU8), ∃ lines : List ListingLine,
        lines.map ListingLine.bytes = chunks ∧
          listing (archDecode .x86_64) pc (emitted st st' ++ rest) =
            (lines ++ ·) <$> listing (archDecode .x86_64)
              (pc + BitVec.ofNat 32 (emitted st st').length) rest) := by
  constructor
  · intro tok st st' h pc rest
    obtain ⟨i, hi⟩ := x86Encode_emits h
    rw [hi.emitted_eq]
    exact hi.wf.decodesWhole pc rest
  · intro toks st st' chunks h pc rest
    obtain ⟨hwhole, hemit⟩ := h.emits
    rw [emitted_of_emitAll hemit]
    exact listing_chunks hwhole pc rest

/-- A load with a SIB byte and a conditional jump are listed as two lines. -/
theorem x86Decode_x86Encode_length_load_jne :
    ∃ st₁ st' chunks,
      x86Encode ["mov".toList, "rax".toList, "[rbp+r12*4-8]".toList]
        ⟨fun _ => 0, 0, 0, 0, .emit, 1, [], .x86_64⟩ = .ok (some st₁) ∧
      EncodesSeq [["mov".toList, "rax".toList, "[rbp+r12*4-8]".toList],
          ["jne".toList, "0x10".toList]]
        ⟨fun _ => 0, 0, 0, 0, .emit, 1, [], .x86_64⟩ chunks st' ∧
      (∃ line, x86Decode 0 (emitted ⟨fun _ => 0, 0, 0, 0, .emit, 1, [], .x86_64⟩ st₁ ++ [0x90]) =
        .ok (5, line)) ∧
      ∃ lines : List ListingLine, lines.map ListingLine.bytes = chunks ∧
        listing (archDecode .x86_64) 0
            (emitted ⟨fun _ => 0, 0, 0, 0, .emit, 1, [], .x86_64⟩ st' ++ [0x90]) =
          (lines ++ ·) <$> listing (archDecode .x86_64)
            (0 + BitVec.ofNat 32
              (emitted ⟨fun _ => 0, 0, 0, 0, .emit, 1, [], .x86_64⟩ st').length) [0x90] := by
  have hrun : (do
      let st₁ ← x86Encode ["mov".toList, "rax".toList, "[rbp+r12*4-8]".toList]
        ⟨fun _ => 0, 0, 0, 0, .emit, 1, [], .x86_64⟩
      match st₁ with
      | none => .ok none
      | some st₁ => do
        let st₂ ← x86Encode ["jne".toList, "0x10".toList] st₁
        .ok (st₂.map fun _ =>
          (emitted ⟨fun _ => 0, 0, 0, 0, .emit, 1, [], .x86_64⟩ st₁).length)) =
      (.ok (some 5) : Except AsError (Option ℕ)) := by
    decide +kernel
  obtain ⟨_ | st₁, h₁, hrun⟩ := Exec.of_bind_eq_ok hrun
  · cases hrun
  obtain ⟨st₂, h₂, hrun⟩ := Exec.of_bind_eq_ok hrun
  simp only [Except.ok.injEq, Option.map_eq_some_iff] at hrun
  obtain ⟨st₂, rfl, hlen⟩ := hrun
  have hseq := EncodesSeq.cons h₁ (.cons h₂ (.nil st₂))
  obtain ⟨line, hline⟩ := x86Decode_x86Encode_length.1 _ _ _ h₁ 0 [0x90]
  rw [hlen] at hline
  exact ⟨st₁, st₂, _, h₁, hseq, ⟨line, hline⟩,
    x86Decode_x86Encode_length.2 _ _ _ _ hseq 0 [0x90]⟩

end Rivet.X86
