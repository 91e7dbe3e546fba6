import Rivet.Disassembler.Listing
import Rivet.X86.Insn

/-!
# Printed lines

`x86_decode` on the bytes of an instruction without a memory operand: the line
it prints is a function of the instruction and its address, whatever follows
the bytes.
-/

namespace Rivet.X86

open CLib Assembler Disassembler List

variable {pc : RivU32} {digit dst rex : ℕ} {op opcode : RivU8} {rest : List RivU8}

/-! ## Reading known bytes -/

theorem takeByte_cons (idx : ℕ) (b : RivU8) (rest : List RivU8) :
    takeByte idx (b :: rest) = .ok (idx + 1, rest, b) := by simp [takeByte, need_eq_ok]

theorem takeImm32_leU32 (idx : ℕ) (v : RivI32) (rest : List RivU8) :
    takeImm32 idx (leU32 v ++ rest) = .ok (idx + 4, rest, v) := by
  have hlen : 0 + 4 ≤ (leU32 v ++ rest).length := by
    rw [length_append]
    exact Nat.le_add_right 4 _
  rw [takeImm32, need_eq_ok hlen, readU32_leU32]
  rfl

variable {k r reg src : ℕ} {imm off : RivI32}

theorem low_byte_eq (v : RivU64) (hk : k < 4) : ((v >>> (8 * k)) &&& 0xFF).setWidth 8 =
      ((v.setWidth 32 >>> (8 * k)) &&& 0xFF).setWidth 8 := by
  apply BitVec.eq_of_getLsbD_eq
  intro i hi
  have h : 8 * k + i < 32 := by omega
  simp [hi, h]

theorem high_byte_eq (v : RivU64) (hk : k < 4) : ((v >>> (8 * (4 + k))) &&& 0xFF).setWidth 8 =
      (((v >>> 32).setWidth 32 >>> (8 * k)) &&& 0xFF).setWidth 8 := by
  apply BitVec.eq_of_getLsbD_eq
  intro i hi
  have h : 8 * k + i < 32 := by omega
  have hsum : 8 * (4 + k) + i = 32 + (8 * k + i) := by omega
  simp [hi, h, hsum]

theorem leU64_eq (v : RivU64) :
    leU64 v = leU32 (v.setWidth 32) ++ leU32 ((v >>> 32).setWidth 32) := by
  have hsplit : List.range 8 = [0, 1, 2, 3] ++ [0, 1, 2, 3].map (4 + ·) := rfl
  have hword (w : RivU32) : leU32 w =
      [0, 1, 2, 3].map fun k => ((w >>> (8 * k)) &&& 0xFF).setWidth 8 := by
    simp [leU32]
  rw [leU64, hsplit, map_append, map_map, hword, hword]
  congr 1
  · exact map_congr_left fun k hk => low_byte_eq v (by simp at hk; omega)
  · exact map_congr_left fun k hk => high_byte_eq v (by simp at hk; omega)

theorem join_halves (v : RivU64) :
    ((v >>> 32).setWidth 32).setWidth 64 <<< 32 ||| (v.setWidth 32).setWidth 64 = v := by grind

theorem takeImm64_leU64 (idx : ℕ) (v : RivU64) (rest : List RivU8) :
    takeImm64 idx (leU64 v ++ rest) = .ok (idx + 8, rest, v) := by
  have hlen : 0 + 8 ≤ (leU64 v ++ rest).length := by
    rw [length_append]
    exact Nat.le_add_right 8 _
  have hhigh (w w' : RivU32) (bs : List RivU8) :
      readU32 (leU32 w ++ (leU32 w' ++ bs)) 4 = readU32 (leU32 w' ++ bs) 0 := rfl
  rw [takeImm64, need_eq_ok hlen, leU64_eq, append_assoc, hhigh, readU32_leU32, readU32_leU32]
  simp only [Exec.ok_bind, join_halves]
  rfl

/-! ## Prefix and ModR/M bytes -/

theorem rexBytes_eq {x b : ℕ} (hr : r < 2) (hx : x < 2) (hb : b < 2) :
    ∃ rex : RivU8, rexBytes 1 r x b = [rex] ∧ rex &&& 0xF0 = 0x40 ∧
      rexW rex.toNat = 1 ∧ rexR rex.toNat = r ∧ rexX rex.toNat = x ∧ rexB rex.toNat = b := by
  have hall : ∀ r < 2, ∀ x < 2, ∀ b < 2,
      let rex := u8 (0x40 ||| (1 <<< 3) ||| (r <<< 2) ||| (x <<< 1) ||| b)
      rex &&& 0xF0 = 0x40 ∧ rexW rex.toNat = 1 ∧ rexR rex.toNat = r ∧
        rexX rex.toNat = x ∧ rexB rex.toNat = b := by decide
  exact ⟨_, if_pos (Or.inl (by decide)), hall r hr x hx b hb⟩

theorem packed_fields : ∀ hi < 4, ∀ mid < 8, ∀ lo < 8,
    let byte := u8 ((hi <<< 6) ||| (mid <<< 3) ||| lo)
    (byte.toNat >>> 6) &&& 3 = hi ∧ (byte.toNat >>> 3) &&& 7 = mid ∧
      byte.toNat &&& 7 = lo := by decide +kernel

theorem modrmByte_fields {mod : ℕ} (hmod : mod < 4) (reg rm : ℕ) :
    ((modrmByte mod reg rm).toNat >>> 6) &&& 3 = mod ∧
      ((modrmByte mod reg rm).toNat >>> 3) &&& 7 = reg &&& 7 ∧
      (modrmByte mod reg rm).toNat &&& 7 = rm &&& 7 := by
  have hlt (n : ℕ) : n &&& 7 < 8 := Nat.lt_of_le_of_lt Nat.and_le_right (by decide)
  exact packed_fields mod hmod _ (hlt reg) _ (hlt rm)

theorem and_one_lt (n : ℕ) : n &&& 1 < 2 :=
  Nat.lt_of_le_of_lt Nat.and_le_right (by decide)

theorem highBit_lt (reg : ℤ) : highBit reg < 2 := by
  unfold highBit
  split
  · exact and_one_lt _
  · decide

/-! ## The opcode -/

theorem x86Decode_rex {rex : RivU8} (h : rex &&& 0xF0 = 0x40) :
    x86Decode pc (rex :: op :: rest) = decodeOp pc rex.toNat 2 op rest := by
  simp_all [x86Decode, need_eq_ok, readByte_cons_zero, Exec.ok_bind]

theorem x86Decode_op (h : op &&& 0xF0 ≠ 0x40) :
    x86Decode pc (op :: rest) = decodeOp pc 0 1 op rest := by
  rw [x86Decode, need_eq_ok (by simp)]
  simp_all

theorem decodeOp_modrm {idx : ℕ} {info : OpInfo} (h : lookupOp x86OpInfos op = some info) :
    decodeOp pc rex idx op rest = decodeModrm rex idx info rest := by
  have hmem : op ∈ x86OpInfos.map Prod.fst := by
    unfold lookupOp at h
    rw [Option.map_eq_some_iff] at h
    grind
  have hall : ∀ op ∈ x86OpInfos.map Prod.fst,
      lookupOp x86OneByte op = none ∧ op ≠ 0xCD ∧ ¬(op = 0xE8 ∨ op = 0xE9) ∧ op ≠ 0xEC ∧
        op ≠ 0xEE ∧ op ≠ 0xE4 ∧ op ≠ 0xE6 ∧ ¬(0x50 ≤ op.toNat ∧ op.toNat ≤ 0x57) ∧
        ¬(0x58 ≤ op.toNat ∧ op.toNat ≤ 0x5F) ∧ ¬(0xB8 ≤ op.toNat ∧ op.toNat ≤ 0xBF) ∧
        op ≠ 0x0F := by decide
  obtain ⟨h0, h1, h2, h3, h4, h5, h6, h7, h8, h9, h10⟩ := hall op hmem
  have hmov : ¬(rexW rex ≠ 0 ∧ 0xB8 ≤ op.toNat ∧ op.toNat ≤ 0xBF) := fun h => h9 h.2
  rw [decodeOp, h0]
  simp only [if_neg h1, if_neg h2, if_neg h3, if_neg h4, if_neg h5, if_neg h6, if_neg h7,
    if_neg h8, if_neg hmov, if_neg h10, h]

theorem decodeOp_0F (pc : RivU32) (rex idx : ℕ) (rest : List RivU8) :
    decodeOp pc rex idx 0x0F rest = decodeTwoByte pc rex idx rest := by
  have hmov : ¬(rexW rex ≠ 0 ∧ 0xB8 ≤ (0x0F : RivU8).toNat ∧ (0x0F : RivU8).toNat ≤ 0xBF) :=
    fun h => absurd h.2.1 (by decide)
  rw [decodeOp]
  simp only [if_neg hmov]
  rfl

/-! ## Operations on registers -/

theorem reg_join (h : reg < 16) : (reg &&& 7) ||| (((reg >>> 3) &&& 1) <<< 3) = reg := by
  interval_cases reg <;> rfl

theorem digit_and (h : digit < 8) : digit &&& 7 = digit :=
  (Nat.and_two_pow_sub_one_eq_mod digit 3).trans (Nat.mod_eq_of_lt h)

abbrev rmReg (rex rm : ℕ) : X86Operand := .reg ((rm &&& 7) ||| (rexB rex <<< 3))

/-- The register in the middle field, with the bit of the prefix. -/
abbrev midReg (rex reg : ℕ) : X86Operand := .reg ((reg &&& 7) ||| (rexR rex <<< 3))

theorem decodeModrm_named (name : String) (rex idx reg rm : ℕ) (rest : List RivU8) :
    decodeModrm rex idx (.named name false) (modrmByte 3 reg rm :: rest) =
      .ok (idx + 1, ⟨name, [rmReg rex rm, midReg rex reg]⟩) := by
  obtain ⟨hmod, hreg, hrm⟩ := modrmByte_fields (show 3 < 4 by decide) reg rm
  rw [decodeModrm, takeByte_cons]
  simp only [Exec.ok_bind, hmod, hreg, hrm]
  rfl

theorem decodeModrm_unary {table : ℕ} (htable : table = 3 ∨ table = 4) (rex idx digit rm : ℕ)
    (rest : List RivU8) :
    decodeModrm rex idx ⟨"", table, false, false, false⟩ (modrmByte 3 digit rm :: rest) =
      .ok (idx + 1, ⟨(x86DigitNames table).getD (digit &&& 7) "", [rmReg rex rm]⟩) := by
  obtain ⟨hmod, hreg, hrm⟩ := modrmByte_fields (show 3 < 4 by decide) digit rm
  rw [decodeModrm, takeByte_cons]
  simp only [Exec.ok_bind, hmod, hreg, hrm]
  rcases htable with rfl | rfl <;> rfl

theorem decodeModrm_imm32 (name : String) (table rex idx digit rm : ℕ) (imm : RivI32)
    (rest : List RivU8) : decodeModrm rex idx ⟨name, table, false, false, true⟩
        (modrmByte 3 digit rm :: (leU32 imm ++ rest)) =
      .ok (idx + 5, ⟨if table = 0 then name else (x86DigitNames table).getD (digit &&& 7) "",
        [rmReg rex rm, .hex imm.toNat]⟩) := by
  obtain ⟨hmod, hreg, hrm⟩ := modrmByte_fields (show 3 < 4 by decide) digit rm
  rw [decodeModrm, takeByte_cons]
  simp only [Exec.ok_bind, hmod, hreg, hrm, ne_eq, not_true_eq_false, if_false,
    Bool.false_eq_true, if_true, takeImm32_leU32]

theorem decodeModrm_imm8 (table rex idx digit rm : ℕ) (imm : RivU8) (rest : List RivU8) :
    decodeModrm rex idx ⟨"", table + 1, false, true, false⟩ (modrmByte 3 digit rm :: imm :: rest) =
      .ok (idx + 2, ⟨(x86DigitNames (table + 1)).getD (digit &&& 7) "",
        [rmReg rex rm, .hex imm.toNat]⟩) := by
  obtain ⟨hmod, hreg, hrm⟩ := modrmByte_fields (show 3 < 4 by decide) digit rm
  rw [decodeModrm, takeByte_cons]
  simp only [Exec.ok_bind, hmod, hreg, hrm, ne_eq, not_true_eq_false, if_false,
    Bool.false_eq_true, if_true, takeByte_cons, Nat.add_one_ne_zero]

/-! ## The line of an instruction -/

def plainLines : List (List RivU8 × X86Line) :=
  x86ZeroOps.map (fun row => (row.2, ⟨row.1, []⟩)) ++
    [([0xEC], ⟨"in", [.name "al", .name "dx"]⟩), ([0xEE], ⟨"out", [.name "dx", .name "al"]⟩)]

/-- The line printed at `pc` for an instruction without a memory operand. -/
def X86Insn.line? (pc : RivU32) : X86Insn → Option X86Line
  | .plain bytes => (plainLines.find? fun row => row.1 = bytes).map Prod.snd
  | .imm8 opcode v =>
    if opcode = 0xCD then some ⟨"int", [.hex v.toNat]⟩
    else if opcode = 0xE4 then some ⟨"in", [.name "al", .hex v.toNat]⟩
    else if opcode = 0xE6 then some ⟨"out", [.hex v.toNat, .name "al"]⟩
    else none
  | .stack opcode r => some ⟨if opcode = 0x50 then "push" else "pop", [.reg r]⟩
  | .rr opcode dst src =>
    (lookupOp x86OpInfos opcode).map fun info => ⟨info.mnem, [.reg dst, .reg src]⟩
  | .ri32 digit dst imm =>
    some ⟨(x86DigitNames 1).getD digit "", [.reg dst, .hex imm.toNat]⟩
  | .movImm32 dst imm => some ⟨"mov", [.reg dst, .hex imm.toNat]⟩
  | .movImm64 dst imm => some ⟨"mov", [.reg dst, .hex imm.toNat]⟩
  | .mem _ _ _ => none
  | .movMem _ _ => none
  | .imul dst src => some ⟨"imul", [.reg dst, .reg src]⟩
  | .unary opcode dst digit =>
    some ⟨(x86DigitNames (if opcode = 0xF7 then 3 else 4)).getD digit "", [.reg dst]⟩
  | .shift dst digit imm =>
    some ⟨(x86DigitNames 2).getD digit "", [.reg dst, .hex imm.toNat]⟩
  | .branch opcode off =>
    some ⟨if opcode = 0xE8 then "call" else "jmp", [.hex (pc + 5 + off).toNat]⟩
  | .jcc cc off => some ⟨x86JccName (cc.toNat - 0x80), [.hex (pc + 6 + off).toNat]⟩

/-- The instruction `i` at `pc` is decoded to its last byte and printed as
`line`, whatever follows. -/
def DecodesTo (pc : RivU32) (i : X86Insn) (line : X86Line) : Prop :=
  ∀ rest, x86Decode pc (i.bytes ++ rest) = .ok (i.bytes.length, line)

theorem rex_one_register (dst : ℕ) :
    ∃ rex : RivU8, rexBytes 1 0 0 ((dst >>> 3) &&& 1) = [rex] ∧ rex &&& 0xF0 = 0x40 ∧
      rexW rex.toNat = 1 ∧ rexB rex.toNat = (dst >>> 3) &&& 1 := by
  obtain ⟨rex, hrex, hrex40, hw, -, -, hb⟩ :=
    rexBytes_eq (show 0 < 2 by decide) (show 0 < 2 by decide) (and_one_lt (dst >>> 3))
  exact ⟨rex, hrex, hrex40, hw, hb⟩

theorem rmReg_eq {rm : ℕ} (h : rexB rex = (rm >>> 3) &&& 1) (hrm : rm < 16) :
    rmReg rex rm = .reg rm := by rw [rmReg, h, reg_join hrm]

theorem midReg_eq (h : rexR rex = (reg >>> 3) &&& 1) (hreg : reg < 16) :
    midReg rex reg = .reg reg := by rw [midReg, h, reg_join hreg]

theorem rrOpcodes_info : ∀ op ∈ rrOpcodes,
    ∃ info ∈ lookupOp x86OpInfos op, info = .named info.mnem false := by decide

theorem decodesTo_rr {name : String} (hop : lookupOp x86OpInfos opcode = some (.named name false))
    (hdst : dst < 16) (hsrc : src < 16) :
    DecodesTo pc (.rr opcode dst src) ⟨name, [.reg dst, .reg src]⟩ := by
  intro rest
  obtain ⟨rex, hrex, hrex40, -, hr, -, hb⟩ :=
    rexBytes_eq (and_one_lt (src >>> 3)) (show 0 < 2 by decide) (and_one_lt (dst >>> 3))
  simp_all [X86Insn.bytes, x86Decode_rex, decodeOp_modrm, decodeModrm_named, rmReg_eq, midReg_eq]

theorem decodesTo_ri32 (hdigit : digit < 8) (hdst : dst < 16) : DecodesTo pc (.ri32 digit dst imm)
      ⟨(x86DigitNames 1).getD digit "", [.reg dst, .hex imm.toNat]⟩ := by
  intro rest
  have hop : lookupOp x86OpInfos 0x81 = some ⟨"", 1, false, false, true⟩ := by decide
  obtain ⟨rex, hrex, hrex40, -, hb⟩ := rex_one_register dst
  simp only [X86Insn.bytes, hrex, cons_append, nil_append]
  rw [x86Decode_rex hrex40, decodeOp_modrm hop, decodeModrm_imm32, rmReg_eq hb hdst,
    digit_and hdigit]
  rfl

theorem decodesTo_movImm32 (hdst : dst < 16) :
    DecodesTo pc (.movImm32 dst imm) ⟨"mov", [.reg dst, .hex imm.toNat]⟩ := by
  intro rest
  have hop : lookupOp x86OpInfos 0xC7 = some ⟨"mov", 0, false, false, true⟩ := by decide
  obtain ⟨rex, hrex, hrex40, -, hb⟩ := rex_one_register dst
  simp only [X86Insn.bytes, hrex, cons_append, nil_append]
  rw [x86Decode_rex hrex40, decodeOp_modrm hop, decodeModrm_imm32, rmReg_eq hb hdst]
  rfl

theorem decodesTo_unary (hop : opcode = 0xFF ∨ opcode = 0xF7) (hdigit : digit < 8)
    (hdst : dst < 16) : DecodesTo pc (.unary opcode dst digit)
      ⟨(x86DigitNames (if opcode = 0xF7 then 3 else 4)).getD digit "", [.reg dst]⟩ := by
  intro rest
  have hinfo : lookupOp x86OpInfos opcode =
      some ⟨"", if opcode = 0xF7 then 3 else 4, false, false, false⟩ := by
    rcases hop with rfl | rfl <;> decide
  have htable : (if opcode = 0xF7 then 3 else 4) = 3 ∨ (if opcode = 0xF7 then 3 else 4) = 4 := by
    split
    · exact Or.inl rfl
    · exact Or.inr rfl
  obtain ⟨rex, hrex, hrex40, -, hb⟩ := rex_one_register dst
  simp_all [X86Insn.bytes, x86Decode_rex, decodeOp_modrm, decodeModrm_unary, rmReg_eq, digit_and]

theorem decodesTo_shift {imm : RivU8} (hdigit : digit < 8) (hdst : dst < 16) :
    DecodesTo pc (.shift dst digit imm)
      ⟨(x86DigitNames 2).getD digit "", [.reg dst, .hex imm.toNat]⟩ := by
  intro rest
  have hop : lookupOp x86OpInfos 0xC1 = some ⟨"", 1 + 1, false, true, false⟩ := by decide
  obtain ⟨rex, hrex, hrex40, -, hb⟩ := rex_one_register dst
  simp_all [X86Insn.bytes, x86Decode_rex, decodeOp_modrm, decodeModrm_imm8, rmReg_eq, digit_and]

theorem decodesTo_movImm64 {imm : RivU64} (hdst : dst < 16) :
    DecodesTo pc (.movImm64 dst imm) ⟨"mov", [.reg dst, .hex imm.toNat]⟩ := by
  intro rest
  obtain ⟨rex, hrex, hrex40, hw, hb⟩ := rex_one_register dst
  have hall : ∀ r < 16,
      lookupOp x86OneByte (u8 (0xB8 + (r &&& 7))) = none ∧
        u8 (0xB8 + (r &&& 7)) ∉ ([0xCD, 0xE8, 0xE9, 0xEC, 0xEE, 0xE4, 0xE6] : List RivU8) ∧
        ¬(0x50 ≤ (u8 (0xB8 + (r &&& 7))).toNat ∧ (u8 (0xB8 + (r &&& 7))).toNat ≤ 0x57) ∧
        ¬(0x58 ≤ (u8 (0xB8 + (r &&& 7))).toNat ∧ (u8 (0xB8 + (r &&& 7))).toNat ≤ 0x5F) ∧
        (0xB8 ≤ (u8 (0xB8 + (r &&& 7))).toNat ∧ (u8 (0xB8 + (r &&& 7))).toNat ≤ 0xBF) ∧
        (u8 (0xB8 + (r &&& 7))).toNat - 0xB8 = r &&& 7 := by
    decide
  obtain ⟨h0, h1, h2, h3, h4, hlow⟩ := hall dst hdst
  simp only [mem_cons, not_mem_nil, or_false, not_or] at h1
  obtain ⟨hCD, hE8, hE9, hEC, hEE, hE4, hE6⟩ := h1
  simp only [X86Insn.bytes, hrex, cons_append, nil_append]
  rw [x86Decode_rex hrex40, decodeOp, h0]
  simp only [hCD, hE8, hE9, hEC, hEE, hE4, hE6, h2, h3, h4, hw, or_self, if_false, ne_eq,
    one_ne_zero, not_false_eq_true, and_self, if_true, takeImm64_leU64, Exec.ok_bind, hlow, hb,
    reg_join hdst]
  rfl

theorem decodesTo_imul (hdst : dst < 16) (hsrc : src < 16) :
    DecodesTo pc (.imul dst src) ⟨"imul", [.reg dst, .reg src]⟩ := by
  intro rest
  obtain ⟨rex, hrex, hrex40, -, hr, -, hb⟩ :=
    rexBytes_eq (and_one_lt (dst >>> 3)) (show 0 < 2 by decide) (and_one_lt (src >>> 3))
  obtain ⟨-, hmid, hlow⟩ := modrmByte_fields (show 3 < 4 by decide) dst src
  simp only [X86Insn.bytes, hrex, cons_append, nil_append]
  rw [x86Decode_rex hrex40, decodeOp_0F, decodeTwoByte, takeByte_cons]
  simp only [Exec.ok_bind, takeByte_cons, hmid, hlow, hr, hb, reg_join hdst, reg_join hsrc]
  rfl

theorem decodesTo_jcc {cc : RivU8} (hcc : cc ∈ x86JccOpcodes.map Prod.snd) :
    DecodesTo pc (.jcc cc off) ⟨x86JccName (cc.toNat - 0x80), [.hex (pc + 6 + off).toNat]⟩ := by
  intro rest
  have hall : ∀ cc ∈ x86JccOpcodes.map Prod.snd,
      cc ≠ 0x05 ∧ cc ≠ 0x07 ∧ cc ≠ 0x0B ∧ 0x80 ≤ cc.toNat ∧ cc.toNat ≤ 0x8F := by decide
  obtain ⟨h0, h1, h2, h3⟩ := hall cc hcc
  simp only [X86Insn.bytes, cons_append]
  rw [x86Decode_op (by decide), decodeOp_0F, decodeTwoByte, takeByte_cons]
  simp only [Exec.ok_bind, if_neg h0, if_neg h1, if_neg h2, if_pos h3, takeImm32_leU32]
  rfl

theorem decodesTo_branch (hop : opcode ∈ ([0xE8, 0xE9] : List RivU8)) :
    DecodesTo pc (.branch opcode off)
      ⟨if opcode = 0xE8 then "call" else "jmp", [.hex (pc + 5 + off).toNat]⟩ := by
  intro rest
  have hall : ∀ op ∈ ([0xE8, 0xE9] : List RivU8),
      op &&& 0xF0 ≠ 0x40 ∧ lookupOp x86OneByte op = none ∧ op ≠ 0xCD ∧
        (op = 0xE8 ∨ op = 0xE9) := by decide
  obtain ⟨h0, h1, h2, h3⟩ := hall opcode hop
  simp only [X86Insn.bytes, cons_append]
  rw [x86Decode_op h0, decodeOp, h1]
  simp only [if_neg h2, if_pos h3, takeImm32_leU32, Exec.ok_bind]
  rfl

theorem decodesTo_stack {opcode : ℕ} (hop : opcode ∈ [0x50, 0x58]) (hr : r < 16) :
    DecodesTo pc (.stack opcode r) ⟨if opcode = 0x50 then "push" else "pop", [.reg r]⟩ := by
  intro rest
  simp only [mem_cons, not_mem_nil, or_false] at hop
  rcases hop with rfl | rfl <;> interval_cases r <;> rfl

theorem decodesTo_plain {bytes : List RivU8} {line : X86Line} (h : (bytes, line) ∈ plainLines) :
    DecodesTo pc (.plain bytes) line := by
  intro rest
  simp only [plainLines, x86ZeroOps, map_cons, map_nil, cons_append,
    nil_append, mem_cons, not_mem_nil, or_false, Prod.mk.injEq] at h
  rcases h with ⟨rfl, rfl⟩ | ⟨rfl, rfl⟩ | ⟨rfl, rfl⟩ | ⟨rfl, rfl⟩ | ⟨rfl, rfl⟩ | ⟨rfl, rfl⟩ |
    ⟨rfl, rfl⟩ | ⟨rfl, rfl⟩ | ⟨rfl, rfl⟩ | ⟨rfl, rfl⟩ | ⟨rfl, rfl⟩ | ⟨rfl, rfl⟩ | ⟨rfl, rfl⟩ <;>
    rfl

def X86Insn.HasMem : X86Insn → Prop
  | .mem _ _ _ | .movMem _ _ => True
  | _ => False

theorem X86Insn.WF.decodesTo {i : X86Insn} (h : i.WF) (hmem : ¬i.HasMem) (pc : RivU32) :
    ∃ line, i.line? pc = some line ∧ DecodesTo pc i line := by
  cases i with
  | plain bytes =>
    have hbytes : bytes ∈ plainLines.map Prod.fst := by
      rcases h with h | rfl | rfl
      · simp_all [plainLines, Or.inl]
      · decide
      · decide
    have hsome : (plainLines.find? fun row => row.1 = bytes).isSome = true := by grind
    obtain ⟨⟨bytes', line⟩, hrow⟩ := Option.isSome_iff_exists.mp hsome
    have heq := List.find?_some hrow
    rw [decide_eq_true_eq] at heq
    subst heq
    exact ⟨line, by rw [X86Insn.line?, hrow]; rfl,
      decodesTo_plain (mem_of_find?_eq_some hrow)⟩
  | imm8 opcode v =>
    simp only [X86Insn.WF, mem_cons, not_mem_nil, or_false] at h
    rcases h with rfl | rfl | rfl <;> exact ⟨_, rfl, fun rest => rfl⟩
  | stack opcode r => exact ⟨_, rfl, decodesTo_stack h.1 h.2⟩
  | rr opcode dst src =>
    obtain ⟨info, hinfo, hnamed⟩ := rrOpcodes_info opcode h.1
    refine ⟨⟨info.mnem, [.reg dst, .reg src]⟩, by rw [X86Insn.line?, hinfo]; rfl, ?_⟩
    exact decodesTo_rr (hinfo.trans (congrArg some hnamed)) h.2.1 h.2.2
  | ri32 digit dst imm =>
    have hall : ∀ digit ∈ ([0, 1, 4, 5, 6, 7] : List ℕ), digit < 8 := by decide
    exact ⟨_, rfl, decodesTo_ri32 (hall digit h.1) h.2⟩
  | movImm32 dst imm => exact ⟨_, rfl, decodesTo_movImm32 h⟩
  | movImm64 dst imm => exact ⟨_, rfl, decodesTo_movImm64 h⟩
  | mem | movMem => exact absurd trivial hmem
  | imul dst src => exact ⟨_, rfl, decodesTo_imul h.1 h.2⟩
  | unary opcode dst digit =>
    have hall : ∀ row ∈ [((0xFF : RivU8), 0), (0xFF, 1), (0xF7, 2), (0xF7, 3), (0xF7, 4),
        (0xF7, 6), (0xF7, 7)], (row.1 = 0xFF ∨ row.1 = 0xF7) ∧ row.2 < 8 := by decide
    obtain ⟨hop, hdigit⟩ := hall (opcode, digit) h.1
    exact ⟨_, rfl, decodesTo_unary hop hdigit h.2⟩
  | shift dst digit imm =>
    have hall : ∀ digit ∈ ([4, 5, 7] : List ℕ), digit < 8 := by decide
    exact ⟨_, rfl, decodesTo_shift (hall digit h.1) h.2⟩
  | branch opcode off => exact ⟨_, rfl, decodesTo_branch h⟩
  | jcc cc off => exact ⟨_, rfl, decodesTo_jcc h⟩

end Rivet.X86
