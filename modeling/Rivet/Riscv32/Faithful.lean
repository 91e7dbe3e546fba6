import Rivet.Disassembler.Retokenize
import Rivet.Riscv32.Operands
import Rivet.Riscv32.RoundTrip

/-!
# Assembling what the RV32 disassembler prints

A printed line is read back as the instruction it spells, so assembling it at
the same address gives the word of that instruction.  `rv_decode` looks at only
some of the fields of a word; the line determines the word exactly when the
other fields have the values that the assembler puts there.
-/

namespace Rivet.Riscv32

open CLib Assembler Disassembler BitField

variable {n : RvInsn} {pc w : RivU32} {a b op x : ℕ}

/-- Whenever the line printed for `w` at `pc` is accepted at that address, its
assembly is `w` again. -/
def ReassemblesTo (pc w : RivU32) : Prop :=
  ∀ line toks st st', rvDecode pc (leU32 w) = .ok (4, line) → st.pc + st.base = pc →
    tokenize line.text = .ok toks → rvEncode toks st = .ok (some st') →
    emitted st st' = leU32 w

/-- The fields that `rv_decode` does not look at have the values of an RV32IM
instruction: the function fields of a shift and of `jalr`, all of a system word
but its opcode, and the unused fields of a fence.  A fence with an empty set is
printed as a line that is no instruction. -/
structure LineDetermines (w : RivU32) : Prop where
  slli : extract 0 7 w.toNat = 0x13 → extract 12 3 w.toNat = 1 → extract 25 7 w.toNat = 0
  srli : extract 0 7 w.toNat = 0x13 → extract 12 3 w.toNat = 5 →
    extract 25 7 w.toNat = 0 ∨ extract 25 7 w.toNat = 0x20
  jalr : extract 0 7 w.toNat = 0x67 → extract 12 3 w.toNat = 0
  system : extract 0 7 w.toNat = 0x73 → w = 0x00000073 ∨ w = 0x00100073
  fenceI : extract 0 7 w.toNat = 0x0F → extract 12 3 w.toNat = 1 → w = 0x0000100F
  fence : extract 0 7 w.toNat = 0x0F → extract 12 3 w.toNat ≠ 1 →
    extract 24 4 w.toNat = 0 ∨ extract 20 4 w.toNat = 0 ∨
      extract 28 4 w.toNat = 0 ∧ extract 0 20 w.toNat = 0x0F

/-! ## Tokens of a printed line -/

theorem plainToken_name : ∀ ix ∈ rvIsa, PlainToken ix.name.toList := by decide

theorem plainToken_reg : ∀ r : Fin 32, PlainToken (rvAbiName r) := by decide

theorem plainToken_fenceText {set : ℕ} (h : set < 16) : PlainToken (rvFenceText set) := by
  interval_cases set <;> decide

theorem plainToken_fenceFlags {set : ℕ} (hpos : 0 < set) (h : set < 16) :
    PlainToken (rvFenceFlags set) := by
  rw [← rvFenceText_of_pos hpos h]
  exact plainToken_fenceText h

theorem plainToken_offset (off : ℤ) (r : Fin 32) : PlainToken (RvOperand.offset off r).text := by
  have h : (RvOperand.offset off r).text = showDec off ++ ('(' :: rvAbiName r ++ [')']) :=
    List.append_assoc _ _ _
  rw [h]
  apply plainToken_append (plainToken_showDec off)
  have hchars : ∀ r : Fin 32, (('(' :: rvAbiName r ++ [')']).all fun c =>
      !(isSeparator c || isLineEnd c)) = true := by decide
  exact all_plain_iff.mp (hchars r)

theorem RvInsn.line_mnem (n : RvInsn) (pc : RivU32) : (n.line pc).mnem = n.entry.name := by
  cases n <;> rfl

theorem RvInsn.length_ops (n : RvInsn) (pc : RivU32) : (n.line pc).ops.length ≤ 3 := by
  cases n <;> simp [RvInsn.line]

theorem RvInsn.plainToken_ops (hrange : n.InRange) (pc : RivU32) :
    ∀ o ∈ (n.line pc).ops, PlainToken o.text := by
  have hreg (r : Fin 32) : PlainToken (RvOperand.reg r).text := plainToken_reg r
  have hdec (v : ℤ) : PlainToken (RvOperand.dec v).text := plainToken_showDec v
  have hhex (v : RivU32) : PlainToken (RvOperand.hex v).text := plainToken_showHex v.toNat
  have hoff := plainToken_offset
  cases n with
  | r e rd rs1 rs2 => simp [RvInsn.line, hreg]
  | i | shift | jalr => simp [RvInsn.line, hreg, hdec]
  | load | store => simp [RvInsn.line, hreg, hoff]
  | branch | jal | lui | auipc => simp [RvInsn.line, hreg, hhex]
  | sys e => simp [RvInsn.line]
  | fence pred succ =>
    obtain ⟨⟨hp0, hp⟩, hs0, hs⟩ := hrange
    have hflags : ∀ set, 0 < set → set < 16 →
        PlainToken (RvOperand.flags (rvFenceFlags set)).text :=
      fun set h0 h => plainToken_fenceFlags h0 h
    simp [RvInsn.line, hflags pred hp0 hp, hflags succ hs0 hs]
  | fenceI => simp [RvInsn.line]

theorem RvInsn.tokenize_line (hrange : n.InRange) (pc : RivU32) : tokenize (n.line pc).text =
      .ok (n.entry.name.toList :: (n.line pc).ops.map RvOperand.text) := by
  have hlen := n.length_ops pc
  rw [RvLine.text, n.line_mnem]
  apply tokenize_showLine (plainToken_name _ n.entry_mem)
  · grind [n.plainToken_ops]
  · rw [List.length_map]
    exact Nat.lt_of_le_of_lt hlen (by decide)

/-! ## Lines that spell an instruction -/

theorem rvDecode_leU32 (pc w : RivU32) : rvDecode pc (leU32 w) = .ok (4, rvDecodeWord pc w) := by
  have hread := readU32_leU32 w []
  rw [List.append_nil] at hread
  rw [rvDecode, need_eq_ok (show 0 + 4 ≤ (leU32 w).length from Nat.le_refl 4), hread]
  rfl

theorem reassemblesTo_iff_word (hrange : n.InRange) (hline : rvDecodeWord pc w = n.line pc) :
    ReassemblesTo pc w ↔ n.word = w := by
  constructor
  · intro h
    have hpc : (0 : RivU32) + pc = pc := BitVec.zero_add pc
    have hspell := n.spelledBy_text ⟨fun _ => 0, 0, 0, pc, .emit, 1, [], .riscv32⟩ hrange
    rw [hpc] at hspell
    have hfit : (0 : RivU32).toNat + 4 ≤ maxProg := by decide
    have hbytes := h _ _ ⟨fun _ => 0, 0, 0, pc, .emit, 1, [], .riscv32⟩ _
      (rvDecode_leU32 pc w) hpc (by rw [hline]; exact n.tokenize_line hrange pc)
      (rvEncode_of_rvWord (rvWord_of_spelledBy hspell) hfit)
    exact leU32_inj hbytes
  · intro hword line toks st st' hdec hpc htok henc
    rw [rvDecode_leU32] at hdec
    cases hdec
    rw [hline, n.tokenize_line hrange] at htok
    cases htok
    have hspell := n.spelledBy_text st hrange
    obtain ⟨m, ops, ix, w', hexp, hfind, hw', hemit⟩ := rvEncode_eq_ok henc
    rw [rvExpandPseudo_name] at hexp
    cases hexp
    rw [rvFind_name _ n.entry_mem] at hfind
    grind [rvWord_of_spelledBy]

/-! ## Lines that are not instructions -/

/-- No tokens of the line printed for `w` are accepted. -/
def Unaccepted (pc w : RivU32) : Prop :=
  ∀ toks st, tokenize (rvDecodeWord pc w).text = .ok toks → ∀ st', rvEncode toks st ≠ .ok (some st')

theorem Unaccepted.reassemblesTo (h : Unaccepted pc w) : ReassemblesTo pc w := by
  intro line toks st st' hdec _ htok henc
  rw [rvDecode_leU32] at hdec
  cases hdec
  exact absurd henc (h toks st htok st')

theorem unaccepted_of_mnem {m : String} {o : RvOperand} {os : List RvOperand}
    (hm : m = ".word" ∨ m = "???") (hline : rvDecodeWord pc w = ⟨m, o :: os⟩) :
    Unaccepted pc w := by
  intro toks st htok st' henc
  have hplain : PlainToken m.toList := by rcases hm with rfl | rfl <;> decide
  rw [RvLine.text, hline, List.map_cons] at htok
  obtain ⟨ts, rfl⟩ := tokenize_showLine_head hplain htok
  have hnone : rvEncode (m.toList :: ts) st = .ok none := by
    rcases hm with rfl | rfl <;> rfl
  rw [hnone] at henc
  cases henc

theorem tokenize_fence {pred succ : ℕ} (hpred : pred < 16) (hsucc : succ < 16) :
    tokenize (showLine "fence" [rvFenceText pred, rvFenceText succ]) =
      .ok ["fence".toList, rvFenceText pred, rvFenceText succ] := by
  apply tokenize_showLine (by decide)
  · simp_all [plainToken_fenceText]
  · exact show 2 < archMaxTokens by decide

theorem unaccepted_of_fence_none {pred succ : ℕ} (hpred : pred < 16) (hsucc : succ < 16)
    (hline : rvDecodeWord pc w = ⟨"fence", [.flags (rvFenceText pred), .flags (rvFenceText succ)]⟩)
    (hnone : pred = 0 ∨ succ = 0) : Unaccepted pc w := by
  intro toks st htok st' henc
  rw [hline] at htok
  obtain rfl := Except.ok.inj ((tokenize_fence hpred hsucc).symm.trans htok)
  obtain ⟨m, ops, ix, w', hexp, hfind, hw, -⟩ := rvEncode_eq_ok henc
  cases hexp
  cases hfind
  obtain ⟨p, hp, hw⟩ := Exec.of_bind_eq_ok hw
  obtain ⟨s, hs, -⟩ := Exec.of_bind_eq_ok hw
  rcases hnone with rfl | rfl
  · cases hp
  · cases hs

/-! ## The instruction a word is printed as -/

/-- The register number in the five bits from `lo` on. -/
def regField (lo : ℕ) (w : RivU32) : Fin 32 := ⟨extract lo 5 w.toNat, extract_lt lo 5 _⟩

theorem signedBits_range (k n : ℕ) :
    -2 ^ k ≤ signedBits (k + 1) n ∧ signedBits (k + 1) n < 2 ^ k := by
  rw [← eq_bmod_iff, signedBits, Int.bmod_bmod]

theorem signedBits_emod (k n : ℕ) : signedBits k n % 2 ^ k = (n : ℤ) % 2 ^ k := by
  have h : signedBits k n % (2 ^ k : ℕ) = (n : ℤ) % (2 ^ k : ℕ) := Int.bmod_emod
  exact h

theorem ofInt_signedBits_mod (n : ℕ) {k : ℕ} (hk : k ≤ 32) :
    (BitVec.ofInt 32 (signedBits k n)).toNat % 2 ^ k = n % 2 ^ k := by
  have h := toNat_ofInt_mod (signedBits k n) hk
  rw [signedBits_emod] at h
  exact_mod_cast h

theorem exists_entry {k : Kind} {P : InsnT → Prop} (h : ∃ ix ∈ rvIsa, ix.kind = k ∧ P ix) :
    ∃ e : Entry k, P e.ix := by
  obtain ⟨ix, hmem, hk, hP⟩ := h
  exact ⟨⟨ix, hmem, hk⟩, hP⟩

/-- What is settled about one word: its line is that of an instruction, whose word it is under
the condition, or is not accepted. -/
def Settled (w : RivU32) : Prop :=
  (∃ n : RvInsn, n.InRange ∧ (∀ pc, rvDecodeWord pc w = n.line pc) ∧
      (n.word = w ↔ LineDetermines w)) ∨
    LineDetermines w ∧ ∀ pc, Unaccepted pc w

theorem settled_of_word (hrange : n.InRange) (hword : n.word = w) (hdet : LineDetermines w) :
    Settled w := by
  refine Or.inl ⟨n, hrange, ?_, iff_of_true hword hdet⟩
  grind [rvDecodeWord_word]

theorem lineDetermines_of_op (h : extract 0 7 w.toNat ∉ [0x13, 0x67, 0x73, 0x0F]) :
    LineDetermines w := by
  simp only [List.mem_cons, List.not_mem_nil, not_or, or_false] at h
  obtain ⟨h1, h2, h3, h4⟩ := h
  exact ⟨fun h => absurd h h1, fun h => absurd h h1, fun h => absurd h h2,
    fun h => absurd h h3, fun h => absurd h h4, fun h => absurd h h4⟩

section
variable {w : RivU32}

theorem op_toNat (w : RivU32) : (w &&& 0x7F).toNat = extract 0 7 w.toNat := by
  rw [toNat_and_mask (w := 7) w _ rfl, extract, pow_zero, Nat.div_one]

theorem f3_toNat (w : RivU32) : ((w >>> 12) &&& 0x7).toNat = extract 12 3 w.toNat :=
  toNat_ushiftRight_and (w := 3) w _ rfl

theorem f7_toNat (w : RivU32) : ((w >>> 25) &&& 0x7F).toNat = extract 25 7 w.toNat :=
  toNat_ushiftRight_and (w := 7) w _ rfl

/-! ### Operations -/

theorem rvOpName_row (f7 f3 : ℕ) : rvOpName f7 f3 = "???" ∨
    ∃ ix ∈ rvIsa, ix.kind = .r ∧ ix.f3 = f3 ∧ ix.f7 = f7 := by
  unfold rvOpName
  split <;> first | exact Or.inl rfl | exact Or.inr (by decide)

theorem settled_r (hop : extract 0 7 w.toNat = 0x33) : Settled w := by
  have hdet : LineDetermines w := lineDetermines_of_op (by rw [hop]; decide)
  rcases rvOpName_row (extract 25 7 w.toNat) (extract 12 3 w.toNat) with hname | hrow
  · refine Or.inr ⟨hdet, fun pc => ?_⟩
    apply unaccepted_of_mnem (Or.inr hname)
    simp only [rvDecodeWord, op_toNat w, hop, f3_toNat, f7_toNat]
    rfl
  · obtain ⟨e, hf3, hf7⟩ := exists_entry hrow
    obtain ⟨hop', -⟩ := row_r e.ix e.mem e.kind_eq
    apply settled_of_word (n := .r e (regField 7 w) (regField 15 w) (regField 20 w)) trivial
      ?_ hdet
    apply BitVec.eq_of_toNat_eq
    rw [RvInsn.word, hop', ← hop, hf3, hf7, encR_toNat (Fin.isLt _) (extract_lt 12 3 _)
      (Fin.isLt _) (Fin.isLt _) (extract_lt 25 7 _) (extract_lt 0 7 _)]
    exact pack_split_toNat w (s := [7, 5, 3, 5, 5, 7]) rfl

/-! ### Immediates in the top twelve bits -/

theorem immI_range (w : RivU32) : -2048 ≤ immI w ∧ immI w ≤ 2047 := by
  obtain ⟨hlo, hhi⟩ : -2 ^ 11 ≤ immI w ∧ immI w < 2 ^ 11 := signedBits_range 11 _
  omega

theorem encI_fields_toNat {f3 : ℕ} (hop : op < 128) (hf3 : f3 < 8) :
    (encI (regField 7 w) f3 (regField 15 w) (BitVec.ofInt 32 (immI w)) op).toNat =
      pack [(7, op), (5, extract 7 5 w.toNat), (3, f3), (5, extract 15 5 w.toNat),
        (12, extract 20 12 w.toNat)] := by
  have himm : (BitVec.ofInt 32 (immI w)).toNat % 2 ^ 12 = extract 20 12 w.toNat := by
    unfold immI
    rw [ofInt_signedBits_mod _ (by decide)]
    exact extract_mod rfl
  rw [encI_toNat _ (Fin.isLt _) hf3 (Fin.isLt _) hop, himm]
  rfl

theorem encI_fields_eq {f3 : ℕ} (hop : extract 0 7 w.toNat = op) (hf3 : extract 12 3 w.toNat = f3) :
    encI (regField 7 w) f3 (regField 15 w) (BitVec.ofInt 32 (immI w)) op = w := by
  apply BitVec.eq_of_toNat_eq
  rw [← hop, ← hf3, encI_fields_toNat (extract_lt 0 7 _) (extract_lt 12 3 _)]
  exact pack_split_toNat w (s := [7, 5, 3, 5, 12]) rfl

theorem rvLoadName_row (f3 : ℕ) : rvLoadName f3 = "???" ∨
    ∃ ix ∈ rvIsa, ix.kind = .load ∧ ix.f3 = f3 := by
  unfold rvLoadName
  split <;> first | exact Or.inl rfl | exact Or.inr (by decide)

theorem settled_load (hop : extract 0 7 w.toNat = 0x03) : Settled w := by
  have hdet : LineDetermines w := lineDetermines_of_op (by rw [hop]; decide)
  rcases rvLoadName_row (extract 12 3 w.toNat) with hname | hrow
  · refine Or.inr ⟨hdet, fun pc => ?_⟩
    apply unaccepted_of_mnem (Or.inr hname)
    simp only [rvDecodeWord, op_toNat w, hop, f3_toNat]
    rfl
  · obtain ⟨e, hf3⟩ := exists_entry hrow
    obtain ⟨hop', -⟩ := row_load e.ix e.mem e.kind_eq
    apply settled_of_word (n := .load e (regField 7 w) (regField 15 w) (immI w)) (immI_range w)
      ?_ hdet
    exact encI_fields_eq (hop.trans hop'.symm) hf3.symm

theorem settled_jalr (hop : extract 0 7 w.toNat = 0x67) : Settled w := by
  obtain ⟨e, -⟩ : ∃ e : Entry .jalr, True := exists_entry (P := fun _ => True) (by decide)
  obtain ⟨hop', hf3, hname⟩ := row_jalr e.ix e.mem e.kind_eq
  have hword : (RvInsn.jalr e (regField 7 w) (regField 15 w) (immI w)).word.toNat =
      pack [(7, 0x67), (5, extract 7 5 w.toNat), (3, 0), (5, extract 15 5 w.toNat),
        (12, extract 20 12 w.toNat)] := by simp_all [RvInsn.word, encI_fields_toNat]
  refine Or.inl ⟨.jalr e (regField 7 w) (regField 15 w) (immI w), immI_range w, ?_, ?_⟩
  · intro pc
    have himm : (sext (w >>> 20) 12).toInt = immI w := by
      obtain ⟨hlo, hhi⟩ := immI_range w
      rw [sext_eq_ofInt (k := 11) (immI w) (by decide) (by omega) (by omega)]
      · grind
      rw [toNat_ushiftRight_top (w := 12) w rfl]
      have hmod : immI w % 2 ^ 12 = (extract 20 12 w.toNat : ℤ) % 2 ^ 12 :=
        signedBits_emod 12 _
      have hlt := extract_lt 20 12 w.toNat
      omega
    simp only [rvDecodeWord, op_toNat w, hop, himm, RvInsn.line, ← hname, regField,
      toNat_ushiftRight_and (w := 5) w 0x1F rfl]
  · have hiff : (RvInsn.jalr e (regField 7 w) (regField 15 w) (immI w)).word = w ↔
        extract 12 3 w.toNat = 0 := by
      have hw : pack [(7, extract 0 7 w.toNat), (5, extract 7 5 w.toNat),
          (3, extract 12 3 w.toNat), (5, extract 15 5 w.toNat), (12, extract 20 12 w.toNat)] =
          w.toNat := pack_split_toNat w (s := [7, 5, 3, 5, 12]) rfl
      have hlt := extract_lt 12 3 w.toNat
      rw [← BitVec.toNat_inj, hword]
      simp only [pack] at hw ⊢
      omega
    rw [hiff]
    constructor
    · intro h
      refine ⟨?_, ?_, fun _ => h, ?_, ?_, ?_⟩ <;> intro h' <;> rw [hop] at h' <;>
        exact absurd h' (by decide)
    · intro h
      exact h.jalr hop

theorem imm_row : ∀ f3 < 8, f3 ≠ 1 → f3 ≠ 5 → ∃ ix ∈ rvIsa, ix.kind = .i ∧ ix.f3 = f3 := by decide

theorem settled_i (hop : extract 0 7 w.toNat = 0x13) (h1 : extract 12 3 w.toNat ≠ 1)
    (h5 : extract 12 3 w.toNat ≠ 5) : Settled w := by
  have hdet : LineDetermines w := by
    refine ⟨fun _ h => absurd h h1, fun _ h => absurd h h5, ?_, ?_, ?_, ?_⟩ <;> intro h <;>
      rw [hop] at h <;> exact absurd h (by decide)
  obtain ⟨e, hf3⟩ := exists_entry (imm_row _ (extract_lt 12 3 w.toNat) h1 h5)
  obtain ⟨hop', -⟩ := row_i e.ix e.mem e.kind_eq
  apply settled_of_word (n := .i e (regField 7 w) (regField 15 w) (immI w)) (immI_range w) ?_ hdet
  exact encI_fields_eq (hop.trans hop'.symm) hf3.symm

/-! ### Shifts -/

theorem shift_row : ∀ f7 < 128, ∀ f3 < 8, f3 = 1 ∨ f3 = 5 →
    ∃ ix ∈ rvIsa, ix.kind = .shift ∧ ix.f3 = f3 ∧ rvOpImmName f7 f3 = ix.name ∧
      (ix.f7 = f7 ↔ (f3 = 1 → f7 = 0) ∧ (f3 = 5 → f7 = 0 ∨ f7 = 0x20)) := by
  intro f7 _ f3 _ hf3
  rcases hf3 with rfl | rfl
  · exact ⟨⟨"slli", .shift, 0x1, 0x00, 0x13⟩, by decide, rfl, rfl, rfl, by simp [eq_comm]⟩
  by_cases h : f7 = 0x20
  · subst h
    exact ⟨⟨"srai", .shift, 0x5, 0x20, 0x13⟩, by decide, rfl, rfl, rfl, by simp⟩
  · refine ⟨⟨"srli", .shift, 0x5, 0x00, 0x13⟩, by decide, rfl, rfl, ?_, ?_⟩
    · exact if_neg h
    · simp [h, eq_comm]

theorem settled_shift (hop : extract 0 7 w.toNat = 0x13)
    (hshift : extract 12 3 w.toNat = 1 ∨ extract 12 3 w.toNat = 5) : Settled w := by
  obtain ⟨e, hf3, hname, hf7⟩ := exists_entry
    (shift_row _ (extract_lt 25 7 w.toNat) _ (extract_lt 12 3 w.toNat) hshift)
  obtain ⟨hop', -, hf7lt, -⟩ := row_shift e.ix e.mem e.kind_eq
  have hval : (BitVec.ofInt 32 ((regField 20 w : ℕ) : ℤ) &&& 0x1F).toNat % 2 ^ 5 =
      extract 20 5 w.toNat := by
    have hfield : (regField 20 w : ℕ) = extract 20 5 w.toNat := rfl
    rw [toNat_and_mask (w := 5) _ _ rfl, BitVec.toNat_ofInt, hfield]
    omega
  have hword : (RvInsn.shift e (regField 7 w) (regField 15 w) (regField 20 w)).word.toNat =
      pack [(7, 0x13), (5, extract 7 5 w.toNat), (3, extract 12 3 w.toNat),
        (5, extract 15 5 w.toNat), (5, extract 20 5 w.toNat), (7, e.ix.f7)] := by
    rw [RvInsn.word, hop', hf3, encShift_toNat _ (Fin.isLt _) (extract_lt 12 3 _) (Fin.isLt _)
      hf7lt (by decide), hval]
    rfl
  have hw : w.toNat = pack [(7, 0x13), (5, extract 7 5 w.toNat), (3, extract 12 3 w.toNat),
      (5, extract 15 5 w.toNat), (5, extract 20 5 w.toNat), (7, extract 25 7 w.toNat)] := by
    rw [← hop]
    exact (pack_split_toNat w (s := [7, 5, 3, 5, 5, 7]) rfl).symm
  refine Or.inl ⟨.shift e (regField 7 w) (regField 15 w) (regField 20 w), trivial, ?_, ?_⟩
  · intro pc
    rw [rvDecodeWord_shift hw (extract_lt 7 5 _) (extract_lt 12 3 _) (extract_lt 15 5 _)
      (extract_lt 20 5 _) (extract_lt 25 7 _) hshift, hname]
    rfl
  · have hiff : (RvInsn.shift e (regField 7 w) (regField 15 w) (regField 20 w)).word = w ↔
        e.ix.f7 = extract 25 7 w.toNat := by
      have hlt := extract_lt 25 7 w.toNat
      rw [← BitVec.toNat_inj, hword]
      simp only [pack] at hw ⊢
      omega
    rw [hiff, hf7]
    constructor
    · rintro ⟨h1, h5⟩
      refine ⟨fun _ => h1, fun _ => h5, ?_, ?_, ?_, ?_⟩ <;> intro h <;> rw [hop] at h <;>
        exact absurd h (by decide)
    · intro h
      exact ⟨h.slli hop, h.srli hop⟩

/-! ### Stores, branches and jumps -/

theorem rvStoreName_row (f3 : ℕ) : rvStoreName f3 = "???" ∨
    ∃ ix ∈ rvIsa, ix.kind = .store ∧ ix.f3 = f3 := by
  unfold rvStoreName
  split <;> first | exact Or.inl rfl | exact Or.inr (by decide)

theorem store_bits (ha : a < 2 ^ 5) (hb : b < 2 ^ 7) (hx : x % 2 ^ 12 = (a + 2 ^ 5 * b) % 2 ^ 12) :
    extract 0 5 x = a ∧ extract 5 7 x = b := by
  simp only [extract]
  omega

theorem settled_store (hop : extract 0 7 w.toNat = 0x23) : Settled w := by
  have hdet : LineDetermines w := lineDetermines_of_op (by rw [hop]; decide)
  rcases rvStoreName_row (extract 12 3 w.toNat) with hname | hrow
  · refine Or.inr ⟨hdet, fun pc => ?_⟩
    apply unaccepted_of_mnem (Or.inr hname)
    simp only [rvDecodeWord, op_toNat w, hop, f3_toNat]
    rfl
  · obtain ⟨e, hf3⟩ := exists_entry hrow
    obtain ⟨hop', -⟩ := row_store e.ix e.mem e.kind_eq
    obtain ⟨hlo, hhi⟩ : -2 ^ 11 ≤ immS w ∧ immS w < 2 ^ 11 := signedBits_range 11 _
    have himm : (BitVec.ofInt 32 (immS w)).toNat % 2 ^ 12 =
        (extract 7 5 w.toNat + 2 ^ 5 * extract 25 7 w.toNat) % 2 ^ 12 :=
      ofInt_signedBits_mod _ (by decide)
    obtain ⟨h0, h5⟩ := store_bits (extract_lt 7 5 _) (extract_lt 25 7 _) himm
    apply settled_of_word (n := .store e (regField 20 w) (regField 15 w) (immS w))
      ⟨by omega, by omega⟩ ?_ hdet
    apply BitVec.eq_of_toNat_eq
    rw [RvInsn.word, hop', ← hop, hf3, encS_toNat _ (Fin.isLt _) (extract_lt 12 3 _)
      (Fin.isLt _) (extract_lt 0 7 _), h0, h5]
    exact pack_split_toNat w (s := [7, 5, 3, 5, 5, 7]) rfl

theorem rvBranchName_row (f3 : ℕ) : rvBranchName f3 = "???" ∨
    ∃ ix ∈ rvIsa, ix.kind = .branch ∧ ix.f3 = f3 := by
  unfold rvBranchName
  split <;> first | exact Or.inl rfl | exact Or.inr (by decide)

theorem signedBits_emod_two (k : ℕ) {n : ℕ} (hn : n % 2 = 0) : signedBits (k + 1) n % 2 = 0 := by
  have hdvd : (2 : ℤ) ∣ ((2 ^ (k + 1) : ℕ) : ℤ) := ⟨2 ^ k, by push_cast; ring⟩
  have hmod : signedBits (k + 1) n % 2 = (n : ℤ) % 2 := by
    unfold signedBits
    rw [← Int.emod_emod_of_dvd _ hdvd, Int.bmod_emod, Int.emod_emod_of_dvd _ hdvd]
  omega

theorem branch_bits {c d : ℕ} (ha : a < 2 ^ 4) (hb : b < 2 ^ 6) (hc : c < 2 ^ 1) (hd : d < 2 ^ 1)
    (hx : x % 2 ^ 13 = (2 * a + 2 ^ 5 * b + 2 ^ 11 * c + 2 ^ 12 * d) % 2 ^ 13) :
    extract 1 4 x = a ∧ extract 5 6 x = b ∧ extract 11 1 x = c ∧ extract 12 1 x = d := by
  simp only [extract]
  refine ⟨?_, ?_, ?_, ?_⟩ <;> omega

theorem settled_branch (hop : extract 0 7 w.toNat = 0x63) : Settled w := by
  have hdet : LineDetermines w := lineDetermines_of_op (by rw [hop]; decide)
  rcases rvBranchName_row (extract 12 3 w.toNat) with hname | hrow
  · refine Or.inr ⟨hdet, fun pc => ?_⟩
    apply unaccepted_of_mnem (Or.inr hname)
    simp only [rvDecodeWord, op_toNat w, hop, f3_toNat]
    rfl
  · obtain ⟨e, hf3⟩ := exists_entry hrow
    obtain ⟨hop', -⟩ := row_branch e.ix e.mem e.kind_eq
    obtain ⟨hlo, hhi⟩ : -2 ^ 12 ≤ immB w ∧ immB w < 2 ^ 12 := signedBits_range 12 _
    have heven : immB w % 2 = 0 := signedBits_emod_two 12 (by omega)
    have himm : (BitVec.ofInt 32 (immB w)).toNat % 2 ^ 13 =
        (2 * extract 8 4 w.toNat + 2 ^ 5 * extract 25 6 w.toNat
          + 2 ^ 11 * extract 7 1 w.toNat + 2 ^ 12 * extract 31 1 w.toNat) % 2 ^ 13 :=
      ofInt_signedBits_mod _ (by decide)
    obtain ⟨h1, h5, h11, h12⟩ := branch_bits (extract_lt 8 4 _) (extract_lt 25 6 _)
      (extract_lt 7 1 _) (extract_lt 31 1 _) himm
    apply settled_of_word (n := .branch e (regField 15 w) (regField 20 w) (immB w))
      ⟨heven, by omega, by omega⟩ ?_ hdet
    apply BitVec.eq_of_toNat_eq
    rw [RvInsn.word, hop', ← hop, hf3, encB_toNat _ (Fin.isLt _) (Fin.isLt _)
      (extract_lt 12 3 _) (extract_lt 0 7 _), h1, h5, h11, h12]
    exact pack_split_toNat w (s := [7, 1, 4, 3, 5, 5, 6, 1]) rfl

theorem jump_bits {c d : ℕ} (ha : a < 2 ^ 10) (hb : b < 2 ^ 1) (hc : c < 2 ^ 8) (hd : d < 2 ^ 1)
    (hx : x % 2 ^ 21 = (2 * a + 2 ^ 11 * b + 2 ^ 12 * c + 2 ^ 20 * d) % 2 ^ 21) :
    extract 1 10 x = a ∧ extract 11 1 x = b ∧ extract 12 8 x = c ∧ extract 20 1 x = d := by
  simp only [extract]
  refine ⟨?_, ?_, ?_, ?_⟩ <;> omega

theorem settled_jal (hop : extract 0 7 w.toNat = 0x6F) : Settled w := by
  have hdet : LineDetermines w := lineDetermines_of_op (by rw [hop]; decide)
  obtain ⟨e, -⟩ : ∃ e : Entry .jal, True := exists_entry (P := fun _ => True) (by decide)
  obtain ⟨hop', -⟩ := row_jal e.ix e.mem e.kind_eq
  obtain ⟨hlo, hhi⟩ : -2 ^ 20 ≤ immJ w ∧ immJ w < 2 ^ 20 := signedBits_range 20 _
  have heven : immJ w % 2 = 0 := signedBits_emod_two 20 (by omega)
  have himm : (BitVec.ofInt 32 (immJ w)).toNat % 2 ^ 21 =
      (2 * extract 21 10 w.toNat + 2 ^ 11 * extract 20 1 w.toNat
        + 2 ^ 12 * extract 12 8 w.toNat + 2 ^ 20 * extract 31 1 w.toNat) % 2 ^ 21 :=
    ofInt_signedBits_mod _ (by decide)
  obtain ⟨h1, h11, h12, h20⟩ := jump_bits (extract_lt 21 10 _) (extract_lt 20 1 _)
    (extract_lt 12 8 _) (extract_lt 31 1 _) himm
  apply settled_of_word (n := .jal e (regField 7 w) (immJ w)) ⟨heven, hlo, by omega⟩ ?_ hdet
  apply BitVec.eq_of_toNat_eq
  rw [RvInsn.word, hop', ← hop, encJ_toNat _ (Fin.isLt _) (extract_lt 0 7 _), h1, h11, h12, h20]
  exact pack_split_toNat w (s := [7, 5, 8, 1, 10, 1]) rfl

/-! ### Upper immediates -/

theorem encU_fields_eq (hop : extract 0 7 w.toNat = op) :
    encU (regField 7 w) (BitVec.ofInt 32 (extract 12 20 w.toNat : ℕ) <<< 12) op = w := by
  apply BitVec.eq_of_toNat_eq
  rw [← hop, encU_ofInt_toNat (extract_lt 12 20 _) (Fin.isLt _) (extract_lt 0 7 _)]
  exact pack_split_toNat w (s := [7, 5, 20]) rfl

theorem settled_upper (hop : extract 0 7 w.toNat = 0x37 ∨ extract 0 7 w.toNat = 0x17) :
    Settled w := by
  have hdet : LineDetermines w :=
    lineDetermines_of_op (by rcases hop with h | h <;> rw [h] <;> decide)
  rcases hop with hop | hop
  · obtain ⟨e, -⟩ : ∃ e : Entry .lui, True := exists_entry (P := fun _ => True) (by decide)
    obtain ⟨hop', -⟩ := row_lui e.ix e.mem e.kind_eq
    apply settled_of_word (n := .lui e (regField 7 w) (extract 12 20 w.toNat))
      (extract_lt 12 20 _) ?_ hdet
    exact encU_fields_eq (hop.trans hop'.symm)
  · obtain ⟨e, -⟩ : ∃ e : Entry .auipc, True := exists_entry (P := fun _ => True) (by decide)
    obtain ⟨hop', -⟩ := row_auipc e.ix e.mem e.kind_eq
    apply settled_of_word (n := .auipc e (regField 7 w) (extract 12 20 w.toNat))
      (extract_lt 12 20 _) ?_ hdet
    exact encU_fields_eq (hop.trans hop'.symm)

/-! ### System words and fences -/

theorem settled_sys (hop : extract 0 7 w.toNat = 0x73) : Settled w := by
  have hdet : LineDetermines w ↔ w = 0x00000073 ∨ w = 0x00100073 := by
    constructor
    · intro h
      exact h.system hop
    · intro h
      refine ⟨?_, ?_, ?_, fun _ => h, ?_, ?_⟩ <;> intro h' <;> rw [hop] at h' <;>
        exact absurd h' (by decide)
  by_cases h : w >>> 20 = 0
  · refine Or.inl ⟨.sys ⟨⟨"ecall", .sys, 0, 0, 0x73⟩, by decide, rfl⟩, trivial, ?_, ?_⟩
    · intro pc
      simp only [rvDecodeWord, op_toNat w, hop, h, ne_eq, not_true_eq_false, if_false]
      rfl
    · have hne : w ≠ 0x00100073 := by grind
      rw [hdet, or_iff_left hne]
      exact eq_comm
  · refine Or.inl ⟨.sys ⟨⟨"ebreak", .sys, 0, 1, 0x73⟩, by decide, rfl⟩, trivial, ?_, ?_⟩
    · intro pc
      simp only [rvDecodeWord, op_toNat w, hop, ne_eq, h, not_false_eq_true, if_true]
      rfl
    · have hne : w ≠ 0x00000073 := by grind
      rw [hdet, or_iff_right hne]
      exact eq_comm

theorem settled_fenceI (hop : extract 0 7 w.toNat = 0x0F) (hf3 : extract 12 3 w.toNat = 1) :
    Settled w := by
  refine Or.inl ⟨.fenceI, trivial, ?_, ?_⟩
  · intro pc
    simp only [rvDecodeWord, op_toNat w, hop, f3_toNat, hf3]
    rfl
  · constructor
    · intro h
      refine ⟨?_, ?_, ?_, ?_, fun _ _ => h.symm, fun _ h' => absurd hf3 h'⟩ <;> intro h' <;>
        rw [hop] at h' <;> exact absurd h' (by decide)
    · intro h
      exact (h.fenceI hop hf3).symm

theorem settled_fence (hop : extract 0 7 w.toNat = 0x0F) (hf3 : extract 12 3 w.toNat ≠ 1) :
    Settled w := by
  have hdet : LineDetermines w ↔ extract 24 4 w.toNat = 0 ∨ extract 20 4 w.toNat = 0 ∨
      extract 28 4 w.toNat = 0 ∧ extract 0 20 w.toNat = 0x0F := by
    constructor
    · intro h
      exact h.fence hop hf3
    · intro h
      refine ⟨?_, ?_, ?_, ?_, fun _ h' => absurd h' hf3, fun _ _ => h⟩ <;> intro h' <;>
        rw [hop] at h' <;> exact absurd h' (by decide)
  have hline (pc : RivU32) : rvDecodeWord pc w =
      ⟨"fence", [.flags (rvFenceText (extract 24 4 w.toNat)),
        .flags (rvFenceText (extract 20 4 w.toNat))]⟩ := by
    simp only [rvDecodeWord, op_toNat w, hop, f3_toNat, if_neg hf3,
      toNat_ushiftRight_and (w := 4) w 0xF rfl]
  have hpred := extract_lt 24 4 w.toNat
  have hsucc := extract_lt 20 4 w.toNat
  by_cases hnone : extract 24 4 w.toNat = 0 ∨ extract 20 4 w.toNat = 0
  · refine Or.inr ⟨hdet.mpr (by tauto), fun pc => ?_⟩
    grind [unaccepted_of_fence_none]
  rw [not_or] at hnone
  obtain ⟨hp, hs⟩ := hnone
  have hp0 := Nat.pos_of_ne_zero hp
  have hs0 := Nat.pos_of_ne_zero hs
  refine Or.inl ⟨.fence (extract 24 4 w.toNat) (extract 20 4 w.toNat),
    ⟨⟨hp0, hpred⟩, hs0, hsucc⟩, fun pc => ?_, ?_⟩
  · rw [hline, rvFenceText_of_pos hp0 hpred, rvFenceText_of_pos hs0 hsucc]
    rfl
  have hw : pack [(20, extract 0 20 w.toNat), (4, extract 20 4 w.toNat),
      (4, extract 24 4 w.toNat), (4, extract 28 4 w.toNat)] = w.toNat :=
    pack_split_toNat w (s := [20, 4, 4, 4]) rfl
  have h0 := extract_lt 0 20 w.toNat
  have h28 := extract_lt 28 4 w.toNat
  rw [hdet, or_iff_right hp, or_iff_right hs, ← BitVec.toNat_inj, RvInsn.word,
    fence_toNat hpred hsucc]
  simp only [pack] at hw ⊢
  omega

theorem settled_other (hop : extract 0 7 w.toNat ∉
      [0x33, 0x13, 0x03, 0x23, 0x63, 0x6F, 0x67, 0x37, 0x17, 0x73, 0x0F]) : Settled w := by
  have hdet : LineDetermines w := by simp_all [not_or, lineDetermines_of_op]
  have hline (pc : RivU32) : rvDecodeWord pc w = ⟨".word", [.word w]⟩ := by
    rw [← op_toNat w] at hop
    unfold rvDecodeWord
    simp_all
  exact Or.inr ⟨hdet, fun pc => unaccepted_of_mnem (Or.inl rfl) (hline pc)⟩

theorem settled (w : RivU32) : Settled w := by
  by_cases hop : extract 0 7 w.toNat ∈
      [0x33, 0x13, 0x03, 0x23, 0x63, 0x6F, 0x67, 0x37, 0x17, 0x73, 0x0F]
  · simp only [List.mem_cons, List.not_mem_nil, or_false] at hop
    rcases hop with hop | hop | hop | hop | hop | hop | hop | hop | hop | hop | hop
    · exact settled_r hop
    · by_cases h : extract 12 3 w.toNat = 1 ∨ extract 12 3 w.toNat = 5
      all_goals simp_all [not_or, settled_shift, settled_i]
    · exact settled_load hop
    · exact settled_store hop
    · exact settled_branch hop
    · exact settled_jal hop
    all_goals grind [settled_jalr, settled_upper, settled_sys, settled_fenceI, settled_fence]
  · exact settled_other hop

end

end Rivet.Riscv32
