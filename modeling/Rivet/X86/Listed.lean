import Rivet.X86.Memory

/-!
# Memory operands in the listing

The memory operand that `x86_decode` prints is compared with the one that the
rules of the processor assign to the same bytes.  The decoder takes every SIB
index field of 100 for no index, also under REX.X, where it means `r12`.  A
displacement is printed with its sign after a register, and as an unsigned word
after `rip` or when it stands alone.
-/

namespace Rivet.X86

open CLib Assembler Disassembler Intel

variable {after bytes pfx : List RivU8} {rex : Rex} {op : MemOperand} {info : OpInfo}
  {m : MemText}

/-! ## What a printed operand says -/

def MemText.base : MemText → Base
  | .rip _ => .rip
  | .sum none _ _ => .absent
  | .sum (some r) _ _ => .gpr r

def MemText.index : MemText → Option (ℕ × ℕ)
  | .rip _ => none
  | .sum _ index _ => index

def MemText.field : MemText → BitVec 32
  | .rip disp => disp
  | .sum _ _ disp => disp.getD 0

def MemText.number : MemText → ℤ
  | .rip disp => disp.toNat
  | .sum none none disp => (disp.getD 0).toNat
  | .sum _ _ disp => (disp.getD 0).toInt

/-- Whether the displacement of an operand is printed without a sign: it is
relative to the next instruction, or no register is printed before it. -/
def Unsigned (base : Base) (index : Option (ℕ × ℕ)) : Prop :=
  base = .rip ∨ base = .absent ∧ index = none

instance (base : Base) (index : Option (ℕ × ℕ)) : Decidable (Unsigned base index) := by
  unfold Unsigned
  infer_instance

theorem MemText.number_eq (m : MemText) :
    m.number = if Unsigned m.base m.index then (m.field.toNat : ℤ) else m.field.toInt := by
  cases m with
  | rip disp => rfl
  | sum base index disp => cases base <;> cases index <;> rfl

theorem toNat_eq_toInt_iff (v : BitVec 32) : (v.toNat : ℤ) = v.toInt ↔ ¬v.toInt < 0 := by
  rw [BitVec.toInt_eq_toNat_cond]
  split <;> omega

theorem MemText.number_eq_iff (m : MemText) :
    m.number = m.field.toInt ↔ (m.field.toInt < 0 → ¬Unsigned m.base m.index) := by
  rw [m.number_eq]
  by_cases hunsigned : Unsigned m.base m.index
  all_goals simp_all [toNat_eq_toInt_iff]

/-! ## Displacements -/

theorem takeImm32_of_readDisp32 {disp : BitVec 32} (h : readDisp32 bytes = some (disp, after))
    (idx : ℕ) : takeImm32 idx bytes = .ok (idx + 4, after, disp) := by
  match bytes with
  | b₀ :: b1 :: b2 :: b3 :: rest =>
    rw [readDisp32, Option.some.injEq, Prod.mk.injEq, append_eq_joinU32] at h
    obtain ⟨rfl, rfl⟩ := h
    rfl
  | [] | [_] | [_, _] | [_, _, _] => cases h

theorem takeDisp_of_readDisp {mod : ℕ} {disp : BitVec 32} (hmod : mod ≠ 3) (hlt : mod < 4)
    (h : readDisp mod bytes = some (disp, after)) (idx : ℕ) :
    ∃ idx' d, takeDisp mod idx bytes = .ok (idx', after, d) ∧ d.getD 0 = disp := by
  unfold readDisp at h
  split at h
  · next h0 =>
    cases h
    exact ⟨idx, none, by rw [h0]; rfl, rfl⟩
  · next h0 =>
    split at h
    · next h1 =>
      match bytes with
      | [] => cases h
      | b :: rest =>
        cases h
        simp [takeDisp, h1, takeByte_cons]
    · next h1 =>
      have h2 : mod = 2 := by omega
      simp [takeDisp, h2, takeImm32_of_readDisp32 h]

/-! ## The operand -/

/-- The prefix as the number the decoder keeps, zero without one. -/
def rexValue : List RivU8 → ℕ
  | [] => 0
  | p :: _ => p.toNat

def rexOf (v : ℕ) : Rex := ⟨rexW v, rexR v, rexX v, rexB v⟩

theorem eq_rexOf (h : Rex.read pfx = some rex) : rex = rexOf (rexValue pfx) := by
  match pfx with
  | [] =>
    cases h
    rfl
  | [p] =>
    by_cases hp : p &&& 0xF0 = 0x40
    · rw [Rex.read, if_pos hp, Option.some.injEq] at h
      exact h.symm
    · rw [Rex.read, if_neg hp] at h
      cases h
  | _ :: _ :: _ => cases h

theorem field_join {lo b : ℕ} (hlo : lo < 8) (hb : b < 2) : lo ||| (b <<< 3) = 8 * b + lo := by
  interval_cases lo <;> interval_cases b <;> rfl

theorem topField_lt (byte : RivU8) : topField byte < 4 :=
  Nat.lt_of_le_of_lt Nat.and_le_right (by decide)

theorem midField_lt (byte : RivU8) : midField byte < 8 :=
  Nat.lt_of_le_of_lt Nat.and_le_right (by decide)

theorem lowField_lt (byte : RivU8) : lowField byte < 8 :=
  Nat.lt_of_le_of_lt Nat.and_le_right (by decide)

/-- The index that is printed: never `r12`. -/
def shownIndex (index : Option (ℕ × ℕ)) : Option (ℕ × ℕ) := index.filter fun i => i.1 ≠ 12

def sibShown (rex : ℕ) (sib : RivU8) : Option (ℕ × ℕ) :=
  if midField sib ≠ 4 then some (midField sib ||| (rexX rex <<< 3), 1 <<< topField sib)
  else none

theorem sibShown_eq (rex : ℕ) (sib : RivU8) :
    sibShown rex sib = shownIndex (sibIndex (rexOf rex) sib) := by
  have hx : rexX rex < 2 := and_one_lt _
  have hmid := midField_lt sib
  unfold sibShown sibIndex rexOf
  by_cases h4 : midField sib = 4
  · by_cases h0 : rexX rex = 0
    · rw [if_neg (not_not_intro h4), if_pos ⟨h4, h0⟩]
      rfl
    · have h1 : rexX rex = 1 := by omega
      rw [if_neg (not_not_intro h4), if_neg fun h => h0 h.2, h4, h1]
      rfl
  grind [field_join, Nat.one_shiftLeft, shownIndex, decide_eq_true]

/-- The decoder prints the operand that the rules assign, apart from an index of
`r12`. -/
structure Prints (op : MemOperand) (m : MemText) : Prop where
  base : m.base = op.base
  index : m.index = shownIndex op.index
  field : m.field = op.disp

theorem decodeMem_prints {rex : ℕ} {modrm : RivU8} {rest : List RivU8}
    (h : memOperand (rexOf rex) (modrm :: rest) = some (op, after)) (idx : ℕ) :
    topField modrm ≠ 3 ∧ ∃ idx' m,
      decodeMem rex (topField modrm) (lowField modrm) idx rest = .ok (idx', after, m) ∧
        Prints op m := by
  have hb : rexB rex < 2 := Nat.lt_of_le_of_lt Nat.and_le_right (by decide)
  unfold memOperand at h
  simp only at h
  split at h
  · cases h
  next hmod =>
  refine ⟨hmod, ?_⟩
  split at h
  · next hrm =>
    match rest with
    | [] => cases h
    | sib :: rest =>
      simp only at h
      rw [decodeMem, if_pos hrm, takeByte_cons]
      split at h
      · next hbase =>
        obtain ⟨⟨disp, rest'⟩, hdisp, heq⟩ := Option.map_eq_some_iff.mp h
        cases heq
        refine ⟨idx + 1 + 4, .sum none (sibShown rex sib) (some disp), ?_, rfl, sibShown_eq rex sib, rfl⟩
        simp only [Exec.ok_bind]
        have hbase' : sib.toNat &&& 7 = 5 ∧ topField modrm = 0 := hbase
        rw [if_pos hbase', takeImm32_of_readDisp32 hdisp]
        rfl
      · next hbase =>
        obtain ⟨⟨disp, rest'⟩, hdisp, heq⟩ := Option.map_eq_some_iff.mp h
        cases heq
        obtain ⟨idx', d, htake, hd⟩ :=
          takeDisp_of_readDisp hmod (topField_lt modrm) hdisp (idx + 1)
        refine ⟨idx', .sum (some (lowField sib ||| (rexB rex <<< 3))) (sibShown rex sib) d, ?_, ?_,
          sibShown_eq rex sib, hd⟩
        · simp only [Exec.ok_bind]
          have hbase' : ¬(sib.toNat &&& 7 = 5 ∧ topField modrm = 0) := hbase
          rw [if_neg hbase', htake]
          rfl
        · exact congrArg Base.gpr (field_join (lowField_lt sib) hb)
  · next hrm =>
    split at h
    · next hrip =>
      obtain ⟨⟨disp, rest'⟩, hdisp, heq⟩ := Option.map_eq_some_iff.mp h
      cases heq
      refine ⟨idx + 4, .rip disp, ?_, rfl, rfl, rfl⟩
      rw [decodeMem, if_neg hrm, if_pos hrip, takeImm32_of_readDisp32 hdisp]
      rfl
    · next hrip =>
      obtain ⟨⟨disp, rest'⟩, hdisp, heq⟩ := Option.map_eq_some_iff.mp h
      cases heq
      obtain ⟨idx', d, htake, hd⟩ := takeDisp_of_readDisp hmod (topField_lt modrm) hdisp idx
      refine ⟨idx', .sum (some (lowField modrm ||| (rexB rex <<< 3))) none d, ?_, ?_, rfl, hd⟩
      · simp_all [decodeMem]
      · exact congrArg Base.gpr (field_join (lowField_lt modrm) hb)

/-! ## The line -/

/-- The bytes that follow the memory operand hold the immediate of the opcode. -/
def HoldsImm (info : OpInfo) (after : List RivU8) : Prop :=
  (info.hasImm32 = true → 4 ≤ after.length) ∧ (info.hasImm8 = true → 1 ≤ after.length)

theorem takeImm32_of_length (h : 4 ≤ bytes.length) (idx : ℕ) :
    ∃ imm, takeImm32 idx bytes = .ok (idx + 4, bytes.drop 4, imm) := by
  match bytes with
  | b₀ :: b1 :: b2 :: b3 :: rest =>
    exact ⟨_, takeImm32_of_readDisp32 rfl idx⟩
  | [] | [_] | [_, _] | [_, _, _] => exact absurd h (by simp)

theorem decodeModrm_line {rex idx idx' : ℕ} {modrm : RivU8} {rest : List RivU8}
    (hmod : topField modrm ≠ 3)
    (hmem : decodeMem rex (topField modrm) (lowField modrm) (idx + 1) rest = .ok (idx', after, m))
    (hroom : HoldsImm info after) :
    ∃ n line, decodeModrm rex idx info (modrm :: rest) = .ok (n, line) ∧
      ∀ m', .mem m' ∈ line.ops ↔ m' = m := by
  rw [decodeModrm, takeByte_cons]
  simp only [Exec.ok_bind]
  have hmod' : (modrm.toNat >>> 6) &&& 3 ≠ 3 := hmod
  have hmem' : decodeMem rex ((modrm.toNat >>> 6) &&& 3) (modrm.toNat &&& 7) (idx + 1) rest =
      .ok (idx', after, m) := hmem
  rw [if_pos hmod', hmem']
  simp only [Exec.ok_bind]
  split
  · next h32 =>
    obtain ⟨imm, himm⟩ := takeImm32_of_length (hroom.1 h32) idx'
    rw [himm]
    exact ⟨_, _, rfl, by simp⟩
  · split
    · next h8 =>
      obtain ⟨b, bs, rfl⟩ := List.exists_cons_of_length_pos (hroom.2 h8)
      simp [takeByte_cons]
    · split
      · exact ⟨_, _, rfl, by simp⟩
      · split
        all_goals grind

theorem opInfos_not_rex {op : RivU8} (h : lookupOp x86OpInfos op = some info) :
    op &&& 0xF0 ≠ 0x40 := by
  have hall : x86OpInfos.all (fun row => row.1 &&& 0xF0 ≠ 0x40) = true := by decide
  obtain ⟨row, hrow, -⟩ := Option.map_eq_some_iff.mp h
  grind

theorem x86Decode_modrm (pc : RivU32) {op : RivU8} (hpfx : Rex.read pfx = some rex)
    (hop : lookupOp x86OpInfos op = some info) (bytes : List RivU8) :
    ∃ idx, x86Decode pc (pfx ++ op :: bytes) = decodeModrm (rexValue pfx) idx info bytes := by
  match pfx with
  | [] =>
    refine ⟨1, ?_⟩
    rw [List.nil_append, x86Decode_op (opInfos_not_rex hop), decodeOp_modrm hop]
    rfl
  | [p] =>
    refine ⟨2, ?_⟩
    have hp : p &&& 0xF0 = 0x40 := by simp_all [Rex.read]
    rw [List.singleton_append, x86Decode_rex hp, decodeOp_modrm hop]
    rfl
  | _ :: _ :: _ => cases hpfx

/-- A line is decoded whose memory operand satisfies `P`. -/
def ListsOperand (pc : RivU32) (bytes : List RivU8) (P : MemText → Prop) : Prop :=
  ∃ n line m, x86Decode pc bytes = .ok (n, line) ∧ .mem m ∈ line.ops ∧ P m

/-- The printed operand is made of the same base, index, scale and displacement;
the displacement is compared as a number. -/
structure SameOperand (op : MemOperand) (m : MemText) : Prop where
  base : m.base = op.base
  index : m.index = op.index
  disp : m.number = op.disp.toInt

/-- The same, with displacements compared as fields of 32 bits. -/
structure SameFields (op : MemOperand) (m : MemText) : Prop where
  base : m.base = op.base
  index : m.index = op.index
  disp : m.field = op.disp

theorem shownIndex_eq_iff (index : Option (ℕ × ℕ)) :
    shownIndex index = index ↔ ∀ scale, index ≠ some (12, scale) := by
  cases index with
  | none => simp [shownIndex]
  | some i => grind [shownIndex, Option.filter_eq_some_iff]

theorem Prints.sameFields_iff (h : Prints op m) :
    SameFields op m ↔ ∀ scale, op.index ≠ some (12, scale) := by
  rw [← shownIndex_eq_iff]
  constructor
  · intro hsame
    rw [← h.index, hsame.index]
  · intro hindex
    exact ⟨h.base, h.index.trans hindex, h.field⟩

theorem Prints.sameOperand_iff (h : Prints op m) :
    SameOperand op m ↔ (∀ scale, op.index ≠ some (12, scale)) ∧
      (op.disp.toInt < 0 → ¬Unsigned op.base op.index) := by
  constructor
  · intro hsame
    refine ⟨h.sameFields_iff.mp ⟨hsame.base, hsame.index, h.field⟩, ?_⟩
    have hnumber : m.number = m.field.toInt := by rw [h.field, hsame.disp]
    have hsigned := m.number_eq_iff.mp hnumber
    rwa [h.field, hsame.base, hsame.index] at hsigned
  · rintro ⟨hindex, hsigned⟩
    have hfields := h.sameFields_iff.mpr hindex
    refine ⟨h.base, hfields.index, ?_⟩
    rw [← h.field]
    apply m.number_eq_iff.mpr
    rwa [h.field, h.base, hfields.index]

theorem listsOperand_iff (pc : RivU32) {op : RivU8} {operand : MemOperand}
    (hpfx : Rex.read pfx = some rex) (hop : lookupOp x86OpInfos op = some info)
    (hbytes : memOperand rex bytes = some (operand, after)) (hroom : HoldsImm info after) :
    ∃ m, Prints operand m ∧
      ∀ P, ListsOperand pc (pfx ++ op :: bytes) P ↔ P m := by
  match bytes with
  | [] => cases hbytes
  | modrm :: rest =>
    rw [eq_rexOf hpfx] at hbytes
    obtain ⟨idx, hdec⟩ := x86Decode_modrm pc hpfx hop (modrm :: rest)
    obtain ⟨hmod, idx', m, hmem, hprints⟩ := decodeMem_prints hbytes (idx + 1)
    obtain ⟨n, line, hline, hops⟩ := decodeModrm_line hmod hmem hroom
    refine ⟨m, hprints, fun P => ?_⟩
    constructor
    · rintro ⟨n', line', m', hdec', hm', hP⟩
      grind
    · intro hP
      exact ⟨n, line, m, hdec.trans hline, (hops m).mpr rfl, hP⟩

/-- The operand that is printed for the bytes is the one that the rules assign
exactly when its index is not `r12` and, compared as a number, its displacement
is not a negative one that is printed without a sign. -/
theorem x86Decode_memory_iff {pc : RivU32} {pfx : List RivU8} {rex : Rex} {op : RivU8}
    {info : OpInfo} {bytes after : List RivU8} {operand : MemOperand}
    (hpfx : Rex.read pfx = some rex) (hop : lookupOp x86OpInfos op = some info)
    (hbytes : memOperand rex bytes = some (operand, after)) (hroom : HoldsImm info after) :
    (ListsOperand pc (pfx ++ op :: bytes) (SameOperand operand) ↔
      (∀ scale, operand.index ≠ some (12, scale)) ∧
        (operand.disp.toInt < 0 → ¬Unsigned operand.base operand.index)) ∧
    (ListsOperand pc (pfx ++ op :: bytes) (SameFields operand) ↔
      ∀ scale, operand.index ≠ some (12, scale)) := by
  obtain ⟨m, hprints, hlists⟩ := listsOperand_iff pc hpfx hop hbytes hroom
  exact ⟨(hlists _).trans hprints.sameOperand_iff, (hlists _).trans hprints.sameFields_iff⟩

/-- `mov rax, [rbp+rcx*4-8]` is listed as what it is. -/
theorem x86Decode_memory_iff_load :
    ListsOperand 0 [0x48, 0x8B, 0x44, 0x8D, 0xF8] (SameOperand ⟨0, .gpr 5, some (1, 4), -8⟩) := by
  have hread : Rex.read [0x48] = some ⟨1, 0, 0, 0⟩ := by decide
  have hop : lookupOp x86OpInfos 0x8B = some (.named "mov" true) := by decide
  have hbytes : memOperand ⟨1, 0, 0, 0⟩ [0x44, 0x8D, 0xF8] =
      some (⟨0, .gpr 5, some (1, 4), -8⟩, []) := by decide
  refine (x86Decode_memory_iff hread hop hbytes ⟨by decide, by decide⟩).1.mpr ⟨?_, ?_⟩
  · intro scale h
    cases h
  · intro _
    decide

/-- `mov rax, [rbx+r12*4]` is listed without its index, and `mov rax, [rip-8]`
with a displacement of `0xfffffff8`. -/
theorem r12_index_hidden :
    memOperand ⟨1, 0, 1, 0⟩ [0x04, 0xA3] = some (⟨0, .gpr 3, some (12, 4), 0⟩, []) ∧
      x86Decode 0 [0x4A, 0x8B, 0x04, 0xA3] =
        .ok (4, ⟨"mov", [.reg 0, .mem (.sum (some 3) none none)]⟩) ∧
      MemText.text (.sum (some 3) none none) = "[rbx]".toList ∧
      ¬ListsOperand 0 [0x4A, 0x8B, 0x04, 0xA3] (SameFields ⟨0, .gpr 3, some (12, 4), 0⟩) ∧
      x86Decode 0 [0x48, 0x8B, 0x05, 0xF8, 0xFF, 0xFF, 0xFF] =
        .ok (7, ⟨"mov", [.reg 0, .mem (.rip 0xFFFFFFF8)]⟩) ∧
      MemText.text (.rip 0xFFFFFFF8) = "[rip+0xfffffff8]".toList := by
  refine ⟨by decide, by decide, by decide, ?_, by decide, by decide⟩
  rintro ⟨n, line, m, hdec, hm, hsame⟩
  cases hdec
  rcases List.mem_pair.mp hm with h | h
  · cases h
  · cases h
    exact absurd hsame.index (by decide)

end Rivet.X86
