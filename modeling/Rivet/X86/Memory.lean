import Rivet.Assembler.Frontend
import Rivet.X86.Intel
import Rivet.X86.Length

/-!
# The address of an emitted memory operand

`x86_emit_rex_for_mem` and `x86_emit_mem` are read with the rules of the
processor.  One theorem says which operand the emitted bytes denote, for every
operand the parser can return; whether that is the operand that was meant is
then a comparison of two operands.
-/

namespace Rivet.X86

open CLib Assembler Disassembler Intel List

variable {m : X86Mem} {st : AsState}

/-! ## The operand the bytes denote -/

/-- What the emitted bytes denote.  An operand without a base goes through
`base & 7` of `-1`, which is `rdi`, or through a SIB byte whose base field means
`rbp` as soon as there is a displacement; an index of `rsp` is no index. -/
def X86Mem.operand (reg : ℕ) (m : X86Mem) : MemOperand where
  reg := reg
  base :=
    if 0 ≤ m.base then .gpr m.base.toNat
    else if m.index < 0 then .gpr 7
    else if m.mod = 0 then .absent
    else .gpr 5
  index := if 0 ≤ m.index ∧ m.index ≠ 4 then some (m.index.toNat, m.scale) else none
  disp := m.disp

theorem rexBytes_read {w r x b : ℕ} (hw : w < 2) (hr : r < 2) (hx : x < 2) (hb : b < 2) :
    Rex.read (rexBytes w r x b) = some ⟨w, r, x, b⟩ := by
  have hall : ∀ w < 2, ∀ r < 2, ∀ x < 2, ∀ b < 2,
      Rex.read (rexBytes w r x b) = some ⟨w, r, x, b⟩ := by decide
  exact hall w hw r hr x hx b hb

theorem reg_split {r : ℤ} (h0 : 0 ≤ r) (h1 : r < 16) : 8 * highBit r + and7 r = r.toNat := by
  interval_cases r <;> rfl

theorem regField_split {reg : ℕ} (h : reg < 16) : 8 * ((reg >>> 3) &&& 1) + (reg &&& 7) = reg := by
  interval_cases reg <;> rfl

theorem append_eq_joinU32 (b₀ b1 b2 b3 : RivU8) :
    (b3 ++ b2 ++ b1 ++ b₀ : BitVec 32) = joinU32 b₀ b1 b2 b3 := by
  apply BitVec.eq_of_getLsbD_eq
  intro i hi
  simp only [BitVec.getLsbD_append, joinU32, BitVec.getLsbD_or, BitVec.getLsbD_shiftLeft,
    BitVec.getLsbD_setWidth]
  grind

theorem readDisp32_leU32 (v : RivI32) (rest : List RivU8) :
    readDisp32 (leU32 v ++ rest) = some (v, rest) := by
  simp only [leU32, cons_append, nil_append, readDisp32, append_eq_joinU32, joinU32_leU32]

theorem readDisp_modDisp (hm : m.WF) (rest : List RivU8) :
    readDisp m.mod (modDisp m.mod m.disp ++ rest) = some (m.disp, rest) := by
  unfold X86Mem.mod
  split
  · next hno =>
    have hdisp : m.hasDisp = false := by grind
    rw [hm.disp_zero hdisp]
    rfl
  · split
    · next hfits =>
      have hrange : -128 ≤ m.disp.toInt ∧ m.disp.toInt ≤ 127 := by
        simpa [fitsI8] using hfits
      have hlow := signExtend_low_byte hrange.1 hrange.2
      simp_all [readDisp, modDisp, one_ne_zero, readDisp8]
    · exact readDisp32_leU32 m.disp rest

theorem sibIndex_sib (hm : m.WF) (w r b : ℕ) :
    sibIndex ⟨w, r, highBit m.index, b⟩ m.sib = (m.operand r).index := by
  obtain ⟨htop, hmid, -⟩ := sib_fields m
  have hscale : 2 ^ topField m.sib = m.scale := by
    have hmem := hm.scale_mem
    grind [topField]
  rw [sibIndex, midField, hmid, hscale]
  by_cases hidx : 0 ≤ m.index
  · have hsplit := reg_split hidx hm.index_lt
    have hfour : and7 m.index = 4 ∧ highBit m.index = 0 ↔ m.index = 4 := by
      constructor
      · rintro ⟨h1, h2⟩
        omega
      · intro h
        rw [h]
        exact ⟨rfl, rfl⟩
    by_cases h4 : m.index = 4
    · simp only [X86Mem.operand, if_pos hidx, if_pos (hfour.mpr h4),
        if_neg fun h : 0 ≤ m.index ∧ m.index ≠ 4 => h.2 h4]
    · simp only [X86Mem.operand, if_pos hidx, if_neg fun h => h4 (hfour.mp h), hsplit,
        if_pos (show 0 ≤ m.index ∧ m.index ≠ 4 from ⟨hidx, h4⟩)]
  · have hhigh : highBit m.index = 0 := if_neg hidx
    simp only [X86Mem.operand, if_neg hidx, hhigh, and_self, if_true,
      if_neg fun h : 0 ≤ m.index ∧ m.index ≠ 4 => hidx h.1]

theorem X86Mem.hasSib_of_index (h : 0 ≤ m.index) : m.hasSib = true := by simp [X86Mem.hasSib, h]

theorem X86Mem.index_of_hasSib (h : m.hasSib = true) (hbase : m.base < 0) : 0 ≤ m.index := by
  have hcases : 0 ≤ m.index ∨ 0 ≤ m.base ∧ and7 m.base = 4 := by
    simpa [X86Mem.hasSib] using h
  omega

theorem memOperand_bytes (hm : m.WF) {reg : ℕ} (hreg : reg < 16) (w : ℕ) (rest : List RivU8) :
    memOperand ⟨w, (reg >>> 3) &&& 1, highBit m.index, highBit m.base⟩
      (m.bytes reg ++ rest) = some (m.operand reg, rest) := by
  obtain ⟨htop, hmid, hlow⟩ :=
    modrmByte_fields (show m.mod < 4 by have := m.mod_lt; omega) reg m.rm
  rw [m.rm_and] at hlow
  change topField (modrmByte m.mod reg m.rm) = m.mod at htop
  change midField (modrmByte m.mod reg m.rm) = reg &&& 7 at hmid
  have hne3 : topField (modrmByte m.mod reg m.rm) ≠ 3 := by
    have := m.mod_lt
    omega
  have hregs : 8 * ((reg >>> 3) &&& 1) + midField (modrmByte m.mod reg m.rm) = reg := by
    rw [hmid]
    exact regField_split hreg
  have hdisp : readDisp (topField (modrmByte m.mod reg m.rm))
      (modDisp m.mod m.disp ++ rest) = some (m.disp, rest) := by
    rw [htop]
    exact readDisp_modDisp hm rest
  by_cases hsib : m.hasSib = true
  · have hrm : lowField (modrmByte m.mod reg m.rm) = 4 := hlow.trans (if_pos hsib)
    have hbase : lowField m.sib = if 0 ≤ m.base then and7 m.base else 5 :=
      (sib_fields m).2.2
    have hindex := sibIndex_sib hm w ((reg >>> 3) &&& 1) (highBit m.base)
    simp only [X86Mem.bytes, if_pos hsib, cons_append, nil_append]
    by_cases hnobase : m.base < 0
    · have hidx := X86Mem.index_of_hasSib hsib hnobase
      rw [if_neg (not_le.mpr hnobase)] at hbase
      by_cases hmod : m.mod = 0
      · -- no base and no displacement: the form with a 32-bit displacement
        have hbytes : m.dispBytes = leU32 m.disp := if_pos ⟨hsib, hmod, hnobase⟩
        rw [hbytes, memOperand_sib_noBase (htop.trans hmod) hrm hbase
          (readDisp32_leU32 m.disp rest), hindex, hregs]
        grind [X86Mem.operand, not_le.mpr, not_lt.mpr]
      · -- the base field 101 now means rbp
        have hbytes : m.dispBytes = modDisp m.mod m.disp := if_neg fun h => hmod h.2.1
        have hhigh : highBit m.base = 0 := if_neg (not_le.mpr hnobase)
        rw [hbytes, memOperand_sib hne3 hrm (fun h => hmod (htop.symm.trans h.2)) hdisp,
          hindex, hregs, hbase, hhigh]
        grind [X86Mem.operand, not_le.mpr, not_lt.mpr]
    · have hge : 0 ≤ m.base := not_lt.mp hnobase
      have hbytes : m.dispBytes = modDisp m.mod m.disp := if_neg fun h => hnobase h.2.2
      have hnot : ¬(lowField m.sib = 5 ∧ topField (modrmByte m.mod reg m.rm) = 0) := by
        rw [hbase, if_pos hge, htop]
        exact fun h => X86Mem.mod_ne_zero hge h.1 h.2
      rw [hbytes, memOperand_sib hne3 hrm hnot hdisp, hindex, hregs, hbase,
        if_pos hge, reg_split hge hm.base_lt]
      simp only [X86Mem.operand, if_pos hge]
  · have hidx : m.index < 0 := not_le.mp fun h => hsib (X86Mem.hasSib_of_index h)
    have hbytes : m.dispBytes = modDisp m.mod m.disp := if_neg fun h => hsib h.1
    have hrm : lowField (modrmByte m.mod reg m.rm) = and7 m.base := hlow.trans (if_neg hsib)
    have hindex : (m.operand reg).index = none :=
      if_neg fun h => absurd h.1 (not_le.mpr hidx)
    have hbase : .gpr (8 * highBit m.base + and7 m.base) = (m.operand reg).base := by
      by_cases hge : 0 ≤ m.base
      · simp only [X86Mem.operand, if_pos hge, reg_split hge hm.base_lt]
      have hneg : m.base = -1 := by
        have := hm.base_ge
        omega
      simp only [X86Mem.operand, hneg, if_pos hidx]
      rfl
    simp only [X86Mem.bytes, if_neg hsib, cons_append, nil_append]
    rw [hbytes, memOperand_gpr hne3 (hrm ▸ hm.base_ne_four hsib)
      (by rw [hrm, htop]; exact hm.not_rip) hdisp, hregs, hrm]
    simp only [hbase]
    rw [← hindex]
    rfl

/-! ## Operands with a base register -/

/-- The REX prefix and the memory operand that the two emitters store, with room
for them in the image, are read by the processor as `op`. -/
structure DenotesOperand (w reg : ℕ) (m : X86Mem) (op : MemOperand) : Prop where
  emits_rex : ∀ st : AsState, st.pc.toNat + 1 ≤ maxProg →
    ∃ st', x86EmitRexForMem w reg m st = .ok st'
  emits_mem : ∀ st : AsState, st.pc.toNat + 6 ≤ maxProg →
    ∃ st', x86EmitMem reg m st = .ok st'
  reads : ∀ st st₁ st₂ st₃ : AsState,
    x86EmitRexForMem w reg m st = .ok st₁ → x86EmitMem reg m st₂ = .ok st₃ →
      ∃ rex, Rex.read (emitted st st₁) = some rex ∧
        memOperand rex (emitted st₂ st₃) = some (op, [])

def X86Mem.indexTerm (m : X86Mem) (regs : ℕ → BitVec 64) : BitVec 64 :=
  if 0 ≤ m.index then regs m.index.toNat * BitVec.ofNat 64 m.scale else 0

theorem length_rexBytes_le (w r x b : ℕ) : (rexBytes w r x b).length ≤ 1 := by
  unfold rexBytes
  split <;> simp

theorem X86Mem.length_bytes_le (reg : ℕ) (m : X86Mem) : (m.bytes reg).length ≤ 6 := by
  have hdisp : m.dispBytes.length ≤ 4 := by
    unfold X86Mem.dispBytes
    split_ifs <;> simp [leU32]
  grind [X86Mem.bytes]

theorem exists_emitAll {bs : List RivU8} {n : ℕ} (hlen : bs.length ≤ n) (st : AsState)
    (hfit : st.pc.toNat + n ≤ maxProg) : ∃ st', emitAll bs st = .ok st' :=
  ⟨st.putAll bs, emitAll_of_fits (by omega)⟩

section Denotes

variable {m : X86Mem} {w reg : ℕ}

theorem denotesOperand_operand (hm : m.WF) (hw : w < 2) (hreg : reg < 16) :
    DenotesOperand w reg m (m.operand reg) where
  emits_rex st hfit := by
    rw [x86EmitRexForMem, x86EmitRex_eq]
    exact exists_emitAll (length_rexBytes_le _ _ _ _) st hfit
  emits_mem st hfit := by
    rw [x86EmitMem_eq]
    exact exists_emitAll (m.length_bytes_le reg) st hfit
  reads st st1 st2 st3 hrex hmem := by
    rw [x86EmitRexForMem, x86EmitRex_eq] at hrex
    rw [x86EmitMem_eq] at hmem
    have hbytes := memOperand_bytes hm hreg w []
    rw [append_nil] at hbytes
    rw [emitted_of_emitAll hrex, emitted_of_emitAll hmem]
    exact ⟨_, rexBytes_read hw (and_one_lt _) (highBit_lt _) (highBit_lt _), hbytes⟩

theorem DenotesOperand.unique {op op' : MemOperand} (h : DenotesOperand w reg m op)
    (h' : DenotesOperand w reg m op') : op = op' := by
  have hroom : (initState .x86_64 0).pc.toNat + 6 ≤ maxProg := by decide
  obtain ⟨st1, hrex⟩ := h.emits_rex (initState .x86_64 0) (Nat.le_trans (by decide) hroom)
  obtain ⟨st2, hmem⟩ := h.emits_mem (initState .x86_64 0) hroom
  obtain ⟨rex, hread, hop⟩ := h.reads _ _ _ _ hrex hmem
  obtain ⟨rex', hread', hop'⟩ := h'.reads _ _ _ _ hrex hmem
  simp_all

theorem scaledIndex_operand (h : m.index ≠ 4) (regs : ℕ → BitVec 64) :
    scaledIndex regs (m.operand reg).index = m.indexTerm regs := by
  unfold X86Mem.operand X86Mem.indexTerm
  by_cases hidx : 0 ≤ m.index
  all_goals simp [hidx, And.intro hidx h, scaledIndex]

/-- An operand with a base register, an index other than `rsp` and a
displacement is emitted as base plus scaled index plus displacement. -/
theorem x86Mem_denotes (hbase : 0 ≤ m.base ∧ m.base < 16)
    (hindex : m.index = -1 ∨ 0 ≤ m.index ∧ m.index < 16 ∧ m.index ≠ 4)
    (hscale : m.scale ∈ [1, 2, 4, 8]) (hdisp : m.hasDisp = false → m.disp = 0)
    (hreg : reg < 16) (hw : w < 2) : ∃ op, DenotesOperand w reg m op ∧ op.reg = reg ∧
      ∀ regs rip, op.address regs rip =
        regs m.base.toNat + m.indexTerm regs + m.disp.signExtend 64 := by
  have hm : m.WF := by
    refine ⟨by omega, hbase.2, ?_, ?_, hscale, hdisp⟩
    · rcases hindex with h | h <;> omega
    · rcases hindex with h | h <;> omega
  have hne : m.index ≠ 4 := by
    rcases hindex with h | h
    · omega
    · exact h.2.2
  refine ⟨m.operand reg, denotesOperand_operand hm hw hreg, rfl, fun regs rip => ?_⟩
  have hgpr : (m.operand reg).base = .gpr m.base.toNat := if_pos hbase.1
  rw [MemOperand.address, scaledIndex_operand hne, hgpr]
  rfl

end Denotes

/-- `[r13+r12*4]`, which needs a displacement byte and REX.X. -/
theorem x86Mem_denotes_r13_r12 : ∃ op, DenotesOperand 1 9 ⟨13, 12, 4, false, 0⟩ op ∧ op.reg = 9 ∧
      ∀ regs rip, op.address regs rip =
        regs 13 + regs 12 * BitVec.ofNat 64 4 + (0 : BitVec 32).signExtend 64 :=
  x86Mem_denotes (by decide) (by decide) (by decide) (fun _ => rfl) (by decide) (by decide)

/-! ## Operands without a base register -/

/-- The atoms written between the brackets, without their signs. -/
def memAtoms (tok : CStr) : List CStr :=
  match splitAtoms 1 0 tok.tail.dropLast with
  | .ok atoms => atoms.map Prod.snd
  | .error _ => []

def plainReg (a : CStr) : Option ℕ := if '*' ∈ a then none else x86RegLookup a

/-- The registers the atoms name as an index, in order: those with a scale, and
those on their own after the first such register, `seen` telling whether there
has been one. -/
def indexRegs : Bool → List CStr → List ℕ
  | _, [] => []
  | seen, a :: atoms =>
    if '*' ∈ a then (scaledReg a).toList ++ indexRegs seen atoms
    else
      match x86RegLookup a with
      | some r => if seen then r :: indexRegs true atoms else indexRegs true atoms
      | none => indexRegs seen atoms

/-- The operands that come out right: the index written last is not `rsp`, and
an operand without a base is made of scaled registers only, at least one. -/
def Encodable (atoms : List CStr) : Prop :=
  (indexRegs false atoms).getLast? ≠ some 4 ∧
    ((∀ a ∈ atoms, plainReg a = none) → atoms ≠ [] ∧ ∀ a ∈ atoms, '*' ∈ a)

instance (atoms : List CStr) : Decidable (Encodable atoms) := by
  unfold Encodable
  infer_instance

/-- What reading the atoms makes of the operand `m₀`. -/
structure AtomsRead (m₀ : X86Mem) (atoms : List CStr) (m : X86Mem) : Prop where
  base : m.base < 0 ↔ m₀.base < 0 ∧ ∀ a ∈ atoms, plainReg a = none
  index : m.index =
    ((indexRegs (decide (0 ≤ m₀.base)) atoms).getLast?.map Nat.cast).getD m₀.index
  disp : m.hasDisp = true ↔
    m₀.hasDisp = true ∨ ∃ a ∈ atoms, '*' ∉ a ∧ x86RegLookup a = none
  scaled : ∀ a ∈ atoms, '*' ∈ a → scaledReg a ≠ none

theorem getLast?_append_getD {α β : Type*} (f : α → β) (l l' : List α) (d : β) :
    ((l ++ l').getLast?.map f).getD d = (l'.getLast?.map f).getD ((l.getLast?.map f).getD d) := by
  rw [List.getLast?_append]
  cases l'.getLast? <;> rfl

theorem AtomsRead.cons {m0 m1 : X86Mem} {sign : ℤ} {a : CStr} {atoms : List CStr}
    (hstep : AtomStep st m0 sign a m1) (h : AtomsRead m1 atoms m) :
    AtomsRead m0 (a :: atoms) m := by
  obtain ⟨hbase, hindex, hdisp, hscaled⟩ := h
  cases hstep with
  | scaled hstar hreg hsc =>
    refine ⟨?_, ?_, ?_, forall_mem_cons.mpr ⟨fun _ => by simp [hreg], hscaled⟩⟩
    · simp [hbase, plainReg, hstar]
    · rw [hindex, indexRegs, if_pos hstar, hreg, Option.toList_some, getLast?_append_getD]
      rfl
    simp [hdisp, hstar]
  | base hstar hreg hneg =>
    refine ⟨?_, ?_, ?_, forall_mem_cons.mpr ⟨fun h => absurd h hstar, hscaled⟩⟩
    · simp [hbase, plainReg, hstar, hreg]
    · have hseen : decide (0 ≤ m0.base) = false := by simpa using hneg
      rw [hindex, indexRegs, if_neg hstar, hreg, hseen]
      simp
    simp [hdisp, hreg]
  | index hstar hreg hneg =>
    refine ⟨?_, ?_, ?_, forall_mem_cons.mpr ⟨fun h => absurd h hstar, hscaled⟩⟩
    · grind
    · have hseen : decide (0 ≤ m0.base) = true := by simpa using hneg
      rw [hindex, indexRegs, if_neg hstar, hreg, hseen]
      exact (getLast?_append_getD Nat.cast [_] _ _).symm
    simp [hdisp, hreg]
  | disp hstar hreg hv =>
    refine ⟨?_, ?_, ?_, forall_mem_cons.mpr ⟨fun h => absurd h hstar, hscaled⟩⟩
    all_goals simp [hbase, plainReg, hstar, hreg, hindex, indexRegs, hdisp]

theorem atomsRead_of_foldlM {atoms : List (ℤ × CStr)} {m0 : X86Mem}
    (h : atoms.foldlM (x86MemAtom st) m0 = .ok m) : AtomsRead m0 (atoms.map Prod.snd) m := by
  induction atoms generalizing m0 with
  | nil =>
    cases h
    exact ⟨by simp, rfl, by simp, by simp⟩
  | cons atom atoms ih =>
    obtain ⟨m1, hatom, h⟩ := Exec.of_bind_eq_ok h
    exact AtomsRead.cons (x86MemAtom_step hatom) (ih h)

theorem x86ParseMem_atomsRead {tok : CStr} (h : x86ParseMem st tok = .ok m) :
    AtomsRead X86Mem.empty (memAtoms tok) m := by
  obtain ⟨atoms, hsplit, h⟩ := x86ParseMem_eq_ok h
  rw [memAtoms, hsplit]
  exact atomsRead_of_foldlM h

/-- An accepted operand keeps `rsp` out of the index; without a base, its bytes
denote the scaled index plus the displacement and no base register. -/
def EncodedAsWritten (m : X86Mem) : Prop :=
  m.index ≠ 4 ∧
    (m.base < 0 → ∀ w < 2, ∀ reg < 16, ∃ op, DenotesOperand w reg m op ∧ op.reg = reg ∧
      op.base = .absent ∧
      ∀ regs rip, op.address regs rip = m.indexTerm regs + m.disp.signExtend 64)

theorem mod_eq_zero_iff (hbase : m.base < 0) : m.mod = 0 ↔ m.hasDisp = false := by
  have hforce : m.forceZeroDisp = false := by
    simp [X86Mem.forceZeroDisp, hbase]
  unfold X86Mem.mod
  grind

theorem encodedAsWritten_iff (hm : m.WF) : EncodedAsWritten m ↔
      m.index ≠ 4 ∧ (m.base < 0 → 0 ≤ m.index ∧ m.hasDisp = false) := by
  refine and_congr_right fun hne => forall_congr' fun hbase => ?_
  constructor
  · intro h
    obtain ⟨op, hop, -, habsent, -⟩ := h 1 (by decide) 0 (by decide)
    rw [hop.unique (denotesOperand_operand hm (by decide) (by decide))] at habsent
    simp only [X86Mem.operand, if_neg (not_le.mpr hbase)] at habsent
    split at habsent
    · cases habsent
    next hidx =>
    split at habsent
    · next hmod => exact ⟨not_lt.mp hidx, (mod_eq_zero_iff hbase).mp hmod⟩
    · cases habsent
  · rintro ⟨hidx, hdisp⟩ w hw reg hreg
    have habsent : (m.operand reg).base = .absent := by
      grind [X86Mem.operand, not_le.mpr, not_lt.mpr, mod_eq_zero_iff]
    refine ⟨m.operand reg, denotesOperand_operand hm hw hreg, rfl, habsent, fun regs rip => ?_⟩
    rw [MemOperand.address, scaledIndex_operand hne, habsent]
    exact congrArg (· + _) (BitVec.zero_add _)

theorem indexRegs_ne_nil {atoms : List CStr} (hne : atoms ≠ [])
    (hstar : ∀ a ∈ atoms, '*' ∈ a) (hscaled : ∀ a ∈ atoms, '*' ∈ a → scaledReg a ≠ none)
    (seen : Bool) : indexRegs seen atoms ≠ [] := by
  cases atoms with
  | nil => exact absurd rfl hne
  | cons a atoms => simp_all [indexRegs]

theorem encodable_iff {tok : CStr} (h : x86ParseMem st tok = .ok m) :
    m.index ≠ 4 ∧ (m.base < 0 → 0 ≤ m.index ∧ m.hasDisp = false) ↔ Encodable (memAtoms tok) := by
  obtain ⟨hbase, hindex, hdisp, hscaled⟩ := x86ParseMem_atomsRead h
  have hindex : m.index =
      ((indexRegs false (memAtoms tok)).getLast?.map Nat.cast).getD (-1) := hindex
  refine and_congr ?_ ?_
  · rw [hindex]
    cases (indexRegs false (memAtoms tok)).getLast? with
    | none => simp
    | some r =>
      simp only [Option.map_some, Option.getD_some, ne_eq, Option.some.injEq]
      omega
  · refine imp_congr_ctx (hbase.trans (and_iff_right (by decide))) fun hplain => ?_
    constructor
    · rintro ⟨hidx, hno⟩
      constructor
      · intro hnil
        rw [hnil] at hindex
        rw [hindex] at hidx
        exact absurd hidx (by decide)
      grind [plainReg]
    · rintro ⟨hne, hstar⟩
      constructor
      · obtain ⟨r, hr⟩ := Option.ne_none_iff_exists'.mp
          (mt List.getLast?_eq_none_iff.mp (indexRegs_ne_nil hne hstar hscaled false))
        rw [hindex, hr]
        exact Int.natCast_nonneg r
      · by_contra hyes
        rcases hdisp.mp (by simpa using hyes) with hempty | ⟨a, ha, hno, -⟩
        · cases hempty
        · exact hno (hstar a ha)

end Rivet.X86
