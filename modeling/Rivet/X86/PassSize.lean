import Rivet.Assembler.TwoPass

/-!
# The size of an x86-64 instruction in the two passes

`x86_encode` chooses between a short and a long form in two places only: the
immediate of a `mov` to a register, and the displacement of a memory operand.
Both choices add three bytes, and they look at the value the operand has in the
current pass.  A line therefore has one size in both passes exactly when its
operand is short in both or in none.
-/

namespace Rivet.X86

open CLib Assembler

variable {s s' st st' t t' : AsState} {m m' n : X86Mem} {a b : CStr} {rest toks : List CStr}
  {i j : X86Insn}

/-! ## Long operands -/

def takesMem (m : CStr) : Bool :=
  m = "mov".toList || m = "lea".toList || (lookupMnem x86ArithMrOpcodes m).isSome

/-- The token of the immediate that a `mov` loads into a register. -/
def movImmediate : List CStr → Option CStr
  | m :: a :: b :: _ =>
    if m = "mov".toList ∧ x86IsMem a = false ∧ x86IsMem b = false ∧ x86IsReg b = false
    then some b else none
  | _ => none

def memoryOperand : List CStr → Option CStr
  | m :: a :: b :: _ =>
    if takesMem m then
      if x86IsMem b then some b else if x86IsMem a then some a else none
    else none
  | _ => none

def atomDisp (st : AsState) (atom : ℤ × CStr) : Except AsError RivI32 :=
  if '*' ∈ atom.2 ∨ x86IsReg atom.2 then .ok 0
  else do
    let v ← rivAsParseImm st atom.2
    .ok (BitVec.ofInt 32 (v * atom.1))

/-- The displacement written in a memory operand, with the values its symbols
have in `st`. -/
def memDisp (st : AsState) (tok : CStr) : Except AsError RivI32 := do
  let atoms ← splitAtoms 1 0 tok.tail.dropLast
  atoms.foldlM (fun d atom => do .ok (d + (← atomDisp st atom))) 0

def Wide (st : AsState) (toks : List CStr) : Prop :=
  (∃ b v, movImmediate toks = some b ∧ rivAsParseImm st b = .ok v ∧ fitsI32 v = false) ∨
    ∃ b d, memoryOperand toks = some b ∧ memDisp st b = .ok d ∧ fitsI8 d = false

/-! ## Memory operands -/

/-- Two readings of one operand that can differ in the scale and in the
displacement only. -/
structure SameShape (m n : X86Mem) : Prop where
  base : n.base = m.base
  index : n.index = m.index
  hasDisp : n.hasDisp = m.hasDisp

theorem AtomStep.sameShape {n' : X86Mem} {sign : ℤ} (hm : AtomStep s m sign a m')
    (hn : AtomStep t n sign a n') (h : SameShape m n) : SameShape m' n' := by
  cases hm with
  | scaled hstar hreg hsc =>
    cases hn with
    | scaled hstar' hreg' hsc' =>
      rw [hreg] at hreg'
      cases hreg'
      exact ⟨h.base, rfl, h.hasDisp⟩
    | base hstar' | index hstar' | disp hstar' => exact absurd hstar hstar'
  | base hstar hreg hbase =>
    cases hn with
    | scaled hstar' => exact absurd hstar' hstar
    | base hstar' hreg' =>
      rw [hreg] at hreg'
      cases hreg'
      exact ⟨rfl, h.index, h.hasDisp⟩
    | index hstar' hreg' hbase' => exact absurd (h.base ▸ hbase) hbase'
    | disp hstar' hreg' =>
      rw [hreg] at hreg'
      cases hreg'
  | index hstar hreg hbase =>
    cases hn with
    | scaled hstar' => exact absurd hstar' hstar
    | base hstar' hreg' hbase' => exact absurd (h.base ▸ hbase') hbase
    | index hstar' hreg' =>
      rw [hreg] at hreg'
      cases hreg'
      exact ⟨h.base, rfl, h.hasDisp⟩
    | disp hstar' hreg' =>
      rw [hreg] at hreg'
      cases hreg'
  | disp hstar hreg hv =>
    cases hn with
    | scaled hstar' => exact absurd hstar' hstar
    | base _ hreg' | index _ hreg' =>
      rw [hreg] at hreg'
      cases hreg'
    | disp => exact ⟨h.base, h.index, rfl⟩

theorem foldlM_sameShape {atoms : List (ℤ × CStr)} {n' : X86Mem}
    (hm : atoms.foldlM (x86MemAtom s) m = .ok m') (hn : atoms.foldlM (x86MemAtom t) n = .ok n')
    (h : SameShape m n) : SameShape m' n' := by
  induction atoms generalizing m n with
  | nil =>
    cases hm
    cases hn
    exact h
  | cons atom atoms ih =>
    obtain ⟨m1, hm1, hm⟩ := Exec.of_bind_eq_ok hm
    obtain ⟨n1, hn1, hn⟩ := Exec.of_bind_eq_ok hn
    exact ih hm hn ((x86MemAtom_step hm1).sameShape (x86MemAtom_step hn1) h)

theorem x86ParseMem_sameShape {tok : CStr} (hm : x86ParseMem s tok = .ok m)
    (hn : x86ParseMem t tok = .ok n) : SameShape m n := by
  obtain ⟨atoms, hatoms, hm⟩ := x86ParseMem_eq_ok hm
  obtain ⟨atoms', hatoms', hn⟩ := x86ParseMem_eq_ok hn
  obtain rfl : atoms' = atoms := Except.ok.inj (hatoms'.symm.trans hatoms)
  exact foldlM_sameShape hm hn ⟨rfl, rfl, rfl⟩

theorem AtomStep.disp_eq {sign : ℤ} (h : AtomStep s m sign a m') :
    ∃ d, atomDisp s (sign, a) = .ok d ∧ m'.disp = m.disp + d := by
  cases h with
  | scaled hstar hreg hsc =>
    exact ⟨0, if_pos (Or.inl hstar), (BitVec.add_zero _).symm⟩
  | base _ hreg | index _ hreg =>
    exact ⟨0, if_pos (Or.inr (by simp [x86IsReg, hreg])), (BitVec.add_zero _).symm⟩
  | disp hstar hreg hv =>
    refine ⟨_, ?_, rfl⟩
    rw [atomDisp, if_neg (by simp [hstar, x86IsReg, hreg]), hv]
    rfl

theorem foldlM_disp_eq {atoms : List (ℤ × CStr)} (h : atoms.foldlM (x86MemAtom s) m = .ok m') :
    atoms.foldlM (fun d atom => do .ok (d + (← atomDisp s atom))) m.disp =
      .ok m'.disp := by
  induction atoms generalizing m with
  | nil =>
    cases h
    rfl
  | cons atom atoms ih =>
    obtain ⟨m₁, hm₁, h⟩ := Exec.of_bind_eq_ok h
    obtain ⟨d, hd, hdisp⟩ := (x86MemAtom_step hm₁).disp_eq
    grind [Exec.ok_bind]

theorem memDisp_of_x86ParseMem {tok : CStr} (h : x86ParseMem s tok = .ok m) :
    memDisp s tok = .ok m.disp := by
  obtain ⟨atoms, hatoms, h⟩ := x86ParseMem_eq_ok h
  rw [memDisp, hatoms, Exec.ok_bind]
  exact foldlM_disp_eq h

/-! ## Sizes -/

theorem length_rexBytes (r x b : ℕ) : (rexBytes 1 r x b).length = 1 := by rfl

def X86Mem.shortLength (m : X86Mem) : ℕ :=
  1 + (if m.hasSib then 1 else 0) +
    (if m.hasDisp ∨ m.forceZeroDisp then 1 else if m.hasSib ∧ m.base < 0 then 4 else 0)

theorem X86Mem.length_bytes (hm : m.WF) (reg : ℕ) :
    (m.bytes reg).length = m.shortLength + if fitsI8 m.disp then 0 else 3 := by
  have hsib : (if m.hasSib then [m.sib] else []).length = if m.hasSib then 1 else 0 := by
    split <;> rfl
  have hzero : m.hasDisp = false → fitsI8 m.disp = true := by
    intro h
    rw [hm.disp_zero h]
    decide
  have hdisp : m.dispBytes.length =
      (if m.hasDisp ∨ m.forceZeroDisp then 1 else if m.hasSib ∧ m.base < 0 then 4 else 0) +
        if fitsI8 m.disp then 0 else 3 := by
    unfold X86Mem.dispBytes X86Mem.mod
    by_cases hd : m.hasDisp = true ∨ m.forceZeroDisp = true
    · grind [leU32]
    · grind [leU32]
  grind [X86Mem.bytes, X86Mem.shortLength]

theorem SameShape.shortLength (h : SameShape m n) : n.shortLength = m.shortLength := by
  have hsib : n.hasSib = m.hasSib := by
    simp only [X86Mem.hasSib, h.base, h.index]
  have hzero : n.forceZeroDisp = m.forceZeroDisp := by
    simp only [X86Mem.forceZeroDisp, h.base, h.hasDisp]
  simp only [X86Mem.shortLength, hsib, hzero, h.base, h.hasDisp]

theorem exists_shortLength (b : CStr) :
    ∃ k, ∀ st m, x86ParseMem st b = .ok m → m.shortLength = k := by
  by_cases h : ∃ st m, x86ParseMem st b = .ok m
  · obtain ⟨st, m, hm⟩ := h
    exact ⟨m.shortLength, fun st' n hn => (x86ParseMem_sameShape hm hn).shortLength⟩
  simp_all

/-- The length of a memory operand with a short displacement, in whatever state it
is read. -/
noncomputable def shortOf (b : CStr) : ℕ := (exists_shortLength b).choose

theorem shortOf_eq (hm : x86ParseMem st b = .ok m) : shortOf b = m.shortLength :=
  ((exists_shortLength b).choose_spec st m hm).symm

/-- The size of a line is `n`, and three bytes more if it has a long operand. -/
structure SizeLaw (toks : List CStr) (st st' : AsState) (n : ℕ) : Prop where
  wide : Wide st toks → (emitted st st').length = n + 3
  narrow : ¬Wide st toks → (emitted st st').length = n

theorem not_wide {m : CStr} (hm : takesMem m = false) (ops : List CStr) (st : AsState) :
    ¬Wide st (m :: ops) := by
  rintro (⟨b, v, hb, -, -⟩ | ⟨b, d, hb, -, -⟩)
  · match ops with
    | [] => cases hb
    | [_] => cases hb
    | a :: b :: rest =>
      rw [movImmediate] at hb
      split at hb
      · next hmov =>
        rw [hmov.1] at hm
        exact absurd hm (by decide)
      · cases hb
  · match ops with
    | [] => cases hb
    | [_] => cases hb
    | a :: b :: rest =>
      rw [memoryOperand, if_neg (by rw [hm]; decide)] at hb
      cases hb

theorem sizeLaw_fixed {st' : AsState} {n : ℕ} (hemit : Emits i st st') (hwide : ¬Wide st toks)
    (hlen : i.bytes.length = n) : SizeLaw toks st st' n :=
  ⟨fun h => absurd h hwide, fun _ => by rw [hemit.emitted_eq, hlen]⟩

theorem sizeLaw_mem {st' : AsState} {c reg : ℕ} (hmem : memoryOperand toks = some b)
    (hmov : movImmediate toks = none) (hm : x86ParseMem st b = .ok m) (hemit : Emits i st st')
    (hlen : i.bytes.length = c + (m.bytes reg).length) : SizeLaw toks st st' (c + shortOf b) := by
  have hwide : Wide st toks ↔ fitsI8 m.disp = false := by
    constructor
    · rintro (⟨b', v, hb', -, -⟩ | ⟨b', d, hb', hd, hfits⟩)
      all_goals simp_all [memDisp_of_x86ParseMem]
    · intro hfits
      exact Or.inr ⟨b, m.disp, hmem, memDisp_of_x86ParseMem hm, hfits⟩
  have hsize : (emitted st st').length = c + shortOf b + if fitsI8 m.disp then 0 else 3 := by
    rw [hemit.emitted_eq, hlen, X86Mem.length_bytes (x86ParseMem_wf hm), shortOf_eq hm]
    omega
  constructor
  all_goals simp_all

theorem length_mem (opcode : RivU8) (reg : ℕ) (m : X86Mem) :
    (X86Insn.mem opcode reg m).bytes.length = 2 + (m.bytes reg).length := by
  simp [X86Insn.bytes, X86Mem.rex, length_rexBytes]
  omega

theorem length_movMem (m : X86Mem) (imm : RivI32) :
    (X86Insn.movMem m imm).bytes.length = 6 + (m.bytes 0).length := by
  simp [X86Insn.bytes, X86Mem.rex, length_rexBytes, leU32]
  omega

/-! ## One line in two states -/

def SameLaw (toks : List CStr) (s s' t t' : AsState) : Prop :=
  ∃ n, SizeLaw toks s s' n ∧ SizeLaw toks t t' n

theorem SameLaw.length_eq_iff (h : SameLaw toks s s' t t') :
    (emitted s s').length = (emitted t t').length ↔ (Wide s toks ↔ Wide t toks) := by
  obtain ⟨n, hs, ht⟩ := h
  by_cases hws : Wide s toks
  · by_cases hwt : Wide t toks
    · rw [hs.wide hws, ht.wide hwt]
      simp_all
    · rw [hs.wide hws, ht.narrow hwt]
      simp_all
  · by_cases hwt : Wide t toks
    · rw [hs.narrow hws, ht.wide hwt]
      simp_all
    · rw [hs.narrow hws, ht.narrow hwt]
      simp_all

section Operands

variable {a b m : CStr} {rest : List CStr} {st st' : AsState}

theorem movImmediate_of_mem (h : x86IsMem a = true ∨ x86IsMem b = true) (m : CStr) :
    movImmediate (m :: a :: b :: rest) = none := by
  rw [movImmediate, if_neg]
  grind

theorem memoryOperand_right (hm : takesMem m = true) (hb : x86IsMem b = true) :
    memoryOperand (m :: a :: b :: rest) = some b := by rw [memoryOperand, if_pos hm, if_pos hb]

theorem memoryOperand_left (hm : takesMem m = true) (ha : x86IsMem a = true)
    (hb : x86IsMem b = false) : memoryOperand (m :: a :: b :: rest) = some a := by
  rw [memoryOperand, if_pos hm, if_neg (by rw [hb]; decide), if_pos ha]

theorem wide_iff (ha : x86IsMem a = false) (hb : x86IsMem b = false) :
    Wide st (m :: a :: b :: rest) ↔ m = "mov".toList ∧ x86IsReg b = false ∧
      ∃ v, rivAsParseImm st b = .ok v ∧ fitsI32 v = false := by
  have hmem : memoryOperand (m :: a :: b :: rest) = none := by simp [memoryOperand, ha, hb]
  have hmov : movImmediate (m :: a :: b :: rest) = some b ↔
      m = "mov".toList ∧ x86IsReg b = false := by simp [movImmediate, ha, hb]
  constructor
  · rintro (⟨c, v, hc, hv, hfits⟩ | ⟨c, d, hc, -, -⟩)
    · have hcb : c = b := by grind [movImmediate]
      subst hcb
      obtain ⟨hm, hreg⟩ := hmov.mp hc
      exact ⟨hm, hreg, v, hv, hfits⟩
    · cases hmem.symm.trans hc
  · rintro ⟨hm, hreg, v, hv, hfits⟩
    exact .inl ⟨b, v, hmov.mpr ⟨hm, hreg⟩, hv, hfits⟩

end Operands

noncomputable def twoOperandSize (a b : CStr) : ℕ :=
  if x86IsMem b then 2 + shortOf b
  else if x86IsMem a then (if x86IsReg b then 2 else 6) + shortOf a
  else if x86IsReg b then 3 else 7

def fixedSizes : List (String × ℕ) :=
  x86ZeroOps.map (fun row => (row.1, row.2.length)) ++ [("int", 2), ("imul", 4)] ++
  unaryOps.map (fun row => (row.1, 3)) ++ shiftOps.map (fun row => (row.1, 4)) ++
  branchOps.map (fun row => (row.1, 5)) ++ x86JccOpcodes.map fun row => (row.1, 6)

noncomputable def lineSize (m : CStr) (ops : List CStr) : ℕ :=
  if m = "push".toList ∨ m = "pop".toList then
    (x86RegLookup (ops.headD [])).elim 0 fun r => (X86Insn.stack 0 r).bytes.length
  else if m = "in".toList ∨ m = "out".toList then
    if ops.headD [] = "dx".toList ∨ ops.tail.headD [] = "dx".toList then 1 else 2
  else (lookupMnem fixedSizes m).getD (twoOperandSize (ops.headD []) (ops.tail.headD []))

def SizeRow (name : String) (size : Option ℕ) : Prop :=
  lookupMnem fixedSizes name.toList = size ∧
    (name.toList ≠ "push".toList ∧ name.toList ≠ "pop".toList ∧
      name.toList ≠ "in".toList ∧ name.toList ≠ "out".toList) ∧
    (size ≠ none → takesMem name.toList = false)

instance (name : String) (size : Option ℕ) : Decidable (SizeRow name size) :=
  inferInstanceAs (Decidable (_ ∧ _ ∧ _))

theorem sizeRows : (∀ row ∈ x86ZeroOps, SizeRow row.1 (some row.2.length)) ∧
    (∀ row ∈ unaryOps, SizeRow row.1 (some 3)) ∧ (∀ row ∈ shiftOps, SizeRow row.1 (some 4)) ∧
    (∀ row ∈ branchOps, SizeRow row.1 (some 5)) ∧ (∀ row ∈ x86JccOpcodes, SizeRow row.1 (some 6)) ∧
    (∀ row ∈ loadOps, SizeRow row.1 none ∧ takesMem row.1.toList = true) ∧
    (∀ row ∈ storeOps, SizeRow row.1 none ∧ takesMem row.1.toList = true) ∧
    (∀ row ∈ rrOps, SizeRow row.1 none) ∧
    (∀ row ∈ x86ArithDigits, SizeRow row.1 none ∧ row.1 ≠ "mov") ∧
    SizeRow "int" (some 2) ∧ SizeRow "imul" (some 4) := by decide

theorem LineForm.sizeLaw {m : CStr} {ops : List CStr} (h : LineForm st m ops i)
    (hemit : Emits i st st') : SizeLaw (m :: ops) st st' (lineSize m ops) := by
  obtain ⟨hzero, hunary, hshift, hbranch, hjcc, hload, hstore, hrr, hdigit, hint, himul⟩ :=
    sizeRows
  have hfixed {name : String} (hrow : SizeRow name (some i.bytes.length)) (hm : m = name.toList) :
      SizeLaw (m :: ops) st st' (lineSize m ops) := by
    obtain ⟨hlook, hother, htakes⟩ := hrow
    have hsize : lineSize m ops = i.bytes.length := by simp_all [lineSize]
    exact sizeLaw_fixed hemit (not_wide (hm ▸ htakes nofun) ops st) hsize.symm
  have htwo {name : String} (hrow : SizeRow name none) (a b : CStr) (rest : List CStr) :
      lineSize name.toList (a :: b :: rest) = twoOperandSize a b := by
    simp_all [lineSize, SizeRow]
  have hmov : SizeRow "mov" none := hrr _ (.head _)
  have hal : "al".toList ≠ "dx".toList := by decide
  cases h with
  | zero h => exact hfixed (hzero _ h) rfl
  | int => exact hfixed hint rfl
  | imul => exact hfixed himul rfl
  | unary h => exact hfixed (hunary _ h) rfl
  | shift h => exact hfixed (hshift _ h) rfl
  | branch h => exact hfixed (hbranch _ h) rfl
  | jcc h => exact hfixed (hjcc _ h) rfl
  | stack h hr =>
    have hrows : ∀ row ∈ stackOps, takesMem row.1.toList = false ∧
        (row.1.toList = "push".toList ∨ row.1.toList = "pop".toList) := by decide
    obtain ⟨htakes, hname⟩ := hrows _ h
    refine sizeLaw_fixed hemit (not_wide htakes _ _) ?_
    rw [lineSize, if_pos hname]
    simp [hr, X86Insn.bytes]
  | inDx | outDx => exact sizeLaw_fixed hemit (not_wide (by decide) _ _) rfl
  | inImm hb =>
    refine sizeLaw_fixed hemit (not_wide (by decide) _ _) ?_
    exact (if_neg (not_or.mpr ⟨hal, hb⟩)).symm
  | outImm ha =>
    refine sizeLaw_fixed hemit (not_wide (by decide) _ _) ?_
    exact (if_neg (not_or.mpr ⟨ha, hal⟩)).symm
  | load h hr hb hm =>
    obtain ⟨hrow, htakes⟩ := hload _ h
    rw [htwo hrow, twoOperandSize, if_pos hb]
    exact sizeLaw_mem (memoryOperand_right htakes hb) (movImmediate_of_mem (.inr hb) _) hm hemit
      (length_mem _ _ _)
  | store h ha hm hr =>
    obtain ⟨hrow, htakes⟩ := hstore _ h
    have hb := x86IsMem_of_reg hr
    rw [htwo hrow, twoOperandSize, hb, ha, x86IsReg_of_lookup hr]
    exact sizeLaw_mem (memoryOperand_left htakes ha hb) (movImmediate_of_mem (.inl ha) _) hm hemit
      (length_mem _ _ _)
  | storeImm ha hm hb hreg =>
    rw [htwo hmov, twoOperandSize, hb, ha, hreg]
    exact sizeLaw_mem (memoryOperand_left (by decide) ha hb) (movImmediate_of_mem (.inl ha) _) hm
      hemit (length_movMem _ _)
  | rr h hdst hsrc =>
    have hb := x86IsMem_of_reg hsrc
    have hreg := x86IsReg_of_lookup hsrc
    rw [htwo (hrr _ h), twoOperandSize, hb, x86IsMem_of_reg hdst, hreg]
    refine sizeLaw_fixed hemit ?_ rfl
    simp [wide_iff (x86IsMem_of_reg hdst) hb, hreg]
  | movImm32 hdst hb hreg hv hfits =>
    rw [htwo hmov, twoOperandSize, hb, x86IsMem_of_reg hdst, hreg]
    refine sizeLaw_fixed hemit ?_ rfl
    simp [wide_iff (x86IsMem_of_reg hdst) hb, hv, hfits]
  | movImm64 hdst hb hreg hv hfits =>
    -- the form with three bytes more
    rw [htwo hmov, twoOperandSize, hb, x86IsMem_of_reg hdst, hreg]
    refine ⟨fun _ => congrArg List.length hemit.emitted_eq, fun h => absurd ?_ h⟩
    exact (wide_iff (x86IsMem_of_reg hdst) hb).mpr ⟨rfl, hreg, _, hv, hfits⟩
  | arithImm h hdst hb hreg =>
    obtain ⟨hrow, hne⟩ := hdigit _ h
    rw [htwo hrow, twoOperandSize, hb, x86IsMem_of_reg hdst, hreg]
    refine sizeLaw_fixed hemit ?_ rfl
    rw [wide_iff (x86IsMem_of_reg hdst) hb]
    exact fun hw => hne (String.toList_injective hw.1)

theorem x86Encode_sameLaw (hs : x86Encode toks s = .ok (some s'))
    (ht : x86Encode toks t = .ok (some t')) : SameLaw toks s s' t t' := by
  obtain ⟨m, ops, i, rfl, hforms, hs⟩ := x86Encode_eq_some hs
  obtain ⟨_, _, j, htoks, hformt, ht⟩ := x86Encode_eq_some ht
  cases htoks
  exact ⟨lineSize m ops, hforms.sizeLaw hs, hformt.sizeLaw ht⟩

/-! ## Whole texts -/

/-- The state in which a pass that starts in `st` has read the labels of line
`k`, and the tokens that remain. -/
def atInsn (text : List Char) (st : AsState) (k : ℕ) :
    Except AsError (AsState × List CStr) := do
  let s ← enterLine text st k
  let toks ← tokenize ((fileLines text).getD k [])
  processLabels toks (nextLine s)

/-- The states in which the two passes hand line `k` of a text that neither of
them rejects to a backend, and its tokens. -/
def bothPasses (arch : Arch) (base : RivU32) (text : List Char) (k : ℕ) :
    Except AsError (AsState × AsState × List CStr) := do
  let (st₀, _) ← assemble arch base text
  let (s, toks) ← atInsn text (initState arch base) k
  let (t, _) ← atInsn text { st₀ with pass := .emit } k
  .ok (s, t, toks)

/-- The instruction on line `k` is encoded for x86-64 in both passes. -/
structure EncodedTwice (arch : Arch) (base : RivU32) (text : List Char) (k : ℕ)
    (toks : List CStr) (s s' t t' : AsState) : Prop where
  enter : bothPasses arch base text k = .ok (s, t, toks)
  archS : s.arch = .x86_64
  archT : t.arch = .x86_64
  encodeS : x86Encode toks s = .ok (some s')
  encodeT : x86Encode toks t = .ok (some t')

/-- Every instruction of a text has one size in both passes exactly when each
of them has a long operand in both passes or in neither. -/
theorem x86Encode_size_eq_iff (arch : Arch) (base : RivU32) (text : List Char) :
    (∀ k toks s s' t t', EncodedTwice arch base text k toks s s' t t' →
      (emitted s s').length = (emitted t t').length) ↔
    ∀ k toks s s' t t', EncodedTwice arch base text k toks s s' t t' →
      (Wide s toks ↔ Wide t toks) := by
  constructor
  · intro h k toks s s' t t' henc
    exact (x86Encode_sameLaw henc.encodeS henc.encodeT).length_eq_iff.mp
      (h k toks s s' t t' henc)
  · intro h k toks s s' t t' henc
    exact (x86Encode_sameLaw henc.encodeS henc.encodeT).length_eq_iff.mpr
      (h k toks s s' t t' henc)

/-- A label above `0x7FFFFFFF` read before it is defined: seven bytes are
emitted in the first pass and ten in the second. -/
theorem x86Encode_size_differs :
    ∃ k toks s s' t t',
      EncodedTwice .x86_64 0x80000000 "mov rax, x\nx:\nnop\n".toList k toks s s' t t' ∧
        (emitted s s').length = 7 ∧ (emitted t t').length = 10 := by
  have hrun : (do
      let (s, t, toks) ← bothPasses .x86_64 0x80000000 "mov rax, x\nx:\nnop\n".toList 0
      let s' ← x86Encode toks s
      let t' ← x86Encode toks t
      .ok (s.arch, t.arch, s'.map fun s' => (emitted s s').length,
        t'.map fun t' => (emitted t t').length)) =
      (.ok (.x86_64, .x86_64, some 7, some 10) :
        Except AsError (Arch × Arch × Option ℕ × Option ℕ)) := by
    decide +kernel
  obtain ⟨⟨s, t, toks⟩, henter, hrun⟩ := Exec.of_bind_eq_ok hrun
  obtain ⟨s', hs, hrun⟩ := Exec.of_bind_eq_ok hrun
  obtain ⟨t', ht, hrun⟩ := Exec.of_bind_eq_ok hrun
  simp only [Except.ok.injEq, Prod.mk.injEq, Option.map_eq_some_iff] at hrun
  obtain ⟨harchS, harchT, ⟨s', rfl, hlenS⟩, t', rfl, hlenT⟩ := hrun
  exact ⟨0, toks, s, s', t, t', ⟨henter, harchS, harchT, hs, ht⟩, hlenS, hlenT⟩

end Rivet.X86
