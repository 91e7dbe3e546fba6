import Rivet.Riscv32.Operands

/-!
# Register operands of the RV32 assembler

`rv_reg_lookup` reads the digits after an `x` with `atoi`, which stops at the
first character that is no digit and drops what does not fit an `int`.  The
names of the registers are listed here and compared with the tokens that the
lookup takes, and so is the number that reaches the instruction word.
-/

namespace Rivet.Riscv32

open CLib Assembler Disassembler BitField List

variable {t : CStr} {n pos : ℕ}

/-! ## Names -/

/-- The names of the registers: `x` and a number, an ABI name, or `fp`. -/
def registerNames : List (CStr × ℕ) :=
  ("fp".toList, 8) :: (range 32).flatMap fun n =>
    [('x' :: Nat.toDigits 10 n, n), ('X' :: Nat.toDigits 10 n, n), ((rvAbi.getD n "").toList, n)]

/-- The token is no register name, but its digits start with a small number. -/
def Loose (t : CStr) : Prop :=
  (∃ x cs, t = x :: cs ∧ (x = 'x' ∨ x = 'X') ∧ (cs.head?.any Char.isDigit = true) ∧
    0 ≤ atoi cs ∧ atoi cs < 32) ∧ ∀ n, (t, n) ∉ registerNames

theorem rvXReg_isSome_iff : (rvXReg t).isSome ↔ ∃ x cs, t = x :: cs ∧ (x = 'x' ∨ x = 'X') ∧
      (cs.head?.any Char.isDigit = true) ∧ 0 ≤ atoi cs ∧ atoi cs < 32 := by
  rcases t with _ | ⟨x, _ | ⟨d, cs⟩⟩
  all_goals grind [rvXReg]

theorem rvRegLookup_of_name : ∀ name ∈ registerNames, rvRegLookup name.1 = some name.2 := by
  decide +kernel

theorem name_of_rvRegLookup (h : rvRegLookup t = some n) (hx : rvXReg t = none) :
    (t, n) ∈ registerNames := by
  rw [rvRegLookup, hx] at h
  by_cases hfp : t = "fp".toList
  · rw [if_pos hfp] at h
    cases h
    rw [hfp]
    exact mem_cons_self
  · simp only [if_neg hfp] at h
    obtain ⟨hn, heq, -⟩ := findIdx?_eq_some_iff_getElem.mp h
    refine mem_cons_of_mem _ (mem_flatMap.mpr ⟨n, mem_range.mpr hn, ?_⟩)
    simp_all

theorem rvRegLookup_eq_some_iff (ht : ¬Loose t) :
    rvRegLookup t = some n ↔ (t, n) ∈ registerNames := by
  constructor
  · intro h
    cases hx : rvXReg t with
    | none => exact name_of_rvRegLookup h hx
    | some k =>
      obtain ⟨k, hk⟩ : ∃ k, (t, k) ∈ registerNames := by
        by_contra hnone
        exact ht ⟨rvXReg_isSome_iff.mp (by simp [hx]), not_exists.mp hnone⟩
      obtain rfl : k = n := Option.some.inj ((rvRegLookup_of_name _ hk).symm.trans h)
      exact hk
  · exact rvRegLookup_of_name (t, n)

theorem rvRegLookup_of_loose (ht : Loose t) : ∃ n, rvRegLookup t = some n := by
  obtain ⟨k, hk⟩ := Option.isSome_iff_exists.mp (rvXReg_isSome_iff.mpr ht.1)
  exact ⟨k, by rw [rvRegLookup, hk]⟩

theorem rvParseReg_eq_ok_iff : rvParseReg t = .ok n ↔ rvRegLookup t = some n := by
  grind [rvParseReg, rivAsDie]

/-! ## Positions -/

/-- The register operands of an instruction, each with the bit of the word at
which its field starts.  Operands that are missing, or an `imm(reg)` without its
parentheses, leave none. -/
def registersOf : Kind → List CStr → List (ℕ × CStr)
  | .r, a :: b :: c :: _ => [(7, a), (15, b), (20, c)]
  | .i, a :: b :: _ :: _ | .shift, a :: b :: _ :: _ | .jalr, a :: b :: _ :: _ =>
    [(7, a), (15, b)]
  | .load, a :: b :: _ | .jalr, [a, b] =>
    match rivAsSplitOffset b with
    | .ok (some (_, base)) => [(7, a), (15, base)]
    | _ => []
  | .store, a :: b :: _ =>
    match rivAsSplitOffset b with
    | .ok (some (_, base)) => [(20, a), (15, base)]
    | _ => []
  | .branch, a :: b :: _ :: _ => [(15, a), (20, b)]
  | .jal, a :: _ :: _ | .lui, a :: _ :: _ | .auipc, a :: _ :: _ => [(7, a)]
  | _, _ => []

def registers (tok : List CStr) : List (ℕ × CStr) :=
  match rvExpandPseudo tok with
  | .ok (m :: ops) => ((rvFind m).map fun ix => registersOf ix.kind ops).getD []
  | .ok [] | .error _ => []

theorem registers_eq {tok : List CStr} (h : (pos, t) ∈ registers tok) :
    ∃ m ops ix, rvExpandPseudo tok = .ok (m :: ops) ∧ rvFind m = some ix ∧
      registers tok = registersOf ix.kind ops ∧ immOperand tok = immOf ix.kind ops := by
  unfold registers at h
  split at h
  · next m ops htok =>
    cases hfind : rvFind m with
    | none => simp [hfind] at h
    | some ix => exact ⟨m, ops, ix, htok, hfind, by simp [registers, htok, hfind],
        by simp [immOperand, htok, hfind]⟩
  · cases h
  · cases h

section Words

variable {st : AsState} {ix : InsnT} {m : CStr} {ops : List CStr} {w : RivU32}

theorem lookup_eq_extract {fields : List (ℕ × ℕ)} (i : ℕ) (ht : rvParseReg t = .ok n)
    (hw : w.toNat = pack fields) (hi : fields[i]? = some (5, n))
    (hlo : width (fields.take i) = pos) : rvRegLookup t = some (extract pos 5 w.toNat) := by
  rw [extract_at i hw hi hlo (rvParseReg_lt ht)]
  exact rvParseReg_eq_ok_iff.mp ht

theorem lookup_eq_extract₂ {fields : List (ℕ × ℕ)} {a b : CStr} {i j p q x y : ℕ}
    (hw : w.toNat = pack fields) (ha : rvParseReg a = .ok x ∧ fields[i]? = some (5, x))
    (hb : rvParseReg b = .ok y ∧ fields[j]? = some (5, y)) (hp : width (fields.take i) = p)
    (hq : width (fields.take j) = q) (hreg : (pos, t) ∈ [(p, a), (q, b)]) :
    rvRegLookup t = some (extract pos 5 w.toNat) := by grind [lookup_eq_extract]

theorem lookup_of_rvWord (hix : ix ∈ rvIsa) (h : rvWord st ix m ops = .ok w)
    (hreg : (pos, t) ∈ registersOf ix.kind ops) : rvRegLookup t = some (extract pos 5 w.toNat) := by
  obtain ⟨hf3, hf7, hop⟩ := row_fields ix hix
  cases wordForm_of_rvWord h with
  | r hkind hrd hrs1 hrs2 =>
    have hw := encR_toNat (rvParseReg_lt hrd) hf3 (rvParseReg_lt hrs1) (rvParseReg_lt hrs2) hf7 hop
    rw [hkind] at hreg
    obtain hreg | hreg := mem_cons.mp hreg
    · cases hreg
      exact lookup_eq_extract 1 hrd hw rfl rfl
    · exact lookup_eq_extract₂ (i := 3) (j := 4) hw ⟨hrs1, rfl⟩ ⟨hrs2, rfl⟩ rfl rfl hreg
  | i hkind hrd hrs1 =>
    refine lookup_eq_extract₂ (i := 1) (j := 3) (encI_toNat _ (rvParseReg_lt hrd) hf3
      (rvParseReg_lt hrs1) hop) ⟨hrd, rfl⟩ ⟨hrs1, rfl⟩ rfl rfl ?_
    obtain hkind | hkind := hkind <;> rwa [hkind] at hreg
  | shift hkind hrd hrs1 =>
    rw [hkind] at hreg
    exact lookup_eq_extract₂ (i := 1) (j := 3) (encShift_toNat _ (rvParseReg_lt hrd) hf3
      (rvParseReg_lt hrs1) hf7 hop) ⟨hrd, rfl⟩ ⟨hrs1, rfl⟩ rfl rfl hreg
  | offset hkind hsplit hrd hrs1 =>
    refine lookup_eq_extract₂ (i := 1) (j := 3) (encI_toNat _ (rvParseReg_lt hrd) hf3
      (rvParseReg_lt hrs1) hop) ⟨hrd, rfl⟩ ⟨hrs1, rfl⟩ rfl rfl ?_
    obtain hkind | ⟨hkind, rfl⟩ := hkind <;> simp only [hkind, registersOf, hsplit] at hreg <;>
      exact hreg
  | store hkind hsplit hrs2 hrs1 =>
    simp only [hkind, registersOf, hsplit] at hreg
    exact lookup_eq_extract₂ (i := 4) (j := 3) (encS_toNat _ (rvParseReg_lt hrs2) hf3
      (rvParseReg_lt hrs1) hop) ⟨hrs2, rfl⟩ ⟨hrs1, rfl⟩ rfl rfl hreg
  | branch hkind hrs1 hrs2 =>
    rw [hkind] at hreg
    exact lookup_eq_extract₂ (i := 4) (j := 5) (encB_toNat _ (rvParseReg_lt hrs1)
      (rvParseReg_lt hrs2) hf3 hop) ⟨hrs1, rfl⟩ ⟨hrs2, rfl⟩ rfl rfl hreg
  | jal hkind hrd =>
    rw [hkind] at hreg
    cases mem_singleton.mp hreg
    exact lookup_eq_extract 1 hrd (encJ_toNat _ (rvParseReg_lt hrd) hop) rfl rfl
  | @upper a b rest rd v hkind hrd hv =>
    have hmem : (pos, t) ∈ [(7, a)] := by
      obtain hkind | hkind := hkind <;> rwa [hkind] at hreg
    have hlt : (BitVec.ofInt 32 v &&& 0xFFFFF).toNat < 2 ^ 20 := by
      rw [toNat_and_mask (w := 20) _ _ rfl]
      exact Nat.mod_lt _ (by decide)
    cases mem_singleton.mp hmem
    rw [encU_mask]
    exact lookup_eq_extract 1 hrd (encU_toNat hlt (rvParseReg_lt hrd) hop) rfl rfl
  | none hkind => obtain hkind | hkind := hkind <;> simp [hkind, registersOf] at hreg

theorem splitOffsetOrDie_of_ok {s imm base : CStr}
    (h : rivAsSplitOffset s = .ok (some (imm, base))) :
    splitOffsetOrDie s = .ok (offsetPart s, base) := by
  have hok : splitOffsetOrDie s = .ok (imm, base) := by
    rw [splitOffsetOrDie, h]
    rfl
  grind [splitOffsetOrDie_eq_ok]

theorem exists_rvWord (hreg : (pos, t) ∈ registersOf ix.kind ops)
    (hregs : ∀ p ∈ registersOf ix.kind ops, ∃ r, rvParseReg p.2 = .ok r)
    (himm : ∀ f s, immOf ix.kind ops = some (f, s) → ∃ v, rivAsParseImm st s = .ok v) :
    ∃ w, rvWord st ix m ops = .ok w := by
  rw [rvWord.eq_def]
  cases hkind : ix.kind with
  | r =>
    rw [hkind] at hreg hregs
    rcases ops with _ | ⟨a, _ | ⟨b, _ | ⟨c, rest⟩⟩⟩
    iterate 3 cases hreg
    simp only [registersOf, forall_mem_cons] at hregs
    obtain ⟨⟨rd, hrd⟩, ⟨rs1, hrs1⟩, ⟨rs2, hrs2⟩, -⟩ := hregs
    simp [hrd, hrs1, hrs2]
  | i | shift | branch =>
    rw [hkind] at hreg hregs himm
    rcases ops with _ | ⟨a, _ | ⟨b, _ | ⟨c, rest⟩⟩⟩
    iterate 3 cases hreg
    simp only [registersOf, forall_mem_cons] at hregs
    obtain ⟨⟨rd, hrd⟩, ⟨rs1, hrs1⟩, -⟩ := hregs
    obtain ⟨v, hv⟩ := himm _ c rfl
    simp [hrd, hrs1, parseI32, hv]
  | load | store =>
    rw [hkind] at hreg hregs himm
    rcases ops with _ | ⟨a, _ | ⟨b, rest⟩⟩
    iterate 2 cases hreg
    obtain ⟨v, hv⟩ := himm _ _ rfl
    simp only [registersOf] at hreg hregs
    split at hreg
    · next hsplit =>
      simp only [hsplit, forall_mem_cons] at hregs
      obtain ⟨⟨rd, hrd⟩, ⟨rs1, hrs1⟩, -⟩ := hregs
      simp [splitOffsetOrDie_of_ok hsplit, hrd, hrs1, parseI32, hv]
    · cases hreg
  | jal | lui | auipc =>
    rw [hkind] at hreg hregs himm
    rcases ops with _ | ⟨a, _ | ⟨b, rest⟩⟩
    iterate 2 cases hreg
    obtain ⟨v, hv⟩ := himm _ _ rfl
    obtain ⟨rd, hrd⟩ := hregs _ mem_cons_self
    simp [hrd, parseI32, hv]
  | jalr =>
    rw [hkind] at hreg hregs himm
    rcases ops with _ | ⟨a, _ | ⟨b, _ | ⟨c, rest⟩⟩⟩
    iterate 2 cases hreg
    · obtain ⟨v, hv⟩ := himm _ _ rfl
      simp only [registersOf] at hreg hregs
      split at hreg
      · next hsplit =>
        simp only [hsplit, forall_mem_cons] at hregs
        obtain ⟨⟨rd, hrd⟩, ⟨rs1, hrs1⟩, -⟩ := hregs
        simp [splitOffsetOrDie_of_ok hsplit, hrd, hrs1, parseI32, hv]
      · cases hreg
    · simp only [registersOf, forall_mem_cons] at hregs
      obtain ⟨⟨rd, hrd⟩, ⟨rs1, hrs1⟩, -⟩ := hregs
      obtain ⟨v, hv⟩ := himm _ c rfl
      simp [hrd, hrs1, parseI32, hv]
  | sys | fence =>
    rw [hkind] at hreg
    simp [registersOf] at hreg

end Words

/-! ## Lines -/

/-- Nothing but a register can keep the line from being encoded: its immediate is
read, and the word fits into the image. -/
def RestOk (st : AsState) (tok : List CStr) : Prop :=
  (∀ f s, immOperand tok = some (f, s) → ∃ v, rivAsParseImm st s = .ok v) ∧
    st.pc.toNat + 4 ≤ maxProg

/-- The token stands for a register in the lines of the assembler if and only if it
is a register's name, and then for that register. -/
structure AcceptedExactly (t : CStr) : Prop where
  /-- A line that is accepted carries the number of the register the token names. -/
  accepted : ∀ {tok st r pos}, (pos, t) ∈ registers tok → rvEncode tok st = .ok r →
    ∃ w st', r = some st' ∧ emitted st st' = leU32 w ∧
      (t, extract pos 5 w.toNat) ∈ registerNames
  /-- A name is taken wherever the rest of the line can be encoded. -/
  named : ∀ {tok st pos n}, (t, n) ∈ registerNames → (pos, t) ∈ registers tok → RestOk st tok →
    (∀ p ∈ registers tok, p.2 = t ∨ ∃ k, (p.2, k) ∈ registerNames) →
    ∃ st', rvEncode tok st = .ok (some st')

theorem rvEncode_registers {tok : List CStr} {st : AsState} {r : Option AsState}
    (hreg : (pos, t) ∈ registers tok) (h : rvEncode tok st = .ok r) :
    ∃ w st', r = some st' ∧ emitted st st' = leU32 w ∧
      rvRegLookup t = some (extract pos 5 w.toNat) := by
  obtain ⟨m, ops, ix, htok, hfind, hregs, -⟩ := registers_eq hreg
  rw [hregs] at hreg
  cases r with
  | none =>
    simp only [rvEncode, htok, hfind, Exec.ok_bind] at h
    obtain ⟨w, -, h⟩ := Exec.of_bind_eq_ok h
    obtain ⟨st1, -, h⟩ := Exec.of_bind_eq_ok h
    cases h
  | some st' =>
    obtain ⟨m', ops', ix', w, htok', hfind', hw, hemitted⟩ := rvEncode_eq_ok h
    cases htok.symm.trans htok'
    cases hfind.symm.trans hfind'
    exact ⟨w, st', rfl, hemitted, lookup_of_rvWord (mem_of_find?_eq_some hfind) hw hreg⟩

theorem exists_rvEncode {tok : List CStr} {st : AsState} (hreg : (pos, t) ∈ registers tok)
    (hrest : RestOk st tok) (hall : ∀ p ∈ registers tok, ∃ k, rvRegLookup p.2 = some k) :
    ∃ st', rvEncode tok st = .ok (some st') := by
  obtain ⟨m, ops, ix, htok, hfind, hregs, himm⟩ := registers_eq hreg
  rw [hregs] at hreg hall
  rw [RestOk, himm] at hrest
  obtain ⟨w, hw⟩ := exists_rvWord (m := m) hreg
    (fun p hp => (hall p hp).imp fun _ => rvParseReg_eq_ok_iff.mpr) hrest.1
  refine ⟨st.putAll (leU32 w), ?_⟩
  simp only [rvEncode, htok, hfind, hw, rivAsEmitU32_eq, Exec.ok_bind]
  rw [emitAll_of_fits hrest.2]
  rfl

theorem acceptedExactly_of_not_loose (ht : ¬Loose t) : AcceptedExactly t where
  accepted hreg h := by
    obtain ⟨w, st', hr, hw, hlookup⟩ := rvEncode_registers hreg h
    exact ⟨w, st', hr, hw, (rvRegLookup_eq_some_iff ht).mp hlookup⟩
  named hname hreg hrest hall := by
    refine exists_rvEncode hreg hrest fun p hp => ?_
    obtain hp | ⟨k, hk⟩ := hall p hp
    · exact ⟨_, hp ▸ rvRegLookup_of_name _ hname⟩
    · exact ⟨k, rvRegLookup_of_name _ hk⟩

theorem not_acceptedExactly_of_loose (ht : Loose t) : ¬AcceptedExactly t := by
  intro h
  have hregs : registers ["add".toList, t, "x0".toList, "x0".toList] =
      [(7, t), (15, "x0".toList), (20, "x0".toList)] := rfl
  have hreg : (7, t) ∈ registers ["add".toList, t, "x0".toList, "x0".toList] := by
    rw [hregs]
    exact mem_cons_self
  have hall : ∀ p ∈ registers ["add".toList, t, "x0".toList, "x0".toList],
      ∃ k, rvRegLookup p.2 = some k := by
    simp only [hregs, forall_mem_cons]
    exact ⟨rvRegLookup_of_loose ht, ⟨0, rfl⟩, ⟨0, rfl⟩, by simp⟩
  have hrest : RestOk emitState ["add".toList, t, "x0".toList, "x0".toList] :=
    ⟨nofun, by decide⟩
  obtain ⟨st', hst⟩ := exists_rvEncode hreg hrest hall
  obtain ⟨w, -, -, -, hname⟩ := h.accepted hreg hst
  exact ht.2 _ hname

/-- A token is accepted as a register exactly when it names one, unless it is loose. -/
theorem acceptedExactly_iff (t : CStr) : AcceptedExactly t ↔ ¬Loose t :=
  ⟨fun h ht => not_acceptedExactly_of_loose ht h, acceptedExactly_of_not_loose⟩

/-- `x1abc` is taken for `x1`. -/
theorem x1abc_accepted : ¬AcceptedExactly "x1abc".toList ∧ rvRegLookup "x1abc".toList = some 1 := by
  refine ⟨not_acceptedExactly_of_loose ⟨⟨'x', "1abc".toList, rfl, ?_⟩, fun n hn => ?_⟩, by decide⟩
  · decide
  · have hnames : ∀ name ∈ registerNames, name.1 ≠ "x1abc".toList := by decide +kernel
    exact hnames _ hn rfl

end Rivet.Riscv32
