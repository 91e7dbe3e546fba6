import Rivet.Assembler.TwoPass

/-!
# The values of constants

A constant directive evaluates its operand once, in the first pass, with the
symbols met so far, and stores the low thirty-two bits.  The second pass reads
what was stored.  So a constant has the value that its operand has under the
complete table when the operand is a number that fits, or a symbol that was
already defined; a later symbol was read as zero.
-/

namespace Rivet.Assembler

open CLib Riscv32 X86

variable {s s' st st' : AsState} {lines toks : List CStr} {p : CStr × CStr}

def equOf : List CStr → Option (CStr × CStr)
  | t :: a :: b :: _ => if lookupMnem directives t = some .equ then some (a, b) else none
  | _ => none

/-- The names defined before the directive of line `k`: those of earlier lines
and the labels of the line itself. -/
def namesBefore (lines : List CStr) (k : ℕ) : List CStr :=
  (lines.take k).flatMap definedNames ++ (lineParts (lines.getD k [])).1

/-- Every constant that the second pass can read has the value that its operand
has under the table the first pass leaves in `st`. -/
def ConstantsFinal (lines : List CStr) (st : AsState) : Prop :=
  ∀ k, (h : k < lines.length) → ∀ p ∈ equOf (lineParts lines[k]).2, ∀ v,
    symValue st.symtab p.1 = some v →
      rivAsParseImm { st with pass := .emit } p.2 = .ok (v.toNat : ℤ)

/-- The operand of a constant on line `k` is settled when the line is reached: a
number of thirty-two bits, or a symbol defined before.  A symbol that is defined
later is read as zero, which is right if that is its value. -/
def Settled (lines : List CStr) (tab : List Sym) (k : ℕ) (b : CStr) : Prop :=
  if isNumeric b then 0 ≤ (strtoll b 0).1 ∧ (strtoll b 0).1 < 2 ^ 32
  else b ∈ (namesBefore lines k).map (List.take 63) ∨ symValue tab b = some 0

/-- The operands of all constants whose name fits its entry are settled. -/
def ConstantsSettled (lines : List CStr) (st : AsState) : Prop :=
  ∀ k, (h : k < lines.length) → ∀ p ∈ equOf (lineParts lines[k]).2,
    p.1.length < 64 → Settled lines st.symtab k p.2

/-! ## The names in the table -/

theorem rivAsSymSet_names {n : CStr} {v : RivU32} (hpass : st.pass = .collect)
    (h : rivAsSymSet n v st = .ok st') :
    st'.symtab.map Sym.name = st.symtab.map Sym.name ++ [n.take 63] := by
  obtain ⟨-, rfl⟩ := rivAsSymSet_collect hpass h
  rw [AsState.addSyms, List.map_append]
  rfl

theorem processLabels_names {rest : List CStr} (hpass : st.pass = .collect)
    (h : processLabels toks st = .ok (st', rest)) : st'.symtab.map Sym.name =
      st.symtab.map Sym.name ++ (stripLabels toks).1.map (List.take 63) := by
  induction toks generalizing st with
  | nil =>
    cases h
    rw [stripLabels, List.map_nil, List.append_nil]
  | cons t ts ih =>
    rw [processLabels] at h
    rw [stripLabels]
    cases hlabel : labelOf t with
    | none => simp_all
    | some name =>
      simp only [hlabel, if_pos hpass] at h ⊢
      obtain ⟨st1, hset, h⟩ := Exec.of_bind_eq_ok h
      have hnames := rivAsSymSet_names hpass hset
      obtain ⟨-, rfl⟩ := rivAsSymSet_collect hpass hset
      have hpass1 : (st.addSyms [Sym.new name (st.pc + st.base)]).pass = .collect := hpass
      simp [ih hpass1 h, hnames]

theorem processTokens_equ (hpass : s.pass = .collect) (hequ : equOf toks = some p)
    (h : processTokens toks s = .ok s') :
    ∃ v, rivAsParseImm s p.2 = .ok v ∧ rivAsSymSet p.1 (BitVec.ofInt 32 v) s = .ok s' := by
  match toks with
  | [] => cases hequ
  | [_] => cases hequ
  | [_, _] => cases hequ
  | t :: a :: b :: rest =>
    rw [equOf] at hequ
    split at hequ
    · next hdir =>
      cases hequ
      rcases processTokens_cases h with ⟨-, d, hd, h⟩ | ⟨hdot, -⟩
      · simp_all [processDirective, Exec.of_bind_eq_ok]
      · exact absurd (head_of_directive hdir) hdot
    · cases hequ

theorem equNames_eq (toks : List CStr) :
    equNames toks = (equOf toks).toList.map Prod.fst := by
  match toks with
  | [] => rfl
  | [_] => rfl
  | [_, _] => rfl
  | t :: a :: b :: rest =>
    rw [equNames, equOf]
    split <;> rfl

theorem processTokens_symtab (hequ : equOf toks = none) (h : processTokens toks s = .ok s') :
    s'.symtab = s.symtab := by
  match toks with
  | [] =>
    cases h
    rfl
  | t :: ops =>
    rcases processTokens_cases h with ⟨-, d, hd, h⟩ | ⟨-, h⟩
    · by_cases hd' : d = .equ
      · grind [equOf, processDirective_equ]
      · by_cases harch : d = .arch
        · grind [processDirective_arch]
        · exact (processDirective_sameContext hd' harch h).symtab
    · obtain ⟨bs, hbs, -⟩ := encodeLine_emits h
      exact (emitAll_sameContext hbs).1.symtab

theorem processTokens_names (hpass : s.pass = .collect) (h : processTokens toks s = .ok s') :
    s'.symtab.map Sym.name = s.symtab.map Sym.name ++ (equNames toks).map (List.take 63) := by
  rw [equNames_eq]
  cases hequ : equOf toks with
  | none => simp [processTokens_symtab hequ h]
  | some p =>
    obtain ⟨v, -, hset⟩ := processTokens_equ hpass hequ h
    exact rivAsSymSet_names hpass hset

theorem processLine_labels {line : CStr} (hpass : st.pass = .collect)
    (h : processLine line st = .ok st') : ∃ st1, st1.pass = .collect ∧ st1.symtab.map Sym.name =
        st.symtab.map Sym.name ++ (lineParts line).1.map (List.take 63) ∧
      processTokens (lineParts line).2 st1 = .ok st' := by
  obtain ⟨toks, htoks, h⟩ := Exec.of_bind_eq_ok h
  obtain ⟨⟨st1, rest⟩, hlabels, h⟩ := Exec.of_bind_eq_ok h
  obtain ⟨hadv, -, -, rfl⟩ := processLabels_advances hlabels
  have hparts : lineParts line = stripLabels toks := by rw [lineParts, htoks]
  rw [hparts]
  exact ⟨st1, hadv.pass.trans hpass, processLabels_names hpass hlabels, h⟩

theorem processLine_names {line : CStr} (hpass : st.pass = .collect)
    (h : processLine line st = .ok st') : st'.symtab.map Sym.name =
      st.symtab.map Sym.name ++ (definedNames line).map (List.take 63) := by
  obtain ⟨st1, hpass1, hnames, htokens⟩ := processLine_labels hpass h
  grind [processTokens_names, definedNames]

theorem assembleLines_names (hpass : st.pass = .collect) (h : assembleLines lines st = .ok st') :
    st'.symtab.map Sym.name =
      st.symtab.map Sym.name ++ (lines.flatMap definedNames).map (List.take 63) := by
  induction lines generalizing st with
  | nil =>
    cases h
    exact (List.append_nil _).symm
  | cons line lines ih =>
    obtain ⟨st1, hline, h⟩ := Exec.of_bind_eq_ok h
    have hpass1 : st1.pass = .collect := (processLine_advances hline).pass.trans hpass
    have hnext : (nextLine st).pass = .collect := hpass
    rw [ih hpass1 h, processLine_names hnext hline, List.flatMap_cons, List.map_append,
      List.append_assoc]
    rfl

theorem symValue_ne_none_iff {tab : List Sym} {n : CStr} :
    symValue tab n ≠ none ↔ n ∈ tab.map Sym.name := by simp [symValue, List.find?_eq_none]

/-! ## One constant -/

/-- What the first pass does at a constant directive: its operand is evaluated in
a table that holds the names defined before. -/
structure EquStep (lines : List CStr) (k : ℕ) (p : CStr × CStr) (st₀ : AsState)
    (s : AsState) (v : ℤ) : Prop where
  collect : s.pass = .collect
  names : s.symtab.map Sym.name = (namesBefore lines k).map (List.take 63)
  operand : rivAsParseImm s p.2 = .ok v
  grows : s.symtab <+: st₀.symtab
  stored : p.1.length < 64 → symValue st₀.symtab p.1 = some (BitVec.ofInt 32 v)

theorem equStep {s0 st0 : AsState} (hpass : s0.pass = .collect) (hempty : s0.symtab = [])
    (h : assembleLines lines s0 = .ok st0) {k : ℕ} (hk : k < lines.length)
    (hp : equOf (lineParts lines[k]).2 = some p) : ∃ s v, EquStep lines k p st0 s v := by
  obtain ⟨sk, hsk, -⟩ := assembleLines_take h k
  obtain ⟨s', hsk', hrest⟩ := assembleLines_take h (k + 1)
  rw [assembleLines_take_succ hk hsk] at hsk'
  have hpassk : (nextLine sk).pass = .collect := (assembleLines_advances hsk).2.1.trans hpass
  obtain ⟨s, hpass1, hnames, htokens⟩ := processLine_labels hpassk hsk'
  obtain ⟨v, hv, hset⟩ := processTokens_equ hpass1 hp htokens
  have hgrows := (assembleLines_advances hrest).2.2.1
  obtain ⟨hfind, rfl⟩ := rivAsSymSet_collect hpass1 hset
  refine ⟨s, v, hpass1, ?_, hv, ?_, ?_⟩
  · have hbefore : (nextLine sk).symtab.map Sym.name =
        ((lines.take k).flatMap definedNames).map (List.take 63) := by
      have hlines := assembleLines_names hpass hsk
      rwa [hempty, List.map_nil, List.nil_append] at hlines
    simp_all [namesBefore, Option.getD_some]
  · exact List.IsPrefix.trans ⟨_, rfl⟩ hgrows
  · intro hlen
    exact symValue_mono hgrows (symValue_new hfind hlen)

theorem EquStep.final_iff {k : ℕ} {st0 : AsState} {v : ℤ} (hstep : EquStep lines k p st0 s v) :
    rivAsParseImm { st0 with pass := .emit } p.2 =
        .ok (((BitVec.ofInt 32 v).toNat : ℕ) : ℤ) ↔
      Settled lines st0.symtab k p.2 := by
  have hoperand := hstep.operand
  have hne : p.2 ≠ [] := by
    intro hnil
    rw [hnil] at hoperand
    cases hoperand
  unfold Settled
  cases hnum : isNumeric p.2 with
  | true =>
    have hvalue : (strtoll p.2 0).1 = v := by
      rw [rivAsParseImm, if_neg hne, if_pos hnum] at hoperand
      split at hoperand
      · grind
      · cases hoperand
    grind [rivAsParseImm_numeric, Except.ok.injEq, BitVec.toNat_ofInt, Int.toNat_of_nonneg]
  | false =>
    rw [if_neg (by decide), ← hstep.names, ← symValue_ne_none_iff]
    rw [rivAsParseImm_symbol hne hnum] at hoperand ⊢
    cases hs : symValue s.symtab p.2 with
    | some u =>
      rw [hs] at hoperand
      cases hoperand
      rw [symValue_mono hstep.grows hs]
      simp
    | none =>
      rw [hs, if_pos hstep.collect] at hoperand
      cases hoperand
      -- the operand was read as zero, so the final value has to be zero
      cases hfinal : symValue st0.symtab p.2 with
      | none => simp [rivAsDie]
      | some u => simp [BitVec.toNat_eq]

/-- In a text that both passes accept the constants have their final values
exactly when their operands are settled where they are defined. -/
theorem constants_final_iff {arch : Arch} {base : RivU32} {text : List Char}
    {st₀ st₁ : AsState} (h : assemble arch base text = .ok (st₀, st₁)) :
    ConstantsFinal (fileLines text) st₀ ↔ ConstantsSettled (fileLines text) st₀ := by
  obtain ⟨st₀', hpass₀, h⟩ := Exec.of_bind_eq_ok h
  obtain ⟨st₁', -, h⟩ := Exec.of_bind_eq_ok h
  cases h
  constructor
  · intro hfinal k hk p hp hlen
    obtain ⟨s, v, hstep⟩ := equStep rfl rfl hpass₀ hk hp
    exact hstep.final_iff.mp (hfinal k hk p hp _ (hstep.stored hlen))
  · intro hsettled k hk p hp v hv
    have hlen := symValue_length_lt hv
    obtain ⟨s, w, hstep⟩ := equStep rfl rfl hpass₀ hk hp
    obtain rfl : v = BitVec.ofInt 32 w := Option.some.inj (hv.symm.trans (hstep.stored hlen))
    exact hstep.final_iff.mpr (hsettled k hk p hp hlen)

/-- A constant that names a label above it. -/
theorem constants_final_label :
    ∃ st₀ st₁, assemble .riscv32 0x1000 "start: nop\n.equ N, start\n.word N\n".toList =
        .ok (st₀, st₁) ∧
      ConstantsFinal (fileLines "start: nop\n.equ N, start\n.word N\n".toList) st₀ := by
  have hok : (assemble .riscv32 0x1000
      "start: nop\n.equ N, start\n.word N\n".toList).toBool = true := by decide +kernel
  obtain ⟨⟨st₀, st₁⟩, h⟩ := Exec.exists_ok_of_toBool hok
  refine ⟨st₀, st₁, h, (constants_final_iff h).mpr ?_⟩
  have hbefore : ∀ k, (hk : k < (fileLines "start: nop\n.equ N, start\n.word N\n".toList).length) →
      ∀ p ∈ equOf (lineParts (fileLines "start: nop\n.equ N, start\n.word N\n".toList)[k]).2,
      isNumeric p.2 = false ∧ p.2 ∈ (namesBefore (fileLines
        "start: nop\n.equ N, start\n.word N\n".toList) k).map (List.take 63) := by
    decide +kernel
  intro k hk p hp _
  obtain ⟨hnum, hmem⟩ := hbefore k hk p hp
  rw [Settled, if_neg (by rw [hnum]; decide)]
  exact Or.inl hmem

/-- A constant that names a constant below it keeps the zero it was read as. -/
theorem constants_final_forward :
    ∃ st₀ st₁, assemble .riscv32 0 ".equ A, B\n.equ B, 5\n.word A\n".toList = .ok (st₀, st₁) ∧
      symValue st₀.symtab "A".toList = some 0 ∧ symValue st₀.symtab "B".toList = some 5 ∧
      st₁.maxPc = 4 ∧ st₁.prog 0 = 0 ∧
      ¬ ConstantsFinal (fileLines ".equ A, B\n.equ B, 5\n.word A\n".toList) st₀ := by
  have hrun : (assemble .riscv32 0 ".equ A, B\n.equ B, 5\n.word A\n".toList).toOption.map
      (fun p => (symValue p.1.symtab "A".toList, symValue p.1.symtab "B".toList,
        p.2.maxPc, p.2.prog 0)) = some (some 0, some 5, 4, 0) := by decide +kernel
  cases h : assemble .riscv32 0 ".equ A, B\n.equ B, 5\n.word A\n".toList with
  | error e =>
    rw [h] at hrun
    cases hrun
  | ok p =>
    rw [h] at hrun
    simp only [Except.toOption, Option.map_some, Option.some.injEq, Prod.mk.injEq] at hrun
    obtain ⟨hA, hB, hmax, hprog⟩ := hrun
    refine ⟨p.1, p.2, rfl, hA, hB, hmax, hprog, ?_⟩
    intro hfinal
    have hread := hfinal 0 (by decide +kernel) ("A".toList, "B".toList) (by decide +kernel) 0 hA
    have htab : symValue { p.1 with pass := .emit }.symtab "B".toList = some 5 := hB
    rw [rivAsParseImm_symbol (by decide) (by decide), htab] at hread
    cases hread

end Rivet.Assembler
