import Rivet.Assembler.Passes

/-!
# The two passes agree on addresses

For a source assembled with the RV32 backend both passes enter every line with
the same cursor.  The first pass reads a symbol that is defined later as zero,
so the argument needs that the operands which decide how far a directive moves
the cursor are numbers or symbols of earlier lines.
-/

namespace Rivet.Assembler

open CLib Riscv32 X86 List Exec

variable {lines names toks : List CStr} {s s' st t t' : AsState} {k : ℕ} {tab : List Sym}

/-! ## What a source text says about its sizes -/

def equNames : List CStr → List CStr
  | t :: a :: _ :: _ => if lookupMnem directives t = some .equ then [a] else []
  | _ => []

def definedNames (line : CStr) : List CStr :=
  (lineParts line).1 ++ equNames (lineParts line).2

def sizeOperand : List CStr → Option CStr
  | t :: a :: _ =>
    match lookupMnem directives t with
    | some d => if d.isSize then some a else none
    | none => none
  | _ => none

/-- Whether a line is an `.arch` directive. -/
def usesArch (line : CStr) : Bool :=
  match (lineParts line).2 with
  | t :: _ => lookupMnem directives t = some .arch
  | [] => false

/-- Every size operand is a number or a symbol defined on an earlier line. -/
def SizesKnown (lines : List CStr) : Prop :=
  ∀ k, (h : k < lines.length) → ∀ a ∈ sizeOperand (lineParts lines[k]).2,
    isNumeric a = true ∨ a ∈ (lines.take k).flatMap definedNames

/-- The state in which a pass that starts in `st` enters line `k` of a text. -/
def enterLine (text : List Char) (st : AsState) (k : ℕ) : Except AsError AsState :=
  assembleLines ((fileLines text).take k) (startFile st)

/-! ## Runs over lines -/

theorem assembleLines_append (as bs : List CStr) (st : AsState) :
    assembleLines (as ++ bs) st = assembleLines as st >>= assembleLines bs := by
  simp only [assembleLines, foldlM_append]
  rfl

theorem assembleLines_advances {st' : AsState} (h : assembleLines lines st = .ok st') :
    st'.base = st.base ∧ st'.pass = st.pass ∧ st.symtab <+: st'.symtab ∧
      (st.pass = .emit → st'.symtab = st.symtab) := by
  refine foldlM_inv (I := fun s => s.base = st.base ∧ s.pass = st.pass ∧
    st.symtab <+: s.symtab ∧ (st.pass = .emit → s.symtab = st.symtab)) h
    ⟨rfl, rfl, prefix_rfl, fun _ => rfl⟩ ?_
  intro line _ s s' ⟨hbase, hpass, htab, hemit⟩ hline
  have hadv := processLine_advances hline
  exact ⟨hadv.base.trans hbase, hadv.pass.trans hpass, htab.trans hadv.symtab,
    fun hp => (hadv.symtab_emit (hpass.trans hp)).trans (hemit hp)⟩

theorem assembleLines_take {st' : AsState} (h : assembleLines lines st = .ok st') (k : ℕ) :
    ∃ s, assembleLines (lines.take k) st = .ok s ∧ assembleLines (lines.drop k) s = .ok st' := by
  rw [← take_append_drop k lines, assembleLines_append] at h
  exact of_bind_eq_ok h

theorem assembleLines_take_succ (hk : k < lines.length)
    (hs : assembleLines (lines.take k) st = .ok s) : assembleLines (lines.take (k + 1)) st =
      processLine lines[k] (nextLine s) := by
  rw [take_succ_eq_append_getElem hk, assembleLines_append, hs, ok_bind, assembleLines, foldlM_cons]
  simp

/-! ## One line in both passes -/

/-- The operand `a` has one value in both states, where it has one at all. -/
def ParseAgree (s t : AsState) (a : CStr) : Prop :=
  ∀ v w, rivAsParseImm s a = .ok v → rivAsParseImm t a = .ok w → w = v

theorem processDirective_equ_pc {ops : List CStr} (h : processDirective .equ ops s = .ok s') :
    s'.pc = s.pc := by
  obtain ⟨a, b, rest, -, ⟨-, rfl⟩ | ⟨v, -, -, rfl⟩⟩ := processDirective_equ h
  · rfl
  · rfl

theorem processDirective_pc {d : Directive} {ops : List CStr}
    (hs : processDirective d ops s = .ok s') (ht : processDirective d ops t = .ok t')
    (hpc : t.pc = s.pc) (hbase : t.base = s.base)
    (hsize : ∀ a rest, ops = a :: rest → d.isSize = true → ParseAgree s t a) : t'.pc = s'.pc := by
  cases hsz : d.isSize with
  | false =>
    by_cases hequ : d = .equ
    · grind [processDirective_equ_pc]
    by_cases harch : d = .arch
    · grind [processDirective_arch]
    have horg : d ≠ .org := by
      rintro rfl
      cases hsz
    obtain ⟨bs, hbs, hlen⟩ := processDirective_emits horg hequ harch hs
    obtain ⟨bs', hbs', hlen'⟩ := processDirective_emits horg hequ harch ht
    rw [(emitAll_sameContext hbs).2, (emitAll_sameContext hbs').2, hlen hsz, hlen' hsz, hpc]
  | true =>
    match ops with
    | [] =>
      -- each of them needs an operand
      cases d <;> first | (cases hsz; done) | cases hs
    | a :: rest =>
      have hagree := hsize a rest rfl hsz
      cases d with
      | org =>
        obtain ⟨v, hv, hs⟩ := of_bind_eq_ok hs
        obtain ⟨w, hw, ht⟩ := of_bind_eq_ok ht
        rw [(setOrg_eq_ok hs).2, (setOrg_eq_ok ht).2, hagree v w hv hw, hbase]
      | zero =>
        obtain ⟨v, hv, hs⟩ := of_bind_eq_ok hs
        obtain ⟨w, hw, ht⟩ := of_bind_eq_ok ht
        obtain ⟨fill, -, hs⟩ := of_bind_eq_ok hs
        obtain ⟨fill', -, ht⟩ := of_bind_eq_ok ht
        simp [(emitAll_sameContext hs).2, (emitAll_sameContext ht).2, hagree v w hv hw, hpc]
      | align | p2align =>
        obtain ⟨v, hv, hs⟩ := of_bind_eq_ok hs
        obtain ⟨w, hw, ht⟩ := of_bind_eq_ok ht
        obtain rfl := hagree v w hv hw
        exact emitWhile_pc hs ht hpc
      | _ => cases hsz

theorem processTokens_pc (hs : processTokens toks s = .ok s') (ht : processTokens toks t = .ok t')
    (hpc : t.pc = s.pc) (hbase : t.base = s.base) (harchs : s.arch = .riscv32)
    (harcht : t.arch = .riscv32) (hsize : ∀ a ∈ sizeOperand toks, ParseAgree s t a) :
    t'.pc = s'.pc := by
  match toks with
  | [] =>
    cases hs
    cases ht
    exact hpc
  | tok :: ops =>
    rcases processTokens_cases hs with ⟨hdot, d, hd, hs⟩ | ⟨hdot, hs⟩
    · rcases processTokens_cases ht with ⟨-, d', hd', ht⟩ | ⟨hdot', -⟩
      · obtain rfl : d' = d := Option.some.inj (hd'.symm.trans hd)
        refine processDirective_pc hs ht hpc hbase fun a rest hops hsz => hsize a ?_
        grind [sizeOperand]
      · exact absurd hdot hdot'
    · rcases processTokens_cases ht with ⟨hdot', -⟩ | ⟨-, ht⟩
      · exact absurd hdot' hdot
      · obtain ⟨bs, hbs, hlen⟩ := encodeLine_emits hs
        obtain ⟨bs', hbs', hlen'⟩ := encodeLine_emits ht
        rw [(emitAll_sameContext hbs).2, (emitAll_sameContext hbs').2, hlen harchs,
          hlen' harcht, hpc]

theorem processTokens_arch (h : processTokens toks s = .ok s')
    (harch : ∀ t ops, toks = t :: ops → lookupMnem directives t ≠ some .arch) :
    s'.arch = s.arch := by
  match toks with
  | [] =>
    cases h
    rfl
  | t :: ops =>
    rcases processTokens_cases h with ⟨-, d, hd, h⟩ | ⟨-, h⟩
    · have hne : d ≠ .arch := fun hd' => harch t ops rfl (hd' ▸ hd)
      by_cases hequ : d = .equ
      · subst hequ
        obtain ⟨a, b, rest, -, ⟨-, rfl⟩ | ⟨v, -, -, rfl⟩⟩ := processDirective_equ h
        · rfl
        · rfl
      · exact (processDirective_sameContext hequ hne h).arch
    · obtain ⟨bs, hbs, -⟩ := encodeLine_emits h
      exact (emitAll_sameContext hbs).1.arch

theorem head_of_directive {t : CStr} {d : Directive} (h : lookupMnem directives t = some d) :
    t.head? = some '.' := by
  unfold lookupMnem at h
  rw [Option.map_eq_some_iff] at h
  have hdot : ∀ row ∈ directives, row.1.toList.head? = some '.' := by decide
  grind

theorem processLine_arch {line : CStr} (h : processLine line s = .ok s')
    (harch : usesArch line = false) : s'.arch = s.arch := by
  obtain ⟨s1, hlabels, htok⟩ := processLine_eq_ok h
  have hnoarch : ∀ t ops, (lineParts line).2 = t :: ops →
      lookupMnem directives t ≠ some .arch := by grind [usesArch, of_decide_eq_false]
  exact (processTokens_arch htok hnoarch).trans hlabels.arch

theorem assembleLines_arch (h : assembleLines lines s = .ok s')
    (harch : ∀ line ∈ lines, usesArch line = false) : s'.arch = s.arch := by
  refine foldlM_inv (I := fun s' => s'.arch = s.arch) h rfl ?_
  intro line hline s1 s2 hs1 hs2
  exact (processLine_arch hs2 (harch line hline)).trans hs1

theorem processTokens_equNames (hpass : s.pass = .collect) (h : processTokens toks s = .ok s') :
    ∀ n ∈ equNames toks, n.length < 64 → ∃ v, symValue s'.symtab n = some v := by
  intro n hn hlen
  match toks with
  | [] => exact absurd hn not_mem_nil
  | [_] => exact absurd hn not_mem_nil
  | [_, _] => exact absurd hn not_mem_nil
  | t :: a :: b :: rest =>
    rw [equNames] at hn
    split at hn
    · next hequ =>
      rw [mem_singleton] at hn
      subst hn
      rcases processTokens_cases h with ⟨-, d, hd, h⟩ | ⟨hdot, -⟩
      · obtain rfl : d = .equ := Option.some.inj (hd.symm.trans hequ)
        obtain ⟨a', b', rest', hops, ⟨hemit, -⟩ | ⟨v, -, hfind, rfl⟩⟩ :=
          processDirective_equ h
        · rw [hpass] at hemit
          cases hemit
        · cases hops
          exact ⟨v, symValue_new hfind hlen⟩
      · exact absurd (head_of_directive hequ) hdot
    · exact absurd hn not_mem_nil

/-- What relates the states in which the passes enter a line: `tab` is the
table after the first pass, `names` what the lines so far define. -/
structure InStep (tab : List Sym) (names : List CStr) (s t : AsState) : Prop where
  pc : t.pc = s.pc
  base : t.base = s.base
  collect : s.pass = .collect
  emit : t.pass = .emit
  archS : s.arch = .riscv32
  archT : t.arch = .riscv32
  prefixS : s.symtab <+: tab
  symtabT : t.symtab = tab
  known : ∀ n ∈ names, n.length < 64 → ∃ v, symValue s.symtab n = some v

theorem InStep.parseAgree (hst : InStep tab names s t) {a : CStr}
    (ha : isNumeric a = true ∨ a ∈ names) : ParseAgree s t a := by
  intro v w hv hw
  cases hnum : isNumeric a with
  | true => grind [rivAsParseImm_numeric, Except.ok.inj]
  | false =>
    have hmem : a ∈ names := ha.resolve_left (by rw [hnum]; decide)
    have hne : a ≠ [] := by
      rintro rfl
      cases hv
    rw [rivAsParseImm_symbol hne hnum] at hv hw
    rw [hst.symtabT, if_neg (by rw [hst.emit]; decide)] at hw
    cases hval : symValue tab a with
    | none =>
      rw [hval] at hw
      cases hw
    | some x =>
      obtain ⟨y, hy⟩ := hst.known a hmem (symValue_length_lt hval)
      have hxy := symValue_mono hst.prefixS hy
      grind

theorem InStep.processLine {line : CStr} (hst : InStep tab names s t)
    (hs : processLine line s = .ok s') (ht : processLine line t = .ok t')
    (hpre : s'.symtab <+: tab) (harch : usesArch line = false)
    (hsize : ∀ a ∈ sizeOperand (lineParts line).2, isNumeric a = true ∨ a ∈ names) :
    InStep tab (names ++ definedNames line) s' t' := by
  have hadvS := processLine_advances hs
  have hadvT := processLine_advances ht
  obtain ⟨s1, hlabelsS, htokS⟩ := processLine_eq_ok hs
  obtain ⟨t1, hlabelsT, htokT⟩ := processLine_eq_ok ht
  have hmid : InStep tab names s1 t1 :=
    { pc := by rw [hlabelsS.pc, hlabelsT.pc, hst.pc]
      base := by rw [hlabelsS.advances.base, hlabelsT.advances.base, hst.base]
      collect := hlabelsS.advances.pass.trans hst.collect
      emit := hlabelsT.advances.pass.trans hst.emit
      archS := hlabelsS.arch.trans hst.archS
      archT := hlabelsT.arch.trans hst.archT
      prefixS := (processTokens_advances htokS).symtab.trans hpre
      symtabT := (hlabelsT.advances.symtab_emit hst.emit).trans hst.symtabT
      known := fun n hn hlen => by
        obtain ⟨v, hv⟩ := hst.known n hn hlen
        exact ⟨v, symValue_mono hlabelsS.advances.symtab hv⟩ }
  exact
    { pc := processTokens_pc htokS htokT hmid.pc hmid.base hmid.archS hmid.archT
        fun a ha => hmid.parseAgree (hsize a ha)
      base := by rw [hadvS.base, hadvT.base, hst.base]
      collect := hadvS.pass.trans hst.collect
      emit := hadvT.pass.trans hst.emit
      archS := (processLine_arch hs harch).trans hst.archS
      archT := (processLine_arch ht harch).trans hst.archT
      prefixS := hpre
      symtabT := (hadvT.symtab_emit hst.emit).trans hst.symtabT
      known := fun n hn hlen => by
        rcases mem_append.mp hn with hn | hn
        · obtain ⟨v, hv⟩ := hst.known n hn hlen
          exact ⟨v, symValue_mono hadvS.symtab hv⟩
        rcases mem_append.mp hn with hn | hn
        · exact ⟨_, symValue_mono (processTokens_advances htokS).symtab
            (hlabelsS.value hst.collect n hn hlen)⟩
        · exact processTokens_equNames hmid.collect htokS n hn hlen }

theorem InStep.nextLine (hst : InStep tab names s t) : InStep tab names (nextLine s) (nextLine t) :=
  ⟨hst.pc, hst.base, hst.collect, hst.emit, hst.archS, hst.archT, hst.prefixS,
    hst.symtabT, hst.known⟩

/-! ## Whole texts -/

section Runs

variable {lines : List CStr} {s₀ st₀ t₀ st₁ : AsState}

theorem inStep_take (hs : assembleLines lines s₀ = .ok st₀)
    (ht : assembleLines lines t₀ = .ok st₁) (hstart : InStep st₀.symtab [] s₀ t₀)
    (harch : ∀ line ∈ lines, usesArch line = false) (hsizes : SizesKnown lines)
    (hk : k ≤ lines.length) : ∃ s t, assembleLines (lines.take k) s₀ = .ok s ∧
      assembleLines (lines.take k) t₀ = .ok t ∧
      InStep st₀.symtab ((lines.take k).flatMap definedNames) s t := by
  induction k with
  | zero =>
    exact ⟨s₀, t₀, rfl, rfl, hstart⟩
  | succ k ih =>
    have hlt : k < lines.length := hk
    obtain ⟨s, t, hsk, htk, hst⟩ := ih (Nat.le_of_lt hlt)
    obtain ⟨s', hsk', hrest⟩ := assembleLines_take hs (k + 1)
    obtain ⟨t', htk', -⟩ := assembleLines_take ht (k + 1)
    refine ⟨s', t', hsk', htk', ?_⟩
    rw [assembleLines_take_succ hlt hsk] at hsk'
    rw [assembleLines_take_succ hlt htk] at htk'
    rw [take_succ_eq_append_getElem hlt, flatMap_append, flatMap_singleton]
    exact hst.nextLine.processLine hsk' htk' (assembleLines_advances hrest).2.2.1
      (harch _ (getElem_mem hlt)) (hsizes k hlt)

theorem symValue_label (hs : assembleLines lines s₀ = .ok st₀) (hcollect : s₀.pass = .collect)
    (hk : k < lines.length) (hsk : assembleLines (lines.take k) s₀ = .ok s) {name : CStr}
    (hname : name ∈ (lineParts lines[k]).1) (hlen : name.length < 64) :
    symValue st₀.symtab name = some (s.pc + s.base) := by
  obtain ⟨s', hsk', hrest⟩ := assembleLines_take hs (k + 1)
  rw [assembleLines_take_succ hk hsk] at hsk'
  obtain ⟨s1, hlabels, htok⟩ := processLine_eq_ok hsk'
  have hpass : (nextLine s).pass = .collect :=
    (assembleLines_advances hsk).2.1.trans hcollect
  have hvalue : symValue s1.symtab name = some (s.pc + s.base) :=
    hlabels.value hpass name hname hlen
  exact symValue_mono (assembleLines_advances hrest).2.2.1
    (symValue_mono (processTokens_advances htok).symtab hvalue)

end Runs

theorem rivAsParseImm_emit {name : CStr} {v : RivU32} (hpass : st.pass = .emit) (hne : name ≠ [])
    (hnum : isNumeric name = false) (hvalue : name.length < 64 → symValue st.symtab name = some v) :
    (name.length < 64 → rivAsParseImm st name = .ok (v.toNat : ℤ)) ∧
      ∀ w, rivAsParseImm st name = .ok w → w = (v.toNat : ℤ) := by
  rw [rivAsParseImm_symbol hne hnum]
  by_cases hlen : name.length < 64
  · simp_all
  have hnone : symValue st.symtab name = none := by
    rw [Option.eq_none_iff_forall_ne_some]
    intro x hx
    exact hlen (symValue_length_lt hx)
  rw [hnone, if_neg (by rw [hpass]; decide)]
  exact ⟨fun h => absurd h hlen, fun w hw => nomatch hw⟩

/-- If neither pass rejects a text assembled for RV32 whose sizes are known,
both passes enter every line with the same cursor, and wherever the second
pass reads a label it reads the address it has itself at the label's line. -/
theorem passes_agree {base : RivU32} {text : List Char} {st₀ st₁ : AsState}
    (h : assemble .riscv32 base text = .ok (st₀, st₁))
    (harch : ∀ line ∈ fileLines text, usesArch line = false)
    (hsizes : SizesKnown (fileLines text)) (k : ℕ) (hk : k < (fileLines text).length) :
    ∃ s t, enterLine text (initState .riscv32 base) k = .ok s ∧
      enterLine text { st₀ with pass := .emit } k = .ok t ∧ t.pc = s.pc ∧
      ∀ name ∈ (lineParts (fileLines text)[k]).1, isNumeric name = false →
        ∀ j u₀ u, enterLine text { st₀ with pass := .emit } j = .ok u₀ →
          Advances u₀ u →
          (name.length < 64 →
            rivAsParseImm u name = .ok ((base + t.pc).toNat : ℤ)) ∧
          ∀ v, rivAsParseImm u name = .ok v → v = ((base + t.pc).toNat : ℤ) := by
  obtain ⟨st₀', hpass₀, h⟩ := Exec.of_bind_eq_ok h
  obtain ⟨st₁', hpass₁, h⟩ := Exec.of_bind_eq_ok h
  cases h
  have hframe := assembleLines_advances hpass₀
  have hstart : InStep st₀.symtab [] (startFile (initState .riscv32 base))
      (startFile { st₀ with pass := .emit }) :=
    { pc := rfl
      base := hframe.1
      collect := rfl
      emit := rfl
      archS := rfl
      archT := assembleLines_arch hpass₀ harch
      prefixS := hframe.2.2.1
      symtabT := rfl
      known := fun n hn => absurd hn List.not_mem_nil }
  obtain ⟨s, t, hs, ht, hst⟩ := inStep_take hpass₀ hpass₁ hstart harch hsizes
    (Nat.le_of_lt hk)
  refine ⟨s, t, hs, ht, hst.pc, ?_⟩
  intro name hname hnum j u₀ u hu₀ hadv
  have hlabel : name.length < 64 → symValue st₀.symtab name = some (base + t.pc) := by
    intro hlen
    have hvalue := symValue_label hpass₀ rfl hk hs hname hlen
    rw [hst.pc, BitVec.add_comm, hvalue, (assembleLines_advances hs).1]
    rfl
  obtain ⟨-, hpass, -, htab⟩ := assembleLines_advances hu₀
  refine rivAsParseImm_emit (hadv.pass.trans hpass) (lineParts_ne_nil name hname) hnum ?_
  rw [hadv.symtab_emit hpass, htab rfl]
  exact hlabel

/-- A jump over an aligned word: the label `end` is read before it is defined. -/
theorem passes_agree_forward_jump : ∃ st₀ st₁, assemble .riscv32 0x1000
        "j end\n.align 8\nstart: .word start\nend: nop\n".toList = .ok (st₀, st₁) ∧ ∃ s t,
        enterLine "j end\n.align 8\nstart: .word start\nend: nop\n".toList
          (initState .riscv32 0x1000) 3 = .ok s ∧
        enterLine "j end\n.align 8\nstart: .word start\nend: nop\n".toList
          { st₀ with pass := .emit } 3 = .ok t ∧ t.pc = s.pc := by
  have hok : (assemble .riscv32 0x1000
      "j end\n.align 8\nstart: .word start\nend: nop\n".toList).toBool = true := by
    decide +kernel
  obtain ⟨⟨st₀, st₁⟩, h⟩ := Exec.exists_ok_of_toBool hok
  have harch : ∀ line ∈ fileLines "j end\n.align 8\nstart: .word start\nend: nop\n".toList,
      usesArch line = false := by decide +kernel
  have hsizes : SizesKnown
      (fileLines "j end\n.align 8\nstart: .word start\nend: nop\n".toList) := by
    unfold SizesKnown
    decide +kernel
  obtain ⟨s, t, hs, ht, hpc, -⟩ := passes_agree h harch hsizes 3 (by decide +kernel)
  exact ⟨st₀, st₁, h, s, t, hs, ht, hpc⟩

end Rivet.Assembler
