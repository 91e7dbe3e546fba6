import Rivet.Assembler.Frontend
import Rivet.X86.Insn

/-!
# What a line changes

A line moves the cursor, stores bytes and, in the first pass only, adds symbols
at the end of the table.  Its labels, and the tokens that remain after them, do
not depend on the state.
-/

namespace Rivet.Assembler

open CLib Riscv32 X86 List Exec

variable {st st' : AsState} {ops toks : List CStr} {line : CStr}

/-! ## Emission -/

theorem emitAll_sameContext {bs : List RivU8} (h : emitAll bs st = .ok st') :
    SameContext st st' ∧ st'.pc = st.pc + BitVec.ofNat 32 bs.length := by
  obtain ⟨rfl, -⟩ := emitAll_eq_ok h
  exact ⟨putAll_sameContext bs st, putAll_pc bs st⟩

def EmitsBytes (size : ℕ) (emit : ℤ → AsState → Except AsError AsState) : Prop :=
  ∀ v, ∃ bs : List RivU8, bs.length = size ∧ ∀ st, emit v st = emitAll bs st

theorem emitsBytes_u8 : EmitsBytes 1 fun v => rivAsEmitU8 (BitVec.ofInt 8 v) :=
  fun v => ⟨[BitVec.ofInt 8 v], rfl, fun st => (emitAll_singleton _ st).symm⟩

theorem emitsBytes_u16 : EmitsBytes 2 fun v => rivAsEmitU16 (BitVec.ofInt 16 v) := by
  intro v
  refine ⟨[(BitVec.ofInt 16 v &&& 0xFF).setWidth 8,
    ((BitVec.ofInt 16 v >>> 8) &&& 0xFF).setWidth 8], rfl, fun st => ?_⟩
  simp [rivAsEmitU16, emitAll, bind_pure]

theorem emitsBytes_u32 : EmitsBytes 4 fun v => rivAsEmitU32 (BitVec.ofInt 32 v) :=
  fun v => ⟨leU32 (BitVec.ofInt 32 v), rfl, fun st => rivAsEmitU32_eq _ st⟩

theorem emitsBytes_u64 : EmitsBytes 8 fun v => rivAsEmitU64 (BitVec.ofInt 64 v) :=
  fun _ => ⟨_, by rw [length_map, length_range], fun _ => rfl⟩

theorem emitEach_emits {size : ℕ} {emit : ℤ → AsState → Except AsError AsState}
    (hemit : EmitsBytes size emit) (h : emitEach emit ops st = .ok st') :
    ∃ bs, emitAll bs st = .ok st' ∧ bs.length = size * ops.length := by
  induction ops generalizing st with
  | nil =>
    cases h
    exact ⟨[], rfl, rfl⟩
  | cons a ops ih =>
    obtain ⟨st1, h1, h⟩ := of_bind_eq_ok h
    obtain ⟨v, -, h1⟩ := of_bind_eq_ok h1
    obtain ⟨bs, hlen, hbs⟩ := hemit v
    obtain ⟨bs', hbs', hlen'⟩ := ih h
    refine ⟨bs ++ bs', ?_, ?_⟩
    all_goals simp_all [emitAll_append, Nat.mul_succ, Nat.add_comm]

/-! ## Padding -/

variable {pad : RivU32 → Bool} {n t : CStr} {rest tok : List CStr} {d : Directive}

theorem emitWhile_emits (h : emitWhile pad st = .ok st') :
    ∃ n, emitAll (List.replicate n 0) st = .ok st' ∧
      (∀ k < n, pad (st.pc + BitVec.ofNat 32 k) = true) ∧
      pad (st.pc + BitVec.ofNat 32 n) = false := by
  induction st using emitWhile.induct pad with
  | case1 st hpad hfull =>
    rw [emitWhile, if_pos hpad, dif_pos hfull] at h
    cases h
  | case2 st hpad hfull ih =>
    rw [emitWhile, if_pos hpad, dif_neg hfull] at h
    obtain ⟨n, hn, hbelow, hend⟩ := ih h
    have hnext : ∀ k, (st.put 0).pc + BitVec.ofNat 32 k = st.pc + BitVec.ofNat 32 (k + 1) := by
      intro k
      rw [put_pc, BitVec.add_assoc, Nat.add_comm k 1, BitVec.ofNat_add]
      rfl
    refine ⟨n + 1, ?_, ?_, hnext n ▸ hend⟩
    · rw [replicate_succ, emitAll_cons, rivAsEmitU8, if_neg hfull]
      exact hn
    intro k hk
    cases k with
    | zero => rwa [BitVec.add_zero]
    | succ k => exact hnext k ▸ hbelow k (by omega)
  | case3 st hpad =>
    rw [emitWhile, if_neg hpad] at h
    cases h
    refine ⟨0, rfl, fun k hk => absurd hk (Nat.not_lt_zero k), ?_⟩
    rwa [BitVec.add_zero, ← Bool.not_eq_true]

theorem emitWhile_sameContext (h : emitWhile pad st = .ok st') : SameContext st st' := by
  obtain ⟨n, hn, -⟩ := emitWhile_emits h
  exact (emitAll_sameContext hn).1

theorem emitWhile_pc {t t' : AsState} (h : emitWhile pad st = .ok st')
    (ht : emitWhile pad t = .ok t') (hpc : t.pc = st.pc) : t'.pc = st'.pc := by
  obtain ⟨n, hn, hbelow, hend⟩ := emitWhile_emits h
  obtain ⟨m, hm, hbelow', hend'⟩ := emitWhile_emits ht
  have heq : m = n := by grind
  rw [(emitAll_sameContext hn).2, (emitAll_sameContext hm).2, heq, hpc]

/-! ## Labels -/

/-- The labels at the front of a token list and the tokens after them. -/
def stripLabels : List CStr → List CStr × List CStr
  | [] => ([], [])
  | t :: ts =>
    match labelOf t with
    | some name => (name :: (stripLabels ts).1, (stripLabels ts).2)
    | none => ([], t :: ts)

def lineParts (line : CStr) : List CStr × List CStr :=
  match tokenize line with
  | .ok toks => stripLabels toks
  | .error _ => ([], [])

theorem labelOf_ne_nil {name : CStr} (h : labelOf t = some name) : name ≠ [] := by
  unfold labelOf at h
  split at h
  · next hlabel =>
    cases h
    intro hnil
    have hlen := congrArg List.length hnil
    grind
  · cases h

theorem stripLabels_ne_nil : ∀ name ∈ (stripLabels toks).1, name ≠ [] := by
  induction toks with
  | nil => exact fun name hname => absurd hname not_mem_nil
  | cons t ts ih =>
    rw [stripLabels]
    grind [labelOf_ne_nil]

theorem lineParts_ne_nil : ∀ name ∈ (lineParts line).1, name ≠ [] := by
  unfold lineParts
  split
  · exact stripLabels_ne_nil
  simp

theorem processLabels_emit (hpass : st.pass = .emit) :
    processLabels toks st = .ok (st, (stripLabels toks).2) := by
  induction toks with
  | nil => rfl
  | cons t ts ih => grind [processLabels, stripLabels, ok_bind]

def AsState.addSyms (new : List Sym) (st : AsState) : AsState :=
  { st with symtab := st.symtab ++ new }

@[simp] theorem addSyms_nil (st : AsState) : st.addSyms [] = st := by
  rw [AsState.addSyms, append_nil]

theorem addSyms_append (as bs : List Sym) (st : AsState) :
    st.addSyms (as ++ bs) = (st.addSyms as).addSyms bs := by
  simp only [AsState.addSyms, append_assoc]

theorem rivAsSymSet_collect {v : RivU32} (hpass : st.pass = .collect)
    (h : rivAsSymSet n v st = .ok st') : rivAsSymFind st.symtab n = none ∧
      st' = st.addSyms [Sym.new n v] := by
  unfold rivAsSymSet at h
  split at h
  · next hfind =>
    split at h
    · cases h
    · cases h
      exact ⟨hfind, rfl⟩
  · rw [if_pos hpass] at h
    cases h

theorem symValue_new {tab : List Sym} {v : RivU32} (hfind : rivAsSymFind tab n = none)
    (hlen : n.length < 64) : symValue (tab ++ [Sym.new n v]) n = some v := by
  have hname : n.take 63 = n := take_of_length_le (by omega)
  rw [symValue_append, symValue_eq_none_iff.mpr hfind, Option.none_or]
  simp [symValue, Sym.new, hname]

theorem processLabels_collect (hpass : st.pass = .collect)
    (h : processLabels toks st = .ok (st', rest)) : rest = (stripLabels toks).2 ∧
      (∃ new, st' = st.addSyms new) ∧ ∀ n ∈ (stripLabels toks).1, n.length < 64 →
        symValue st'.symtab n = some (st.pc + st.base) := by
  induction toks generalizing st with
  | nil =>
    cases h
    exact ⟨rfl, ⟨[], (addSyms_nil _).symm⟩, fun n hn => absurd hn not_mem_nil⟩
  | cons t ts ih =>
    rw [processLabels] at h
    rw [stripLabels]
    cases hlabel : labelOf t with
    | none =>
      rw [hlabel] at h
      cases h
      exact ⟨rfl, ⟨[], (addSyms_nil _).symm⟩, fun n hn => absurd hn not_mem_nil⟩
    | some name =>
      simp only [hlabel, if_pos hpass] at h ⊢
      obtain ⟨st1, hset, h⟩ := of_bind_eq_ok h
      obtain ⟨hfind, rfl⟩ := rivAsSymSet_collect hpass hset
      have hpass1 : (st.addSyms [Sym.new name (st.pc + st.base)]).pass = .collect := hpass
      obtain ⟨hrest, ⟨new, rfl⟩, hnames⟩ := ih hpass1 h
      refine ⟨hrest, ⟨[Sym.new name (st.pc + st.base)] ++ new, ?_⟩, ?_⟩
      · exact (addSyms_append _ _ _).symm
      intro n hn hlen
      rcases mem_cons.mp hn with rfl | hn
      · exact symValue_mono ⟨new, rfl⟩ (symValue_new hfind hlen)
      · exact hnames n hn hlen

/-! ## The frame of a line -/

/-- What a line leaves alone: the base, the pass and the line number; symbols
are only added, and only by the first pass. -/
structure Advances (st st' : AsState) : Prop where
  base : st'.base = st.base
  pass : st'.pass = st.pass
  line : st'.line = st.line
  symtab : st.symtab <+: st'.symtab
  symtab_emit : st.pass = .emit → st'.symtab = st.symtab

theorem SameContext.advances (h : SameContext st st') : Advances st st' :=
  ⟨h.base, h.pass, h.line, by rw [h.symtab], fun _ => h.symtab⟩

theorem Advances.refl (st : AsState) : Advances st st := (SameContext.refl st).advances

theorem Advances.trans {a b c : AsState} (hab : Advances a b) (hbc : Advances b c) :
    Advances a c where
  base := hbc.base.trans hab.base
  pass := hbc.pass.trans hab.pass
  line := hbc.line.trans hab.line
  symtab := hab.symtab.trans hbc.symtab
  symtab_emit := fun h =>
    (hbc.symtab_emit (hab.pass.trans h)).trans (hab.symtab_emit h)

theorem addSyms_advances (hpass : st.pass = .collect) (new : List Sym) :
    Advances st (st.addSyms new) :=
  ⟨rfl, rfl, rfl, ⟨new, rfl⟩, fun h => by rw [hpass] at h; cases h⟩

theorem processLabels_advances (h : processLabels toks st = .ok (st', rest)) :
    Advances st st' ∧ st'.pc = st.pc ∧ st'.arch = st.arch ∧ rest = (stripLabels toks).2 := by
  cases hpass : st.pass with
  | collect =>
    obtain ⟨hrest, ⟨new, rfl⟩, -⟩ := processLabels_collect hpass h
    exact ⟨addSyms_advances hpass new, rfl, rfl, hrest⟩
  | emit =>
    rw [processLabels_emit hpass] at h
    cases h
    exact ⟨Advances.refl _, rfl, rfl, rfl⟩

theorem setOrg_eq_ok {newpc : RivU32} (h : setOrg newpc st = .ok st') :
    SameContext st st' ∧ st'.pc = newpc := by
  obtain ⟨st1, h1, h⟩ := of_bind_eq_ok h
  have hctx := emitWhile_sameContext h1
  cases h
  exact ⟨⟨hctx.base, hctx.pass, hctx.line, hctx.arch, hctx.symtab⟩, rfl⟩

theorem rvEncode_emits (h : rvEncode tok st = .ok (some st')) :
    ∃ w, emitAll (leU32 w) st = .ok st' := by
  obtain ⟨tok', -, h⟩ := of_bind_eq_ok h
  split at h
  · cases h
  split at h
  · cases h
  obtain ⟨w, -, h⟩ := of_bind_eq_ok h
  obtain ⟨st1, h1, h⟩ := of_bind_eq_ok h
  cases h
  exact ⟨w, (rivAsEmitU32_eq w st) ▸ h1⟩

theorem encodeLine_emits (h : encodeLine tok st = .ok (some st')) :
    ∃ bs, emitAll bs st = .ok st' ∧ (st.arch = .riscv32 → bs.length = 4) := by
  unfold encodeLine at h
  cases harch : st.arch with
  | riscv32 =>
    rw [harch] at h
    obtain ⟨w, hw⟩ := rvEncode_emits h
    exact ⟨leU32 w, hw, fun _ => rfl⟩
  | x86_64 =>
    rw [harch] at h
    obtain ⟨i, hi⟩ := x86Encode_emits h
    exact ⟨i.bytes, hi.eq, fun h => nomatch h⟩

/-- The directives whose operand decides how far the cursor moves. -/
def Directive.isSize : Directive → Bool
  | .org | .zero | .align | .p2align => true
  | _ => false

/-- The number of bytes that a directive stores whose operands do not decide it. -/
def dataLength : Directive → List CStr → ℕ
  | .word, ops => 4 * ops.length
  | .quad, ops => 8 * ops.length
  | .byte, ops => 1 * ops.length
  | .half, ops => 2 * ops.length
  | .ascii, a :: _ => ((decodeString a 1024).toOption.getD []).length
  | .asciz, a :: _ => ((decodeString a 1024).toOption.getD []).length + 1
  | _, _ => 0

theorem processDirective_emits (horg : d ≠ .org) (hequ : d ≠ .equ) (harch : d ≠ .arch)
    (h : processDirective d ops st = .ok st') :
    ∃ bs, emitAll bs st = .ok st' ∧ (d.isSize = false → bs.length = dataLength d ops) := by
  have hpadded : ∀ {pad}, emitWhile pad st = .ok st' → d.isSize = true →
      ∃ bs, emitAll bs st = .ok st' ∧ (d.isSize = false → bs.length = dataLength d ops) := by
    grind [emitWhile_emits]
  have heach : ∀ {size emit}, EmitsBytes size emit → emitEach emit ops st = .ok st' →
      dataLength d ops = size * ops.length →
      ∃ bs, emitAll bs st = .ok st' ∧ (d.isSize = false → bs.length = dataLength d ops) := by
    grind [emitEach_emits]
  cases d with
  | text | global =>
    cases h
    exact ⟨[], rfl, fun _ => rfl⟩
  | word => exact heach emitsBytes_u32 h rfl
  | quad => exact heach emitsBytes_u64 h rfl
  | byte => exact heach emitsBytes_u8 h rfl
  | half => exact heach emitsBytes_u16 h rfl
  | org => exact absurd rfl horg
  | equ => exact absurd rfl hequ
  | arch => exact absurd rfl harch
  | zero =>
    match ops with
    | [] => cases h
    | a :: _ =>
      obtain ⟨v, -, h⟩ := of_bind_eq_ok h
      obtain ⟨fill, -, h⟩ := of_bind_eq_ok h
      exact ⟨_, h, fun hno => nomatch hno⟩
  | ascii =>
    match ops with
    | [] => cases h
    | a :: _ =>
      obtain ⟨bytes, hbytes, h⟩ := of_bind_eq_ok h
      obtain ⟨st1, h1, h⟩ := of_bind_eq_ok h
      cases h
      refine ⟨bytes, h1, fun _ => ?_⟩
      rw [dataLength, hbytes]
      rfl
  | asciz =>
    match ops with
    | [] => cases h
    | a :: _ =>
      obtain ⟨bytes, hbytes, h⟩ := of_bind_eq_ok h
      obtain ⟨st1, h1, h⟩ := of_bind_eq_ok h
      rw [if_pos rfl, ← emitAll_singleton] at h
      refine ⟨bytes ++ [0], ?_, fun _ => ?_⟩
      · rw [emitAll_append, h1]
        exact h
      · rw [dataLength, hbytes, length_append]
        rfl
  | align | p2align =>
    match ops with
    | [] => cases h
    | a :: _ =>
      obtain ⟨v, -, h⟩ := of_bind_eq_ok h
      exact hpadded h rfl

theorem processDirective_org (h : processDirective .org ops st = .ok st') :
    ∃ a rest v, ops = a :: rest ∧ rivAsParseImm st a = .ok v ∧
      setOrg (BitVec.ofInt 32 v - st.base) st = .ok st' := by
  match ops with
  | [] => cases h
  | a :: rest =>
    obtain ⟨v, hv, h⟩ := of_bind_eq_ok h
    exact ⟨a, rest, v, rfl, hv, h⟩

theorem processDirective_sameContext (hequ : d ≠ .equ) (harch : d ≠ .arch)
    (h : processDirective d ops st = .ok st') : SameContext st st' := by
  by_cases horg : d = .org
  · grind [setOrg_eq_ok, processDirective_org]
  grind [emitAll_sameContext, processDirective_emits]

theorem processDirective_equ (h : processDirective .equ ops st = .ok st') :
    ∃ a b rest, ops = a :: b :: rest ∧
      ((st.pass = .emit ∧ st' = st) ∨
        ∃ v, st.pass = .collect ∧ rivAsSymFind st.symtab a = none ∧
          st' = st.addSyms [Sym.new a v]) := by
  match ops with
  | [] => cases h
  | [_] => cases h
  | a :: b :: rest =>
    refine ⟨a, b, rest, rfl, ?_⟩
    simp only [processDirective] at h
    cases hpass : st.pass with
    | collect =>
      rw [if_pos hpass] at h
      obtain ⟨v, -, h⟩ := of_bind_eq_ok h
      obtain ⟨hfind, hst⟩ := rivAsSymSet_collect hpass h
      exact Or.inr ⟨_, rfl, hfind, hst⟩
    | emit => grind

theorem processDirective_arch (h : processDirective .arch ops st = .ok st') :
    ∃ arch, st' = { st with arch := arch } := by
  match ops with
  | [] => cases h
  | a :: rest =>
    simp only [processDirective] at h
    split at h
    · grind
    · cases h

theorem processDirective_advances (h : processDirective d ops st = .ok st') : Advances st st' := by
  by_cases hequ : d = .equ
  · grind [Advances.refl, addSyms_advances, processDirective_equ]
  by_cases harch : d = .arch
  · subst harch
    obtain ⟨arch, rfl⟩ := processDirective_arch h
    exact ⟨rfl, rfl, rfl, prefix_rfl, fun _ => rfl⟩
  · exact (processDirective_sameContext hequ harch h).advances

theorem processTokens_cases (h : processTokens (t :: ops) st = .ok st') :
    (t.head? = some '.' ∧ ∃ d, lookupMnem directives t = some d ∧
      processDirective d ops st = .ok st') ∨
    (t.head? ≠ some '.' ∧ encodeLine (t :: ops) st = .ok (some st')) := by
  simp only [processTokens] at h
  split at h
  · next hdot =>
    split at h
    · next d hd => exact Or.inl ⟨hdot, d, hd, h⟩
    · cases h
  · next hdot =>
    obtain ⟨res, hres, h⟩ := of_bind_eq_ok h
    split at h
    · cases h
      exact Or.inr ⟨hdot, hres⟩
    · cases h

theorem processTokens_advances (h : processTokens toks st = .ok st') : Advances st st' := by
  match toks with
  | [] =>
    cases h
    exact Advances.refl _
  | t :: ops =>
    rcases processTokens_cases h with ⟨-, d, -, h⟩ | ⟨-, h⟩
    · exact processDirective_advances h
    · obtain ⟨bs, hbs, -⟩ := encodeLine_emits h
      exact (emitAll_sameContext hbs).1.advances

/-- What the labels of a line do: in the first pass each of them gets the
address the line starts at. -/
structure LabelStep (line : CStr) (st st₁ : AsState) : Prop where
  advances : Advances st st₁
  pc : st₁.pc = st.pc
  arch : st₁.arch = st.arch
  value : st.pass = .collect → ∀ n ∈ (lineParts line).1, n.length < 64 →
    symValue st₁.symtab n = some (st.pc + st.base)

theorem processLine_eq_ok (h : processLine line st = .ok st') :
    ∃ st1, LabelStep line st st1 ∧ processTokens (lineParts line).2 st1 = .ok st' := by
  obtain ⟨toks, htoks, h⟩ := of_bind_eq_ok h
  obtain ⟨⟨st1, rest⟩, hlabels, h⟩ := of_bind_eq_ok h
  obtain ⟨hadv, hpc, harch, rfl⟩ := processLabels_advances hlabels
  have hparts : lineParts line = stripLabels toks := by rw [lineParts, htoks]
  refine ⟨st1, ⟨hadv, hpc, harch, fun hpass => ?_⟩, ?_⟩
  all_goals grind [processLabels_collect]

theorem processLine_advances (h : processLine line st = .ok st') : Advances st st' := by
  obtain ⟨st1, hlabels, htokens⟩ := processLine_eq_ok h
  exact hlabels.advances.trans (processTokens_advances htokens)

end Rivet.Assembler
