import Rivet.Assembler.Passes

/-!
# The symbol table as a map

The table that a sequence of definitions leaves behind in the first pass.  An
entry holds the first sixty-three characters of its name, while a lookup compares
whole names, so the table is a map from names to values exactly when every name
that was defined fits its entry.
-/

namespace Rivet.Assembler

open CLib List

/-- The calls of `riv_as_sym_set` for a sequence of definitions. -/
def symSetAll (defs : List (CStr × RivU32)) (st : AsState) : Except AsError AsState :=
  defs.foldlM (fun s d => rivAsSymSet d.1 d.2 s) st

/-- The table of `st` is the map that the definitions describe. -/
structure SymtabIsMap (defs : List (CStr × RivU32)) (st : AsState) : Prop where
  distinct : (st.symtab.map Sym.name).Nodup
  reported : ∀ d ∈ defs, ∀ v,
    rivAsSymSet d.1 v st = rivAsDie "duplicate symbol:" (some d.1)
  found : ∀ d ∈ defs, ∃ i e,
    rivAsSymFind st.symtab d.1 = some i ∧ st.symtab[i]? = some e ∧ e.addr = d.2

/-- The table in the first pass, after the definitions `done`. -/
structure SymtabHolds (done : List (CStr × RivU32)) (st : AsState) : Prop where
  pass : st.pass = .collect
  names : (st.symtab.map Sym.name).Nodup
  value : ∀ d ∈ done, symValue st.symtab d.1 = some d.2

variable {st st' : AsState} {n : CStr} {defs done : List (CStr × RivU32)}

theorem symtabHolds_start (hpass : st.pass = .collect) (hempty : st.symtab = []) :
    SymtabHolds [] st where
  pass := hpass
  names := by
    rw [hempty]
    exact nodup_nil
  value := fun _ hd => absurd hd not_mem_nil

theorem mem_names_iff {tab : List Sym} : n ∈ tab.map Sym.name ↔ rivAsSymFind tab n ≠ none := by
  simp [rivAsSymFind, List.findIdx?_eq_none_iff]

theorem SymtabHolds.set {v : RivU32} (hst : SymtabHolds done st) (hlen : n.length < 64)
    (h : rivAsSymSet n v st = .ok st') : SymtabHolds (done ++ [(n, v)]) st' := by
  obtain ⟨hfind, rfl⟩ := rivAsSymSet_collect hst.pass h
  refine ⟨hst.pass, ?_, ?_⟩
  · have hname : (Sym.new n v).name = n := take_of_length_le (by omega)
    have hfresh : n ∉ st.symtab.map Sym.name := fun hmem => mem_names_iff.mp hmem hfind
    rw [AsState.addSyms, map_append, map_singleton, hname]
    exact nodup_append.mpr ⟨hst.names, nodup_singleton n, fun a ha b hb hab =>
      hfresh (mem_singleton.mp hb ▸ hab ▸ ha)⟩
  · intro d hd
    rcases mem_append.mp hd with hd | hd
    · exact symValue_mono ⟨_, rfl⟩ (hst.value d hd)
    · rw [mem_singleton.mp hd]
      exact symValue_new hfind hlen

theorem SymtabHolds.setAll (hst : SymtabHolds done st) (hlen : ∀ d ∈ defs, d.1.length < 64)
    (h : symSetAll defs st = .ok st') : SymtabHolds (done ++ defs) st' := by
  induction defs generalizing done st with
  | nil =>
    cases h
    rwa [append_nil]
  | cons d defs ih =>
    obtain ⟨st1, hset, h⟩ := Exec.of_bind_eq_ok h
    have hst1 := hst.set (hlen d mem_cons_self) hset
    have hrest := ih hst1 (fun e he => hlen e (mem_cons_of_mem d he)) h
    grind

theorem SymtabHolds.isMap (hst : SymtabHolds defs st) : SymtabIsMap defs st := by
  have hfound : ∀ d ∈ defs, ∃ i, rivAsSymFind st.symtab d.1 = some i := by
    intro d hd
    rw [← Option.ne_none_iff_exists']
    intro hnone
    have hvalue := hst.value d hd
    simp_all [symValue_eq_none_iff.mpr]
  refine ⟨hst.names, ?_, ?_⟩
  · intro d hd v
    obtain ⟨i, hi⟩ := hfound d hd
    simp only [rivAsSymSet, hi, if_pos hst.pass]
  · intro d hd
    obtain ⟨i, hi⟩ := hfound d hd
    obtain ⟨e, he, hvalue⟩ := symValue_of_symFind hi
    rw [hst.value d hd] at hvalue
    grind

theorem length_lt_of_symFind {tab : List Sym} {i : ℕ} (h : rivAsSymFind tab n = some i) :
    n.length < 64 := by grind [symValue_length_lt, symValue_of_symFind]

/-- The table left by definitions that all succeeded is a map exactly when no
name is longer than its entry. -/
theorem symtab_isMap_iff (defs : List (CStr × RivU32)) {st st' : AsState}
    (hpass : st.pass = .collect) (hempty : st.symtab = []) (h : symSetAll defs st = .ok st') :
    SymtabIsMap defs st' ↔ ∀ d ∈ defs, d.1.length < 64 := by
  constructor
  · intro hmap d hd
    obtain ⟨i, -, hi, -⟩ := hmap.found d hd
    exact length_lt_of_symFind hi
  · intro hlen
    have hst := (symtabHolds_start hpass hempty).setAll hlen h
    rw [List.nil_append] at hst
    exact hst.isMap

/-- Two definitions with short names. -/
theorem symtab_isMap_short :
    ∃ st, symSetAll [("start".toList, 0), ("stop".toList, 4)] (initState .riscv32 0) = .ok st ∧
      SymtabIsMap [("start".toList, 0), ("stop".toList, 4)] st := by
  have hrun := Exec.exists_ok_of_toBool
    (x := symSetAll [("start".toList, 0), ("stop".toList, 4)] (initState .riscv32 0)) (by decide)
  obtain ⟨st, h⟩ := hrun
  exact ⟨st, h, (symtab_isMap_iff _ rfl rfl h).mpr (by decide)⟩

/-- Two names that first differ in their sixty-fourth character are both taken
in, under one stored name, and neither of them is found. -/
theorem symtab_isMap_long :
    ∃ st, symSetAll [(List.replicate 63 'a' ++ ['x'], 1), (List.replicate 63 'a' ++ ['y'], 2)]
        (initState .riscv32 0) = .ok st ∧
      rivAsSymFind st.symtab (List.replicate 63 'a' ++ ['x']) = none ∧ ¬ SymtabIsMap
        [(List.replicate 63 'a' ++ ['x'], 1), (List.replicate 63 'a' ++ ['y'], 2)] st := by
  refine ⟨_, rfl, by decide, ?_⟩
  intro h
  have hdistinct := h.distinct
  revert hdistinct
  decide

end Rivet.Assembler
