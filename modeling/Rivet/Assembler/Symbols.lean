import Rivet.Assembler.State

/-!
# Symbols and operands

The symbol table of `rivet-as.c`, the evaluation of an operand token and the
splitting of `imm(reg)` operands.
-/

namespace Rivet.Assembler

open CLib

variable {tab : List Sym} {n s : CStr} {st : AsState}

/-- `riv_as_sym_find`: the first entry whose stored name is `n`. -/
def rivAsSymFind (tab : List Sym) (n : CStr) : Option ℕ :=
  tab.findIdx? fun e => e.name = n

/-- The entry written for a new name, cut to the sixty-three characters that
`strncpy` leaves room for. -/
def Sym.new (n : CStr) (v : RivU32) : Sym where
  name := n.take 63
  addr := v
  name_lt := Nat.lt_of_le_of_lt (List.length_take_le 63 n) (by decide)

/-- `riv_as_sym_set`. -/
def rivAsSymSet (n : CStr) (v : RivU32) (st : AsState) :
    Except AsError AsState :=
  match rivAsSymFind st.symtab n with
  | none =>
    if maxSym ≤ st.symtab.length then rivAsDie "symbol table full" none
    else .ok { st with symtab := st.symtab ++ [Sym.new n v] }
  | some i =>
    if st.pass = .collect then rivAsDie "duplicate symbol:" (some n)
    else .ok { st with
      symtab := st.symtab.modify i fun e => { e with addr := v } }

/-- Whether a token is read as a number: it starts with a digit or a sign. -/
def isNumeric : CStr → Bool
  | [] => false
  | c :: _ => c = '-' || c = '+' || c.isDigit

/-- `riv_as_parse_imm`: a number, or the value of a symbol, zero for a symbol
that pass zero has not met yet. -/
def rivAsParseImm (st : AsState) (s : CStr) : Except AsError ℤ :=
  if s = [] then rivAsDie "missing immediate" none
  else if isNumeric s then
    match strtoll s 0 with
    | (v, []) => .ok v
    | (_, _ :: _) => rivAsDie "bad number:" (some s)
  else
    match rivAsSymFind st.symtab s with
    | none =>
      if st.pass = .collect then .ok 0
      else rivAsDie "unknown symbol:" (some s)
    | some i =>
      match st.symtab[i]? with
      | some e => .ok e.addr.toNat
      | none => .ok 0

/-- `riv_as_split_offset`: the parts of `imm(reg)`, or nothing when the token
has no parenthesis. -/
def rivAsSplitOffset (tok : CStr) : Except AsError (Option (CStr × CStr)) :=
  match tok.dropWhile (· ≠ '(') with
  | [] => .ok none
  | _ :: inner =>
    if ')' ∈ inner then
      .ok (some (tok.takeWhile (· ≠ '('), inner.takeWhile (· ≠ ')')))
    else rivAsDie "missing ')'" (some tok)

/-! ## Lookup in a growing table -/

def symValue (tab : List Sym) (n : CStr) : Option RivU32 :=
  (tab.find? fun e => e.name = n).map Sym.addr

theorem symValue_append (tab rest : List Sym) (n : CStr) :
    symValue (tab ++ rest) n = (symValue tab n).or (symValue rest n) := by grind [symValue]

theorem symValue_mono {tab' : List Sym} {v : RivU32} (hp : tab <+: tab')
    (h : symValue tab n = some v) : symValue tab' n = some v := by
  obtain ⟨rest, rfl⟩ := hp
  rw [symValue_append, h, Option.some_or]

theorem symValue_eq_none_iff : symValue tab n = none ↔ rivAsSymFind tab n = none := by
  simp_all [symValue, rivAsSymFind]

theorem symValue_of_symFind {i : ℕ} (h : rivAsSymFind tab n = some i) :
    ∃ e, tab[i]? = some e ∧ symValue tab n = some e.addr := by
  obtain ⟨hi, hname, hmin⟩ := List.findIdx?_eq_some_iff_getElem.mp h
  refine ⟨tab[i], List.getElem?_eq_getElem hi, ?_⟩
  have hfind : tab.find? (fun e => decide (e.name = n)) = some tab[i] := by
    rw [List.find?_eq_some_iff_getElem]
    grind
  rw [symValue, hfind, Option.map_some]

theorem symValue_length_lt {v : RivU32} (h : symValue tab n = some v) : n.length < 64 := by
  unfold symValue at h
  rw [Option.map_eq_some_iff] at h
  obtain ⟨e, hfind, -⟩ := h
  have hname := List.find?_some hfind
  rw [decide_eq_true_eq] at hname
  exact hname ▸ e.name_lt

theorem rivAsParseImm_symbol (hne : s ≠ []) (hnum : isNumeric s = false) :
    rivAsParseImm st s =
      match symValue st.symtab s with
      | some v => .ok v.toNat
      | none =>
        if st.pass = .collect then .ok 0
        else rivAsDie "unknown symbol:" (some s) := by
  rw [rivAsParseImm, if_neg hne, if_neg (by simp [hnum])]
  cases h : rivAsSymFind st.symtab s with
  | none => rw [symValue_eq_none_iff.mpr h]
  | some i => grind [symValue_of_symFind]

theorem rivAsParseImm_numeric (hnum : isNumeric s = true) (st st' : AsState) :
    rivAsParseImm st s = rivAsParseImm st' s := by
  unfold rivAsParseImm
  rw [if_pos hnum, if_pos hnum]

theorem rivAsParseImm_congr {st' : AsState} (hpass : st'.pass = st.pass)
    (htab : st'.symtab = st.symtab) (s : CStr) : rivAsParseImm st' s = rivAsParseImm st s := by
  unfold rivAsParseImm
  rw [hpass, htab]

theorem rivAsParseImm_bounds {v : ℤ} (h : rivAsParseImm st s = .ok v) :
    -2 ^ 63 ≤ v ∧ v < 2 ^ 63 := by
  unfold rivAsParseImm at h
  split at h
  · cases h
  split at h
  · split at h
    · next w hw =>
      cases h
      have hbounds := strtoll_bounds s 0
      rwa [hw] at hbounds
    · cases h
  · split at h
    · split at h
      · cases h
        decide
      · cases h
    · split at h
      · next e _ =>
        grind [e.addr.isLt]
      · cases h
        decide

/-! ## Operands in the form they are printed in -/

theorem rivAsParseImm_of_strtoll {v : ℤ} (hnum : isNumeric s = true) (h : strtoll s 0 = (v, [])) :
    rivAsParseImm st s = .ok v := by
  have hne : s ≠ [] := by
    rintro rfl
    cases hnum
  rw [rivAsParseImm, if_neg hne, if_pos hnum, h]

theorem rivAsSplitOffset_eq {imm reg : CStr} (himm : '(' ∉ imm) (hreg : ')' ∉ reg) :
    rivAsSplitOffset (imm ++ '(' :: reg ++ [')']) = .ok (some (imm, reg)) := by
  have himm' : ∀ c ∈ imm, decide (c ≠ '(') = true := by grind
  have hreg' : ∀ c ∈ reg, decide (c ≠ ')') = true := by grind
  simp_all [rivAsSplitOffset, or_true]

end Rivet.Assembler
