import Rivet.Assembler.TwoPass

/-!
# Padding and the image

What the second pass leaves in the image.  A ledger notes, offset by offset, the
last byte that a line other than an `.org` directive has emitted in the pass, and
whether the pass has stored anything there.  The image is what the ledger says
exactly when no `.org` skips over a byte that a line has emitted, and the first
pass has left nothing behind where the second stores nothing.
-/

namespace Rivet.Assembler

open CLib Riscv32 X86 Exec

variable {lines toks : List CStr} {s st st' st₀ : AsState} {line : CStr}

/-! ## The ledger of a pass -/

/-- Whether the tokens after the labels are an `.org` directive. -/
def isOrg (toks : List CStr) : Bool :=
  match toks with
  | t :: _ => lookupMnem directives t = some .org
  | [] => false

/-- The cursor that an `.org` directive sets. -/
def orgTarget (toks : List CStr) (st : AsState) : Option RivU32 :=
  match toks with
  | t :: a :: _ =>
    if lookupMnem directives t = some .org then
      (rivAsParseImm st a).toOption.map fun v => BitVec.ofInt 32 v - st.base
    else none
  | _ => none

/-- What a pass has stored so far: the bytes that lines other than `.org` have
emitted, and all offsets that were written. -/
structure Ledger where
  byte : ℕ → Option RivU8
  stored : ℕ → Bool

def Ledger.empty : Ledger where
  byte _ := none
  stored _ := false

/-- The ledger after a line that took the state from `st` to `st'`. -/
def Ledger.note (line : CStr) (st st' : AsState) (r : Ledger) : Ledger where
  byte i :=
    if isOrg (lineParts line).2 = false ∧ st.pc.toNat ≤ i ∧ i < st'.pc.toNat then
      some (st'.prog i)
    else r.byte i
  stored i := r.stored i || decide (st.pc.toNat ≤ i ∧ i < st'.pc.toNat)

/-- The loop of `assemble_file` with the ledger. -/
def ledgerLines (lines : List CStr) (p : AsState × Ledger) :
    Except AsError (AsState × Ledger) :=
  lines.foldlM (fun p line => do
    let st ← processLine line (nextLine p.1)
    .ok (st, p.2.note line p.1 st)) p

def emitStart (st₀ : AsState) : AsState × Ledger :=
  (startFile { st₀ with pass := .emit }, Ledger.empty)

/-- The image holds what the lines of the second pass have emitted last, zero
elsewhere, and no `.org` changes a byte that a line has emitted. -/
structure PaddingHarmless (lines : List CStr) (st₀ st₁ : AsState) : Prop where
  image : ∃ r, ledgerLines lines (emitStart st₀) = .ok (st₁, r) ∧
    ∀ i < st₁.maxPc.toNat, st₁.prog i = (r.byte i).getD 0
  fill : ∀ k, (h : k < lines.length) → isOrg (lineParts lines[k]).2 = true →
    ∀ s r s', ledgerLines (lines.take k) (emitStart st₀) = .ok (s, r) →
      processLine lines[k] (nextLine s) = .ok s' →
      ∀ i, r.byte i ≠ none → s'.prog i = s.prog i

/-- The bytes emitted by lines that an `.org` skips over are zero anyway, and the
first pass has left zero wherever the second stores nothing. -/
structure FillsFree (lines : List CStr) (st₀ st₁ : AsState) : Prop where
  skipped : ∀ k, (h : k < lines.length) →
    ∀ s r, ledgerLines (lines.take k) (emitStart st₀) = .ok (s, r) →
      ∀ target ∈ orgTarget (lineParts lines[k]).2 s,
      ∀ i, s.pc.toNat ≤ i → i < target.toNat → r.byte i ≠ none → s.prog i = 0
  stale : ∀ r, ledgerLines lines (emitStart st₀) = .ok (st₁, r) →
    ∀ i < st₁.maxPc.toNat, r.stored i = false → st₀.prog i = 0

theorem ledgerLines_take_succ {p q : AsState × Ledger} {k : ℕ} (hk : k < lines.length)
    (h : ledgerLines (lines.take k) p = .ok q) :
    ledgerLines (lines.take (k + 1)) p = (do
      let st ← processLine lines[k] (nextLine q.1)
      .ok (st, q.2.note lines[k] q.1 st)) := by
  unfold ledgerLines at h ⊢
  rw [List.take_succ_eq_append_getElem hk, List.foldlM_append, h]
  simp

theorem assembleLines_of_ledgerLines {p q : AsState × Ledger} (h : ledgerLines lines p = .ok q) :
    assembleLines lines p.1 = .ok q.1 := by
  induction lines generalizing p with
  | nil =>
    cases h
    rfl
  | cons line lines ih =>
    obtain ⟨p1, hstep, h⟩ := of_bind_eq_ok h
    obtain ⟨s1, hline, hp1⟩ := of_bind_eq_ok hstep
    cases hp1
    rw [assembleLines, List.foldlM_cons, hline, ok_bind]
    exact ih h

variable {r : Ledger}

theorem ledgerLines_emit (h : ledgerLines lines (emitStart st₀) = .ok (s, r)) : s.pass = .emit :=
  (assembleLines_advances (assembleLines_of_ledgerLines h)).2.1

/-! ## Where a line stores -/

/-- From `st` to `st'` the cursor does not move back, and bytes are stored only
between the two cursors. -/
structure Stores (st st' : AsState) : Prop where
  forward : st.pc.toNat ≤ st'.pc.toNat
  frame : ∀ i, ¬(st.pc.toNat ≤ i ∧ i < st'.pc.toNat) → st'.prog i = st.prog i

theorem Stores.refl (st : AsState) : Stores st st :=
  ⟨Nat.le_refl _, fun _ _ => rfl⟩

theorem Stores.trans {a b c : AsState} (hab : Stores a b) (hbc : Stores b c) :
    Stores a c where
  forward := Nat.le_trans hab.forward hbc.forward
  frame i hi := by
    have h₁ := hab.forward
    have h₂ := hbc.forward
    rw [hbc.frame i (by omega), hab.frame i (by omega)]

theorem put_stores (b : RivU8) (h : st.pc.toNat < maxProg) :
    Stores st (st.put b) where
  forward := by
    rw [put_pc_toNat h]
    exact Nat.le_succ _
  frame i hi := by
    rw [put_pc_toNat h] at hi
    exact Function.update_of_ne (by omega) _ _

theorem emitAll_stores {bs : List RivU8} (h : emitAll bs st = .ok st') : Stores st st' := by
  refine foldlM_inv (I := fun s => Stores st s) h (Stores.refl st) ?_
  intro b _ s s' hs hput
  obtain ⟨hpc, rfl⟩ := rivAsEmitU8_eq_ok hput
  exact hs.trans (put_stores b hpc)

theorem emitWhile_stores {pad : RivU32 → Bool} (h : emitWhile pad st = .ok st') :
    Stores st st' := by
  obtain ⟨n, hn, -⟩ := emitWhile_emits h
  exact emitAll_stores hn

theorem emitWhile_zero {pad : RivU32 → Bool} (h : emitWhile pad st = .ok st') :
    ∀ i, st.pc.toNat ≤ i → i < st'.pc.toNat → st'.prog i = 0 := by
  obtain ⟨n, hn, -⟩ := emitWhile_emits h
  obtain ⟨rfl, hfit⟩ := emitAll_eq_ok hn
  intro i hlo hhi
  have hne : List.replicate n (0 : RivU8) ≠ [] := by
    intro hnil
    rw [hnil, putAll_nil] at hhi
    omega
  have hmem : (st.putAll (List.replicate n 0)).prog i ∈
      emitted st (st.putAll (List.replicate n 0)) := by
    refine List.mem_map.mpr ⟨i - st.pc.toNat, List.mem_range.mpr (by omega), ?_⟩
    rw [Nat.add_sub_cancel' hlo]
  simp_all [emitted_putAll]

theorem emitWhile_org {newpc : RivU32} (h : emitWhile (fun pc => pc < newpc) st = .ok st') :
    st'.pc.toNat = max st.pc.toNat newpc.toNat := by
  induction st using emitWhile.induct (fun pc => decide (pc < newpc)) with
  | case1 st hpad hfull =>
    rw [emitWhile, if_pos hpad, dif_pos hfull] at h
    cases h
  | case2 st hpad hfull ih =>
    rw [emitWhile, if_pos hpad, dif_neg hfull] at h
    rw [decide_eq_true_eq, BitVec.lt_def] at hpad
    grind [put_pc_toNat]
  | case3 st hpad =>
    rw [emitWhile, if_neg hpad] at h
    cases h
    rw [decide_eq_true_eq, BitVec.lt_def] at hpad
    omega

theorem setOrg_prog {newpc : RivU32} (h : setOrg newpc st = .ok st') (i : ℕ) :
    st'.prog i = if st.pc.toNat ≤ i ∧ i < newpc.toNat then 0 else st.prog i := by
  obtain ⟨st1, h1, h⟩ := of_bind_eq_ok h
  have hpc := emitWhile_org h1
  cases h
  by_cases hi : st.pc.toNat ≤ i ∧ i < newpc.toNat
  · grind [emitWhile_zero]
  · rw [if_neg hi]
    exact (emitWhile_stores h1).frame i (by omega)

theorem processDirective_stores {d : Directive} {ops : List CStr} (horg : d ≠ .org)
    (h : processDirective d ops st = .ok st') : Stores st st' := by
  by_cases hequ : d = .equ
  · subst hequ
    obtain ⟨a, b, rest, -, ⟨-, rfl⟩ | ⟨v, -, -, rfl⟩⟩ := processDirective_equ h
    · exact Stores.refl _
    · exact ⟨Nat.le_refl _, fun _ _ => rfl⟩
  · by_cases harch : d = .arch
    · subst harch
      obtain ⟨arch, rfl⟩ := processDirective_arch h
      exact ⟨Nat.le_refl _, fun _ _ => rfl⟩
    grind [emitAll_stores, processDirective_emits]

theorem processTokens_stores (horg : isOrg toks = false) (h : processTokens toks st = .ok st') :
    Stores st st' := by
  match toks with
  | [] =>
    cases h
    exact Stores.refl _
  | t :: ops =>
    rcases processTokens_cases h with ⟨-, d, hd, h⟩ | ⟨-, h⟩
    · refine processDirective_stores ?_ h
      rintro rfl
      exact of_decide_eq_false horg hd
    grind [emitAll_stores, encodeLine_emits]

theorem processTokens_org (horg : isOrg toks = true) (h : processTokens toks st = .ok st') :
    ∃ target, orgTarget toks st = some target ∧ setOrg target st = .ok st' := by
  match toks with
  | [] => cases horg
  | t :: ops =>
    have hdir : lookupMnem directives t = some .org := of_decide_eq_true horg
    rcases processTokens_cases h with ⟨-, d, hd, h⟩ | ⟨hdot, -⟩
    · obtain rfl : d = .org := Option.some.inj (hd.symm.trans hdir)
      match ops with
      | [] => cases h
      | a :: _ =>
        obtain ⟨v, hv, h⟩ := of_bind_eq_ok h
        refine ⟨_, ?_, h⟩
        rw [orgTarget, if_pos hdir, hv]
        rfl
    · exact absurd (head_of_directive hdir) hdot

/-! ## A line of the second pass -/

theorem processLine_emit (hpass : st.pass = .emit) (h : processLine line (nextLine st) = .ok st') :
    processTokens (lineParts line).2 (nextLine st) = .ok st' := by
  have hnext : (nextLine st).pass = .emit := hpass
  obtain ⟨toks, htoks, h⟩ := of_bind_eq_ok h
  rw [processLabels_emit hnext, ok_bind] at h
  rwa [lineParts, htoks]

theorem processLine_stores (hpass : st.pass = .emit) (horg : isOrg (lineParts line).2 = false)
    (h : processLine line (nextLine st) = .ok st') : Stores st st' := by
  have hstores := processTokens_stores horg (processLine_emit hpass h)
  exact ⟨hstores.forward, hstores.frame⟩

theorem processLine_org (hpass : st.pass = .emit) (horg : isOrg (lineParts line).2 = true)
    (h : processLine line (nextLine st) = .ok st') :
    ∃ target, orgTarget (lineParts line).2 st = some target ∧ st'.pc = target ∧ ∀ i, st'.prog i =
        if st.pc.toNat ≤ i ∧ i < target.toNat then 0 else st.prog i := by
  obtain ⟨target, htarget, hset⟩ := processTokens_org horg (processLine_emit hpass h)
  exact ⟨target, htarget, (setOrg_eq_ok hset).2, fun i => setOrg_prog hset i⟩

/-! ## The ledger describes the image -/

/-- What the ledger says about the image, while no `.org` has changed a byte that
a line has emitted. -/
structure Describes (st₀ s : AsState) (r : Ledger) : Prop where
  emit : s.pass = .emit
  byte : ∀ i b, r.byte i = some b → s.prog i = b
  stored : ∀ i, r.byte i ≠ none → r.stored i = true
  filled : ∀ i, r.byte i = none → r.stored i = true → s.prog i = 0
  untouched : ∀ i, r.stored i = false → s.prog i = st₀.prog i

theorem describes_start (st₀ : AsState) :
    Describes st₀ (emitStart st₀).1 (emitStart st₀).2 where
  emit := rfl
  byte := fun _ _ h => nomatch h
  stored := fun _ h => absurd rfl h
  filled := fun _ _ h => nomatch h
  untouched := fun _ _ => rfl

theorem Describes.note {s' : AsState} (hr : Describes st₀ s r)
    (h : processLine line (nextLine s) = .ok s') (hfill : isOrg (lineParts line).2 = true →
      ∀ i, r.byte i ≠ none → s'.prog i = s.prog i) : Describes st₀ s' (r.note line s s') := by
  have hpass : s'.pass = .emit := (processLine_advances h).pass.trans hr.emit
  cases horg : isOrg (lineParts line).2 with
  | false =>
    have hstores := processLine_stores hr.emit horg h
    refine ⟨hpass, ?_, ?_, ?_, ?_⟩ <;> intro i <;> simp only [Ledger.note, horg, true_and] <;>
      by_cases hi : s.pc.toNat ≤ i ∧ i < s'.pc.toNat
    · simp_all
    · intro b hb
      rw [if_neg hi] at hb
      rw [hstores.frame i hi]
      exact hr.byte i b hb
    · simp [hi]
    · intro hb
      rw [if_neg hi] at hb
      simp [hr.stored i hb]
    · simp [hi]
    · intro hb hst
      rw [if_neg hi] at hb
      rw [hstores.frame i hi]
      exact hr.filled i hb (by simpa [hi] using hst)
    · simp [hi]
    · intro hst
      rw [hstores.frame i hi]
      exact hr.untouched i (by simpa [hi] using hst)
  | true =>
    obtain ⟨target, -, rfl, hprog⟩ := processLine_org hr.emit horg h
    have hkeep := hfill horg
    refine ⟨hpass, ?_, ?_, ?_, ?_⟩ <;> intro i <;>
      simp only [Ledger.note, horg, Bool.true_eq_false, false_and, if_false]
    · intro b hb
      rw [hkeep i (by rw [hb]; exact Option.some_ne_none b)]
      exact hr.byte i b hb
    · intro hb
      rw [hr.stored i hb, Bool.true_or]
    · intro hb hst
      rw [hprog i]
      by_cases hi : s.pc.toNat ≤ i ∧ i < s'.pc.toNat
      · rw [if_pos hi]
      · rw [if_neg hi]
        exact hr.filled i hb (by simpa [hi] using hst)
    · intro hst
      rw [Bool.or_eq_false_iff, decide_eq_false_iff_not] at hst
      rw [hprog i, if_neg hst.2]
      exact hr.untouched i hst.1

theorem describes_take {st1 : AsState} (hrun : assembleLines lines (emitStart st₀).1 = .ok st1)
    (hfill : ∀ k, (h : k < lines.length) → isOrg (lineParts lines[k]).2 = true →
      ∀ s r s', ledgerLines (lines.take k) (emitStart st₀) = .ok (s, r) →
        processLine lines[k] (nextLine s) = .ok s' →
        ∀ i, r.byte i ≠ none → s'.prog i = s.prog i) {k : ℕ} (hk : k ≤ lines.length) :
    ∃ s r, assembleLines (lines.take k) (emitStart st₀).1 = .ok s ∧
      ledgerLines (lines.take k) (emitStart st₀) = .ok (s, r) ∧ Describes st₀ s r := by
  induction k with
  | zero => exact ⟨_, _, rfl, rfl, describes_start st₀⟩
  | succ k ih =>
    have hlt : k < lines.length := hk
    obtain ⟨s, r, hs, hr, hdesc⟩ := ih (Nat.le_of_lt hlt)
    obtain ⟨s', hs', -⟩ := assembleLines_take hrun (k + 1)
    have hline := hs'
    rw [assembleLines_take_succ hlt hs] at hline
    refine ⟨s', r.note lines[k] s s', hs', ?_,
      hdesc.note hline fun horg => hfill k hlt horg s r s' hr hline⟩
    rw [ledgerLines_take_succ hlt hr]
    simp only [hline, ok_bind]

/-! ## The image -/

theorem isOrg_of_orgTarget {target : RivU32} (h : orgTarget toks st = some target) :
    isOrg toks = true := by
  match toks with
  | [] => cases h
  | [_] => cases h
  | t :: a :: _ =>
    rw [orgTarget] at h
    split at h
    · next hdir => exact decide_eq_true hdir
    · cases h

theorem org_keeps_iff {s' : AsState} (hpass : s.pass = .emit)
    (horg : isOrg (lineParts line).2 = true) (h : processLine line (nextLine s) = .ok s') :
    (∀ i, r.byte i ≠ none → s'.prog i = s.prog i) ↔ ∀ target ∈ orgTarget (lineParts line).2 s,
      ∀ i, s.pc.toNat ≤ i → i < target.toNat → r.byte i ≠ none → s.prog i = 0 := by
  obtain ⟨target, htarget, -, hprog⟩ := processLine_org hpass horg h
  grind [Option.some.inj]

/-- The image of an accepted text is what its lines have emitted, and no `.org`
erases any of it, exactly when the fills skip nothing but zeros and nothing is
left over from the first pass. -/
theorem padding_harmless_iff {arch : Arch} {base : RivU32} {text : List Char}
    {st₀ st₁ : AsState} (h : assemble arch base text = .ok (st₀, st₁)) :
    PaddingHarmless (fileLines text) st₀ st₁ ↔ FillsFree (fileLines text) st₀ st₁ := by
  obtain ⟨st₀', -, h⟩ := Exec.of_bind_eq_ok h
  obtain ⟨st₁', hfile, h⟩ := Exec.of_bind_eq_ok h
  cases h
  have hrun : assembleLines (fileLines text) (emitStart st₀).1 = .ok st₁ := hfile
  have hlast := fun hfill => describes_take hrun hfill (Nat.le_refl _)
  rw [List.take_length] at hlast
  constructor
  · intro hpad
    refine ⟨?_, ?_⟩
    · intro k hk s r hr target htarget
      obtain ⟨s', hs', -⟩ := assembleLines_take hrun (k + 1)
      have hs : assembleLines _ _ = .ok s := assembleLines_of_ledgerLines hr
      rw [assembleLines_take_succ hk hs] at hs'
      have horg := isOrg_of_orgTarget htarget
      exact (org_keeps_iff (ledgerLines_emit hr) horg hs').mp
        (hpad.fill k hk horg s r s' hr hs') target htarget
    · intro r hr i hi hstored
      obtain ⟨r', hr', himage⟩ := hpad.image
      obtain ⟨s, r'', -, hr'', hdesc⟩ := hlast hpad.fill
      rw [hr] at hr' hr''
      cases hr'
      cases hr''
      have hnone : r.byte i = none := by
        by_contra hbyte
        rw [hdesc.stored i hbyte] at hstored
        cases hstored
      rw [← hdesc.untouched i hstored, himage i hi, hnone]
      rfl
  · intro hfree
    have hfill : ∀ k, (h : k < (fileLines text).length) →
        isOrg (lineParts (fileLines text)[k]).2 = true →
        ∀ s r s', ledgerLines ((fileLines text).take k) (emitStart st₀) = .ok (s, r) →
          processLine (fileLines text)[k] (nextLine s) = .ok s' →
          ∀ i, r.byte i ≠ none → s'.prog i = s.prog i := by
      intro k hk horg s r s' hr hs'
      exact (org_keeps_iff (ledgerLines_emit hr) horg hs').mpr (hfree.skipped k hk s r hr)
    refine ⟨?_, hfill⟩
    obtain ⟨s, r, hs, hr, hdesc⟩ := hlast hfill
    obtain rfl : s = st₁ := Except.ok.inj (hs.symm.trans hrun)
    refine ⟨r, hr, fun i hi => ?_⟩
    cases hbyte : r.byte i with
    | some b => exact hdesc.byte i b hbyte
    | none =>
      cases hstored : r.stored i with
      | true => exact hdesc.filled i hbyte hstored
      | false => exact (hdesc.untouched i hstored).trans (hfree.stale r hr i hi hstored)

/-- A forward `.org` over offsets that no line has emitted to. -/
theorem padding_harmless_forward :
    ∃ st₀ st₁, assemble .riscv32 0 ".org 2\n.byte 7\n".toList = .ok (st₀, st₁) ∧
      PaddingHarmless (fileLines ".org 2\n.byte 7\n".toList) st₀ st₁ := by
  have hok : (assemble .riscv32 0 ".org 2\n.byte 7\n".toList).toBool = true := by
    decide +kernel
  obtain ⟨⟨st₀, st₁⟩, h⟩ := Exec.exists_ok_of_toBool hok
  refine ⟨st₀, st₁, h, (padding_harmless_iff h).mpr ?_⟩
  obtain ⟨st₀', hfirst, h⟩ := Exec.of_bind_eq_ok h
  obtain ⟨st₁', -, h⟩ := Exec.of_bind_eq_ok h
  cases h
  have hlines : fileLines ".org 2\n.byte 7\n".toList =
      [".org 2\n".toList, ".byte 7\n".toList] := by decide +kernel
  have hdata : isOrg (lineParts ".byte 7\n".toList).2 = false := by decide +kernel
  constructor
  · rw [hlines]
    intro k hk s r hr target htarget i hlo hhi hbyte
    cases k with
    | zero =>
      -- nothing has been emitted before the first line
      rw [List.take_zero] at hr
      cases hr
      exact absurd rfl hbyte
    | succ k =>
      obtain rfl : k = 0 := by
        rw [List.length_cons, List.length_singleton] at hk
        omega
      have horg := isOrg_of_orgTarget htarget
      rw [List.getElem_cons_succ, List.getElem_cons_zero, hdata] at horg
      cases horg
  · have hall : ∀ st₀ ∈
        (assembleFile ".org 2\n.byte 7\n".toList (initState .riscv32 0)).toOption,
        ∀ p ∈ (ledgerLines (fileLines ".org 2\n.byte 7\n".toList) (emitStart st₀)).toOption,
        p.1.maxPc = 3 ∧ (List.range 3).all p.2.stored = true := by
      decide +kernel
    intro r hr i hi hstored
    obtain ⟨hmax, hall⟩ := hall st₀ (by rw [hfirst]; rfl) (st₁, r) (by rw [hr]; rfl)
    rw [hmax] at hi
    rw [List.all_eq_true.mp hall i (List.mem_range.mpr hi)] at hstored
    cases hstored

/-- The text goes back over a byte and then forward again: the byte is lost. -/
theorem padding_erases_byte :
    ∃ st₀ st₁, assemble .riscv32 0 ".byte 1\n.org 0\n.org 1\n".toList = .ok (st₀, st₁) ∧
      ¬ PaddingHarmless (fileLines ".byte 1\n.org 0\n.org 1\n".toList) st₀ st₁ := by
  have hok : (assemble .riscv32 0 ".byte 1\n.org 0\n.org 1\n".toList).toBool = true := by
    decide +kernel
  obtain ⟨⟨st₀, st₁⟩, h⟩ := Exec.exists_ok_of_toBool hok
  refine ⟨st₀, st₁, h, ?_⟩
  obtain ⟨st₀', hfirst, h⟩ := Exec.of_bind_eq_ok h
  obtain ⟨st₁', -, h⟩ := Exec.of_bind_eq_ok h
  cases h
  have hlost : ∀ st₀ ∈
      (assembleFile ".byte 1\n.org 0\n.org 1\n".toList (initState .riscv32 0)).toOption,
      ∀ p ∈ (ledgerLines (fileLines ".byte 1\n.org 0\n.org 1\n".toList) (emitStart st₀)).toOption,
      p.1.maxPc = 1 ∧ p.1.prog 0 = 0 ∧ p.2.byte 0 = some 1 := by
    decide +kernel
  intro hpad
  obtain ⟨r, hr, himage⟩ := hpad.image
  obtain ⟨hmax, hzero, hbyte⟩ := hlost st₀ (by rw [hfirst]; rfl) (st₁, r) (by rw [hr]; rfl)
  have hread := himage 0 (by rw [hmax]; decide)
  rw [hzero, hbyte] at hread
  cases hread

end Rivet.Assembler
