import Rivet.Assembler.Padding
import Rivet.Support.BitField

/-!
# The output cursor

`riv_as_emit_u8` is the one function that stores into the image, and it dies before it
would store behind the end.  The cursor therefore never passes the end, `g_max_pc` never
falls behind the cursor, and a padding loop runs for at most as many rounds as the image
has bytes, whatever its operand.
-/

namespace Rivet.Assembler

open CLib Exec

variable {st st' : AsState} {toks : List CStr} {line : CStr}

/-! ## Bounds -/

/-- The cursor is at most `g_max_pc`, which is in the image or at its end. -/
structure InBounds (st : AsState) : Prop where
  pc_le : st.pc.toNat ≤ st.maxPc.toNat
  max_le : st.maxPc.toNat ≤ maxProg

/-- The bounds are kept, and nothing behind the image is changed. -/
structure KeepsBounds (st st' : AsState) : Prop where
  inBounds : InBounds st → InBounds st'
  frame : ∀ i, maxProg ≤ i → st'.prog i = st.prog i

theorem KeepsBounds.refl (st : AsState) : KeepsBounds st st :=
  ⟨id, fun _ _ => rfl⟩

theorem KeepsBounds.trans {a b c : AsState} (hab : KeepsBounds a b) (hbc : KeepsBounds b c) :
    KeepsBounds a c :=
  ⟨fun h => hbc.inBounds (hab.inBounds h), fun i hi => (hbc.frame i hi).trans (hab.frame i hi)⟩

theorem keepsBounds_of_eq (hpc : st'.pc = st.pc) (hmax : st'.maxPc = st.maxPc)
    (hprog : st'.prog = st.prog) : KeepsBounds st st' where
  inBounds h := ⟨by rw [hpc, hmax]; exact h.pc_le, by rw [hmax]; exact h.max_le⟩
  frame i _ := by rw [hprog]

theorem toNat_ite_max (a b : RivU32) : (if a < b then b else a).toNat = max a.toNat b.toNat := by
  split
  · next h => exact (max_eq_right (Nat.le_of_lt h)).symm
  · next h => exact (max_eq_left (Nat.le_of_not_lt h)).symm

theorem rivAsEmitU8_cases (b : RivU8) (st : AsState) :
    rivAsEmitU8 b st = rivAsDie "program too large" none ∨
      st.pc.toNat < maxProg ∧ rivAsEmitU8 b st = .ok (st.put b) := by
  by_cases hfull : maxProg ≤ st.pc.toNat
  · exact .inl (if_pos hfull)
  · exact .inr ⟨Nat.lt_of_not_le hfull, if_neg hfull⟩

theorem put_keepsBounds (b : RivU8) (h : st.pc.toNat < maxProg) : KeepsBounds st (st.put b) where
  inBounds hst := by
    have hpc := put_pc_toNat (b := b) h
    have hmax : (st.put b).maxPc.toNat = max st.maxPc.toNat (st.put b).pc.toNat :=
      toNat_ite_max st.maxPc (st.pc + 1)
    exact ⟨hmax ▸ le_max_right _ _, hmax ▸ max_le hst.max_le (by omega)⟩
  frame i hi := Function.update_of_ne (by omega) _ _

theorem emitAll_keepsBounds {bs : List RivU8} (h : emitAll bs st = .ok st') :
    KeepsBounds st st' := by
  refine foldlM_inv (I := fun s => KeepsBounds st s) h (KeepsBounds.refl st) ?_
  intro b _ s s' hs hput
  obtain ⟨hpc, rfl⟩ := rivAsEmitU8_eq_ok hput
  exact hs.trans (put_keepsBounds b hpc)

theorem setOrg_keepsBounds {newpc : RivU32} (h : setOrg newpc st = .ok st') :
    KeepsBounds st st' := by
  obtain ⟨s, hfill, h⟩ := of_bind_eq_ok h
  obtain ⟨n, hn, -⟩ := emitWhile_emits hfill
  refine (emitAll_keepsBounds hn).trans ⟨fun hs => ?_, ?_⟩
  · have hpc := emitWhile_org hfill
    have hle := hs.pc_le
    cases h
    have hmax := toNat_ite_max s.maxPc newpc
    exact ⟨hmax ▸ le_max_right _ _, hmax ▸ max_le hs.max_le (by have := hs.max_le; omega)⟩
  · cases h
    exact fun _ _ => rfl

variable {ops rest : List CStr}

theorem processDirective_keepsBounds {d : Directive} (h : processDirective d ops st = .ok st') :
    KeepsBounds st st' := by
  by_cases horg : d = .org
  · grind [setOrg_keepsBounds, processDirective_org]
  by_cases hequ : d = .equ
  · subst hequ
    obtain ⟨a, b, rest, -, ⟨-, rfl⟩ | ⟨v, -, -, rfl⟩⟩ := processDirective_equ h
    · exact KeepsBounds.refl _
    · exact keepsBounds_of_eq rfl rfl rfl
  by_cases harch : d = .arch
  · grind [keepsBounds_of_eq, processDirective_arch]
  grind [emitAll_keepsBounds, processDirective_emits]

theorem processLabels_keepsBounds (h : processLabels toks st = .ok (st', rest)) :
    KeepsBounds st st' := by
  cases hpass : st.pass with
  | collect =>
    obtain ⟨-, ⟨new, rfl⟩, -⟩ := processLabels_collect hpass h
    exact keepsBounds_of_eq rfl rfl rfl
  | emit => simp_all [processLabels_emit, KeepsBounds.refl]

theorem processTokens_keepsBounds (h : processTokens toks st = .ok st') : KeepsBounds st st' := by
  cases toks with
  | nil =>
    cases h
    exact KeepsBounds.refl _
  | cons t ops =>
    obtain ⟨-, d, -, h⟩ | ⟨-, h⟩ := processTokens_cases h
    all_goals grind [processDirective_keepsBounds, emitAll_keepsBounds, encodeLine_emits]

theorem processLine_keepsBounds (h : processLine line st = .ok st') : KeepsBounds st st' := by
  obtain ⟨toks, -, h⟩ := of_bind_eq_ok h
  obtain ⟨⟨s, rest⟩, hlabels, h⟩ := of_bind_eq_ok h
  exact (processLabels_keepsBounds hlabels).trans (processTokens_keepsBounds h)

theorem assembleLines_keepsBounds {lines : List CStr} (h : assembleLines lines st = .ok st') :
    KeepsBounds st st' := by
  refine foldlM_inv (I := fun s => KeepsBounds st s) h (KeepsBounds.refl st) ?_
  intro l _ s s' hs hline
  have hnext : KeepsBounds s (nextLine s) := keepsBounds_of_eq rfl rfl rfl
  exact (hs.trans hnext).trans (processLine_keepsBounds hline)

/-! ## Between the lines -/

/-- The state is one between two lines of a pass that starts in `st₀`. -/
def Between (text : List Char) (st₀ st : AsState) : Prop :=
  ∃ k, assembleLines ((fileLines text).take k) (startFile st₀) = .ok st

/-- The state is one between two lines of either pass over a text. -/
def BetweenLines (arch : Arch) (base : RivU32) (text : List Char) (st : AsState) : Prop :=
  Between text (initState arch base) st ∨
    ∃ st₀, assembleFile text (initState arch base) = .ok st₀ ∧
      Between text { st₀ with pass := .emit } st

theorem InBounds.startFile (h : InBounds st) : InBounds (startFile st) :=
  ⟨Nat.zero_le _, h.max_le⟩

theorem Between.inBounds {text : List Char} (h : Between text st st') (hst : InBounds st) :
    InBounds st' := by
  obtain ⟨k, hk⟩ := h
  exact (assembleLines_keepsBounds hk).inBounds hst.startFile

theorem BetweenLines.inBounds {arch : Arch} {base : RivU32} {text : List Char}
    (h : BetweenLines arch base text st) : InBounds st := by
  have hinit : InBounds (initState arch base) := ⟨le_rfl, Nat.zero_le _⟩
  obtain h | ⟨st0, hfile, h⟩ := h
  · exact h.inBounds hinit
  · have hst0 := (assembleLines_keepsBounds hfile).inBounds hinit.startFile
    exact h.inBounds ⟨hst0.pc_le, hst0.max_le⟩

/-! ## Padding loops -/

/-- A padding loop that has `n` rounds to end in. -/
def padRounds (pad : RivU32 → Bool) : (n : ℕ) → AsState → Option (Except AsError AsState)
  | 0, _ => none
  | n + 1, st =>
    if pad st.pc then
      match rivAsEmitU8 0 st with
      | .error e => some (.error e)
      | .ok st => padRounds pad n st
    else some (.ok st)

theorem padRounds_eq (pad : RivU32 → Bool) (st : AsState) (n : ℕ)
    (hn : maxProg < st.pc.toNat + n) (hpos : 0 < n) :
    padRounds pad n st = some (emitWhile pad st) := by
  induction n generalizing st with
  | zero => exact absurd hpos (lt_irrefl 0)
  | succ n ih =>
    rw [padRounds, emitWhile]
    by_cases hpad : pad st.pc = true
    · obtain hdie | ⟨hlt, hput⟩ := rivAsEmitU8_cases 0 st
      · have hfull : maxProg ≤ st.pc.toNat := by
          by_contra hlt
          rw [rivAsEmitU8, if_neg hlt] at hdie
          cases hdie
        rw [if_pos hpad, if_pos hpad, hdie, dif_pos hfull]
        rfl
      grind [Nat.not_le.mpr, put_pc_toNat]
    · rw [if_neg hpad, if_neg hpad]

def Ends (r : Except AsError AsState) : Prop :=
  (∃ st, r = .ok st) ∨ r = rivAsDie "program too large" none

theorem emitAll_ends (bs : List RivU8) (st : AsState) : Ends (emitAll bs st) := by
  induction bs generalizing st with
  | nil => exact .inl ⟨st, rfl⟩
  | cons b bs ih =>
    rw [emitAll_cons]
    obtain hdie | ⟨-, hput⟩ := rivAsEmitU8_cases b st
    · rw [hdie]
      exact .inr rfl
    · rw [hput]
      exact ih (st.put b)

theorem emitWhile_ends (pad : RivU32 → Bool) (st : AsState) : Ends (emitWhile pad st) := by
  induction st using emitWhile.induct pad with
  | case1 st hpad hfull =>
    rw [emitWhile, if_pos hpad, dif_pos hfull]
    exact .inr rfl
  | case2 st hpad hfull ih => grind [emitWhile]
  | case3 st hpad =>
    rw [emitWhile, if_neg hpad]
    exact .inl ⟨st, rfl⟩

theorem setOrg_ends (newpc : RivU32) (st : AsState) : Ends (setOrg newpc st) := by
  rw [setOrg]
  obtain ⟨s, hs⟩ | hdie := emitWhile_ends (fun pc => pc < newpc) st
  · rw [hs]
    exact .inl ⟨_, rfl⟩
  · rw [hdie]
    exact .inr rfl

theorem processDirective_ends {d : Directive} (hd : d.isSize = true) (hne : ops ≠ [])
    (hops : ∀ a ∈ ops, ∃ v, rivAsParseImm st a = .ok v) : Ends (processDirective d ops st) := by
  obtain ⟨a, rest, rfl⟩ := List.exists_cons_of_ne_nil hne
  obtain ⟨v, hv⟩ := hops a List.mem_cons_self
  cases d with
  | org =>
    simp only [processDirective, hv, ok_bind]
    exact setOrg_ends _ st
  | zero =>
    cases rest with
    | nil =>
      simp only [processDirective, hv, ok_bind]
      exact emitAll_ends _ st
    | cons b rest =>
      obtain ⟨fill, hfill⟩ := hops b (by simp)
      simp_all [processDirective, ok_bind, emitAll_ends]
  | align | p2align =>
    simp only [processDirective, hv, ok_bind]
    exact emitWhile_ends _ st
  | text | word | quad | byte | half | ascii | asciz | global | equ | arch => cases hd

/-! ## Alignment -/

theorem alignTo_dvd {a : RivU32} {k : ℕ} (ha : a.toNat = 2 ^ k) (h : alignTo a st = .ok st') :
    2 ^ k ∣ st'.pc.toNat := by
  obtain ⟨n, hn, -, hend⟩ := emitWhile_emits h
  have hpc : st'.pc = st.pc + BitVec.ofNat 32 n := by
    rw [(emitAll_sameContext hn).2, List.length_replicate]
  have hmask : (a - 1).toNat = 2 ^ k - 1 := by
    grind [BitVec.le_def, BitVec.toNat_sub_of_le, Nat.two_pow_pos]
  grind [Nat.dvd_of_mod_eq_zero, BitField.toNat_and_mask]

theorem align_dvd {a : CStr} {v : ℤ} {k : ℕ} (hv : rivAsParseImm st a = .ok v)
    (hpow : (BitVec.ofInt 32 v).toNat = 2 ^ k)
    (h : processDirective .align (a :: rest) st = .ok st') : 2 ^ k ∣ st'.pc.toNat := by
  have hge : ¬BitVec.ofInt 32 v < 1 := by simp_all [BitVec.lt_def]
  simp only [processDirective, hv, ok_bind, if_neg hge] at h
  exact alignTo_dvd hpow h

theorem p2align_dvd {a : CStr} {v : ℤ} (hv : rivAsParseImm st a = .ok v)
    (hexp : (BitVec.ofInt 32 v).toNat < 32) (h : processDirective .p2align (a :: rest) st = .ok st')
    : 2 ^ (BitVec.ofInt 32 v).toNat ∣ st'.pc.toNat := by
  simp only [processDirective, hv, ok_bind] at h
  refine alignTo_dvd ?_ h
  rw [Nat.mod_eq_of_lt hexp, BitVec.natCast_eq_ofNat, BitVec.toNat_ofNat, Nat.one_shiftLeft]
  exact Nat.mod_eq_of_lt (Nat.pow_lt_pow_right (by decide) hexp)

/-- In both passes over any text, the cursor is in bounds between the lines; no store
goes behind the image; the padding directives end, their loops after at most one round
for each byte of the image and one more; and an alignment aligns. -/
theorem cursor_in_bounds {arch : Arch} {base : RivU32} {text : List Char}
    (h : BetweenLines arch base text st) : st.pc ≤ st.maxPc ∧ st.maxPc.toNat ≤ maxProg ∧
      (∀ b s, rivAsEmitU8 b s = rivAsDie "program too large" none ∨
        s.pc.toNat < maxProg ∧ rivAsEmitU8 b s = .ok (s.put b)) ∧
      (∀ line s s', processLine line s = .ok s' → ∀ i ≥ maxProg, s'.prog i = s.prog i) ∧
      (∀ pad s, padRounds pad (maxProg + 1) s = some (emitWhile pad s)) ∧
      (∀ d ops, d.isSize = true → ops ≠ [] → (∀ a ∈ ops, ∃ v, rivAsParseImm st a = .ok v) →
        Ends (processDirective d ops st)) ∧ ∀ a rest v st', rivAsParseImm st a = .ok v →
        (∀ k, (BitVec.ofInt 32 v).toNat = 2 ^ k →
          processDirective .align (a :: rest) st = .ok st' → 2 ^ k ∣ st'.pc.toNat) ∧
        ((BitVec.ofInt 32 v).toNat < 32 → processDirective .p2align (a :: rest) st = .ok st' →
          2 ^ (BitVec.ofInt 32 v).toNat ∣ st'.pc.toNat) := by
  refine ⟨h.inBounds.pc_le, h.inBounds.max_le, rivAsEmitU8_cases, ?_, ?_, ?_, ?_⟩
  · exact fun line s s' hline => (processLine_keepsBounds hline).frame
  · exact fun pad s => padRounds_eq pad s _ (by omega) (Nat.succ_pos _)
  · exact fun d ops hd hne hops => processDirective_ends hd hne hops
  · exact fun a rest v st' hv => ⟨fun k => align_dvd hv, p2align_dvd hv⟩

/-- Behind `.byte 1` and `.p2align 3` the cursor is eight, and in bounds. -/
theorem cursor_in_bounds_p2align :
    ∃ st, BetweenLines .riscv32 0 ".byte 1\n.p2align 3\n".toList st ∧ st.pc = 8 ∧
      st.pc ≤ st.maxPc := by
  have hrun : (assembleFile ".byte 1\n.p2align 3\n".toList (initState .riscv32 0)).toOption.map
      AsState.pc = some 8 := by decide +kernel
  obtain ⟨st, hst, hpc⟩ := Option.map_eq_some_iff.mp hrun
  have hfile := Exec.toOption_eq_some_iff.mp hst
  have hbetween : BetweenLines .riscv32 0 ".byte 1\n.p2align 3\n".toList st :=
    .inl ⟨_, by rw [List.take_length]; exact hfile⟩
  exact ⟨st, hbetween, hpc, (cursor_in_bounds hbetween).1⟩

end Rivet.Assembler
