import Mathlib.Tactic.Common

/-!
# Runs of a step function

A system is a partial step function on states and actions: an action that is
not enabled has no successor.  A run is a list of actions, and what holds along
every run follows from what each step preserves.
-/

namespace Runs

variable {σ α : Type*} {step : σ → α → Option σ}

/-- The state after a list of actions, if each of them is enabled in turn. -/
def exec (step : σ → α → Option σ) (s : σ) (as : List α) : Option σ :=
  as.foldlM step s

/-- Every step of the run from `s` meets `ok` in the state it is taken in. -/
def Meets (step : σ → α → Option σ) (ok : σ → α → Prop) : σ → List α → Prop
  | _, [] => True
  | s, a :: as => ok s a ∧ ∀ s', step s a = some s' → Meets step ok s' as

instance Meets.decidable {ok : σ → α → Prop} [∀ s a, Decidable (ok s a)] :
    (s : σ) → (as : List α) → Decidable (Meets step ok s as)
  | _, [] => isTrue trivial
  | s, a :: as =>
    match h : step s a with
    | none => decidable_of_iff (ok s a) (by simp [Meets, h])
    | some s' =>
      have : Decidable (Meets step ok s' as) := Meets.decidable s' as
      decidable_of_iff (ok s a ∧ Meets step ok s' as) (by simp [Meets, h])

/-- Every state the run from `s` goes through satisfies `P`. -/
def Always (step : σ → α → Option σ) (P : σ → Prop) : σ → List α → Prop
  | s, [] => P s
  | s, a :: as => P s ∧ ∀ s', step s a = some s' → Always step P s' as

@[simp] theorem exec_nil (s : σ) : exec step s [] = some s := rfl

theorem exec_cons (s : σ) (a : α) (as : List α) :
    exec step s (a :: as) = (step s a).bind fun s' => exec step s' as := rfl

variable {Inv P : σ → Prop} {ok ok' : σ → α → Prop} {s s' : σ} {as : List α}

theorem inv_of_meets (hstep : ∀ s a s', Inv s → ok s a → step s a = some s' → Inv s') (hs : Inv s)
    (hok : Meets step ok s as) (h : exec step s as = some s') : Inv s' := by
  induction as generalizing s with
  | nil =>
    cases h
    exact hs
  | cons a as ih =>
    rw [exec_cons, Option.bind_eq_some_iff] at h
    obtain ⟨s1, hs1, h⟩ := h
    exact ih (hstep s a s1 hs hok.1 hs1) (hok.2 s1 hs1) h

theorem Always.head (h : Always step P s as) : P s := by
  cases as with
  | nil => exact h
  | cons a as => exact h.1

theorem always_of_meets (hstep : ∀ s a s', Inv s → ok s a → step s a = some s' → Inv s')
    (hP : ∀ s, Inv s → P s) (hs : Inv s) (hok : Meets step ok s as) : Always step P s as := by
  induction as generalizing s with
  | nil => exact hP s hs
  | cons a as ih =>
    exact ⟨hP s hs, fun s' h => ih (hstep s a s' hs hok.1 h) (hok.2 s' h)⟩

theorem meets_of_always (hbad : ∀ s a s', P s → ¬ok s a → step s a = some s' → ¬P s')
    (h : Always step P s as) (hrun : exec step s as = some s') : Meets step ok s as := by
  induction as generalizing s with
  | nil => exact trivial
  | cons a as ih =>
    rw [exec_cons, Option.bind_eq_some_iff] at hrun
    obtain ⟨s1, hs1, hrun⟩ := hrun
    constructor
    · by_contra hno
      exact hbad s a s1 h.1 hno hs1 (h.2 s1 hs1).head
    · intro s2 hs2
      cases hs1.symm.trans hs2
      exact ih (h.2 s1 hs1) hrun

theorem always_iff_meets (hprog : ∀ s a, Inv s → ∃ s', step s a = some s')
    (hstep : ∀ s a s', Inv s → ok s a → step s a = some s' → Inv s') (hP : ∀ s, Inv s → P s)
    (hbad : ∀ s a s', Inv s → ¬ok s a → step s a = some s' → ¬P s') (hs : Inv s) :
    Always step P s as ↔ Meets step ok s as := by
  constructor
  · intro h
    induction as generalizing s with
    | nil => exact trivial
    | cons a as ih =>
      have hok : ok s a := by
        by_contra hno
        obtain ⟨s', hs'⟩ := hprog s a hs
        exact hbad s a s' hs hno hs' (h.2 s' hs').head
      exact ⟨hok, fun s' hs' => ih (hstep s a s' hs hok hs') (h.2 s' hs')⟩
  · exact always_of_meets hstep hP hs

theorem always_iff_meets_of_exec {pre : σ → α → Prop}
    (hstep : ∀ s a s', Inv s → pre s a → ok s a → step s a = some s' → Inv s')
    (hP : ∀ s, Inv s → P s)
    (hbad : ∀ s a s', Inv s → pre s a → ¬ok s a → step s a = some s' → ¬P s') (hs : Inv s)
    (hpre : Meets step pre s as) (hrun : exec step s as = some s') :
    Always step P s as ↔ Meets step ok s as := by
  induction as generalizing s with
  | nil => exact ⟨fun _ => trivial, fun _ => hP s hs⟩
  | cons a as ih =>
    rw [exec_cons, Option.bind_eq_some_iff] at hrun
    obtain ⟨s1, hs1, hrun⟩ := hrun
    constructor
    · intro h
      have hok : ok s a := by
        by_contra hno
        exact hbad s a s1 hs hpre.1 hno hs1 (h.2 s1 hs1).head
      refine ⟨hok, fun s2 hs2 => ?_⟩
      cases hs1.symm.trans hs2
      exact (ih (hstep s a s1 hs hpre.1 hok hs1) (hpre.2 s1 hs1) hrun).mp (h.2 s1 hs1)
    · intro h
      refine ⟨hP s hs, fun s2 hs2 => ?_⟩
      cases hs1.symm.trans hs2
      exact (ih (hstep s a s1 hs hpre.1 h.1 hs1) (hpre.2 s1 hs1) hrun).mpr (h.2 s1 hs1)

theorem meets_of_forall (h : ∀ s a, ok s a) (s : σ) (as : List α) : Meets step ok s as := by
  induction as generalizing s with
  | nil => exact trivial
  | cons a as ih => exact ⟨h s a, fun s' _ => ih s'⟩

theorem meets_congr (Inv : σ → Prop) (hstep : ∀ s a s', Inv s → step s a = some s' → Inv s')
    (hiff : ∀ s a s', Inv s → step s a = some s' → (ok s a ↔ ok' s a)) (hs : Inv s)
    (h : exec step s as = some s') : Meets step ok s as ↔ Meets step ok' s as := by
  induction as generalizing s with
  | nil => exact Iff.rfl
  | cons a as ih =>
    rw [exec_cons, Option.bind_eq_some_iff] at h
    obtain ⟨s1, hs1, h⟩ := h
    apply and_congr (hiff s a s1 hs hs1)
    grind

theorem meets_iff_meets (Inv : σ → Prop) (hiff : ∀ s a, Inv s → (ok s a ↔ ok' s a))
    (hstep : ∀ s a s', Inv s → ok s a → step s a = some s' → Inv s') (hs : Inv s) :
    Meets step ok s as ↔ Meets step ok' s as := by
  induction as generalizing s with
  | nil => exact Iff.rfl
  | cons a as ih =>
    constructor
    · rintro ⟨hok, hrest⟩
      refine ⟨(hiff s a hs).mp hok, fun s' hs' => ?_⟩
      exact (ih (hstep s a s' hs hok hs')).mp (hrest s' hs')
    · rintro ⟨hok', hrest⟩
      have hok := (hiff s a hs).mpr hok'
      exact ⟨hok, fun s' hs' => (ih (hstep s a s' hs hok hs')).mpr (hrest s' hs')⟩

theorem inv_of_exec (hstep : ∀ s a s', Inv s → step s a = some s' → Inv s') (hs : Inv s)
    (h : exec step s as = some s') : Inv s' :=
  inv_of_meets (fun s a s' hs _ h => hstep s a s' hs h) hs
    (meets_of_forall (fun _ _ => trivial) s as) h

end Runs
