import Mathlib.Tactic.Common

/-!
# Computations that may fail

Rules for peeling a chain of binds in `Except` apart, one step at a time.
-/

namespace Exec

variable {ε α β : Type}

@[simp] theorem ok_bind (a : α) (f : α → Except ε β) : (Except.ok a >>= f) = f a := rfl

@[simp] theorem error_bind (e : ε) (f : α → Except ε β) :
    ((Except.error e : Except ε α) >>= f) = .error e := rfl

variable {x : Except ε α} {f : β → α → Except ε β}

theorem of_bind_eq_ok {f : α → Except ε β} {b : β} (h : x >>= f = .ok b) :
    ∃ a, x = .ok a ∧ f a = .ok b := by
  cases x with
  | error e => cases h
  | ok a => exact ⟨a, rfl, h⟩

theorem foldlM_inv {I : β → Prop} {l : List α} {b b' : β} (h : l.foldlM f b = .ok b') (hb : I b)
    (step : ∀ a ∈ l, ∀ b b', I b → f b a = .ok b' → I b') : I b' := by
  induction l generalizing b with
  | nil =>
    cases h
    exact hb
  | cons a l ih =>
    obtain ⟨b1, h1, h⟩ := of_bind_eq_ok h
    grind

theorem foldlM_error {P : ε → Prop} {l : List α} {b : β} {e : ε} (h : l.foldlM f b = .error e)
    (step : ∀ b a e, f b a = .error e → P e) : P e := by
  induction l generalizing b with
  | nil => cases h
  | cons a l ih =>
    rw [List.foldlM_cons] at h
    cases hstep : f b a with
    | error e' =>
      rw [hstep] at h
      cases h
      exact step b a e hstep
    | ok b' =>
      rw [hstep] at h
      exact ih h

theorem toOption_eq_some_iff {a : α} : x.toOption = some a ↔ x = .ok a := by
  cases x with
  | error | ok => simp [Except.toOption]

theorem exists_ok_of_toBool (h : x.toBool = true) : ∃ a, x = .ok a := by
  cases x with
  | error e => cases h
  | ok a => exact ⟨a, rfl⟩

end Exec
