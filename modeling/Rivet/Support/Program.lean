import Mathlib.Order.Defs.Unbundled
import Mathlib.Tactic.Common

/-!
# Programs with state and failure

A program is a function of the monad `StateT σ (Except ε)`.  `Keeps R m` says
that whenever `m` returns, the states before and after it are related by `R`;
the rules below prove it by following the program's text, for every relation
that is reflexive and transitive.  `Ends stops m s post` says what `m` does from one
state: it returns with `post`, or stops for one of the reasons `stops`.
-/

namespace Program

variable {ε σ α β : Type}

theorem run_bind_eq_ok {m : StateT σ (Except ε) α} {f : α → StateT σ (Except ε) β}
    {s s'' : σ} {b : β} (h : (m >>= f).run s = .ok (b, s'')) :
    ∃ a s', m.run s = .ok (a, s') ∧ (f a).run s' = .ok (b, s'') := by
  rw [StateT.run_bind] at h
  cases hm : m.run s with
  | error e =>
    rw [hm] at h
    cases h
  | ok r =>
    rw [hm] at h
    exact ⟨r.1, r.2, rfl, h⟩

/-- Whenever `m` returns, the states before and after it are related. -/
def Keeps (R : σ → σ → Prop) (m : StateT σ (Except ε) α) : Prop :=
  ∀ s a s', m.run s = .ok (a, s') → R s s'

section Rules

variable {R : σ → σ → Prop}

theorem keeps_pure [Std.Refl R] (a : α) : Keeps R (pure a : StateT σ (Except ε) α) := by
  intro s b s' h
  cases h
  exact Std.Refl.refl s

theorem Keeps.bind [IsTrans σ R] {m : StateT σ (Except ε) α}
    {f : α → StateT σ (Except ε) β} (hm : Keeps R m) (hf : ∀ a, Keeps R (f a)) :
    Keeps R (m >>= f) := by
  intro s b s'' h
  obtain ⟨a, s', hfirst, hrest⟩ := run_bind_eq_ok h
  exact IsTrans.trans s s' s'' (hm s a s' hfirst) (hf a s' b s'' hrest)

theorem keeps_get_bind [Std.Refl R] [IsTrans σ R] {f : σ → StateT σ (Except ε) β}
    (hf : ∀ s, Keeps R (f s)) : Keeps R (get >>= f) := by
  refine Keeps.bind ?_ hf
  intro s a s' h
  cases h
  exact Std.Refl.refl s

theorem keeps_modify {f : σ → σ} (hf : ∀ s, R s (f s)) :
    Keeps R (modify f : StateT σ (Except ε) PUnit) := by
  intro s a s' h
  cases h
  exact hf s

theorem keeps_throw (e : ε) : Keeps R (throw e : StateT σ (Except ε) α) := by
  intro s a s' h
  cases h

end Rules

/-- Started in `s`, the program returns a result and a state that satisfy `post`, or
it stops for one of the reasons `stops`. -/
def Ends (stops : ε → Prop) (m : StateT σ (Except ε) α) (s : σ) (post : α → σ → Prop) : Prop :=
  match m.run s with
  | .ok (a, s') => post a s'
  | .error e => stops e

section Ends

variable {stops : ε → Prop} {s : σ} {post : β → σ → Prop}

theorem ends_pure {b : β} (h : post b s) : Ends stops (pure b) s post := h

theorem ends_modify {f : σ → σ} {post : PUnit → σ → Prop} (h : post () (f s)) :
    Ends stops (modify f) s post := h

theorem ends_get_bind {f : σ → StateT σ (Except ε) β} (h : Ends stops (f s) s post) :
    Ends stops (get >>= f) s post := h

theorem Ends.bind {m : StateT σ (Except ε) α} {f : α → StateT σ (Except ε) β}
    {mid : α → σ → Prop} (hm : Ends stops m s mid)
    (hf : ∀ a s', mid a s' → Ends stops (f a) s' post) : Ends stops (m >>= f) s post := by
  unfold Ends at hm ⊢
  rw [StateT.run_bind]
  cases hrun : m.run s with
  | error e =>
    rw [hrun] at hm
    exact hm
  | ok r =>
    rw [hrun] at hm
    exact hf r.1 r.2 hm

theorem Ends.mono {m : StateT σ (Except ε) β} {post' : β → σ → Prop}
    (hm : Ends stops m s post) (h : ∀ b s', post b s' → post' b s') : Ends stops m s post' := by
  unfold Ends at hm ⊢
  grind

end Ends

end Program
