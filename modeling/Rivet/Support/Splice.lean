import Mathlib

/-!
# Overwriting a range of a list

`splice l a xs` is `l` with the elements from position `a` on replaced by `xs`,
as a copy into a buffer leaves it.
-/

namespace Splice

variable {α : Type}

def splice (l : List α) (a : ℕ) (xs : List α) : List α :=
  l.take a ++ xs ++ l.drop (a + xs.length)

variable {l : List α} {a : ℕ} {xs : List α}

@[simp] theorem splice_nil (l : List α) (a : ℕ) : splice l a [] = l := by simp [splice]

theorem length_splice (h : a + xs.length ≤ l.length) : (splice l a xs).length = l.length := by
  grind [splice]

theorem set_eq_splice (x : α) (h : a < l.length) : l.set a x = splice l a [x] := by
  rw [splice, List.set_eq_take_append_cons_drop, if_pos h, List.append_assoc]
  rfl

theorem splice_splice (l : List α) (a : ℕ) (xs ys : List α) (h : a ≤ l.length) :
    splice (splice l a xs) (a + xs.length) ys = splice l a (xs ++ ys) := by
  have hlen : (l.take a ++ xs).length = a + xs.length := by simp_all
  have htake : (splice l a xs).take (a + xs.length) = l.take a ++ xs := by
    rw [splice, ← hlen, List.take_left]
  have hdrop : (splice l a xs).drop (a + xs.length + ys.length) =
      l.drop (a + xs.length + ys.length) := by
    rw [splice, ← List.drop_drop, ← hlen, List.drop_left, hlen, List.drop_drop]
  simp_all [splice, Nat.add_assoc]

theorem getElem?_splice (h : a + xs.length ≤ l.length) (j : ℕ) :
    (splice l a xs)[j]? = if a ≤ j ∧ j < a + xs.length then xs[j - a]? else l[j]? := by
  rw [splice]
  by_cases hlow : j < a
  · grind
  grind

theorem splice_all (h : xs.length = l.length) : splice l 0 xs = xs := by simp [splice, h]

end Splice
