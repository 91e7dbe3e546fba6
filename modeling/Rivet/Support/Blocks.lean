import Mathlib

/-!
# Blocks laid end to end

A sequence of blocks of given sizes, each starting where the one before it ends.
`start sizes i` is where block `i` starts; positions in different blocks are
different positions of the whole.
-/

namespace Blocks

def start (sizes : List ℕ) (i : ℕ) : ℕ := (sizes.take i).sum

variable {sizes : List ℕ} {i j n m : ℕ}

@[simp] theorem start_zero (sizes : List ℕ) : start sizes 0 = 0 := by simp [start]

theorem start_cons (n : ℕ) (sizes : List ℕ) (i : ℕ) :
    start (n :: sizes) (i + 1) = n + start sizes i := by simp [start]

theorem start_succ (h : sizes[i]? = some n) : start sizes (i + 1) = start sizes i + n := by
  rw [start, start, List.take_add_one, List.sum_append, h]
  simp

theorem start_le_sum (sizes : List ℕ) (i : ℕ) : start sizes i ≤ sizes.sum := by
  have h : (sizes.take i ++ sizes.drop i).sum = (sizes.take i).sum + (sizes.drop i).sum :=
    List.sum_append
  rw [List.take_append_drop] at h
  rw [start]
  omega

theorem start_mono (h : i ≤ j) : start sizes i ≤ start sizes j := by
  have hle := start_le_sum (sizes.take j) i
  grind [start, Nat.min_eq_left]

theorem end_le_start (h : sizes[i]? = some n) (hij : i < j) :
    start sizes i + n ≤ start sizes j := by
  rw [← start_succ h]
  exact start_mono hij

theorem end_le_sum (h : sizes[i]? = some n) : start sizes i + n ≤ sizes.sum := by
  rw [← start_succ h]
  exact start_le_sum sizes (i + 1)

theorem eq_of_start_add_eq {p q : ℕ} (hi : sizes[i]? = some n) (hj : sizes[j]? = some m)
    (hp : p < n) (hq : q < m) (h : start sizes i + p = start sizes j + q) : i = j ∧ p = q := by
  rcases Nat.lt_trichotomy i j with hlt | rfl | hlt
  · have := end_le_start hi hlt
    omega
  · exact ⟨rfl, by omega⟩
  · have := end_le_start hj hlt
    omega

end Blocks
