import Mathlib

/-!
# Byte-addressed memory

Numbers of `n` bytes, least significant byte first, in a memory of bytes, and lists whose
links are kept in such a memory.
-/

namespace ByteMem

open Function

abbrev Bytes := ℕ → BitVec 8

variable {n k a b v x : ℕ} {m m' : Bytes}

def load : ℕ → Bytes → ℕ → ℕ
  | 0, _, _ => 0
  | n + 1, m, a => (m a).toNat + 256 * load n m (a + 1)

def store : ℕ → Bytes → ℕ → ℕ → Bytes
  | 0, m, _, _ => m
  | n + 1, m, a, v => update (store n m (a + 1) (v / 256)) a (BitVec.ofNat 8 v)

theorem load_congr (h : ∀ x, a ≤ x → x < a + n → m x = m' x) : load n m a = load n m' a := by
  induction n generalizing a with
  | zero => rfl
  | succ n ih => grind [load]

theorem store_apply (h : x < a ∨ a + n ≤ x) : store n m a v x = m x := by
  induction n generalizing a v with
  | zero => rfl
  | succ n ih =>
    have hne : x ≠ a := by omega
    rw [store, update_of_ne hne, ih (by omega)]

theorem load_store_self (n : ℕ) (m : Bytes) (a v : ℕ) : load n (store n m a v) a = v % 256 ^ n := by
  induction n generalizing a v with
  | zero => rw [load, Nat.pow_zero, Nat.mod_one]
  | succ n ih =>
    have hrest : load n (store (n + 1) m a v) (a + 1) =
        load n (store n m (a + 1) (v / 256)) (a + 1) :=
      load_congr fun x hx _ => update_of_ne (by omega) _ _
    rw [load, hrest, ih, store, update_self, BitVec.toNat_ofNat, pow_succ' 256 n, Nat.mod_mul]

theorem load_store_of_disjoint (h : a + n ≤ b ∨ b + k ≤ a) :
    load k (store n m a v) b = load k m b :=
  load_congr fun _ _ _ => store_apply (by omega)

/-! ## Linked lists -/

section Chain

variable {P : Type*} {next next' : P → P} {null p : P} {ps : List P}

/-- Following `next` from `p` one passes `ps` and comes to `null`. -/
def Chain (next : P → P) (null : P) : P → List P → Prop
  | p, [] => p = null
  | p, q :: qs => p = q ∧ q ≠ null ∧ Chain next null (next q) qs

theorem Chain.congr (h : Chain next null p ps) (heq : ∀ q ∈ ps, next' q = next q) :
    Chain next' null p ps := by
  induction ps generalizing p with
  | nil => exact h
  | cons q qs ih =>
    obtain ⟨hp, hq, hrest⟩ := h
    refine ⟨hp, hq, ih ?_ fun r hr => heq r (List.mem_cons_of_mem q hr)⟩
    rw [heq q List.mem_cons_self]
    exact hrest

theorem Chain.eq_null_iff (h : Chain next null p ps) : p = null ↔ ps = [] := by
  cases ps with
  | nil => exact iff_of_true h rfl
  | cons q qs => simp [h.1, h.2.1]

theorem Chain.exists_cons (h : Chain next null p ps) (hp : p ≠ null) :
    ∃ qs, ps = p :: qs ∧ Chain next null (next p) qs := by
  cases ps with
  | nil => exact absurd h hp
  | cons q qs =>
    obtain ⟨rfl, -, hrest⟩ := h
    exact ⟨qs, rfl, hrest⟩

end Chain

end ByteMem
