import Mathlib

/-!
# Hashing a message block by block

A compression function folds the blocks of a message into a state.  A streaming
implementation keeps the state after the blocks it has completed and the
elements that wait for the next one; `Absorbed` relates such a pair to the
message seen so far.
-/

namespace BlockHash

variable {σ α : Type} (compress : σ → List α → σ) (size : ℕ)

/-- The state after the first `n` blocks of a message. -/
def absorb : ℕ → σ → List α → σ
  | 0, s, _ => s
  | n + 1, s, msg => absorb n (compress s (msg.take size)) (msg.drop size)

def run (s : σ) (msg : List α) : σ := absorb compress size (msg.length / size) s msg

/-- `s` and `buf` are what is left of `msg`: the state after its completed
blocks, and the elements behind them. -/
structure Absorbed (s₀ : σ) (msg : List α) (s : σ) (buf : List α) : Prop where
  completed : ∃ n full, full.length = n * size ∧ msg = full ++ buf ∧
    s = absorb compress size n s₀ full
  fits : buf.length ≤ size

variable {compress size}

theorem absorb_succ_append {n : ℕ} {full block : List α} (s : σ)
    (hfull : full.length = n * size) (hblock : block.length = size) :
    absorb compress size (n + 1) s (full ++ block) =
      compress (absorb compress size n s full) block := by
  induction n generalizing s full with
  | zero => grind [absorb]
  | succ n ih =>
    grind [absorb]

namespace Absorbed

variable {s₀ s : σ} {msg buf : List α}

theorem nil (s₀ : σ) : Absorbed compress size s₀ [] s₀ [] where
  completed := ⟨0, [], by simp, rfl, rfl⟩
  fits := Nat.zero_le size

theorem append (h : Absorbed compress size s₀ msg s buf) {piece : List α}
    (hfits : buf.length + piece.length ≤ size) :
    Absorbed compress size s₀ (msg ++ piece) s (buf ++ piece) where
  completed := by
    obtain ⟨n, full, hfull, rfl, hs⟩ := h.completed
    exact ⟨n, full, hfull, List.append_assoc full buf piece, hs⟩
  fits := by rwa [List.length_append]

theorem flush (h : Absorbed compress size s₀ msg s buf) (hfull : buf.length = size) :
    Absorbed compress size s₀ msg (compress s buf) [] where
  completed := by
    obtain ⟨n, full, hlen, rfl, rfl⟩ := h.completed
    refine ⟨n + 1, full ++ buf, ?_, (List.append_nil _).symm, ?_⟩
    · rw [List.length_append, hlen, hfull, Nat.add_mul, Nat.one_mul]
    · exact (absorb_succ_append s₀ hlen hfull).symm
  fits := Nat.zero_le size

theorem run_eq (h : Absorbed compress size s₀ msg s []) (hpos : 0 < size) :
    run compress size s₀ msg = s := by
  obtain ⟨n, full, hlen, rfl, rfl⟩ := h.completed
  grind [run, Nat.mul_div_cancel]

end Absorbed
end BlockHash
