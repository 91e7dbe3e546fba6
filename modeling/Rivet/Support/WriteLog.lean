import Mathlib

/-!
# Byte arrays as the writes made to them

The contents of a file are determined by the writes made to it: a position holds
what the latest write that covers it put there, and the file ends where the
furthest write ends.  `Holds` relates an array and a size to such a log; nothing
is said about positions that no write covers.
-/

namespace WriteLog

variable {β : Type}

/-- One write of some elements at a position. -/
structure Write (β : Type) where
  off : ℕ
  bytes : List β
  deriving DecidableEq, Repr

def Write.stop (w : Write β) : ℕ := w.off + w.bytes.length

def Write.at? (w : Write β) (pos : ℕ) : Option β :=
  if w.off ≤ pos then w.bytes[pos - w.off]? else none

/-- The element most recently written at a position; the latest write comes
first in the log. -/
def latest : List (Write β) → ℕ → Option β
  | [], _ => none
  | w :: log, pos => (w.at? pos).or (latest log pos)

def extent : List (Write β) → ℕ
  | [] => 0
  | w :: log => max w.stop (extent log)

def overwrite (data : ℕ → β) (w : Write β) : ℕ → β := fun pos => (w.at? pos).getD (data pos)

/-- An array and a size that agree with a log. -/
structure Holds (log : List (Write β)) (data : ℕ → β) (size : ℕ) : Prop where
  latest_eq : ∀ pos b, latest log pos = some b → data pos = b
  size_eq : size = extent log

theorem Holds.nil (data : ℕ → β) : Holds [] data 0 where
  latest_eq := by
    intro pos b h
    cases h
  size_eq := rfl

variable {log : List (Write β)} {w : Write β} {pos : ℕ}

theorem Holds.write {data : ℕ → β} {size : ℕ} (h : Holds log data size) (w : Write β) :
    Holds (w :: log) (overwrite data w) (max w.stop size) where
  latest_eq := by
    intro pos b hb
    rw [latest] at hb
    unfold overwrite
    cases hat : w.at? pos with
    | none =>
      rw [hat, Option.none_or] at hb
      exact h.latest_eq pos b hb
    | some c =>
      rw [hat, Option.some_or] at hb
      exact Option.some.inj hb
  size_eq := by rw [extent, h.size_eq]

theorem latest_of_mem {b : β} (hw : w ∈ log) (hb : w.at? pos = some b)
    (hothers : ∀ v ∈ log, v = w ∨ v.at? pos = none) : latest log pos = some b := by
  induction log with
  | nil => exact absurd hw List.not_mem_nil
  | cons v log ih =>
    rw [latest]
    grind

theorem Write.covers_of_at? (h : w.at? pos ≠ none) : w.off ≤ pos ∧ pos < w.stop := by
  unfold Write.at? at h
  split at h
  · next hlow =>
    have hlt : pos - w.off < w.bytes.length := by grind
    unfold Write.stop
    omega
  · exact absurd rfl h

theorem Write.at?_of_lt_off (h : pos < w.off) : w.at? pos = none :=
  if_neg (Nat.not_le.mpr h)

theorem Write.lt_off_of_at? (h : w.at? pos = none) (hstop : pos < w.stop) : pos < w.off := by
  by_contra hoff
  rw [Write.at?, if_pos (Nat.not_lt.mp hoff), List.getElem?_eq_none_iff] at h
  unfold Write.stop at hstop
  omega

theorem latest_of_extent_le (h : extent log ≤ pos) : latest log pos = none := by
  induction log with
  | nil => rfl
  | cons w log ih =>
    rw [extent] at h
    have hnone : w.at? pos = none := by
      by_contra hsome
      have := Write.covers_of_at? hsome
      omega
    grind [latest]

theorem Write.overlap_of_at? {v : Write β} (hv : v.at? pos ≠ none) (hw : w.at? pos ≠ none) :
    max v.off w.off < min v.stop w.stop := by
  have := Write.covers_of_at? hv
  have := Write.covers_of_at? hw
  omega

end WriteLog
