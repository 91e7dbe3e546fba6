import Rivet.Kernel.Storage

/-!
# Bounded string copy

`riv_strlcpy` of `str.h` copies while room is left and stores a terminator behind what
it has copied, also when the last character copied was a terminator already.  The
stores are listed in order, so that their indices can be compared with the capacity.
-/

namespace Rivet.Str

open CLib

/-- The stores of characters into the destination, with their indices. -/
abbrev Stores := List (Char × ℕ)

def stored (d : ℕ → Char) (stores : Stores) : ℕ → Char :=
  stores.foldl (fun d st => Function.update d st.2 st.1) d

def countLoop : CStr → ℕ → ℕ
  | [], n => n
  | _ :: s, n => countLoop s (n + 1)

def rivStrlen (s : CStr) : ℕ := countLoop s 0

/-- The loop `while (--cap && (*d++ = *s)) { ++s; ++n; }`: its stores, and the three
variables behind it. -/
def copyLoop : (cap d : ℕ) → (s : CStr) → (n : ℕ) → Stores × ℕ × CStr × ℕ
  | cap + 2, d, c :: s, n =>
    match copyLoop (cap + 1) (d + 1) s (n + 1) with
    | (stores, rest) => ((c, d) :: stores, rest)
  | _ + 2, d, [], n => ([('\x00', d)], d + 1, [], n)
  | _, d, s, n => ([], d, s, n)

/-- `riv_strlcpy`: the stores and the result. -/
def rivStrlcpy (s : CStr) (cap : ℕ) : Stores × ℕ :=
  if cap = 0 then ([], rivStrlen s)
  else
    match copyLoop cap 0 s 0 with
    | (stores, d, s, n) => (stores ++ [('\x00', d)], countLoop s n)

theorem countLoop_eq (s : CStr) (n : ℕ) : countLoop s n = n + s.length := by
  induction s generalizing n with
  | nil => rfl
  | cons c s ih =>
    rw [countLoop, ih, List.length_cons]
    ring

theorem copyLoop_eq (cap d : ℕ) (s : CStr) (n : ℕ) : copyLoop (cap + 1) d s n =
      (((s ++ ['\x00']).take cap).zipIdx d, d + ((s ++ ['\x00']).take cap).length, s.drop cap,
        n + (s.take cap).length) := by
  induction cap generalizing d s n with
  | zero => simp [copyLoop]
  | succ cap ih =>
    cases s with
    | nil => simp [copyLoop]
    | cons c s => simp [copyLoop, ih, Nat.add_assoc, Nat.add_comm 1]

def storedText (s : CStr) (cap : ℕ) : CStr := (s ++ ['\x00']).take (cap - 1) ++ ['\x00']

theorem rivStrlcpy_eq (s : CStr) {cap : ℕ} (hcap : 0 < cap) :
    rivStrlcpy s cap = ((storedText s cap).zipIdx, s.length) := by
  obtain ⟨cap, rfl⟩ := Nat.exists_eq_succ_of_ne_zero hcap.ne'
  rw [rivStrlcpy, if_neg (Nat.succ_ne_zero cap), copyLoop_eq]
  simp only [countLoop_eq, storedText, Nat.succ_sub_one, List.zipIdx_append, List.zipIdx_singleton,
    Prod.mk.injEq, true_and]
  grind

theorem stored_zipIdx (d : ℕ → Char) (text : CStr) (k i : ℕ) :
    stored d (text.zipIdx k) i = if k ≤ i then text[i - k]?.getD (d i) else d i := by
  induction text generalizing d k with
  | nil => simp [stored]
  | cons c text ih =>
    have hnext : stored d ((c :: text).zipIdx k) = stored (Function.update d k c)
        (text.zipIdx (k + 1)) := rfl
    rw [hnext, ih]
    grind

theorem storedText_eq (s : CStr) (cap : ℕ) :
    ∃ more, storedText s cap = Kernel.rivStrlcpy s cap ++ '\x00' :: more := by
  rw [storedText, Kernel.rivStrlcpy]
  by_cases hfits : s.length < cap - 1
  · refine ⟨['\x00'], ?_⟩
    rw [List.take_of_length_le (by simpa using hfits), List.take_of_length_le hfits.le,
      List.append_assoc]
    rfl
  · exact ⟨[], by rw [List.take_append_of_le_length (not_lt.mp hfits)]⟩

theorem length_storedText_le (s : CStr) {cap : ℕ} (hcap : 0 < cap) :
    (storedText s cap).length ≤ cap := by simp_all [storedText]

/-- Every store is below the capacity; the destination holds the characters that fit
and a terminator; and the length of the whole string is returned. -/
theorem strlcpy_bounded (s : CStr) (cap : ℕ) (d : ℕ → Char) :
    (∀ st ∈ (rivStrlcpy s cap).1, st.2 < cap) ∧ (0 < cap →
        (∀ i < min s.length (cap - 1), s[i]? = some (stored d (rivStrlcpy s cap).1 i)) ∧
          stored d (rivStrlcpy s cap).1 (min s.length (cap - 1)) = '\x00') ∧
      (rivStrlcpy s cap).2 = s.length := by
  obtain rfl | hcap := Nat.eq_zero_or_pos cap
  · simp [rivStrlcpy, rivStrlen, countLoop_eq]
  obtain ⟨more, htext⟩ := storedText_eq s cap
  have hlen : (Kernel.rivStrlcpy s cap).length = min s.length (cap - 1) := by
    rw [Kernel.rivStrlcpy, List.length_take, min_comm]
  rw [rivStrlcpy_eq s hcap]
  refine ⟨?_, fun _ => ⟨?_, ?_⟩, rfl⟩
  · intro st hst
    have hlt := (List.mem_zipIdx hst).2.1
    have hle := length_storedText_le s hcap
    omega
  · intro i hi
    have hi' : i < (Kernel.rivStrlcpy s cap).length := by rwa [hlen]
    have hget : (Kernel.rivStrlcpy s cap)[i]? = s[i]? := List.getElem?_take_of_lt (by omega)
    rw [stored_zipIdx, if_pos (Nat.zero_le i), htext, Nat.sub_zero,
      List.getElem?_append_left hi', hget, List.getElem?_eq_getElem (by omega), Option.getD_some]
  · rw [stored_zipIdx, if_pos (Nat.zero_le _), htext, Nat.sub_zero, ← hlen,
      List.getElem?_append_right le_rfl, Nat.sub_self]
    rfl

end Rivet.Str
