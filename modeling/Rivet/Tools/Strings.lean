import Mathlib.Algebra.Order.Group.Int
import Rivet.Core

/-!
# Printable runs

The scan of `rivet-strings.c`: the file is read byte by byte, a run of printable
bytes is collected in a buffer of fixed size, and a run that is long enough is
printed at the byte that ends it, or at the end of the file.
-/

namespace Rivet.Tools

open List

/-! ## The scan -/

def isPrint (c : RivU8) : Bool := (0x20 ≤ c ∧ c ≤ 0x7E) ∨ c = 0x09

/-- The arguments of one `fprintf`: the offset and the characters of a run. -/
structure Line where
  off : ℕ
  text : List RivU8
  deriving DecidableEq

/-- `sizeof(buf)`. -/
def bufSize : ℕ := 1024

/-- The variables of the scan: `buf` up to `run_len`, the offsets, and what has
been printed. -/
structure Scan where
  buf : List RivU8
  startOff : ℕ
  off : ℕ
  out : List Line

def Scan.flush (minLen : ℤ) (s : Scan) : List Line :=
  if minLen ≤ s.buf.length then s.out ++ [⟨s.startOff, s.buf⟩] else s.out

def Scan.step (minLen : ℤ) (s : Scan) (c : RivU8) : Scan :=
  if isPrint c then
    { s with
      startOff := if s.buf.length = 0 then s.off else s.startOff
      buf := if s.buf.length < bufSize - 1 then s.buf ++ [c] else s.buf
      off := s.off + 1 }
  else { s with out := s.flush minLen, buf := [], off := s.off + 1 }

def strings (minLen : ℤ) (file : List RivU8) : List Line :=
  (file.foldl (Scan.step minLen) ⟨[], 0, 0, []⟩).flush minLen

/-! ## Maximal runs -/

section Runs

variable {P : ℕ → Prop} {a n x y : ℕ}

/-- The indices from `a` on satisfy `P` up to `n`, and the one before does not. -/
structure OpenRun (P : ℕ → Prop) (a n : ℕ) : Prop where
  le : a ≤ n
  inside : ∀ i, a ≤ i → i < n → P i
  left : ∀ i, i + 1 = a → ¬P i

/-- A maximal nonempty interval of indices that satisfy `P`. -/
structure IsRun (P : ℕ → Prop) (x y : ℕ) : Prop extends OpenRun P x y where
  lt : x < y
  right : ¬P y

theorem OpenRun.unique (h : OpenRun P a n) (h' : OpenRun P x n) (hx : x < n) : x = a := by
  rcases lt_trichotomy x a with hlt | heq | hgt
  · obtain ⟨i, rfl⟩ := Nat.exists_eq_succ_of_ne_zero (Nat.ne_zero_of_lt hlt)
    exact absurd (h'.inside i (Nat.le_of_lt_succ hlt) h.le) (h.left i rfl)
  · exact heq
  · obtain ⟨i, rfl⟩ := Nat.exists_eq_succ_of_ne_zero (Nat.ne_zero_of_lt hgt)
    exact absurd (h.inside i (Nat.le_of_lt_succ hgt) h'.le) (h'.left i rfl)

theorem OpenRun.extend (h : OpenRun P a n) (hn : P n) : OpenRun P a (n + 1) where
  le := h.le.trans n.le_succ
  inside i ha hi := by
    obtain hi | rfl := Nat.lt_succ_iff_lt_or_eq.mp hi
    · exact h.inside i ha hi
    · exact hn
  left := h.left

theorem OpenRun.restart (hn : ¬P n) : OpenRun P (n + 1) (n + 1) where
  le := le_rfl
  inside i ha hi := absurd hi (Nat.not_lt.mpr ha)
  left i hi := by
    obtain rfl := Nat.succ.inj hi
    exact hn

end Runs

/-! ## What is printed -/

section Invariant

variable {minLen : ℤ} {file : List RivU8} {n : ℕ} {s : Scan} {c : RivU8}

def PrintableAt (file : List RivU8) (i : ℕ) : Prop := ∃ c, file[i]? = some c ∧ isPrint c

/-- The line of the run from `x` to `y`. -/
def runLine (file : List RivU8) (x y : ℕ) : Line := ⟨x, (file.drop x).take (y - x)⟩

def cutEnd (x y : ℕ) : ℕ := min y (x + (bufSize - 1))

/-- The lines of the runs up to `n`, in order, each run cut to the buffer. -/
structure Printed (minLen : ℤ) (file : List RivU8) (n : ℕ) (out : List Line) : Prop where
  sorted : out.Pairwise fun l l' => l.off < l'.off
  mem_iff : ∀ l, l ∈ out ↔ ∃ x y, IsRun (PrintableAt file) x y ∧ y < n ∧
    minLen ≤ (cutEnd x y - x : ℕ) ∧ l = runLine file x (cutEnd x y)

/-- The scan after `n` bytes, with the run that is open. -/
structure ScanInv (minLen : ℤ) (file : List RivU8) (n a : ℕ) (s : Scan) : Prop where
  off : s.off = n
  openRun : OpenRun (PrintableAt file) a n
  buf : s.buf = (runLine file a (cutEnd a n)).text
  startOff : a < n → s.startOff = a
  printed : Printed minLen file n s.out

theorem length_runLine {x y : ℕ} (hxy : x ≤ y) (hy : y ≤ file.length) :
    (runLine file x y).text.length = y - x := by
  rw [runLine, length_take, length_drop]
  omega

theorem PrintableAt.lt_length {i : ℕ} (h : PrintableAt file i) : i < file.length := by
  obtain ⟨c, hc, -⟩ := h
  exact (List.getElem?_eq_some_iff.mp hc).1

theorem isRun_end_iff {P : ℕ → Prop} {a n x : ℕ} (h : OpenRun P a n) (hn : ¬P n) :
    IsRun P x n ↔ x = a ∧ a < n := by
  constructor
  · intro hrun
    obtain rfl := h.unique hrun.toOpenRun hrun.lt
    exact ⟨rfl, hrun.lt⟩
  · rintro ⟨rfl, hlt⟩
    exact ⟨h, hlt, hn⟩

theorem Printed.mem_succ {out : List Line} (h : Printed minLen file n out) (l : Line) :
    (∃ x y, IsRun (PrintableAt file) x y ∧ y < n + 1 ∧ minLen ≤ (cutEnd x y - x : ℕ) ∧
      l = runLine file x (cutEnd x y)) ↔
    l ∈ out ∨ ∃ x, IsRun (PrintableAt file) x n ∧ minLen ≤ (cutEnd x n - x : ℕ) ∧
      l = runLine file x (cutEnd x n) := by
  rw [h.mem_iff]
  grind

theorem ScanInv.length_buf {a : ℕ} (h : ScanInv minLen file n a s) (hn : n ≤ file.length) :
    s.buf.length = min (n - a) (bufSize - 1) := by
  have hle := h.openRun.le
  rw [h.buf, length_runLine] <;> unfold cutEnd <;> omega

theorem ScanInv.off_lt {a : ℕ} (h : ScanInv minLen file n a s) {l : Line} (hl : l ∈ s.out) :
    l.off < a := by
  obtain ⟨x, y, hrun, hy, -, rfl⟩ := (h.printed.mem_iff l).mp hl
  by_contra hle
  have hxa : a ≤ x := Nat.not_lt.mp hle
  exact hrun.right (h.openRun.inside y (hxa.trans hrun.lt.le) hy)

theorem ScanInv.printed_flush {a : ℕ} (h : ScanInv minLen file n a s) (hmin : 1 ≤ minLen)
    (hle : n ≤ file.length) (hn : ¬PrintableAt file n) :
    Printed minLen file (n + 1) (s.flush minLen) := by
  have hlen := h.length_buf hle
  have hcut : cutEnd a n - a = s.buf.length := by grind [cutEnd]
  unfold Scan.flush
  by_cases hlong : minLen ≤ s.buf.length
  · have han : a < n := by omega
    have hline : (⟨s.startOff, s.buf⟩ : Line) = runLine file a (cutEnd a n) := by
      rw [h.startOff han, h.buf, runLine]
    rw [if_pos hlong, hline]
    constructor
    · refine pairwise_append.mpr ⟨h.printed.sorted, pairwise_singleton .., fun l hl l' hl' => ?_⟩
      rw [mem_singleton.mp hl']
      exact h.off_lt hl
    · intro l
      rw [h.printed.mem_succ, mem_append, mem_singleton]
      refine or_congr_right ⟨?_, ?_⟩
      · rintro rfl
        exact ⟨a, (isRun_end_iff h.openRun hn).mpr ⟨rfl, han⟩, by rwa [hcut], rfl⟩
      · rintro ⟨x, hrun, -, rfl⟩
        rw [((isRun_end_iff h.openRun hn).mp hrun).1]
  · rw [if_neg hlong]
    refine ⟨h.printed.sorted, fun l => ?_⟩
    rw [h.printed.mem_succ]
    refine ⟨.inl, ?_⟩
    rintro (hl | ⟨x, hrun, hx, -⟩)
    · exact hl
    · rw [((isRun_end_iff h.openRun hn).mp hrun).1, hcut] at hx
      exact absurd hx hlong

theorem ScanInv.buf_extend {a : ℕ} (h : ScanInv minLen file n a s) (hc : file[n]? = some c) :
    (if s.buf.length < bufSize - 1 then s.buf ++ [c] else s.buf) =
      (runLine file a (cutEnd a (n + 1))).text := by
  have hle := h.openRun.le
  have hlen := h.length_buf (List.getElem?_eq_some_iff.mp hc).1.le
  by_cases hfull : s.buf.length < bufSize - 1
  · have hold : cutEnd a n = n := by unfold cutEnd; omega
    have hnew : cutEnd a (n + 1) = n + 1 := by unfold cutEnd; omega
    have hget : (file.drop a)[n - a]? = some c := by
      rwa [getElem?_drop, Nat.add_sub_cancel' hle]
    rw [if_pos hfull, h.buf, hold, hnew, runLine, runLine, Nat.succ_sub hle, take_add_one, hget]
    rfl
  · have hcut : cutEnd a (n + 1) = cutEnd a n := by unfold cutEnd; omega
    rw [if_neg hfull, h.buf, hcut]

theorem ScanInv.step {a : ℕ} (h : ScanInv minLen file n a s) (hmin : 1 ≤ minLen)
    (hc : file[n]? = some c) : ∃ a', ScanInv minLen file (n + 1) a' (s.step minLen c) := by
  have hlt : n < file.length := (List.getElem?_eq_some_iff.mp hc).1
  have hprint : PrintableAt file n ↔ isPrint c := by simp [PrintableAt, hc]
  unfold Scan.step
  by_cases hp : isPrint c
  · rw [if_pos hp]
    refine ⟨a, congrArg (· + 1) h.off, h.openRun.extend (hprint.mpr hp), h.buf_extend hc,
      fun _ => ?_, h.printed.sorted, fun l => ?_⟩
    · have hlen := h.length_buf hlt.le
      by_cases hzero : s.buf.length = 0
      · simp only [if_pos hzero, h.off]
        unfold bufSize at hlen
        omega
      · simp only [if_neg hzero]
        exact h.startOff (by omega)
    · rw [h.printed.mem_succ]
      refine ⟨.inl, ?_⟩
      rintro (hl | ⟨x, hrun, -⟩)
      · exact hl
      · exact absurd (hprint.mpr hp) hrun.right
  · have hn : ¬PrintableAt file n := hprint.not.mpr hp
    rw [if_neg hp]
    refine ⟨n + 1, congrArg (· + 1) h.off, .restart hn, ?_, fun hlt => absurd hlt (lt_irrefl _),
      h.printed_flush hmin hlt.le hn⟩
    simp [runLine, cutEnd]

theorem exists_scanInv (hmin : 1 ≤ minLen) (hn : n ≤ file.length) :
    ∃ a, ScanInv minLen file n a ((file.take n).foldl (Scan.step minLen) ⟨[], 0, 0, []⟩) := by
  induction n with
  | zero =>
    refine ⟨0, rfl, ⟨le_rfl, fun i _ hi => absurd hi i.not_lt_zero, nofun⟩, by simp [runLine, cutEnd],
      fun _ => rfl, Pairwise.nil, fun l => ?_⟩
    simp
  | succ n ih =>
    obtain ⟨a, h⟩ := ih (Nat.le_of_succ_le hn)
    rw [take_add_one, getElem?_eq_getElem hn, Option.toList_some, foldl_append]
    exact h.step hmin (getElem?_eq_getElem hn)

theorem printed_strings (hmin : 1 ≤ minLen) :
    Printed minLen file (file.length + 1) (strings minLen file) := by
  obtain ⟨a, h⟩ := exists_scanInv hmin (le_refl file.length)
  rw [take_length] at h
  exact h.printed_flush hmin le_rfl fun hp => lt_irrefl _ hp.lt_length

end Invariant

/-! ## The report -/

/-- The lines of the runs of at least `minLen` bytes, in order and with their whole
text. -/
structure Reports (minLen : ℤ) (file : List RivU8) (out : List Line) : Prop where
  sorted : out.Pairwise fun l l' => l.off < l'.off
  mem_iff : ∀ l, l ∈ out ↔ ∃ x y, IsRun (PrintableAt file) x y ∧ minLen ≤ (y - x : ℕ) ∧
    l = runLine file x y

theorem IsRun.le_length {file : List RivU8} {x y : ℕ} (h : IsRun (PrintableAt file) x y) :
    y ≤ file.length := by
  have hlast := (h.inside (y - 1) (Nat.le_sub_one_of_lt h.lt)
    (Nat.sub_one_lt (Nat.ne_zero_of_lt h.lt))).lt_length
  omega

theorem cutEnd_of_short {x y : ℕ} (h : y - x < bufSize) : cutEnd x y = y := by
  unfold cutEnd
  omega

theorem not_reports_of_long {minLen : ℤ} {file : List RivU8} {x y : ℕ} (hmin : 1 ≤ minLen)
    (hrun : IsRun (PrintableAt file) x y) (hlen : minLen ≤ (y - x : ℕ))
    (hlong : bufSize ≤ y - x) : ¬Reports minLen file (strings minLen file) := by
  intro h
  obtain ⟨x', y', hrun', -, -, heq⟩ := ((printed_strings hmin).mem_iff _).mp
    ((h.mem_iff _).mpr ⟨x, y, hrun, hlen, rfl⟩)
  have htext := congrArg (fun l : Line => l.text.length) heq
  have hcut : cutEnd x' y' ≤ y' ∧ x' ≤ cutEnd x' y' ∧ cutEnd x' y' - x' < bufSize := by
    have hlt := hrun'.lt
    unfold cutEnd bufSize
    omega
  simp only [length_runLine hrun.lt.le hrun.le_length,
    length_runLine hcut.2.1 (hcut.1.trans hrun'.le_length)] at htext
  omega

/-- The tool reports the printable runs of a file if and only if each of those it
has to report fits into the buffer. -/
theorem strings_reports_iff (minLen : ℤ) (file : List RivU8) (hmin : 1 ≤ minLen) :
    Reports minLen file (strings minLen file) ↔
      ∀ x y, IsRun (PrintableAt file) x y → minLen ≤ (y - x : ℕ) → y - x < bufSize := by
  constructor
  · intro h x y hrun hlen
    by_contra hlong
    exact not_reports_of_long hmin hrun hlen (Nat.not_lt.mp hlong) h
  · intro hshort
    refine ⟨(printed_strings hmin).sorted, fun l => ?_⟩
    rw [(printed_strings hmin).mem_iff]
    refine exists_congr fun x => exists_congr fun y => and_congr_right fun hrun => ?_
    rw [Nat.lt_succ_iff]
    constructor
    · rintro ⟨-, hlen, rfl⟩
      have hlen' : minLen ≤ (y - x : ℕ) := by
        unfold cutEnd at hlen
        omega
      rw [cutEnd_of_short (hshort x y hrun hlen')]
      exact ⟨hlen', rfl⟩
    · rintro ⟨hlen, rfl⟩
      rw [cutEnd_of_short (hshort x y hrun hlen)]
      exact ⟨hrun.le_length, hlen, rfl⟩

/-- A short file is reported. -/
theorem strings_reports_abcd :
    Reports 4 [0x00, 0x41, 0x42, 0x43, 0x44] (strings 4 [0x00, 0x41, 0x42, 0x43, 0x44]) := by
  refine (strings_reports_iff 4 _ (by decide)).mpr fun x y hrun _ => ?_
  have hle := hrun.le_length
  unfold bufSize
  simp only [length_cons, length_nil] at hle
  omega

theorem isRun_replicate {n : ℕ} (hn : 0 < n) : IsRun (PrintableAt (replicate n 0x41)) 0 n := by
  have hprint : ∀ i, PrintableAt (replicate n 0x41) i ↔ i < n := by
    intro i
    have hletter : isPrint 65#8 = true := by decide
    simp [PrintableAt, getElem?_replicate, and_assoc, hletter]
  refine ⟨⟨n.zero_le, fun i _ hi => (hprint i).mpr hi, nofun⟩, hn, ?_⟩
  rw [hprint]
  exact lt_irrefl n

/-- The last of 1024 letters is missing. -/
theorem long_run_cut : ¬Reports 4 (replicate 1024 0x41) (strings 4 (replicate 1024 0x41)) :=
  not_reports_of_long (by decide) (isRun_replicate (by decide)) (by decide) (by decide)

end Rivet.Tools
