import Rivet.Paging.Pmm
import Rivet.Support.Runs

/-!
# Runs of the frame allocator

As long as only frames are freed that are allocated, `riv_pmm_alloc` hands out the
lowest free frame, cleared, and `free_count` is the number of free frames.

`riv_pmm_free` does not look at the bit it sets: it counts a frame that is free already
once more.  It also narrows the index of the frame to 32 bits before it compares it with
the number of frames, so an address 2^44 bytes above a frame frees that frame.
-/

namespace Rivet.Paging

open Runs Function

variable {w bits : ℕ} {m : RivPmm w}

/-! ## Bits and their number -/

def setBit (bitmap : ℕ → RivU32) (k : ℕ) : ℕ → RivU32 :=
  update bitmap (k / 32) (bitmap (k / 32) ||| ((1 : RivU32) <<< (k % 32)))

theorem getLsbD_setBit (bitmap : ℕ → RivU32) (k l : ℕ) :
    (setBit bitmap k (l / 32)).getLsbD (l % 32) =
      ((bitmap (l / 32)).getLsbD (l % 32) || decide (k = l)) := by
  have hl : l % 32 < 32 := Nat.mod_lt l (by decide)
  unfold setBit
  by_cases hword : l / 32 = k / 32
  · have hbit : k = l ↔ k % 32 = l % 32 := by omega
    rw [hword, update_self, BitVec.getLsbD_or, getLsbD_one_shiftLeft _ hl]
    simp only [hbit]
  · have hne : k ≠ l := by
      rintro rfl
      exact hword rfl
    simp_all

def RivPmm.frees (m : RivPmm w) : ℕ :=
  ((Finset.range m.nframes.toNat).filter fun k => m.isFree k = true).card

theorem frees_le (m : RivPmm w) : m.frees ≤ m.nframes.toNat := by
  refine (Finset.card_filter_le _ _).trans_eq ?_
  exact Finset.card_range _

theorem isFree_clearBit (m : RivPmm w) (c : RivU32) (k l : ℕ) :
    RivPmm.isFree { m with bitmap := clearBit m.bitmap k, freeCount := c } l =
      (m.isFree l && decide (l ≠ k)) :=
  getLsbD_clearBit m.bitmap k l

theorem isFree_setBit (m : RivPmm w) (c : RivU32) (k l : ℕ) :
    RivPmm.isFree { m with bitmap := setBit m.bitmap k, freeCount := c } l =
      (m.isFree l || decide (k = l)) :=
  getLsbD_setBit m.bitmap k l

theorem frees_clearBit {k : ℕ} (hk : k < m.nframes.toNat) (hfree : m.isFree k = true) (c : RivU32) :
    RivPmm.frees { m with bitmap := clearBit m.bitmap k, freeCount := c } + 1 = m.frees := by
  have hmem : k ∈ (Finset.range m.nframes.toNat).filter fun l => m.isFree l = true :=
    Finset.mem_filter.mpr ⟨Finset.mem_range.mpr hk, hfree⟩
  rw [RivPmm.frees, RivPmm.frees, ← Finset.card_erase_add_one hmem]
  congr 2
  ext l
  simp only [isFree_clearBit, Finset.mem_filter, Finset.mem_erase, Bool.and_eq_true,
    decide_eq_true_eq]
  tauto

theorem frees_setBit {k : ℕ} (hk : k < m.nframes.toNat) (htaken : m.isFree k = false) (c : RivU32) :
    RivPmm.frees { m with bitmap := setBit m.bitmap k, freeCount := c } = m.frees + 1 := by
  have hmem : k ∉ (Finset.range m.nframes.toNat).filter fun l => m.isFree l = true := by simp_all
  rw [RivPmm.frees, RivPmm.frees, ← Finset.card_insert_of_notMem hmem]
  congr 1
  ext l
  simp only [isFree_setBit, Finset.mem_filter, Finset.mem_insert, Finset.mem_range, Bool.or_eq_true,
    decide_eq_true_eq]
  grind

theorem frees_setBit_of_free {k : ℕ} (hfree : m.isFree k = true) (c : RivU32) :
    RivPmm.frees { m with bitmap := setBit m.bitmap k, freeCount := c } = m.frees := by
  rw [RivPmm.frees, RivPmm.frees]
  congr 2
  grind [isFree_setBit]

/-! ## `riv_pmm_free` -/

/-- The index that `riv_pmm_free` computes for an address. -/
def RivPmm.freeIdx (m : RivPmm w) (a : BitVec w) : ℕ :=
  (a.toNat - m.base.toNat) / 4096 % 2 ^ 32

theorem rivPmmFree_eq (m : RivPmm w) (a : BitVec w) : rivPmmFree m a =
      if a.toNat < m.base.toNat ∨ m.nframes.toNat ≤ m.freeIdx a then m
      else { m with bitmap := setBit m.bitmap (m.freeIdx a), freeCount := m.freeCount + 1 } := by
  rw [rivPmmFree]
  by_cases hlow : a.toNat < m.base.toNat
  · simp_all [BitVec.lt_def.mpr]
  have hle : m.base ≤ a := BitVec.le_def.mpr (Nat.le_of_not_lt hlow)
  have hidx : (((a - m.base) >>> 12).setWidth 32).toNat = m.freeIdx a := by
    rw [BitVec.toNat_setWidth, BitVec.toNat_ushiftRight, BitVec.toNat_sub_of_le hle,
      Nat.shiftRight_eq_div_pow, RivPmm.freeIdx]
  have hdiv : (((a - m.base) >>> 12).setWidth 32 >>> 5 : RivU32).toNat = m.freeIdx a / 32 := by
    rw [BitVec.toNat_ushiftRight, hidx, Nat.shiftRight_eq_div_pow]
  have hmod : (((a - m.base) >>> 12).setWidth 32 &&& 31 : RivU32).toNat = m.freeIdx a % 32 := by
    rw [BitVec.toNat_and, hidx]
    exact Nat.and_two_pow_sub_one_eq_mod _ 5
  rw [if_neg fun hlt => hlow (BitVec.lt_def.mp hlt)]
  by_cases hbeyond : m.nframes.toNat ≤ m.freeIdx a
  · simp_all [BitVec.le_def.mpr]
  · rw [if_neg fun hge => hbeyond (hidx ▸ BitVec.le_def.mp hge), if_neg (not_or.mpr ⟨hlow, hbeyond⟩),
      setBit, hdiv, BitVec.shiftLeft_eq', hmod]

/-! ## Runs that free allocated frames -/

/-- The allocator, the memory, and the frames that are handed out and not freed. -/
structure FrameRun (w : ℕ) where
  pmm : RivPmm w
  mem : Mem w
  live : List (BitVec w)

/-- The calls; between them the memory may be written. -/
inductive FrameAction (w : ℕ) where
  | alloc
  | free (frame : BitVec w)
  | store (mem : Mem w)

def FrameRun.step (s : FrameRun w) : FrameAction w → Option (FrameRun w)
  | .alloc =>
    let (p, pmm, mem) := rivPmmAlloc s.pmm s.mem
    some ⟨pmm, mem, if p = 0 then s.live else p :: s.live⟩
  | .free frame =>
    if frame ∈ s.live then some ⟨rivPmmFree s.pmm frame, s.mem, s.live.erase frame⟩ else none
  | .store mem => some { s with mem := mem }

/-- The allocator after `riv_pmm_init`. -/
def FrameRun.start (R : Region w bits) (bitmap : ℕ → RivU32) (mem : Mem w) : FrameRun w :=
  ⟨rivPmmInit bitmap R.base R.nframes, mem, []⟩

/-- The next allocation returns the lowest frame that is not live, and clears it; it
returns 0 if there is none.  The live frames are different frames, and the others are
counted. -/
structure FrameRun.Exact (R : Region w bits) (s : FrameRun w) : Prop where
  lowest : (rivPmmAlloc s.pmm s.mem).1 ≠ 0 →
    R.Frame (rivPmmAlloc s.pmm s.mem).1 ∧ (rivPmmAlloc s.pmm s.mem).1 ∉ s.live ∧
      ∀ a, R.Frame a → a ∉ s.live → (rivPmmAlloc s.pmm s.mem).1 ≤ a
  zero_iff : (rivPmmAlloc s.pmm s.mem).1 = 0 ↔ ∀ a, R.Frame a → a ∈ s.live
  cleared : (rivPmmAlloc s.pmm s.mem).1 ≠ 0 →
    ∀ d : BitVec w, d.toNat < 4096 →
      (rivPmmAlloc s.pmm s.mem).2.2 ((rivPmmAlloc s.pmm s.mem).1 + d) = 0
  nodup : s.live.Nodup
  frames : ∀ a ∈ s.live, R.Frame a
  count : s.pmm.freeCount.toNat = R.nframes.toNat - s.live.length

/-- What the calls keep: the bits are those of the frames that are not live. -/
structure FrameRun.Inv (R : Region w bits) (s : FrameRun w) : Prop where
  manages : R.Manages s.pmm
  nodup : s.live.Nodup
  frames : ∀ a ∈ s.live, R.Frame a
  isFree_iff : ∀ k a, R.At k a → (s.pmm.isFree k = true ↔ a ∉ s.live)
  count : s.pmm.freeCount.toNat = s.pmm.frees
  total : s.pmm.frees + s.live.length = R.nframes.toNat

theorem isFree_init {bitmap : ℕ → RivU32} {base : BitVec w} {nframes : RivU32}
    (hn : nframes.toNat ≤ 2 ^ 32 - 32) {k : ℕ} (hk : k < nframes.toNat) :
    (rivPmmInit bitmap base nframes).isFree k = true := by
  have hword : k / 32 < ((nframes + 31) / 32).toNat := by
    rw [words_toNat hn]
    omega
  have hones : (rivPmmInit bitmap base nframes).bitmap (k / 32) = BitVec.allOnes 32 := if_pos hword
  rw [RivPmm.isFree, hones, BitVec.getLsbD_allOnes]
  exact decide_eq_true (Nat.mod_lt k (by decide))

theorem frees_eq_iff : m.frees = m.nframes.toNat ↔ ∀ k < m.nframes.toNat, m.isFree k = true := by
  grind [RivPmm.frees, Finset.card_filter_eq_iff]

theorem FrameRun.inv_start {R : Region w bits} (hn : R.nframes.toNat ≤ 2 ^ 32 - 32)
    (bitmap : ℕ → RivU32) (mem : Mem w) : (FrameRun.start R bitmap mem).Inv R := by
  have hfrees : (rivPmmInit bitmap R.base R.nframes).frees = R.nframes.toNat :=
    frees_eq_iff.mpr fun _ hk => isFree_init hn hk
  refine ⟨⟨rfl, rfl⟩, List.nodup_nil, ?_, ?_, hfrees.symm, hfrees⟩
  · intro a ha
    exact absurd ha List.not_mem_nil
  · intro k a hat
    exact iff_of_true (isFree_init hn hat.1) List.not_mem_nil

theorem FrameRun.Inv.alloc {R : Region w bits} {s : FrameRun w} (hs : s.Inv R)
    (hn : R.nframes.toNat ≤ 2 ^ 32 - 32) :
    (rivPmmAlloc s.pmm s.mem = (0, s.pmm, s.mem) ∧ ∀ a, R.Frame a → a ∈ s.live) ∨
      ∃ k p, R.At k p ∧ p ≠ 0 ∧ s.pmm.isFree k = true ∧ (∀ a, R.Frame a → a ∉ s.live → p ≤ a) ∧
        rivPmmAlloc s.pmm s.mem =
          (p, { s.pmm with bitmap := clearBit s.pmm.bitmap k, freeCount := s.pmm.freeCount - 1 },
            zeroFrame p s.mem) := by
  obtain ⟨hbase, hframes⟩ := hs.manages
  rcases rivPmmAlloc_lowest s.pmm s.mem with ⟨hnone, hfull⟩ | ⟨idx, hlt, hfree, hlow, hsome⟩
  · refine .inl ⟨hnone, ?_⟩
    rintro a ⟨k, hat⟩
    by_contra hdead
    have hset := (hs.isFree_iff k a hat).mpr hdead
    rw [hfull (hframes ▸ hn) k (hframes ▸ hat.1)] at hset
    cases hset
  · rw [hframes] at hlt
    obtain ⟨hat, hne⟩ := R.at_frame hlt
    rw [← hbase] at hat hne
    refine .inr ⟨_, _, hat, hne, hfree, ?_, hsome⟩
    rintro a ⟨k, hk⟩ hdead
    have hset := (hs.isFree_iff k a hk).mpr hdead
    have hge : idx.toNat ≤ k := by
      by_contra hlt'
      simp_all
    rw [BitVec.le_def, hat.2, hk.2]
    omega

theorem toNat_pred_of_succ {c : RivU32} {n : ℕ} (h : n + 1 = c.toNat) : (c - 1).toNat = n := by
  have hone : (1 : RivU32) ≤ c := BitVec.le_def.mpr (h ▸ Nat.le_add_left 1 n)
  rw [BitVec.toNat_sub_of_le hone, ← h]
  rfl

theorem FrameRun.Inv.take {R : Region w bits} {s : FrameRun w} (hs : s.Inv R) {k : ℕ}
    {p : BitVec w} (hat : R.At k p) (hfree : s.pmm.isFree k = true) (mem : Mem w) : FrameRun.Inv R
      ⟨{ s.pmm with bitmap := clearBit s.pmm.bitmap k, freeCount := s.pmm.freeCount - 1 }, mem,
        p :: s.live⟩ := by
  have hnew := (hs.isFree_iff k p hat).mp hfree
  have hk : k < s.pmm.nframes.toNat := hs.manages.2 ▸ hat.1
  have hfrees := frees_clearBit hk hfree (s.pmm.freeCount - 1)
  have hcount := hs.count
  have htotal := hs.total
  refine ⟨hs.manages, List.nodup_cons.mpr ⟨hnew, hs.nodup⟩, ?_, ?_, ?_, ?_⟩
  · intro a ha
    rcases List.mem_cons.mp ha with rfl | ha
    · exact ⟨k, hat⟩
    · exact hs.frames a ha
  · intro l a hl
    have hsame : l = k ↔ a = p := by
      constructor
      · rintro rfl
        exact BitVec.eq_of_toNat_eq (hl.2.trans hat.2.symm)
      · rintro rfl
        exact hl.unique hat
    rw [isFree_clearBit, Bool.and_eq_true, decide_eq_true_eq, hs.isFree_iff l a hl, List.mem_cons,
      ne_eq, hsame]
    tauto
  · exact toNat_pred_of_succ (hfrees.trans hcount.symm)
  · rw [List.length_cons, ← htotal, ← hfrees, Nat.add_right_comm]
    rfl

theorem rivPmmFree_at {R : Region w bits} (hm : R.Manages m) {k : ℕ} {a : BitVec w}
    (hat : R.At k a) :
    rivPmmFree m a = { m with bitmap := setBit m.bitmap k, freeCount := m.freeCount + 1 } := by
  obtain ⟨hk, ha⟩ := hat
  have hidx : m.freeIdx a = k := by
    rw [RivPmm.freeIdx, hm.1, ha]
    omega
  have hin : ¬(a.toNat < m.base.toNat ∨ m.nframes.toNat ≤ m.freeIdx a) := by
    rw [hidx, hm.1, hm.2]
    omega
  rw [rivPmmFree_eq, if_neg hin, hidx]

theorem FrameRun.Inv.give {R : Region w bits} {s : FrameRun w} (hs : s.Inv R) {frame : BitVec w}
    (hlive : frame ∈ s.live) :
    FrameRun.Inv R ⟨rivPmmFree s.pmm frame, s.mem, s.live.erase frame⟩ := by
  obtain ⟨k, hat⟩ := hs.frames frame hlive
  have htaken : s.pmm.isFree k = false := by
    rw [← Bool.not_eq_true, hs.isFree_iff k frame hat]
    exact not_not.mpr hlive
  have hk : k < s.pmm.nframes.toNat := hs.manages.2 ▸ hat.1
  have hfrees := frees_setBit hk htaken (s.pmm.freeCount + 1)
  have hcount := hs.count
  have htotal := hs.total
  have hlength := List.length_erase_of_mem hlive
  have hpos := List.length_pos_of_mem hlive
  rw [rivPmmFree_at hs.manages hat]
  refine ⟨hs.manages, hs.nodup.erase _, fun a ha => hs.frames a (List.mem_of_mem_erase ha), ?_, ?_, ?_⟩
  · intro l a hl
    have hsame : k = l ↔ a = frame := by
      constructor
      · rintro rfl
        exact BitVec.eq_of_toNat_eq (hl.2.trans hat.2.symm)
      · rintro rfl
        exact hat.unique hl
    rw [isFree_setBit, Bool.or_eq_true, decide_eq_true_eq, hs.isFree_iff l a hl,
      hs.nodup.mem_erase_iff, hsame]
    tauto
  · have hn := R.nframes.isLt
    rw [hfrees, BitVec.toNat_add, hcount]
    exact Nat.mod_eq_of_lt (by show s.pmm.frees + 1 < _; omega)
  · rw [show RivPmm.frees _ = _ from hfrees, hlength]
    omega

theorem FrameRun.Inv.step {R : Region w bits} {s s' : FrameRun w} {a : FrameAction w}
    (hn : R.nframes.toNat ≤ 2 ^ 32 - 32) (hs : s.Inv R) (h : s.step a = some s') : s'.Inv R := by
  cases a with
  | alloc =>
    rw [FrameRun.step] at h
    rcases hs.alloc hn with ⟨hnone, -⟩ | ⟨k, p, hat, hne, hfree, -, hsome⟩
    · rw [hnone] at h
      cases h
      exact hs
    · rw [hsome] at h
      simp only [if_neg hne] at h
      cases h
      exact hs.take hat hfree _
  | free frame =>
    rw [FrameRun.step] at h
    split at h
    · next hlive =>
      cases h
      exact hs.give hlive
    · cases h
  | store mem =>
    cases h
    exact ⟨hs.manages, hs.nodup, hs.frames, hs.isFree_iff, hs.count, hs.total⟩

theorem FrameRun.Inv.exact {R : Region w bits} {s : FrameRun w} (hs : s.Inv R)
    (hn : R.nframes.toNat ≤ 2 ^ 32 - 32) : s.Exact R := by
  have hcount : s.pmm.freeCount.toNat = R.nframes.toNat - s.live.length := by
    rw [hs.count, ← hs.total, Nat.add_sub_cancel]
  rcases hs.alloc hn with ⟨hnone, hfull⟩ | ⟨k, p, hat, hne, hfree, hlow, hsome⟩
  · have hzero : (rivPmmAlloc s.pmm s.mem).1 = 0 := by rw [hnone]
    refine ⟨?_, iff_of_true hzero hfull, ?_, hs.nodup, hs.frames, hcount⟩
    all_goals simp_all
  · have hnew := (hs.isFree_iff k p hat).mp hfree
    refine ⟨?_, ?_, ?_, hs.nodup, hs.frames, hcount⟩
    · rw [hsome]
      exact fun _ => ⟨⟨k, hat⟩, hnew, hlow⟩
    · rw [hsome]
      exact iff_of_false hne fun hall => hnew (hall p ⟨k, hat⟩)
    · rw [hsome]
      exact fun _ d hd => Region.zeroFrame_self ⟨k, hat⟩ s.mem hd

/-- In every run in which only live frames are freed, the frame allocator is exact. -/
theorem frames_exact (R : Region w bits) (hn : R.nframes.toNat ≤ 2 ^ 32 - 32)
    (bitmap : ℕ → RivU32) (mem : Mem w) {as : List (FrameAction w)} {s : FrameRun w}
    (h : exec FrameRun.step (FrameRun.start R bitmap mem) as = some s) : s.Exact R := by
  have hinv : s.Inv R :=
    inv_of_exec (fun _ _ _ hs h => hs.step hn h) (FrameRun.inv_start hn bitmap mem) h
  exact hinv.exact hn

def lowRegion : Region 32 32 where
  base := 0x10000
  nframes := 40
  base_ne_zero := by decide
  aligned := by decide
  below := by decide
  bits_le := le_rfl

theorem frames_exact_lowRegion :
    (exec FrameRun.step (FrameRun.start lowRegion (fun _ => 0) fun _ => 7)
        [.alloc, .alloc, .free 0x10000]).any (fun s => s.live = [0x11000]) = true ∧
      ∀ s, exec FrameRun.step (FrameRun.start lowRegion (fun _ => 0) fun _ => 7)
        [.alloc, .alloc, .free 0x10000] = some s → s.Exact lowRegion :=
  ⟨by decide +kernel, fun _ h => frames_exact lowRegion (by decide) _ _ h⟩

/-! ## Runs that free any address -/

def InRegion (m : RivPmm w) (a : BitVec w) : Prop :=
  m.base.toNat ≤ a.toNat ∧ a.toNat < m.base.toNat + 4096 * m.nframes.toNat

instance (m : RivPmm w) (a : BitVec w) : Decidable (InRegion m a) :=
  inferInstanceAs (Decidable (_ ∧ _))

def RivPmm.frameOf (m : RivPmm w) (a : BitVec w) : ℕ := (a.toNat - m.base.toNat) / 4096

/-- `riv_pmm_free` keeps the count right, changes nothing for an address outside of the
region, and for an address inside at most the bit of its frame. -/
structure FreeSafe (m : RivPmm w) (a : BitVec w) : Prop where
  count : (rivPmmFree m a).freeCount.toNat = (rivPmmFree m a).frees
  outside : ¬InRegion m a → rivPmmFree m a = m
  inside : InRegion m a →
    (rivPmmFree m a).base = m.base ∧ (rivPmmFree m a).nframes = m.nframes ∧
      ∀ k, k ≠ m.frameOf a → (rivPmmFree m a).isFree k = m.isFree k

/-- The address is below the region, or its index is not in the region even when it is
narrowed to 32 bits, or it is in a frame that is allocated. -/
def FreesTaken (m : RivPmm w) (a : BitVec w) : Prop :=
  a.toNat < m.base.toNat ∨ m.nframes.toNat ≤ m.freeIdx a ∨
    (InRegion m a ∧ m.isFree (m.frameOf a) = false)

instance (m : RivPmm w) (a : BitVec w) : Decidable (FreesTaken m a) :=
  inferInstanceAs (Decidable (_ ∨ _ ∨ _))

theorem freeIdx_of_inRegion {a : BitVec w} (h : InRegion m a) :
    m.freeIdx a = m.frameOf a ∧ m.frameOf a < m.nframes.toNat := by
  obtain ⟨hlow, hhigh⟩ := h
  have hn := m.nframes.isLt
  have hlt : m.frameOf a < m.nframes.toNat := by
    rw [RivPmm.frameOf]
    omega
  refine ⟨?_, hlt⟩
  exact Nat.mod_eq_of_lt (hlt.trans hn)

theorem freeSafe_iff (hcount : m.freeCount.toNat = m.frees) (a : BitVec w) :
    FreeSafe m a ↔ FreesTaken m a := by
  by_cases hout : a.toNat < m.base.toNat ∨ m.nframes.toNat ≤ m.freeIdx a
  · have hsame : rivPmmFree m a = m := by rw [rivPmmFree_eq, if_pos hout]
    refine iff_of_true ⟨?_, fun _ => hsame, ?_⟩ ?_
    · rw [hsame, hcount]
    · simp_all
    · rcases hout with hlow | hbeyond
      · exact .inl hlow
      · exact .inr (.inl hbeyond)
  · have hfree := rivPmmFree_eq m a
    rw [if_neg hout] at hfree
    rw [not_or] at hout
    obtain ⟨hlow, hidx⟩ := hout
    by_cases hin : InRegion m a
    · obtain ⟨hframe, hlt⟩ := freeIdx_of_inRegion hin
      rw [hframe] at hfree
      cases htaken : m.isFree (m.frameOf a) with
      | true =>
        refine iff_of_false ?_ ?_
        · intro hsafe
          have hcount' := hsafe.count
          rw [hfree, frees_setBit_of_free htaken, ← hcount] at hcount'
          grind
        · rintro (hno | hno | ⟨-, hno⟩)
          · exact hlow hno
          · exact hidx hno
          · rw [htaken] at hno
            cases hno
      | false =>
        refine iff_of_true ⟨?_, fun hno => absurd hin hno, fun _ => ?_⟩ (.inr (.inr ⟨hin, htaken⟩))
        · rw [hfree, frees_setBit hlt htaken, ← hcount]
          have hle := frees_setBit hlt htaken 0
          have hle' := frees_le { m with bitmap := setBit m.bitmap (m.frameOf a), freeCount := 0 }
          have hn := m.nframes.isLt
          rw [hle, ← hcount] at hle'
          exact BitVec.toNat_add_of_lt (Nat.lt_of_le_of_lt hle' hn)
        · rw [hfree]
          refine ⟨rfl, rfl, fun k hk => ?_⟩
          rw [isFree_setBit, decide_eq_false hk.symm, Bool.or_false]
    · refine iff_of_false ?_ ?_
      · intro hsafe
        have hsame := hsafe.outside hin
        grind
      · rintro (hno | hno | ⟨hno, -⟩)
        all_goals simp_all

/-- The calls, with any address. -/
inductive PmmCall (w : ℕ) where
  | alloc
  | free (frame : BitVec w)

def PgState.call (s : PgState w) : PmmCall w → Option (PgState w)
  | .alloc =>
    let (_, pmm, mem) := rivPmmAlloc s.pmm s.mem
    some ⟨pmm, mem⟩
  | .free frame => some { s with pmm := rivPmmFree s.pmm frame }

def CallSafe (s : PgState w) : PmmCall w → Prop
  | .alloc => True
  | .free frame => FreeSafe s.pmm frame

def CallTaken (s : PgState w) : PmmCall w → Prop
  | .alloc => True
  | .free frame => FreesTaken s.pmm frame

/-- The count is right at the start, and every call of the run keeps it right and keeps
to its frame. -/
structure FreesSafely (s : PgState w) (as : List (PmmCall w)) : Prop where
  count : s.pmm.freeCount.toNat = s.pmm.frees
  calls : Meets PgState.call CallSafe s as

theorem count_alloc (hcount : m.freeCount.toNat = m.frees) (mem : Mem w) :
    (rivPmmAlloc m mem).2.1.freeCount.toNat = (rivPmmAlloc m mem).2.1.frees := by
  rcases rivPmmAlloc_lowest m mem with ⟨hnone, -⟩ | ⟨idx, hlt, hfree, -, hsome⟩
  · rw [hnone]
    exact hcount
  · rw [hsome]
    exact toNat_pred_of_succ ((frees_clearBit hlt hfree _).trans hcount.symm)

theorem init_count_iff (bitmap : ℕ → RivU32) (base : BitVec w) (nframes : RivU32) :
    (rivPmmInit bitmap base nframes).freeCount.toNat = (rivPmmInit bitmap base nframes).frees ↔
      nframes.toNat ≤ 2 ^ 32 - 32 ∨
        ∀ k < nframes.toNat, (bitmap (k / 32)).getLsbD (k % 32) = true := by
  refine eq_comm.trans (frees_eq_iff.trans ?_)
  by_cases hn : nframes.toNat ≤ 2 ^ 32 - 32
  · exact iff_of_true (fun _ hk => isFree_init hn hk) (.inl hn)
  have hwords : ((nframes + 31) / 32).toNat = 0 := by
    have hlt := nframes.isLt
    rw [BitVec.toNat_udiv, BitVec.toNat_add, show (31 : RivU32).toNat = 31 from rfl,
      show (32 : RivU32).toNat = 32 from rfl]
    omega
  have hbits : (rivPmmInit bitmap base nframes).bitmap = bitmap := by
    funext i
    exact if_neg (hwords ▸ Nat.not_lt_zero i)
  simp only [or_iff_right hn, RivPmm.isFree, hbits]
  rfl

instance CallTaken.decidable (s : PgState w) : (a : PmmCall w) → Decidable (CallTaken s a)
  | .alloc => isTrue trivial
  | .free frame => inferInstanceAs (Decidable (FreesTaken s.pmm frame))

theorem meets_callSafe_iff {s : PgState w} (hcount : s.pmm.freeCount.toNat = s.pmm.frees)
    (as : List (PmmCall w)) :
    Meets PgState.call CallSafe s as ↔ Meets PgState.call CallTaken s as := by
  refine meets_iff_meets (fun s => s.pmm.freeCount.toNat = s.pmm.frees) ?_ ?_ hcount
  · intro s a hs
    cases a with
    | alloc => exact Iff.rfl
    | free frame => exact freeSafe_iff hs frame
  · intro s a s' hs hsafe h
    cases a with
    | alloc =>
      cases h
      exact count_alloc hs s.mem
    | free frame =>
      cases h
      exact hsafe.count

/-- Whatever is freed after `riv_pmm_init`, every call keeps the count right and keeps to
its frame if and only if the frames were all marked free at first, and every address that
is freed is in an allocated frame, or is refused. -/
theorem frees_safely_iff (bitmap : ℕ → RivU32) (base : BitVec w) (nframes : RivU32) (mem : Mem w)
    (as : List (PmmCall w)) : FreesSafely ⟨rivPmmInit bitmap base nframes, mem⟩ as ↔
      (nframes.toNat ≤ 2 ^ 32 - 32 ∨
        ∀ k < nframes.toNat, (bitmap (k / 32)).getLsbD (k % 32) = true) ∧
      Meets PgState.call CallTaken ⟨rivPmmInit bitmap base nframes, mem⟩ as := by
  constructor
  · rintro ⟨hcount, hcalls⟩
    exact ⟨(init_count_iff bitmap base nframes).mp hcount, (meets_callSafe_iff hcount as).mp hcalls⟩
  · rintro ⟨hmarked, hcalls⟩
    have hcount := (init_count_iff bitmap base nframes).mpr hmarked
    exact ⟨hcount, (meets_callSafe_iff hcount as).mpr hcalls⟩

def twoFrames : PgState 64 := ⟨rivPmmInit (fun _ => 0) 0x10000 2, fun _ => 0⟩

/-- A frame is freed twice; and an address far above the region frees a frame of it. -/
theorem frees_count_wrong : (exec PgState.call twoFrames [.alloc, .free 0x10000, .free 0x10000]).any
        (fun s => s.pmm.freeCount = 3 ∧ s.pmm.frees = 2) = true ∧
      ¬InRegion twoFrames.pmm 0x100000010000 ∧
      (exec PgState.call twoFrames [.alloc, .free 0x100000010000]).any
        (fun s => s.pmm.freeCount = 2 ∧ s.pmm.isFree 0 = true) = true ∧
      ¬FreesSafely twoFrames [.alloc, .free 0x10000, .free 0x10000] ∧
      ¬FreesSafely twoFrames [.alloc, .free 0x100000010000] := by
  refine ⟨by decide +kernel, by decide, by decide +kernel, ?_, ?_⟩
  · rintro ⟨hcount, hcalls⟩
    rw [meets_callSafe_iff hcount] at hcalls
    exact absurd hcalls (by decide +kernel)
  · rintro ⟨hcount, hcalls⟩
    rw [meets_callSafe_iff hcount] at hcalls
    exact absurd hcalls (by decide +kernel)

end Rivet.Paging
