import Rivet.Core
import Rivet.Support.RadixTable

/-!
# The frame allocator

`riv_pmm` of `paging.h`: frames of 4 KiB with one bit each, set when the frame is
free.  The functions are those of the x86_64 and of the Sv32 build, with addresses
of `w` bits.  Frames are accessed by aligned entries of `w` bits only, so that the
memory is kept as the entry at each address.
-/

namespace Rivet.Paging

open RadixTable

variable {bitmap : ℕ → RivU32} {i n : ℕ}

variable {w : ℕ}

abbrev Mem (w : ℕ) := BitVec w → BitVec w

/-- `riv_pmm`; the bitmap is an array of the caller, outside of the frames. -/
structure RivPmm (w : ℕ) where
  bitmap : ℕ → RivU32
  base : BitVec w
  nframes : RivU32
  freeCount : RivU32

/-- `riv_pmm_init`. -/
def rivPmmInit (bitmap : ℕ → RivU32) (base : BitVec w) (nframes : RivU32) : RivPmm w where
  bitmap i := if i < ((nframes + 31) / 32).toNat then 0xFFFFFFFF else bitmap i
  base := base
  nframes := nframes
  freeCount := nframes

/-- The first word that is not zero among `n` words from `i` on. -/
def freeWord (bitmap : ℕ → RivU32) : ℕ → ℕ → Option ℕ
  | 0, _ => none
  | n + 1, i => if bitmap i = 0 then freeWord bitmap n (i + 1) else some i

def zeroFrame (p : BitVec w) (mem : Mem w) : Mem w :=
  fun a => if p.toNat ≤ a.toNat ∧ a.toNat < p.toNat + 4096 then 0 else mem a

/-- `riv_pmm_alloc`; the address is 0 when no frame is free. -/
def rivPmmAlloc (m : RivPmm w) (mem : Mem w) : BitVec w × RivPmm w × Mem w :=
  let words := (m.nframes + 31) / 32
  match freeWord m.bitmap words.toNat 0 with
  | none => (0, m, mem)
  | some i =>
    let b := (m.bitmap i).ctz
    let idx := BitVec.ofNat 32 i * 32 + b
    if m.nframes ≤ idx then (0, m, mem)
    else
      let p := m.base + idx.setWidth w * 4096
      (p,
        { m with
          bitmap := Function.update m.bitmap i (m.bitmap i &&& ~~~((1 : RivU32) <<< b))
          freeCount := m.freeCount - 1 },
        zeroFrame p mem)

/-- `riv_pmm_free`; the index of the frame has 32 bits. -/
def rivPmmFree (m : RivPmm w) (frame : BitVec w) : RivPmm w :=
  if frame < m.base then m
  else
    let idx : RivU32 := ((frame - m.base) >>> 12).setWidth 32
    if m.nframes ≤ idx then m
    else
      let word := (idx >>> 5).toNat
      { m with
        bitmap := Function.update m.bitmap word (m.bitmap word ||| ((1 : RivU32) <<< (idx &&& 31)))
        freeCount := m.freeCount + 1 }

def RivPmm.isFree (m : RivPmm w) (k : ℕ) : Bool := (m.bitmap (k / 32)).getLsbD (k % 32)

/-! ## Maps -/

/-! The flags of a mapping. -/

def pgWrite : RivU32 := 1 <<< 1
def pgUser : RivU32 := 1 <<< 2
def pgNx : RivU32 := 1 <<< 3
def pgGlobal : RivU32 := 1 <<< 4

/-- The allocator and the memory. -/
structure PgState (w : ℕ) where
  pmm : RivPmm w
  mem : Mem w

/-- `riv_pgmap_init`: the address of the new table. -/
def rivPgmapInit (s : PgState w) : Option (BitVec w × PgState w) :=
  let (f, pmm, mem) := rivPmmAlloc s.pmm s.mem
  if f = 0 then none else some (f, ⟨pmm, mem⟩)

/-- The calls that change a map. -/
inductive PgOp (w : ℕ) where
  | map (vaddr paddr : BitVec w) (flags : RivU32)
  | unmap (vaddr : BitVec w)

/-! ## The region -/

/-- A region of frames below `2 ^ bits`. -/
structure Region (w bits : ℕ) where
  base : BitVec w
  nframes : RivU32
  base_ne_zero : base ≠ 0
  aligned : base.toNat % 4096 = 0
  below : base.toNat + 4096 * nframes.toNat ≤ 2 ^ bits
  bits_le : bits ≤ w

namespace Region

variable {bits : ℕ} (R : Region w bits)

def Manages (m : RivPmm w) : Prop := m.base = R.base ∧ m.nframes = R.nframes

/-- The address of the `k`-th frame. -/
def At (k : ℕ) (a : BitVec w) : Prop := k < R.nframes.toNat ∧ a.toNat = R.base.toNat + 4096 * k

def Frame (a : BitVec w) : Prop := ∃ k, R.At k a

def Free (m : RivPmm w) (a : BitVec w) : Prop :=
  ∃ k, R.At k a ∧ (m.bitmap (k / 32)).getLsbD (k % 32) = true

variable {R} {a : BitVec w} {k : ℕ}

theorem below_word : R.base.toNat + 4096 * R.nframes.toNat ≤ 2 ^ w :=
  R.below.trans (Nat.pow_le_pow_right (by decide) R.bits_le)

theorem Frame.aligned (h : R.Frame a) : a.toNat % 4096 = 0 := by
  obtain ⟨k, -, hk⟩ := h
  have := R.aligned
  omega

theorem Frame.below (h : R.Frame a) : a.toNat + 4096 ≤ 2 ^ bits := by
  obtain ⟨k, hlt, hk⟩ := h
  have := R.below
  omega

theorem Frame.below_word (h : R.Frame a) : a.toNat + 4096 ≤ 2 ^ w :=
  h.below.trans (Nat.pow_le_pow_right (by decide) R.bits_le)

theorem At.unique {k' : ℕ} (h : R.At k a) (h' : R.At k' a) : k = k' := by
  have := h.2
  have := h'.2
  omega

variable {b d : BitVec w}

theorem toNat_offset (h : R.Frame a) (hd : d.toNat < 4096) : (a + d).toNat = a.toNat + d.toNat := by
  have := h.below_word
  rw [BitVec.toNat_add, Nat.mod_eq_of_lt (by omega)]

theorem offset_inj {e : BitVec w} (ha : R.Frame a) (hb : R.Frame b) (hd : d.toNat < 4096)
    (he : e.toNat < 4096) (h : a + d = b + e) : a = b ∧ d = e := by
  have heq := congrArg BitVec.toNat h
  have ha' := ha.aligned
  have hb' := hb.aligned
  rw [toNat_offset ha hd, toNat_offset hb he] at heq
  constructor
  · apply BitVec.eq_of_toNat_eq
    omega
  · apply BitVec.eq_of_toNat_eq
    omega

theorem zeroFrame_self (ha : R.Frame a) (mem : Mem w) (hd : d.toNat < 4096) :
    zeroFrame a mem (a + d) = 0 := by
  rw [zeroFrame, toNat_offset ha hd, if_pos ⟨by omega, by omega⟩]

theorem zeroFrame_other (ha : R.Frame a) (hb : R.Frame b) (hne : b ≠ a) (mem : Mem w)
    (hd : d.toNat < 4096) : zeroFrame a mem (b + d) = mem (b + d) := by
  have ha' := ha.aligned
  have hb' := hb.aligned
  have hne' : b.toNat ≠ a.toNat := fun h => hne (BitVec.eq_of_toNat_eq h)
  rw [zeroFrame, toNat_offset hb hd, if_neg (by omega)]

end Region

/-! ## What an allocation does -/

variable {bits j : ℕ}

theorem freeWord_eq_some (h : freeWord bitmap n i = some j) :
    j < i + n ∧ bitmap j ≠ 0 ∧ ∀ l, i ≤ l → l < j → bitmap l = 0 := by
  induction n generalizing i with
  | zero => cases h
  | succ n ih =>
    rw [freeWord] at h
    split at h
    · next hzero =>
      obtain ⟨hj, hne, hbefore⟩ := ih h
      refine ⟨by omega, hne, fun l hl hlj => ?_⟩
      rcases Nat.eq_or_lt_of_le hl with rfl | hl
      · exact hzero
      · exact hbefore l hl hlj
    · next hne =>
      cases h
      simp_all

theorem freeWord_eq_none (h : freeWord bitmap n i = none) :
    ∀ l, i ≤ l → l < i + n → bitmap l = 0 := by
  induction n generalizing i with
  | zero =>
    intro l hl hlt
    omega
  | succ n ih =>
    rw [freeWord] at h
    split at h
    · next hzero =>
      intro l hl hlt
      rcases Nat.eq_or_lt_of_le hl with rfl | hl
      · exact hzero
      · exact ih h l hl (by omega)
    · cases h

def clearBit (bitmap : ℕ → RivU32) (k : ℕ) : ℕ → RivU32 :=
  Function.update bitmap (k / 32) (bitmap (k / 32) &&& ~~~((1 : RivU32) <<< (k % 32)))

theorem getLsbD_one_shiftLeft (i : ℕ) (hj : j < 32) :
    ((1 : RivU32) <<< i).getLsbD j = decide (i = j) := by grind

theorem getLsbD_clearBit (bitmap : ℕ → RivU32) (k l : ℕ) :
    (clearBit bitmap k (l / 32)).getLsbD (l % 32) =
      ((bitmap (l / 32)).getLsbD (l % 32) && decide (l ≠ k)) := by
  have hl : l % 32 < 32 := Nat.mod_lt l (by decide)
  unfold clearBit
  by_cases hword : l / 32 = k / 32
  · have hbit : l ≠ k ↔ ¬k % 32 = l % 32 := by omega
    rw [hword, Function.update_self, BitVec.getLsbD_and, BitVec.getLsbD_not,
      getLsbD_one_shiftLeft _ hl]
    simp only [hl, hbit, decide_true, Bool.true_and, decide_not]
  · rw [Function.update_of_ne hword, decide_eq_true (by rintro rfl; exact hword rfl), Bool.and_true]

theorem words_toNat_lt (nframes : RivU32) : ((nframes + 31) / 32).toNat < 2 ^ 27 := by
  rw [BitVec.toNat_udiv]
  rw [show (32 : RivU32).toNat = 32 from rfl]
  omega

theorem idx_toNat (hi : i < 2 ^ 27) (hne : bitmap i ≠ 0) : (bitmap i).ctz.toNat < 32 ∧
      (BitVec.ofNat 32 i * 32 + (bitmap i).ctz).toNat = 32 * i + (bitmap i).ctz.toNat := by
  have hctz : (bitmap i).ctz.toNat < 32 := by
    have h := BitVec.ctz_lt_iff_ne_zero.mpr hne
    exact h
  refine ⟨hctz, ?_⟩
  rw [BitVec.toNat_add, BitVec.toNat_mul, BitVec.toNat_ofNat, show (32 : RivU32).toNat = 32 from rfl]
  omega

theorem toNat_frame (base : BitVec w) (idx : RivU32) (h : base.toNat + 4096 * idx.toNat < 2 ^ w) :
    (base + idx.setWidth w * 4096).toNat = base.toNat + 4096 * idx.toNat := by
  rw [BitVec.toNat_add, BitVec.toNat_mul, BitVec.toNat_setWidth,
    show (4096 : BitVec w).toNat = 4096 % 2 ^ w from BitVec.toNat_ofNat ..]
  rw [← Nat.mul_mod, Nat.add_mod_mod, Nat.mul_comm, Nat.mod_eq_of_lt h]

theorem Region.at_frame (R : Region w bits) {idx : RivU32} (h : idx.toNat < R.nframes.toNat) :
    R.At idx.toNat (R.base + idx.setWidth w * 4096) ∧ R.base + idx.setWidth w * 4096 ≠ 0 := by
  have hbelow := R.below_word
  have hp := toNat_frame R.base idx (by omega)
  refine ⟨⟨h, hp⟩, fun hzero => R.base_ne_zero (BitVec.eq_of_toNat_eq ?_)⟩
  rw [hzero] at hp
  rw [show (0 : BitVec w).toNat = 0 from BitVec.toNat_ofNat ..] at hp ⊢
  omega

theorem words_toNat {nframes : RivU32} (h : nframes.toNat ≤ 2 ^ 32 - 32) :
    ((nframes + 31) / 32).toNat = (nframes.toNat + 31) / 32 := by
  rw [BitVec.toNat_udiv, BitVec.toNat_add, show (31 : RivU32).toNat = 31 from rfl,
    show (32 : RivU32).toNat = 32 from rfl, Nat.mod_eq_of_lt (by omega)]

theorem freeWord_lowest (bitmap : ℕ → RivU32) {n : ℕ} (hn : n < 2 ^ 27) :
    (freeWord bitmap n 0 = none ∧ ∀ k < 32 * n, (bitmap (k / 32)).getLsbD (k % 32) = false) ∨
      ∃ i k, freeWord bitmap n 0 = some i ∧ k < 32 * n ∧ k / 32 = i ∧
        k % 32 = (bitmap i).ctz.toNat ∧ (BitVec.ofNat 32 i * 32 + (bitmap i).ctz).toNat = k ∧
        (bitmap (k / 32)).getLsbD (k % 32) = true ∧
        ∀ j < k, (bitmap (j / 32)).getLsbD (j % 32) = false := by
  cases hword : freeWord bitmap n 0 with
  | none =>
    refine .inl ⟨rfl, fun k hk => ?_⟩
    rw [freeWord_eq_none hword (k / 32) (Nat.zero_le _) (by omega)]
    exact BitVec.getLsbD_zero
  | some i =>
    obtain ⟨hlt, hne, hbefore⟩ := freeWord_eq_some hword
    obtain ⟨hctz, hidx⟩ := @idx_toNat bitmap i (by omega) hne
    have hdiv : (32 * i + (bitmap i).ctz.toNat) / 32 = i := by omega
    have hmod : (32 * i + (bitmap i).ctz.toNat) % 32 = (bitmap i).ctz.toNat := by omega
    refine .inr ⟨i, _, rfl, by omega, hdiv, hmod, hidx, ?_, fun j hj => ?_⟩
    · rw [hdiv, hmod]
      exact BitVec.getLsbD_true_ctz_of_ne_zero hne
    rcases Nat.lt_or_ge (j / 32) i with hji | hji
    · simp_all
    · have heq : j / 32 = i := by omega
      rw [heq]
      exact BitVec.getLsbD_false_of_lt_ctz (by omega)

theorem rivPmmAlloc_lowest (m : RivPmm w) (mem : Mem w) : (rivPmmAlloc m mem = (0, m, mem) ∧
        (m.nframes.toNat ≤ 2 ^ 32 - 32 → ∀ k < m.nframes.toNat, m.isFree k = false)) ∨
      ∃ idx : RivU32, idx.toNat < m.nframes.toNat ∧ m.isFree idx.toNat = true ∧
        (∀ j < idx.toNat, m.isFree j = false) ∧ rivPmmAlloc m mem = (m.base + idx.setWidth w * 4096,
            { m with bitmap := clearBit m.bitmap idx.toNat, freeCount := m.freeCount - 1 },
            zeroFrame (m.base + idx.setWidth w * 4096) mem) := by
  unfold rivPmmAlloc
  dsimp only
  rcases freeWord_lowest m.bitmap (words_toNat_lt m.nframes) with
    ⟨hnone, hclear⟩ | ⟨i, k, hsome, -, hdiv, hmod, hidx, hset, hlow⟩
  · rw [hnone]
    refine .inl ⟨rfl, fun hn k hk => hclear k ?_⟩
    rw [words_toNat hn]
    omega
  · rw [hsome]
    dsimp only
    by_cases hframe : m.nframes ≤ BitVec.ofNat 32 i * 32 + (m.bitmap i).ctz
    · rw [if_pos hframe]
      refine .inl ⟨rfl, fun _ k' hk' => hlow k' ?_⟩
      rw [BitVec.le_def, hidx] at hframe
      omega
    · rw [if_neg hframe]
      rw [BitVec.not_le, BitVec.lt_def] at hframe
      refine .inr ⟨_, hframe, ?_, ?_, ?_⟩
      · rw [hidx]
        exact hset
      · rw [hidx]
        exact hlow
      · rw [hidx, clearBit, hdiv, hmod, BitVec.shiftLeft_eq']

theorem rivPmmAlloc_cases {R : Region w bits} {m : RivPmm w} (hm : R.Manages m) (mem : Mem w) :
    rivPmmAlloc m mem = (0, m, mem) ∨
      ∃ k p, R.At k p ∧ p ≠ 0 ∧ (m.bitmap (k / 32)).getLsbD (k % 32) = true ∧ rivPmmAlloc m mem =
          (p, { m with bitmap := clearBit m.bitmap k, freeCount := m.freeCount - 1 },
            zeroFrame p mem) := by
  obtain ⟨hbase, hn⟩ := hm
  rcases rivPmmAlloc_lowest m mem with ⟨hnone, -⟩ | ⟨idx, hlt, hfree, -, hsome⟩
  · exact Or.inl hnone
  right
  rw [hn] at hlt
  obtain ⟨hat, hne⟩ := R.at_frame hlt
  rw [← hbase] at hat hne
  exact ⟨idx.toNat, _, hat, hne, hfree, hsome⟩

/-! ## Tables in frames -/

/-- Entries of `w` bits in tables that fill a frame: the lowest bit says that an
entry is present. -/
structure Format (w ib : ℕ) where
  /-- The size of an entry in bytes. -/
  size : BitVec w
  size_mul : size.toNat * 2 ^ ib = 4096
  target : BitVec w → BitVec w
  Link : BitVec w → Prop

namespace Region

variable {bits ib : ℕ} (R : Region w bits) (F : Format w ib)

theorem toNat_index {R : Region w bits} {F : Format w ib} {t : BitVec w} (ht : R.Frame t)
    (i : BitVec ib) : (F.size * i.setWidth w).toNat = F.size.toNat * i.toNat ∧
      F.size.toNat * i.toNat < 4096 := by
  have hsize := F.size_mul
  have hbelow := ht.below_word
  have hpos : 0 < F.size.toNat := by grind
  have hlt : F.size.toNat * i.toNat < 4096 := by
    rw [← hsize]
    exact Nat.mul_lt_mul_of_pos_left i.isLt hpos
  have hi : i.toNat < 2 ^ w := by
    have := Nat.le_mul_of_pos_left i.toNat hpos
    omega
  refine ⟨?_, hlt⟩
  rw [BitVec.toNat_mul, BitVec.toNat_setWidth, Nat.mod_eq_of_lt hi, Nat.mod_eq_of_lt (by omega)]

def space : Space (BitVec w) (BitVec w) (BitVec ib) where
  slot t i := t + F.size * i.setWidth w
  present e := e &&& 1 != 0
  target := F.target
  blank := 0
  Frame := R.Frame
  Link := F.Link
  slot_inj := by
    intro t u i j ht hu h
    obtain ⟨hi, hilt⟩ := toNat_index (F := F) ht i
    obtain ⟨hj, hjlt⟩ := toNat_index (F := F) hu j
    obtain ⟨heq, hij⟩ := offset_inj ht hu (by rw [hi]; exact hilt) (by rw [hj]; exact hjlt) h
    refine ⟨heq, BitVec.eq_of_toNat_eq ?_⟩
    have hij' := congrArg BitVec.toNat hij
    rw [hi, hj] at hij'
    apply Nat.eq_of_mul_eq_mul_left _ hij'
    by_contra hzero
    have hsize := F.size_mul
    rw [Nat.eq_zero_of_not_pos hzero, Nat.zero_mul] at hsize
    cases hsize
  blank_absent := by simp

def alloc? (m : RivPmm w) (mem : Mem w) : Option (BitVec w × RivPmm w × Mem w) :=
  if (rivPmmAlloc m mem).1 = 0 then none else some (rivPmmAlloc m mem)

theorem alloc?_eq_some {R : Region w bits} {m m' : RivPmm w} {mem mem' : Mem w} {f : BitVec w}
    (hm : R.Manages m) (h : alloc? m mem = some (f, m', mem')) :
    ∃ k, R.At k f ∧ (m.bitmap (k / 32)).getLsbD (k % 32) = true ∧
      m' = { m with bitmap := clearBit m.bitmap k, freeCount := m.freeCount - 1 } ∧
      mem' = zeroFrame f mem := by
  unfold alloc? at h
  rcases rivPmmAlloc_cases hm mem with hnone | ⟨k, p, hk, hp, hbit, hsome⟩
  · rw [hnone, if_pos rfl] at h
    cases h
  · rw [hsome, if_neg hp] at h
    cases h
    exact ⟨k, hk, hbit, rfl, rfl⟩

def pool : (R.space F).Pool (RivPmm w) where
  alloc := alloc?
  ok := R.Manages
  free := R.Free
  alloc_frame := by
    intro m m' mem mem' f hm h
    obtain ⟨k, hk, -⟩ := alloc?_eq_some hm h
    exact ⟨k, hk⟩
  alloc_ok := by
    intro m m' mem mem' f hm h
    obtain ⟨k, -, -, rfl, -⟩ := alloc?_eq_some hm h
    exact hm
  alloc_free := by
    intro m m' mem mem' f hm h
    obtain ⟨k, hk, hbit, -⟩ := alloc?_eq_some hm h
    exact ⟨k, hk, hbit⟩
  alloc_taken := by
    intro m m' mem mem' f hm h a hfree
    obtain ⟨k, hk, -, rfl, -⟩ := alloc?_eq_some hm h
    obtain ⟨l, hl, hbit⟩ := hfree
    rw [getLsbD_clearBit, Bool.and_eq_true, decide_eq_true_eq] at hbit
    refine ⟨⟨l, hl, hbit.1⟩, ?_⟩
    rintro rfl
    exact hbit.2 (hl.unique hk)
  alloc_cleared := by
    intro m m' mem mem' f hm h
    obtain ⟨k, hk, -, -, rfl⟩ := alloc?_eq_some hm h
    have hf : R.Frame f := ⟨k, hk⟩
    constructor
    · intro j
      obtain ⟨hj, hlt⟩ := toNat_index (F := F) hf j
      exact zeroFrame_self hf mem (by rw [hj]; exact hlt)
    · intro u j hu hne
      obtain ⟨hj, hlt⟩ := toNat_index (F := F) hu j
      exact zeroFrame_other hf hu hne mem (by rw [hj]; exact hlt)

theorem rivPmmAlloc_eq_zero {R : Region w bits} {m : RivPmm w} (hm : R.Manages m) {mem : Mem w}
    (h : (rivPmmAlloc m mem).1 = 0) : rivPmmAlloc m mem = (0, m, mem) := by
  rcases rivPmmAlloc_cases hm mem with hnone | ⟨k, p, -, hp, -, hsome⟩
  all_goals simp_all

theorem present_of_ne {e : BitVec w} (h : e &&& 1 ≠ 0) : (R.space F).present e = true :=
  bne_iff_ne.mpr h

theorem absent_of_eq {e : BitVec w} (h : e &&& 1 = 0) : (R.space F).present e = false :=
  bne_eq_false_iff_eq.mpr h

theorem rooted_of_init {R : Region w bits} {F : Format w ib} {s0 s : PgState w} {root : BitVec w}
    (hm : R.Manages s0.pmm) (h : rivPgmapInit s0 = some (root, s)) (D : ℕ) :
    (R.pool F).Rooted D root s.pmm s.mem := by
  refine Space.Pool.rooted_of_alloc hm (?_ : alloc? s0.pmm s0.mem = some (root, s.pmm, s.mem))
  unfold rivPgmapInit at h
  unfold alloc?
  dsimp only at h
  split at h
  · cases h
  · next hne =>
    cases h
    rw [if_neg hne]

end Region

/-! ## Addresses as bits -/

theorem extractLsb'_add_twelve (v : BitVec w) (n k : ℕ) :
    v.extractLsb' (12 + n) k = (v >>> 12).extractLsb' n k := by grind

theorem or_and_distrib (x y m : BitVec w) : (x ||| y) &&& m = (x &&& m) ||| (y &&& m) := by grind

theorem and_mask_of_lt {x m : BitVec w} (hm : m.toNat = 2 ^ n - 1) (h : x.toNat < 2 ^ n) :
    x &&& m = x := by
  apply BitVec.eq_of_toNat_eq
  rw [BitVec.toNat_and, hm, Nat.and_two_pow_sub_one_of_lt_two_pow h]

end Rivet.Paging
