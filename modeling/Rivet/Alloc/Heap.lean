import Rivet.Alloc.Memory
import Rivet.Support.AlignUp
import Rivet.Support.Tiling

/-!
# The first-fit heap

`riv_heap` of `heap.h`.  The blocks are linked through headers that stand in the managed
memory itself.  The calls are read here as operations on the list of blocks: a request
carves the first block that is large enough, and a free block is given back by a sweep.
-/

namespace Rivet.Alloc

open ByteMem AlignUp Tiling

variable {wb : WordBits}

/-! ## `riv_heap` -/

structure RivHeap (wb : WordBits) where
  head : BitVec wb.width

/-- `RIV_HEAP_ALIGN`. -/
def rivHeapAlign : ℕ := 8

/-- `RIV_HEAP_HDR`, the size of `riv_heap_blk`: two words and an `int`, padded to the
alignment of a word. -/
def rivHeapHdr (wb : WordBits) : ℕ := 3 * wb.bytes

/-! The fields `sz`, `next` and `free` of a block. -/

def blkSz (m : Bytes) (b : BitVec wb.width) : BitVec wb.width := loadWord m b.toNat

def blkNext (m : Bytes) (b : BitVec wb.width) : BitVec wb.width := loadWord m (b.toNat + wb.bytes)

def blkFree (m : Bytes) (b : BitVec wb.width) : RivI32 :=
  BitVec.ofNat 32 (load 4 m (b.toNat + 2 * wb.bytes))

def setSz (m : Bytes) (b sz : BitVec wb.width) : Bytes := storeWord m b.toNat sz

def setNext (m : Bytes) (b next : BitVec wb.width) : Bytes := storeWord m (b.toNat + wb.bytes) next

def setFree (m : Bytes) (b : BitVec wb.width) (free : RivI32) : Bytes :=
  store 4 m (b.toNat + 2 * wb.bytes) free.toNat

def rivHeapInit (m : Bytes) (mem n : BitVec wb.width) : RivHeap wb × Bytes :=
  let b := mem
  let m := setSz m b (n - BitVec.ofNat _ (rivHeapHdr wb))
  let m := setNext m b 0
  let m := setFree m b 1
  (⟨b⟩, m)

/-- The request of `riv_heap_alloc` is rounded up to `RIV_HEAP_ALIGN`. -/
def heapRound (sz : BitVec wb.width) : BitVec wb.width :=
  (sz + BitVec.ofNat _ rivHeapAlign - 1) &&& ~~~(BitVec.ofNat _ rivHeapAlign - 1)

/-- The loop of `riv_heap_alloc`, up to the first block that is not passed over; a null
pointer is 0, and there is no result if the loop takes more than `n` rounds. -/
def heapFind (m : Bytes) (sz : BitVec wb.width) : ℕ → BitVec wb.width → Option (BitVec wb.width)
  | 0, _ => none
  | n + 1, b =>
    if b = 0 then some 0
    else if blkFree m b = 0 ∨ blkSz m b < sz then heapFind m sz n (blkNext m b)
    else some b

def heapSplit (m : Bytes) (b sz : BitVec wb.width) : Bytes :=
  let n := b + BitVec.ofNat _ (rivHeapHdr wb) + sz
  let m := setSz m n (blkSz m b - sz - BitVec.ofNat _ (rivHeapHdr wb))
  let m := setNext m n (blkNext m b)
  let m := setFree m n 1
  let m := setSz m b sz
  setNext m b n

/-- The block found is split if there is room for another one behind the request. -/
def heapTake (m : Bytes) (b sz : BitVec wb.width) : Bytes :=
  let m :=
    if sz + BitVec.ofNat _ (rivHeapHdr wb) + BitVec.ofNat _ rivHeapAlign ≤ blkSz m b then
      heapSplit m b sz
    else m
  setFree m b 0

/-- A list with more than `2 ^ w` links comes back to a block: the loop does not end. -/
def rivHeapAlloc (h : RivHeap wb) (m : Bytes) (sz : BitVec wb.width) :
    Option (BitVec wb.width × Bytes) :=
  let sz := heapRound sz
  (heapFind m sz (2 ^ wb.width) h.head).map fun b =>
    if b = 0 then (0, m) else (b + BitVec.ofNat _ (rivHeapHdr wb), heapTake m b sz)

def heapMerge (m : Bytes) (it : BitVec wb.width) : Bytes :=
  let m := setSz m it (blkSz m it + (BitVec.ofNat _ (rivHeapHdr wb) + blkSz m (blkNext m it)))
  setNext m it (blkNext m (blkNext m it))

/-- The loop of `riv_heap_free`. -/
def heapSweep : ℕ → Bytes → BitVec wb.width → Option Bytes
  | 0, _, _ => none
  | n + 1, m, it =>
    if it = 0 then some m
    else
      let m :=
        if blkFree m it ≠ 0 ∧ blkNext m it ≠ 0 ∧ blkFree m (blkNext m it) ≠ 0 then heapMerge m it
        else m
      heapSweep n m (blkNext m it)

def rivHeapFree (h : RivHeap wb) (m : Bytes) (p : BitVec wb.width) : Option Bytes :=
  if p = 0 then some m
  else
    let b := p - BitVec.ofNat _ (rivHeapHdr wb)
    heapSweep (2 ^ wb.width) (setFree m b 1) h.head

/-- The blocks that one comes to from `b`, with their addresses. -/
def heapBlocks (m : Bytes) : ℕ → BitVec wb.width → Option (List (ℕ × Block))
  | 0, _ => none
  | n + 1, b =>
    if b = 0 then some []
    else
      (heapBlocks m n (blkNext m b)).map fun bs =>
        (b.toNat, ⟨(blkSz m b).toNat, decide (blkFree m b ≠ 0)⟩) :: bs

/-! ## Headers -/

/-- What stands in a header. -/
structure Hdr (wb : WordBits) where
  sz : BitVec wb.width
  next : BitVec wb.width
  free : RivI32

def readHdr (m : Bytes) (b : BitVec wb.width) : Hdr wb := ⟨blkSz m b, blkNext m b, blkFree m b⟩

/-- The address is not in the header at `p`. -/
def OffHdr (wb : WordBits) (p x : ℕ) : Prop := x < p ∨ p + rivHeapHdr wb ≤ x

section Header

variable {m m' : Bytes} {b c : BitVec wb.width} {x : ℕ}

theorem four_le_bytes (wb : WordBits) : 4 ≤ wb.bytes := by
  cases wb with
  | bits32 => decide
  | bits64 => decide

theorem readHdr_congr (h : ∀ x, b.toNat ≤ x → x < b.toNat + rivHeapHdr wb → m' x = m x) :
    readHdr m' b = readHdr m b := by
  have hbytes := four_le_bytes wb
  simp only [rivHeapHdr] at h
  have hsz : blkSz m' b = blkSz m b := loadWord_congr fun x hx hlt => h x (by omega) (by omega)
  have hnext : blkNext m' b = blkNext m b :=
    loadWord_congr fun x hx hlt => h x (by omega) (by omega)
  grind [blkFree, load_congr, readHdr]

theorem setSz_apply (hx : OffHdr wb b.toNat x) (sz : BitVec wb.width) : setSz m b sz x = m x := by
  simp only [OffHdr, rivHeapHdr] at hx
  exact store_apply (by omega)

theorem setNext_apply (hx : OffHdr wb b.toNat x) (next : BitVec wb.width) :
    setNext m b next x = m x := by
  simp only [OffHdr, rivHeapHdr] at hx
  exact store_apply (by omega)

theorem setFree_apply (hx : OffHdr wb b.toNat x) (free : RivI32) : setFree m b free x = m x := by
  have hbytes := four_le_bytes wb
  simp only [OffHdr, rivHeapHdr] at hx
  exact store_apply (by omega)

theorem readHdr_setSz (m : Bytes) (b sz : BitVec wb.width) :
    readHdr (setSz m b sz) b = { readHdr m b with sz := sz } := by
  have hsz : blkSz (setSz m b sz) b = sz := loadWord_storeWord_self m b.toNat sz
  have hnext : blkNext (setSz m b sz) b = blkNext m b :=
    loadWord_storeWord_of_disjoint sz (.inl le_rfl)
  grind [blkFree, setSz, storeWord, load_store_of_disjoint, readHdr]

theorem readHdr_setNext (m : Bytes) (b next : BitVec wb.width) :
    readHdr (setNext m b next) b = { readHdr m b with next := next } := by
  have hsz : blkSz (setNext m b next) b = blkSz m b :=
    loadWord_storeWord_of_disjoint next (.inr le_rfl)
  have hnext : blkNext (setNext m b next) b = next :=
    loadWord_storeWord_self m (b.toNat + wb.bytes) next
  grind [blkFree, setNext, storeWord, load_store_of_disjoint, readHdr]

theorem readHdr_setFree (m : Bytes) (b : BitVec wb.width) (free : RivI32) :
    readHdr (setFree m b free) b = { readHdr m b with free := free } := by
  have hsz : blkSz (setFree m b free) b = blkSz m b := by
    rw [blkSz, loadWord, setFree, load_store_of_disjoint (by omega), blkSz, loadWord]
  have hnext : blkNext (setFree m b free) b = blkNext m b := by
    grind [blkNext, loadWord, setFree, load_store_of_disjoint]
  simp_all [blkFree, setFree, load_store_self, Nat.mod_eq_of_lt, BitVec.ofNat_toNat,
    BitVec.setWidth_eq, readHdr, free.isLt]

theorem readHdr_of_offHdr (hapart : b.toNat + rivHeapHdr wb ≤ c.toNat ∨
    c.toNat + rivHeapHdr wb ≤ b.toNat) (h : ∀ x, OffHdr wb b.toNat x → m' x = m x) :
    readHdr m' c = readHdr m c :=
  readHdr_congr fun x hx hlt => h x (by rw [OffHdr]; omega)

end Header

/-! ## Linked blocks -/

def Hdr.Shows (hd : Hdr wb) (x : Block) : Prop :=
  hd.sz.toNat = x.size ∧ (hd.free ≠ 0 ↔ x.free = true)

/-- The headers of the blocks stand one behind the other from `p` on, where `b` points to;
each is linked to the next one and the last to `q`. -/
def Linked (m : Bytes) (q : BitVec wb.width) : BitVec wb.width → ℕ → List Block → Prop
  | b, _, [] => b = q
  | b, p, x :: xs =>
    b.toNat = p ∧ (readHdr m b).Shows x ∧
      Linked m q (readHdr m b).next (p + (rivHeapHdr wb + x.size)) xs

section Linked

variable {m m' : Bytes} {q b sz : BitVec wb.width} {p n : ℕ} {x y : Block} {bs l r : List Block}

theorem Linked.congr (h : Linked m q b p bs)
    (heq : ∀ e ∈ layout (rivHeapHdr wb) p bs, ∀ a, e.1 ≤ a → a < e.1 + rivHeapHdr wb → m' a = m a) :
    Linked m' q b p bs := by
  induction bs generalizing b p with
  | nil => exact h
  | cons x xs ih =>
    obtain ⟨hb, hx, hrest⟩ := h
    have hhdr : readHdr m' b = readHdr m b :=
      readHdr_congr fun a ha hlt => heq (p, x) List.mem_cons_self a (by omega) (by omega)
    rw [Linked, hhdr]
    exact ⟨hb, hx, ih hrest fun e he => heq e (List.mem_cons_of_mem _ he)⟩

theorem Linked.congr_of_le (h : Linked m q b p bs) (heq : ∀ a, p ≤ a → m' a = m a) :
    Linked m' q b p bs :=
  h.congr fun _ he a ha _ => heq a ((layout_bounds he).1.trans ha)

theorem Linked.congr_of_lt (h : Linked m q b p bs)
    (heq : ∀ a, a < p + span (rivHeapHdr wb) bs → m' a = m a) : Linked m' q b p bs := by
  refine h.congr fun e he a _ hlt => heq a ?_
  have hbound := (layout_bounds he).2
  omega

theorem linked_append : Linked m q b p (l ++ r) ↔
      ∃ c, Linked m c b p l ∧ Linked m q c (p + span (rivHeapHdr wb) l) r := by
  induction l generalizing b p with
  | nil =>
    constructor
    · intro h
      exact ⟨b, rfl, h⟩
    · rintro ⟨c, rfl, h⟩
      exact h
  | cons x l ih =>
    rw [List.cons_append, Linked, ih, span, ← Nat.add_assoc p (rivHeapHdr wb + x.size)]
    constructor
    · rintro ⟨hb, hx, c, hl, hr⟩
      exact ⟨c, ⟨hb, hx, hl⟩, hr⟩
    · rintro ⟨c, ⟨hb, hx, hl⟩, hr⟩
      exact ⟨hb, hx, c, hl, hr⟩

theorem toNat_hdr (wb : WordBits) :
    (BitVec.ofNat wb.width (rivHeapHdr wb)).toNat = rivHeapHdr wb := by
  cases wb with
  | bits32 => rfl
  | bits64 => rfl

theorem ne_zero_of_toNat_pos (hb : 0 < b.toNat) : b ≠ 0 := by
  rintro rfl
  simp_all

theorem hdr_pos (wb : WordBits) : 0 < rivHeapHdr wb := by
  have hbytes := four_le_bytes wb
  rw [rivHeapHdr]
  omega

theorem ptr_ne_zero {c : BitVec wb.width} (hc : c.toNat = p + rivHeapHdr wb) : c ≠ 0 := by
  have hpos := hdr_pos wb
  exact ne_zero_of_toNat_pos (by omega)

theorem length_lt_of_fit (hfit : p + span (rivHeapHdr wb) bs < 2 ^ wb.width) :
    bs.length < 2 ^ wb.width := by
  have hle := length_le_span (hdr_pos wb) bs
  omega

theorem Linked.shows (h : Linked m q b p bs) {e : ℕ × Block}
    (he : e ∈ layout (rivHeapHdr wb) p bs) {c : BitVec wb.width} (hc : c.toNat = e.1) :
    (readHdr m c).Shows e.2 := by
  obtain ⟨l, r, rfl, haddr⟩ := mem_layout.mp he
  obtain ⟨d, -, hd, hshows, -⟩ := linked_append.mp h
  grind [BitVec.eq_of_toNat_eq]

theorem Linked.blocks (h : Linked m 0 b p bs) (hp : 0 < p) (hlen : bs.length < n) :
    heapBlocks m n b = some (layout (rivHeapHdr wb) p bs) := by
  induction bs generalizing b p n with
  | nil =>
    obtain ⟨n, rfl⟩ := Nat.exists_eq_add_one.mpr (Nat.zero_lt_of_lt hlen)
    have hb : b = 0 := h
    rw [heapBlocks, if_pos hb, layout]
  | cons x xs ih =>
    obtain ⟨n, rfl⟩ := Nat.exists_eq_add_one.mpr (Nat.zero_lt_of_lt hlen)
    obtain ⟨hb, ⟨hsz, hfree⟩, hrest⟩ := h
    have hblk : (blkSz m b).toNat = x.size := hsz
    have hdec : decide (blkFree m b ≠ 0) = x.free := by
      rw [Bool.eq_iff_iff, decide_eq_true_iff]
      exact hfree
    have hrest' : heapBlocks m n (blkNext m b) = _ :=
      ih hrest (by omega) (Nat.lt_of_succ_lt_succ hlen)
    rw [heapBlocks, if_neg (ne_zero_of_toNat_pos (hb ▸ hp)), hrest', Option.map_some, hb, hblk,
      hdec, layout]

/-! ### Finding a block -/

theorem Hdr.Shows.passed_iff (h : (readHdr m b).Shows x) (sz : BitVec wb.width) :
    blkFree m b = 0 ∨ blkSz m b < sz ↔ ¬Fits sz.toNat x := by
  obtain ⟨hsz, hfree⟩ := h
  rw [Fits, ← hsz, ← hfree, not_and_or, not_ne_iff, Nat.not_le, BitVec.lt_def]
  rfl

theorem Linked.find (h : Linked m 0 b p bs) (hp : 0 < p) (hlen : bs.length < n)
    (sz : BitVec wb.width) : (heapFind m sz n b = some 0 ∧ ∀ x ∈ bs, ¬Fits sz.toNat x) ∨
      ∃ l x r c, bs = l ++ x :: r ∧ (∀ y ∈ l, ¬Fits sz.toNat y) ∧ Fits sz.toNat x ∧
        heapFind m sz n b = some c ∧ Linked m c b p l ∧
        Linked m 0 c (p + span (rivHeapHdr wb) l) (x :: r) := by
  induction bs generalizing b p n with
  | nil =>
    obtain ⟨n, rfl⟩ := Nat.exists_eq_add_one.mpr (Nat.zero_lt_of_lt hlen)
    have hb : b = 0 := h
    simp [heapFind, hb]
  | cons x xs ih =>
    obtain ⟨n, rfl⟩ := Nat.exists_eq_add_one.mpr (Nat.zero_lt_of_lt hlen)
    obtain ⟨hb, hx, hrest⟩ := h
    have hne : b ≠ 0 := ne_zero_of_toNat_pos (hb ▸ hp)
    rw [heapFind, if_neg hne]
    by_cases hfits : Fits sz.toNat x
    · right
      rw [if_neg ((hx.passed_iff sz).not.mpr (not_not.mpr hfits))]
      exact ⟨[], x, xs, b, rfl, fun y hy => absurd hy List.not_mem_nil, hfits, rfl, rfl, hb, hx,
        hrest⟩
    · rw [if_pos ((hx.passed_iff sz).mpr hfits)]
      rcases ih hrest (by omega) (Nat.lt_of_succ_lt_succ hlen) with
        ⟨hnone, hall⟩ | ⟨l, y, r, c, rfl, hpassed, hy, hsome, hl, hr⟩
      · exact .inl ⟨hnone, List.forall_mem_cons.mpr ⟨hfits, hall⟩⟩
      right
      refine ⟨x :: l, y, r, c, rfl, List.forall_mem_cons.mpr ⟨hfits, hpassed⟩, hy, hsome,
        ⟨hb, hx, hl⟩, ?_⟩
      rwa [span, ← Nat.add_assoc p (rivHeapHdr wb + x.size)]

/-! ### Taking a block -/

theorem heapSplit_spec (m : Bytes) (b sz : BitVec wb.width)
    (hn : b.toNat + rivHeapHdr wb ≤ (b + BitVec.ofNat _ (rivHeapHdr wb) + sz).toNat) :
    readHdr (heapSplit m b sz) b = ⟨sz, b + BitVec.ofNat _ (rivHeapHdr wb) + sz, blkFree m b⟩ ∧
      readHdr (heapSplit m b sz) (b + BitVec.ofNat _ (rivHeapHdr wb) + sz) =
        ⟨blkSz m b - sz - BitVec.ofNat _ (rivHeapHdr wb), blkNext m b, 1⟩ ∧
      ∀ a, OffHdr wb b.toNat a → OffHdr wb (b + BitVec.ofNat _ (rivHeapHdr wb) + sz).toNat a →
        heapSplit m b sz a = m a := by
  rw [heapSplit]
  generalize b + BitVec.ofNat _ (rivHeapHdr wb) + sz = n at hn ⊢
  generalize hv : blkSz m b - sz - BitVec.ofNat _ (rivHeapHdr wb) = v
  have hnext : blkNext (setSz m n v) b = blkNext m b :=
    congrArg Hdr.next (readHdr_of_offHdr (.inr hn) fun a ha => setSz_apply ha v)
  rw [hnext]
  -- the new header is complete, and nothing else has changed
  generalize hm' : setFree (setNext (setSz m n v) n (blkNext m b)) n 1 = m'
  have hoff : ∀ a, OffHdr wb n.toNat a → m' a = m a := by
    intro a ha
    rw [← hm', setFree_apply ha, setNext_apply ha, setSz_apply ha]
  have hnew : readHdr m' n = ⟨v, blkNext m b, 1⟩ := by
    rw [← hm', readHdr_setFree, readHdr_setNext, readHdr_setSz]
  have hold : readHdr m' b = readHdr m b := readHdr_of_offHdr (.inr hn) hoff
  have hoff' : ∀ a, OffHdr wb b.toNat a → setNext (setSz m' b sz) b n a = m' a := by
    intro a ha
    rw [setNext_apply ha, setSz_apply ha]
  refine ⟨?_, ?_, ?_⟩
  · rw [readHdr_setNext, readHdr_setSz, hold, readHdr]
  · rw [readHdr_of_offHdr (.inl hn) hoff', hnew]
  · intro a hb hn
    rw [hoff' a hb, hoff a hn]

theorem Linked.split (h : Linked m q b p (x :: r)) (hroom : sz.toNat + rivHeapHdr wb ≤ x.size)
    (hfit : p + rivHeapHdr wb + x.size < 2 ^ wb.width) : Linked (heapSplit m b sz) q b p
        (⟨sz.toNat, x.free⟩ :: ⟨x.size - sz.toNat - rivHeapHdr wb, true⟩ :: r) ∧
      ∀ a, a < p ∨ p + rivHeapHdr wb + x.size ≤ a → heapSplit m b sz a = m a := by
  obtain ⟨hb, ⟨hsz, hfree⟩, hrest⟩ := h
  have hblk : (blkSz m b).toNat = x.size := hsz
  have hhdr := toNat_hdr wb
  have hn : (b + BitVec.ofNat _ (rivHeapHdr wb) + sz).toNat = p + rivHeapHdr wb + sz.toNat := by
    rw [BitVec.toNat_add, BitVec.toNat_add, hhdr, hb, Nat.mod_add_mod, Nat.mod_eq_of_lt]
    omega
  have hrestSz : (blkSz m b - sz - BitVec.ofNat _ (rivHeapHdr wb)).toNat =
      x.size - sz.toNat - rivHeapHdr wb := by
    have hle : sz ≤ blkSz m b := BitVec.le_def.mpr (by omega)
    have hle' : BitVec.ofNat _ (rivHeapHdr wb) ≤ blkSz m b - sz := by
      rw [BitVec.le_def, BitVec.toNat_sub_of_le hle]
      omega
    rw [BitVec.toNat_sub_of_le hle', BitVec.toNat_sub_of_le hle, hblk, hhdr]
  obtain ⟨hold, hnew, hoff⟩ := heapSplit_spec m b sz (by omega)
  have hkept : ∀ a, a < p ∨ p + rivHeapHdr wb + x.size ≤ a → heapSplit m b sz a = m a := by
    intro a ha
    apply hoff
    · rw [OffHdr]
      omega
    · rw [OffHdr]
      omega
  refine ⟨⟨hb, ?_, ?_, ?_, ?_⟩, hkept⟩
  · rw [hold]
    exact ⟨rfl, hfree⟩
  · rw [hold]
    show (b + BitVec.ofNat _ (rivHeapHdr wb) + sz).toNat = p + (rivHeapHdr wb + sz.toNat)
    omega
  · rw [hold, hnew]
    exact ⟨hrestSz, iff_of_true (show (1 : RivI32) ≠ 0 by decide) rfl⟩
  · rw [hold, hnew]
    have hend : p + (rivHeapHdr wb + sz.toNat) +
        (rivHeapHdr wb + (x.size - sz.toNat - rivHeapHdr wb)) = p + (rivHeapHdr wb + x.size) := by
      omega
    rw [hend]
    exact hrest.congr_of_le fun a ha => hkept a (by omega)

theorem Linked.mark (h : Linked m q b p (x :: r)) (v : RivI32) :
    Linked (setFree m b v) q b p (⟨x.size, decide (v ≠ 0)⟩ :: r) := by
  obtain ⟨hb, ⟨hsz, -⟩, hrest⟩ := h
  rw [Linked, readHdr_setFree]
  refine ⟨hb, ⟨hsz, decide_eq_true_iff.symm⟩, ?_⟩
  refine hrest.congr_of_le fun a ha => setFree_apply ?_ v
  rw [OffHdr]
  omega

theorem Linked.take (h : Linked m q b p (x :: r))
    (hroom : sz.toNat + rivHeapHdr wb + rivHeapAlign < 2 ^ wb.width)
    (hfit : p + rivHeapHdr wb + x.size < 2 ^ wb.width) :
    Linked (heapTake m b sz) q b p (carve (rivHeapHdr wb) rivHeapAlign sz.toNat x ++ r) ∧
      ∀ a, a < p ∨ p + rivHeapHdr wb + x.size ≤ a → heapTake m b sz a = m a := by
  have hb : b.toNat = p := h.1
  have hblk : (blkSz m b).toNat = x.size := h.2.1.1
  have hcond : sz + BitVec.ofNat _ (rivHeapHdr wb) + BitVec.ofNat _ rivHeapAlign ≤ blkSz m b ↔
      sz.toNat + rivHeapHdr wb + rivHeapAlign ≤ x.size := by
    simp_all [BitVec.le_def, BitVec.toNat_add, Nat.mod_add_mod, Nat.mod_eq_of_lt]
  have hoff : ∀ a, a < p ∨ p + rivHeapHdr wb + x.size ≤ a → OffHdr wb b.toNat a := by
    intro a ha
    rw [OffHdr]
    omega
  rw [heapTake, carve]
  by_cases hsplit : sz.toNat + rivHeapHdr wb + rivHeapAlign ≤ x.size
  · rw [if_pos (hcond.mpr hsplit), if_pos hsplit]
    obtain ⟨hlinked, hkept⟩ := h.split (Nat.le_of_add_right_le hsplit) hfit
    refine ⟨hlinked.mark 0, fun a ha => ?_⟩
    rw [setFree_apply (hoff a ha), hkept a ha]
  · rw [if_neg (hcond.not.mpr hsplit), if_neg hsplit]
    exact ⟨h.mark 0, fun a ha => setFree_apply (hoff a ha) 0⟩

/-! ### The sweep -/

theorem heapMerge_spec (m : Bytes) (b : BitVec wb.width)
    (hnext : b.toNat + rivHeapHdr wb ≤ (blkNext m b).toNat) : readHdr (heapMerge m b) b =
        ⟨blkSz m b + (BitVec.ofNat _ (rivHeapHdr wb) + blkSz m (blkNext m b)),
          blkNext m (blkNext m b), blkFree m b⟩ ∧
      ∀ a, OffHdr wb b.toNat a → heapMerge m b a = m a := by
  rw [heapMerge]
  generalize blkSz m b + (BitVec.ofNat _ (rivHeapHdr wb) + blkSz m (blkNext m b)) = v
  have hother : blkNext (setSz m b v) (blkNext m b) = blkNext m (blkNext m b) :=
    congrArg Hdr.next (readHdr_of_offHdr (.inl hnext) fun a ha => setSz_apply ha v)
  grind [readHdr_setNext, readHdr_setSz, readHdr, setNext_apply, setSz_apply]

theorem heapSweep_succ (hb : b ≠ 0) : heapSweep (n + 1) m b =
      if blkFree m b ≠ 0 ∧ blkNext m b ≠ 0 ∧ blkFree m (blkNext m b) ≠ 0 then
        heapSweep n (heapMerge m b) (blkNext (heapMerge m b) b)
      else heapSweep n m (blkNext m b) := by
  rw [heapSweep, if_neg hb]
  split
  · rfl
  · rfl

theorem Linked.cons_of_kept (hb : b.toNat = p) (hx : (readHdr m b).Shows x)
    (hkept : ∀ a, (∀ e ∈ layout (rivHeapHdr wb) (p + (rivHeapHdr wb + x.size)) bs,
      OffHdr wb e.1 a) → m' a = m a)
    (hr : Linked m' q (readHdr m b).next (p + (rivHeapHdr wb + x.size)) r) :
    Linked m' q b p (x :: r) := by
  have hhdr : readHdr m' b = readHdr m b := by
    refine readHdr_congr fun a ha hlt => hkept a fun e he => .inl ?_
    have hbound := (layout_bounds he).1
    omega
  rw [Linked, hhdr]
  exact ⟨hb, hx, hr⟩

theorem Linked.sweep (h : Linked m 0 b p bs) (hp : 0 < p)
    (hfit : p + span (rivHeapHdr wb) bs < 2 ^ wb.width) (hlen : bs.length < n) :
    ∃ m', heapSweep n m b = some m' ∧ Linked m' 0 b p (Tiling.sweep (rivHeapHdr wb) bs) ∧
      ∀ a, (∀ e ∈ layout (rivHeapHdr wb) p bs, OffHdr wb e.1 a) → m' a = m a := by
  induction bs using Tiling.sweep.induct generalizing m b p n with
  | case1 =>
    obtain ⟨n, rfl⟩ := Nat.exists_eq_add_one.mpr (Nat.zero_lt_of_lt hlen)
    have hb : b = 0 := h
    refine ⟨m, ?_, h, fun a _ => rfl⟩
    rw [heapSweep, if_pos hb]
  | case2 x =>
    obtain ⟨n, rfl⟩ := Nat.exists_eq_add_one.mpr (Nat.zero_lt_of_lt hlen)
    obtain ⟨k, rfl⟩ := Nat.exists_eq_add_one.mpr (Nat.lt_of_succ_lt_succ hlen)
    have hnext : blkNext m b = 0 := h.2.2
    refine ⟨m, ?_, h, fun a _ => rfl⟩
    simp [heapSweep, hnext]
  | case3 x y rest hfree ih =>
    obtain ⟨n, rfl⟩ := Nat.exists_eq_add_one.mpr (Nat.zero_lt_of_lt hlen)
    obtain ⟨hxfree, hyfree⟩ := Bool.and_eq_true_iff.mp hfree
    obtain ⟨hb, ⟨hxsz, hx⟩, hc, ⟨hysz, hy⟩, hrest⟩ := h
    simp only [readHdr] at hxsz hx hc hysz hy hrest
    simp only [span] at hfit
    obtain ⟨hmerged, hoff⟩ := heapMerge_spec m b (by omega)
    -- the sweep goes on behind the block that was taken over
    have hpos : p + (rivHeapHdr wb + x.size) + (rivHeapHdr wb + y.size) =
        p + (rivHeapHdr wb + (x.size + (rivHeapHdr wb + y.size))) := by
      omega
    rw [hpos] at hrest
    have hrest' : Linked (heapMerge m b) 0 (readHdr (heapMerge m b) b).next
        (p + (rivHeapHdr wb + (x.size + (rivHeapHdr wb + y.size)))) rest := by
      rw [hmerged]
      exact hrest.congr_of_le fun a ha => hoff a (by rw [OffHdr]; omega)
    have hshows : (readHdr (heapMerge m b) b).Shows
        ⟨x.size + (rivHeapHdr wb + y.size), true⟩ := by
      rw [hmerged]
      refine ⟨?_, iff_of_true (hx.mpr hxfree) rfl⟩
      have hhdr := toNat_hdr wb
      simp only [BitVec.toNat_add, hhdr, hxsz, hysz]
      rw [Nat.add_mod_mod, Nat.mod_eq_of_lt (by omega)]
    obtain ⟨m', hsome, hlinked, hkept⟩ := ih hrest' (by omega) (by omega)
      (Nat.lt_of_succ_lt (Nat.lt_of_succ_lt_succ hlen))
    refine ⟨m', ?_, ?_, ?_⟩
    · rw [heapSweep_succ (ne_zero_of_toNat_pos (hb ▸ hp)), if_pos]
      · exact hsome
      · exact ⟨hx.mpr hxfree, ne_zero_of_toNat_pos (by omega), hy.mpr hyfree⟩
    · rw [Tiling.sweep, if_pos hfree]
      exact Linked.cons_of_kept hb hshows hkept hlinked
    · intro a ha
      rw [hkept a, hoff a]
      · exact hb ▸ ha _ List.mem_cons_self
      intro e he
      apply ha e
      rw [← hpos] at he
      exact List.mem_cons_of_mem _ (List.mem_cons_of_mem _ he)
  | case4 x y rest hfree ih =>
    obtain ⟨n, rfl⟩ := Nat.exists_eq_add_one.mpr (Nat.zero_lt_of_lt hlen)
    obtain ⟨hb, hx, hrest⟩ := h
    rw [span] at hfit
    obtain ⟨m', hsome, hlinked, hkept⟩ := ih hrest (by omega) (by omega)
      (Nat.lt_of_succ_lt_succ hlen)
    refine ⟨m', ?_, ?_, ?_⟩
    · rw [heapSweep_succ (ne_zero_of_toNat_pos (hb ▸ hp)), if_neg]
      · exact hsome
      · rintro ⟨hxfree, -, hyfree⟩
        exact hfree (Bool.and_eq_true_iff.mpr ⟨hx.2.mp hxfree, hrest.2.1.2.mp hyfree⟩)
    · rw [Tiling.sweep, if_neg hfree]
      exact Linked.cons_of_kept hb hx hkept hlinked
    · intro a ha
      exact hkept a fun e he => ha e (List.mem_cons_of_mem _ he)

/-! ### The calls -/

theorem linked_init (m : Bytes) (mem : BitVec wb.width) {n : BitVec wb.width}
    (hn : rivHeapHdr wb ≤ n.toNat) :
    Linked (rivHeapInit m mem n).2 0 mem mem.toNat [⟨n.toNat - rivHeapHdr wb, true⟩] := by
  have hhdr := toNat_hdr wb
  have hle : BitVec.ofNat _ (rivHeapHdr wb) ≤ n := BitVec.le_def.mpr (hhdr.symm ▸ hn)
  rw [Linked, rivHeapInit, readHdr_setFree, readHdr_setNext, readHdr_setSz]
  refine ⟨rfl, ⟨?_, iff_of_true (show (1 : RivI32) ≠ 0 by decide) rfl⟩, rfl⟩
  simp [BitVec.toNat_sub_of_le hle, hhdr]

theorem toNat_heapRound (sz : BitVec wb.width) :
    (heapRound sz).toNat = alignUp sz.toNat rivHeapAlign % 2 ^ wb.width := by
  have hpow : BitVec.ofNat wb.width rivHeapAlign = BitVec.twoPow wb.width 3 := by
    cases wb with
    | bits32 => rfl
    | bits64 => rfl
  have hwidth : 3 < wb.width := by
    cases wb with
    | bits32 => decide
    | bits64 => decide
  rw [heapRound, hpow, toNat_alignUp hwidth]
  rfl

theorem align_dvd_pow (wb : WordBits) : rivHeapAlign ∣ 2 ^ wb.width := by
  cases wb with
  | bits32 => exact ⟨2 ^ 29, rfl⟩
  | bits64 => exact ⟨2 ^ 61, rfl⟩

theorem align_dvd_heapRound (sz : BitVec wb.width) : rivHeapAlign ∣ (heapRound sz).toNat := by
  rw [toNat_heapRound]
  exact (Nat.dvd_mod_iff (align_dvd_pow wb)).mpr (dvd_alignUp _ _)

theorem le_heapRound (hsz : sz.toNat + rivHeapAlign ≤ 2 ^ wb.width) :
    sz.toNat ≤ (heapRound sz).toNat := by
  have hpos : 0 < rivHeapAlign := by decide
  have hlt : alignUp sz.toNat rivHeapAlign < sz.toNat + rivHeapAlign := alignUp_lt hpos
  rw [toNat_heapRound, Nat.mod_eq_of_lt (by omega)]
  exact le_alignUp hpos

theorem room_of_fits (hp : wb.bytes ≤ p) (hsz : rivHeapAlign ∣ sz.toNat) (hle : sz.toNat ≤ x.size)
    (hfit : p + rivHeapHdr wb + x.size < 2 ^ wb.width) :
    sz.toNat + rivHeapHdr wb + rivHeapAlign < 2 ^ wb.width := by
  cases wb with
  | bits32 | bits64 =>
    simp only [rivHeapHdr, WordBits.bytes, WordBits.width, rivHeapAlign] at *
    omega

theorem Linked.alloc (h : Linked m 0 b p bs) (hp : wb.bytes ≤ p)
    (hfit : p + span (rivHeapHdr wb) bs < 2 ^ wb.width) (sz : BitVec wb.width) :
    (rivHeapAlloc ⟨b⟩ m sz = some (0, m) ∧ ∀ x ∈ bs, ¬Fits (heapRound sz).toNat x) ∨
      ∃ l x r c m', bs = l ++ x :: r ∧ (∀ y ∈ l, ¬Fits (heapRound sz).toNat y) ∧
        Fits (heapRound sz).toNat x ∧ rivHeapAlloc ⟨b⟩ m sz = some (c, m') ∧
        c.toNat = p + span (rivHeapHdr wb) l + rivHeapHdr wb ∧
        Linked m' 0 b p (l ++ carve (rivHeapHdr wb) rivHeapAlign (heapRound sz).toNat x ++ r) ∧
        ∀ a, a < p + span (rivHeapHdr wb) l ∨
          p + span (rivHeapHdr wb) l + rivHeapHdr wb + x.size ≤ a → m' a = m a := by
  have hbytes := four_le_bytes wb
  rw [rivHeapAlloc]
  rcases h.find (by omega) (length_lt_of_fit hfit) (heapRound sz) with
    ⟨hnone, hall⟩ | ⟨l, x, r, c, rfl, hpassed, hx, hsome, hl, hr⟩
  · left
    rw [hnone]
    exact ⟨rfl, hall⟩
  · right
    have hc : c.toNat = p + span (rivHeapHdr wb) l := hr.1
    rw [span_append, span] at hfit
    have hroom := room_of_fits (by omega) (align_dvd_heapRound sz) hx.2
      (p := p + span (rivHeapHdr wb) l) (by omega)
    obtain ⟨htake, hkept⟩ := hr.take hroom (by omega)
    refine ⟨l, x, r, c + BitVec.ofNat _ (rivHeapHdr wb), heapTake m c (heapRound sz), rfl, hpassed,
      hx, ?_, ?_, ?_, hkept⟩
    · rw [hsome, Option.map_some, if_neg (ne_zero_of_toNat_pos (by omega))]
    · rw [BitVec.toNat_add, toNat_hdr, hc, Nat.mod_eq_of_lt (by omega)]
    · rw [List.append_assoc, linked_append]
      exact ⟨c, hl.congr_of_lt fun a ha => hkept a (.inl ha), htake⟩

theorem Linked.free (h : Linked m 0 b p (l ++ x :: r)) (hp : 0 < p)
    (hfit : p + span (rivHeapHdr wb) (l ++ x :: r) < 2 ^ wb.width) {c : BitVec wb.width}
    (hc : c.toNat = p + span (rivHeapHdr wb) l + rivHeapHdr wb) :
    ∃ m', rivHeapFree ⟨b⟩ m c = some m' ∧
      Linked m' 0 b p (Tiling.sweep (rivHeapHdr wb) (l ++ x.release :: r)) ∧
      ∀ a, (∀ e ∈ layout (rivHeapHdr wb) p (l ++ x :: r), OffHdr wb e.1 a) → m' a = m a := by
  obtain ⟨d, hl, hr⟩ := linked_append.mp h
  have hd : d.toNat = p + span (rivHeapHdr wb) l := hr.1
  have hblk : c - BitVec.ofNat _ (rivHeapHdr wb) = d := by
    apply BitVec.eq_of_toNat_eq
    rw [BitVec.toNat_sub_of_le, hc, toNat_hdr, hd, Nat.add_sub_cancel]
    rw [BitVec.le_def, toNat_hdr]
    omega
  have hreleased : Linked (setFree m d 1) 0 b p (l ++ x.release :: r) := by
    refine linked_append.mpr ⟨d, hl.congr_of_lt fun a ha => ?_, hr.mark 1⟩
    exact setFree_apply (.inl (hd ▸ ha)) 1
  rw [← span_release] at hfit
  obtain ⟨m', hsome, hlinked, hkept⟩ := hreleased.sweep hp hfit (length_lt_of_fit hfit)
  refine ⟨m', ?_, hlinked, fun a ha => ?_⟩
  · rw [rivHeapFree, if_neg (ptr_ne_zero hc), hblk]
    exact hsome
  rw [hkept a, setFree_apply]
  · rw [hd]
    exact ha (_, x) (mem_layout.mpr ⟨l, r, rfl, rfl⟩)
  · intro e he
    obtain ⟨e', he', haddr⟩ := mem_layout_release he
    exact haddr ▸ ha e' he'

end Linked

end Rivet.Alloc
