import Rivet.Alloc.Memory
import Rivet.Support.Runs

/-!
# The slab allocator

`riv_slab` of `slab.h`.  The free objects are linked through their first word, in the
memory that is handed out.  As long as clients free what they have and write only into
it, every object is either live or on the list.
-/

namespace Rivet.Alloc

open ByteMem Runs Function

variable {wb : WordBits}

/-! ## `riv_slab` -/

structure RivSlab (wb : WordBits) where
  base : BitVec wb.width
  objSize : BitVec wb.width
  objCount : RivU32
  freeList : BitVec wb.width
  freeCount : RivU32

/-- The loop of `riv_slab_init` after `n` rounds: the list so far. -/
def slabLinks (base objSize : BitVec wb.width) (m : Bytes) : ℕ → BitVec wb.width × Bytes
  | 0 => (0, m)
  | n + 1 =>
    let (freeList, m) := slabLinks base objSize m n
    let l := base + BitVec.ofNat _ n * objSize
    (l, storeWord m l.toNat freeList)

def rivSlabInit (s : RivSlab wb) (m : Bytes) (backing objSize : BitVec wb.width)
    (objCount : RivU32) : RivI32 × RivSlab wb × Bytes :=
  if objSize < BitVec.ofNat _ wb.bytes then (-1, s, m)
  else
    let (freeList, m) := slabLinks backing objSize m objCount.toNat
    (0, ⟨backing, objSize, objCount, freeList, objCount⟩, m)

/-- `riv_slab_alloc`; a null pointer is 0. -/
def rivSlabAlloc (s : RivSlab wb) (m : Bytes) : BitVec wb.width × RivSlab wb :=
  if s.freeList = 0 then (0, s)
  else
    let l := s.freeList
    (l, { s with freeList := loadWord m l.toNat, freeCount := s.freeCount - 1 })

def rivSlabFree (s : RivSlab wb) (m : Bytes) (p : BitVec wb.width) : RivSlab wb × Bytes :=
  if p = 0 then (s, m)
  else
    ({ s with freeList := p, freeCount := s.freeCount + 1 }, storeWord m p.toNat s.freeList)

/-! ## Objects -/

/-- Memory for `objCount` objects. -/
structure Backing (wb : WordBits) where
  base : BitVec wb.width
  objSize : BitVec wb.width
  objCount : RivU32
  base_ne_zero : base ≠ 0
  fits : base.toNat + objCount.toNat * objSize.toNat < 2 ^ wb.width

namespace Backing

variable (B : Backing wb)

def slot (i : ℕ) : BitVec wb.width := B.base + BitVec.ofNat _ i * B.objSize

def slots : List (BitVec wb.width) := (List.range B.objCount.toNat).map B.slot

def IsSlot (p : BitVec wb.width) : Prop := p ∈ B.slots

variable {B}

theorem toNat_slot {i : ℕ} (hi : i < B.objCount.toNat) :
    (B.slot i).toNat = B.base.toNat + i * B.objSize.toNat := by
  have hfits := B.fits
  have hle : i * B.objSize.toNat ≤ B.objCount.toNat * B.objSize.toNat :=
    Nat.mul_le_mul_right _ hi.le
  have hsum : B.base.toNat + i * B.objSize.toNat < 2 ^ wb.width := by omega
  simp_all [slot, BitVec.toNat_add, BitVec.toNat_mul, BitVec.toNat_ofNat, Nat.mod_eq_of_lt]

theorem slot_ne_zero {i : ℕ} (hi : i < B.objCount.toNat) : B.slot i ≠ 0 := by
  intro hzero
  have hslot := toNat_slot hi
  rw [hzero] at hslot
  apply B.base_ne_zero
  apply BitVec.eq_of_toNat_eq
  rw [show (0 : BitVec wb.width).toNat = 0 from BitVec.toNat_zero] at hslot ⊢
  omega

theorem slot_apart {i j : ℕ} (hi : i < B.objCount.toNat) (hj : j < B.objCount.toNat) (hne : i ≠ j) :
    (B.slot i).toNat + B.objSize.toNat ≤ (B.slot j).toNat ∨
      (B.slot j).toNat + B.objSize.toNat ≤ (B.slot i).toNat := by
  rw [toNat_slot hi, toNat_slot hj]
  rcases Nat.lt_or_gt_of_ne hne with hlt | hgt
  · have hle := Nat.mul_le_mul_right B.objSize.toNat hlt
    rw [Nat.succ_mul] at hle
    omega
  · have hle := Nat.mul_le_mul_right B.objSize.toNat hgt
    rw [Nat.succ_mul] at hle
    omega

theorem IsSlot.apart {p q : BitVec wb.width} (hp : B.IsSlot p) (hq : B.IsSlot q) (hne : p ≠ q) :
    p.toNat + B.objSize.toNat ≤ q.toNat ∨ q.toNat + B.objSize.toNat ≤ p.toNat := by
  obtain ⟨i, hi, rfl⟩ := List.mem_map.mp hp
  obtain ⟨j, hj, rfl⟩ := List.mem_map.mp hq
  refine slot_apart (List.mem_range.mp hi) (List.mem_range.mp hj) ?_
  rintro rfl
  exact hne rfl

theorem IsSlot.ne_zero {p : BitVec wb.width} (hp : B.IsSlot p) : p ≠ 0 := by
  obtain ⟨i, hi, rfl⟩ := List.mem_map.mp hp
  exact slot_ne_zero (List.mem_range.mp hi)

theorem nodup_slots (hsize : 0 < B.objSize.toNat) : B.slots.Nodup := by
  refine List.Nodup.map_on ?_ List.nodup_range
  intro i hi j hj heq
  by_contra hne
  have hapart := slot_apart (List.mem_range.mp hi) (List.mem_range.mp hj) hne
  rw [heq] at hapart
  omega

end Backing

/-! ## Runs -/

/-- The slab and the memory, with the objects that are handed out and not freed. -/
structure SlabRun (wb : WordBits) where
  slab : RivSlab wb
  mem : Bytes
  live : List (BitVec wb.width)

/-- The calls, and the writes of clients. -/
inductive SlabAction (wb : WordBits) where
  | alloc
  | free (p : BitVec wb.width)
  | write (a : ℕ) (v : BitVec 8)

def SlabRun.Owned (s : SlabRun wb) (a : ℕ) : Prop :=
  ∃ p ∈ s.live, p.toNat ≤ a ∧ a < p.toNat + s.slab.objSize.toNat

instance (s : SlabRun wb) (a : ℕ) : Decidable (s.Owned a) :=
  inferInstanceAs (Decidable (∃ p ∈ s.live, _))

def SlabRun.step (s : SlabRun wb) : SlabAction wb → Option (SlabRun wb)
  | .alloc =>
    let (p, slab) := rivSlabAlloc s.slab s.mem
    some ⟨slab, s.mem, if p = 0 then s.live else p :: s.live⟩
  | .free p =>
    if p ∈ s.live then
      let (slab, mem) := rivSlabFree s.slab s.mem p
      some ⟨slab, mem, s.live.erase p⟩
    else none
  | .write a v => if s.Owned a then some { s with mem := update s.mem a v } else none

def linkIn (m : Bytes) (p : BitVec wb.width) : BitVec wb.width := loadWord m p.toNat

/-- The live objects and those on the free list are the objects of the slab, each once, and
have no byte in common; `free_count` is the length of the list, and an allocation fails if
and only if all objects are live. -/
def SlabRun.Partition (B : Backing wb) (s : SlabRun wb) : Prop :=
  ∃ frees, Chain (linkIn s.mem) 0 s.slab.freeList frees ∧
    (s.live ++ frees).Perm B.slots ∧ B.slots.Nodup ∧
    (∀ p ∈ s.live, ∀ q ∈ frees,
      p.toNat + B.objSize.toNat ≤ q.toNat ∨ q.toNat + B.objSize.toNat ≤ p.toNat) ∧
    s.slab.freeCount.toNat = frees.length ∧
    ((rivSlabAlloc s.slab s.mem).1 = 0 ↔ s.live.length = B.objCount.toNat)

/-- What the calls and the writes keep. -/
structure SlabRun.Inv (B : Backing wb) (s : SlabRun wb) (frees : List (BitVec wb.width)) : Prop where
  objSize : s.slab.objSize = B.objSize
  large : wb.bytes ≤ B.objSize.toNat
  chain : Chain (linkIn s.mem) 0 s.slab.freeList frees
  perm : (s.live ++ frees).Perm B.slots
  count : s.slab.freeCount.toNat = frees.length

section Inv

variable {B : Backing wb} {s : SlabRun wb} {frees : List (BitVec wb.width)}

theorem SlabRun.Inv.isSlot_live (hs : s.Inv B frees) {p : BitVec wb.width} (hp : p ∈ s.live) :
    B.IsSlot p :=
  hs.perm.mem_iff.mp (List.mem_append_left _ hp)

theorem SlabRun.Inv.isSlot_free (hs : s.Inv B frees) {p : BitVec wb.width} (hp : p ∈ frees) :
    B.IsSlot p :=
  hs.perm.mem_iff.mp (List.mem_append_right _ hp)

theorem SlabRun.Inv.pos (hs : s.Inv B frees) : 0 < B.objSize.toNat := by
  have hlarge := hs.large
  cases wb with
  | bits32 | bits64 => exact Nat.lt_of_lt_of_le (by decide) hlarge

theorem SlabRun.Inv.nodup (hs : s.Inv B frees) : (s.live ++ frees).Nodup :=
  hs.perm.nodup_iff.mpr (B.nodup_slots hs.pos)

theorem SlabRun.Inv.apart (hs : s.Inv B frees) {p q : BitVec wb.width} (hp : p ∈ s.live)
    (hq : q ∈ frees) :
    p.toNat + B.objSize.toNat ≤ q.toNat ∨ q.toNat + B.objSize.toNat ≤ p.toNat := by
  refine (hs.isSlot_live hp).apart (hs.isSlot_free hq) ?_
  exact (List.nodup_append.mp hs.nodup).2.2 p hp q hq

theorem SlabRun.Inv.length (hs : s.Inv B frees) :
    s.live.length + frees.length = B.objCount.toNat := by
  have hlength := hs.perm.length_eq
  simp_all [Backing.slots]

theorem SlabRun.Inv.alloc (hs : s.Inv B frees) :
    (rivSlabAlloc s.slab s.mem = (0, s.slab) ∧ frees = []) ∨
      ∃ p fs slab, p ≠ 0 ∧ frees = p :: fs ∧ rivSlabAlloc s.slab s.mem = (p, slab) ∧
        SlabRun.Inv B ⟨slab, s.mem, p :: s.live⟩ fs := by
  have hchain := hs.chain
  have hcount := hs.count
  have hperm := hs.perm
  rw [rivSlabAlloc]
  by_cases hnull : s.slab.freeList = 0
  · rw [if_pos hnull]
    exact .inl ⟨rfl, hchain.eq_null_iff.mp hnull⟩
  obtain ⟨fs, rfl, hrest⟩ := hchain.exists_cons hnull
  rw [if_neg hnull]
  have hone : (1 : RivU32) ≤ s.slab.freeCount :=
    BitVec.le_def.mpr (hcount ▸ Nat.le_add_left 1 fs.length)
  refine .inr ⟨_, fs, _, hnull, rfl, rfl, hs.objSize, hs.large, hrest, ?_, ?_⟩
  · exact List.perm_middle.symm.trans hperm
  · rw [BitVec.toNat_sub_of_le hone, hcount]
    rfl

theorem linkIn_storeWord_self (m : Bytes) (p v : BitVec wb.width) :
    linkIn (storeWord m p.toNat v) p = v := loadWord_storeWord_self m p.toNat v

theorem SlabRun.Inv.free (hs : s.Inv B frees) {p : BitVec wb.width} (hp : p ∈ s.live) :
    SlabRun.Inv B ⟨(rivSlabFree s.slab s.mem p).1, (rivSlabFree s.slab s.mem p).2, s.live.erase p⟩
      (p :: frees) := by
  have hne := (hs.isSlot_live hp).ne_zero
  have hlarge := hs.large
  have hlength := hs.length
  have hpos := List.length_pos_of_mem hp
  rw [rivSlabFree, if_neg hne]
  refine ⟨hs.objSize, hs.large, ⟨rfl, hne, ?_⟩, ?_, ?_⟩
  · rw [linkIn_storeWord_self]
    refine hs.chain.congr fun q hq => ?_
    have hapart := hs.apart hp hq
    exact loadWord_storeWord_of_disjoint _ (by omega)
  · have hback := (List.perm_cons_erase hp).symm.append_right frees
    exact List.perm_middle.trans (hback.trans hs.perm)
  · have hcount := hs.count
    rw [BitVec.toNat_add_of_lt, hcount]
    · rfl
    · rw [hcount]
      show frees.length + 1 < _
      omega

theorem SlabRun.Inv.write (hs : s.Inv B frees) {a : ℕ} (ha : s.Owned a) (v : BitVec 8) :
    SlabRun.Inv B { s with mem := update s.mem a v } frees := by
  obtain ⟨p, hp, hlow, hhigh⟩ := ha
  have hlarge := hs.large
  rw [hs.objSize] at hhigh
  refine ⟨hs.objSize, hs.large, hs.chain.congr fun q hq => ?_, hs.perm, hs.count⟩
  have hapart := hs.apart hp hq
  exact loadWord_congr fun x hx hlt => update_of_ne (by omega) _ _

theorem SlabRun.Inv.step {s' : SlabRun wb} {a : SlabAction wb} (hs : s.Inv B frees)
    (h : s.step a = some s') : ∃ frees', s'.Inv B frees' := by
  cases a with
  | alloc =>
    rw [SlabRun.step] at h
    rcases hs.alloc with ⟨hnone, -⟩ | ⟨p, fs, slab, hne, -, hsome, hs'⟩
    · rw [hnone] at h
      cases h
      exact ⟨frees, hs⟩
    · rw [hsome] at h
      simp only [if_neg hne] at h
      cases h
      exact ⟨fs, hs'⟩
  | free p =>
    rw [SlabRun.step] at h
    split at h
    · next hp =>
      cases h
      exact ⟨p :: frees, hs.free hp⟩
    · cases h
  | write a v =>
    rw [SlabRun.step] at h
    split at h
    · next ha =>
      cases h
      exact ⟨frees, hs.write ha v⟩
    · cases h

theorem SlabRun.Inv.partition (hs : s.Inv B frees) : s.Partition B := by
  refine ⟨frees, hs.chain, hs.perm, B.nodup_slots hs.pos, fun p hp q hq => hs.apart hp hq,
    hs.count, ?_⟩
  have hlength := hs.length
  rcases hs.alloc with ⟨hnone, rfl⟩ | ⟨p, fs, slab, hne, rfl, hsome, -⟩
  · rw [hnone]
    exact iff_of_true rfl hlength
  rw [hsome]
  refine iff_of_false hne fun hall => ?_
  rw [List.length_cons] at hlength
  omega

end Inv

theorem slabLinks_chain (B : Backing wb) (hlarge : wb.bytes ≤ B.objSize.toNat) (m : Bytes) {n : ℕ}
    (hn : n ≤ B.objCount.toNat) :
    Chain (linkIn (slabLinks B.base B.objSize m n).2) 0 (slabLinks B.base B.objSize m n).1
      ((List.range n).map B.slot).reverse := by
  induction n with
  | zero => rfl
  | succ n ih =>
    have hlt : n < B.objCount.toNat := hn
    rw [slabLinks, List.range_succ, List.map_append, List.map_singleton, List.reverse_concat]
    refine ⟨rfl, B.slot_ne_zero hlt, ?_⟩
    rw [Backing.slot, linkIn_storeWord_self]
    refine (ih hlt.le).congr fun q hq => ?_
    obtain ⟨i, hi, rfl⟩ := List.mem_map.mp (List.mem_reverse.mp hq)
    have hi' : i < n := List.mem_range.mp hi
    have hapart := B.slot_apart hlt (hi'.trans hlt) hi'.ne'
    exact loadWord_storeWord_of_disjoint _ (by rw [Backing.slot] at hapart; omega)

theorem SlabRun.inv_init {B : Backing wb} {s0 slab : RivSlab wb} {m m' : Bytes}
    (hinit : rivSlabInit s0 m B.base B.objSize B.objCount = (0, slab, m')) :
    SlabRun.Inv B ⟨slab, m', []⟩ B.slots.reverse := by
  rw [rivSlabInit] at hinit
  split at hinit
  · cases hinit
  next hsize =>
  have hlarge : wb.bytes ≤ B.objSize.toNat := by
    rw [BitVec.not_lt, BitVec.le_def, BitVec.toNat_ofNat] at hsize
    refine le_trans (Nat.le_of_eq (Nat.mod_eq_of_lt ?_).symm) hsize
    cases wb with
    | bits32 => decide
    | bits64 => decide
  cases hinit
  refine ⟨rfl, hlarge, slabLinks_chain B hlarge m le_rfl, List.reverse_perm _, ?_⟩
  simp [Backing.slots]

/-- In every run the live objects and the free ones partition the slab. -/
theorem slab_partition {B : Backing wb} {s₀ slab : RivSlab wb} {m m' : Bytes}
    (hinit : rivSlabInit s₀ m B.base B.objSize B.objCount = (0, slab, m'))
    {as : List (SlabAction wb)} {s : SlabRun wb}
    (h : exec SlabRun.step ⟨slab, m', []⟩ as = some s) : s.Partition B := by
  have hstep : ∀ (s : SlabRun wb) (a : SlabAction wb) (s' : SlabRun wb),
      (∃ frees, s.Inv B frees) → s.step a = some s' → ∃ frees, s'.Inv B frees := by
    rintro s a s' ⟨frees, hs⟩ h
    exact hs.step h
  obtain ⟨frees, hs⟩ := inv_of_exec hstep ⟨_, SlabRun.inv_init hinit⟩ h
  exact hs.partition

def threeObjects : Backing .bits64 where
  base := 0x1000
  objSize := 16
  objCount := 3
  base_ne_zero := by decide
  fits := by decide +kernel

/-- What `riv_slab_init` makes of them. -/
def threeSlab : RivI32 × RivSlab .bits64 × Bytes :=
  rivSlabInit ⟨0, 0, 0, 0, 0⟩ (fun _ => 0) threeObjects.base threeObjects.objSize
    threeObjects.objCount

theorem slab_partition_threeObjects :
    ∃ s, exec SlabRun.step ⟨threeSlab.2.1, threeSlab.2.2, []⟩ [.alloc] = some s ∧
      s.live = [0x1020] ∧ s.Partition threeObjects := by
  have hrc : threeSlab.1 = 0 := by decide +kernel
  have hinit : rivSlabInit ⟨0, 0, 0, 0, 0⟩ (fun _ => 0) threeObjects.base threeObjects.objSize
      threeObjects.objCount = (0, threeSlab.2.1, threeSlab.2.2) := Prod.ext hrc rfl
  have hrun : (exec SlabRun.step ⟨threeSlab.2.1, threeSlab.2.2, []⟩ [.alloc]).map SlabRun.live =
      some [0x1020] := by decide +kernel
  obtain ⟨s, hs, hlive⟩ := Option.map_eq_some_iff.mp hrun
  exact ⟨s, hs, hlive, slab_partition hinit hs⟩

end Rivet.Alloc
