import Rivet.Alloc.Bump
import Rivet.Alloc.Heap

/-!
# Runs of the first-fit heap

A program allocates, frees what it has and writes into it.  The blocks tile the arena all
the time, and each call acts on the list of blocks as `Reshape` says.  From this follow
that what is handed out does not overlap, for which requests it is aligned and large
enough, and in which runs all memory is recovered.
-/

namespace Rivet.Alloc

open ByteMem Runs Tiling Function

variable {wb : WordBits}

/-! ## Runs -/

/-- The memory of a heap has room for one header.  A pointer that is aligned for a header
and is not null is not below the size of a word. -/
structure HeapArena (wb : WordBits) extends Arena wb.width where
  room : rivHeapHdr wb ≤ size.toNat
  above : wb.bytes ≤ base.toNat

theorem HeapArena.base_pos (A : HeapArena wb) : 0 < A.base.toNat := by
  grind [A.above, four_le_bytes]

/-- The heap and the memory, with the requests that are served and not freed. -/
structure HeapRun (wb : WordBits) where
  heap : RivHeap wb
  mem : Bytes
  live : List (Piece wb.width)

/-- The calls, and the writes of clients. -/
inductive HeapAction (wb : WordBits) where
  | alloc (sz : BitVec wb.width)
  | free (p : BitVec wb.width)
  | write (a : ℕ) (v : BitVec 8)

namespace HeapRun

def payload (s : HeapRun wb) (p : BitVec wb.width) : ℕ :=
  (blkSz s.mem (p - BitVec.ofNat _ (rivHeapHdr wb))).toNat

def Owned (s : HeapRun wb) (a : ℕ) : Prop :=
  ∃ q ∈ s.live, q.addr.toNat ≤ a ∧ a < q.addr.toNat + s.payload q.addr

instance (s : HeapRun wb) (a : ℕ) : Decidable (s.Owned a) :=
  inferInstanceAs (Decidable (∃ q ∈ s.live, _))

instance (s : HeapRun wb) (p : BitVec wb.width) : Decidable (p ∈ s.live.map Piece.addr) :=
  decidable_of_iff (∃ q ∈ s.live, q.addr = p) List.mem_map.symm

def step (s : HeapRun wb) : HeapAction wb → Option (HeapRun wb)
  | .alloc sz =>
    (rivHeapAlloc s.heap s.mem sz).map fun (p, mem) =>
      ⟨s.heap, mem, if p = 0 then s.live else ⟨p, sz⟩ :: s.live⟩
  | .free p =>
    if p ∈ s.live.map Piece.addr then
      (rivHeapFree s.heap s.mem p).map fun mem =>
        ⟨s.heap, mem, s.live.eraseP fun q => q.addr = p⟩
    else none
  | .write a v => if s.Owned a then some { s with mem := update s.mem a v } else none

def start (A : HeapArena wb) (m : Bytes) : HeapRun wb :=
  let (heap, mem) := rivHeapInit m A.base A.size
  ⟨heap, mem, []⟩

/-- The blocks that are reachable from `head`. -/
def blocks (s : HeapRun wb) : Option (List (ℕ × Block)) :=
  heapBlocks s.mem (2 ^ wb.width) s.heap.head

/-! ## The invariant -/

/-- The blocks `bs` tile the arena, and the live pointers are those of the used ones.  A
request that does not wrap is served in full. -/
structure Inv (A : HeapArena wb) (s : HeapRun wb) (bs : List Block) : Prop where
  heap : s.heap = ⟨A.base⟩
  linked : Linked s.mem 0 A.base A.base.toNat bs
  span : span (rivHeapHdr wb) bs = A.size.toNat
  live : (s.live.map fun q => q.addr.toNat).Perm
    ((used (rivHeapHdr wb) A.base.toNat bs).map fun e => e.1 + rivHeapHdr wb)
  large : ∀ q ∈ s.live, ∀ e ∈ used (rivHeapHdr wb) A.base.toNat bs,
    q.addr.toNat = e.1 + rivHeapHdr wb → q.size.toNat + rivHeapAlign ≤ 2 ^ wb.width →
      q.size.toNat ≤ e.2.size
  aligned : rivHeapAlign ∣ A.base.toNat → rivHeapAlign ∣ rivHeapHdr wb →
    ∀ e ∈ layout (rivHeapHdr wb) A.base.toNat bs, rivHeapAlign ∣ e.1

def Reshape (A : HeapArena wb) : HeapAction wb → List Block → List Block → Prop
  | .alloc sz, bs, bs' =>
    ((∀ x ∈ bs, ¬Fits (heapRound sz).toNat x) ∧ bs' = bs) ∨
      ∃ l x r, bs = l ++ x :: r ∧ (∀ y ∈ l, ¬Fits (heapRound sz).toNat y) ∧
        Fits (heapRound sz).toNat x ∧
        bs' = l ++ carve (rivHeapHdr wb) rivHeapAlign (heapRound sz).toNat x ++ r
  | .free p, bs, bs' =>
    ∃ l x r, bs = l ++ x :: r ∧ x.free = false ∧
      p.toNat = A.base.toNat + Tiling.span (rivHeapHdr wb) l + rivHeapHdr wb ∧
      bs' = sweep (rivHeapHdr wb) (l ++ x.release :: r)
  | .write _ _, bs, bs' => bs' = bs

variable {A : HeapArena wb} {s s' : HeapRun wb} {bs : List Block} {a : HeapAction wb}

theorem inv_start (A : HeapArena wb) (m : Bytes) :
    (start A m).Inv A [⟨A.size.toNat - rivHeapHdr wb, true⟩] where
  heap := rfl
  linked := linked_init m A.base A.room
  span := by
    have hroom := A.room
    simp only [Tiling.span]
    omega
  live := List.Perm.nil
  large q hq := absurd hq List.not_mem_nil
  aligned hbase _ e he := by
    rw [List.mem_singleton.mp he]
    exact hbase

namespace Inv

variable (hs : s.Inv A bs)
include hs

theorem fit : A.base.toNat + Tiling.span (rivHeapHdr wb) bs < 2 ^ wb.width := by
  rw [hs.span]
  exact A.fits

theorem blocks : s.blocks = some (layout (rivHeapHdr wb) A.base.toNat bs) := by
  rw [HeapRun.blocks, hs.heap]
  exact hs.linked.blocks A.base_pos (length_lt_of_fit hs.fit)

variable {q : Piece wb.width} {p : BitVec wb.width} {e : ℕ × Block}

theorem exists_used (hq : q ∈ s.live) :
    ∃ e ∈ used (rivHeapHdr wb) A.base.toNat bs, q.addr.toNat = e.1 + rivHeapHdr wb := by
  have hmem := hs.live.mem_iff.mp (List.mem_map_of_mem hq)
  grind

theorem payload_eq (he : e ∈ used (rivHeapHdr wb) A.base.toNat bs)
    (hp : p.toNat = e.1 + rivHeapHdr wb) : s.payload p = e.2.size := by
  refine (hs.linked.shows (mem_used.mp he).1 ?_).1
  rw [BitVec.toNat_sub_of_le, toNat_hdr, hp, Nat.add_sub_cancel]
  rw [BitVec.le_def, toNat_hdr, hp]
  exact Nat.le_add_left _ _

theorem payload_apart_hdr (hq : q ∈ s.live) (he : e ∈ layout (rivHeapHdr wb) A.base.toNat bs) :
    q.addr.toNat + s.payload q.addr ≤ e.1 ∨ e.1 + rivHeapHdr wb ≤ q.addr.toNat := by
  obtain ⟨e', he', haddr⟩ := hs.exists_used hq
  rw [hs.payload_eq he' haddr, haddr]
  by_cases heq : e = e'
  · subst heq
    exact .inr le_rfl
  · rcases layout_apart he (mem_used.mp he').1 heq with hle | hle
    · exact .inr (by omega)
    · exact .inl hle

theorem offHdr_of_owned {x : ℕ} (hx : s.Owned x) (he : e ∈ layout (rivHeapHdr wb) A.base.toNat bs) :
    OffHdr wb e.1 x := by
  obtain ⟨q, hq, hlow, hhigh⟩ := hx
  rcases hs.payload_apart_hdr hq he with hle | hle
  · exact .inl (hhigh.trans_le hle)
  · exact .inr (hle.trans hlow)

theorem write {x : ℕ} (hx : s.Owned x) (v : BitVec 8) :
    Inv A { s with mem := update s.mem x v } bs := by
  refine ⟨hs.heap, hs.linked.congr fun e he y hlow hhigh => ?_, hs.span, hs.live, hs.large,
    hs.aligned⟩
  have hoff := hs.offHdr_of_owned hx he
  grind [OffHdr, update_of_ne]

theorem alloc (sz : BitVec wb.width) :
    (rivHeapAlloc s.heap s.mem sz = some (0, s.mem) ∧ ∀ x ∈ bs, ¬Fits (heapRound sz).toNat x) ∨
      ∃ l x r c m', bs = l ++ x :: r ∧ (∀ y ∈ l, ¬Fits (heapRound sz).toNat y) ∧
        Fits (heapRound sz).toNat x ∧ rivHeapAlloc s.heap s.mem sz = some (c, m') ∧
        c.toNat = A.base.toNat + Tiling.span (rivHeapHdr wb) l + rivHeapHdr wb ∧
        (∀ a, s.Owned a → m' a = s.mem a) ∧ Inv A ⟨s.heap, m', ⟨c, sz⟩ :: s.live⟩
          (l ++ carve (rivHeapHdr wb) rivHeapAlign (heapRound sz).toNat x ++ r) := by
  rw [hs.heap]
  rcases hs.linked.alloc A.above hs.fit sz with
    hnone | ⟨l, x, r, c, m', rfl, hpassed, hx, hsome, hc, hlinked, hkept⟩
  · exact .inl hnone
  right
  have hmem : (A.base.toNat + Tiling.span (rivHeapHdr wb) l, x) ∈
      layout (rivHeapHdr wb) A.base.toNat (l ++ x :: r) := mem_layout.mpr ⟨l, r, rfl, rfl⟩
  -- the block was free, so it is none of the used ones
  have hnew : ∀ e ∈ used (rivHeapHdr wb) A.base.toNat (l ++ x :: r),
      e ≠ (A.base.toNat + Tiling.span (rivHeapHdr wb) l, x) := by
    rintro e he rfl
    exact Bool.false_ne_true ((mem_used.mp he).2.symm.trans hx.1)
  have haddr : ∀ e ∈ used (rivHeapHdr wb) A.base.toNat (l ++ x :: r),
      e.1 ≠ A.base.toNat + Tiling.span (rivHeapHdr wb) l := by
    intro e he heq
    exact hnew e he (layout_unique (hdr_pos wb) (mem_used.mp he).1 hmem heq)
  have hperm := used_carve_perm hx.1 (rivHeapHdr wb) rivHeapAlign (heapRound sz).toNat
    A.base.toNat l r
  refine ⟨l, x, r, c, m', rfl, hpassed, hx, hsome, hc, ?_, rfl, hlinked, ?_, ?_, ?_, ?_⟩
  · rintro a ⟨q, hq, hlow, hhigh⟩
    obtain ⟨e, he, heq⟩ := hs.exists_used hq
    have hapart := layout_apart (mem_used.mp he).1 hmem (hnew e he)
    rw [hs.payload_eq he heq] at hhigh
    simp only [Apart] at hapart
    exact hkept a (by omega)
  · rw [span_replace (span_carve _ _ _ x)]
    exact hs.span
  · have hcons := hs.live.cons c.toNat
    rw [hc] at hcons
    refine List.Perm.trans ?_ (hperm.map _).symm
    simpa only [List.map_cons, hc] using hcons
  · intro q hq e he heq hsz
    rcases List.mem_cons.mp hq with rfl | hq
    · rcases List.mem_cons.mp (hperm.mem_iff.mp he) with rfl | he
      · exact (le_heapRound hsz).trans (le_carved hx.2 _ _)
      simp_all
    · rcases List.mem_cons.mp (hperm.mem_iff.mp he) with rfl | he
      · obtain ⟨e', he', heq'⟩ := hs.exists_used hq
        exact absurd (Nat.add_right_cancel (heq'.symm.trans heq)) (haddr e' he')
      · exact hs.large q hq e he heq hsz
  · intro hbase hhdr e he
    rcases mem_layout_carve he with heq | ⟨e', he', heq⟩
    · rw [heq]
      exact dvd_add (hs.aligned hbase hhdr _ hmem) (dvd_add hhdr (align_dvd_heapRound sz))
    · exact heq ▸ hs.aligned hbase hhdr e' he'

theorem free (hp : p ∈ s.live.map Piece.addr) : ∃ l x r m', bs = l ++ x :: r ∧ x.free = false ∧
      p.toNat = A.base.toNat + Tiling.span (rivHeapHdr wb) l + rivHeapHdr wb ∧
      rivHeapFree s.heap s.mem p = some m' ∧ (∀ a, s.Owned a → m' a = s.mem a) ∧
      Inv A ⟨s.heap, m', s.live.eraseP fun q => q.addr = p⟩
        (sweep (rivHeapHdr wb) (l ++ x.release :: r)) := by
  obtain ⟨q, hq, rfl⟩ := List.mem_map.mp hp
  obtain ⟨e, he, haddr⟩ := hs.exists_used hq
  obtain ⟨hmem, hused⟩ := mem_used.mp he
  obtain ⟨l, r, rfl, hpos⟩ := mem_layout.mp hmem
  rw [hpos] at haddr
  obtain ⟨m', hsome, hlinked, hkept⟩ := hs.linked.free A.base_pos hs.fit haddr
  have hperm := used_release_perm hused (rivHeapHdr wb) A.base.toNat l r
  refine ⟨l, e.2, r, m', rfl, hused, haddr, ?_, ?_, hs.heap, hlinked, ?_, ?_, ?_, ?_⟩
  · rw [hs.heap]
    exact hsome
  · intro a ha
    exact hkept a fun e' he' => hs.offHdr_of_owned ha he'
  · rw [span_sweep, span_release]
    exact hs.span
  · rw [used_sweep]
    obtain ⟨q', l1, l2, -, hq', hlive, herase⟩ :=
      List.exists_of_eraseP (p := fun q' => decide (q'.addr = q.addr)) hq (decide_eq_true rfl)
    have haddr' : q'.addr = q.addr := of_decide_eq_true hq'
    have hback := hs.live.trans (hperm.map _)
    rw [hlive, List.map_append, List.map_cons, List.map_cons, haddr', haddr] at hback
    rw [herase, List.map_append]
    exact (List.perm_middle.symm.trans hback).cons_inv
  · intro q' hq' e' he'
    rw [used_sweep] at he'
    exact hs.large q' (List.mem_of_mem_eraseP hq') e'
      (hperm.mem_iff.mpr (List.mem_cons_of_mem _ he'))
  · intro hbase hhdr e' he'
    obtain ⟨e1, he1, heq1⟩ := mem_layout_sweep he'
    obtain ⟨e2, he2, heq2⟩ := mem_layout_release he1
    rw [← heq1, ← heq2]
    exact hs.aligned hbase hhdr e2 he2

theorem step (h : s.step a = some s') : ∃ bs', s'.Inv A bs' ∧ Reshape A a bs bs' := by
  cases a with
  | alloc sz =>
    rw [HeapRun.step] at h
    rcases hs.alloc sz with
      ⟨hnone, hall⟩ | ⟨l, x, r, c, m', hbs, hpassed, hx, hsome, hc, -, hs'⟩
    · rw [hnone] at h
      cases h
      exact ⟨bs, hs, .inl ⟨hall, rfl⟩⟩
    · have hne : c ≠ 0 := ptr_ne_zero hc
      rw [hsome] at h
      simp only [Option.map_some, if_neg hne] at h
      cases h
      exact ⟨_, hs', .inr ⟨l, x, r, hbs, hpassed, hx, rfl⟩⟩
  | free p =>
    rw [HeapRun.step] at h
    split at h
    · next hp =>
      obtain ⟨l, x, r, m', hbs, hused, hpos, hsome, -, hs'⟩ := hs.free hp
      rw [hsome] at h
      cases h
      exact ⟨_, hs', l, x, r, hbs, hused, hpos, rfl⟩
    · cases h
  | write y v =>
    rw [HeapRun.step] at h
    split at h
    · next hy =>
      cases h
      exact ⟨bs, hs.write hy v, rfl⟩
    · cases h

end Inv

variable {as : List (HeapAction wb)} {q : Piece wb.width}

theorem exists_inv (A : HeapArena wb) (m : Bytes) (h : exec step (start A m) as = some s) :
    ∃ bs, s.Inv A bs := by
  have hstep : ∀ (s : HeapRun wb) a s', (∃ bs, s.Inv A bs) → s.step a = some s' →
      ∃ bs, s'.Inv A bs := by
    rintro s a s' ⟨bs, hs⟩ h
    obtain ⟨bs', hs', -⟩ := hs.step h
    exact ⟨bs', hs'⟩
  have hinv := inv_of_exec hstep ⟨_, inv_start A m⟩ h
  exact hinv

/-! ## What is handed out -/

/-- The blocks reachable from `head` lie one behind the other from the start of the arena to
its end.  The live payloads are inside the arena, as large as requested, and apart from each
other and from the headers; the calls return and write into none of them. -/
structure Sound (A : HeapArena wb) (s : HeapRun wb) : Prop where
  tiles : ∃ bs, s.blocks = some (layout (rivHeapHdr wb) A.base.toNat bs) ∧
    Tiling.span (rivHeapHdr wb) bs = A.size.toNat
  inside : ∀ q ∈ s.live,
    A.base.toNat ≤ q.addr.toNat ∧ q.addr.toNat + s.payload q.addr ≤ A.stop
  large : ∀ q ∈ s.live, q.size.toNat ≤ s.payload q.addr
  apart : s.live.Pairwise fun q q' =>
    q.addr.toNat + s.payload q.addr ≤ q'.addr.toNat ∨
      q'.addr.toNat + s.payload q'.addr ≤ q.addr.toNat
  headers : ∀ q ∈ s.live, ∀ bs ∈ s.blocks, ∀ e ∈ bs,
    q.addr.toNat + s.payload q.addr ≤ e.1 ∨ e.1 + rivHeapHdr wb ≤ q.addr.toNat
  alloc : ∀ sz, ∃ p m, rivHeapAlloc s.heap s.mem sz = some (p, m) ∧
    ∀ x, s.Owned x → m x = s.mem x
  free : ∀ q ∈ s.live, ∃ m, rivHeapFree s.heap s.mem q.addr = some m ∧
    ∀ x, s.Owned x → m x = s.mem x

theorem step_live (h : s.step a = some s') (hq : q ∈ s'.live) : q ∈ s.live ∨ a = .alloc q.size := by
  cases a with
  | alloc sz =>
    rw [step, Option.map_eq_some_iff] at h
    obtain ⟨⟨p, m⟩, -, rfl⟩ := h
    simp only at hq
    split at hq
    · exact .inl hq
    · rcases List.mem_cons.mp hq with rfl | hq
      · exact .inr rfl
      · exact .inl hq
  | free p =>
    rw [step] at h
    split at h
    · rw [Option.map_eq_some_iff] at h
      obtain ⟨m, -, rfl⟩ := h
      exact .inl (List.mem_of_mem_eraseP hq)
    · cases h
  | write x v => grind [step]

theorem exec_live (h : exec step s as = some s') (hq : q ∈ s'.live) :
    q ∈ s.live ∨ .alloc q.size ∈ as := by
  induction as generalizing s with
  | nil =>
    cases h
    exact .inl hq
  | cons a as ih =>
    rw [exec_cons, Option.bind_eq_some_iff] at h
    obtain ⟨s1, hs1, h⟩ := h
    rcases ih h with hq1 | hmem
    · rcases step_live hs1 hq1 with hq0 | rfl
      all_goals grind
    · exact .inr (List.mem_cons_of_mem a hmem)

namespace Inv

variable (hs : s.Inv A bs)
include hs

theorem nodup_live : (s.live.map fun q => q.addr.toNat).Nodup := by
  refine hs.live.nodup_iff.mpr ?_
  have hnodup : ((used (rivHeapHdr wb) A.base.toNat bs).map Prod.fst).Nodup :=
    nodup_used (hdr_pos wb)
  grind

theorem sound (hsz : ∀ q ∈ s.live, q.size.toNat + rivHeapAlign ≤ 2 ^ wb.width) :
    s.Sound A where
  tiles := ⟨bs, hs.blocks, hs.span⟩
  inside q hq := by
    obtain ⟨e, he, haddr⟩ := hs.exists_used hq
    have hbounds := layout_bounds (mem_used.mp he).1
    have hspan := hs.span
    rw [hs.payload_eq he haddr, haddr, Arena.stop]
    omega
  large q hq := by
    obtain ⟨e, he, haddr⟩ := hs.exists_used hq
    rw [hs.payload_eq he haddr]
    exact hs.large q hq e he haddr (hsz q hq)
  apart := by
    refine (List.pairwise_map.mp hs.nodup_live).imp_of_mem fun {q q'} hq hq' hne => ?_
    obtain ⟨e, he, haddr⟩ := hs.exists_used hq
    obtain ⟨e', he', haddr'⟩ := hs.exists_used hq'
    have hne' : e ≠ e' := by
      rintro rfl
      exact hne (haddr.trans haddr'.symm)
    have hapart := layout_apart (mem_used.mp he).1 (mem_used.mp he').1 hne'
    rw [Apart] at hapart
    rw [hs.payload_eq he haddr, hs.payload_eq he' haddr']
    omega
  headers q hq bs' hbs' e he := by
    rw [hs.blocks] at hbs'
    cases hbs'
    exact hs.payload_apart_hdr hq he
  alloc sz := by
    rcases hs.alloc sz with ⟨hnone, -⟩ | ⟨_, _, _, c, m', -, -, -, hsome, -, hkept, -⟩
    · exact ⟨0, s.mem, hnone, fun _ _ => rfl⟩
    · exact ⟨c, m', hsome, hkept⟩
  free q hq := by
    obtain ⟨_, _, _, m', -, -, -, hsome, hkept, -⟩ := hs.free (List.mem_map_of_mem hq)
    exact ⟨m', hsome, hkept⟩

end Inv

/-- No memory is handed out twice, in every run whose requests can be rounded up. -/
theorem heap_sound (A : HeapArena wb) (m : Bytes) {as : List (HeapAction wb)}
    (hsz : ∀ sz, HeapAction.alloc sz ∈ as → sz.toNat ≤ 2 ^ wb.width - 1 - 7)
    (h : exec step (start A m) as = some s) : s.Sound A := by
  obtain ⟨bs, hs⟩ := exists_inv A m h
  refine hs.sound fun q hq => ?_
  rcases exec_live h hq with hnil | hmem
  · exact absurd hnil List.not_mem_nil
  have hle := hsz q.size hmem
  have hpow : 8 ≤ 2 ^ wb.width := Nat.le_of_dvd (Nat.two_pow_pos _) (align_dvd_pow wb)
  rw [rivHeapAlign]
  omega

def arena64 : HeapArena .bits64 where
  base := 16
  size := 200
  fits := by decide +kernel
  room := by decide
  above := by decide

def arena32 : HeapArena .bits32 where
  base := 16
  size := 200
  fits := by decide +kernel
  room := by decide
  above := by decide

/-- Two requests of 8 bytes, and the first pointer is freed. -/
theorem heap_sound_twoRequests :
    ∃ s, exec step (start arena64 fun _ => 0) [.alloc 8, .alloc 8, .free 40] = some s ∧
      s.Sound arena64 := by
  have hsome : (exec step (start arena64 fun _ => 0) [.alloc 8, .alloc 8, .free 40]).isSome := by
    decide +kernel
  obtain ⟨s, h⟩ := Option.isSome_iff_exists.mp hsome
  refine ⟨s, h, heap_sound arena64 _ ?_ h⟩
  intro sz hsz
  simp only [List.mem_cons, HeapAction.alloc.injEq, reduceCtorEq, List.not_mem_nil, or_false,
    or_self] at hsz
  subst hsz
  decide +kernel

/-! ## Alignment and size of the results -/

/-- `riv_heap_alloc` returns null, or an aligned pointer with at least `sz` bytes behind it. -/
def ResultOk (s : HeapRun wb) (sz : BitVec wb.width) : Prop :=
  ∃ r ∈ rivHeapAlloc s.heap s.mem sz,
    r.1 = 0 ∨ rivHeapAlign ∣ r.1.toNat ∧
      sz.toNat ≤ (blkSz r.2 (r.1 - BitVec.ofNat _ (rivHeapHdr wb))).toNat

instance (s : HeapRun wb) (sz : BitVec wb.width) : Decidable (s.ResultOk sz) :=
  inferInstanceAs (Decidable (∃ r ∈ rivHeapAlloc s.heap s.mem sz, _))

/-- If a free block is large enough for the rounded request, the request is not above the
last multiple of `RIV_HEAP_ALIGN`; and where the header is 12 bytes long, the first such
block is 4 bytes off a multiple of 8. -/
def ServesWell (s : HeapRun wb) (sz : BitVec wb.width) : Prop :=
  ∀ bs ∈ s.blocks, ∀ e ∈ bs.find? fun e => decide (Fits (heapRound sz).toNat e.2),
    sz.toNat ≤ 2 ^ wb.width - 1 - 7 ∧ (wb = .bits64 ∨ e.1 % 8 = 4)

instance (s : HeapRun wb) (sz : BitVec wb.width) : Decidable (s.ServesWell sz) :=
  inferInstanceAs (Decidable (∀ bs ∈ s.blocks, ∀ e ∈ bs.find? _, _))

theorem Inv.le_carved_iff {l r : List Block} {x : Block} (hs : s.Inv A (l ++ x :: r))
    {sz : BitVec wb.width} (hx : Fits (heapRound sz).toNat x) :
    sz.toNat ≤ (carved (rivHeapHdr wb) rivHeapAlign (heapRound sz).toNat x).size ↔
      sz.toNat ≤ 2 ^ wb.width - 1 - 7 := by
  have hpow : 8 ≤ 2 ^ wb.width := Nat.le_of_dvd (Nat.two_pow_pos _) (align_dvd_pow wb)
  constructor
  · intro hle
    have hcarved := carved_le hx.2 (rivHeapHdr wb) rivHeapAlign
    have hfit := hs.fit
    grind [span_append, Tiling.span, rivHeapHdr, four_le_bytes]
  · intro hle
    have hround : sz.toNat ≤ (heapRound sz).toNat := by
      apply le_heapRound
      rw [rivHeapAlign]
      omega
    exact hround.trans (le_carved hx.2 _ _)

theorem Inv.aligned_iff {l r : List Block} {x : Block} (hs : s.Inv A (l ++ x :: r))
    (hbase : rivHeapAlign ∣ A.base.toNat) :
    rivHeapAlign ∣ A.base.toNat + Tiling.span (rivHeapHdr wb) l + rivHeapHdr wb ↔
      wb = .bits64 ∨ (A.base.toNat + Tiling.span (rivHeapHdr wb) l) % 8 = 4 := by
  cases wb with
  | bits32 =>
    rw [or_iff_right WordBits.noConfusion]
    show 8 ∣ _ + 12 ↔ _
    omega
  | bits64 =>
    have hhdr : rivHeapAlign ∣ rivHeapHdr .bits64 := by decide
    refine iff_of_true (dvd_add ?_ hhdr) (.inl rfl)
    exact hs.aligned hbase hhdr (_, x) (mem_layout.mpr ⟨l, r, rfl, rfl⟩)

theorem Inv.resultOk_iff (hs : s.Inv A bs) (hbase : rivHeapAlign ∣ A.base.toNat)
    (sz : BitVec wb.width) : s.ResultOk sz ↔ s.ServesWell sz := by
  rw [ResultOk, ServesWell, hs.blocks]
  rcases hs.alloc sz with ⟨hnone, hall⟩ | ⟨l, x, r, c, m', rfl, hpassed, hx, hsome, hc, -, hs'⟩
  · refine iff_of_true ⟨_, hnone, .inl rfl⟩ ?_
    simp [find_layout_eq_none hall]
  have hfind := find_layout_eq_some hpassed hx (rivHeapHdr wb) A.base.toNat r
  have hne : c ≠ 0 := ptr_ne_zero hc
  have hmem : (A.base.toNat + Tiling.span (rivHeapHdr wb) l,
      carved (rivHeapHdr wb) rivHeapAlign (heapRound sz).toNat x) ∈
      used (rivHeapHdr wb) A.base.toNat
        (l ++ carve (rivHeapHdr wb) rivHeapAlign (heapRound sz).toNat x ++ r) :=
    (used_carve_perm hx.1 _ _ _ _ l r).mem_iff.mpr List.mem_cons_self
  have hpayload : (blkSz m' (c - BitVec.ofNat _ (rivHeapHdr wb))).toNat =
      (carved (rivHeapHdr wb) rivHeapAlign (heapRound sz).toNat x).size :=
    hs'.payload_eq hmem hc
  constructor
  · rintro ⟨_, hresult, hok⟩
    cases hsome.symm.trans hresult
    intro bs' hbs' e he
    cases hbs'
    cases hfind.symm.trans he
    obtain ⟨hdvd, hle⟩ := hok.resolve_left hne
    rw [hpayload] at hle
    rw [hc] at hdvd
    exact ⟨(hs.le_carved_iff hx).mp hle, (hs.aligned_iff hbase).mp hdvd⟩
  · intro hserves
    obtain ⟨hle, halign⟩ := hserves _ rfl _ hfind
    refine ⟨_, hsome, .inr ⟨?_, ?_⟩⟩
    · rw [hc]
      exact (hs.aligned_iff hbase).mpr halign
    · rw [hpayload]
      exact (hs.le_carved_iff hx).mpr hle

theorem heap_result_ok_iff (A : HeapArena wb) (hbase : rivHeapAlign ∣ A.base.toNat) (m : Bytes)
    {as : List (HeapAction wb)} (h : exec step (start A m) as = some s) (sz : BitVec wb.width) :
    s.ResultOk sz ↔ s.ServesWell sz := by
  obtain ⟨bs, hs⟩ := exists_inv A m h
  exact hs.resultOk_iff hbase sz

/-- A request of 16 bytes after one of 8 bytes. -/
theorem heap_result_ok_second :
    ∃ s ∈ exec step (start arena64 fun _ => 0) [.alloc 8], s.ResultOk 16 := by
  have hrun : ∃ s ∈ exec step (start arena64 fun _ => 0) [.alloc 8], s.ServesWell 16 := by
    decide +kernel
  obtain ⟨s, h, hserves⟩ := hrun
  exact ⟨s, h, (heap_result_ok_iff arena64 (by decide) _ h 16).mpr hserves⟩

/-- With words of 64 bits the largest request is rounded to 0 and served by a block without
payload.  With words of 32 bits the first pointer is 4 bytes off. -/
theorem heap_result_wrong :
    ¬(start arena64 fun _ => 0).ResultOk (-1) ∧ ¬(start arena32 fun _ => 0).ResultOk 8 := by
  decide +kernel

/-! ## Recovering all memory -/

/-- No two neighbours are free, and if nothing is live the heap is the block it started
with. -/
def Recovered (A : HeapArena wb) (s : HeapRun wb) : Prop :=
  ∃ bs ∈ s.blocks, NoFreePair (bs.map Prod.snd) ∧
    (s.live = [] → bs = [(A.base.toNat, ⟨A.size.toNat - rivHeapHdr wb, true⟩)])

def FreeOk (s : HeapRun wb) : HeapAction wb → Prop
  | .free p => ∀ bs ∈ s.blocks, ¬∃ x e y, [x, e, y] <:+: bs ∧ e.1 + rivHeapHdr wb = p.toNat ∧
      x.2.free = true ∧ y.2.free = true
  | _ => True

theorem Inv.recovered_iff (hs : s.Inv A bs) : s.Recovered A ↔ NoFreePair bs := by
  rw [Recovered, hs.blocks]
  constructor
  · grind [map_snd_layout]
  intro hpair
  refine ⟨_, rfl, by rwa [map_snd_layout], fun hlive => ?_⟩
  have hused : used (rivHeapHdr wb) A.base.toNat bs = [] := by
    have hperm := hs.live
    simp_all
  have hne : bs ≠ [] := by
    rintro rfl
    have hspan := hs.span
    grind [Tiling.span, A.room, hdr_pos]
  rw [eq_singleton_of_used_eq_nil hpair hne hused, hs.span]
  rfl

theorem Inv.noFreePair_iff {bs' : List Block} (hs : s.Inv A bs) (hbs : NoFreePair bs)
    (h : Reshape A a bs bs') : NoFreePair bs' ↔ s.FreeOk a := by
  cases a with
  | alloc sz =>
    refine iff_of_true ?_ trivial
    rcases h with ⟨-, rfl⟩ | ⟨l, x, r, rfl, -, hx, rfl⟩
    · exact hbs
    · exact hbs.carve hx.1 _ _ _
  | free p =>
    obtain ⟨l, x, r, rfl, -, hp, rfl⟩ := h
    rw [noFreePair_sweep_release_iff hbs,
      ← between_free_iff (b := x) (p := A.base.toNat) (hdr_pos wb), FreeOk, hs.blocks]
    grind
  | write y v =>
    obtain rfl : bs' = bs := h
    exact iff_of_true hbs trivial

/-- The heap recovers all memory in the runs that give no block back between two free ones,
and in no others. -/
theorem heap_recovers_iff (A : HeapArena wb) (m : Bytes) {as : List (HeapAction wb)}
    (h : exec step (start A m) as = some s) :
    Always step (Recovered A) (start A m) as ↔ Meets step FreeOk (start A m) as := by
  -- as long as the run is allowed, no two neighbours are free
  have hstep : ∀ s a s', (∃ bs, s.Inv A bs ∧ NoFreePair bs) → True → s.FreeOk a →
      step s a = some s' → ∃ bs, s'.Inv A bs ∧ NoFreePair bs := by
    rintro s a s' ⟨bs, hs, hbs⟩ - hok h
    obtain ⟨bs', hs', hshape⟩ := hs.step h
    exact ⟨bs', hs', (hs.noFreePair_iff hbs hshape).mpr hok⟩
  have hrecovered : ∀ s : HeapRun wb, (∃ bs, s.Inv A bs ∧ NoFreePair bs) → s.Recovered A := by
    rintro s ⟨bs, hs, hbs⟩
    exact hs.recovered_iff.mpr hbs
  have hbad : ∀ s a s', (∃ bs, s.Inv A bs ∧ NoFreePair bs) → True → ¬s.FreeOk a →
      step s a = some s' → ¬s'.Recovered A := by
    rintro s a s' ⟨bs, hs, hbs⟩ - hno h hrec
    obtain ⟨bs', hs', hshape⟩ := hs.step h
    exact hno ((hs.noFreePair_iff hbs hshape).mp (hs'.recovered_iff.mp hrec))
  exact always_iff_meets_of_exec hstep hrecovered hbad ⟨_, inv_start A m, .singleton _⟩
    (meets_of_forall (fun _ _ => trivial) _ as) h

/-- One request is served and given back. -/
theorem heap_recovers_oneRequest :
    Always step (Recovered arena64) (start arena64 fun _ => 0) [.alloc 8, .free 40] := by
  have hrun : (exec step (start arena64 fun _ => 0) [.alloc 8, .free 40]).isSome := by
    decide +kernel
  obtain ⟨s, h⟩ := Option.isSome_iff_exists.mp hrun
  refine (heap_recovers_iff arena64 _ h).mpr ⟨trivial, fun s₁ h₁ => ⟨?_, fun _ _ => trivial⟩⟩
  have hblocks : ((start arena64 fun _ => 0).step (.alloc 8)).map blocks =
      some (some [(16, ⟨8, false⟩), (48, ⟨144, true⟩)]) := by
    decide +kernel
  rw [h₁, Option.map_some, Option.some_inj] at hblocks
  rintro bs hbs ⟨x, e, y, hin, -⟩
  cases hblocks.symm.trans hbs
  exact absurd hin.length_le (show ¬3 ≤ 2 by decide)

/-- Two blocks are freed in the order in which they lie.  The second one is between two free
blocks and is merged with the one before it only. -/
theorem heap_not_recovered :
    ∃ s, exec step (start arena64 fun _ => 0) [.alloc 8, .alloc 8, .free 40, .free 72] = some s ∧
      s.live = [] ∧ s.blocks = some [(16, ⟨40, true⟩), (80, ⟨112, true⟩)] ∧
      ¬s.Recovered arena64 := by
  have hrun : (exec step (start arena64 fun _ => 0) [.alloc 8, .alloc 8, .free 40, .free 72]).map
      (fun s => (s.live.length, s.blocks)) =
        some (0, some [(16, ⟨40, true⟩), (80, ⟨112, true⟩)]) := by
    decide +kernel
  obtain ⟨s, h, hs⟩ := Option.map_eq_some_iff.mp hrun
  obtain ⟨hlive, hblocks⟩ := Prod.mk.inj hs
  refine ⟨s, h, List.length_eq_zero_iff.mp hlive, hblocks, ?_⟩
  rintro ⟨bs, hbs, hpair, -⟩
  cases hblocks.symm.trans hbs
  exact (List.isChain_cons_cons.mp hpair).1 ⟨rfl, rfl⟩

end HeapRun

end Rivet.Alloc
