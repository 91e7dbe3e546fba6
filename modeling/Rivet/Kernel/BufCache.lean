import Mathlib
import Rivet.Kernel.LockedSections
import Rivet.Support.Exec
import Rivet.Support.Runs

/-!
# The block cache

Runs of the calls of `buf.h` and of clients that write to the blocks they hold,
over any driver.  Locked sections are run as plain blocks: the locks are free
before every call.

A run carries what the statement is about: the references clients hold, each
with the block number it was asked for, the data last written to each block
number by a client, and, in the device, the writes the driver reported as done.
A failed read may leave anything in the block it was made for, but that block is
neither referenced nor dirty.
-/

namespace Rivet.Kernel

open CLib Runs Function List StateT

variable {lba : RivU64} {i : ℕ} {blocks blocks' : ℕ → BufBlock} {r : Option ℕ}

variable {Dev α : Type}

/-! ## Calls and runs -/

/-- `riv_buf_init`. -/
def rivBufInit (w : World Dev) (disk : Option (DiskOps Dev)) : World Dev :=
  { w with
    locks := update w.locks .buf false
    cache :=
      { disk := disk
        clock := 0
        blocks := fun i =>
          if i < bufBlocks then
            { w.cache.blocks i with lba := 0, refs := 0, valid := false, dirty := false }
          else w.cache.blocks i } }

/-- `riv_buf_dirty`. -/
def rivBufDirty (i : ℕ) : KernelM Dev Unit := setBlock i fun b => { b with dirty := true }

def clientWrite (i : ℕ) (data : List RivU8) : KernelM Dev Unit := do
  setBlock i fun b => { b with data := data }
  rivBufDirty i

abbrev DiskLog := List (RivU64 × List RivU8)

def DiskLog.latest (log : DiskLog) (lba : RivU64) : Option (List RivU8) := log.lookup lba

def DiskOps.logged (ops : DiskOps Dev) : DiskOps (Dev × DiskLog) where
  read := ops.read.map fun read dev lba n data =>
    let (rc, data, dev') := read dev.1 lba n data
    (rc, data, (dev', dev.2))
  write := ops.write.map fun write dev lba n data =>
    let (rc, dev') := write dev.1 lba n data
    (rc, (dev', if rc.toInt < 0 then dev.2 else (lba, data) :: dev.2))

def World.unlocked (w : World Dev) : World Dev := { w with locks := fun _ => false }

def plain (m : KernelM Dev α) (w : World Dev) : Option (α × World Dev) :=
  (m.run w.unlocked).toOption

structure CacheRun (Dev : Type) where
  world : World (Dev × DiskLog)
  held : List (ℕ × RivU64)
  latest : RivU64 → Option (List RivU8)

inductive CacheAction where
  | get (lba : RivU64)
  | release (i : ℕ) (lba : RivU64)
  | write (i : ℕ) (lba : RivU64) (data : List RivU8)
  | sync

/-- A reference is released or written through only while it is held. -/
def CacheRun.step (s : CacheRun Dev) : CacheAction → Option (CacheRun Dev)
  | .get lba =>
    (plain (rivBufGet lba) s.world).map fun r =>
      { s with
        world := r.2
        held := (r.1.toList.map fun i => (i, lba)) ++ s.held }
  | .release i lba =>
    if (i, lba) ∈ s.held then
      (plain (rivBufRelease i) s.world).map fun r =>
        { s with world := r.2, held := s.held.erase (i, lba) }
    else none
  | .write i lba data =>
    if (i, lba) ∈ s.held then
      (plain (clientWrite i data) s.world).map fun r =>
        { s with world := r.2, latest := update s.latest lba (some data) }
    else none
  | .sync => (plain rivBufSync s.world).map fun r => { s with world := r.2 }

/-- The cache after `riv_buf_init`. -/
def CacheRun.start (w : World (Dev × DiskLog)) (ops : Option (DiskOps Dev)) : CacheRun Dev where
  world := rivBufInit w (ops.map DiskOps.logged)
  held := []
  latest := fun _ => none

/-- Fewer than `2 ^ 32` references are outstanding after a call. -/
def FewReferences (s : CacheRun Dev) : CacheAction → Prop
  | .get _ => s.held.length + 1 < 2 ^ 32
  | _ => True

instance FewReferences.decidable (s : CacheRun Dev) :
    (a : CacheAction) → Decidable (FewReferences s a)
  | .get _ => inferInstanceAs (Decidable (s.held.length + 1 < 2 ^ 32))
  | .release .. | .write .. | .sync => isTrue trivial

/-! ## Plain blocks -/

/-- The fields that a locked section does not touch by itself. -/
structure SameCache (w w' : World Dev) : Prop where
  cache : w'.cache = w.cache
  dev : w'.dev = w.dev

theorem sameCache_release (w : World Dev) (l : SpinId) (st : Bool) :
    SameCache w (w.release l st) := ⟨rfl, rfl⟩

theorem plain_spinLocked {l : SpinId} {body : KernelM Dev (Flow × α)} {w w1 : World Dev}
    (flow : Flow) {a : α} (h : body.run (w.unlocked.acquire l) = .ok ((flow, a), w1)) :
    ∃ w', plain (spinLocked l body) w = some (a, w') ∧ SameCache w1 w' := by
  cases flow with
  | next =>
    refine ⟨w1.release l w.irqOn, ?_, sameCache_release ..⟩
    rw [plain, run_spinLocked_next rfl h]
    rfl
  | brk =>
    refine ⟨w1, ?_, ⟨rfl, rfl⟩⟩
    rw [plain, run_spinLocked_brk rfl h]
    rfl

/-! ## The data -/

def DirtyHas (blocks : ℕ → BufBlock) (lba : RivU64) (data : List RivU8) : Prop :=
  ∃ i < bufBlocks, (blocks i).valid = true ∧ (blocks i).dirty = true ∧ (blocks i).lba = lba ∧
    (blocks i).data = data

/-- The part of the invariant about what the blocks hold. -/
structure DataOk (blocks : ℕ → BufBlock) (log : DiskLog)
    (latest : RivU64 → Option (List RivU8)) : Prop where
  unique : ∀ i < bufBlocks, ∀ j < bufBlocks, (blocks i).valid = true → (blocks j).valid = true →
    (blocks i).lba = (blocks j).lba → i = j
  dirtyLatest : ∀ i < bufBlocks, (blocks i).valid = true → (blocks i).dirty = true →
    latest (blocks i).lba = some (blocks i).data
  noLoss : ∀ lba data, latest lba = some data →
    DirtyHas blocks lba data ∨ log.latest lba = some data

section Data

variable {blocks blocks' : ℕ → BufBlock} {log : DiskLog}
  {latest : RivU64 → Option (List RivU8)} {i : ℕ}

theorem DirtyHas.of_eq {data : List RivU8} (h : DirtyHas blocks lba data)
    (heq : ∀ j < bufBlocks, (blocks j).dirty = true → blocks' j = blocks j) :
    DirtyHas blocks' lba data := by
  obtain ⟨j, hj, hvalid, hdirty, hlba, hdata⟩ := h
  refine ⟨j, hj, ?_⟩
  simp_all

theorem DataOk.congr (h : DataOk blocks log latest)
    (hsame : ∀ j, (blocks' j).valid = (blocks j).valid ∧ (blocks' j).dirty = (blocks j).dirty ∧
      (blocks' j).lba = (blocks j).lba ∧ (blocks' j).data = (blocks j).data) :
    DataOk blocks' log latest where
  unique := by
    have := h.unique
    grind
  dirtyLatest := by
    have := h.dirtyLatest
    grind
  noLoss := by
    intro lba data hlatest
    rcases h.noLoss lba data hlatest with ⟨j, hj, hdirty⟩ | hdisk
    · obtain ⟨h1, h2, h3, h4⟩ := hsame j
      exact .inl ⟨j, hj, by rw [h1, h2, h3, h4]; exact hdirty⟩
    · exact .inr hdisk

theorem DataOk.replace (h : DataOk blocks log latest) (hclean : (blocks i).dirty = false)
    {b : BufBlock} (hb : b.dirty = false)
    (hnew : b.valid = true → ∀ j < bufBlocks, j ≠ i → (blocks j).valid = true →
      (blocks j).lba ≠ b.lba) :
    DataOk (update blocks i b) log latest where
  unique := by
    have := h.unique
    grind [update_apply]
  dirtyLatest := by
    have := h.dirtyLatest
    grind [update_apply]
  noLoss := by
    intro lba data hlatest
    refine (h.noLoss lba data hlatest).imp_left fun hdirty => hdirty.of_eq ?_
    intro j _ hj
    apply update_of_ne
    rintro rfl
    rw [hclean] at hj
    cases hj

theorem DataOk.write (h : DataOk blocks log latest) (hi : i < bufBlocks)
    (hvalid : (blocks i).valid = true) (data : List RivU8) :
    DataOk (update blocks i { blocks i with data := data, dirty := true }) log
      (update latest (blocks i).lba (some data)) where
  unique := by
    have := h.unique
    grind [update_apply]
  dirtyLatest := by
    intro j hj hvalid' hdirty'
    by_cases heq : j = i
    · subst heq
      simp
    rw [update_of_ne heq] at hvalid' hdirty' ⊢
    have hne : (blocks j).lba ≠ (blocks i).lba := fun hlba =>
      heq (h.unique j hj i hi hvalid' hvalid hlba)
    rw [update_of_ne hne]
    exact h.dirtyLatest j hj hvalid' hdirty'
  noLoss := by
    intro lba data' hlatest
    by_cases hlba : lba = (blocks i).lba
    · subst hlba
      rw [update_self] at hlatest
      exact .inl ⟨i, hi, by simpa using And.intro hvalid (Option.some.inj hlatest)⟩
    · rw [update_of_ne hlba] at hlatest
      rcases h.noLoss lba data' hlatest with ⟨j, hj, hvalid', hdirty', hlba', hdata'⟩ | hdisk
      · have hne : j ≠ i := by
          rintro rfl
          exact hlba hlba'.symm
        exact .inl ⟨j, hj, by rw [update_of_ne hne]; exact ⟨hvalid', hdirty', hlba', hdata'⟩⟩
      · exact .inr hdisk

theorem DiskLog.latest_cons (log : DiskLog) (lba lba' : RivU64) (data : List RivU8) :
    DiskLog.latest ((lba', data) :: log) lba =
      if lba = lba' then some data else log.latest lba := by grind [DiskLog.latest, beq_false_of_ne]

theorem DataOk.clean (h : DataOk blocks log latest) (hi : i < bufBlocks)
    (hvalid : (blocks i).valid = true) (hdirty : (blocks i).dirty = true) :
    DataOk (update blocks i { blocks i with dirty := false })
      (((blocks i).lba, (blocks i).data) :: log) latest where
  unique := by
    have := h.unique
    grind [update_apply]
  dirtyLatest := by
    have := h.dirtyLatest
    grind [update_apply]
  noLoss := by
    intro lba data hlatest
    rw [DiskLog.latest_cons]
    by_cases hlba : lba = (blocks i).lba
    · right
      rw [if_pos hlba, ← h.dirtyLatest i hi hvalid hdirty, ← hlba, hlatest]
    rw [if_neg hlba]
    rcases h.noLoss lba data hlatest with ⟨j, hj, hvalid', hdirty', hlba', hdata'⟩ | hdisk
    · have hne : j ≠ i := by
        rintro rfl
        exact hlba hlba'.symm
      exact .inl ⟨j, hj, by rw [update_of_ne hne]; exact ⟨hvalid', hdirty', hlba', hdata'⟩⟩
    · exact .inr hdisk

end Data

/-! ## The references -/

def heldRefs (held : List (ℕ × RivU64)) (i : ℕ) : ℕ := held.countP fun p => p.1 = i

/-- The part of the invariant about references. -/
structure RefsOk (blocks : ℕ → BufBlock) (held : List (ℕ × RivU64)) : Prop where
  valid : ∀ p ∈ held, p.1 < bufBlocks ∧ (blocks p.1).valid = true ∧ (blocks p.1).lba = p.2
  counted : ∀ i < bufBlocks, (blocks i).refs.toNat = heldRefs held i
  few : held.length < 2 ^ 32

section Refs

variable {blocks blocks' : ℕ → BufBlock} {held : List (ℕ × RivU64)} {i : ℕ} {lba : RivU64}

theorem RefsOk.congr (h : RefsOk blocks held)
    (hsame : ∀ j, (blocks' j).valid = (blocks j).valid ∧ (blocks' j).lba = (blocks j).lba ∧
      (blocks' j).refs = (blocks j).refs) : RefsOk blocks' held where
  valid := by
    have := h.valid
    grind
  counted := by
    have := h.counted
    grind
  few := h.few

theorem RefsOk.not_held (h : RefsOk blocks held) (hi : i < bufBlocks)
    (hrefs : (blocks i).refs = 0) : ∀ p ∈ held, p.1 ≠ i := by
  intro p hp heq
  have hcount := h.counted i hi
  have hpos : 0 < heldRefs held i := countP_pos_iff.mpr ⟨p, hp, by simpa using heq⟩
  simp_all

theorem heldRefs_cons (p : ℕ × RivU64) (held : List (ℕ × RivU64)) (j : ℕ) :
    heldRefs (p :: held) j = heldRefs held j + if p.1 = j then 1 else 0 := by
  rw [heldRefs, countP_cons]
  simp [heldRefs]

theorem RefsOk.take (h : RefsOk blocks held) (hi : i < bufBlocks)
    (hfew : held.length + 1 < 2 ^ 32) {b : BufBlock} (hvalid : b.valid = true)
    (hlba : b.lba = lba) (hrefs : b.refs = (blocks i).refs + 1)
    (hold : ∀ p ∈ held, p.1 = i → b.lba = p.2) :
    RefsOk (update blocks i b) ((i, lba) :: held) where
  valid := by
    have := h.valid
    grind [update_apply]
  counted := by
    intro j hj
    have hcount := h.counted j hj
    rw [heldRefs_cons]
    by_cases heq : j = i
    · subst heq
      have hle : heldRefs held j ≤ held.length := countP_le_length
      rw [update_self, hrefs, BitVec.toNat_add, hcount, if_pos rfl]
      exact Nat.mod_eq_of_lt (by have : (1 : RivU32).toNat = 1 := rfl; omega)
    · rw [update_of_ne heq, if_neg (Ne.symm heq), hcount, Nat.add_zero]
  few := hfew

theorem RefsOk.release (h : RefsOk blocks held) (hmem : (i, lba) ∈ held) : 0 < (blocks i).refs ∧
      RefsOk (update blocks i { blocks i with refs := (blocks i).refs - 1 })
        (held.erase (i, lba)) := by
  have hi := (h.valid _ hmem).1
  have hcount (j : ℕ) : heldRefs (held.erase (i, lba)) j =
      heldRefs held j - if i = j then 1 else 0 := by
    rw [heldRefs, countP_erase]
    simp [heldRefs, hmem]
  have hpos : 0 < (blocks i).refs.toNat := by
    rw [h.counted i hi]
    exact countP_pos_iff.mpr ⟨_, hmem, by simp⟩
  refine ⟨BitVec.lt_def.mpr hpos, ⟨?_, ?_, ?_⟩⟩
  · intro p hp
    obtain ⟨h1, h2, h3⟩ := h.valid p (mem_of_mem_erase hp)
    by_cases heq : p.1 = i
    · simp_all
    simp_all
  · intro j hj
    rw [hcount]
    by_cases heq : j = i
    · subst heq
      have hsub : ((blocks j).refs - 1).toNat = (blocks j).refs.toNat - 1 :=
        BitVec.toNat_sub_of_le (BitVec.le_def.mpr hpos)
      rw [update_self, if_pos rfl, hsub, h.counted j hj]
    · rw [update_of_ne heq, if_neg (Ne.symm heq), h.counted j hj, Nat.sub_zero]
  · exact (length_erase_le).trans_lt h.few

end Refs

/-! ## What each call does -/

def World.putBlock (w : World Dev) (i : ℕ) (b : BufBlock) : World Dev :=
  { w with cache := { w.cache with blocks := update w.cache.blocks i b } }

theorem run_setBlock (i : ℕ) (f : BufBlock → BufBlock) (w : World Dev) :
    (setBlock i f).run w = .ok ((), w.putBlock i (f (w.cache.blocks i))) := rfl

theorem run_tickClock (w : World Dev) :
    (tickClock : KernelM Dev RivU32).run w = .ok (w.cache.clock + 1,
      { w with cache := { w.cache with clock := w.cache.clock + 1 } }) := rfl

/-- What `riv_disk_read` returns and leaves in the buffer and in the device. -/
def World.diskRead (w : World Dev) (lba : RivU64) (n : RivU32) (out : List RivU8) :
    RivI32 × List RivU8 × Dev :=
  match w.cache.disk.bind DiskOps.read with
  | none => (-1, out, w.dev)
  | some read => read w.dev lba n out

theorem run_rivDiskRead_eq (lba : RivU64) (n : RivU32) (out : List RivU8) (w : World Dev) :
    (rivDiskRead lba n out).run w = .ok (((w.diskRead lba n out).1, (w.diskRead lba n out).2.1),
      { w with dev := (w.diskRead lba n out).2.2 }) := by
  cases hread : w.cache.disk.bind DiskOps.read with
  | none | some =>
    simp only [rivDiskRead, World.diskRead, run_bind, run_get, pure_bind, hread]
    rfl

section Get

variable {w : World Dev} {lba : RivU64} {i : ℕ}

theorem run_rivBufGet_hit (hfree : w.locks .buf = false) (hhit : cacheHit w.cache lba = some i) :
    (rivBufGet lba).run w = .ok (some i,
      { w.acquire .buf with cache := { w.cache with clock := w.cache.clock + 1 } }.putBlock i
        { w.cache.blocks i with
          refs := (w.cache.blocks i).refs + 1, lastUse := w.cache.clock + 1 }) := by
  have hhit0 : cacheHit (w.acquire .buf).cache lba = some i := hhit
  apply run_spinLocked_brk hfree
  simp only [run_bind, run_get, pure_bind, hhit0]
  rfl

theorem run_rivBufGet_full (hfree : w.locks .buf = false) (hmiss : cacheHit w.cache lba = none)
    (hvictim : cacheVictim w.cache = none) :
    (rivBufGet lba).run w = .ok (none, (w.acquire .buf).release .buf w.irqOn) := by
  have hmiss0 : cacheHit (w.acquire .buf).cache lba = none := hmiss
  have hvictim0 : cacheVictim (w.acquire .buf).cache = none := hvictim
  apply run_spinLocked_next hfree
  simp only [run_bind, run_get, pure_bind, hmiss0, hvictim0]
  rfl

theorem run_rivBufGet_failed (hfree : w.locks .buf = false) (hmiss : cacheHit w.cache lba = none)
    (hvictim : cacheVictim w.cache = some i)
    (hrc : (w.diskRead lba 1 (w.cache.blocks i).data).1.toInt < 0) :
    (rivBufGet lba).run w = .ok (none,
      ({ w.acquire .buf with dev := (w.diskRead lba 1 (w.cache.blocks i).data).2.2 }.putBlock i
        { w.cache.blocks i with
          data := (w.diskRead lba 1 (w.cache.blocks i).data).2.1 }).release .buf w.irqOn) := by
  have hmiss0 : cacheHit (w.acquire .buf).cache lba = none := hmiss
  have hvictim0 : cacheVictim (w.acquire .buf).cache = some i := hvictim
  have hrc0 : ((w.acquire .buf).diskRead lba 1 ((w.acquire .buf).cache.blocks i).data).1.toInt < 0 :=
    hrc
  apply run_spinLocked_next hfree
  simp only [run_bind, run_get, pure_bind, hmiss0, hvictim0, run_rivDiskRead_eq,
    Exec.ok_bind, run_setBlock, if_pos hrc0]
  rfl

theorem run_rivBufGet_filled (hfree : w.locks .buf = false) (hmiss : cacheHit w.cache lba = none)
    (hvictim : cacheVictim w.cache = some i)
    (hrc : ¬(w.diskRead lba 1 (w.cache.blocks i).data).1.toInt < 0) :
    (rivBufGet lba).run w = .ok (some i,
      ({ w.acquire .buf with
        dev := (w.diskRead lba 1 (w.cache.blocks i).data).2.2
        cache := { w.cache with clock := w.cache.clock + 1 } }.putBlock i
          ⟨lba, (w.diskRead lba 1 (w.cache.blocks i).data).2.1, 1, true, false,
            w.cache.clock + 1⟩).release .buf w.irqOn) := by
  have hmiss₀ : cacheHit (w.acquire .buf).cache lba = none := hmiss
  have hvictim₀ : cacheVictim (w.acquire .buf).cache = some i := hvictim
  have hrc₀ :
      ¬((w.acquire .buf).diskRead lba 1 ((w.acquire .buf).cache.blocks i).data).1.toInt < 0 := hrc
  apply run_spinLocked_next hfree
  simp only [run_bind, run_get, pure_bind, hmiss₀, hvictim₀, run_rivDiskRead_eq,
    Exec.ok_bind, run_setBlock, if_neg hrc₀, run_tickClock, World.putBlock, update_self,
    update_idem]
  rfl

end Get

section Calls

variable {ops : Option (DiskOps Dev)} {w : World (Dev × DiskLog)}

theorem diskRead_log (hdisk : w.cache.disk = ops.map DiskOps.logged) (lba : RivU64)
    (n : RivU32) (out : List RivU8) : (w.diskRead lba n out).2.2.2 = w.dev.2 := by
  cases hread : w.cache.disk.bind DiskOps.read with
  | none => simp only [World.diskRead, hread]
  | some read =>
    simp only [World.diskRead, hread]
    rw [hdisk, Option.bind_map] at hread
    obtain ⟨o, -, ho⟩ := Option.bind_eq_some_iff.mp hread
    obtain ⟨r, -, rfl⟩ := Option.map_eq_some_iff.mp ho
    rfl

theorem run_rivDiskWrite (hdisk : w.cache.disk = ops.map DiskOps.logged) (lba : RivU64)
    (n : RivU32) (data : List RivU8) :
    ∃ rc dev, (rivDiskWrite lba n data).run w = .ok (rc, { w with dev := dev }) ∧
      dev.2 = if rc.toInt < 0 then w.dev.2 else (lba, data) :: w.dev.2 := by
  cases hwrite : w.cache.disk.bind DiskOps.write with
  | none =>
    refine ⟨-1, w.dev, ?_, rfl⟩
    simp only [rivDiskWrite, run_bind, run_get, pure_bind, hwrite]
    rfl
  | some write =>
    refine ⟨(write w.dev lba n data).1, (write w.dev lba n data).2, ?_, ?_⟩
    · simp only [rivDiskWrite, run_bind, run_get, pure_bind, hwrite]
      rfl
    rw [hdisk, Option.bind_map] at hwrite
    obtain ⟨o, -, ho⟩ := Option.bind_eq_some_iff.mp hwrite
    obtain ⟨r, -, rfl⟩ := Option.map_eq_some_iff.mp ho
    rfl

/-- What `riv_buf_get` can do to the blocks. -/
inductive GetEffect (blocks : ℕ → BufBlock) (lba : RivU64) : Option ℕ → (ℕ → BufBlock) → Prop
  | hit {i : ℕ} (now : RivU32) (hi : i < bufBlocks) (hvalid : (blocks i).valid = true)
      (hlba : (blocks i).lba = lba) :
      GetEffect blocks lba (some i) (update blocks i
        { blocks i with refs := (blocks i).refs + 1, lastUse := now })
  | full : GetEffect blocks lba none blocks
  | failed {i : ℕ} (data : List RivU8) (hi : i < bufBlocks) (hrefs : (blocks i).refs = 0)
      (hclean : (blocks i).dirty = false) :
      GetEffect blocks lba none (update blocks i { blocks i with data := data })
  | filled {i : ℕ} (data : List RivU8) (now : RivU32) (hi : i < bufBlocks)
      (hmiss : ∀ j < bufBlocks, (blocks j).valid = true → (blocks j).lba ≠ lba)
      (hrefs : (blocks i).refs = 0) (hclean : (blocks i).dirty = false) :
      GetEffect blocks lba (some i) (update blocks i ⟨lba, data, 1, true, false, now⟩)

theorem plain_rivBufGet (hdisk : w.cache.disk = ops.map DiskOps.logged) (lba : RivU64) :
    ∃ r w', plain (rivBufGet lba) w = some (r, w') ∧ w'.cache.disk = w.cache.disk ∧
      w'.dev.2 = w.dev.2 ∧ GetEffect w.cache.blocks lba r w'.cache.blocks := by
  have hfree : w.unlocked.locks .buf = false := rfl
  cases hhit : cacheHit w.cache lba with
  | some i =>
    obtain ⟨hi, hcached⟩ := firstIdx_eq_some hhit
    rw [Bool.and_eq_true, decide_eq_true_iff] at hcached
    have hrun := run_rivBufGet_hit hfree (show cacheHit w.unlocked.cache lba = some i from hhit)
    exact ⟨_, _, congrArg Except.toOption hrun, rfl, rfl, .hit _ hi hcached.1 hcached.2⟩
  | none =>
    have hmiss0 : cacheHit w.unlocked.cache lba = none := hhit
    have hmiss : ∀ j < bufBlocks, (w.cache.blocks j).valid = true →
        (w.cache.blocks j).lba ≠ lba := by
      intro j hj hvalid heq
      have hno := List.find?_eq_none.mp hhit j (mem_range.mpr hj)
      simp [hvalid, heq] at hno
    cases hvictim : cacheVictim w.cache with
    | none =>
      have hrun := run_rivBufGet_full hfree hmiss0 hvictim
      exact ⟨_, _, congrArg Except.toOption hrun, rfl, rfl, .full⟩
    | some i =>
      have hvictim0 : cacheVictim w.unlocked.cache = some i := hvictim
      obtain ⟨hi, hclean⟩ := firstIdx_eq_some hvictim
      rw [Bool.and_eq_true, decide_eq_true_iff, Bool.not_eq_true'] at hclean
      have hlog : (w.unlocked.diskRead lba 1 (w.unlocked.cache.blocks i).data).2.2.2 = w.dev.2 :=
        diskRead_log (w := w.unlocked) hdisk lba 1 _
      by_cases hrc :
          (w.unlocked.diskRead lba 1 (w.unlocked.cache.blocks i).data).1.toInt < 0
      · have hrun := run_rivBufGet_failed hfree hmiss0 hvictim0 hrc
        exact ⟨_, _, congrArg Except.toOption hrun, rfl, hlog, .failed _ hi hclean.1 hclean.2⟩
      · have hrun := run_rivBufGet_filled hfree hmiss0 hvictim0 hrc
        exact ⟨_, _, congrArg Except.toOption hrun, rfl, hlog,
          .filled _ _ hi hmiss hclean.1 hclean.2⟩

theorem plain_rivBufRelease (hrefs : 0 < (w.cache.blocks i).refs) :
    ∃ w', plain (rivBufRelease i) w = some ((), w') ∧ w'.cache.disk = w.cache.disk ∧
      w'.dev = w.dev ∧ w'.cache.blocks = update w.cache.blocks i
        { w.cache.blocks i with refs := (w.cache.blocks i).refs - 1 } := by
  set w0 := w.unlocked.acquire .buf with hw0
  obtain ⟨w', hrun, hsame⟩ : ∃ w', plain (rivBufRelease i) w = some ((), w') ∧
      SameCache (w0.putBlock i
        { w0.cache.blocks i with refs := (w0.cache.blocks i).refs - 1 }) w' := by
    have hrefs0 : 0 < (w0.cache.blocks i).refs := hrefs
    apply plain_spinLocked .next
    simp only [run_bind, ← hw0, run_setBlock, if_pos hrefs0]
    rfl
  refine ⟨w', hrun, ?_, ?_, ?_⟩
  · rw [hsame.cache]
    rfl
  · rw [hsame.dev]
    rfl
  · rw [hsame.cache]
    rfl

theorem plain_clientWrite (w : World Dev) (i : ℕ) (data : List RivU8) :
    ∃ w', plain (clientWrite i data) w = some ((), w') ∧ w'.cache.disk = w.cache.disk ∧
      w'.dev = w.dev ∧ w'.cache.blocks = update w.cache.blocks i
        { w.cache.blocks i with data := data, dirty := true } := by
  refine ⟨(w.unlocked.putBlock i { w.cache.blocks i with data := data }).putBlock i
    { w.cache.blocks i with data := data, dirty := true }, ?_, rfl, rfl, ?_⟩
  · simp only [plain, clientWrite, rivBufDirty, run_bind, run_setBlock, Exec.ok_bind,
      World.putBlock, update_self]
    rfl
  · simp only [World.putBlock, update_idem]
    rfl

variable {latest : RivU64 → Option (List RivU8)}

theorem run_syncBlocks (hdisk : w.cache.disk = ops.map DiskOps.logged)
    (hdata : DataOk w.cache.blocks w.dev.2 latest) {is : List ℕ} (his : ∀ i ∈ is, i < bufBlocks) :
    ∃ rc w', (syncBlocks is).run w = .ok (rc, w') ∧ w'.cache.disk = w.cache.disk ∧
      DataOk w'.cache.blocks w'.dev.2 latest ∧
      (∀ j, (w'.cache.blocks j).valid = (w.cache.blocks j).valid ∧
        (w'.cache.blocks j).lba = (w.cache.blocks j).lba ∧
        (w'.cache.blocks j).refs = (w.cache.blocks j).refs ∧
        ((w.cache.blocks j).dirty = false → (w'.cache.blocks j).dirty = false)) ∧
      (rc = 0 → ∀ j ∈ is, (w'.cache.blocks j).valid = true → (w'.cache.blocks j).dirty = false) := by
  induction is generalizing w with
  | nil => exact ⟨0, w, rfl, rfl, hdata, fun j => ⟨rfl, rfl, rfl, id⟩, by simp⟩
  | cons i is ih =>
    obtain ⟨hi, his⟩ := forall_mem_cons.mp his
    by_cases hskip : (!(w.cache.blocks i).valid || !(w.cache.blocks i).dirty) = true
    · obtain ⟨rc, w', hrun, hdisk', hdata', hsame, hclean⟩ := ih hdisk hdata his
      refine ⟨rc, w', ?_, hdisk', hdata', hsame, ?_⟩
      · simp only [syncBlocks, run_bind, run_get, pure_bind, if_pos hskip]
        exact hrun
      intro hrc
      rw [forall_mem_cons]
      refine ⟨?_, hclean hrc⟩
      intro hvalid
      rw [(hsame i).1] at hvalid
      apply (hsame i).2.2.2
      simpa [hvalid] using hskip
    · obtain ⟨rc, dev, hwrite, hlog⟩ := run_rivDiskWrite hdisk (w.cache.blocks i).lba 1
        (w.cache.blocks i).data
      by_cases hrc : rc.toInt < 0
      · rw [if_pos hrc] at hlog
        refine ⟨-1, { w with dev := dev }, ?_, rfl, ?_, fun j => ⟨rfl, rfl, rfl, id⟩, ?_⟩
        · simp only [syncBlocks, run_bind, run_get, pure_bind, if_neg hskip,
            hwrite, Exec.ok_bind, if_pos hrc]
          rfl
        all_goals simp [hlog, hdata]
      · rw [if_neg hrc] at hlog
        have hdirty : (w.cache.blocks i).valid = true ∧ (w.cache.blocks i).dirty = true := by
          simpa using hskip
        have hdata1 : DataOk (({ w with dev := dev }.putBlock i
            { w.cache.blocks i with dirty := false }).cache.blocks) dev.2 latest := by
          rw [hlog]
          exact hdata.clean hi hdirty.1 hdirty.2
        obtain ⟨rc', w', hrun, hdisk', hdata', hsame, hclean⟩ :=
          ih (w := { w with dev := dev }.putBlock i
            { w.cache.blocks i with dirty := false }) hdisk hdata1 his
        refine ⟨rc', w', ?_, hdisk', hdata', ?_, ?_⟩
        · simp only [syncBlocks, run_bind, run_get, pure_bind, if_neg hskip,
            hwrite, Exec.ok_bind, if_neg hrc, run_setBlock]
          exact hrun
        · intro j
          have hj := hsame j
          by_cases heq : j = i
          · subst heq
            simp only [World.putBlock, update_self] at hj
            exact ⟨hj.1, hj.2.1, hj.2.2.1, fun _ => hj.2.2.2 trivial⟩
          · simpa [World.putBlock, heq] using hj
        · intro hzero
          rw [forall_mem_cons]
          refine ⟨fun _ => (hsame i).2.2.2 ?_, hclean hzero⟩
          simp [World.putBlock]

theorem plain_rivBufSync (hdisk : w.cache.disk = ops.map DiskOps.logged)
    (hdata : DataOk w.cache.blocks w.dev.2 latest) :
    ∃ rc w', plain rivBufSync w = some (rc, w') ∧ w'.cache.disk = w.cache.disk ∧
      DataOk w'.cache.blocks w'.dev.2 latest ∧
      (∀ j, (w'.cache.blocks j).valid = (w.cache.blocks j).valid ∧
        (w'.cache.blocks j).lba = (w.cache.blocks j).lba ∧
        (w'.cache.blocks j).refs = (w.cache.blocks j).refs) ∧
      (rc = 0 → ∀ j < bufBlocks, (w'.cache.blocks j).valid = true →
        (w'.cache.blocks j).dirty = false) := by
  obtain ⟨rc, w1, hloop, hdisk1, hdata1, hsame1, hclean1⟩ :=
    run_syncBlocks (w := w.unlocked.acquire .buf) hdisk hdata
      (fun i hi => mem_range.mp hi)
  obtain ⟨w', hrun, hsame⟩ : ∃ w', plain rivBufSync w = some (rc, w') ∧ SameCache w1 w' := by
    apply plain_spinLocked .next
    rw [run_bind, hloop, Exec.ok_bind]
    rfl
  refine ⟨rc, w', hrun, ?_, ?_, ?_, ?_⟩
  · rw [hsame.cache]
    exact hdisk1
  · rw [hsame.cache, hsame.dev]
    exact hdata1
  · rw [hsame.cache]
    exact fun j => ⟨(hsame1 j).1, (hsame1 j).2.1, (hsame1 j).2.2.1⟩
  · rw [hsame.cache]
    simp_all

end Calls

/-! ## Whole runs -/

structure CacheRun.Inv (ops : Option (DiskOps Dev)) (s : CacheRun Dev) : Prop where
  disk : s.world.cache.disk = ops.map DiskOps.logged
  data : DataOk s.world.cache.blocks s.world.dev.2 s.latest
  refs : RefsOk s.world.cache.blocks s.held

theorem CacheRun.inv_start (w : World (Dev × DiskLog)) (ops : Option (DiskOps Dev)) :
    (CacheRun.start w ops).Inv ops where
  disk := rfl
  data := by
    constructor
    · intro i hi j hj hvalid
      simp [CacheRun.start, rivBufInit, hi] at hvalid
    · intro i hi hvalid
      simp [CacheRun.start, rivBufInit, hi] at hvalid
    · intro lba data hlatest
      cases hlatest
  refs := by
    constructor
    · intro p hp
      cases hp
    · intro i hi
      simp [CacheRun.start, rivBufInit, hi, heldRefs]
    · exact Nat.two_pow_pos 32

section Steps

variable {ops : Option (DiskOps Dev)} {s : CacheRun Dev}

theorem GetEffect.data (heffect : GetEffect blocks lba r blocks') {log : DiskLog}
    {latest : RivU64 → Option (List RivU8)} (h : DataOk blocks log latest) :
    DataOk blocks' log latest := by
  cases heffect with
  | @hit i now hi hvalid hlba =>
    apply h.congr
    intro j
    by_cases heq : j = i
    · subst heq
      simp
    · simp [heq]
  | full => exact h
  | @failed i data hi hrefs hclean =>
    refine h.replace (b := { blocks i with data := data }) hclean hclean ?_
    intro hvalid j hj hne hvalid' heq
    exact hne (h.unique j hj i hi hvalid' hvalid heq)
  | @filled i data now hi hmiss hrefs hclean =>
    refine h.replace hclean rfl ?_
    intro _ j hj _ hvalid
    exact hmiss j hj hvalid

theorem GetEffect.refs (heffect : GetEffect blocks lba r blocks') {held : List (ℕ × RivU64)}
    (h : RefsOk blocks held) (hfew : held.length + 1 < 2 ^ 32) :
    RefsOk blocks' ((r.toList.map fun i => (i, lba)) ++ held) := by
  cases heffect with
  | @hit i now hi hvalid hlba =>
    refine h.take
      (b := { blocks i with refs := (blocks i).refs + 1, lastUse := now })
      hi hfew hvalid hlba rfl ?_
    rintro p hp rfl
    exact (h.valid p hp).2.2
  | full => exact h
  | @failed i data hi hrefs hclean =>
    apply h.congr
    intro j
    by_cases heq : j = i
    · subst heq
      simp
    · simp [heq]
  | @filled i data now hi hmiss hrefs hclean =>
    refine h.take hi hfew rfl rfl ?_ ?_
    · rw [hrefs]
      rfl
    · intro p hp heq
      exact absurd heq (h.not_held hi hrefs p hp)

theorem GetEffect.frame (heffect : GetEffect blocks lba r blocks') {j : ℕ}
    (hj : (blocks j).refs ≠ 0 ∨ (blocks j).dirty = true) :
    (blocks' j).lba = (blocks j).lba ∧ (blocks' j).data = (blocks j).data := by
  have hkept {i : ℕ} {b : BufBlock} (hrefs : (blocks i).refs = 0)
      (hclean : (blocks i).dirty = false) : update blocks i b j = blocks j := by
    apply update_of_ne
    rintro rfl
    simp_all
  cases heffect with
  | @hit i now hi hvalid hlba =>
    by_cases heq : j = i
    · subst heq
      simp
    · simp [heq]
  | full => exact ⟨rfl, rfl⟩
  | failed _ _ hrefs hclean | filled _ _ _ _ hrefs hclean =>
    rw [hkept hrefs hclean]; exact ⟨rfl, rfl⟩

theorem CacheRun.Inv.get (h : s.Inv ops) (lba : RivU64) (hfew : s.held.length + 1 < 2 ^ 32) :
    ∃ s', s.step (.get lba) = some s' ∧ s'.Inv ops ∧
      ∀ i, (s.world.cache.blocks i).refs ≠ 0 ∨ (s.world.cache.blocks i).dirty = true →
        (s'.world.cache.blocks i).lba = (s.world.cache.blocks i).lba ∧
        (s'.world.cache.blocks i).data = (s.world.cache.blocks i).data := by
  obtain ⟨r, w', hrun, hdisk, hlog, heffect⟩ := plain_rivBufGet h.disk lba
  refine ⟨_, by rw [CacheRun.step, hrun]; rfl, ⟨?_, ?_, ?_⟩, ?_⟩
  · exact hdisk.trans h.disk
  · rw [hlog]
    exact heffect.data h.data
  · exact heffect.refs h.refs hfew
  · exact fun i hi => heffect.frame hi

variable {s' : CacheRun Dev}

theorem CacheRun.Inv.release (h : s.Inv ops) (hstep : s.step (.release i lba) = some s') :
    s'.Inv ops := by
  rw [CacheRun.step] at hstep
  split at hstep
  · next hmem =>
    obtain ⟨hpos, hrefs⟩ := h.refs.release hmem
    obtain ⟨w', hrun, hdisk, hdev, hblocks⟩ := plain_rivBufRelease hpos
    rw [hrun] at hstep
    obtain rfl := Option.some.inj hstep
    refine ⟨hdisk.trans h.disk, ?_, ?_⟩
    · rw [hdev]
      apply h.data.congr
      intro j
      rw [hblocks]
      by_cases heq : j = i
      · subst heq
        simp
      · simp [heq]
    simp_all
  · cases hstep

theorem CacheRun.Inv.write (h : s.Inv ops) {data : List RivU8}
    (hstep : s.step (.write i lba data) = some s') : s'.Inv ops := by
  rw [CacheRun.step] at hstep
  split at hstep
  · next hmem =>
    obtain ⟨hi, hvalid, hlba : (s.world.cache.blocks i).lba = lba⟩ := h.refs.valid (i, lba) hmem
    subst hlba
    obtain ⟨w', hrun, hdisk, hdev, hblocks⟩ := plain_clientWrite s.world i data
    rw [hrun] at hstep
    obtain rfl := Option.some.inj hstep
    refine ⟨hdisk.trans h.disk, ?_, ?_⟩
    · rw [hdev, hblocks]
      exact h.data.write hi hvalid data
    apply h.refs.congr
    intro j
    rw [hblocks]
    grind
  · cases hstep

theorem CacheRun.Inv.step (h : s.Inv ops) {a : CacheAction} (ha : FewReferences s a)
    (hstep : s.step a = some s') : s'.Inv ops := by
  cases a with
  | get lba =>
    obtain ⟨s1, hs1, hinv, -⟩ := h.get lba ha
    grind
  | release i lba => exact h.release hstep
  | write i lba data => exact h.write hstep
  | sync =>
    obtain ⟨rc, w', hrun, hdisk, hdata, hsame, -⟩ := plain_rivBufSync h.disk h.data
    rw [CacheRun.step, hrun] at hstep
    obtain rfl := Option.some.inj hstep
    exact ⟨hdisk.trans h.disk, hdata, h.refs.congr hsame⟩

end Steps

def CacheRun.Holds (s : CacheRun Dev) : CacheAction → Prop
  | .release i lba | .write i lba _ => (i, lba) ∈ s.held
  | .get _ | .sync => True

/-- What the cache owes to its clients. -/
structure CacheRun.NoUpdateLost (s : CacheRun Dev) : Prop where
  /-- Every call returns. -/
  returns : ∀ a, FewReferences s a → s.Holds a → (s.step a).isSome
  unique : ∀ i < bufBlocks, ∀ j < bufBlocks, (s.world.cache.blocks i).valid = true →
    (s.world.cache.blocks j).valid = true →
    (s.world.cache.blocks i).lba = (s.world.cache.blocks j).lba → i = j
  /-- A get leaves referenced and dirty blocks alone. -/
  getFrame : ∀ lba s', FewReferences s (.get lba) → s.step (.get lba) = some s' →
    ∀ i < bufBlocks, (s.world.cache.blocks i).refs ≠ 0 ∨
      (s.world.cache.blocks i).dirty = true →
      (s'.world.cache.blocks i).lba = (s.world.cache.blocks i).lba ∧
      (s'.world.cache.blocks i).data = (s.world.cache.blocks i).data
  /-- The latest data are in a dirty block, or on the disk. -/
  noLoss : ∀ lba data, s.latest lba = some data →
    DirtyHas s.world.cache.blocks lba data ∨ s.world.dev.2.latest lba = some data
  /-- A sync that succeeds leaves no dirty block. -/
  syncClean : ∀ w', plain rivBufSync s.world = some (0, w') → ∀ i < bufBlocks,
    (w'.cache.blocks i).valid = true → (w'.cache.blocks i).dirty = false

theorem CacheRun.Inv.noUpdateLost {ops : Option (DiskOps Dev)} {s : CacheRun Dev}
    (h : s.Inv ops) : s.NoUpdateLost where
  returns := by
    intro a ha hheld
    cases a with
    | get lba =>
      obtain ⟨s', hs', -⟩ := h.get lba ha
      rw [hs']
      rfl
    | release i lba =>
      obtain ⟨w', hrun, -⟩ := plain_rivBufRelease (h.refs.release hheld).1
      rw [CacheRun.step, if_pos (show (i, lba) ∈ s.held from hheld), hrun]
      rfl
    | write i lba data =>
      obtain ⟨w', hrun, -⟩ := plain_clientWrite s.world i data
      rw [CacheRun.step, if_pos (show (i, lba) ∈ s.held from hheld), hrun]
      rfl
    | sync =>
      obtain ⟨rc, w', hrun, -⟩ := plain_rivBufSync h.disk h.data
      rw [CacheRun.step, hrun]
      rfl
  unique := h.data.unique
  getFrame := by
    intro lba s' hfew hstep i _ hi
    obtain ⟨s1, hs1, -, hframe⟩ := h.get lba hfew
    obtain rfl := Option.some.inj (hs1.symm.trans hstep)
    exact hframe i hi
  noLoss := h.data.noLoss
  syncClean := by
    intro w' hsync
    obtain ⟨rc, w1, hrun, -, -, -, hclean⟩ := plain_rivBufSync h.disk h.data
    obtain ⟨rfl, rfl⟩ := Prod.mk.inj (Option.some.inj (hrun.symm.trans hsync))
    exact hclean rfl

/-- In every run from `riv_buf_init` on, over any driver whose calls may fail at
any time, no update is lost. -/
theorem cache_no_update_lost (w : World (Dev × DiskLog)) (ops : Option (DiskOps Dev))
    {as : List CacheAction} {s : CacheRun Dev}
    (hfew : Meets CacheRun.step FewReferences (CacheRun.start w ops) as)
    (hrun : exec CacheRun.step (CacheRun.start w ops) as = some s) : s.NoUpdateLost := by
  have hinv : s.Inv ops := by
    refine inv_of_meets ?_ (CacheRun.inv_start w ops) hfew hrun
    intro s a s' hs ha hstep
    exact hs.step ha hstep
  exact hinv.noUpdateLost

def coldDisk : DiskOps Bool where
  read := some fun warm _ _ data => (0, data, warm)
  write := some fun warm _ _ _ => (if warm then 0 else -1, true)

def coldWorld : World (Bool × DiskLog) :=
  { bootWorld with
    dev := (false, [])
    cache := ⟨none, bootWorld.cache.blocks, 0⟩ }

theorem cache_no_update_lost_retry :
    ∃ s, exec CacheRun.step (CacheRun.start coldWorld (some coldDisk))
        [.get 5, .write 0 5 [1], .sync, .get 6, .sync, .release 0 5] = some s ∧ s.NoUpdateLost := by
  obtain ⟨s, hs⟩ := Option.isSome_iff_exists.mp
    (show (exec CacheRun.step (CacheRun.start coldWorld (some coldDisk))
      [.get 5, .write 0 5 [1], .sync, .get 6, .sync, .release 0 5]).isSome = true by decide +kernel)
  exact ⟨s, hs, cache_no_update_lost coldWorld (some coldDisk) (by decide +kernel) hs⟩

end Rivet.Kernel
