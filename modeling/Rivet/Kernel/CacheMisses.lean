import Rivet.Kernel.BufCache

/-!
# Misses of the block cache

On a miss `riv_buf_get` takes the first block that is neither referenced nor dirty, and
reads into its data in place.  It does not write a dirty block back, and it does not mark
the block before it reads: if the read fails, the block still counts as the one it was.
-/

namespace Rivet.Kernel

open CLib Runs

variable {Dev : Type}

section Misses

variable {w w' : World Dev} {lba : RivU64} {i : ℕ}

/-! ## Failed reads -/

/-- The call reads into block `i`, and the driver reports an error. -/
structure ReadFails (w : World Dev) (lba : RivU64) (i : ℕ) : Prop where
  free : w.locks .buf = false
  miss : cacheHit w.cache lba = none
  victim : cacheVictim w.cache = some i
  failed : (w.diskRead lba 1 (w.cache.blocks i).data).1.toInt < 0

/-- The valid blocks of `w` are in `w'`, and a get of one of them returns its data. -/
structure StillCached (w w' : World Dev) : Prop where
  kept : ∀ j < bufBlocks, (w.cache.blocks j).valid = true → (w'.cache.blocks j).valid = true ∧
    (w'.cache.blocks j).lba = (w.cache.blocks j).lba ∧
    (w'.cache.blocks j).data = (w.cache.blocks j).data
  later : ∀ lba j, cacheHit w.cache lba = some j → ∃ w₂,
    (rivBufGet lba).run w' = .ok (some j, w₂) ∧
      (w₂.cache.blocks j).data = (w.cache.blocks j).data

/-- A get whose read fails returns null and loses nothing that was cached. -/
def FailedReadSafe (w : World Dev) (lba : RivU64) : Prop :=
  ∀ i, ReadFails w lba i → ∃ w', (rivBufGet lba).run w = .ok (none, w') ∧ StillCached w w'

theorem ReadFails.run (h : ReadFails w lba i) :
    ∃ w', (rivBufGet lba).run w = .ok (none, w') ∧ w'.locks .buf = false ∧
      w'.cache.blocks = Function.update w.cache.blocks i
        { w.cache.blocks i with data := (w.diskRead lba 1 (w.cache.blocks i).data).2.1 } := by
  refine ⟨_, run_rivBufGet_failed h.free h.miss h.victim h.failed, ?_, rfl⟩
  simp [World.release]

theorem FailedReadSafe.data_kept (hsafe : FailedReadSafe w lba) (h : ReadFails w lba i)
    (hvalid : (w.cache.blocks i).valid = true) :
    (w.diskRead lba 1 (w.cache.blocks i).data).2.1 = (w.cache.blocks i).data := by
  obtain ⟨w1, hrun1, -, hblocks⟩ := h.run
  obtain ⟨w2, hrun2, hcached⟩ := hsafe i h
  obtain ⟨-, rfl⟩ := Prod.mk.inj (Except.ok.inj (hrun1.symm.trans hrun2))
  have hdata := (hcached.kept i (firstIdx_eq_some h.victim).1 hvalid).2.2
  rwa [hblocks, Function.update_self] at hdata

theorem cacheHit_congr {cache cache' : BufCache Dev}
    (hsame : ∀ j, (cache'.blocks j).valid = (cache.blocks j).valid ∧
      (cache'.blocks j).lba = (cache.blocks j).lba) (lba : RivU64) :
    cacheHit cache' lba = cacheHit cache lba := by
  have heq : (fun j => (cache'.blocks j).valid && decide ((cache'.blocks j).lba = lba)) =
      fun j => (cache.blocks j).valid && decide ((cache.blocks j).lba = lba) := by
    funext j
    rw [(hsame j).1, (hsame j).2]
  rw [cacheHit, heq, cacheHit]

theorem ReadFails.stillCached (h : ReadFails w lba i) (hkept : (w.cache.blocks i).valid = true →
      (w.diskRead lba 1 (w.cache.blocks i).data).2.1 = (w.cache.blocks i).data) :
    ∃ w', (rivBufGet lba).run w = .ok (none, w') ∧ StillCached w w' := by
  obtain ⟨w', hrun, hfree, hblocks⟩ := h.run
  have hsame (j : ℕ) : (w'.cache.blocks j).valid = (w.cache.blocks j).valid ∧
      (w'.cache.blocks j).lba = (w.cache.blocks j).lba := by
    rw [hblocks]
    by_cases hj : j = i
    · subst hj
      simp
    · simp [hj]
  have hdata (j : ℕ) (hvalid : (w.cache.blocks j).valid = true) :
      (w'.cache.blocks j).data = (w.cache.blocks j).data := by
    rw [hblocks]
    by_cases hj : j = i
    all_goals simp_all
  refine ⟨w', hrun, fun j _ hvalid => ?_, fun lba' j hhit => ?_⟩
  · simp_all
  have hhit' : cacheHit w'.cache lba' = some j := (cacheHit_congr hsame lba').trans hhit
  have hvalid : (w.cache.blocks j).valid = true :=
    (Bool.and_eq_true_iff.mp (firstIdx_eq_some hhit).2).1
  refine ⟨_, run_rivBufGet_hit hfree hhit', ?_⟩
  simpa [World.putBlock] using hdata j hvalid

/-- A failed read is harmless just if the block it was made for held nothing, or the driver
left it as it was. -/
theorem failed_read_safe_iff (w : World Dev) (lba : RivU64) :
    FailedReadSafe w lba ↔ ∀ i, ReadFails w lba i → (w.cache.blocks i).valid = true →
      (w.diskRead lba 1 (w.cache.blocks i).data).2.1 = (w.cache.blocks i).data := by
  constructor
  · intro hsafe i h hvalid
    exact hsafe.data_kept h hvalid
  · intro hkept i h
    exact h.stillCached (hkept i h)

/-- A disk on which block 6 cannot be read, whose driver stops after the first byte. -/
def scratchedDisk : DiskOps Unit where
  read := some fun dev lba _ data => if lba = 6 then (-1, 0xFF :: data.tail, dev) else (0, data, dev)
  write := some fun dev _ _ _ => (0, dev)

/-- After a get and a release of block 5, a failed get of block 6 changes the data under
which block 5 is still cached. -/
theorem failed_read_poisons : ∃ w, (rivBufGet 5 >>= fun _ => rivBufRelease 0).run
        (rivBufInit bootWorld (some scratchedDisk)) = .ok ((), w) ∧ ¬FailedReadSafe w 6 := by
  refine ⟨_, rfl, fun hsafe => ?_⟩
  have hdata := hsafe.data_kept (i := 0) ⟨by decide, by decide +kernel, by decide +kernel,
    by decide +kernel⟩ (by decide +kernel)
  exact absurd (congrArg List.head? hdata) (by decide +kernel)

/-! ## Blocks to evict -/

def referenced (cache : BufCache Dev) : ℕ :=
  (List.range bufBlocks).countP fun i => (cache.blocks i).refs ≠ 0

/-- The device keeps the codes that its driver returned, the latest first. -/
structure Records (codes : Dev → List RivI32) (disk : Option (DiskOps Dev)) : Prop where
  read : ∀ read, disk.bind DiskOps.read = some read → ∀ dev lba n out,
    codes (read dev lba n out).2.2 = (read dev lba n out).1 :: codes dev
  write : ∀ write, disk.bind DiskOps.write = some write → ∀ dev lba n data,
    codes (write dev lba n data).2 = (write dev lba n data).1 :: codes dev

/-- There is no driver to read with, or one of its calls has failed since `w`. -/
def DiskFailed (codes : Dev → List RivI32) (w w' : World Dev) : Prop :=
  w.cache.disk.bind DiskOps.read = none ∨
    ∃ rcs, codes w'.dev = rcs ++ codes w.dev ∧ ∃ rc ∈ rcs, rc.toInt < 0

/-- While a block is not referenced, a get fails only if a disk operation fails. -/
def GetAvailable (codes : Dev → List RivI32) (w : World Dev) (lba : RivU64) : Prop :=
  referenced w.cache < bufBlocks →
    ∀ w', plain (rivBufGet lba) w = some (none, w') → DiskFailed codes w w'

theorem cacheVictim_eq_none {cache : BufCache Dev} : cacheVictim cache = none ↔
      ¬∃ i < bufBlocks, (cache.blocks i).refs = 0 ∧ (cache.blocks i).dirty = false := by
  simp [cacheVictim, firstIdx]

theorem GetAvailable.miss {codes : Dev → List RivI32} (h : GetAvailable codes w lba)
    (hfew : referenced w.cache < bufBlocks) (hmiss : cacheHit w.cache lba = none)
    (hvictim : cacheVictim w.cache = none) : w.cache.disk.bind DiskOps.read = none := by
  have hfree : w.unlocked.locks .buf = false := rfl
  have hrun := run_rivBufGet_full hfree (show cacheHit w.unlocked.cache lba = none from hmiss)
    hvictim
  rcases h hfew _ (congrArg Except.toOption hrun) with hnull | ⟨rcs, hcodes, rc, hrc, -⟩
  · exact hnull
  · have hnil : rcs = [] := List.self_eq_append_left.mp hcodes
    rw [hnil] at hrc
    cases hrc

theorem getAvailable_of_hit {codes : Dev → List RivI32} (hhit : cacheHit w.cache lba = some i) :
    GetAvailable codes w lba := by
  intro _ w' hget
  have hfree : w.unlocked.locks .buf = false := rfl
  have hrun := run_rivBufGet_hit hfree (show cacheHit w.unlocked.cache lba = some i from hhit)
  rw [plain, hrun] at hget
  cases hget

theorem getAvailable_of_victim {codes : Dev → List RivI32} (hcodes : Records codes w.cache.disk)
    (hmiss : cacheHit w.cache lba = none) (hvictim : cacheVictim w.cache = some i) :
    GetAvailable codes w lba := by
  intro _ w' hget
  have hfree : w.unlocked.locks .buf = false := rfl
  have hmiss0 : cacheHit w.unlocked.cache lba = none := hmiss
  have hvictim0 : cacheVictim w.unlocked.cache = some i := hvictim
  by_cases hrc : (w.unlocked.diskRead lba 1 (w.unlocked.cache.blocks i).data).1.toInt < 0
  · have hrun := run_rivBufGet_failed hfree hmiss0 hvictim0 hrc
    rw [plain, hrun] at hget
    cases hget
    cases hread : w.cache.disk.bind DiskOps.read with
    | none => exact .inl hread
    | some read =>
      have heq : w.unlocked.diskRead lba 1 (w.unlocked.cache.blocks i).data =
          read w.dev lba 1 (w.cache.blocks i).data := by
        have hread0 : w.unlocked.cache.disk.bind DiskOps.read = some read := hread
        rw [World.diskRead, hread0]
        rfl
      rw [heq] at hrc ⊢
      exact .inr ⟨[_], hcodes.read read hread .., _, List.mem_cons_self, hrc⟩
  · have hrun := run_rivBufGet_filled hfree hmiss0 hvictim0 hrc
    rw [plain, hrun] at hget
    cases hget

/-- The cache runs out just where a block has to be written back before it can be used. -/
theorem get_available_iff {codes : Dev → List RivI32} {w : World Dev}
    (hcodes : Records codes w.cache.disk) (lba : RivU64) : GetAvailable codes w lba ↔
      referenced w.cache = bufBlocks ∨ cacheHit w.cache lba ≠ none ∨
        (∃ i < bufBlocks, (w.cache.blocks i).refs = 0 ∧ (w.cache.blocks i).dirty = false) ∨
        w.cache.disk.bind DiskOps.read = none := by
  have hle : referenced w.cache ≤ bufBlocks := by
    have := List.countP_le_length (p := fun i => decide ((w.cache.blocks i).refs ≠ 0))
      (l := List.range bufBlocks)
    rwa [List.length_range] at this
  constructor
  · intro h
    by_contra hno
    simp only [not_or, not_not] at hno
    obtain ⟨hrefs, hmiss, hvictim, hread⟩ := hno
    exact hread (h.miss (lt_of_le_of_ne hle hrefs) hmiss (cacheVictim_eq_none.mpr hvictim))
  · rintro (hrefs | hhit | hclean | hread)
    · intro hfew
      exact absurd hrefs hfew.ne
    · obtain ⟨i, hi⟩ := Option.ne_none_iff_exists'.mp hhit
      exact getAvailable_of_hit hi
    · cases hhit : cacheHit w.cache lba with
      | some i => exact getAvailable_of_hit hhit
      | none =>
        cases hvictim : cacheVictim w.cache with
        | some i => exact getAvailable_of_victim hcodes hhit hvictim
        | none => exact absurd hclean (cacheVictim_eq_none.mp hvictim)
    · intro _ w' _
      exact .inl hread

def reliableDisk : DiskOps (List RivI32) where
  read := some fun codes _ _ data => (0, data, 0 :: codes)
  write := some fun codes _ _ _ => (0, 0 :: codes)

def reliableStart : CacheRun (List RivI32) :=
  .start { bootWorld with dev := ([], []), cache := ⟨none, bootWorld.cache.blocks, 0⟩ }
    (some reliableDisk)

theorem records_reliableDisk : Records (fun dev : List RivI32 × DiskLog => dev.1)
    reliableStart.world.cache.disk where
  read _ hread := by
    cases hread
    exact fun _ _ _ _ => rfl
  write _ hwrite := by
    cases hwrite
    exact fun _ _ _ _ => rfl

theorem get_available_empty : GetAvailable (fun dev => dev.1) reliableStart.world 7 :=
  (get_available_iff records_reliableDisk 7).mpr (.inr (.inr (.inl ⟨0, by decide, by decide⟩)))

/-- One block is written to and given back, and the others are taken: nobody holds the first
block, no call of the driver fails, and there is no block for another number. -/
theorem get_fails_on_dirty :
    ∃ s, exec CacheRun.step reliableStart ([.get 0, .write 0 0 [1], .release 0 0] ++
        (List.range 31).map fun i => .get (BitVec.ofNat 64 (i + 1))) = some s ∧
      ¬GetAvailable (fun dev => dev.1) s.world 32 := by
  have hstate : (exec CacheRun.step reliableStart ([.get 0, .write 0 0 [1], .release 0 0] ++
      (List.range 31).map fun i => .get (BitVec.ofNat 64 (i + 1)))).map (fun s =>
        (referenced s.world.cache, cacheHit s.world.cache 32, cacheVictim s.world.cache,
          (s.world.cache.disk.bind DiskOps.read).isSome)) = some (31, none, none, true) := by
    decide +kernel
  obtain ⟨s, hs, hfields⟩ := Option.map_eq_some_iff.mp hstate
  simp only [Prod.mk.injEq] at hfields
  obtain ⟨hrefs, hmiss, hvictim, hread⟩ := hfields
  refine ⟨s, hs, fun h => ?_⟩
  rw [h.miss (by rw [hrefs]; decide) hmiss hvictim] at hread
  cases hread

end Misses

end Rivet.Kernel
