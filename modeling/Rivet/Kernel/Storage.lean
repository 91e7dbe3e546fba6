import Rivet.Kernel.Spin

/-!
# The block cache, the mount table and the memory file system

The functions of `buf.h`, `vfs.h` and `ramfs.h` whose body is a `spin_locked`
block.  A `break` inside one of their inner loops only ends that loop.
-/

namespace Rivet.Kernel

open CLib

variable {Dev : Type}

def bufBlocks : ℕ := 32
def mountsMax : ℕ := 8
def pathMax : ℕ := 128
def ramfsMaxFiles : ℕ := 32

/-! ## `disk.h` -/

/-- `riv_disk_read`: the return code and the buffer. -/
def rivDiskRead (lba : RivU64) (n : RivU32) (out : List RivU8) :
    KernelM Dev (RivI32 × List RivU8) := do
  let w ← get
  match w.cache.disk.bind DiskOps.read with
  | none => pure (-1, out)
  | some read => do
    let (rc, data, dev) := read w.dev lba n out
    modify fun w => { w with dev := dev }
    pure (rc, data)

/-- `riv_disk_write`. -/
def rivDiskWrite (lba : RivU64) (n : RivU32) (data : List RivU8) : KernelM Dev RivI32 := do
  let w ← get
  match w.cache.disk.bind DiskOps.write with
  | none => pure (-1)
  | some write => do
    let (rc, dev) := write w.dev lba n data
    modify fun w => { w with dev := dev }
    pure rc

/-! ## `buf.h` -/

def setBlock (i : ℕ) (f : BufBlock → BufBlock) : KernelM Dev Unit :=
  modify fun w =>
    { w with cache :=
      { w.cache with blocks := Function.update w.cache.blocks i (f (w.cache.blocks i)) } }

/-- `++c->clock`. -/
def tickClock : KernelM Dev RivU32 := do
  modify fun w => { w with cache := { w.cache with clock := w.cache.clock + 1 } }
  let w ← get
  pure w.cache.clock

/-- The block of the cache that holds `lba`. -/
def cacheHit (cache : BufCache Dev) (lba : RivU64) : Option ℕ :=
  firstIdx bufBlocks fun i => (cache.blocks i).valid && (cache.blocks i).lba = lba

def cacheVictim (cache : BufCache Dev) : Option ℕ :=
  firstIdx bufBlocks fun i => (cache.blocks i).refs = 0 && !(cache.blocks i).dirty

def rivBufGet (lba : RivU64) : KernelM Dev (Option ℕ) :=
  spinLocked .buf do
    let w ← get
    match cacheHit w.cache lba with
    | some i => do
      let now ← tickClock
      setBlock i fun b => { b with refs := b.refs + 1, lastUse := now }
      -- `if (out) break;` leaves the locked section
      pure (.brk, some i)
    | none =>
      match cacheVictim w.cache with
      | none => pure (.next, none)
      | some i => do
        let (rc, data) ← rivDiskRead lba 1 (w.cache.blocks i).data
        setBlock i fun b => { b with data := data }
        if rc.toInt < 0 then pure (.next, none)
        else do
          let now ← tickClock
          setBlock i fun b =>
            { b with lba := lba, refs := 1, valid := true, dirty := false, lastUse := now }
          pure (.next, some i)

def rivBufRelease (i : ℕ) : KernelM Dev Unit :=
  spinLocked .buf do
    setBlock i fun b => if 0 < b.refs then { b with refs := b.refs - 1 } else b
    pure (.next, ())

/-- The loop of `riv_buf_sync` over the blocks that are left. -/
def syncBlocks : List ℕ → KernelM Dev RivI32
  | [] => pure 0
  | i :: rest => do
    let w ← get
    let b := w.cache.blocks i
    if !b.valid || !b.dirty then syncBlocks rest
    else do
      let rc ← rivDiskWrite b.lba 1 b.data
      if rc.toInt < 0 then pure (-1)
      else do
        setBlock i fun b => { b with dirty := false }
        syncBlocks rest

def rivBufSync : KernelM Dev RivI32 :=
  spinLocked .buf do
    let err ← syncBlocks (List.range bufBlocks)
    pure (.next, err)

/-! ## `vfs.h` -/

/-- What `riv_strlcpy` leaves in a buffer of `cap > 0` bytes. -/
def rivStrlcpy (s : CStr) (cap : ℕ) : CStr := s.take (cap - 1)

def rivMountFs (path : CStr) (fs : ℕ) : KernelM Dev RivI32 :=
  spinLocked .vfs do
    let w ← get
    if mountsMax ≤ w.nmount then pure (.brk, -1)
    else do
      modify fun w =>
        { w with
          mounts := Function.update w.mounts w.nmount ⟨rivStrlcpy path pathMax, fs⟩
          nmount := w.nmount + 1 }
      pure (.next, 0)

/-! ## `ramfs.h` -/

def setEntry (i : ℕ) (f : RamfsEntry → RamfsEntry) : KernelM Dev Unit :=
  modify fun w => { w with ramfs := Function.update w.ramfs i (f (w.ramfs i)) }

def ramfsFind (table : ℕ → RamfsEntry) (path : CStr) : Option ℕ :=
  firstIdx ramfsMaxFiles fun i => (table i).used && (table i).name = path

def ramfsLookup (path : CStr) : KernelM Dev (Option ℕ) :=
  spinLocked .ramfs do
    let w ← get
    pure (.next, ramfsFind w.ramfs path)

def ramfsCreate (path : CStr) (mode : RivU32) : KernelM Dev (Option ℕ) :=
  spinLocked .ramfs do
    let w ← get
    match firstIdx ramfsMaxFiles fun i => !(w.ramfs i).used with
    | none => pure (.next, none)
    | some i => do
      setEntry i fun e =>
        { e with used := true, name := rivStrlcpy path pathMax, size := 0, mode := mode }
      pure (.next, some i)

def ramfsUnlink (path : CStr) : KernelM Dev RivI32 :=
  spinLocked .ramfs do
    let w ← get
    match ramfsFind w.ramfs path with
    | none => pure (.next, -1)
    | some i => do
      setEntry i fun e => { e with used := false }
      pure (.next, 0)

end Rivet.Kernel
