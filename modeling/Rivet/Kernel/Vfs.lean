import Rivet.Kernel.Storage
import Rivet.Support.WriteLog

/-!
# Open files

The file descriptors of `vfs.h` over the memory file system of `ramfs.h`.  An
inode is known by its index in the table of the file system, a file table by a
number; the null pointer is `none`.  A copy that leaves the array of an inode
does not return.
-/

namespace Rivet.Kernel

open CLib WriteLog

/-- `riv_file`. -/
structure RivFile where
  ino : Option ℕ
  pos : RivU32
  flags : RivU32
  used : Bool
  deriving DecidableEq, Repr

/-- `riv_file_table`. -/
abbrev FileTable := ℕ → RivFile

/-- The kernel's objects with the file tables of the processes. -/
structure VfsState (Dev : Type) where
  world : World Dev
  tables : ℕ → FileTable

abbrev VfsM (Dev : Type) := StateT (VfsState Dev) (Except Stop)

variable {Dev α : Type}

def filesMax : ℕ := 16
def ramfsMaxData : ℕ := 4096

def oCreate : RivU32 := 0x40
def oAppend : RivU32 := 0x400

def ramfsFs : ℕ := 0

/-- A kernel function called by one of `vfs.h`. -/
def onWorld (m : KernelM Dev α) : VfsM Dev α := fun s => do
  let (a, w) ← m.run s.world
  .ok (a, { s with world := w })

/-! ## `ramfs.h` -/

/-- `riv_ramfs_init`, without the table of operations. -/
def rivRamfsInit (w : World Dev) : World Dev :=
  { w with
    locks := Function.update w.locks .ramfs false
    ramfs := fun i => if i < ramfsMaxFiles then { w.ramfs i with used := false } else w.ramfs i }

/-- `_ramfs_read`: the return value and the bytes copied. -/
def ramfsRead (ino : ℕ) (off n : RivU32) : KernelM Dev (ℤ × List RivU8) := do
  let w ← get
  let e := w.ramfs ino
  if e.size ≤ off then pure (0, [])
  else do
    let left := e.size - off
    let n := if left < n then left else n
    if ramfsMaxData < off.toNat + n.toNat then throw .fault
    else pure (n.toInt, (List.range n.toNat).map fun k => e.data (off.toNat + k))

/-- `_ramfs_write` after `n` has been cut at the end of the array. -/
def ramfsStore (ino : ℕ) (off n : RivU32) (buf : List RivU8) : KernelM Dev ℤ :=
  if ramfsMaxData < off.toNat + n.toNat then throw .fault
  else do
    setEntry ino fun e =>
      { e with
        data := overwrite e.data ⟨off.toNat, buf.take n.toNat⟩
        size := if e.size < off + n then off + n else e.size }
    pure n.toInt

/-- `_ramfs_write`. -/
def ramfsWrite (ino : ℕ) (off n : RivU32) (buf : List RivU8) : KernelM Dev ℤ :=
  let max : RivU32 := BitVec.ofNat 32 ramfsMaxData
  if max < off + n then
    if max ≤ off then pure (-1) else ramfsStore ino off (max - off) buf
  else ramfsStore ino off n buf

/-! ## `vfs.h` -/

/-- `riv_strncmp`. -/
def rivStrncmp : CStr → CStr → ℕ → ℤ
  | _, _, 0 => 0
  | [], [], _ + 1 => 0
  | [], b :: _, _ + 1 => -(b.toNat : ℤ)
  | a :: _, [], _ + 1 => a.toNat
  | a :: as, b :: bs, n + 1 =>
    if a = b then rivStrncmp as bs n else (a.toNat : ℤ) - b.toNat

/-- The variables of `_riv_match_mount`. -/
structure MountMatch where
  best : Option ℕ
  bestLen : ℕ
  rel : CStr

/-- One round of the loop of `_riv_match_mount`. -/
def matchMountStep (path : CStr) (m : MountMatch) (mount : Mount) : MountMatch :=
  let len := mount.mountPoint.length
  if rivStrncmp path mount.mountPoint len = 0 ∧ m.bestLen ≤ len then
    let rel := path.drop len
    ⟨some mount.fs, len, if rel.head? = some '/' then rel.tail else rel⟩
  else m

/-- `_riv_match_mount`. -/
def rivMatchMount (w : World Dev) (path : CStr) : MountMatch :=
  (List.range w.nmount).foldl (fun m i => matchMountStep path m (w.mounts i)) ⟨none, 0, path⟩

def setFile (t fd : ℕ) (f : RivFile → RivFile) : VfsM Dev Unit :=
  modify fun s =>
    { s with
      tables := Function.update s.tables t
        (Function.update (s.tables t) fd (f (s.tables t fd))) }

/-- `riv_file_alloc_fd`. -/
def rivFileAllocFd (t : Option ℕ) : VfsM Dev ℤ := do
  match t with
  | none => pure (-1)
  | some t => do
    let s ← get
    match firstIdx filesMax fun i => !(s.tables t i).used with
    | none => pure (-1)
    | some i => do
      setFile t i fun f => { f with used := true }
      pure i

/-- The inode of `rel`, created if the flags ask for it. -/
def vfsInode (rel : CStr) (flags : RivU32) : KernelM Dev (Option ℕ) := do
  let ino ← ramfsLookup rel
  match ino with
  | some ino => pure (some ino)
  | none =>
    if flags &&& oCreate = 0 then pure none
    else ramfsCreate rel 0

/-- `riv_vfs_open`. -/
def rivVfsOpen (t : Option ℕ) (path : CStr) (flags : RivU32) : VfsM Dev ℤ := do
  let s ← get
  let m := rivMatchMount s.world path
  match m.best with
  | none => pure (-1)
  | some fs =>
    if fs ≠ ramfsFs then throw .fault
    else do
      let ino ← onWorld (vfsInode m.rel flags)
      match ino with
      | none => pure (-1)
      | some ino => do
        let fd ← rivFileAllocFd t
        match t with
        | none => pure (-1)
        | some t =>
          if fd < 0 then pure (-1)
          else do
            let s ← get
            setFile t fd.toNat fun f =>
              { f with
                ino := some ino
                pos := if flags &&& oAppend = 0 then 0 else (s.world.ramfs ino).size
                flags := flags }
            pure fd

/-- The file of a descriptor that passes the checks of the calls below. -/
def VfsState.fileAt (s : VfsState Dev) (t : Option ℕ) (fd : ℤ) : Option (ℕ × ℕ) :=
  match t with
  | none => none
  | some t =>
    if fd < 0 ∨ filesMax ≤ fd ∨ (s.tables t fd.toNat).used = false then none
    else some (t, fd.toNat)

/-- `riv_vfs_close`. -/
def rivVfsClose (t : Option ℕ) (fd : ℤ) : VfsM Dev ℤ := do
  let s ← get
  match s.fileAt t fd with
  | none => pure (-1)
  | some (t, fd) => do
    setFile t fd fun f => { f with used := false, ino := none }
    pure 0

def fileInode (f : RivFile) : VfsM Dev ℕ :=
  match f.ino with
  | none => throw .fault
  | some ino => pure ino

/-- `if (r > 0) f->pos += (riv_u32)r`. -/
def advance (t fd : ℕ) (r : ℤ) : VfsM Dev Unit :=
  if 0 < r then setFile t fd fun f => { f with pos := f.pos + BitVec.ofInt 32 r }
  else pure ()

/-- `riv_vfs_read`: the return value and the bytes copied. -/
def rivVfsRead (t : Option ℕ) (fd : ℤ) (n : RivU32) : VfsM Dev (ℤ × List RivU8) := do
  let s ← get
  match s.fileAt t fd with
  | none => pure (-1, [])
  | some (t, fd) => do
    let f := s.tables t fd
    let ino ← fileInode f
    let (r, bytes) ← onWorld (ramfsRead ino f.pos n)
    advance t fd r
    pure (r, bytes)

/-- `riv_vfs_write` of all bytes of `buf`. -/
def rivVfsWrite (t : Option ℕ) (fd : ℤ) (buf : List RivU8) : VfsM Dev ℤ := do
  let s ← get
  match s.fileAt t fd with
  | none => pure (-1)
  | some (t, fd) => do
    let f := s.tables t fd
    let ino ← fileInode f
    let r ← onWorld (ramfsWrite ino f.pos (BitVec.ofNat 32 buf.length) buf)
    advance t fd r
    pure r

/-- `riv_vfs_lseek`. -/
def rivVfsLseek (t : Option ℕ) (fd : ℤ) (off : ℤ) (whence : ℤ) : VfsM Dev ℤ := do
  let s ← get
  match s.fileAt t fd with
  | none => pure (-1)
  | some (t, fd) => do
    let f := s.tables t fd
    let off := BitVec.ofInt 32 off
    let newpos ← (if whence = 0 then pure (some off)
      else if whence = 1 then pure (some (f.pos + off))
      else if whence = 2 then do
        let ino ← fileInode f
        let s ← get
        pure (some ((s.world.ramfs ino).size + off))
      else pure none : VfsM Dev (Option RivU32))
    match newpos with
    | none => pure (-1)
    | some newpos => do
      setFile t fd fun f => { f with pos := newpos }
      pure newpos.toNat

end Rivet.Kernel
