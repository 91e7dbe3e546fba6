import Rivet.Kernel.LockedSections
import Rivet.Kernel.Vfs
import Rivet.Support.Exec
import Rivet.Support.Runs

/-!
# Files of the memory file system

Runs of the calls of `vfs.h` over one `riv_ramfs`, from its initialisation on and
without `unlink`.  Each run carries, for every inode, the log of the writes the
calls reported as done; the arrays in the table agree with these logs
throughout.
-/

namespace Rivet.Kernel

open CLib WriteLog Runs Function List BitVec StateT

variable {fd ino t : ℕ} {t' : Option ℕ} {fd' : ℤ}

/-! ## Runs -/

inductive FsAction where
  | openFile (t : Option ℕ) (path : CStr) (flags : RivU32)
  | close (t : Option ℕ) (fd : ℤ)
  | read (t : Option ℕ) (fd : ℤ) (n : RivU32)
  | write (t : Option ℕ) (fd : ℤ) (buf : List RivU8)
  | lseek (t : Option ℕ) (fd : ℤ) (off : ℤ) (whence : ℤ)

/-- A state of the system and the writes made so far, by inode. -/
structure FsRun (Dev : Type) where
  vfs : VfsState Dev
  log : ℕ → List (Write RivU8)

variable {Dev α : Type}

def VfsState.inodeAt (s : VfsState Dev) (t : Option ℕ) (fd : ℤ) : Option (ℕ × RivU32) := do
  let (t, fd) ← s.fileAt t fd
  let ino ← (s.tables t fd).ino
  some (ino, (s.tables t fd).pos)

/-- The log after a call of `riv_vfs_write` that returned `r`. -/
def FsRun.record (s : FsRun Dev) (t : Option ℕ) (fd : ℤ) (buf : List RivU8) (r : ℤ) :
    ℕ → List (Write RivU8) :=
  match s.vfs.inodeAt t fd with
  | none => s.log
  | some (ino, pos) =>
    if r < 0 then s.log
    else update s.log ino (⟨pos.toNat, buf.take r.toNat⟩ :: s.log ino)

def after (m : VfsM Dev α) (s : VfsState Dev) : Option (α × VfsState Dev) := (m.run s).toOption

def FsRun.step (s : FsRun Dev) : FsAction → Option (FsRun Dev)
  | .openFile t path flags =>
    (after (rivVfsOpen t path flags) s.vfs).map fun r => { s with vfs := r.2 }
  | .close t fd => (after (rivVfsClose t fd) s.vfs).map fun r => { s with vfs := r.2 }
  | .read t fd n => (after (rivVfsRead t fd n) s.vfs).map fun r => { s with vfs := r.2 }
  | .write t fd buf =>
    (after (rivVfsWrite t fd buf) s.vfs).map fun r =>
      { vfs := r.2, log := s.record t fd buf r.1 }
  | .lseek t fd off whence =>
    (after (rivVfsLseek t fd off whence) s.vfs).map fun r => { s with vfs := r.2 }

/-- The system after `riv_ramfs_init`, with no open files. -/
def FsRun.start (w : World Dev) : FsRun Dev where
  vfs := { world := rivRamfsInit w, tables := fun _ _ => ⟨none, 0, 0, false⟩ }
  log := fun _ => []

/-- Writes ask for fewer than 4096 bytes at a position that leaves room for
them below `2 ^ 32`. -/
def WriteInRange (s : FsRun Dev) : FsAction → Prop
  | .write t fd buf => buf.length < 4096 ∧
      ∀ p ∈ s.vfs.inodeAt t fd, p.2.toNat < 2 ^ 32 - 4096
  | _ => True

instance WriteInRange.decidable (s : FsRun Dev) : (a : FsAction) → Decidable (WriteInRange s a)
  | .write t fd buf => inferInstanceAs (Decidable (buf.length < 4096 ∧
      ∀ p ∈ s.vfs.inodeAt t fd, p.2.toNat < 2 ^ 32 - 4096))
  | .openFile .. | .close .. | .read .. | .lseek .. => isTrue trivial

/-! ## The file system below the descriptors -/

/-- What the calls of `vfs.h` leave alone besides the table. -/
structure SameMounts (w w' : World Dev) : Prop where
  mounts : w'.mounts = w.mounts
  nmount : w'.nmount = w.nmount
  lockFree : w'.locks .ramfs = false

theorem SameMounts.trans {w1 w2 w3 : World Dev} (h : SameMounts w1 w2) (h' : SameMounts w2 w3) :
    SameMounts w1 w3 where
  mounts := h'.mounts.trans h.mounts
  nmount := h'.nmount.trans h.nmount
  lockFree := h'.lockFree

/-- The world after a section under the lock of the file system that leaves
the table `table`. -/
def World.passRamfsLock (w : World Dev) (table : ℕ → RamfsEntry) : World Dev :=
  { w.acquire .ramfs with ramfs := table }.release .ramfs w.irqOn

theorem sameMounts_passRamfsLock (w : World Dev) (table : ℕ → RamfsEntry) :
    SameMounts w (w.passRamfsLock table) where
  mounts := rfl
  nmount := rfl
  lockFree := by simp [World.passRamfsLock, World.release]

@[simp] theorem passRamfsLock_ramfs (w : World Dev) (table : ℕ → RamfsEntry) :
    (w.passRamfsLock table).ramfs = table := rfl

variable {w : World Dev} {n off : RivU32} {s : VfsState Dev}

theorem run_ramfsLookup (hfree : w.locks .ramfs = false) (path : CStr) :
    (ramfsLookup path).run w = .ok (ramfsFind w.ramfs path, w.passRamfsLock w.ramfs) :=
  run_spinLocked_next hfree rfl

def RamfsEntry.created (e : RamfsEntry) (path : CStr) (mode : RivU32) : RamfsEntry :=
  { e with used := true, name := rivStrlcpy path pathMax, size := 0, mode := mode }

/-- The entry that `_ramfs_create` takes. -/
def freeEntry (table : ℕ → RamfsEntry) : Option ℕ :=
  firstIdx ramfsMaxFiles fun i => !(table i).used

theorem freeEntry_unused {table : ℕ → RamfsEntry} {i : ℕ} (h : freeEntry table = some i) :
    i < ramfsMaxFiles ∧ (table i).used = false := by
  obtain ⟨hlt, hunused⟩ := firstIdx_eq_some h
  exact ⟨hlt, by simpa using hunused⟩

theorem acquire_ramfs (w : World Dev) (l : SpinId) : (w.acquire l).ramfs = w.ramfs := rfl

theorem run_ramfsCreate (hfree : w.locks .ramfs = false) (path : CStr) (mode : RivU32) :
    (ramfsCreate path mode).run w = .ok (freeEntry w.ramfs, w.passRamfsLock
      (match freeEntry w.ramfs with
      | none => w.ramfs
      | some i => update w.ramfs i ((w.ramfs i).created path mode))) := by
  refine run_spinLocked_next hfree ?_
  simp only [run_bind, run_get, pure_bind, acquire_ramfs, freeEntry]
  cases firstIdx ramfsMaxFiles (fun i => !(w.ramfs i).used) <;> rfl

/-- An open of `rel` creates a file in the entry `i`. -/
def CreatesIn (w : World Dev) (rel : CStr) (flags : RivU32) (i : ℕ) : Prop :=
  ramfsFind w.ramfs rel = none ∧ flags &&& oCreate ≠ 0 ∧ freeEntry w.ramfs = some i

theorem run_vfsInode (hfree : w.locks .ramfs = false) (rel : CStr) (flags : RivU32) :
    ∃ ino w', (vfsInode rel flags).run w = .ok (ino, w') ∧ SameMounts w w' ∧
      ((w'.ramfs = w.ramfs ∧ (∀ i, ¬CreatesIn w rel flags i) ∧
        ∀ i ∈ ino, i < ramfsMaxFiles ∧ (w.ramfs i).used = true) ∨
       ∃ i, ino = some i ∧ CreatesIn w rel flags i ∧
        w'.ramfs = update w.ramfs i ((w.ramfs i).created rel 0)) := by
  have hsame := sameMounts_passRamfsLock w w.ramfs
  have hlookup := run_ramfsLookup hfree rel
  cases hfind : ramfsFind w.ramfs rel with
  | some i =>
    rw [hfind] at hlookup
    have hi := firstIdx_eq_some hfind
    refine ⟨some i, _, ?_, hsame, .inl ⟨rfl, fun _ h => ?_, ?_⟩⟩
    · rw [vfsInode, run_bind, hlookup]
      rfl
    · cases hfind.symm.trans h.1
    simp_all
  | none =>
    rw [hfind] at hlookup
    by_cases hflag : flags &&& oCreate = 0
    · refine ⟨none, _, ?_, hsame, .inl ⟨rfl, fun _ h => h.2.1 hflag, by simp⟩⟩
      rw [vfsInode, run_bind, hlookup, Exec.ok_bind]
      rw [if_pos hflag]
      rfl
    · have hcreate := run_ramfsCreate hsame.lockFree rel 0
      rw [passRamfsLock_ramfs] at hcreate
      have hrun : (vfsInode rel flags).run w = (ramfsCreate rel 0).run (w.passRamfsLock w.ramfs) := by
        simp_all [vfsInode, run_bind, Exec.ok_bind]
      refine ⟨_, _, hrun.trans hcreate, hsame.trans (sameMounts_passRamfsLock _ _), ?_⟩
      cases hentry : freeEntry w.ramfs with
      | none =>
        refine .inl ⟨rfl, fun _ hcreates => ?_, by simp⟩
        cases hentry.symm.trans hcreates.2.2
      | some i => exact .inr ⟨i, rfl, ⟨hfind, hflag, hentry⟩, rfl⟩

theorem run_ramfsRead (off n : RivU32) (hsize : (w.ramfs ino).size.toNat ≤ ramfsMaxData) :
    ∃ bytes : List RivU8, (ramfsRead ino off n).run w = .ok (((bytes.length : ℤ), bytes), w) ∧
      bytes.length = min n.toNat ((w.ramfs ino).size.toNat - off.toNat) ∧
      ∀ k < bytes.length, bytes[k]? = some ((w.ramfs ino).data (off.toNat + k)) := by
  by_cases hpast : (w.ramfs ino).size ≤ off
  · refine ⟨[], ?_, ?_, by simp⟩
    · simp only [ramfsRead, run_bind, run_get, pure_bind, if_pos hpast]
      rfl
    simp_all [le_def]
  · have hlt : off.toNat < (w.ramfs ino).size.toNat := by
      rw [le_def] at hpast
      omega
    set cut := (if (w.ramfs ino).size - off < n then (w.ramfs ino).size - off else n) with hcut
    have hsub : ((w.ramfs ino).size - off).toNat = (w.ramfs ino).size.toNat - off.toNat :=
      toNat_sub_of_le (le_def.mpr hlt.le)
    have hmin : cut.toNat = min n.toNat ((w.ramfs ino).size.toNat - off.toNat) := by
      rw [hcut, ← hsub]
      split
      · next h => rw [lt_def] at h; omega
      · next h => rw [lt_def] at h; omega
    have hroom : ¬ramfsMaxData < off.toNat + cut.toNat := by omega
    have hint : cut.toInt = cut.toNat := by
      apply toInt_eq_toNat_of_lt
      have : ramfsMaxData = 4096 := rfl
      omega
    refine ⟨(List.range cut.toNat).map fun k => (w.ramfs ino).data (off.toNat + k), ?_, ?_, ?_⟩
    · simp only [ramfsRead, run_bind, run_get, pure_bind, if_neg hpast, ← hcut,
        if_neg hroom, length_map, length_range, ← hint]
      rfl
    · rw [length_map, length_range, hmin]
    · intro k hk
      rw [length_map, length_range] at hk
      rw [List.getElem?_map, List.getElem?_range hk]
      rfl

/-- The entry after a write of `bytes` at `off`. -/
def RamfsEntry.written (e : RamfsEntry) (write : Write RivU8) : RamfsEntry :=
  { e with
    data := overwrite e.data write
    size := BitVec.ofNat 32 (max write.stop e.size.toNat) }

theorem RamfsEntry.holds_written {e : RamfsEntry} {log : List (Write RivU8)} {write : Write RivU8}
    (h : Holds log e.data e.size.toNat ∧ e.size.toNat ≤ ramfsMaxData)
    (hstop : write.stop ≤ ramfsMaxData) :
    Holds (write :: log) (e.written write).data (e.written write).size.toNat ∧
      (e.written write).size.toNat ≤ ramfsMaxData := by
  have hmax : ramfsMaxData = 4096 := rfl
  have hsize : (e.written write).size.toNat = max write.stop e.size.toNat := by
    rw [RamfsEntry.written, toNat_ofNat]
    omega
  rw [hsize]
  exact ⟨h.1.write write, by omega⟩

theorem run_ramfsStore (w : World Dev) (ino : ℕ) (buf : List RivU8)
    (hroom : off.toNat + n.toNat ≤ ramfsMaxData) (hbuf : n.toNat ≤ buf.length) :
    (ramfsStore ino off n buf).run w = .ok ((n.toNat : ℤ), { w with
      ramfs := update w.ramfs ino
        ((w.ramfs ino).written ⟨off.toNat, buf.take n.toNat⟩) }) := by
  have hmax : ramfsMaxData = 4096 := rfl
  have hint : n.toInt = n.toNat := toInt_eq_toNat_of_lt (by omega)
  have hsum : (off + n).toNat = off.toNat + n.toNat := by
    rw [toNat_add]
    omega
  have hstop : (Write.mk off.toNat (buf.take n.toNat)).stop = (off + n).toNat := by
    rw [Write.stop, length_take_of_le hbuf, hsum]
  have hentry (e : RamfsEntry) : { e with
      data := overwrite e.data ⟨off.toNat, buf.take n.toNat⟩
      size := if e.size < off + n then off + n else e.size } =
        e.written ⟨off.toNat, buf.take n.toNat⟩ := by
    have hsize : (if e.size < off + n then off + n else e.size) =
        BitVec.ofNat 32 (max (off + n).toNat e.size.toNat) := by
      split
      · next h =>
        rw [Nat.max_eq_left h.le, ofNat_toNat, setWidth_eq]
      · next h =>
        rw [lt_def, Nat.not_lt] at h
        simp_all
    rw [RamfsEntry.written, hstop, hsize]
  rw [ramfsStore, if_neg (by omega), ← hentry, ← hint]
  rfl

/-- How many bytes `_ramfs_write` copies. -/
def writeCount (off n : RivU32) : RivU32 :=
  if BitVec.ofNat 32 ramfsMaxData < off + n then BitVec.ofNat 32 ramfsMaxData - off else n

theorem run_ramfsWrite (w : World Dev) (ino : ℕ) (off : RivU32) {buf : List RivU8}
    (hbuf : n.toNat ≤ buf.length) :
    (ramfsMaxData ≤ off.toNat ∧ ramfsMaxData < (off + n).toNat ∧
      (ramfsWrite ino off n buf).run w = .ok (-1, w)) ∨
    ((off.toNat < ramfsMaxData ∨ (off + n).toNat ≤ ramfsMaxData) ∧
      (writeCount off n).toNat ≤ n.toNat ∧
      (ramfsWrite ino off n buf).run w =
        if ramfsMaxData < off.toNat + (writeCount off n).toNat then .error .fault
        else .ok (((writeCount off n).toNat : ℤ), { w with
          ramfs := update w.ramfs ino
            ((w.ramfs ino).written ⟨off.toNat, buf.take (writeCount off n).toNat⟩) })) := by
  have hmax : (BitVec.ofNat 32 ramfsMaxData).toNat = 4096 := rfl
  have hmax' : ramfsMaxData = 4096 := rfl
  have hrun (k : RivU32) (hk : k.toNat ≤ n.toNat) : (ramfsStore ino off k buf).run w =
      if ramfsMaxData < off.toNat + k.toNat then .error .fault
      else .ok ((k.toNat : ℤ), { w with
        ramfs := update w.ramfs ino ((w.ramfs ino).written ⟨off.toNat, buf.take k.toNat⟩) }) := by
    split
    · next hout =>
      rw [ramfsStore, if_pos hout]
      rfl
    · next hroom => exact run_ramfsStore w ino buf (by omega) (by omega)
  unfold ramfsWrite writeCount
  have hsum := toNat_add off n
  by_cases hlong : BitVec.ofNat 32 ramfsMaxData < off + n
  · rw [if_pos hlong, if_pos hlong]
    rw [lt_def, hmax] at hlong
    by_cases hend : BitVec.ofNat 32 ramfsMaxData ≤ off
    · rw [if_pos hend]
      exact .inl ⟨hend, hlong, rfl⟩
    · rw [if_neg hend]
      rw [le_def, hmax, Nat.not_le] at hend
      have hsub : (BitVec.ofNat 32 ramfsMaxData - off).toNat = 4096 - off.toNat := by
        rw [toNat_sub_of_le (le_def.mpr (by omega)), hmax]
      have hle : (BitVec.ofNat 32 ramfsMaxData - off).toNat ≤ n.toNat := by omega
      exact .inr ⟨.inl hend, hle, hrun _ hle⟩
  · rw [if_neg hlong, if_neg hlong]
    simp_all [lt_def]

theorem writeCount_room (hend : off.toNat + n.toNat < 2 ^ 32)
    (hok : off.toNat < ramfsMaxData ∨ (off + n).toNat ≤ ramfsMaxData) :
    off.toNat + (writeCount off n).toNat ≤ ramfsMaxData := by
  have hmax : (BitVec.ofNat 32 ramfsMaxData).toNat = 4096 := rfl
  have hmax' : ramfsMaxData = 4096 := rfl
  have hsum := toNat_add off n
  unfold writeCount
  split
  · next hlong =>
    rw [toNat_sub_of_le (le_def.mpr (by omega)), hmax]
    omega
  · next hlong =>
    rw [lt_def, hmax] at hlong
    omega

/-! ## The descriptors -/

theorem run_onWorld {m : KernelM Dev α} {a : α} (h : m.run s.world = .ok (a, w)) :
    (onWorld m).run s = .ok (a, { s with world := w }) := by
  have hrun : (onWorld m).run s =
      m.run s.world >>= fun r => .ok (r.1, { s with world := r.2 }) := rfl
  rw [hrun, h]
  rfl

def VfsState.putFile (s : VfsState Dev) (t fd : ℕ) (f : RivFile) : VfsState Dev :=
  { s with tables := update s.tables t (update (s.tables t) fd f) }

theorem run_setFile (t fd : ℕ) (f : RivFile → RivFile) (s : VfsState Dev) :
    (setFile t fd f).run s = .ok ((), s.putFile t fd (f (s.tables t fd))) := rfl

@[simp] theorem putFile_tables_self (s : VfsState Dev) (t fd : ℕ) (f : RivFile) :
    (s.putFile t fd f).tables t fd = f := by simp [VfsState.putFile]

theorem putFile_putFile (s : VfsState Dev) (t fd : ℕ) (f g : RivFile) :
    (s.putFile t fd f).putFile t fd g = s.putFile t fd g := by simp [VfsState.putFile]

theorem forall_putFile {f : RivFile} {P : ℕ → ℕ → RivFile → Prop} (hf : P t fd f)
    (h : ∀ t' fd', P t' fd' (s.tables t' fd')) :
    ∀ t' fd', P t' fd' ((s.putFile t fd f).tables t' fd') := by
  intro t' fd'
  by_cases ht : t' = t
  · by_cases hfd : fd' = fd
    all_goals simp_all [VfsState.putFile]
  · simpa [VfsState.putFile, ht] using h t' fd'

/-- What holds between the calls of a run. -/
structure FsRun.Inv (s : FsRun Dev) : Prop where
  lockFree : s.vfs.world.locks .ramfs = false
  mounted : ∀ i < s.vfs.world.nmount, (s.vfs.world.mounts i).fs = ramfsFs
  files : ∀ t fd, (s.vfs.tables t fd).used = true → ∃ ino < ramfsMaxFiles,
    (s.vfs.tables t fd).ino = some ino ∧ (s.vfs.world.ramfs ino).used = true
  fresh : ∀ ino < ramfsMaxFiles, (s.vfs.world.ramfs ino).used = false → s.log ino = []
  contents : ∀ ino < ramfsMaxFiles, (s.vfs.world.ramfs ino).used = true →
    Holds (s.log ino) (s.vfs.world.ramfs ino).data (s.vfs.world.ramfs ino).size.toNat ∧
      (s.vfs.world.ramfs ino).size.toNat ≤ ramfsMaxData

theorem FsRun.inv_start (h : ∀ i < w.nmount, (w.mounts i).fs = ramfsFs) :
    (FsRun.start w).Inv where
  lockFree := by simp [FsRun.start, rivRamfsInit]
  mounted := h
  files := by
    intro t fd hused
    cases hused
  fresh := by
    intro ino hino hused
    rfl
  contents := by
    intro ino hino hused
    simp only [FsRun.start, rivRamfsInit, if_pos hino] at hused
    cases hused

section Preservation

variable {s : FsRun Dev}

theorem FsRun.Inv.putFile (h : s.Inv) (t fd : ℕ) (f : RivFile) (hf : f.used = true → ∃ ino < ramfsMaxFiles,
      f.ino = some ino ∧ (s.vfs.world.ramfs ino).used = true) :
    FsRun.Inv { s with vfs := s.vfs.putFile t fd f } where
  lockFree := h.lockFree
  mounted := h.mounted
  files := forall_putFile (P := fun _ _ f => f.used = true → ∃ ino < ramfsMaxFiles,
    f.ino = some ino ∧ (s.vfs.world.ramfs ino).used = true) hf h.files
  fresh := h.fresh
  contents := h.contents

theorem FsRun.Inv.putPos (h : s.Inv) (t fd : ℕ) (pos : RivU32) :
    FsRun.Inv { s with vfs := s.vfs.putFile t fd { s.vfs.tables t fd with pos := pos } } :=
  h.putFile t fd _ (h.files t fd)

theorem FsRun.Inv.advance (h : s.Inv) (t fd : ℕ) (r : ℤ) :
    ∃ vfs, (advance t fd r).run s.vfs = .ok ((), vfs) ∧ FsRun.Inv { s with vfs := vfs } ∧
      vfs.world = s.vfs.world := by
  unfold Kernel.advance
  split
  · exact ⟨_, run_setFile .., h.putPos t fd _, rfl⟩
  · exact ⟨_, rfl, h, rfl⟩

theorem VfsState.fileAt_eq_some {s : VfsState Dev} (h : s.fileAt t' fd' = some (t, fd)) :
    (s.tables t fd).used = true := by
  unfold VfsState.fileAt at h
  grind

theorem run_rivVfsClose_inv (h : s.Inv) (t' : Option ℕ) (fd' : ℤ) :
    ∃ r vfs, (rivVfsClose t' fd').run s.vfs = .ok (r, vfs) ∧ FsRun.Inv { s with vfs := vfs } := by
  cases hfile : s.vfs.fileAt t' fd' with
  | none =>
    refine ⟨-1, s.vfs, ?_, h⟩
    simp only [rivVfsClose, run_bind, run_get, pure_bind, hfile]
    rfl
  | some p =>
    obtain ⟨t, fd⟩ := p
    refine ⟨0, s.vfs.putFile t fd { s.vfs.tables t fd with used := false, ino := none }, ?_, ?_⟩
    · simp only [rivVfsClose, run_bind, run_get, pure_bind, hfile]
      rfl
    · apply h.putFile
      intro hused
      cases hused

theorem run_rivVfsLseek_inv (h : s.Inv) (t' : Option ℕ) (fd' off whence : ℤ) :
    ∃ r vfs, (rivVfsLseek t' fd' off whence).run s.vfs = .ok (r, vfs) ∧
      FsRun.Inv { s with vfs := vfs } := by
  cases hfile : s.vfs.fileAt t' fd' with
  | none =>
    refine ⟨-1, s.vfs, ?_, h⟩
    simp only [rivVfsLseek, run_bind, run_get, pure_bind, hfile]
    rfl
  | some p =>
    obtain ⟨t, fd⟩ := p
    obtain ⟨ino, -, hino, -⟩ := h.files t fd (VfsState.fileAt_eq_some hfile)
    simp only [rivVfsLseek, run_bind, run_get, pure_bind, hfile, fileInode, hino]
    split
    · exact ⟨_, _, rfl, h.putPos t fd _⟩
    split
    · exact ⟨_, _, rfl, h.putPos t fd _⟩
    split
    · exact ⟨_, _, rfl, h.putPos t fd _⟩
    · exact ⟨_, _, rfl, h⟩

theorem VfsState.inodeAt_eq {s : VfsState Dev} (h : s.fileAt t' fd' = some (t, fd))
    (hino : (s.tables t fd).ino = some ino) :
    s.inodeAt t' fd' = some (ino, (s.tables t fd).pos) := by simp [VfsState.inodeAt, h, hino]

theorem FsRun.Inv.fileAt_cases (h : s.Inv) (t' : Option ℕ) (fd' : ℤ) :
    (s.vfs.fileAt t' fd' = none ∧ s.vfs.inodeAt t' fd' = none) ∨
    ∃ t fd ino, s.vfs.fileAt t' fd' = some (t, fd) ∧ (s.vfs.tables t fd).ino = some ino ∧
      s.vfs.inodeAt t' fd' = some (ino, (s.vfs.tables t fd).pos) ∧ ino < ramfsMaxFiles ∧
      (s.vfs.world.ramfs ino).used = true := by
  cases hfile : s.vfs.fileAt t' fd' with
  | none => exact .inl ⟨rfl, by simp [VfsState.inodeAt, hfile]⟩
  | some p =>
    obtain ⟨t, fd⟩ := p
    obtain ⟨ino, hlt, hino, hused⟩ := h.files t fd (VfsState.fileAt_eq_some hfile)
    exact .inr ⟨t, fd, ino, rfl, hino, VfsState.inodeAt_eq hfile hino, hlt, hused⟩

theorem run_rivVfsRead (h : s.Inv) {pos : RivU32} (hat : s.vfs.inodeAt t' fd' = some (ino, pos))
    (n : RivU32) : ∃ (bytes : List RivU8) (vfs : VfsState Dev),
      (rivVfsRead t' fd' n).run s.vfs = .ok (((bytes.length : ℤ), bytes), vfs) ∧
      FsRun.Inv { s with vfs := vfs } ∧
      bytes.length = min n.toNat ((s.vfs.world.ramfs ino).size.toNat - pos.toNat) ∧
      ∀ k < bytes.length, bytes[k]? = some ((s.vfs.world.ramfs ino).data (pos.toNat + k)) := by
  rcases h.fileAt_cases t' fd' with ⟨-, hnone⟩ | ⟨t, fd, ino', hfile, hino, hat', hlt, hused⟩
  · rw [hnone] at hat
    cases hat
  obtain ⟨rfl, rfl⟩ := Prod.mk.inj (Option.some.inj (hat'.symm.trans hat))
  obtain ⟨bytes, hread, hlen, hbytes⟩ :=
    run_ramfsRead (s.vfs.tables t fd).pos n (h.contents ino' hlt hused).2
  obtain ⟨vfs, hadv, hinv, -⟩ := h.advance t fd bytes.length
  refine ⟨bytes, vfs, ?_, hinv, hlen, hbytes⟩
  simp only [rivVfsRead, run_bind, run_get, pure_bind, hfile, fileInode, hino,
    run_pure, run_onWorld hread, Exec.ok_bind, hadv]
  rfl

theorem run_rivVfsRead_inv (h : s.Inv) (t' : Option ℕ) (fd' : ℤ) (n : RivU32) :
    ∃ r vfs, (rivVfsRead t' fd' n).run s.vfs = .ok (r, vfs) ∧ FsRun.Inv { s with vfs := vfs } := by
  rcases h.fileAt_cases t' fd' with ⟨hnone, -⟩ | ⟨t, fd, ino, -, -, hat, -, -⟩
  · refine ⟨(-1, []), s.vfs, ?_, h⟩
    simp only [rivVfsRead, run_bind, run_get, pure_bind, hnone]
    rfl
  · obtain ⟨bytes, vfs, hrun, hinv, -⟩ := run_rivVfsRead h hat n
    exact ⟨_, vfs, hrun, hinv⟩

theorem FsRun.Inv.write (h : s.Inv) (hlt : ino < ramfsMaxFiles)
    (hused : (s.vfs.world.ramfs ino).used = true) {write : Write RivU8}
    (hstop : write.stop ≤ ramfsMaxData) :
    FsRun.Inv
      { vfs := { s.vfs with world := { s.vfs.world with
          ramfs := update s.vfs.world.ramfs ino
            ((s.vfs.world.ramfs ino).written write) } }
        log := update s.log ino (write :: s.log ino) } where
  lockFree := h.lockFree
  mounted := h.mounted
  files := by
    intro t fd hopen
    obtain ⟨ino', hlt', hino', hused'⟩ := h.files t fd hopen
    refine ⟨ino', hlt', hino', ?_⟩
    by_cases heq : ino' = ino
    · subst heq
      simpa [RamfsEntry.written] using hused'
    · simpa [heq] using hused'
  fresh := by
    intro ino' hlt' hunused
    by_cases heq : ino' = ino
    · subst heq
      simp only [update_self, RamfsEntry.written, hused] at hunused
      cases hunused
    · simp only [update_of_ne heq] at hunused ⊢
      exact h.fresh ino' hlt' hunused
  contents := by
    intro ino' hlt' hused'
    by_cases heq : ino' = ino
    · subst heq
      simp only [update_self]
      exact RamfsEntry.holds_written (h.contents ino' hlt' hused) hstop
    · simp only [update_of_ne heq] at hused' ⊢
      exact h.contents ino' hlt' hused'

theorem run_rivVfsWrite_inv (h : s.Inv) {buf : List RivU8}
    (hrange : WriteInRange s (.write t' fd' buf)) :
    ∃ r vfs, (rivVfsWrite t' fd' buf).run s.vfs = .ok (r, vfs) ∧
      FsRun.Inv { vfs := vfs, log := s.record t' fd' buf r } ∧
      ∀ ino, (∀ p ∈ s.vfs.inodeAt t' fd', p.1 ≠ ino) →
        vfs.world.ramfs ino = s.vfs.world.ramfs ino := by
  rcases h.fileAt_cases t' fd' with ⟨hnone, hat⟩ | ⟨t, fd, ino, hfile, hino, hat, hlt, hused⟩
  · refine ⟨-1, s.vfs, ?_, ?_, fun _ _ => rfl⟩
    · simp only [rivVfsWrite, run_bind, run_get, pure_bind, hnone]
      rfl
    · rw [FsRun.record, hat]
      exact h
  · have hpos : (s.vfs.tables t fd).pos.toNat < 2 ^ 32 - 4096 := hrange.2 _ hat
    have hshort := hrange.1
    have hlen : (BitVec.ofNat 32 buf.length).toNat = buf.length := by
      rw [toNat_ofNat]
      omega
    rcases run_ramfsWrite s.vfs.world ino (s.vfs.tables t fd).pos hlen.le with
      ⟨-, -, hfail⟩ | ⟨hok, hn, hwrite⟩
    · refine ⟨-1, s.vfs, ?_, ?_, fun _ _ => rfl⟩
      · simp only [rivVfsWrite, run_bind, run_get, pure_bind, hfile, fileInode, hino,
          run_pure, run_onWorld hfail, Exec.ok_bind]
        rfl
      · rw [FsRun.record, hat]
        exact h
    · have hroom := writeCount_room (by omega) hok
      rw [if_neg (Nat.not_lt.mpr hroom)] at hwrite
      set n := (writeCount (s.vfs.tables t fd).pos (BitVec.ofNat 32 buf.length)).toNat
      have hstop : (Write.mk (s.vfs.tables t fd).pos.toNat (buf.take n)).stop ≤ ramfsMaxData := by
        rw [Write.stop, length_take_of_le (hn.trans hlen.le)]
        exact hroom
      obtain ⟨vfs, hadv, hinv, hworld⟩ := (h.write hlt hused hstop).advance t fd n
      refine ⟨n, vfs, ?_, ?_, ?_⟩
      · simp only [rivVfsWrite, run_bind, run_get, pure_bind, hfile, fileInode, hino,
          run_pure, run_onWorld hwrite, Exec.ok_bind, hadv]
        rfl
      · rw [FsRun.record, hat]
        exact hinv
      · intro other hother
        rw [hworld]
        exact update_of_ne (Ne.symm (hother _ hat)) ..

/-! ## Opening -/

/-- What is left of the path behind a mount point, without a slash in front. -/
def relPath (path : CStr) (len : ℕ) : CStr :=
  if (path.drop len).head? = some '/' then (path.drop len).tail else path.drop len

/-- The variables of `_riv_match_mount` once a mount has been found, or none. -/
def foundMount (mounts : ℕ → Mount) (path : CStr) : Option ℕ → MountMatch
  | none => ⟨none, 0, path⟩
  | some i => ⟨some (mounts i).fs, (mounts i).mountPoint.length,
      relPath path (mounts i).mountPoint.length⟩

/-- The last of the longest of `n` mount points that satisfy `P`, if there is one. -/
def IsLastLongest (mounts : ℕ → Mount) (n : ℕ) (P : CStr → Prop) : Option ℕ → Prop
  | none => ∀ j < n, ¬P (mounts j).mountPoint
  | some i => i < n ∧ P (mounts i).mountPoint ∧ ∀ j < n, P (mounts j).mountPoint →
      (mounts j).mountPoint.length < (mounts i).mountPoint.length ∨
        (mounts j).mountPoint.length = (mounts i).mountPoint.length ∧ j ≤ i

theorem rivMatchMount_eq (w : World Dev) (path : CStr) :
    ∃ r, IsLastLongest w.mounts w.nmount (fun mp => rivStrncmp path mp mp.length = 0) r ∧
      rivMatchMount w path = foundMount w.mounts path r := by
  unfold rivMatchMount
  induction w.nmount with
  | zero => exact ⟨none, nofun, rfl⟩
  | succ n ih =>
    obtain ⟨r, hr, heq⟩ := ih
    rw [range_succ, foldl_append, heq]
    simp only [foldl_cons, foldl_nil, matchMountStep]
    split
    · next hnew =>
      refine ⟨some n, ⟨Nat.lt_succ_self n, hnew.1, fun j hj hpre => ?_⟩, rfl⟩
      rcases Nat.lt_succ_iff_lt_or_eq.mp hj with hj | rfl
      · cases r with
        | none => exact absurd hpre (hr j hj)
        | some i =>
          have hbest : (w.mounts i).mountPoint.length ≤ (w.mounts n).mountPoint.length := hnew.2
          have := hr.2.2 j hj hpre
          omega
      · exact .inr ⟨rfl, le_rfl⟩
    · next hold =>
      refine ⟨r, ?_, rfl⟩
      cases r with
      | none =>
        intro j hj hpre
        rcases Nat.lt_succ_iff_lt_or_eq.mp hj with hj | rfl
        · exact hr j hj hpre
        · exact hold ⟨hpre, Nat.zero_le _⟩
      | some i =>
        refine ⟨Nat.lt_succ_of_lt hr.1, hr.2.1, fun j hj hpre => ?_⟩
        rcases Nat.lt_succ_iff_lt_or_eq.mp hj with hj | rfl
        · exact hr.2.2 j hj hpre
        · exact .inl (Nat.not_le.mp fun hle => hold ⟨hpre, hle⟩)

variable {path : CStr}

theorem rivMatchMount_best {w : World Dev} {fs : ℕ} (h : (rivMatchMount w path).best = some fs) :
    ∃ i < w.nmount, (w.mounts i).fs = fs := by
  obtain ⟨r, hr, heq⟩ := rivMatchMount_eq w path
  rw [heq] at h
  cases r with
  | none => cases h
  | some i => exact ⟨i, hr.1, Option.some.inj h⟩

theorem FsRun.Inv.inode (h : s.Inv) (rel : CStr) (flags : RivU32) :
    ∃ ino w, (vfsInode rel flags).run s.vfs.world = .ok (ino, w) ∧
      FsRun.Inv { s with vfs := { s.vfs with world := w } } ∧
      ∀ i ∈ ino, i < ramfsMaxFiles ∧ (w.ramfs i).used = true := by
  obtain ⟨ino, w, hrun, hsame, hcase⟩ := run_vfsInode h.lockFree rel flags
  refine ⟨ino, w, hrun, ?_⟩
  have hmounted : ∀ i < w.nmount, (w.mounts i).fs = ramfsFs := by
    rw [hsame.mounts, hsame.nmount]
    exact h.mounted
  rcases hcase with ⟨htable, -, hused⟩ | ⟨i, rfl, hcreates, htable⟩
  · refine ⟨⟨hsame.lockFree, hmounted, ?_, ?_, ?_⟩, ?_⟩
    all_goals simp only [htable]
    · exact h.files
    · exact h.fresh
    · exact h.contents
    · exact hused
  · obtain ⟨hlt, hunused⟩ := freeEntry_unused hcreates.2.2
    refine ⟨⟨hsame.lockFree, hmounted, ?_, ?_, ?_⟩, ?_⟩
    all_goals simp only [htable]
    · intro t fd hopen
      obtain ⟨ino', hlt', hino', hused'⟩ := h.files t fd hopen
      refine ⟨ino', hlt', hino', ?_⟩
      by_cases heq : ino' = i
      all_goals simp_all
    · intro ino' hlt' hunused'
      by_cases heq : ino' = i
      · rw [heq, update_self] at hunused'
        cases hunused'
      · rw [update_of_ne heq] at hunused'
        exact h.fresh ino' hlt' hunused'
    · intro ino' hlt' hused'
      by_cases heq : ino' = i
      · subst heq
        rw [update_self, h.fresh ino' hlt' hunused]
        exact ⟨Holds.nil _, Nat.zero_le _⟩
      · rw [update_of_ne heq] at hused' ⊢
        exact h.contents ino' hlt' hused'
    · intro j hj
      obtain rfl : i = j := Option.some.inj hj
      rw [update_self]
      exact ⟨hlt, rfl⟩

/-- The descriptor that `riv_file_alloc_fd` takes. -/
def freeFd (s : VfsState Dev) (t : ℕ) : Option ℕ :=
  firstIdx filesMax fun i => !(s.tables t i).used

theorem run_rivFileAllocFd (t : ℕ) (vfs : VfsState Dev) :
    (rivFileAllocFd (some t)).run vfs = .ok (match freeFd vfs t with
      | none => (-1, vfs)
      | some fd => ((fd : ℤ), vfs.putFile t fd { vfs.tables t fd with used := true })) := by
  simp only [rivFileAllocFd, run_bind, run_get, pure_bind, freeFd]
  cases firstIdx filesMax (fun i => !(vfs.tables t i).used) <;> rfl

/-- `riv_vfs_open` after the inode has been found. -/
def vfsAttach (t : Option ℕ) (ino : ℕ) (flags : RivU32) : VfsM Dev ℤ := do
  let fd ← rivFileAllocFd t
  match t with
  | none => pure (-1)
  | some t =>
    if fd < 0 then pure (-1)
    else do
      let s ← get
      setFile t fd.toNat fun f =>
        { f with
          ino := some ino
          pos := if flags &&& oAppend = 0 then 0 else (s.world.ramfs ino).size
          flags := flags }
      pure fd

theorem run_vfsAttach (t : Option ℕ) (ino : ℕ) (flags : RivU32) (s : VfsState Dev) :
    ((vfsAttach t ino flags).run s = .ok (-1, s) ∧ ∀ t', t = some t' → freeFd s t' = none) ∨
      ∃ t' k : ℕ, t = some t' ∧ freeFd s t' = some k ∧
        (vfsAttach t ino flags).run s = .ok ((k : ℤ), s.putFile t' k ⟨some ino,
          if flags &&& oAppend = 0 then 0 else (s.world.ramfs ino).size, flags, true⟩) := by
  cases t with
  | none => exact .inl ⟨rfl, nofun⟩
  | some t =>
    have halloc := run_rivFileAllocFd t s
    cases hfree : freeFd s t with
    | none =>
      rw [hfree] at halloc
      refine .inl ⟨?_, fun t' ht => by cases ht; exact hfree⟩
      simp only [vfsAttach, run_bind, halloc, Exec.ok_bind]
      rfl
    | some k =>
      rw [hfree] at halloc
      have hnonneg : ¬(k : ℤ) < 0 := by omega
      refine .inr ⟨t, k, rfl, hfree, ?_⟩
      simp only [vfsAttach, run_bind, halloc, Exec.ok_bind, if_neg hnonneg, run_setFile,
        putFile_putFile, putFile_tables_self, Int.toNat_natCast, run_get, pure_bind]
      rfl

/-- What `riv_vfs_open` does with the inode it has looked up or created. -/
def attachFound (t : Option ℕ) (flags : RivU32) : Option ℕ → VfsM Dev ℤ
  | none => pure (-1)
  | some ino => vfsAttach t ino flags

theorem rivVfsOpen_eq (t : Option ℕ) (path : CStr) (flags : RivU32) :
    (rivVfsOpen t path flags : VfsM Dev ℤ) = (do
      let s ← get
      match (rivMatchMount s.world path).best with
      | none => pure (-1)
      | some fs =>
        if fs ≠ ramfsFs then throw .fault
        else do
          let ino ← onWorld (vfsInode (rivMatchMount s.world path).rel flags)
          attachFound t flags ino) := by
  rfl

theorem run_rivVfsOpen {s : VfsState Dev} {flags : RivU32} {ino : Option ℕ} {w : World Dev}
    (hbest : (rivMatchMount s.world path).best = some ramfsFs)
    (hinode : (vfsInode (rivMatchMount s.world path).rel flags).run s.world = .ok (ino, w))
    (t : Option ℕ) :
    (rivVfsOpen t path flags).run s = (attachFound t flags ino).run { s with world := w } := by
  simp only [rivVfsOpen_eq, run_bind, run_get, pure_bind, hbest, ne_eq,
    not_true_eq_false, if_false, run_onWorld hinode, Exec.ok_bind]

theorem run_rivVfsOpen_none {s : VfsState Dev} (hbest : (rivMatchMount s.world path).best = none)
    (t : Option ℕ) (flags : RivU32) : (rivVfsOpen t path flags).run s = .ok (-1, s) := by
  simp only [rivVfsOpen_eq, run_bind, run_get, pure_bind, hbest]
  rfl

theorem run_rivVfsOpen_inv (h : s.Inv) (t : Option ℕ) (path : CStr) (flags : RivU32) :
    ∃ r vfs, (rivVfsOpen t path flags).run s.vfs = .ok (r, vfs) ∧
      FsRun.Inv { s with vfs := vfs } := by
  cases hbest : (rivMatchMount s.vfs.world path).best with
  | none => exact ⟨-1, s.vfs, run_rivVfsOpen_none hbest t flags, h⟩
  | some fs =>
    obtain rfl : fs = ramfsFs := by
      obtain ⟨i, hi, hi'⟩ := rivMatchMount_best hbest
      rw [← hi']
      exact h.mounted i hi
    obtain ⟨ino, w, hinode, hinv, hused⟩ := h.inode (rivMatchMount s.vfs.world path).rel flags
    rw [run_rivVfsOpen hbest hinode]
    cases ino with
    | none => exact ⟨-1, _, rfl, hinv⟩
    | some ino =>
      obtain ⟨hlt, hino⟩ := hused ino rfl
      rcases run_vfsAttach t ino flags { s.vfs with world := w } with
        ⟨hfail, -⟩ | ⟨t', k, -, -, hrun⟩
      · exact ⟨-1, _, hfail, hinv⟩
      · exact ⟨k, _, hrun, hinv.putFile t' k _ fun _ => ⟨ino, hlt, rfl, hino⟩⟩

end Preservation

/-! ## Whole runs -/

theorem after_eq_some {m : VfsM Dev α} {vfs : VfsState Dev} {r : α} (h : m.run s = .ok (r, vfs)) :
    after m s = some (r, vfs) := by
  rw [after, h]
  rfl

theorem FsRun.Inv.step {s : FsRun Dev} (h : s.Inv) {a : FsAction} (ha : WriteInRange s a) :
    ∃ s', s.step a = some s' ∧ s'.Inv := by
  cases a with
  | openFile t path flags =>
    obtain ⟨r, vfs, hrun, hinv⟩ := run_rivVfsOpen_inv h t path flags
    grind [FsRun.step, after_eq_some]
  | close t fd =>
    obtain ⟨r, vfs, hrun, hinv⟩ := run_rivVfsClose_inv h t fd
    grind [FsRun.step, after_eq_some]
  | read t fd n =>
    obtain ⟨r, vfs, hrun, hinv⟩ := run_rivVfsRead_inv h t fd n
    grind [FsRun.step, after_eq_some]
  | write t fd buf =>
    obtain ⟨r, vfs, hrun, hinv, -⟩ := run_rivVfsWrite_inv h ha
    grind [FsRun.step, after_eq_some]
  | lseek t fd off whence =>
    obtain ⟨r, vfs, hrun, hinv⟩ := run_rivVfsLseek_inv h t fd off whence
    grind [FsRun.step, after_eq_some]

/-- What the files of a state owe to the writes made so far. -/
structure FsRun.FilesBehave (s : FsRun Dev) : Prop where
  /-- Every call returns. -/
  returns : ∀ a, WriteInRange s a → (s.step a).isSome
  /-- The size is the largest end of any write. -/
  size : ∀ ino < ramfsMaxFiles, (s.vfs.world.ramfs ino).used = true →
    (s.vfs.world.ramfs ino).size.toNat = extent (s.log ino) ∧
      (s.vfs.world.ramfs ino).size.toNat ≤ ramfsMaxData
  /-- A read returns as many bytes as are left, at most `n`, and at each position
  that a write covered the byte most recently written. -/
  read : ∀ t fd ino pos, s.vfs.inodeAt t fd = some (ino, pos) → ∀ n : RivU32,
    ∃ (bytes : List RivU8) (vfs : VfsState Dev),
      (rivVfsRead t fd n).run s.vfs = .ok (((bytes.length : ℤ), bytes), vfs) ∧
      bytes.length = min n.toNat ((s.vfs.world.ramfs ino).size.toNat - pos.toNat) ∧
      ∀ k < bytes.length, ∀ b, latest (s.log ino) (pos.toNat + k) = some b → bytes[k]? = some b
  /-- A write through one inode leaves the others alone. -/
  frame : ∀ t fd buf s', WriteInRange s (.write t fd buf) →
    s.step (.write t fd buf) = some s' → ∀ ino, (∀ p ∈ s.vfs.inodeAt t fd, p.1 ≠ ino) →
      s'.vfs.world.ramfs ino = s.vfs.world.ramfs ino

theorem FsRun.Inv.filesBehave {s : FsRun Dev} (h : s.Inv) : s.FilesBehave where
  returns := by
    intro a ha
    obtain ⟨s', hs', -⟩ := h.step ha
    rw [hs']
    rfl
  size := by
    intro ino hlt hused
    obtain ⟨hholds, hle⟩ := h.contents ino hlt hused
    exact ⟨hholds.size_eq, hle⟩
  read := by
    intro t fd ino pos hat n
    obtain ⟨bytes, vfs, hrun, -, hlen, hbytes⟩ := run_rivVfsRead h hat n
    refine ⟨bytes, vfs, hrun, hlen, ?_⟩
    intro k hk b hb
    rcases h.fileAt_cases t fd with ⟨-, hnone⟩ | ⟨_, _, ino', -, -, hat', hlt, hused⟩
    · rw [hnone] at hat
      cases hat
    · obtain ⟨rfl, -⟩ := Prod.mk.inj (Option.some.inj (hat'.symm.trans hat))
      rw [hbytes k hk, (h.contents ino' hlt hused).1.latest_eq _ b hb]
  frame := by
    intro t fd buf s' hrange hstep ino hother
    obtain ⟨r, vfs, hrun, -, hframe⟩ := run_rivVfsWrite_inv h hrange
    rw [FsRun.step, after_eq_some hrun] at hstep
    obtain rfl := Option.some.inj hstep
    exact hframe ino hother

/-- In every run over one memory file system whose writes are in range, from its
initialisation on, the files behave as the arrays their writes make up. -/
theorem ramfs_files_behave {w : World Dev} (hmounts : ∀ i < w.nmount, (w.mounts i).fs = ramfsFs)
    {as : List FsAction} {s : FsRun Dev} (hrange : Meets FsRun.step WriteInRange (FsRun.start w) as)
    (hrun : exec FsRun.step (FsRun.start w) as = some s) : s.FilesBehave := by
  have hinv : s.Inv := by
    refine inv_of_meets ?_ (FsRun.inv_start hmounts) hrange hrun
    intro s a s' hs ha hstep
    obtain ⟨s'', hs'', hinv⟩ := hs.step ha
    obtain rfl := Option.some.inj (hs''.symm.trans hstep)
    exact hinv
  exact hinv.filesBehave

def rootWorld : World Unit :=
  { bootWorld with mounts := fun _ => ⟨"/".toList, ramfsFs⟩, nmount := 1 }

/-- The calls of `proc_init_body_inline`, with a shorter text. -/
def initCalls : List FsAction :=
  [.openFile (some 0) "/hello.txt".toList 0x42, .write (some 0) 0 [0x48, 0x69, 0x0A],
   .lseek (some 0) 0 0 0, .read (some 0) 0 63, .close (some 0) 0]

theorem ramfs_files_behave_init :
    ∃ s, exec FsRun.step (FsRun.start rootWorld) initCalls = some s ∧ s.FilesBehave := by
  obtain ⟨s, hs⟩ := Option.isSome_iff_exists.mp
    (show (exec FsRun.step (FsRun.start rootWorld) initCalls).isSome = true by decide)
  exact ⟨s, hs, ramfs_files_behave (fun _ _ => rfl) (by decide) hs⟩

end Rivet.Kernel
