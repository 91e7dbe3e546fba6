import Rivet.Kernel.FileRuns

/-!
# Mount resolution, opening and seeking

What single calls of `vfs.h` do in an arbitrary state.  `_riv_match_mount` compares
texts, not path components; `riv_vfs_open` creates a file before it looks for a
descriptor; `riv_vfs_lseek` computes the new position in 32 bits.
-/

namespace Rivet.Kernel

open CLib Function

variable {Dev : Type}

/-! ## Mount resolution -/

section Mounts

variable {w : World Dev} {path mp : CStr}

/-- The mount point is a prefix of the path that ends where a component does. -/
def AtBoundary (path mp : CStr) : Prop :=
  mp <+: path ∧ (mp = path ∨ mp.getLast? = some '/' ∨ path[mp.length]? = some '/')

instance : DecidablePred (AtBoundary path) := fun _ => inferInstanceAs (Decidable (_ ∧ _))

/-- The result of `_riv_match_mount` is the mount at the last of the longest mount points
that are prefixes of the path by components. -/
def ResolvesByComponent (w : World Dev) (path : CStr) : Prop :=
  ∃ r, IsLastLongest w.mounts w.nmount (AtBoundary path) r ∧
    (rivMatchMount w path).best = r.map (fun i => (w.mounts i).fs) ∧
    ∀ i, r = some i → (rivMatchMount w path).rel = relPath path (w.mounts i).mountPoint.length

/-- The longest mount points that the path starts with end where a component does. -/
def LongestAtBoundary (w : World Dev) (path : CStr) : Prop :=
  ∀ i < w.nmount, (w.mounts i).mountPoint <+: path →
    (∀ j < w.nmount, (w.mounts j).mountPoint <+: path →
      (w.mounts j).mountPoint.length ≤ (w.mounts i).mountPoint.length) →
    AtBoundary path (w.mounts i).mountPoint

theorem rivStrncmp_eq_zero_iff (hmp : '\x00' ∉ mp) :
    rivStrncmp path mp mp.length = 0 ↔ mp <+: path := by
  induction mp generalizing path with
  | nil => simp [rivStrncmp]
  | cons b mp ih =>
    obtain ⟨hb, hmp⟩ := not_or.mp (mt List.mem_cons.mpr hmp)
    cases path with
    | nil =>
      have hb : b.toNat ≠ 0 := fun h => hb (Char.toNat_inj.mp (h.trans rfl)).symm
      simp [rivStrncmp, hb]
    | cons a path =>
      rw [List.length_cons, rivStrncmp, List.cons_prefix_cons]
      split
      · next heq => rw [ih hmp, heq, eq_self, true_and]
      · next hne =>
        have : a.toNat ≠ b.toNat := mt Char.toNat_inj.mp hne
        grind

theorem atBoundary_of_relPath_eq {n : ℕ} (hmp : mp <+: path) (hn : n < mp.length)
    (h : relPath path mp.length = relPath path n) : AtBoundary path mp := by
  refine ⟨hmp, ?_⟩
  by_cases hslash : path[mp.length]? = some '/'
  · exact .inr (.inr hslash)
  have hlen := congrArg List.length h
  rw [relPath, relPath, List.head?_drop, List.head?_drop, if_neg hslash] at hlen
  split at hlen
  · next hlast =>
    obtain ⟨rest, rfl⟩ := hmp
    grind
  grind

/-- A path is resolved by components exactly when the longest mount points that it starts
with end where a component does. -/
theorem mount_resolution_iff (hnul : ∀ i < w.nmount, '\x00' ∉ (w.mounts i).mountPoint)
    (path : CStr) : ResolvesByComponent w path ↔ LongestAtBoundary w path := by
  obtain ⟨r, hr, heq⟩ := rivMatchMount_eq w path
  have hpre : ∀ i < w.nmount, rivStrncmp path (w.mounts i).mountPoint
      (w.mounts i).mountPoint.length = 0 ↔ (w.mounts i).mountPoint <+: path :=
    fun i hi => rivStrncmp_eq_zero_iff (hnul i hi)
  rw [ResolvesByComponent, heq]
  constructor
  · rintro ⟨r', hr', hbest, hrel⟩ i hi hprefix hmax
    cases r with
    | none => exact absurd ((hpre i hi).mpr hprefix) (hr i hi)
    | some k =>
      have hk := (hpre k hr.1).mp hr.2.1
      have hik : (w.mounts i).mountPoint.length = (w.mounts k).mountPoint.length := by
        have := hmax k hr.1 hk
        have := hr.2.2 i hi ((hpre i hi).mpr hprefix)
        omega
      rw [(List.prefix_of_prefix_length_le hprefix hk hik.le).eq_of_length hik]
      cases r' with
      | none => cases hbest
      | some j =>
        have hj := hr'.2.1
        rcases hr.2.2 j hr'.1 ((hpre j hr'.1).mpr hj.1) with hlt | ⟨hjk, -⟩
        · exact atBoundary_of_relPath_eq hk hlt (hrel j rfl)
        · rwa [← (List.prefix_of_prefix_length_le hj.1 hk hjk.le).eq_of_length hjk]
  · intro hlongest
    cases r with
    | none => exact ⟨none, fun j hj h => hr j hj ((hpre j hj).mpr h.1), rfl, nofun⟩
    | some k =>
      have hk := (hpre k hr.1).mp hr.2.1
      refine ⟨some k, ⟨hr.1, hlongest k hr.1 hk ?_, ?_⟩, rfl, fun i hi => by cases hi; rfl⟩
      · intro j hj h
        have := hr.2.2 j hj ((hpre j hj).mpr h)
        omega
      · exact fun j hj h => hr.2.2 j hj ((hpre j hj).mpr h.1)

theorem mount_resolution_root : ResolvesByComponent rootWorld "/a".toList := by
  refine (mount_resolution_iff (by decide) "/a".toList).mpr fun i hi _ _ => ?_
  obtain rfl : i = 0 := Nat.lt_one_iff.mp hi
  decide

/-- A mount at `/dev`, made after the one at `/`, captures `/device`. -/
theorem dev_captures_device : ¬ResolvesByComponent
    { rootWorld with
      mounts := fun i => if i = 0 then ⟨"/".toList, 0⟩ else ⟨"/dev".toList, 1⟩
      nmount := 2 } "/device".toList := by
  rintro ⟨r, hr, hbest, -⟩
  cases r with
  | none => cases hbest
  | some i =>
    obtain ⟨hi, hat, -⟩ := hr
    have hi : i < 2 := hi
    obtain rfl | rfl : i = 0 ∨ i = 1 := by omega
    · cases hbest
    · exact absurd hat (by decide)

end Mounts

/-! ## Opening -/

section Opening

variable {flags : RivU32}

/-- An open that returns `-1` leaves the files and the descriptors as they were. -/
def FailedOpenKeeps (s : VfsState Dev) (t : Option ℕ) (path : CStr) (flags : RivU32) : Prop :=
  ∀ s', (rivVfsOpen t path flags).run s = .ok (-1, s') →
    s'.world.ramfs = s.world.ramfs ∧ s'.tables = s.tables

/-- The path names no file, one is to be created and an entry is free for it, but there is
no free descriptor. -/
def CreatesWithoutFd (s : VfsState Dev) (t : Option ℕ) (path : CStr) (flags : RivU32) : Prop :=
  s.world.locks .ramfs = false ∧ (rivMatchMount s.world path).best = some ramfsFs ∧
    (∃ i, CreatesIn s.world (rivMatchMount s.world path).rel flags i) ∧
    ∀ t', t = some t' → freeFd s t' = none

theorem lockFree_of_vfsInode {w w' : World Dev} {rel : CStr} {ino : Option ℕ}
    (h : (vfsInode rel flags).run w = .ok (ino, w')) : w.locks .ramfs = false := by
  obtain ⟨⟨ino', w1⟩, hlookup, -⟩ := Exec.of_bind_eq_ok h
  exact (run_spinLocked_eq_ok hlookup).1

/-- A failed open changes something exactly when it has created a file before it finds no
descriptor. -/
theorem failed_open_iff (s : VfsState Dev) (t : Option ℕ) (path : CStr) (flags : RivU32) :
    FailedOpenKeeps s t path flags ↔ ¬CreatesWithoutFd s t path flags := by
  constructor
  · rintro hkeeps ⟨hfree, hbest, ⟨j, hj⟩, hfull⟩
    obtain ⟨ino, w, hinode, -, hcase⟩ :=
      run_vfsInode hfree (rivMatchMount s.world path).rel flags
    rcases hcase with ⟨-, hno, -⟩ | ⟨i, rfl, hcreates, htable⟩
    · exact hno j hj
    rcases run_vfsAttach t i flags { s with world := w } with ⟨hfail, -⟩ | ⟨t', k, ht, hk, -⟩
    · have hsame := (hkeeps _ ((run_rivVfsOpen hbest hinode t).trans hfail)).1
      have hunused := (freeEntry_unused hcreates.2.2).2
      rw [← hsame, htable, update_self] at hunused
      cases hunused
    · cases hk.symm.trans (hfull t' ht)
  · intro hno s' hrun
    rcases rivVfsOpen_eq_ok hrun with ⟨-, -, rfl⟩ | ⟨ino, w, hbest, hinode, hattach⟩
    · exact ⟨rfl, rfl⟩
    have hfree := lockFree_of_vfsInode hinode
    obtain ⟨ino', w', hinode', -, hcase⟩ :=
      run_vfsInode hfree (rivMatchMount s.world path).rel flags
    cases hinode.symm.trans hinode'
    cases ino with
    | none =>
      cases hattach
      rcases hcase with ⟨htable, -⟩ | ⟨i, hi, -⟩
      · exact ⟨htable, rfl⟩
      · cases hi
    | some ino =>
      rcases vfsAttach_eq_ok hattach with ⟨-, rfl, hfull⟩ | ⟨t', k, -, hk, -⟩
      · rcases hcase with ⟨htable, -⟩ | ⟨i, -, hcreates, -⟩
        · exact ⟨htable, rfl⟩
        · exact absurd ⟨hfree, hbest, ⟨i, hcreates⟩, hfull⟩ hno
      · omega

/-- Without a table of descriptors the open of a new file fails and leaves the file. -/
theorem open_leaves_file : ¬FailedOpenKeeps ⟨rivRamfsInit rootWorld, fun _ _ => ⟨none, 0, 0, false⟩⟩
    none "/a".toList oCreate := by
  intro hkeeps
  have hsame := (hkeeps _ rfl).1
  have hused := congrArg (fun table => (table 0).used) hsame
  revert hused
  decide

end Opening

/-! ## Seeking -/

section Seeking

variable {s : VfsState Dev} {t fd ino : ℕ} {off whence : ℤ}

def seekTarget (s : VfsState Dev) (t fd ino : ℕ) (off whence : ℤ) : Option ℤ :=
  if whence = 0 then some off
  else if whence = 1 then some ((s.tables t fd).pos.toNat + off)
  else if whence = 2 then some ((s.world.ramfs ino).size.toNat + off)
  else none

/-- The seek returns the position asked for and sets it, or returns `-1` and changes
nothing if there is none in 32 bits. -/
def SeekExactOrRefused (s : VfsState Dev) (t fd ino : ℕ) (off whence : ℤ) : Prop :=
  (rivVfsLseek (some t) fd off whence).run s =
    .ok (match (seekTarget s t fd ino off whence).filter fun n => 0 ≤ n ∧ n < 2 ^ 32 with
      | none => (-1, s)
      | some n => (n, s.putFile t fd { s.tables t fd with pos := BitVec.ofInt 32 n }))

theorem run_rivVfsLseek (hfd : fd < filesMax) (hused : (s.tables t fd).used = true)
    (hino : (s.tables t fd).ino = some ino) :
    (rivVfsLseek (some t) fd off whence).run s =
      .ok (match seekTarget s t fd ino off whence with
        | none => (-1, s)
        | some n => ((BitVec.ofInt 32 n).toNat,
            s.putFile t fd { s.tables t fd with pos := BitVec.ofInt 32 n })) := by
  have hfile : s.fileAt (some t) fd = some (t, fd) := by
    simp [VfsState.fileAt, hused, hfd]
  have hadd (a : RivU32) : BitVec.ofInt 32 (a.toNat + off) = a + BitVec.ofInt 32 off := by
    rw [BitVec.ofInt_add, BitVec.ofInt_natCast, BitVec.ofNat_toNat, BitVec.setWidth_eq]
  have hnode : fileInode (s.tables t fd) = (pure ino : VfsM Dev ℕ) := by rw [fileInode, hino]
  simp only [rivVfsLseek, seekTarget, StateT.run_bind, StateT.run_get, pure_bind, hfile, hnode]
  split
  · rfl
  split
  · simp only [hadd]
    rfl
  split
  · simp only [hadd]
    rfl
  · rfl

/-- A seek on an open descriptor is exact or refused exactly when the position asked for
has 32 bits or `whence` is none of the three. -/
theorem seek_exact_iff (hfd : fd < filesMax) (hused : (s.tables t fd).used = true)
    (hino : (s.tables t fd).ino = some ino) (off whence : ℤ) :
    SeekExactOrRefused s t fd ino off whence ↔
      ∀ n, seekTarget s t fd ino off whence = some n → 0 ≤ n ∧ n < 2 ^ 32 := by
  rw [SeekExactOrRefused, run_rivVfsLseek hfd hused hino]
  cases seekTarget s t fd ino off whence with
  | none => exact ⟨fun _ => nofun, fun _ => rfl⟩
  | some n =>
    have hmod : ((BitVec.ofInt 32 n).toNat : ℤ) = n % 2 ^ 32 := by
      rw [BitVec.toNat_ofInt]
      omega
    by_cases hn : 0 ≤ n ∧ n < 2 ^ 32
    · rw [Option.filter_some_pos (by simpa using hn)]
      simp only [hmod, Int.emod_eq_of_lt hn.1 hn.2, Option.some.injEq, forall_eq', hn, and_self]
    · rw [Option.filter_some_neg (by simpa using hn)]
      refine ⟨fun h => ?_, fun h => absurd (h n rfl) hn⟩
      cases h

def oneOpen : VfsState Unit := ⟨rootWorld, fun _ _ => ⟨some 0, 5, 0, true⟩⟩

theorem seek_exact_back : SeekExactOrRefused oneOpen 0 0 0 (-5) 1 :=
  (seek_exact_iff (by decide) rfl rfl (-5) 1).mpr (by decide)

/-- A seek to `-1` succeeds, at `0xFFFFFFFF`. -/
theorem seek_below_zero : ¬SeekExactOrRefused oneOpen 0 0 0 (-1) 0 := by
  rw [SeekExactOrRefused, run_rivVfsLseek (by decide) rfl rfl]
  intro h
  cases h

end Seeking

end Rivet.Kernel
