import Rivet.Kernel.RamfsFiles

/-!
# Interleaved calls on the memory file system

Several processes open files of one `riv_ramfs`: the lookup, the creation and the
filling of the descriptor are one step each, as the lock of the file system is
released in between.  Reads, writes and the other calls on a descriptor, and
`_ramfs_unlink`, are one step.  A run records for every entry of the table the path
it was created for and how often it has been created, for every descriptor the
file it was opened on, and which inode each open has found.
-/

namespace Rivet.Kernel

open CLib Runs Program Function Option

variable {ino t : Option ℕ} {flags : RivU32} {path : CStr}

variable {P Dev α : Type}

/-! ## The steps of `riv_vfs_open` -/

/-- Where a process stands in `riv_vfs_open`; `file` is the number of the file in
the entry when its inode was found. -/
inductive OpenPc where
  | idle (ret : Option ℤ)
  | lookup (t : Option ℕ) (rel : CStr) (flags : RivU32)
  | create (t : Option ℕ) (rel : CStr) (flags : RivU32)
  | attach (t : Option ℕ) (ino : ℕ) (flags : RivU32) (file : ℕ)
  deriving DecidableEq, Repr

structure FileRun (P Dev : Type) where
  vfs : VfsState Dev
  pc : P → OpenPc
  -- the path an entry was last created for, and the number of its creations
  created : ℕ → CStr
  file : ℕ → ℕ
  -- the file a descriptor was opened on
  target : ℕ → ℕ → ℕ
  -- what the opens since the last unlink have found
  opened : List (CStr × ℕ)

inductive FileAction (P : Type) where
  | openFile (p : P) (t : Option ℕ) (path : CStr) (flags : RivU32)
  | step (p : P)
  | unlink (path : CStr)
  | close (t : Option ℕ) (fd : ℤ)
  | read (t : Option ℕ) (fd : ℤ) (n : RivU32)
  | write (t : Option ℕ) (fd : ℤ) (buf : List RivU8)
  | lseek (t : Option ℕ) (fd : ℤ) (off : ℤ) (whence : ℤ)

/-- The system after `riv_ramfs_init`, with no open files. -/
def FileRun.start (w : World Dev) : FileRun P Dev where
  vfs := { world := rivRamfsInit w, tables := fun _ _ => ⟨none, 0, 0, false⟩ }
  pc := fun _ => .idle none
  created := fun _ => []
  file := fun _ => 0
  target := fun _ _ => 0
  opened := []

section Steps

variable [DecidableEq P]

def FileRun.goto (s : FileRun P Dev) (p : P) (pc : OpenPc) : FileRun P Dev :=
  { s with pc := update s.pc p pc }

/-- The inode of `rel` has been found. -/
def FileRun.found (s : FileRun P Dev) (p : P) (t : Option ℕ) (rel : CStr) (flags : RivU32)
    (ino : ℕ) : FileRun P Dev :=
  { s with opened := (rel, ino) :: s.opened }.goto p (.attach t ino flags (s.file ino))

def FileRun.create (s : FileRun P Dev) (ino : ℕ) (rel : CStr) : FileRun P Dev :=
  { s with
    created := update s.created ino rel
    file := update s.file ino (s.file ino + 1) }

/-- The descriptor that `riv_vfs_open` returns refers to the file it has found. -/
def FileRun.retarget (s : FileRun P Dev) (t : Option ℕ) (fd : ℤ) (file : ℕ) : FileRun P Dev :=
  match t with
  | none => s
  | some t =>
    if fd < 0 then s
    else { s with
      target := update s.target t (update (s.target t) fd.toNat file) }

def FileRun.stepOpen (s : FileRun P Dev) (p : P) : Option (FileRun P Dev) :=
  match s.pc p with
  | .idle _ => none
  | .lookup t rel flags =>
    (after (onWorld (ramfsLookup rel)) s.vfs).map fun r =>
      match r.1 with
      | some ino => { s with vfs := r.2 }.found p t rel flags ino
      | none =>
        { s with vfs := r.2 }.goto p
          (if flags &&& oCreate = 0 then .idle (some (-1)) else .create t rel flags)
  | .create t rel flags =>
    (after (onWorld (ramfsCreate rel 0)) s.vfs).map fun r =>
      match r.1 with
      | some ino => ({ s with vfs := r.2 }.create ino rel).found p t rel flags ino
      | none => { s with vfs := r.2 }.goto p (.idle (some (-1)))
  | .attach t ino flags file =>
    (after (vfsAttach t ino flags) s.vfs).map fun r =>
      ({ s with vfs := r.2 }.retarget t r.1 file).goto p (.idle (some r.1))

def FileRun.step (s : FileRun P Dev) : FileAction P → Option (FileRun P Dev)
  | .openFile p t path flags =>
    match s.pc p with
    | .idle _ =>
      let m := rivMatchMount s.vfs.world path
      match m.best with
      | none => some (s.goto p (.idle (some (-1))))
      | some fs =>
        if fs ≠ ramfsFs then none else some (s.goto p (.lookup t m.rel flags))
    | _ => none
  | .step p => s.stepOpen p
  | .unlink path =>
    (after (onWorld (ramfsUnlink path)) s.vfs).map fun r => { s with vfs := r.2, opened := [] }
  | .close t fd => (after (rivVfsClose t fd) s.vfs).map fun r => { s with vfs := r.2 }
  | .read t fd n => (after (rivVfsRead t fd n) s.vfs).map fun r => { s with vfs := r.2 }
  | .write t fd buf => (after (rivVfsWrite t fd buf) s.vfs).map fun r => { s with vfs := r.2 }
  | .lseek t fd off whence =>
    (after (rivVfsLseek t fd off whence) s.vfs).map fun r => { s with vfs := r.2 }

end Steps

/-! ## What a call leaves alone -/

/-- The entries keep their names, the descriptors their inodes. -/
structure SameFiles (s s' : VfsState Dev) : Prop where
  entries : ∀ i, (s'.world.ramfs i).used = (s.world.ramfs i).used ∧
    (s'.world.ramfs i).name = (s.world.ramfs i).name
  descriptors : ∀ t fd, (s'.tables t fd).used = (s.tables t fd).used ∧
    (s'.tables t fd).ino = (s.tables t fd).ino

instance : Std.Refl (@SameFiles Dev) where
  refl _ := ⟨fun _ => ⟨rfl, rfl⟩, fun _ _ => ⟨rfl, rfl⟩⟩

instance : IsTrans (VfsState Dev) SameFiles where
  trans _ _ _ h h' :=
    ⟨fun i => ⟨(h'.entries i).1.trans (h.entries i).1, (h'.entries i).2.trans (h.entries i).2⟩,
      fun t fd => ⟨(h'.descriptors t fd).1.trans (h.descriptors t fd).1,
        (h'.descriptors t fd).2.trans (h.descriptors t fd).2⟩⟩

def SameNames (w w' : World Dev) : Prop :=
  ∀ i, (w'.ramfs i).used = (w.ramfs i).used ∧ (w'.ramfs i).name = (w.ramfs i).name

instance : Std.Refl (@SameNames Dev) where
  refl _ _ := ⟨rfl, rfl⟩

instance : IsTrans (World Dev) SameNames where
  trans _ _ _ h h' i := ⟨(h' i).1.trans (h i).1, (h' i).2.trans (h i).2⟩

variable {m : KernelM Dev α} {s s' : VfsState Dev} {w w' : World Dev}

theorem keeps_onWorld (h : Keeps SameNames m) : Keeps SameFiles (onWorld m : VfsM Dev α) := by
  intro s a s' hrun
  obtain ⟨⟨b, w⟩, hm, hrun⟩ := Exec.of_bind_eq_ok hrun
  cases hrun
  exact ⟨h _ _ _ hm, fun _ _ => ⟨rfl, rfl⟩⟩

theorem keeps_setFile (t fd : ℕ) {f : RivFile → RivFile}
    (hf : ∀ g, (f g).used = g.used ∧ (f g).ino = g.ino) :
    Keeps SameFiles (setFile t fd f : VfsM Dev Unit) := by
  intro s a s' hrun
  cases hrun
  refine ⟨fun _ => ⟨rfl, rfl⟩, ?_⟩
  exact forall_putFile (P := fun t fd f => f.used = (s.tables t fd).used ∧
    f.ino = (s.tables t fd).ino) (hf _) fun _ _ => ⟨rfl, rfl⟩

theorem keeps_ramfsRead {R : World Dev → World Dev → Prop} [Std.Refl R] [IsTrans (World Dev) R]
    (ino : ℕ) (off n : RivU32) : Keeps R (ramfsRead ino off n : KernelM Dev (ℤ × List RivU8)) := by
  refine keeps_get_bind fun w => ?_
  dsimp only
  split
  · exact keeps_pure _
  generalize (if (w.ramfs ino).size - off < n then (w.ramfs ino).size - off else n) = k
  split
  · exact keeps_throw _
  · exact keeps_pure _

theorem keeps_ramfsStore (ino : ℕ) (off n : RivU32) (buf : List RivU8) :
    Keeps SameNames (ramfsStore ino off n buf : KernelM Dev ℤ) := by
  unfold ramfsStore
  split
  · exact keeps_throw _
  refine Keeps.bind (keeps_modify fun w i => ?_) fun _ => keeps_pure _
  by_cases hi : i = ino
  · subst hi
    simp
  · simp [hi]

theorem keeps_ramfsWrite (ino : ℕ) (off n : RivU32) (buf : List RivU8) :
    Keeps SameNames (ramfsWrite ino off n buf : KernelM Dev ℤ) := by
  unfold ramfsWrite
  dsimp only
  split
  · split
    · exact keeps_pure _
    · exact keeps_ramfsStore _ _ _ _
  · exact keeps_ramfsStore _ _ _ _

theorem keeps_advance (t fd : ℕ) (r : ℤ) : Keeps SameFiles (advance t fd r : VfsM Dev Unit) := by
  unfold advance
  grind [keeps_setFile, keeps_pure]

theorem keeps_fileInode (f : RivFile) : Keeps SameFiles (fileInode f : VfsM Dev ℕ) := by
  unfold fileInode
  split
  · exact keeps_throw _
  · exact keeps_pure _

theorem keeps_rivVfsRead (t : Option ℕ) (fd : ℤ) (n : RivU32) :
    Keeps SameFiles (rivVfsRead t fd n : VfsM Dev (ℤ × List RivU8)) := by
  refine keeps_get_bind fun s => ?_
  split
  · exact keeps_pure _
  · refine Keeps.bind (keeps_fileInode _) fun ino => ?_
    refine Keeps.bind (keeps_onWorld (keeps_ramfsRead _ _ _)) fun r => ?_
    exact Keeps.bind (keeps_advance _ _ _) fun _ => keeps_pure _

theorem keeps_rivVfsWrite (t : Option ℕ) (fd : ℤ) (buf : List RivU8) :
    Keeps SameFiles (rivVfsWrite t fd buf : VfsM Dev ℤ) := by
  refine keeps_get_bind fun s => ?_
  split
  · exact keeps_pure _
  · refine Keeps.bind (keeps_fileInode _) fun ino => ?_
    refine Keeps.bind (keeps_onWorld (keeps_ramfsWrite _ _ _ _)) fun r => ?_
    exact Keeps.bind (keeps_advance _ _ _) fun _ => keeps_pure _

theorem keeps_rivVfsLseek (t : Option ℕ) (fd off whence : ℤ) :
    Keeps SameFiles (rivVfsLseek t fd off whence : VfsM Dev ℤ) := by
  refine keeps_get_bind fun s => ?_
  split
  · exact keeps_pure _
  refine Keeps.bind ?_ fun newpos => ?_
  · split
    · exact keeps_pure _
    split
    · exact keeps_pure _
    · split
      · exact Keeps.bind (keeps_fileInode _) fun _ => keeps_get_bind fun _ => keeps_pure _
      · exact keeps_pure _
  · split
    · exact keeps_pure _
    · exact Keeps.bind (keeps_setFile _ _ fun _ => ⟨rfl, rfl⟩) fun _ => keeps_pure _

/-! ## What a step can do -/

theorem after_eq_some_iff {m : VfsM Dev α} {vfs : VfsState Dev} {r : α} :
    after m s = some (r, vfs) ↔ m.run s = .ok (r, vfs) :=
  Exec.toOption_eq_some_iff

theorem onWorld_eq_ok {a : α} (h : (onWorld m).run s = .ok (a, s')) :
    ∃ w, m.run s.world = .ok (a, w) ∧ s' = { s with world := w } := by
  obtain ⟨⟨b, w⟩, hm, h⟩ := Exec.of_bind_eq_ok h
  cases h
  exact ⟨w, hm, rfl⟩

theorem rivVfsOpen_eq_ok {t : Option ℕ} {path : CStr} {flags : RivU32} {fd : ℤ}
    (h : (rivVfsOpen t path flags).run s = .ok (fd, s')) :
    ((rivMatchMount s.world path).best = none ∧ fd = -1 ∧ s' = s) ∨
      ∃ ino w, (rivMatchMount s.world path).best = some ramfsFs ∧
        (vfsInode (rivMatchMount s.world path).rel flags).run s.world = .ok (ino, w) ∧
        (attachFound t flags ino).run { s with world := w } = .ok (fd, s') := by
  simp only [rivVfsOpen_eq, StateT.run_bind, StateT.run_get, pure_bind] at h
  cases hbest : (rivMatchMount s.world path).best with
  | none =>
    rw [hbest] at h
    cases h
    exact .inl ⟨rfl, rfl, rfl⟩
  | some fs =>
    simp only [hbest] at h
    by_cases hfs : fs ≠ ramfsFs
    · rw [if_pos hfs] at h
      cases h
    rw [if_neg hfs] at h
    obtain ⟨⟨ino, v⟩, hworld, h⟩ := Exec.of_bind_eq_ok h
    obtain ⟨w, hinode, rfl⟩ := onWorld_eq_ok hworld
    exact .inr ⟨ino, w, by rw [not_not.mp hfs], hinode, h⟩

/-! ## An open that is not interrupted -/

theorem retarget_eq (s : FileRun P Dev) (t : Option ℕ) (fd : ℤ) (file : ℕ) :
    (s.retarget t fd file).created = s.created ∧ (s.retarget t fd file).opened = s.opened ∧
      (s.retarget t fd file).vfs = s.vfs := by
  unfold FileRun.retarget
  grind

section Uninterrupted

variable [DecidableEq P]

/-- Left alone, `p` returns `fd` with the files as in `vfs`. -/
def FileRun.Returns (s : FileRun P Dev) (p : P) (fd : ℤ) (vfs : VfsState Dev) : Prop :=
  ∃ n s', exec FileRun.step s (List.replicate n (.step p)) = some s' ∧
    s'.vfs = vfs ∧ s'.pc p = .idle (some fd)

variable {s s' : FileRun P Dev} {p : P} {fd : ℤ} {vfs : VfsState Dev}

theorem goto_pc_self (s : FileRun P Dev) (p : P) (pc : OpenPc) : (s.goto p pc).pc p = pc :=
  update_self ..

theorem FileRun.Returns.of_idle (hpc : s.pc p = .idle (some fd)) (hvfs : s.vfs = vfs) :
    s.Returns p fd vfs :=
  ⟨0, s, rfl, hvfs, hpc⟩

theorem FileRun.Returns.of_stepOpen (hstep : s.stepOpen p = some s') (h : s'.Returns p fd vfs) :
    s.Returns p fd vfs := by
  obtain ⟨n, s1, hrun, hs1⟩ := h
  refine ⟨n + 1, s1, ?_, hs1⟩
  exact (congrArg (Option.bind · _) hstep).trans hrun

theorem FileRun.Returns.of_attach {ino file : ℕ} (hpc : s.pc p = .attach t ino flags file)
    (hrun : (vfsAttach t ino flags).run s.vfs = .ok (fd, vfs)) : s.Returns p fd vfs := by
  have hstep : s.stepOpen p =
      some (({ s with vfs := vfs }.retarget t fd file).goto p (.idle (some fd))) := by
    simp only [FileRun.stepOpen, hpc, after_eq_some_iff.mpr hrun, map_some]
  refine .of_stepOpen hstep (.of_idle (goto_pc_self ..) ?_)
  exact (retarget_eq { s with vfs := vfs } t fd file).2.2

theorem FileRun.Returns.of_create {rel : CStr} {w : World Dev} (hpc : s.pc p = .create t rel flags)
    (hcreate : (ramfsCreate rel 0).run s.vfs.world = .ok (ino, w))
    (hrun : (attachFound t flags ino).run { s.vfs with world := w } = .ok (fd, vfs)) :
    s.Returns p fd vfs := by
  have hafter := after_eq_some_iff.mpr (run_onWorld hcreate)
  cases ino with
  | none =>
    cases hrun
    have hstep : s.stepOpen p =
        some ({ s with vfs := { s.vfs with world := w } }.goto p (.idle (some (-1)))) := by
      simp only [FileRun.stepOpen, hpc, hafter, map_some]
    exact .of_stepOpen hstep (.of_idle (goto_pc_self ..) rfl)
  | some ino =>
    have hstep : s.stepOpen p = some
        (({ s with vfs := { s.vfs with world := w } }.create ino rel).found p t rel flags ino) := by
      simp only [FileRun.stepOpen, hpc, hafter, map_some]
    exact .of_stepOpen hstep (.of_attach (goto_pc_self ..) hrun)

theorem FileRun.Returns.of_lookup {rel : CStr} {w : World Dev} (hpc : s.pc p = .lookup t rel flags)
    (hinode : (vfsInode rel flags).run s.vfs.world = .ok (ino, w))
    (hrun : (attachFound t flags ino).run { s.vfs with world := w } = .ok (fd, vfs)) :
    s.Returns p fd vfs := by
  obtain ⟨found, w1, hlookup, hinode⟩ := run_bind_eq_ok hinode
  have hafter := after_eq_some_iff.mpr (run_onWorld hlookup)
  cases found with
  | some ino =>
    cases hinode
    have hstep : s.stepOpen p = some
        ({ s with vfs := { s.vfs with world := w } }.found p t rel flags ino) := by
      simp only [FileRun.stepOpen, hpc, hafter, map_some]
    exact .of_stepOpen hstep (.of_attach (goto_pc_self ..) hrun)
  | none =>
    by_cases hflags : flags &&& oCreate = 0
    · simp only [hflags, if_true] at hinode
      cases hinode
      cases hrun
      have hstep : s.stepOpen p =
          some ({ s with vfs := { s.vfs with world := w } }.goto p (.idle (some (-1)))) := by
        simp only [FileRun.stepOpen, hpc, hafter, map_some, hflags, if_true]
      exact .of_stepOpen hstep (.of_idle (goto_pc_self ..) rfl)
    · simp only [if_neg hflags] at hinode
      have hstep : s.stepOpen p = some
          ({ s with vfs := { s.vfs with world := w1 } }.goto p (.create t rel flags)) := by
        simp only [FileRun.stepOpen, hpc, hafter, map_some, if_neg hflags]
      exact .of_stepOpen hstep (.of_create (goto_pc_self ..) hinode hrun)

theorem FileRun.open_uninterrupted {ret : Option ℤ} (hidle : s.pc p = .idle ret)
    (hrun : (rivVfsOpen t path flags).run s.vfs = .ok (fd, vfs)) :
    ∃ s', s.step (.openFile p t path flags) = some s' ∧ s'.Returns p fd vfs := by
  simp only [FileRun.step, hidle]
  rcases rivVfsOpen_eq_ok hrun with ⟨hbest, rfl, rfl⟩ | ⟨ino, w, hbest, hinode, hrun⟩
  · simp only [hbest]
    exact ⟨_, rfl, .of_idle (goto_pc_self ..) rfl⟩
  · simp only [hbest, ne_eq, not_true_eq_false, if_false]
    exact ⟨_, rfl, .of_lookup (goto_pc_self ..) hinode hrun⟩

end Uninterrupted

theorem ramfsLookup_eq_ok (h : (ramfsLookup path).run w = .ok (ino, w')) :
    ino = ramfsFind w.ramfs path ∧ w'.ramfs = w.ramfs := by
  rw [run_ramfsLookup (run_spinLocked_eq_ok h).1] at h
  cases h
  exact ⟨rfl, rfl⟩

theorem ramfsCreate_eq_ok {mode : RivU32} (h : (ramfsCreate path mode).run w = .ok (ino, w')) :
    ino = freeEntry w.ramfs ∧ w'.ramfs = match freeEntry w.ramfs with
      | none => w.ramfs
      | some i => update w.ramfs i ((w.ramfs i).created path mode) := by
  rw [run_ramfsCreate (run_spinLocked_eq_ok h).1] at h
  cases h
  exact ⟨rfl, rfl⟩

theorem ramfsUnlink_eq_ok {rc : RivI32} (h : (ramfsUnlink path).run w = .ok (rc, w')) :
    w'.ramfs = match ramfsFind w.ramfs path with
      | none => w.ramfs
      | some i => update w.ramfs i { w.ramfs i with used := false } := by
  obtain ⟨-, flow, w1, hbody, rfl⟩ := run_spinLocked_eq_ok h
  simp only [StateT.run_bind, StateT.run_get, pure_bind, acquire_ramfs] at hbody
  cases hfind : ramfsFind w.ramfs path with
  | none | some =>
    rw [hfind] at hbody
    cases hbody
    rfl

theorem vfsAttach_eq_ok {ino : ℕ} {fd : ℤ} (h : (vfsAttach t ino flags).run s = .ok (fd, s')) :
    (fd < 0 ∧ s' = s ∧ ∀ t', t = some t' → freeFd s t' = none) ∨
      ∃ t' k : ℕ, t = some t' ∧ fd = k ∧ freeFd s t' = some k ∧ ∃ pos,
        s' = s.putFile t' k ⟨some ino, pos, flags, true⟩ := by
  rcases run_vfsAttach t ino flags s with ⟨hrun, hfull⟩ | ⟨t', k, ht, hfree, hrun⟩
  · grind
  · rw [hrun] at h
    cases h
    exact .inr ⟨t', k, ht, rfl, hfree, _, rfl⟩

theorem rivVfsClose_eq_ok {fd rc : ℤ} (h : (rivVfsClose t fd).run s = .ok (rc, s')) :
    s' = s ∨ ∃ t' k f, f.used = false ∧ s' = s.putFile t' k f := by
  simp only [rivVfsClose, StateT.run_bind, StateT.run_get, pure_bind] at h
  split at h
  · cases h
    exact Or.inl rfl
  · next t' k _ =>
    cases h
    exact Or.inr ⟨t', k, _, rfl, rfl⟩

/-- The entry that an open has found and not yet stored, and the file in it. -/
def OpenPc.holds : OpenPc → Option (ℕ × ℕ)
  | .attach _ ino _ file => some (ino, file)
  | _ => none

def FileRun.table (s : FileRun P Dev) : ℕ → RamfsEntry := s.vfs.world.ramfs

section Cases

variable [DecidableEq P]

/-- Everything a step can do to the entries, the descriptors and the processes. -/
inductive FileStep (s : FileRun P Dev) : FileAction P → FileRun P Dev → Prop where
  | call {p : P} {t : Option ℕ} {path : CStr} {flags : RivU32} {pc : OpenPc}
      (hpc : pc.holds = none) : FileStep s (.openFile p t path flags) (s.goto p pc)
  | found {p : P} {t : Option ℕ} {rel : CStr} {flags : RivU32} {ino : ℕ} {vfs : VfsState Dev}
      (hpc : s.pc p = .lookup t rel flags) (hfind : ramfsFind s.table rel = some ino)
      (hsame : SameFiles s.vfs vfs) :
      FileStep s (.step p) ({ s with vfs := vfs }.found p t rel flags ino)
  | missed {p : P} {pc : OpenPc} {vfs : VfsState Dev}
      (hmissed : (∃ t rel flags, s.pc p = .lookup t rel flags) ∨
        (∃ t rel flags, s.pc p = .create t rel flags) ∧ freeEntry s.table = none)
      (hpc : pc.holds = none) (hsame : SameFiles s.vfs vfs) :
      FileStep s (.step p) ({ s with vfs := vfs }.goto p pc)
  | created {p : P} {t : Option ℕ} {rel : CStr} {flags : RivU32} {ino : ℕ} {vfs : VfsState Dev}
      (hpc : s.pc p = .create t rel flags) (hfree : freeEntry s.table = some ino)
      (htable : vfs.world.ramfs = update s.table ino ((s.table ino).created rel 0))
      (hfiles : vfs.tables = s.vfs.tables) :
      FileStep s (.step p) (({ s with vfs := vfs }.create ino rel).found p t rel flags ino)
  | attached {p : P} {t : Option ℕ} {ino file : ℕ} {flags : RivU32} {fd : ℤ}
      {vfs : VfsState Dev} (hpc : s.pc p = .attach t ino flags file)
      (h : (vfsAttach t ino flags).run s.vfs = .ok (fd, vfs)) :
      FileStep s (.step p)
        (({ s with vfs := vfs }.retarget t fd file).goto p (.idle (some fd)))
  | unlinked {path : CStr} {vfs : VfsState Dev}
      (htable : vfs.world.ramfs = match ramfsFind s.table path with
        | none => s.table
        | some i => update s.table i { s.table i with used := false })
      (hfiles : vfs.tables = s.vfs.tables) :
      FileStep s (.unlink path) { s with vfs := vfs, opened := [] }
  | closed {t : Option ℕ} {fd rc : ℤ} {vfs : VfsState Dev}
      (h : (rivVfsClose t fd).run s.vfs = .ok (rc, vfs)) :
      FileStep s (.close t fd) { s with vfs := vfs }
  | other {a : FileAction P} {vfs : VfsState Dev} (hstep : ∀ p, a ≠ .step p)
      (hsame : SameFiles s.vfs vfs) : FileStep s a { s with vfs := vfs }

theorem SameFiles.of_world {s : VfsState Dev} {w : World Dev} (h : w.ramfs = s.world.ramfs) :
    SameFiles s { s with world := w } :=
  ⟨fun i => by simp only [h, and_self], fun _ _ => ⟨rfl, rfl⟩⟩

variable {s s' : FileRun P Dev}

theorem fileStep_of_stepOpen {p : P} (h : s.stepOpen p = some s') : FileStep s (.step p) s' := by
  unfold FileRun.stepOpen at h
  cases hpc : s.pc p with
  | idle ret =>
    rw [hpc] at h
    cases h
  | lookup t rel flags =>
    simp only [hpc] at h
    obtain ⟨⟨ino, vfs⟩, hafter, rfl⟩ := map_eq_some_iff.mp h
    obtain ⟨w, hrun, rfl⟩ := onWorld_eq_ok (after_eq_some_iff.mp hafter)
    obtain ⟨hfind, htable⟩ := ramfsLookup_eq_ok hrun
    cases ino with
    | some ino => exact .found hpc hfind.symm (.of_world htable)
    | none =>
      refine .missed (.inl ⟨t, rel, flags, hpc⟩) ?_ (.of_world htable)
      split <;> rfl
  | create t rel flags =>
    simp only [hpc] at h
    obtain ⟨⟨ino, vfs⟩, hafter, rfl⟩ := map_eq_some_iff.mp h
    obtain ⟨w, hrun, rfl⟩ := onWorld_eq_ok (after_eq_some_iff.mp hafter)
    obtain ⟨hino, htable⟩ := ramfsCreate_eq_ok hrun
    cases ino with
    | some ino =>
      rw [← hino] at htable
      exact .created hpc hino.symm htable rfl
    | none =>
      rw [← hino] at htable
      exact .missed (.inr ⟨⟨t, rel, flags, hpc⟩, hino.symm⟩) rfl (.of_world htable)
  | attach t ino flags file =>
    simp only [hpc] at h
    obtain ⟨⟨fd, vfs⟩, hafter, rfl⟩ := map_eq_some_iff.mp h
    exact .attached hpc (after_eq_some_iff.mp hafter)

theorem FileStep.of_keeps {a : FileAction P} {m : VfsM Dev α} (hm : Keeps SameFiles m)
    (ha : ∀ p, a ≠ .step p) (h : (after m s.vfs).map (fun r => { s with vfs := r.2 }) = some s') :
    FileStep s a s' := by
  obtain ⟨⟨r, vfs⟩, hafter, rfl⟩ := map_eq_some_iff.mp h
  exact .other ha (hm _ _ _ (after_eq_some_iff.mp hafter))

theorem FileRun.step_cases {a : FileAction P} (h : s.step a = some s') : FileStep s a s' := by
  cases a with
  | openFile p t path flags =>
    simp only [FileRun.step] at h
    split at h
    · split at h
      · cases h
        exact .call rfl
      split at h
      · cases h
      · cases h
        exact .call rfl
    · cases h
  | step p => exact fileStep_of_stepOpen h
  | unlink path =>
    obtain ⟨⟨rc, vfs⟩, hafter, rfl⟩ := map_eq_some_iff.mp h
    obtain ⟨w, hrun, rfl⟩ := onWorld_eq_ok (after_eq_some_iff.mp hafter)
    exact .unlinked (ramfsUnlink_eq_ok hrun) rfl
  | close t fd =>
    obtain ⟨⟨rc, vfs⟩, hafter, rfl⟩ := map_eq_some_iff.mp h
    exact .closed (after_eq_some_iff.mp hafter)
  | read t fd n => exact .of_keeps (keeps_rivVfsRead t fd n) nofun h
  | write t fd buf => exact .of_keeps (keeps_rivVfsWrite t fd buf) nofun h
  | lseek t fd off whence => exact .of_keeps (keeps_rivVfsLseek t fd off whence) nofun h

end Cases

end Rivet.Kernel
