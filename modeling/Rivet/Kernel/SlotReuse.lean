import Rivet.Kernel.FileRuns

/-!
# Descriptors across `unlink`

A descriptor refers to an entry of the table of `riv_ramfs`, and nothing ties the
entry to the descriptors that refer to it: once the file has been unlinked, the
next creation may take the entry.  A descriptor keeps to the file it was opened on
exactly in the runs in which no entry is taken that is still referred to.
-/

namespace Rivet.Kernel

open CLib Runs Program Function

variable {ino : ℕ} {r : ℤ} {n : RivU32}

variable {P Dev : Type}

/-- The entry that a descriptor refers to holds the file it was opened on. -/
def Isolated (s : FileRun P Dev) : Prop :=
  ∀ t fd i, (s.vfs.tables t fd).used = true → (s.vfs.tables t fd).ino = some i →
    s.file i = s.target t fd

/-- A creation takes no entry that a descriptor in use refers to, and an inode that
is stored in a descriptor has not been taken for another file since it was found. -/
def TakesUnreferred (s : FileRun P Dev) : FileAction P → Prop
  | .step p =>
    match s.pc p with
    | .create _ _ _ => ∀ i, freeEntry s.table = some i → ∀ t fd,
        (s.vfs.tables t fd).used = true → (s.vfs.tables t fd).ino ≠ some i
    | .attach t ino _ file => ∀ t', t = some t' → freeFd s.vfs t' ≠ none → s.file ino = file
    | _ => True
  | _ => True

/-! ## What goes through a descriptor -/

section Access

variable {s : FileRun P Dev} {vfs : VfsState Dev} {t : Option ℕ} {fd : ℤ}

theorem fileInode_eq_ok {f : RivFile} {v : VfsState Dev}
    (h : (fileInode f).run v = .ok (ino, vfs)) : f.ino = some ino ∧ vfs = v := by
  unfold fileInode at h
  split at h
  · cases h
  · next i hi =>
    cases h
    exact ⟨hi, rfl⟩

theorem advance_world {t fd : ℕ} {u : Unit} {v : VfsState Dev}
    (h : (advance t fd r).run v = .ok (u, vfs)) : vfs.world = v.world := by
  unfold advance at h
  split at h
  · cases h
    rfl
  · cases h
    rfl

theorem ramfsRead_eq_ok {w w' : World Dev} {off : RivU32} {bytes : List RivU8}
    (h : (ramfsRead ino off n).run w = .ok ((r, bytes), w')) :
    ∃ k, bytes = (List.range k).map fun j => (w.ramfs ino).data (off.toNat + j) := by
  simp only [ramfsRead, StateT.run_bind, StateT.run_get, pure_bind] at h
  split at h
  · cases h
    exact ⟨0, rfl⟩
  generalize (if (w.ramfs ino).size - off < n then (w.ramfs ino).size - off else n) = k at h
  split at h
  · cases h
  · cases h
    exact ⟨k.toNat, rfl⟩

theorem ramfsWrite_others {w w' : World Dev} {off : RivU32} {buf : List RivU8}
    (h : (ramfsWrite ino off n buf).run w = .ok (r, w')) {j : ℕ} (hj : j ≠ ino) :
    w'.ramfs j = w.ramfs j := by
  have hstore : ∀ k, (ramfsStore ino off k buf).run w = .ok (r, w') → w'.ramfs j = w.ramfs j := by
    intro k hk
    unfold ramfsStore at hk
    split at hk
    · cases hk
    · cases hk
      exact update_of_ne hj ..
  unfold ramfsWrite at h
  dsimp only at h
  split at h
  · split at h
    · cases h
      rfl
    · exact hstore _ h
  · exact hstore _ h

theorem Isolated.fileAt (hs : Isolated s) {t' fd' : ℕ} (h : s.vfs.fileAt t fd = some (t', fd'))
    (hino : (s.vfs.tables t' fd').ino = some ino) : s.file ino = s.target t' fd' :=
  hs t' fd' ino (VfsState.fileAt_eq_some h) hino

theorem Isolated.read (hs : Isolated s) {bytes : List RivU8}
    (h : (rivVfsRead t fd n).run s.vfs = .ok ((r, bytes), vfs)) (hbytes : bytes ≠ []) :
    ∃ t' fd' ino k, s.vfs.fileAt t fd = some (t', fd') ∧ s.file ino = s.target t' fd' ∧
      bytes = (List.range k).map fun j =>
        (s.table ino).data ((s.vfs.tables t' fd').pos.toNat + j) := by
  simp only [rivVfsRead, StateT.run_bind, StateT.run_get, pure_bind] at h
  split at h
  · cases h
    exact absurd rfl hbytes
  next t' fd' hat =>
  obtain ⟨⟨ino, v1⟩, hinode, h⟩ := Exec.of_bind_eq_ok h
  obtain ⟨hino, rfl⟩ := fileInode_eq_ok hinode
  obtain ⟨⟨⟨r', bytes'⟩, v2⟩, hworld, h⟩ := Exec.of_bind_eq_ok h
  obtain ⟨w, hread, rfl⟩ := onWorld_eq_ok hworld
  obtain ⟨⟨u, v3⟩, -, h⟩ := Exec.of_bind_eq_ok h
  cases h
  obtain ⟨k, hk⟩ := ramfsRead_eq_ok hread
  exact ⟨t', fd', ino, k, hat, hs.fileAt hat hino, hk⟩

theorem Isolated.write (hs : Isolated s) {buf : List RivU8}
    (h : (rivVfsWrite t fd buf).run s.vfs = .ok (r, vfs)) {j : ℕ}
    (hj : vfs.world.ramfs j ≠ s.table j) :
    ∃ t' fd', s.vfs.fileAt t fd = some (t', fd') ∧ s.file j = s.target t' fd' := by
  simp only [rivVfsWrite, StateT.run_bind, StateT.run_get, pure_bind] at h
  split at h
  · cases h
    exact absurd rfl hj
  next t' fd' hat =>
  obtain ⟨⟨ino, v1⟩, hinode, h⟩ := Exec.of_bind_eq_ok h
  obtain ⟨hino, rfl⟩ := fileInode_eq_ok hinode
  obtain ⟨⟨r', v2⟩, hworld, h⟩ := Exec.of_bind_eq_ok h
  obtain ⟨w, hwrite, rfl⟩ := onWorld_eq_ok hworld
  obtain ⟨⟨u, v3⟩, hadvance, h⟩ := Exec.of_bind_eq_ok h
  cases h
  by_cases hne : j = ino
  · exact ⟨t', fd', hat, hne ▸ hs.fileAt hat hino⟩
  · refine absurd ?_ hj
    rw [advance_world hadvance]
    exact ramfsWrite_others hwrite hne

end Access

/-! ## The steps -/

section Runs

variable {s s' : FileRun P Dev} {a : FileAction P}

theorem Isolated.of_same (h : Isolated s)
    (htables : ∀ t fd, (s'.vfs.tables t fd).used = (s.vfs.tables t fd).used ∧
      (s'.vfs.tables t fd).ino = (s.vfs.tables t fd).ino)
    (hfile : s'.file = s.file) (htarget : s'.target = s.target) : Isolated s' := by
  intro t fd i hused hino
  rw [(htables t fd).1] at hused
  rw [(htables t fd).2] at hino
  rw [hfile, htarget]
  exact h t fd i hused hino

theorem Isolated.create_step (h : Isolated s) {rel : CStr} {vfs : VfsState Dev}
    (htables : vfs.tables = s.vfs.tables)
    (hno : ∀ t fd, (s.vfs.tables t fd).used = true → (s.vfs.tables t fd).ino ≠ some ino) :
    Isolated ({ s with vfs := vfs }.create ino rel) := by
  intro t fd i hused hino
  change (vfs.tables t fd).used = true at hused
  change (vfs.tables t fd).ino = some i at hino
  rw [htables] at hused hino
  have hne : i ≠ ino := fun heq => hno t fd hused (heq ▸ hino)
  exact (update_of_ne hne ..).trans (h t fd i hused hino)

theorem target_retarget_self (s : FileRun P Dev) (t k file : ℕ) :
    (s.retarget (some t) (k : ℤ) file).target t k = file := by
  have hnonneg : ¬(k : ℤ) < 0 := by omega
  simp only [FileRun.retarget, if_neg hnonneg, Int.toNat_natCast, update_self]

theorem target_retarget_of_ne (s : FileRun P Dev) {t k t' k' : ℕ} (file : ℕ)
    (hne : ¬(t' = t ∧ k' = k)) :
    (s.retarget (some t) (k : ℤ) file).target t' k' = s.target t' k' := by
  have hnonneg : ¬(k : ℤ) < 0 := by omega
  simp only [FileRun.retarget, if_neg hnonneg, Int.toNat_natCast]
  by_cases ht : t' = t
  all_goals simp_all

theorem retarget_file (s : FileRun P Dev) (t : Option ℕ) (fd : ℤ) (file : ℕ) :
    (s.retarget t fd file).file = s.file := by
  unfold FileRun.retarget
  split
  · rfl
  · split <;> rfl

theorem retarget_of_neg (s : FileRun P Dev) (t : Option ℕ) {fd : ℤ} (hfd : fd < 0) (file : ℕ) :
    s.retarget t fd file = s := by
  unfold FileRun.retarget
  split
  · rfl
  · rw [if_pos hfd]

theorem Isolated.attach_step (h : Isolated s) {t k file : ℕ} {pos flags : RivU32}
    (hfree : freeFd s.vfs t = some k) (hfile : s.file ino = file) :
    Isolated ({ s with vfs := s.vfs.putFile t k ⟨some ino, pos, flags, true⟩ }.retarget
      (some t) (k : ℤ) file) := by
  intro t' fd' i hused hino
  revert hused hino
  refine forall_putFile (P := fun t' fd' f => f.used = true → f.ino = some i →
    s.file i = (({ s with vfs := s.vfs.putFile t k ⟨some ino, pos, flags, true⟩ }.retarget
      (some t) (k : ℤ) file).target t' fd')) ?_ ?_ t' fd'
  · grind [target_retarget_self]
  intro t' fd' hused hino
  rw [target_retarget_of_ne]
  · exact h t' fd' i hused hino
  -- the descriptor was free
  rintro ⟨rfl, rfl⟩
  have hunused := (firstIdx_eq_some hfree).2
  rw [hused] at hunused
  cases hunused

variable [DecidableEq P]

theorem Isolated.step (h : Isolated s) (hok : TakesUnreferred s a) (hstep : s.step a = some s') :
    Isolated s' := by
  cases FileRun.step_cases hstep with
  | call hpc => exact h.of_same (fun _ _ => ⟨rfl, rfl⟩) rfl rfl
  | found _ _ hsame | missed _ _ hsame | other _ hsame => exact h.of_same hsame.descriptors rfl rfl
  | @created p t rel flags ino vfs hpc hfree htable hfiles =>
    simp only [TakesUnreferred, hpc] at hok
    have hcreated : Isolated ({ s with vfs := vfs }.create ino rel) :=
      h.create_step hfiles (hok ino hfree)
    exact hcreated.of_same (fun _ _ => ⟨rfl, rfl⟩) rfl rfl
  | @attached p t ino file flags fd vfs hpc hrun =>
    rcases vfsAttach_eq_ok hrun with ⟨hneg, rfl, -⟩ | ⟨t', k, rfl, rfl, hfree, pos, rfl⟩
    · rw [retarget_of_neg _ _ hneg]
      exact h.of_same (fun _ _ => ⟨rfl, rfl⟩) rfl rfl
    · simp only [TakesUnreferred, hpc] at hok
      have hfile := hok t' rfl (by rw [hfree]; exact Option.some_ne_none _)
      exact (h.attach_step hfree hfile).of_same (fun _ _ => ⟨rfl, rfl⟩) rfl rfl
  | unlinked htable hfiles => exact h.of_same (fun t fd => by simp only [hfiles, and_self]) rfl rfl
  | closed hrun =>
    rcases rivVfsClose_eq_ok hrun with rfl | ⟨t', k, f, hunused, rfl⟩
    · exact h
    intro t fd i hused hino
    revert hused hino
    refine forall_putFile (P := fun t fd f => f.used = true → f.ino = some i →
      s.file i = s.target t fd) ?_ (fun t fd => h t fd i) t fd
    grind

theorem not_isolated_of_taken (h : Isolated s) (hok : ¬TakesUnreferred s a)
    (hstep : s.step a = some s') : ¬Isolated s' := by
  intro h'
  apply hok
  cases FileRun.step_cases hstep with
  | @created p t rel flags ino vfs hpc hfree htable hfiles =>
    simp only [TakesUnreferred, hpc]
    intro i hi t' fd' hused hino
    obtain rfl : ino = i := Option.some.inj (hfree.symm.trans hi)
    have hbefore := h t' fd' ino hused hino
    rw [← hfiles] at hused hino
    have hafter : update s.file ino (s.file ino + 1) ino = s.target t' fd' :=
      h' t' fd' ino hused hino
    rw [update_self] at hafter
    omega
  | @attached p t ino file flags fd vfs hpc hrun =>
    simp only [TakesUnreferred, hpc]
    intro t' ht hroom
    rcases vfsAttach_eq_ok hrun with ⟨-, -, hfull⟩ | ⟨t1, k, rfl, rfl, hfree, pos, rfl⟩
    · exact absurd (hfull t' ht) hroom
    cases ht
    have hvfs := (retarget_eq { s with vfs := s.vfs.putFile t' k ⟨some ino, pos, flags, true⟩ }
      (some t') (k : ℤ) file).2.2
    have hput : ((({ s with vfs := s.vfs.putFile t' k ⟨some ino, pos, flags, true⟩ }.retarget
        (some t') (k : ℤ) file).goto p (.idle (some (k : ℤ)))).vfs.tables t' k) =
        ⟨some ino, pos, flags, true⟩ := by
      simp only [FileRun.goto, hvfs, putFile_tables_self]
    have hafter := h' t' k ino (congrArg RivFile.used hput) (congrArg RivFile.ino hput)
    simp_all [FileRun.goto, retarget_file, target_retarget_self]
  | found hpc hfind hsame => simp only [TakesUnreferred, hpc]
  | missed hmissed hpc hsame => grind [TakesUnreferred]
  | call hpc => trivial
  | unlinked htable hfiles => trivial
  | closed hrun => trivial
  | other hno hsame =>
    cases a with
    | step p => exact absurd rfl (hno p)
    | _ => trivial

/-- Along a run, every descriptor keeps to the file it was opened on exactly when no
entry is taken for another file while a descriptor, or an open that has found it,
still refers to it. -/
theorem descriptors_isolated_iff (w : World Dev) {as : List (FileAction P)}
    (hrun : exec FileRun.step (FileRun.start w) as = some s) :
    Always FileRun.step Isolated (FileRun.start w) as ↔
      Meets FileRun.step TakesUnreferred (FileRun.start w) as := by
  have hstart : Isolated (FileRun.start w : FileRun P Dev) := nofun
  constructor
  · intro h
    exact meets_of_always (fun _ _ _ => not_isolated_of_taken) h hrun
  · intro h
    exact always_of_meets (fun _ _ _ => Isolated.step) (fun _ => id) hstart h

end Runs

def createAndWrite (p : Bool) (t : ℕ) (path : CStr) (buf : List RivU8) : List (FileAction Bool) :=
  [.openFile p (some t) path oCreate, .step p, .step p, .step p, .write (some t) 0 buf]

theorem descriptors_isolated_iff_written :
    ∃ s, exec FileRun.step (FileRun.start rootWorld) (createAndWrite false 0 "/a".toList [0x61]) =
      some s ∧ Always FileRun.step Isolated (FileRun.start rootWorld)
        (createAndWrite false 0 "/a".toList [0x61]) := by
  have hsome : (exec FileRun.step (FileRun.start rootWorld)
      (createAndWrite false 0 "/a".toList [0x61])).isSome = true := by decide
  obtain ⟨s, hs⟩ := Option.isSome_iff_exists.mp hsome
  refine ⟨s, hs, (descriptors_isolated_iff rootWorld hs).mpr ?_⟩
  refine ⟨trivial, fun s₁ h₁ => ?_⟩
  obtain rfl := Option.some.inj h₁
  refine ⟨trivial, fun s₂ h₂ => ?_⟩
  obtain rfl := Option.some.inj h₂
  -- no descriptor is in use when the entry is taken
  refine ⟨fun _ _ _ _ hused => (nomatch hused), fun s₃ h₃ => ?_⟩
  obtain rfl := Option.some.inj h₃
  exact ⟨fun _ _ _ => rfl, fun _ _ => ⟨trivial, fun _ _ => trivial⟩⟩

/-- The file "a" is unlinked while it is open, "b" takes its entry, and the
descriptor of "a" reads what was written to "b". -/
theorem old_descriptor_reads_new_file : ∃ s, exec FileRun.step (FileRun.start rootWorld)
      (createAndWrite false 0 "/a".toList [0x61] ++ .unlink "a".toList ::
        createAndWrite true 1 "/b".toList [0x62, 0x63]) = some s ∧ ¬Isolated s ∧
      ((rivVfsRead (some 0) 0 8).run s.vfs).toOption.map Prod.fst = some (1, [0x63]) := by
  have hrun : (exec FileRun.step (FileRun.start rootWorld)
      (createAndWrite false 0 "/a".toList [0x61] ++ .unlink "a".toList ::
        createAndWrite true 1 "/b".toList [0x62, 0x63])).any (fun s =>
        (s.vfs.tables 0 0).used && ((s.vfs.tables 0 0).ino == some 0) &&
        (s.file 0 != s.target 0 0) &&
        (((rivVfsRead (some 0) 0 8).run s.vfs).toOption.map Prod.fst ==
          some (1, [0x63]))) = true := by decide
  obtain ⟨s, hs, h⟩ := (Option.any_eq_true _ _).mp hrun
  simp only [Bool.and_eq_true, beq_iff_eq, bne_iff_ne] at h
  obtain ⟨⟨⟨hused, hino⟩, hfile⟩, hread⟩ := h
  exact ⟨s, hs, fun hs => hfile (hs 0 0 0 hused hino), hread⟩

end Rivet.Kernel
