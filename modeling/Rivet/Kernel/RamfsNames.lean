import Rivet.Kernel.FileRuns

/-!
# One entry for each name

An open that asks for creation looks the path up, and creates it in a second
locked section without looking again.  The name that is stored is cut to 127
characters, the one that is looked up is not.  The entries stay one for each path
exactly in the runs in which neither matters.
-/

namespace Rivet.Kernel

open CLib Runs Function

variable {rel : CStr} {i ino : ℕ} {t : Option ℕ}

variable {P Dev : Type}

def FileRun.Used (s : FileRun P Dev) (i : ℕ) : Prop := i < ramfsMaxFiles ∧ (s.table i).used = true

/-- There is at most one entry in use for a name, at most one that was created for
the same path, and the opens of a path since the last unlink have all found the
same inode. -/
structure OneEntryPerName (s : FileRun P Dev) : Prop where
  names : ∀ i j, s.Used i → s.Used j → (s.table i).name = (s.table j).name → i = j
  created : ∀ i j, s.Used i → s.Used j → s.created i = s.created j → i = j
  opened : ∀ rel i j, (rel, i) ∈ s.opened → (rel, j) ∈ s.opened → i = j

/-- A creation that finds a free entry is for a path whose first 127 characters are
the name of no entry in use. -/
def CreatesNewName (s : FileRun P Dev) : FileAction P → Prop
  | .step p =>
    match s.pc p with
    | .create _ rel _ => freeEntry s.table ≠ none → ∀ i < ramfsMaxFiles,
        (s.table i).used = true → (s.table i).name ≠ rivStrlcpy rel pathMax
    | _ => True
  | _ => True

instance (s : FileRun P Dev) (a : FileAction P) : Decidable (CreatesNewName s a) := by
  unfold CreatesNewName
  split
  · split <;> infer_instance
  · infer_instance

/-! ## The invariant -/

theorem rivStrlcpy_rivStrlcpy (s : CStr) (cap : ℕ) :
    rivStrlcpy (rivStrlcpy s cap) cap = rivStrlcpy s cap := by
  rw [rivStrlcpy, rivStrlcpy, List.take_take, min_self]

/-- The name of an entry is what fits of its path, and no other entry has it; what
an open has found is in use, under what fits of the path that was opened. -/
structure NamesOk (s : FileRun P Dev) : Prop where
  cut : ∀ i, s.Used i → (s.table i).name = rivStrlcpy (s.created i) pathMax
  names : ∀ i j, s.Used i → s.Used j → (s.table i).name = (s.table j).name → i = j
  opened : ∀ rel i, (rel, i) ∈ s.opened → s.Used i ∧ (s.table i).name = rivStrlcpy rel pathMax

variable {s s' : FileRun P Dev} {v v' vfs : VfsState Dev}

theorem ramfsFind_used (h : ramfsFind s.table rel = some i) :
    s.Used i ∧ (s.table i).name = rel := by
  obtain ⟨hlt, hp⟩ := firstIdx_eq_some h
  rw [Bool.and_eq_true, decide_eq_true_eq] at hp
  exact ⟨⟨hlt, hp.1⟩, hp.2⟩

theorem freeEntry_eq_some (h : freeEntry s.table = some i) : i < ramfsMaxFiles ∧ ¬s.Used i := by
  obtain ⟨hlt, hp⟩ := firstIdx_eq_some h
  refine ⟨hlt, fun hused => ?_⟩
  rw [hused.2] at hp
  cases hp

theorem NamesOk.oneEntryPerName (h : NamesOk s) : OneEntryPerName s where
  names := h.names
  created i j hi hj heq := by
    apply h.names i j hi hj
    rw [h.cut i hi, h.cut j hj, heq]
  opened rel i j hi hj := by
    obtain ⟨hui, hni⟩ := h.opened rel i hi
    obtain ⟨huj, hnj⟩ := h.opened rel j hj
    exact h.names i j hui huj (hni.trans hnj.symm)

theorem namesOk_start (w : World Dev) : NamesOk (FileRun.start w : FileRun P Dev) := by
  have hnone : ∀ i, ¬(FileRun.start w : FileRun P Dev).Used i := by
    rintro i ⟨hlt, hused⟩
    simp_all [FileRun.table, FileRun.start, rivRamfsInit]
  exact ⟨fun i hi => absurd hi (hnone i), fun i _ hi => absurd hi (hnone i),
    fun _ _ hmem => absurd hmem List.not_mem_nil⟩

/-! ## The steps -/

theorem NamesOk.of_same (h : NamesOk s)
    (htable : ∀ i, (s'.table i).used = (s.table i).used ∧ (s'.table i).name = (s.table i).name)
    (hcreated : s'.created = s.created) (hopened : s'.opened = s.opened) : NamesOk s' := by
  have hused : ∀ i, s'.Used i ↔ s.Used i := fun i => by
    rw [FileRun.Used, FileRun.Used, (htable i).1]
  refine ⟨fun i hi => ?_, fun i j hi hj hij => ?_, fun rel i hi => ?_⟩
  · rw [(htable i).2, hcreated]
    exact h.cut i ((hused i).mp hi)
  · rw [(htable i).2, (htable j).2] at hij
    exact h.names i j ((hused i).mp hi) ((hused j).mp hj) hij
  · obtain ⟨hui, hni⟩ := h.opened rel i (hopened ▸ hi)
    exact ⟨(hused i).mpr hui, (htable i).2.trans hni⟩

theorem NamesOk.found_step [DecidableEq P] (h : NamesOk s) {p : P} {flags : RivU32}
    (hused : s.Used ino) (hname : (s.table ino).name = rivStrlcpy rel pathMax) :
    NamesOk (s.found p t rel flags ino) := by
  refine ⟨h.cut, h.names, fun rel' i hi => ?_⟩
  rcases List.mem_cons.mp hi with heq | hi
  · cases heq
    exact ⟨hused, hname⟩
  · exact h.opened rel' i hi

/-- The table after a creation. -/
structure Created (s s' : FileRun P Dev) (ino : ℕ) (rel : CStr) : Prop where
  unused : ¬s.Used ino
  used : s'.Used ino
  name : (s'.table ino).name = rivStrlcpy rel pathMax
  path : s'.created ino = rel
  others : ∀ i, i ≠ ino → s'.table i = s.table i ∧ s'.created i = s.created i
  opened : s'.opened = s.opened

theorem created_create (hfree : freeEntry s.table = some ino)
    (htable : vfs.world.ramfs = update s.table ino ((s.table ino).created rel 0)) :
    Created s ({ s with vfs := vfs }.create ino rel) ino rel := by
  obtain ⟨hlt, hunused⟩ := freeEntry_eq_some hfree
  have hino : vfs.world.ramfs ino = (s.table ino).created rel 0 := by
    rw [htable, update_self]
  refine ⟨hunused, ⟨hlt, ?_⟩, ?_, update_self .., fun i hi => ⟨?_, ?_⟩, rfl⟩
  · exact congrArg RamfsEntry.used hino
  · exact congrArg RamfsEntry.name hino
  · exact (congrFun htable i).trans (update_of_ne hi ..)
  · exact update_of_ne hi ..

theorem Created.used_iff (h : Created s s' ino rel) (hi : i ≠ ino) : s'.Used i ↔ s.Used i := by
  rw [FileRun.Used, FileRun.Used, (h.others i hi).1]

theorem NamesOk.create_step (h : NamesOk s) (hnew : Created s s' ino rel)
    (hname : ∀ i, s.Used i → (s.table i).name ≠ rivStrlcpy rel pathMax) : NamesOk s' := by
  refine ⟨fun i hi => ?_, fun i j hi hj hij => ?_, fun rel' i hi => ?_⟩
  · by_cases hine : i = ino
    · rw [hine, hnew.name, hnew.path]
    · rw [(hnew.others i hine).1, (hnew.others i hine).2]
      exact h.cut i ((hnew.used_iff hine).mp hi)
  · by_cases hine : i = ino
    · by_cases hjne : j = ino
      · rw [hine, hjne]
      · rw [hine, hnew.name, (hnew.others j hjne).1] at hij
        exact absurd hij.symm (hname j ((hnew.used_iff hjne).mp hj))
    · by_cases hjne : j = ino
      · rw [hjne, hnew.name, (hnew.others i hine).1] at hij
        exact absurd hij (hname i ((hnew.used_iff hine).mp hi))
      · rw [(hnew.others i hine).1, (hnew.others j hjne).1] at hij
        exact h.names i j ((hnew.used_iff hine).mp hi) ((hnew.used_iff hjne).mp hj) hij
  · obtain ⟨hui, hni⟩ := h.opened rel' i (hnew.opened ▸ hi)
    -- what was opened before is in use, the new entry was not
    have hne : i ≠ ino := fun heq => hnew.unused (heq ▸ hui)
    exact ⟨(hnew.used_iff hne).mpr hui, by rw [(hnew.others i hne).1, hni]⟩

theorem NamesOk.unlink_step (h : NamesOk s) {path : CStr}
    (htable : vfs.world.ramfs = match ramfsFind s.table path with
      | none => s.table
      | some i => update s.table i { s.table i with used := false }) :
    NamesOk { s with vfs := vfs, opened := [] } := by
  have hsub : ∀ i, (vfs.world.ramfs i).name = (s.table i).name ∧
      ((vfs.world.ramfs i).used = true → (s.table i).used = true) := by
    intro i
    rw [htable]
    split
    · exact ⟨rfl, id⟩
    · next k _ =>
      by_cases hi : i = k
      all_goals simp_all
  refine ⟨fun i hi => ?_, fun i j hi hj hij => ?_, nofun⟩
  · exact (hsub i).1.trans (h.cut i ⟨hi.1, (hsub i).2 hi.2⟩)
  · refine h.names i j ⟨hi.1, (hsub i).2 hi.2⟩ ⟨hj.1, (hsub j).2 hj.2⟩ ?_
    exact (hsub i).1.symm.trans (hij.trans (hsub j).1)

theorem vfsAttach_world {flags : RivU32} {fd : ℤ} (h : (vfsAttach t ino flags).run v = .ok (fd, v'))
    : v'.world = v.world := by
  rcases vfsAttach_eq_ok h with ⟨-, rfl, -⟩ | ⟨t', k, -, -, -, pos, rfl⟩ <;> rfl

theorem rivVfsClose_world {fd rc : ℤ} (h : (rivVfsClose t fd).run v = .ok (rc, v')) :
    v'.world = v.world := by rcases rivVfsClose_eq_ok h with rfl | ⟨t', k, f, -, rfl⟩ <;> rfl

section Runs

variable [DecidableEq P] {s s' : FileRun P Dev} {a : FileAction P}

theorem NamesOk.step (h : NamesOk s) (hok : CreatesNewName s a) (hstep : s.step a = some s') :
    NamesOk s' := by
  cases FileRun.step_cases hstep with
  | call hpc => exact h.of_same (fun _ => ⟨rfl, rfl⟩) rfl rfl
  | @found p t rel flags ino vfs hpc hfind hsame =>
    obtain ⟨hused, hname⟩ := ramfsFind_used hfind
    have hvfs : NamesOk { s with vfs := vfs } := h.of_same hsame.entries rfl rfl
    refine hvfs.found_step ⟨hused.1, (hsame.entries ino).1.trans hused.2⟩ ?_
    -- the path is the name of an entry, so that it fits
    rw [← hname, h.cut ino hused, rivStrlcpy_rivStrlcpy, ← h.cut ino hused]
    exact (hsame.entries ino).2
  | missed _ _ hsame | other _ hsame => exact h.of_same hsame.entries rfl rfl
  | created hpc hfree htable hfiles =>
    have hnew := created_create hfree htable
    simp only [CreatesNewName, hpc, hfree] at hok
    have hname := hok (Option.some_ne_none _)
    exact (h.create_step hnew fun i hi => hname i hi.1 hi.2).found_step hnew.used hnew.name
  | @attached p t ino file flags fd vfs hpc hrun =>
    obtain ⟨hcreated, hopened, hvfs⟩ := retarget_eq { s with vfs := vfs } t fd file
    refine h.of_same (fun i => ?_) hcreated hopened
    have hworld := vfsAttach_world hrun
    simp only [FileRun.table, FileRun.goto, hvfs, hworld, and_self]
  | unlinked htable hfiles => exact h.unlink_step htable
  | closed hrun => simp [FileRun.table, rivVfsClose_world hrun, and_self, h.of_same]

theorem not_oneEntryPerName_of_create (hok : ¬CreatesNewName s a)
    (hstep : s.step a = some s') : ¬OneEntryPerName s' := by
  intro hone
  cases FileRun.step_cases hstep with
  | @created p t rel flags ino vfs hpc hfree htable hfiles =>
    have hnew := created_create hfree htable
    simp only [CreatesNewName, hpc, hfree] at hok
    apply hok
    intro _ i hlt hused hname
    have hne : i ≠ ino := fun heq => hnew.unused (heq ▸ ⟨hlt, hused⟩)
    have hi := (hnew.used_iff hne).mpr ⟨hlt, hused⟩
    refine hne (hone.names i ino hi hnew.used ?_)
    exact (congrArg RamfsEntry.name (hnew.others i hne).1).trans (hname.trans hnew.name.symm)
  | found hpc | attached hpc => simp_all [CreatesNewName]
  | missed hmissed hpc hsame => grind [CreatesNewName]
  | call | unlinked | closed => exact hok trivial
  | other hno hsame =>
    cases a with
    | step p => exact hno p rfl
    | _ => exact hok trivial

/-- Along a run, there is at most one entry for each name exactly when no creation
is for a path whose first 127 characters are the name of an entry in use. -/
theorem ramfs_oneEntryPerName_iff (w : World Dev) {as : List (FileAction P)}
    (hrun : exec FileRun.step (FileRun.start w) as = some s) :
    Always FileRun.step OneEntryPerName (FileRun.start w) as ↔
      Meets FileRun.step CreatesNewName (FileRun.start w) as := by
  constructor
  · intro h
    exact meets_of_always (fun _ _ _ _ => not_oneEntryPerName_of_create) h hrun
  · intro h
    exact always_of_meets (fun _ _ _ => NamesOk.step) (fun _ => NamesOk.oneEntryPerName)
      (namesOk_start w) h

end Runs

/-- Two processes open a path, the second one after the first has created it. -/
def opensInTurn (path : CStr) : List (FileAction Bool) :=
  [.openFile false (some 0) path oCreate, .step false, .step false, .step false,
    .openFile true (some 1) path oCreate, .step true, .step true]

/-- Two processes open a path, and both look it up before it is created. -/
def opensAtOnce (path : CStr) : List (FileAction Bool) :=
  [.openFile false (some 0) path oCreate, .openFile true (some 1) path oCreate,
    .step false, .step true, .step false, .step true, .step false, .step true]

theorem ramfs_oneEntryPerName_iff_inTurn :
    ∃ s, exec FileRun.step (FileRun.start rootWorld) (opensInTurn "/a".toList) = some s ∧
      s.opened = [("a".toList, 0), ("a".toList, 0)] ∧
      Always FileRun.step OneEntryPerName (FileRun.start rootWorld) (opensInTurn "/a".toList) := by
  have hrun : (exec FileRun.step (FileRun.start rootWorld) (opensInTurn "/a".toList)).map
      FileRun.opened = some [("a".toList, 0), ("a".toList, 0)] := by decide
  have hok : Meets FileRun.step CreatesNewName (FileRun.start rootWorld)
      (opensInTurn "/a".toList) := by decide
  obtain ⟨s, hs, hopened⟩ := Option.map_eq_some_iff.mp hrun
  exact ⟨s, hs, hopened, (ramfs_oneEntryPerName_iff rootWorld hs).mpr hok⟩

/-- The first two entries are in use for the same path, and two descriptors refer to
one of them each. -/
def FileRun.SplitName (s : FileRun P Dev) : Prop :=
  (s.Used 0 ∧ s.Used 1 ∧ s.created 0 = s.created 1) ∧
    (s.vfs.tables 0 0).ino = some 0 ∧ (s.vfs.tables 1 0).ino = some 1

instance (s : FileRun P Dev) : Decidable s.SplitName :=
  inferInstanceAs (Decidable (((_ ∧ _) ∧ (_ ∧ _) ∧ _) ∧ _ ∧ _))

theorem FileRun.SplitName.not_oneEntryPerName (h : s.SplitName) : ¬OneEntryPerName s := by
  intro hone
  obtain ⟨⟨h0, h1, heq⟩, -⟩ := h
  exact absurd (hone.created 0 1 h0 h1 heq) (by decide)

def longPath : CStr := '/' :: List.replicate 130 'x'

/-- Two opens at once create an entry each; so do two opens one after the other of a
path that is too long. -/
theorem ramfs_name_split :
    (∃ s, exec FileRun.step (FileRun.start rootWorld) (opensAtOnce "/a".toList) = some s ∧
      s.SplitName ∧ ¬OneEntryPerName s) ∧
    ∃ s, exec FileRun.step (FileRun.start rootWorld) (opensInTurn longPath ++ [.step true]) =
      some s ∧ s.SplitName ∧ ¬OneEntryPerName s := by
  have hrun₁ : (exec FileRun.step (FileRun.start rootWorld) (opensAtOnce "/a".toList)).any
      (fun s => decide s.SplitName) = true := by decide
  have hrun₂ : (exec FileRun.step (FileRun.start rootWorld)
      (opensInTurn longPath ++ [.step true])).any (fun s => decide s.SplitName) = true := by
    decide +kernel
  obtain ⟨s₁, hs₁, h₁⟩ := (Option.any_eq_true _ _).mp hrun₁
  obtain ⟨s₂, hs₂, h₂⟩ := (Option.any_eq_true _ _).mp hrun₂
  have hsplit₁ := of_decide_eq_true h₁
  have hsplit₂ := of_decide_eq_true h₂
  exact ⟨⟨s₁, hs₁, hsplit₁, hsplit₁.not_oneEntryPerName⟩,
    ⟨s₂, hs₂, hsplit₂, hsplit₂.not_oneEntryPerName⟩⟩

end Rivet.Kernel
