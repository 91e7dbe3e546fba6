import Mathlib.Tactic
import Rivet.Kernel.FileRuns

/-!
# The storage of the memory file system

Runs of `_ramfs_create`, `_ramfs_write`, `_ramfs_read` and `_ramfs_unlink` on any inode
and at any position, as the descriptors of `vfs.h` ask for them.  A file lives in its
entry from its creation until the entry is taken again, and a run carries the writes
made to it since then.  Nothing clears the array of an entry, and nothing keeps the end
of a write from passing `2 ^ 32`.
-/

namespace Rivet.Kernel

open CLib WriteLog Runs Program Function Option

variable {Dev : Type}

/-! ## Runs -/

inductive RamfsAction where
  | create (path : CStr) (mode : RivU32)
  | write (ino : ℕ) (off : RivU32) (buf : List RivU8)
  | read (ino : ℕ) (off n : RivU32)
  | unlink (path : CStr)

/-- The file system, and the writes to the file in each entry since its creation. -/
structure RamfsRun (Dev : Type) where
  world : World Dev
  writes : ℕ → Option (List (Write RivU8))

def RamfsRun.entry (s : RamfsRun Dev) (ino : ℕ) : RamfsEntry := s.world.ramfs ino

def RamfsRun.step (s : RamfsRun Dev) : RamfsAction → Option (RamfsRun Dev)
  | .create path mode =>
    ((ramfsCreate path mode).run s.world).toOption.map fun r =>
      { world := r.2
        writes := match r.1 with
          | none => s.writes
          | some ino => update s.writes ino (some []) }
  | .write ino off buf =>
    ((ramfsWrite ino off (BitVec.ofNat 32 buf.length) buf).run s.world).toOption.map fun r =>
      { world := r.2
        writes :=
          if (r.1 : ℤ) < 0 then s.writes
          else update s.writes ino
            ((s.writes ino).map fun log => ⟨off.toNat, buf.take r.1.toNat⟩ :: log) }
  | .read ino off n =>
    ((ramfsRead ino off n).run s.world).toOption.map fun r => { s with world := r.2 }
  | .unlink path =>
    ((ramfsUnlink path).run s.world).toOption.map fun r => { s with world := r.2 }

/-- The file system after `riv_ramfs_init`. -/
def RamfsRun.start (w : World Dev) : RamfsRun Dev where
  world := rivRamfsInit w
  writes _ := none

/-! ## The properties -/

/-- What a read returns where no write to the file has been made is zero. -/
def HolesReadZero (s : RamfsRun Dev) : Prop :=
  ∀ ino log, s.writes ino = some log → ∀ off n r bytes w,
    (ramfsRead ino off n).run s.world = .ok ((r, bytes), w) →
      ∀ k b, bytes[k]? = some b → latest log (off.toNat + k) = none → b = 0

/-- A write that is not refused and begins behind the end of a file finds zeros in the
array up to its beginning. -/
def SkipsZeros (s : RamfsRun Dev) : RamfsAction → Prop
  | .write ino off buf =>
    s.writes ino ≠ none →
      off.toNat < ramfsMaxData ∨ (off + BitVec.ofNat 32 buf.length).toNat ≤ ramfsMaxData →
        ∀ pos, (s.entry ino).size.toNat ≤ pos → pos < off.toNat → (s.entry ino).data pos = 0
  | _ => True

/-- A write of `buf` and a read of as many bytes at one position stay inside the file. -/
structure AccessInside (s : RamfsRun Dev) (ino : ℕ) (off : RivU32) (buf : List RivU8) : Prop where
  /-- The write returns; it changes bytes of the array of its own file, and nothing at all
  at a position behind the array, where it returns `-1`. -/
  write : ∃ r w, (ramfsWrite ino off (BitVec.ofNat 32 buf.length) buf).run s.world = .ok (r, w) ∧
    (∀ j ≠ ino, w.ramfs j = s.entry j) ∧
    (∀ k, ramfsMaxData ≤ k → (w.ramfs ino).data k = (s.entry ino).data k) ∧
    (ramfsMaxData ≤ off.toNat → r = -1 ∧ w = s.world)
  /-- The read returns bytes below the size. -/
  read : ∃ (r : ℤ) (bytes : List RivU8),
    (ramfsRead ino off (BitVec.ofNat 32 buf.length)).run s.world = .ok ((r, bytes), s.world) ∧
    ∀ k < bytes.length, off.toNat + k < (s.entry ino).size.toNat ∧
      bytes[k]? = some ((s.entry ino).data (off.toNat + k))

/-- The end of the write does not pass `2 ^ 32`, or is still behind the array then. -/
def EndInRange (off n : RivU32) : Prop :=
  off.toNat < ramfsMaxData ∧ off.toNat + n.toNat < 2 ^ 32 ∨
    ramfsMaxData ≤ off.toNat ∧ ramfsMaxData < (off + n).toNat

/-! ## Steps -/

/-- Everything a step can do to the arrays and the sizes. -/
inductive RamfsStep (s : RamfsRun Dev) : RamfsAction → RamfsRun Dev → Prop where
  | same {a : RamfsAction} {w : World Dev} (hok : SkipsZeros s a)
      (hsame : ∀ i, (w.ramfs i).data = (s.entry i).data ∧ (w.ramfs i).size = (s.entry i).size) :
      RamfsStep s a { s with world := w }
  | created {path : CStr} {mode : RivU32} {ino : ℕ} {w : World Dev}
      (htable : w.ramfs = update s.world.ramfs ino ((s.entry ino).created path mode)) :
      RamfsStep s (.create path mode) ⟨w, update s.writes ino (some [])⟩
  | wrote {ino n : ℕ} {off : RivU32} {buf : List RivU8} (hn : n ≤ buf.length)
      (hroom : off.toNat + n ≤ ramfsMaxData)
      (hok : off.toNat < ramfsMaxData ∨ (off + BitVec.ofNat 32 buf.length).toNat ≤ ramfsMaxData) :
      RamfsStep s (.write ino off buf)
        ⟨{ s.world with
            ramfs := update s.world.ramfs ino
              ((s.entry ino).written ⟨off.toNat, buf.take n⟩) },
          update s.writes ino ((s.writes ino).map fun log => ⟨off.toNat, buf.take n⟩ :: log)⟩

theorem toNat_ofNat_length_le (buf : List RivU8) :
    (BitVec.ofNat 32 buf.length).toNat ≤ buf.length := by exact Nat.mod_le _ _

variable {s s' : RamfsRun Dev} {a : RamfsAction}

theorem RamfsRun.step_cases (h : s.step a = some s') : RamfsStep s a s' := by
  cases a with
  | create path mode =>
    obtain ⟨⟨ino, w⟩, hrun, rfl⟩ := map_eq_some_iff.mp h
    obtain ⟨hino, htable⟩ := ramfsCreate_eq_ok (Exec.toOption_eq_some_iff.mp hrun)
    rw [← hino] at htable
    cases ino with
    | none => exact .same trivial fun i => by simp only [htable, RamfsRun.entry, and_self]
    | some ino => exact .created htable
  | write ino off buf =>
    obtain ⟨⟨r, w⟩, hrun, rfl⟩ := map_eq_some_iff.mp h
    have hlen := toNat_ofNat_length_le buf
    rcases run_ramfsWrite s.world ino off hlen with ⟨hoff, hend, hwrite⟩ | ⟨hok, hn, hwrite⟩
    · rw [hwrite] at hrun
      cases hrun
      exact .same (fun _ hok => by omega) fun _ => ⟨rfl, rfl⟩
    · rw [hwrite] at hrun
      split at hrun
      · cases hrun
      · next hroom =>
        cases hrun
        exact .wrote (hn.trans hlen) (Nat.not_lt.mp hroom) hok
  | read ino off n =>
    obtain ⟨⟨r, w⟩, hrun, rfl⟩ := map_eq_some_iff.mp h
    obtain rfl : s.world = w :=
      keeps_ramfsRead (R := Eq) ino off n _ _ _ (Exec.toOption_eq_some_iff.mp hrun)
    exact .same trivial fun _ => ⟨rfl, rfl⟩
  | unlink path =>
    obtain ⟨⟨rc, w⟩, hrun, rfl⟩ := map_eq_some_iff.mp h
    have htable := ramfsUnlink_eq_ok (Exec.toOption_eq_some_iff.mp hrun)
    refine .same trivial fun i => ?_
    rw [htable]
    split
    all_goals grind [RamfsRun.entry]

/-- The arrays hold what was written to the files, and the sizes stay within them. -/
def RamfsRun.Inv (s : RamfsRun Dev) : Prop :=
  ∀ ino log, s.writes ino = some log →
    Holds log (s.entry ino).data (s.entry ino).size.toNat ∧
      (s.entry ino).size.toNat ≤ ramfsMaxData

theorem RamfsStep.inv (h : RamfsStep s a s') (hs : s.Inv) : s'.Inv := by
  intro ino' log hlog
  cases h with
  | same hok hsame =>
    rw [RamfsRun.entry, (hsame ino').1, (hsame ino').2]
    exact hs ino' log hlog
  | @created path mode ino w htable =>
    simp only [RamfsRun.entry, htable] at hlog ⊢
    by_cases heq : ino' = ino
    · subst heq
      simp only [update_self, Option.some.injEq] at hlog ⊢
      subst hlog
      exact ⟨Holds.nil _, Nat.zero_le _⟩
    · rw [update_of_ne heq] at hlog ⊢
      exact hs ino' log hlog
  | @wrote ino n off buf hn hroom hok =>
    simp only [RamfsRun.entry] at hlog ⊢
    by_cases heq : ino' = ino
    · subst heq
      rw [update_self] at hlog ⊢
      obtain ⟨log, hold, rfl⟩ := map_eq_some_iff.mp hlog
      refine RamfsEntry.holds_written (hs ino' log hold) ?_
      simp_all [Write.stop]
    · rw [update_of_ne heq] at hlog ⊢
      exact hs ino' log hlog

theorem RamfsRun.inv_start (w : World Dev) : (RamfsRun.start w).Inv := nofun

/-! ## Holes -/

/-- The bytes below the size of a file that no write has covered are zero. -/
def RamfsRun.Zeroed (s : RamfsRun Dev) : Prop :=
  ∀ ino log, s.writes ino = some log → ∀ pos < (s.entry ino).size.toNat,
    latest log pos = none → (s.entry ino).data pos = 0

theorem RamfsRun.Inv.holesReadZero_iff (hs : s.Inv) : HolesReadZero s ↔ s.Zeroed := by
  constructor
  · intro h ino log hlog pos hpos hnone
    have hsize := (hs ino log hlog).2
    have hoff : (BitVec.ofNat 32 pos).toNat = pos := by
      rw [BitVec.toNat_ofNat]
      omega
    obtain ⟨bytes, hrun, hlen, hbytes⟩ := run_ramfsRead (BitVec.ofNat 32 pos) 1 hsize
    rw [hoff] at hlen hbytes
    have hlen : bytes.length = 1 := hlen.trans (Nat.min_eq_left (Nat.sub_pos_of_lt hpos))
    refine h ino log hlog _ _ _ _ _ hrun 0 _ (hbytes 0 (by omega)) ?_
    rwa [hoff]
  · intro h ino log hlog off n r bytes w hrun k b hb hnone
    obtain ⟨bytes', hrun', hlen, hbytes⟩ := run_ramfsRead off n (hs ino log hlog).2
    cases hrun.symm.trans hrun'
    obtain ⟨hk, -⟩ := List.getElem?_eq_some_iff.mp hb
    rw [hbytes k hk] at hb
    rw [← Option.some.inj hb]
    have hpos : off.toNat + k < (s.entry ino).size.toNat := by
      unfold RamfsRun.entry
      omega
    exact h ino log hlog _ hpos hnone

theorem RamfsStep.zeroed (h : RamfsStep s a s') (hs : s.Inv) (hs' : s'.Inv) (hzero : s.Zeroed)
    (hskip : SkipsZeros s a) : s'.Zeroed := by
  intro ino' log hlog pos hpos hnone
  cases h with
  | same hok hsame =>
    rw [RamfsRun.entry, (hsame ino').2] at hpos
    rw [RamfsRun.entry, (hsame ino').1]
    exact hzero ino' log hlog pos hpos hnone
  | @created path mode ino w htable =>
    simp only [RamfsRun.entry, htable] at hlog hpos ⊢
    by_cases heq : ino' = ino
    · subst heq
      rw [update_self] at hpos
      exact absurd hpos (Nat.not_lt_zero pos)
    · rw [update_of_ne heq] at hlog hpos ⊢
      exact hzero ino' log hlog pos hpos hnone
  | @wrote ino n off buf hn hroom hok =>
    have hsize := (hs' ino' log hlog).1.size_eq
    simp only [RamfsRun.entry] at hlog hpos hsize ⊢
    by_cases heq : ino' = ino
    · subst heq
      rw [update_self] at hlog hpos hsize ⊢
      obtain ⟨log, hold, rfl⟩ := map_eq_some_iff.mp hlog
      rw [latest, or_eq_none_iff] at hnone
      rw [hsize, extent, ← (hs ino' log hold).1.size_eq] at hpos
      simp only [RamfsEntry.written, overwrite, hnone.1, getD_none]
      -- behind the old end, the position is in front of the write
      by_cases hold' : pos < (s.entry ino').size.toNat
      · exact hzero ino' log hold pos hold' hnone.2
      · refine hskip (by simp [hold]) hok pos (Nat.not_lt.mp hold') (Write.lt_off_of_at? hnone.1 ?_)
        omega
    · rw [update_of_ne heq] at hlog hpos ⊢
      exact hzero ino' log hlog pos hpos hnone

theorem RamfsStep.not_zeroed (h : RamfsStep s a s') (hs : s.Inv) (hs' : s'.Inv)
    (hskip : ¬SkipsZeros s a) : ¬s'.Zeroed := by
  intro hzero
  cases h with
  | same hok hsame => exact hskip hok
  | created htable => exact hskip trivial
  | @wrote ino n off buf hn hroom hok =>
    apply hskip
    intro hfile _ pos hend hpos
    obtain ⟨log, hlog⟩ := ne_none_iff_exists'.mp hfile
    have hsize := (hs ino log hlog).1.size_eq
    have hnew : update s.writes ino ((s.writes ino).map fun log => ⟨off.toNat, buf.take n⟩ :: log)
        ino = some (⟨off.toNat, buf.take n⟩ :: log) := by
      rw [update_self, hlog]
      rfl
    have hsize' := (hs' ino _ hnew).1.size_eq
    have hat : (Write.mk off.toNat (buf.take n)).at? pos = none := Write.at?_of_lt_off hpos
    have hdata := hzero ino _ hnew pos
    simp only [RamfsRun.entry, update_self] at hsize' hdata
    rw [hsize', extent, Write.stop, latest, hat, none_or] at hdata
    dsimp only at hdata
    have hbyte := hdata (by omega) (latest_of_extent_le (by omega))
    simp only [RamfsEntry.written, overwrite, hat, getD_none] at hbyte
    exact hbyte

/-- Along a run, the unwritten bytes of every file read as zero exactly when every write
that begins behind the end of a file skips zeros only. -/
theorem ramfs_holes_zero_iff (w : World Dev) {as : List RamfsAction} {s : RamfsRun Dev}
    (hrun : exec RamfsRun.step (RamfsRun.start w) as = some s) :
    Always RamfsRun.step HolesReadZero (RamfsRun.start w) as ↔
      Meets RamfsRun.step SkipsZeros (RamfsRun.start w) as := by
  have hstep : ∀ (s : RamfsRun Dev) a s', s.Inv ∧ s.Zeroed → True → SkipsZeros s a →
      s.step a = some s' → s'.Inv ∧ s'.Zeroed := by
    intro s a s' ⟨hs, hzero⟩ _ hskip hstep
    have hcases := RamfsRun.step_cases hstep
    exact ⟨hcases.inv hs, hcases.zeroed hs (hcases.inv hs) hzero hskip⟩
  refine always_iff_meets_of_exec hstep ?_ ?_ ⟨RamfsRun.inv_start w, nofun⟩
    (meets_of_forall (fun _ _ => trivial) _ _) hrun
  · intro s ⟨hs, hzero⟩
    exact hs.holesReadZero_iff.mpr hzero
  intro s a s' ⟨hs, _⟩ _ hskip hstep hread
  have hcases := RamfsRun.step_cases hstep
  have hs' := hcases.inv hs
  exact hcases.not_zeroed hs hs' hskip (hs'.holesReadZero_iff.mp hread)

/-- The hole in front of a write to an array that nothing has been stored in. -/
theorem ramfs_holes_zero_fresh : ∃ s, exec RamfsRun.step (RamfsRun.start rootWorld)
        [.create "a".toList 0, .write 0 2 [0x41], .read 0 0 8] = some s ∧
      Always RamfsRun.step HolesReadZero (RamfsRun.start rootWorld)
        [.create "a".toList 0, .write 0 2 [0x41], .read 0 0 8] := by
  obtain ⟨s, hs⟩ := Option.isSome_iff_exists.mp
    (show (exec RamfsRun.step (RamfsRun.start rootWorld)
      [.create "a".toList 0, .write 0 2 [0x41], .read 0 0 8]).isSome = true by decide)
  refine ⟨s, hs, (ramfs_holes_zero_iff rootWorld hs).mpr ⟨trivial, fun s₁ h₁ => ?_⟩⟩
  obtain rfl := Option.some.inj h₁
  exact ⟨fun _ _ _ _ _ => rfl, fun _ _ => ⟨trivial, fun _ _ => trivial⟩⟩

/-- The file "b" takes the entry of the unlinked "a", and its first byte, which was never
written, is what was written to "a". -/
theorem new_file_reads_old_byte : ∃ s, exec RamfsRun.step (RamfsRun.start rootWorld)
        [.create "a".toList 0, .write 0 0 [0x41], .unlink "a".toList, .create "b".toList 0,
          .write 0 1 [0x42]] = some s ∧ ¬HolesReadZero s := by
  have hrun : (exec RamfsRun.step (RamfsRun.start rootWorld)
      [.create "a".toList 0, .write 0 0 [0x41], .unlink "a".toList, .create "b".toList 0,
        .write 0 1 [0x42]]).any (fun s =>
      s.writes 0 == some [⟨1, [0x42]⟩] &&
        ((ramfsRead 0 0 1).run s.world).toOption.map Prod.fst == some (1, [0x41])) = true := by
    decide
  obtain ⟨s, hs, h⟩ := (Option.any_eq_true _ _).mp hrun
  rw [Bool.and_eq_true, beq_iff_eq, beq_iff_eq] at h
  obtain ⟨⟨_, w⟩, hread, rfl⟩ := Option.map_eq_some_iff.mp h.2
  refine ⟨s, hs, fun hzero => ?_⟩
  have hbyte := hzero 0 _ h.1 0 1 1 [0x41] w (Exec.toOption_eq_some_iff.mp hread) 0 0x41 rfl rfl
  exact absurd hbyte (by decide)

/-! ## Accesses -/

/-- In every state that a run reaches, a write and a read at a position of a file stay
inside it exactly when the end of the write is in range. -/
theorem ramfs_access_inside_iff (w : World Dev) {as : List RamfsAction} {s : RamfsRun Dev}
    (hrun : exec RamfsRun.step (RamfsRun.start w) as = some s) {ino : ℕ}
    (hfile : s.writes ino ≠ none) (off : RivU32) (buf : List RivU8) :
    AccessInside s ino off buf ↔ EndInRange off (BitVec.ofNat 32 buf.length) := by
  have hs : s.Inv :=
    inv_of_exec (fun _ _ _ hs hstep => (RamfsRun.step_cases hstep).inv hs)
      (RamfsRun.inv_start w) hrun
  obtain ⟨log, hlog⟩ := Option.ne_none_iff_exists'.mp hfile
  have hcases := run_ramfsWrite s.world ino off (toNat_ofNat_length_le buf)
  have hlen := toNat_ofNat_length_le buf
  set n := BitVec.ofNat 32 buf.length
  have hsum := BitVec.toNat_add off n
  have hmax : ramfsMaxData = 4096 := rfl
  constructor
  · rintro ⟨⟨r, w', hwrite, -, -, hpast⟩, -⟩
    rcases hcases with ⟨hoff, hend, -⟩ | ⟨hok, hn, hwrite'⟩
    · exact .inr ⟨hoff, hend⟩
    rw [hwrite] at hwrite'
    split at hwrite'
    · cases hwrite'
    next hroom =>
    cases hwrite'
    have hoff : off.toNat < ramfsMaxData := by
      by_contra hoff
      have := (hpast (Nat.not_lt.mp hoff)).1
      omega
    refine .inl ⟨hoff, ?_⟩
    -- a sum that wraps is small, so nothing would be cut
    by_contra hwrap
    have hcount : writeCount off n = n := if_neg (by rw [BitVec.lt_def, hsum]; simp; omega)
    rw [hcount] at hroom
    omega
  · intro hend
    constructor
    · rcases hcases with ⟨hoff, -, hwrite⟩ | ⟨hok, hn, hwrite⟩
      · exact ⟨-1, s.world, hwrite, fun _ _ => rfl, fun _ _ => rfl, fun _ => ⟨rfl, rfl⟩⟩
      have hoff : off.toNat < ramfsMaxData ∧ off.toNat + n.toNat < 2 ^ 32 := by
        unfold EndInRange at hend
        omega
      have hroom := writeCount_room hoff.2 hok
      rw [if_neg (Nat.not_lt.mpr hroom)] at hwrite
      refine ⟨_, _, hwrite, fun j hj => update_of_ne hj .., fun k hk => ?_, fun hpast => ?_⟩
      · have hat : (Write.mk off.toNat (buf.take (writeCount off n).toNat)).at? k = none := by
          by_contra hsome
          have hcover := (Write.covers_of_at? hsome).2
          rw [Write.stop, List.length_take_of_le (hn.trans hlen)] at hcover
          dsimp only at hcover
          omega
        simp only [update_self, RamfsEntry.written, overwrite, hat, Option.getD_none]
        rfl
      · omega
    · obtain ⟨bytes, hread, hcount, hbytes⟩ := run_ramfsRead off n (hs ino log hlog).2
      refine ⟨_, bytes, hread, fun k hk => ⟨?_, hbytes k hk⟩⟩
      unfold RamfsRun.entry
      omega

theorem exec_createOne : ∃ s, exec RamfsRun.step (RamfsRun.start rootWorld)
    [.create "a".toList 0] = some s ∧ s.writes 0 ≠ none :=
  ⟨_, rfl, some_ne_none _⟩

theorem ramfs_access_inside_short : ∃ s, exec RamfsRun.step (RamfsRun.start rootWorld)
    [.create "a".toList 0] = some s ∧ AccessInside s 0 5 [1, 2, 3] := by
  obtain ⟨s, hs, hfile⟩ := exec_createOne
  refine ⟨s, hs, (ramfs_access_inside_iff rootWorld hs hfile 5 [1, 2, 3]).mpr ?_⟩
  exact .inl ⟨by decide, by decide⟩

/-- A write of 32 bytes at `0xFFFFFFF0` is not refused, and leaves the array. -/
theorem write_wraps_outside : ∃ s, exec RamfsRun.step (RamfsRun.start rootWorld)
    [.create "a".toList 0] = some s ∧ s.writes 0 ≠ none ∧
      ¬AccessInside s 0 0xFFFFFFF0 (List.replicate 32 0) := by
  obtain ⟨s, hs, hfile⟩ := exec_createOne
  refine ⟨s, hs, hfile, ?_⟩
  rintro ⟨⟨r, w, hwrite, -⟩, -⟩
  rw [ramfsWrite, if_neg (by decide), ramfsStore, if_pos (by decide)] at hwrite
  cases hwrite

end Rivet.Kernel
