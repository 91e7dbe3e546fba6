import Rivet.Paging.Sv32
import Rivet.Paging.X86
import Rivet.Support.Runs

/-!
# Permissions of mapped pages

The permissions that the hardware grants for a page are read from the entries
along its path.  On x86_64 a page that is mapped for users is one only if the
tables that were there before allow it; under Sv32 no page is executable.
-/

namespace Rivet.Paging

open RadixTable

structure Perms where
  user : Bool
  write : Bool
  exec : Bool
  deriving DecidableEq, Repr

def requested (flags : RivU32) : Perms where
  user := flags &&& pgUser != 0
  write := flags &&& pgWrite != 0
  exec := flags &&& pgNx == 0

/-- The arguments of `riv_pgmap_map`. -/
structure MapCall (w : ℕ) where
  vaddr : BitVec w
  paddr : BitVec w
  flags : RivU32

def PgOps.mapStep {w : ℕ} (ops : PgOps w) (s : PgState w) (c : MapCall w) : Option (PgState w) :=
  if (ops.map c.vaddr c.paddr c.flags s).1 = 0 then
    some (ops.map c.vaddr c.paddr c.flags s).2
  else none

/-- A mapping gives a page the permissions that were asked for, and leaves those of
the other pages that are mapped. -/
structure Grants {w : ℕ} {α : Type} (effective : BitVec w → Mem w → Option Perms)
    (page : BitVec w → α) (c : MapCall w) (s s' : PgState w) : Prop where
  granted : effective c.vaddr s'.mem = some (requested c.flags)
  others : ∀ v, page v ≠ page c.vaddr → effective v s.mem ≠ none →
    effective v s'.mem = effective v s.mem

def GrantsAll {w : ℕ} {α : Type} (ops : PgOps w) (effective : BitVec w → Mem w → Option Perms)
    (page : BitVec w → α) (s : PgState w) (calls : List (MapCall w)) : Prop :=
  Runs.Meets ops.mapStep
    (fun s c => ∀ s', ops.mapStep s c = some s' → Grants effective page c s s') s calls

theorem PgOps.mapStep_eq_some {w : ℕ} {ops : PgOps w} {s s' : PgState w} {c : MapCall w}
    (h : ops.mapStep s c = some s') : ops.map c.vaddr c.paddr c.flags s = (0, s') := by
  unfold PgOps.mapStep at h
  split at h
  · next hret =>
    cases h
    exact Prod.ext hret rfl
  · cases h

theorem GrantsAll.last {w : ℕ} {α : Type} {ops : PgOps w}
    {effective : BitVec w → Mem w → Option Perms} {page : BitVec w → α} {s s' : PgState w}
    (calls : List (MapCall w)) {c : MapCall w} (h : GrantsAll ops effective page s (calls ++ [c]))
    (hrun : Runs.exec ops.mapStep s (calls ++ [c]) = some s') :
    effective c.vaddr s'.mem = some (requested c.flags) := by
  induction calls generalizing s with
  | nil =>
    rw [List.nil_append, Runs.exec_cons, Option.bind_eq_some_iff] at hrun
    obtain ⟨s1, hs1, hrun⟩ := hrun
    cases hrun
    exact (h.1 s' hs1).granted
  | cons d calls ih =>
    rw [List.cons_append, Runs.exec_cons, Option.bind_eq_some_iff] at hrun
    obtain ⟨s1, hs1, hrun⟩ := hrun
    exact ih (h.2 s1 hs1) hrun

/-! ## x86_64 -/

namespace X86

def hwEntries (mem : Mem 64) : List RivU64 → RivU64 → Option (List RivU64)
  | [], _ => some []
  | i :: is, t =>
    if mem (entry t i) &&& pteP = 0 then none
    else (hwEntries mem is (mem (entry t i) &&& addrMask)).map (mem (entry t i) :: ·)

/-- All levels must allow user access and writing, and none may forbid execution. -/
def combine (entries : List RivU64) : Perms where
  user := entries.all (· &&& pteUs != 0)
  write := entries.all (· &&& pteRw != 0)
  exec := entries.all (· &&& pteNx == 0)

def effective (pml4 vaddr : RivU64) (mem : Mem 64) : Option Perms :=
  (hwEntries mem (tableIdx vaddr ++ [leafIdx vaddr]) pml4).map combine

def page (vaddr : RivU64) : BitVec 36 := vaddr.extractLsb' 12 36

/-- The tables on a path that are there already allow user access. -/
def userLinks (mem : Mem 64) : List RivU64 → RivU64 → Bool
  | [], _ => true
  | i :: is, t =>
    if mem (entry t i) &&& pteP = 0 then true
    else mem (entry t i) &&& pteUs != 0 && userLinks mem is (mem (entry t i) &&& addrMask)

/-- A page for users is below tables for users, and bit 63 of the address of an
executable page is clear. -/
def Grantable (pml4 : RivU64) (s : PgState 64) (c : MapCall 64) : Prop :=
  (c.flags &&& pgUser ≠ 0 → userLinks s.mem (tableIdx c.vaddr) pml4 = true) ∧
    (c.flags &&& pgNx = 0 → c.paddr &&& pteNx = 0)

theorem hwEntries_eq (R : Region 64 52) (mem : Mem 64) (is : List (BitVec 9)) (t : RivU64) :
    hwEntries mem (is.map (BitVec.setWidth 64)) t = (backend.tables R).trace mem t is := by
  induction is generalizing t with
  | nil => rfl
  | cons i is ih =>
    rw [List.map_cons, hwEntries]
    by_cases hp : mem (entry t (i.setWidth 64)) &&& pteP = 0
    · rw [if_pos hp, Space.trace_cons_of_absent (absent_slot R hp)]
    · rw [if_neg hp, Space.trace_cons_of_present (present_slot R hp), ih]
      rfl

theorem userLinks_eq (R : Region 64 52) (mem : Mem 64) (is : List (BitVec 9)) (t : RivU64) :
    userLinks mem (is.map (BitVec.setWidth 64)) t =
      ((backend.tables R).linked mem t is).all (· &&& pteUs != 0) := by
  induction is generalizing t with
  | nil => rfl
  | cons i is ih =>
    rw [List.map_cons, userLinks]
    by_cases hp : mem (entry t (i.setWidth 64)) &&& pteP = 0
    · rw [if_pos hp, Space.linked_cons_of_absent (absent_slot R hp)]
      rfl
    · rw [if_neg hp, Space.linked_cons_of_present (present_slot R hp), List.all_cons, ih]
      rfl

theorem effective_eq (R : Region 64 52) (pml4 v : RivU64) (mem : Mem 64) : effective pml4 v mem =
      ((backend.tables R).trace mem pml4 (backend.fullPath v)).map combine := by
  rw [effective, tableIdx_eq, leafIdx_eq, ← List.map_singleton, ← List.map_append, hwEntries_eq R]
  rfl

theorem fullPath_ne_of_page {v v' : RivU64} (h : page v' ≠ page v) :
    backend.fullPath v' ≠ backend.fullPath v := by
  intro heq
  apply h
  obtain ⟨hpath, hleaf⟩ := List.append_inj' heq rfl
  have hpath' : path v' = path v := hpath
  have hleaf' : leafOf v' = leafOf v := List.singleton_inj.mp hleaf
  simp only [path, leafOf, List.cons.injEq, ← BitVec.toNat_inj, BitVec.extractLsb'_toNat,
    Nat.shiftRight_eq_div_pow] at hpath' hleaf'
  apply BitVec.eq_of_toNat_eq
  rw [page, page, BitVec.extractLsb'_toNat, BitVec.extractLsb'_toNat, Nat.shiftRight_eq_div_pow,
    Nat.shiftRight_eq_div_pow]
  omega

def flagBits (write user global nx : Bool) : RivU64 :=
  let v := pteP
  let v := if write then v ||| pteRw else v
  let v := if user then v ||| pteUs else v
  let v := if global then v ||| pteG else v
  if nx then v ||| pteNx else v

theorem rivPgFlagsToX86_eq (f : RivU32) : rivPgFlagsToX86 f =
      flagBits (f &&& pgWrite != 0) (f &&& pgUser != 0) (f &&& pgGlobal != 0)
        (f &&& pgNx != 0) := by simp only [rivPgFlagsToX86, flagBits, bne_iff_ne]

theorem flagBits_bits : ∀ write user global nx,
    (flagBits write user global nx &&& pteUs != 0) = user ∧
      (flagBits write user global nx &&& pteRw != 0) = write ∧
      (flagBits write user global nx &&& pteNx != 0) = nx := by decide

theorem leafEntry_and (p : RivU64) (flags : RivU32) {m : RivU64} (hm : ~~~0xFFF &&& m = 0) :
    leafEntry p flags &&& m = rivPgFlagsToX86 flags &&& m := by
  simp_all [leafEntry, or_and_distrib, BitVec.and_assoc, BitVec.zero_or, BitVec.and_zero]

theorem leafEntry_bits (p : RivU64) (flags : RivU32) :
    (leafEntry p flags &&& pteUs != 0) = (flags &&& pgUser != 0) ∧
      (leafEntry p flags &&& pteRw != 0) = (flags &&& pgWrite != 0) ∧
      (leafEntry p flags &&& pteNx == 0) = (flags &&& pgNx == 0 && p &&& pteNx == 0) := by
  obtain ⟨hus, hrw, hnx⟩ := flagBits_bits (flags &&& pgWrite != 0) (flags &&& pgUser != 0)
    (flags &&& pgGlobal != 0) (flags &&& pgNx != 0)
  rw [← rivPgFlagsToX86_eq] at hus hrw hnx
  refine ⟨?_, ?_, ?_⟩
  · rw [leafEntry_and p flags (by decide), hus]
  · rw [leafEntry_and p flags (by decide), hrw]
  have hmask : (~~~0xFFF : RivU64) &&& pteNx = pteNx := by decide
  rw [leafEntry, or_and_distrib, BitVec.and_assoc, hmask]
  rw [Bool.eq_iff_iff, Bool.and_eq_true, beq_iff_eq, beq_iff_eq, beq_iff_eq]
  have hnx' : rivPgFlagsToX86 flags &&& pteNx = 0 ↔ flags &&& pgNx = 0 := by
    rw [← bne_eq_false_iff_eq, hnx, bne_eq_false_iff_eq]
  exact BitVec.or_eq_zero_iff.trans (by rw [and_comm]; exact and_congr_left' hnx')

theorem tableEntry_us {flags : RivU32} (f : RivU64) (huser : flags &&& pgUser ≠ 0) :
    tableEntry flags f &&& pteUs ≠ 0 := by
  intro h
  rw [tableEntry_and, if_pos huser] at h
  cases (BitVec.or_eq_zero_iff.mp h).2

variable {R : Region 64 52} {pml4 : RivU64} {s s' : PgState 64}

theorem combine_trace {flags : RivU32} {p : RivU64} {links fs : List RivU64}
    (hlinks : ∀ e ∈ links, e &&& pteRw ≠ 0 ∧ e &&& pteNx = 0) (hfs : ∀ f ∈ fs, R.Frame f) :
    combine (links ++ fs.map (tableEntry flags) ++ [leafEntry p flags]) =
      { user := flags &&& pgUser != 0 && links.all (· &&& pteUs != 0)
        write := flags &&& pgWrite != 0
        exec := flags &&& pgNx == 0 && p &&& pteNx == 0 } := by
  obtain ⟨hus, hrw, hnx⟩ := leafEntry_bits p flags
  have hnew : ∀ f ∈ fs, f.toNat % 4096 = 0 ∧ f.toNat < 2 ^ 52 := by
    intro f hf
    have := (hfs f hf).below
    exact ⟨(hfs f hf).aligned, by omega⟩
  have hlrw : links.all (· &&& pteRw != 0) = true := by simp_all
  have hlnx : links.all (· &&& pteNx == 0) = true := by simp_all
  have hfrw : (fs.map (tableEntry flags)).all (· &&& pteRw != 0) = true := by
    rw [List.all_map, List.all_eq_true]
    exact fun f hf => bne_iff_ne.mpr (tableEntry_bits flags (hnew f hf).1 (hnew f hf).2).2.2.1
  have hfnx : (fs.map (tableEntry flags)).all (· &&& pteNx == 0) = true := by
    rw [List.all_map, List.all_eq_true]
    exact fun f hf => beq_iff_eq.mpr (tableEntry_bits flags (hnew f hf).1 (hnew f hf).2).2.2.2
  simp only [combine, List.all_append, List.all_cons, List.all_nil, Bool.and_true, hus, hrw, hnx,
    hlrw, hlnx, hfrw, hfnx, Bool.true_and, Perms.mk.injEq, and_true]
  by_cases huser : flags &&& pgUser = 0
  · rw [bne_eq_false_iff_eq.mpr huser, Bool.and_false, Bool.false_and]
  have hfus : (fs.map (tableEntry flags)).all (· &&& pteUs != 0) = true := by
    rw [List.all_map, List.all_eq_true]
    exact fun f _ => bne_iff_ne.mpr (tableEntry_us f huser)
  rw [bne_iff_ne.mpr huser, hfus, Bool.and_true, Bool.and_true, Bool.true_and]

theorem grants_iff {c : MapCall 64} (hmapped : backend.Mapped R pml4 s)
    (h : (ops pml4).mapStep s c = some s') :
    backend.Mapped R pml4 s' ∧
      (Grants (effective pml4) page c s s' ↔ Grantable pml4 s c) := by
  have hmap := (refines R pml4).map c.vaddr c.paddr c.flags hmapped.manages
  have hret := hmap.symm.trans (PgOps.mapStep_eq_some h)
  rcases Backend.map_cases hmapped c.vaddr c.paddr c.flags with
    ⟨s₁, hs₁, -⟩ | ⟨s₁, hs₁, hmapped', ⟨fs, hfs, htrace⟩, hothers⟩
  · cases hs₁.symm.trans hret
  · cases hs₁.symm.trans hret
    refine ⟨hmapped', ?_⟩
    have hlinks : ∀ e ∈ (backend.tables R).linked s.mem pml4 (backend.path c.vaddr),
        e &&& pteRw ≠ 0 ∧ e &&& pteNx = 0 := by
      obtain ⟨tab, hinv, hroot⟩ := hmapped
      exact hinv.tree.link_of_mem_linked hroot (by simp [backend.length_path])
    have heff : effective pml4 c.vaddr s'.mem = some
        { user := c.flags &&& pgUser != 0 && userLinks s.mem (tableIdx c.vaddr) pml4
          write := c.flags &&& pgWrite != 0
          exec := c.flags &&& pgNx == 0 && c.paddr &&& pteNx == 0 } := by
      rw [effective_eq R, htrace, Option.map_some, tableIdx_eq, userLinks_eq R]
      exact congrArg some (combine_trace hlinks hfs)
    have hrest : ∀ v, page v ≠ page c.vaddr → effective pml4 v s.mem ≠ none →
        effective pml4 v s'.mem = effective pml4 v s.mem := by
      intro v hpage _
      rw [effective_eq R, effective_eq R,
        hothers _ (Backend.length_fullPath v) (fullPath_ne_of_page hpage)]
    constructor
    · intro hg
      have hperms := Option.some.inj (heff.symm.trans hg.granted)
      simp only [requested, Perms.mk.injEq] at hperms
      constructor
      · simp_all
      simp_all
    · intro hg
      refine ⟨?_, hrest⟩
      rw [heff, requested, Option.some.injEq, Perms.mk.injEq]
      refine ⟨?_, rfl, ?_⟩
      · by_cases huser : c.flags &&& pgUser = 0
        · rw [bne_eq_false_iff_eq.mpr huser, Bool.false_and]
        · rw [hg.1 huser, Bool.and_true]
      · by_cases hnx : c.flags &&& pgNx = 0
        · rw [beq_iff_eq.mpr hnx, beq_iff_eq.mpr (hg.2 hnx), Bool.and_true]
        · rw [beq_eq_false_iff_ne.mpr hnx, Bool.false_and]

end X86

/-! ## Sv32 -/

namespace Sv32

def leafPerms (leaf : RivU32) : Perms where
  user := leaf &&& pteU != 0
  write := leaf &&& pteW != 0
  exec := leaf &&& pteX != 0

def effective (root vaddr : RivU32) (mem : Mem 32) : Option Perms :=
  if mem (entry root (vpn1 vaddr)) &&& pteV = 0 then none
  else
    let leaf := mem (entry (addrOf (mem (entry root (vpn1 vaddr)))) (vpn0 vaddr))
    if leaf &&& pteV = 0 then none else some (leafPerms leaf)

def page (vaddr : RivU32) : BitVec 20 := vaddr.extractLsb' 12 20

def Grantable (c : MapCall 32) : Prop := c.flags &&& pgNx ≠ 0

theorem leaf_map (R : Region 32 32) (mem : Mem 32) (t : RivU32) (i : BitVec 10) :
    (if (backend.tables R).present (mem ((backend.tables R).slot t i)) then
      some (mem ((backend.tables R).slot t i)) else none).map leafPerms =
      if mem (entry t (i.setWidth 32)) &&& pteV = 0 then none
      else some (leafPerms (mem (entry t (i.setWidth 32)))) := by
  by_cases h : mem (entry t (i.setWidth 32)) &&& pteV = 0
  · rw [if_pos h, absent_slot R h]
    rfl
  · rw [if_neg h, present_slot R h]
    rfl

theorem effective_eq (R : Region 32 32) (root v : RivU32) (mem : Mem 32) :
    effective root v mem = (backend.leaf? R root mem v).map leafPerms := by
  rw [effective, Backend.leaf?, Backend.fullPath, Space.trace_getLast, path_eq, vpn1_eq, vpn0_eq]
  by_cases hp : mem (entry root ((v.extractLsb' 22 10).setWidth 32)) &&& pteV = 0
  · rw [if_pos hp, Space.follow_cons_of_absent (absent_slot R hp)]
    rfl
  · rw [if_neg hp, Space.follow_cons_of_present (present_slot R hp), Space.follow, Option.bind_some]
    exact (leaf_map R mem _ (backend.leafOf v)).symm

def flagBits (write user global : Bool) : RivU32 :=
  let v := pteV ||| pteR
  let v := if write then v ||| pteW else v
  let v := if user then v ||| pteU else v
  if global then v ||| pteG else v

theorem rivPgFlagsToRv_eq (f : RivU32) : rivPgFlagsToRv f =
      flagBits (f &&& pgWrite != 0) (f &&& pgUser != 0) (f &&& pgGlobal != 0) := by
  simp only [rivPgFlagsToRv, flagBits, bne_iff_ne]

theorem leafPerms_flagBits : ∀ write user global,
    leafPerms (flagBits write user global) = ⟨user, write, false⟩ := by decide

theorem shiftLeft_and_low (x : RivU32) {m : RivU32} (hm : m.toNat < 2 ^ 10) :
    (x <<< 10) &&& m = 0 := by
  apply BitVec.eq_of_getLsbD_eq
  intro i hi
  by_cases hlow : i < 10
  · simp [hlow]
  have hbit : m.getLsbD i = false := by
    apply Nat.testBit_lt_two_pow
    exact hm.trans_le (Nat.pow_le_pow_right (by decide) (by omega))
  simp_all

theorem leafPerms_leafEntry (p flags : RivU32) : leafPerms (leafEntry p flags) =
      ⟨flags &&& pgUser != 0, flags &&& pgWrite != 0, false⟩ := by
  have hlow : ∀ m : RivU32, m.toNat < 2 ^ 10 →
      leafEntry p flags &&& m = rivPgFlagsToRv flags &&& m := by
    intro m hm
    rw [leafEntry, or_and_distrib, shiftLeft_and_low _ hm]
    exact BitVec.zero_or
  rw [← leafPerms_flagBits, ← rivPgFlagsToRv_eq, leafPerms, leafPerms, hlow pteU (by decide),
    hlow pteW (by decide), hlow pteX (by decide)]

theorem fullPath_ne_of_page {v v' : RivU32} (h : page v' ≠ page v) :
    backend.fullPath v' ≠ backend.fullPath v := by
  apply Backend.fullPath_ne v.isLt v'.isLt
  grind [page, extractLsb'_add_twelve]

variable {R : Region 32 32} {root : RivU32} {s s' : PgState 32}

theorem grants_iff {c : MapCall 32} (hmapped : backend.Mapped R root s)
    (h : (ops root).mapStep s c = some s') :
    backend.Mapped R root s' ∧ (Grants (effective root) page c s s' ↔ Grantable c) := by
  have hmap := (refines R root).map c.vaddr c.paddr c.flags hmapped.manages
  have hret := hmap.symm.trans (PgOps.mapStep_eq_some h)
  rcases Backend.map_cases hmapped c.vaddr c.paddr c.flags with
    ⟨s1, hs1, -⟩ | ⟨s1, hs1, hmapped', ⟨fs, hfs, htrace⟩, hothers⟩
  · cases hs1.symm.trans hret
  cases hs1.symm.trans hret
  refine ⟨hmapped', ?_⟩
  have heff : effective root c.vaddr s'.mem =
      some ⟨c.flags &&& pgUser != 0, c.flags &&& pgWrite != 0, false⟩ := by
    rw [effective_eq R, Backend.leaf?, htrace, Option.bind_some, List.getLast?_concat]
    exact congrArg some (leafPerms_leafEntry c.paddr c.flags)
  have hrest : ∀ v, page v ≠ page c.vaddr → effective root v s.mem ≠ none →
      effective root v s'.mem = effective root v s.mem := by
    intro v hpage _
    simp [effective_eq R, Backend.leaf?,
      hothers _ (Backend.length_fullPath v) (fullPath_ne_of_page hpage)]
  have hperms : some (Perms.mk (c.flags &&& pgUser != 0) (c.flags &&& pgWrite != 0) false) =
      some (requested c.flags) ↔ Grantable c := by
    simp [requested, Option.some.injEq, Perms.mk.injEq, Grantable, beq_eq_false_iff_ne]
  constructor
  · intro hg
    exact hperms.mp (heff.symm.trans hg.granted)
  · intro hg
    exact ⟨heff.trans (hperms.mpr hg), hrest⟩

end Sv32

/-! ## Both builds -/

/-- In a history of successful mappings, each of them grants what was asked for
exactly when each of them can. -/
theorem permissions_iff {R : Region 64 52} {s₀ s s' : PgState 64} {pml4 : RivU64}
    {calls : List (MapCall 64)} (hm : R.Manages s₀.pmm) (hinit : rivPgmapInit s₀ = some (pml4, s))
    (hrun : Runs.exec (X86.ops pml4).mapStep s calls = some s')
    {Q : Region 32 32} {q₀ q q' : PgState 32} {root : RivU32} {callsRv : List (MapCall 32)}
    (hmRv : Q.Manages q₀.pmm) (hinitRv : rivPgmapInit q₀ = some (root, q))
    (hrunRv : Runs.exec (Sv32.ops root).mapStep q callsRv = some q') :
    (GrantsAll (X86.ops pml4) (X86.effective pml4) X86.page s calls ↔
      Runs.Meets (X86.ops pml4).mapStep (X86.Grantable pml4) s calls) ∧
    (GrantsAll (Sv32.ops root) (Sv32.effective root) Sv32.page q callsRv ↔
      Runs.Meets (Sv32.ops root).mapStep (fun _ c => Sv32.Grantable c) q callsRv) := by
  constructor
  · apply Runs.meets_congr (X86.backend.Mapped R pml4) _ _ (Backend.mapped_of_init hm hinit) hrun
    · intro s c s' hs hstep
      exact (X86.grants_iff hs hstep).1
    · intro s c s' hs hstep
      simp only [hstep, Option.some.injEq, forall_eq']
      exact (X86.grants_iff hs hstep).2
  · apply Runs.meets_congr (Sv32.backend.Mapped Q root) _ _ (Backend.mapped_of_init hmRv hinitRv)
      hrunRv
    · intro s c s' hs hstep
      exact (Sv32.grants_iff hs hstep).1
    · intro s c s' hs hstep
      simp only [hstep, Option.some.injEq, forall_eq']
      exact (Sv32.grants_iff hs hstep).2

/-- A page of the kernel and a page for users, below the same tables. -/
def sampleCalls : List (MapCall 64) := [⟨0x400000, 0x200000, 0⟩, ⟨0x401000, 0x201000, pgUser⟩]

theorem x86_sample_run : ∃ pml4 s s', rivPgmapInit X86.sampleState = some (pml4, s) ∧
      Runs.exec (X86.ops pml4).mapStep s sampleCalls = some s' ∧
      X86.effective pml4 0x401000 s'.mem = some ⟨false, false, true⟩ := by
  have hval : (rivPgmapInit X86.sampleState).bind (fun m =>
      (Runs.exec (X86.ops m.1).mapStep m.2 sampleCalls).map fun s =>
        X86.effective m.1 0x401000 s.mem) = some (some ⟨false, false, true⟩) := by
    decide +kernel
  obtain ⟨⟨pml4, s⟩, hinit, hval⟩ := Option.bind_eq_some_iff.mp hval
  simp_all

theorem sv32_sample_run : ∃ root s s', rivPgmapInit Sv32.sampleState = some (root, s) ∧
      Runs.exec (Sv32.ops root).mapStep s [⟨0x400000, 0x200000, 0⟩] = some s' ∧
      Sv32.effective root 0x400000 s'.mem = some ⟨false, false, false⟩ := by
  have hval : (rivPgmapInit Sv32.sampleState).bind (fun m =>
      (Runs.exec (Sv32.ops m.1).mapStep m.2 [⟨0x400000, 0x200000, 0⟩]).map fun s =>
        Sv32.effective m.1 0x400000 s.mem) = some (some ⟨false, false, false⟩) := by
    decide +kernel
  obtain ⟨⟨root, s⟩, hinit, hval⟩ := Option.bind_eq_some_iff.mp hval
  simp_all

theorem permissions_iff_sample : ∃ pml4 s root q,
      (GrantsAll (X86.ops pml4) (X86.effective pml4) X86.page s sampleCalls ↔
        Runs.Meets (X86.ops pml4).mapStep (X86.Grantable pml4) s sampleCalls) ∧
      (GrantsAll (Sv32.ops root) (Sv32.effective root) Sv32.page q [⟨0x400000, 0x200000, 0⟩] ↔
        Runs.Meets (Sv32.ops root).mapStep (fun _ c => Sv32.Grantable c) q
          [⟨0x400000, 0x200000, 0⟩]) := by
  obtain ⟨pml4, s, s', hinit, hrun, -⟩ := x86_sample_run
  obtain ⟨root, q, q', hinitRv, hrunRv, -⟩ := sv32_sample_run
  exact ⟨pml4, s, root, q, permissions_iff (R := X86.sampleRegion) ⟨rfl, rfl⟩ hinit hrun
      (Q := Sv32.sampleRegion) ⟨rfl, rfl⟩ hinitRv hrunRv⟩

/-- The user page of the sample is not accessible to users, and a page of Sv32 that
may be executed is not executable. -/
theorem requested_not_granted : (∃ pml4 s s', rivPgmapInit X86.sampleState = some (pml4, s) ∧
      Runs.exec (X86.ops pml4).mapStep s sampleCalls = some s' ∧
      ¬GrantsAll (X86.ops pml4) (X86.effective pml4) X86.page s sampleCalls) ∧
    ∃ root s s', rivPgmapInit Sv32.sampleState = some (root, s) ∧
      Runs.exec (Sv32.ops root).mapStep s [⟨0x400000, 0x200000, 0⟩] = some s' ∧
      ¬GrantsAll (Sv32.ops root) (Sv32.effective root) Sv32.page s [⟨0x400000, 0x200000, 0⟩] := by
  constructor
  · obtain ⟨pml4, s, s', hinit, hrun, heff⟩ := x86_sample_run
    refine ⟨pml4, s, s', hinit, hrun, ?_⟩
    intro h
    have hlast := GrantsAll.last [⟨0x400000, 0x200000, 0⟩] h hrun
    exact absurd (heff.symm.trans hlast) (by decide)
  · obtain ⟨root, s, s', hinit, hrun, heff⟩ := sv32_sample_run
    refine ⟨root, s, s', hinit, hrun, ?_⟩
    intro h
    have hlast := GrantsAll.last [] h hrun
    exact absurd (heff.symm.trans hlast) (by decide)

end Rivet.Paging
