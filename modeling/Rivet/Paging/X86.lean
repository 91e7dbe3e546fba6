import Rivet.Paging.Backend
import Rivet.Support.BitField

/-!
# Page tables of x86_64

The functions `riv_pgmap_*` of the x86_64 build: four levels of tables with 512
entries of 64 bits.  The tables of a map are a radix tree in the frames of the
allocator.
-/

namespace Rivet.Paging

namespace X86

open RadixTable

def pteP : RivU64 := 1 <<< 0
def pteRw : RivU64 := 1 <<< 1
def pteUs : RivU64 := 1 <<< 2
def pteG : RivU64 := 1 <<< 8
def pteNx : RivU64 := 1 <<< 63
def addrMask : RivU64 := 0x000FFFFFFFFFF000

/-- `_riv_pg_flags_to_x86`. -/
def rivPgFlagsToX86 (f : RivU32) : RivU64 :=
  let v := pteP
  let v := if f &&& pgWrite ≠ 0 then v ||| pteRw else v
  let v := if f &&& pgUser ≠ 0 then v ||| pteUs else v
  let v := if f &&& pgGlobal ≠ 0 then v ||| pteG else v
  if f &&& pgNx ≠ 0 then v ||| pteNx else v

def entry (t i : RivU64) : RivU64 := t + 8 * i

def tableIdx (vaddr : RivU64) : List RivU64 :=
  [(vaddr >>> 39) &&& 0x1FF, (vaddr >>> 30) &&& 0x1FF, (vaddr >>> 21) &&& 0x1FF]

def leafIdx (vaddr : RivU64) : RivU64 := (vaddr >>> 12) &&& 0x1FF

def tableEntry (flags : RivU32) (f : RivU64) : RivU64 :=
  f ||| pteP ||| pteRw ||| (if flags &&& pgUser ≠ 0 then pteUs else 0)

def leafEntry (paddr : RivU64) (flags : RivU32) : RivU64 :=
  (paddr &&& ~~~0xFFF) ||| rivPgFlagsToX86 flags

/-- The loop of `riv_pgmap_map`; there is no table when a frame is missing. -/
def descend (flags : RivU32) : List RivU64 → RivU64 → PgState 64 → Option RivU64 × PgState 64
  | [], t, s => (some t, s)
  | i :: is, t, s =>
    let e := s.mem (entry t i)
    if e &&& pteP = 0 then
      let (f, pmm, mem) := rivPmmAlloc s.pmm s.mem
      if f = 0 then (none, ⟨pmm, mem⟩)
      else
        descend flags is f ⟨pmm, Function.update mem (entry t i) (tableEntry flags f)⟩
    else descend flags is (e &&& addrMask) s

/-- `riv_pgmap_map`. -/
def rivPgmapMap (pml4 vaddr paddr : RivU64) (flags : RivU32) (s : PgState 64) :
    RivI32 × PgState 64 :=
  match descend flags (tableIdx vaddr) pml4 s with
  | (none, s) => (-1, s)
  | (some t, s) =>
    (0, { s with
      mem := Function.update s.mem (entry t (leafIdx vaddr)) (leafEntry paddr flags) })

/-- The loop of `riv_pgmap_walk` and `riv_pgmap_unmap`. -/
def walkTables (mem : Mem 64) : List RivU64 → RivU64 → Option RivU64
  | [], t => some t
  | i :: is, t =>
    let e := mem (entry t i)
    if e &&& pteP = 0 then none else walkTables mem is (e &&& addrMask)

/-- `riv_pgmap_walk`. -/
def rivPgmapWalk (pml4 vaddr : RivU64) (mem : Mem 64) : RivU64 :=
  match walkTables mem (tableIdx vaddr) pml4 with
  | none => 0
  | some t =>
    let leaf := mem (entry t (leafIdx vaddr))
    if leaf &&& pteP = 0 then 0 else (leaf &&& addrMask) ||| (vaddr &&& 0xFFF)

/-- `riv_pgmap_unmap`. -/
def rivPgmapUnmap (pml4 vaddr : RivU64) (s : PgState 64) : RivI32 × PgState 64 :=
  match walkTables s.mem (tableIdx vaddr) pml4 with
  | none => (-1, s)
  | some t => (0, { s with mem := Function.update s.mem (entry t (leafIdx vaddr)) 0 })

/-! ## The tree of a map -/

def format : Format 64 9 where
  size := 8
  size_mul := rfl
  target e := e &&& addrMask
  Link e := e &&& pteRw ≠ 0 ∧ e &&& pteNx = 0

def path (vaddr : RivU64) : List (BitVec 9) :=
  [vaddr.extractLsb' 39 9, vaddr.extractLsb' 30 9, vaddr.extractLsb' 21 9]

def leafOf (vaddr : RivU64) : BitVec 9 := vaddr.extractLsb' 12 9

theorem ushiftRight_and_mask (v : RivU64) (n : ℕ) :
    (v >>> n) &&& 0x1FF = (v.extractLsb' n 9).setWidth 64 := by
  apply BitVec.eq_of_toNat_eq
  rw [BitField.toNat_ushiftRight_and v 0x1FF (w := 9) rfl, BitVec.toNat_setWidth,
    BitVec.extractLsb'_toNat, BitField.extract, Nat.shiftRight_eq_div_pow]
  omega

/-! ## Bits of the entries -/

theorem flags_bits (f : RivU32) :
    rivPgFlagsToX86 f &&& addrMask = 0 ∧ rivPgFlagsToX86 f &&& pteP = pteP := by
  unfold rivPgFlagsToX86
  split_ifs <;> decide

theorem and_addrMask {f : RivU64} (haligned : f.toNat % 4096 = 0) (hlt : f.toNat < 2 ^ 52) :
    f &&& addrMask = f := by
  have hlow : f &&& 0xFFF = 0 := by
    apply BitVec.eq_of_toNat_eq
    rw [BitField.toNat_and_mask f 0xFFF (w := 12) rfl]
    exact haligned
  calc f &&& addrMask
      = (f &&& 0xFFF) ||| (f &&& addrMask) := by rw [hlow]; exact BitVec.zero_or.symm
    _ = f &&& (0xFFF ||| addrMask) := BitVec.and_or_distrib_left.symm
    _ = f := and_mask_of_lt (n := 52) rfl hlt

theorem tableEntry_and (flags : RivU32) (f m : RivU64) : tableEntry flags f &&& m =
      (f &&& m) ||| ((pteP ||| pteRw ||| if flags &&& pgUser ≠ 0 then pteUs else 0) &&& m) := by
  simp [tableEntry, BitVec.or_assoc, or_and_distrib]

theorem tableEntry_bits (flags : RivU32) {f : RivU64} (haligned : f.toNat % 4096 = 0)
    (hlt : f.toNat < 2 ^ 52) :
    tableEntry flags f &&& pteP ≠ 0 ∧ tableEntry flags f &&& addrMask = f ∧
      tableEntry flags f &&& pteRw ≠ 0 ∧ tableEntry flags f &&& pteNx = 0 := by
  have hnx : f &&& pteNx = 0 := by
    rw [← and_addrMask haligned hlt, BitVec.and_assoc]
    exact BitVec.and_zero
  rw [tableEntry_and, tableEntry_and, tableEntry_and, tableEntry_and, and_addrMask haligned hlt,
    hnx]
  refine ⟨fun h => ?_, ?_, fun h => ?_, ?_⟩
  · have h := (BitVec.or_eq_zero_iff.mp h).2
    split_ifs at h <;> cases h
  · split_ifs <;> exact BitVec.or_zero
  · have h := (BitVec.or_eq_zero_iff.mp h).2
    split_ifs at h <;> cases h
  · split_ifs <;> rfl

theorem leafEntry_present (p : RivU64) (flags : RivU32) : leafEntry p flags &&& pteP ≠ 0 := by
  intro h
  rw [leafEntry, or_and_distrib, (flags_bits flags).2] at h
  cases (BitVec.or_eq_zero_iff.mp h).2

theorem leafEntry_target {p : RivU64} (flags : RivU32) (hp : p.toNat < 2 ^ 52) :
    leafEntry p flags &&& addrMask = p &&& ~~~0xFFF := by
  have hmask : p &&& addrMask = p &&& ~~~0xFFF := by
    calc p &&& addrMask
        = p &&& 0xFFFFFFFFFFFFF &&& ~~~0xFFF := by
          rw [BitVec.and_assoc]
          rfl
      _ = p &&& ~~~0xFFF := by rw [and_mask_of_lt (n := 52) rfl hp]
  rw [leafEntry, or_and_distrib, (flags_bits flags).1, BitVec.and_assoc]
  exact BitVec.or_zero.trans hmask

/-! ## The backend -/

theorem page_path {v v' : RivU64} (h : v' >>> 12 = v >>> 12) :
    path v' = path v ∧ leafOf v' = leafOf v := by
  have hbits : ∀ n, v'.extractLsb' (12 + n) 9 = v.extractLsb' (12 + n) 9 := by
    simp [extractLsb'_add_twelve, h]
  unfold path leafOf
  grind

theorem path_page {v v' : RivU64} (hv : v.toNat < 2 ^ 48) (hv' : v'.toNat < 2 ^ 48)
    (hpath : path v' = path v) (hleaf : leafOf v' = leafOf v) : v' >>> 12 = v >>> 12 := by
  simp only [path, leafOf, List.cons.injEq, ← BitVec.toNat_inj, BitVec.extractLsb'_toNat,
    Nat.shiftRight_eq_div_pow] at hpath hleaf
  apply BitVec.eq_of_toNat_eq
  rw [BitVec.toNat_ushiftRight, BitVec.toNat_ushiftRight, Nat.shiftRight_eq_div_pow,
    Nat.shiftRight_eq_div_pow]
  omega

def backend : Backend 64 52 48 9 3 where
  toFormat := format
  path := path
  leafOf := leafOf
  tableEntry := tableEntry
  leafEntry := leafEntry
  length_path _ := rfl
  page_path := page_path
  path_page := path_page
  table_present := by
    intro flags f haligned hlt
    obtain ⟨hp, htarget, hrw, hnx⟩ := tableEntry_bits flags haligned hlt
    exact ⟨hp, htarget, hrw, hnx⟩
  leaf_present := leafEntry_present
  leaf_target := leafEntry_target

theorem tableIdx_eq (v : RivU64) : tableIdx v = (backend.path v).map (BitVec.setWidth 64) := by
  unfold tableIdx
  rw [ushiftRight_and_mask, ushiftRight_and_mask, ushiftRight_and_mask]
  rfl

theorem leafIdx_eq (v : RivU64) : leafIdx v = (backend.leafOf v).setWidth 64 :=
  ushiftRight_and_mask v 12

variable {R : Region 64 52} {mem : Mem 64} {t : RivU64} {i : BitVec 9}

theorem absent_slot (R : Region 64 52) (h : mem (entry t (i.setWidth 64)) &&& pteP = 0) :
    (backend.tables R).present (mem ((backend.tables R).slot t i)) = false :=
  R.absent_of_eq backend.toFormat h

theorem present_slot (R : Region 64 52) (h : mem (entry t (i.setWidth 64)) &&& pteP ≠ 0) :
    (backend.tables R).present (mem ((backend.tables R).slot t i)) = true :=
  R.present_of_ne backend.toFormat h

theorem walkTables_eq (R : Region 64 52) (mem : Mem 64) (is : List (BitVec 9)) (t : RivU64) :
    walkTables mem (is.map (BitVec.setWidth 64)) t = (backend.tables R).follow mem t is := by
  induction is generalizing t with
  | nil => rfl
  | cons i is ih =>
    rw [List.map_cons, walkTables]
    by_cases hp : mem (entry t (i.setWidth 64)) &&& pteP = 0
    · rw [if_pos hp, Space.follow_cons_of_absent (absent_slot R hp)]
    · rw [if_neg hp, Space.follow_cons_of_present (present_slot R hp), ih]
      rfl

theorem descend_eq (flags : RivU32) (is : List (BitVec 9)) (t : RivU64) {s : PgState 64}
    (hm : R.Manages s.pmm) {r : Option RivU64} {pmm : RivPmm 64} {mem : Mem 64}
    (hd : (backend.frames R).descend (backend.tableEntry flags) is t s.pmm s.mem = (r, pmm, mem)) :
    descend flags (is.map (BitVec.setWidth 64)) t s = (r, ⟨pmm, mem⟩) := by
  induction is generalizing t s with
  | nil =>
    cases hd
    rfl
  | cons i is ih =>
    rw [List.map_cons, descend]
    dsimp only
    by_cases hp : s.mem (entry t (i.setWidth 64)) &&& pteP = 0
    · have habsent := absent_slot R hp
      rw [if_pos hp]
      obtain ⟨f, pmm1, mem1, halloc⟩ :
          ∃ f pmm mem, rivPmmAlloc s.pmm s.mem = (f, pmm, mem) := ⟨_, _, _, rfl⟩
      rw [halloc]
      by_cases hf : f = 0
      · have hzero : (rivPmmAlloc s.pmm s.mem).1 = 0 := by rw [halloc, hf]
        have hnone : (backend.frames R).alloc s.pmm s.mem = none := if_pos hzero
        cases halloc.symm.trans (Region.rivPmmAlloc_eq_zero hm hzero)
        simp_all [Space.Pool.descend_of_full]
      · have hsome : (backend.frames R).alloc s.pmm s.mem = some (f, pmm1, mem1) := by
          rw [← halloc]
          exact if_neg (by rw [halloc]; exact hf)
        rw [Space.Pool.descend_of_alloc habsent hsome] at hd
        rw [if_neg hf]
        exact ih f ((backend.frames R).alloc_ok hm hsome) hd
    · rw [Space.Pool.descend_of_present (present_slot R hp)] at hd
      rw [if_neg hp]
      exact ih _ hm hd

def ops (pml4 : RivU64) : PgOps 64 := ⟨rivPgmapMap pml4, rivPgmapUnmap pml4, rivPgmapWalk pml4⟩

theorem refines (R : Region 64 52) (pml4 : RivU64) : (ops pml4).Refines backend R pml4 where
  map := by
    intro s v p f hm
    show rivPgmapMap pml4 v p f s = _
    obtain ⟨r, pmm, mem, hd⟩ : ∃ r pmm mem, (backend.frames R).descend (backend.tableEntry f)
        (backend.path v) pml4 s.pmm s.mem = (r, pmm, mem) := ⟨_, _, _, rfl⟩
    rw [rivPgmapMap, Backend.map, tableIdx_eq, descend_eq f (backend.path v) pml4 hm hd, leafIdx_eq, hd]
    cases r <;> rfl
  unmap := by
    intro v s
    show rivPgmapUnmap pml4 v s = _
    rw [rivPgmapUnmap, Backend.unmap, tableIdx_eq, walkTables_eq R, leafIdx_eq]
    cases (backend.tables R).follow s.mem pml4 (backend.path v) <;> rfl
  walk := by
    intro v mem
    show rivPgmapWalk pml4 v mem = _
    rw [rivPgmapWalk, Backend.walk, Backend.leaf?, Backend.fullPath, tableIdx_eq,
      walkTables_eq R, leafIdx_eq, Space.trace_getLast]
    cases (backend.tables R).follow mem pml4 (backend.path v) with
    | none => rfl
    | some t =>
      rw [Option.bind_some]
      dsimp only
      by_cases hp : mem (entry t ((backend.leafOf v).setWidth 64)) &&& pteP = 0
      · rw [if_pos hp, absent_slot R hp]
        rfl
      · rw [if_neg hp, present_slot R hp]
        rfl

/-- Page tables of x86_64 implement a finite map, in every state of every run of
mappings and unmappings on a new map. -/
theorem fourLevel_finiteMap {R : Region 64 52} {s₀ s : PgState 64} {pml4 : RivU64}
    (hm : R.Manages s₀.pmm) (hinit : rivPgmapInit s₀ = some (pml4, s))
    (calls : List (PgOp 64)) : (ops pml4).FiniteMap 48 52 ((ops pml4).run s calls) :=
  (refines R pml4).finiteMap_run (Backend.mapped_of_init hm hinit) calls

def sampleRegion : Region 64 52 where
  base := 0x100000
  nframes := 8
  base_ne_zero := by decide
  aligned := by decide
  below := by decide
  bits_le := by decide

def sampleState : PgState 64 := ⟨rivPmmInit (fun _ => 0) 0x100000 8, fun _ => 0⟩

theorem fourLevel_finiteMap_sample : ∃ pml4 s, rivPgmapInit sampleState = some (pml4, s) ∧
      (ops pml4).FiniteMap 48 52
        ((ops pml4).run s [.map 0x400000 0x200000 pgWrite, .unmap 0x400000]) := by
  obtain ⟨⟨pml4, s⟩, hinit⟩ := Option.isSome_iff_exists.mp
    (show (rivPgmapInit sampleState).isSome = true by decide +kernel)
  exact ⟨pml4, s, hinit, fourLevel_finiteMap (R := sampleRegion) ⟨rfl, rfl⟩ hinit _⟩

end X86
end Rivet.Paging
