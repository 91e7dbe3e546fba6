import Rivet.Paging.Backend
import Rivet.Support.BitField

/-!
# Page tables of Sv32

The functions `riv_pgmap_*` of the RISC-V build: a root table and tables below
it, of 1024 entries of 32 bits.  An entry holds a frame number above ten bits of
flags.
-/

namespace Rivet.Paging
namespace Sv32

open RadixTable

def pteV : RivU32 := 1 <<< 0
def pteR : RivU32 := 1 <<< 1
def pteW : RivU32 := 1 <<< 2
def pteX : RivU32 := 1 <<< 3
def pteU : RivU32 := 1 <<< 4
def pteG : RivU32 := 1 <<< 5

/-- `_riv_pg_flags_to_rv`. -/
def rivPgFlagsToRv (f : RivU32) : RivU32 :=
  let v := pteV ||| pteR
  let v := if f &&& pgWrite ≠ 0 then v ||| pteW else v
  let v := if f &&& pgUser ≠ 0 then v ||| pteU else v
  if f &&& pgGlobal ≠ 0 then v ||| pteG else v

def entry (t i : RivU32) : RivU32 := t + 4 * i

def vpn1 (vaddr : RivU32) : RivU32 := (vaddr >>> 22) &&& 0x3FF
def vpn0 (vaddr : RivU32) : RivU32 := (vaddr >>> 12) &&& 0x3FF

def tableEntry (f : RivU32) : RivU32 := ((f >>> 12) <<< 10) ||| pteV

def leafEntry (paddr flags : RivU32) : RivU32 :=
  ((paddr >>> 12) <<< 10) ||| rivPgFlagsToRv flags

def addrOf (pte : RivU32) : RivU32 := (pte >>> 10) <<< 12

/-- `riv_pgmap_map`. -/
def rivPgmapMap (root vaddr paddr : RivU32) (flags : RivU32) (s : PgState 32) :
    RivI32 × PgState 32 :=
  let pde := s.mem (entry root (vpn1 vaddr))
  if pde &&& pteV = 0 then
    let (f, pmm, mem) := rivPmmAlloc s.pmm s.mem
    if f = 0 then (-1, ⟨pmm, mem⟩)
    else
      let mem := Function.update mem (entry root (vpn1 vaddr)) (tableEntry f)
      (0, ⟨pmm, Function.update mem (entry f (vpn0 vaddr)) (leafEntry paddr flags)⟩)
  else
    let pt := addrOf pde
    (0, { s with mem := Function.update s.mem (entry pt (vpn0 vaddr)) (leafEntry paddr flags) })

/-- `riv_pgmap_walk`. -/
def rivPgmapWalk (root vaddr : RivU32) (mem : Mem 32) : RivU32 :=
  let pde := mem (entry root (vpn1 vaddr))
  if pde &&& pteV = 0 then 0
  else
    let leaf := mem (entry (addrOf pde) (vpn0 vaddr))
    if leaf &&& pteV = 0 then 0 else addrOf leaf ||| (vaddr &&& 0xFFF)

/-- `riv_pgmap_unmap`. -/
def rivPgmapUnmap (root vaddr : RivU32) (s : PgState 32) : RivI32 × PgState 32 :=
  let pde := s.mem (entry root (vpn1 vaddr))
  if pde &&& pteV = 0 then (-1, s)
  else (0, { s with mem := Function.update s.mem (entry (addrOf pde) (vpn0 vaddr)) 0 })

/-! ## Bits of the entries -/

theorem getLsbD_pageMask : ∀ i < 32, (~~~0xFFF : RivU32).getLsbD i = decide (12 ≤ i) := by decide

theorem shift_page (a : RivU32) : (a >>> 12) <<< 12 = a &&& ~~~0xFFF := by
  apply BitVec.eq_of_getLsbD_eq
  intro i hi
  rw [BitVec.getLsbD_shiftLeft, BitVec.getLsbD_ushiftRight, BitVec.getLsbD_and,
    getLsbD_pageMask i hi]
  grind

theorem addrOf_or (a : RivU32) {flags : RivU32} (hflags : flags.toNat < 2 ^ 10) :
    addrOf (((a >>> 12) <<< 10) ||| flags) = a &&& ~~~0xFFF := by
  have hhigh : flags >>> 10 = 0 := by
    apply BitVec.eq_of_toNat_eq
    rw [BitVec.toNat_ushiftRight, Nat.shiftRight_eq_div_pow, Nat.div_eq_of_lt hflags]
    rfl
  have hframe : ((a >>> 12) <<< 10) >>> 10 = a >>> 12 := by
    apply BitVec.eq_of_toNat_eq
    rw [BitVec.toNat_ushiftRight, BitVec.toNat_shiftLeft, BitVec.toNat_ushiftRight,
      Nat.shiftRight_eq_div_pow, Nat.shiftRight_eq_div_pow, Nat.shiftLeft_eq]
    omega
  simp_all [addrOf, BitVec.ushiftRight_or_distrib, shift_page, BitVec.or_zero]

theorem rivPgFlagsToRv_bits (f : RivU32) :
    (rivPgFlagsToRv f).toNat < 2 ^ 10 ∧ rivPgFlagsToRv f &&& pteV = pteV := by
  unfold rivPgFlagsToRv
  split_ifs <;> decide

theorem and_page {f : RivU32} (haligned : f.toNat % 4096 = 0) : f &&& ~~~0xFFF = f := by
  rw [← shift_page]
  apply BitVec.eq_of_toNat_eq
  rw [BitVec.toNat_shiftLeft, BitVec.toNat_ushiftRight, Nat.shiftRight_eq_div_pow, Nat.shiftLeft_eq]
  omega

/-! ## The backend -/

theorem ushiftRight_and_mask (v : RivU32) (n : ℕ) :
    (v >>> n) &&& 0x3FF = (v.extractLsb' n 10).setWidth 32 := by
  apply BitVec.eq_of_toNat_eq
  rw [BitField.toNat_ushiftRight_and v 0x3FF (w := 10) rfl, BitVec.toNat_setWidth,
    BitVec.extractLsb'_toNat, BitField.extract, Nat.shiftRight_eq_div_pow]
  omega

def path (vaddr : RivU32) : List (BitVec 10) := [vaddr.extractLsb' 22 10]

def leafOf (vaddr : RivU32) : BitVec 10 := vaddr.extractLsb' 12 10

theorem page_path {v v' : RivU32} (h : v' >>> 12 = v >>> 12) :
    path v' = path v ∧ leafOf v' = leafOf v := by
  have hbits : ∀ n, v'.extractLsb' (12 + n) 10 = v.extractLsb' (12 + n) 10 := by
    simp [extractLsb'_add_twelve, h]
  unfold path leafOf
  rw [hbits 10, hbits 0]
  exact ⟨rfl, rfl⟩

theorem path_page {v v' : RivU32} (hpath : path v' = path v) (hleaf : leafOf v' = leafOf v) :
    v' >>> 12 = v >>> 12 := by
  simp only [path, leafOf, List.cons.injEq, ← BitVec.toNat_inj, BitVec.extractLsb'_toNat,
    Nat.shiftRight_eq_div_pow] at hpath hleaf
  apply BitVec.eq_of_toNat_eq
  rw [BitVec.toNat_ushiftRight, BitVec.toNat_ushiftRight, Nat.shiftRight_eq_div_pow,
    Nat.shiftRight_eq_div_pow]
  omega

def format : Format 32 10 where
  size := 4
  size_mul := rfl
  target := addrOf
  Link _ := True

def backend : Backend 32 32 32 10 1 where
  toFormat := format
  path := path
  leafOf := leafOf
  tableEntry _ := tableEntry
  leafEntry := leafEntry
  length_path _ := rfl
  page_path := page_path
  path_page _ _ := path_page
  table_present := by
    intro flags f haligned hlt
    refine ⟨?_, ?_, trivial⟩
    · intro h
      rw [tableEntry, or_and_distrib] at h
      cases (BitVec.or_eq_zero_iff.mp h).2
    · show addrOf (tableEntry f) = f
      rw [tableEntry, addrOf_or f (by decide), and_page haligned]
  leaf_present := by
    intro p flags h
    rw [leafEntry, or_and_distrib] at h
    cases (rivPgFlagsToRv_bits flags).2.symm.trans (BitVec.or_eq_zero_iff.mp h).2
  leaf_target := by
    intro p flags _
    exact addrOf_or p (rivPgFlagsToRv_bits flags).1

theorem vpn1_eq (v : RivU32) : vpn1 v = (v.extractLsb' 22 10).setWidth 32 :=
  ushiftRight_and_mask v 22

theorem vpn0_eq (v : RivU32) : vpn0 v = (backend.leafOf v).setWidth 32 :=
  ushiftRight_and_mask v 12

variable {mem : Mem 32} {t : RivU32} {i : BitVec 10}

theorem absent_slot (R : Region 32 32) (h : mem (entry t (i.setWidth 32)) &&& pteV = 0) :
    (backend.tables R).present (mem ((backend.tables R).slot t i)) = false :=
  R.absent_of_eq backend.toFormat h

theorem present_slot (R : Region 32 32) (h : mem (entry t (i.setWidth 32)) &&& pteV ≠ 0) :
    (backend.tables R).present (mem ((backend.tables R).slot t i)) = true :=
  R.present_of_ne backend.toFormat h

def ops (root : RivU32) : PgOps 32 := ⟨rivPgmapMap root, rivPgmapUnmap root, rivPgmapWalk root⟩

theorem path_eq (v : RivU32) : backend.path v = [v.extractLsb' 22 10] := rfl

theorem map_eq {R : Region 32 32} {s : PgState 32} (hm : R.Manages s.pmm) (root v p : RivU32)
    (f : RivU32) : rivPgmapMap root v p f s = backend.map R root v p f s := by
  rw [rivPgmapMap, Backend.map, path_eq, vpn1_eq, vpn0_eq]
  dsimp only
  by_cases hp : s.mem (entry root ((v.extractLsb' 22 10).setWidth 32)) &&& pteV = 0
  · have habsent := absent_slot R hp
    rw [if_pos hp]
    obtain ⟨fr, pmm, mem, halloc⟩ : ∃ fr pmm mem, rivPmmAlloc s.pmm s.mem = (fr, pmm, mem) :=
      ⟨_, _, _, rfl⟩
    rw [halloc]
    by_cases hf : fr = 0
    · have hzero : (rivPmmAlloc s.pmm s.mem).1 = 0 := by rw [halloc, hf]
      have hnone : (backend.frames R).alloc s.pmm s.mem = none := if_pos hzero
      cases halloc.symm.trans (Region.rivPmmAlloc_eq_zero hm hzero)
      rw [Space.Pool.descend_of_full habsent hnone, if_pos rfl]
    · have hsome : (backend.frames R).alloc s.pmm s.mem = some (fr, pmm, mem) := by
        rw [← halloc]
        exact if_neg (by rw [halloc]; exact hf)
      rw [Space.Pool.descend_of_alloc habsent hsome, if_neg hf]
      rfl
  · rw [Space.Pool.descend_of_present (present_slot R hp), if_neg hp]
    rfl

theorem leaf_elim (R : Region 32 32) (mem : Mem 32) (t : RivU32) (i : BitVec 10) (v : RivU32) :
    ((if (backend.tables R).present (mem ((backend.tables R).slot t i)) then
      some (mem ((backend.tables R).slot t i)) else none).elim 0
        fun e => backend.target e ||| (v &&& 0xFFF)) =
      if mem (entry t (i.setWidth 32)) &&& pteV = 0 then 0
      else addrOf (mem (entry t (i.setWidth 32))) ||| (v &&& 0xFFF) := by
  by_cases h : mem (entry t (i.setWidth 32)) &&& pteV = 0
  · rw [if_pos h, absent_slot R h]
    rfl
  · rw [if_neg h, present_slot R h]
    rfl

theorem refines (R : Region 32 32) (root : RivU32) : (ops root).Refines backend R root where
  map v p f hm := map_eq hm root v p f
  unmap := by
    intro v s
    show rivPgmapUnmap root v s = _
    rw [rivPgmapUnmap, Backend.unmap, path_eq, vpn1_eq, vpn0_eq]
    by_cases hp : s.mem (entry root ((v.extractLsb' 22 10).setWidth 32)) &&& pteV = 0
    · rw [if_pos hp, Space.follow_cons_of_absent (absent_slot R hp)]
    · rw [if_neg hp, Space.follow_cons_of_present (present_slot R hp)]
      rfl
  walk := by
    intro v mem
    show rivPgmapWalk root v mem = _
    rw [rivPgmapWalk, Backend.walk, Backend.leaf?, Backend.fullPath, Space.trace_getLast, path_eq,
      vpn1_eq, vpn0_eq]
    dsimp only
    by_cases hp : mem (entry root ((v.extractLsb' 22 10).setWidth 32)) &&& pteV = 0
    · rw [if_pos hp, Space.follow_cons_of_absent (absent_slot R hp)]
      rfl
    · rw [if_neg hp, Space.follow_cons_of_present (present_slot R hp), Space.follow,
        Option.bind_some]
      exact (leaf_elim R mem _ (backend.leafOf v) v).symm

/-- Page tables of Sv32 implement a finite map, in every state of every run of
mappings and unmappings on a new map. -/
theorem twoLevel_finiteMap {R : Region 32 32} {s₀ s : PgState 32} {root : RivU32}
    (hm : R.Manages s₀.pmm) (hinit : rivPgmapInit s₀ = some (root, s))
    (calls : List (PgOp 32)) : (ops root).FiniteMap 32 32 ((ops root).run s calls) :=
  (refines R root).finiteMap_run (Backend.mapped_of_init hm hinit) calls

def sampleRegion : Region 32 32 where
  base := 0x100000
  nframes := 8
  base_ne_zero := by decide
  aligned := by decide
  below := by decide
  bits_le := by decide

def sampleState : PgState 32 := ⟨rivPmmInit (fun _ => 0) 0x100000 8, fun _ => 0⟩

theorem twoLevel_finiteMap_sample : ∃ root s, rivPgmapInit sampleState = some (root, s) ∧
      (ops root).FiniteMap 32 32
        ((ops root).run s [.map 0x400000 0x200000 pgWrite, .unmap 0x400000]) := by
  obtain ⟨⟨root, s⟩, hinit⟩ := Option.isSome_iff_exists.mp
    (show (rivPgmapInit sampleState).isSome = true by decide +kernel)
  exact ⟨root, s, hinit, twoLevel_finiteMap (R := sampleRegion) ⟨rfl, rfl⟩ hinit _⟩

end Sv32
end Rivet.Paging
