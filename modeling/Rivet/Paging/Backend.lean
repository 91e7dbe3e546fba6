import Rivet.Paging.Pmm

/-!
# Page tables as finite maps

What the two builds of `riv_pgmap_*` have in common: a walk down a radix tree of
tables, at whose end a leaf is written or read.  A backend is the format of the
entries with the laws that it satisfies; the operations on the tree of a backend
implement a finite map from pages to frames, and so do functions that agree with
them.
-/

namespace Rivet.Paging

open RadixTable

variable {w bits vbits ib D : ℕ}

/-- The functions of a build on one map. -/
structure PgOps (w : ℕ) where
  map : BitVec w → BitVec w → RivU32 → PgState w → RivI32 × PgState w
  unmap : BitVec w → PgState w → RivI32 × PgState w
  walk : BitVec w → Mem w → BitVec w

namespace PgOps

variable (ops : PgOps w)

def step (s : PgState w) : PgOp w → PgState w
  | .map vaddr paddr flags => (ops.map vaddr paddr flags s).2
  | .unmap vaddr => (ops.unmap vaddr s).2

def run (s : PgState w) (calls : List (PgOp w)) : PgState w := calls.foldl ops.step s

/-- In a state the functions act on the pages as on a finite map. -/
structure FiniteMap (vbits bits : ℕ) (s : PgState w) : Prop where
  map_ok : ∀ {v p f s'}, v.toNat < 2 ^ vbits → p.toNat < 2 ^ bits → ops.map v p f s = (0, s') →
    (∀ v' : BitVec w, v' >>> 12 = v >>> 12 →
      ops.walk v' s'.mem = (p &&& ~~~0xFFF) ||| (v' &&& 0xFFF)) ∧
    ∀ v' : BitVec w, v'.toNat < 2 ^ vbits → v' >>> 12 ≠ v >>> 12 →
      ops.walk v' s'.mem = ops.walk v' s.mem
  map_fails : ∀ {v p f r s'}, ops.map v p f s = (r, s') → r ≠ 0 →
    r = -1 ∧ ∀ v', ops.walk v' s'.mem = ops.walk v' s.mem
  unmap_ok : ∀ {v s'}, v.toNat < 2 ^ vbits → ops.unmap v s = (0, s') →
    (∀ v' : BitVec w, v' >>> 12 = v >>> 12 → ops.walk v' s'.mem = 0) ∧
    ∀ v' : BitVec w, v'.toNat < 2 ^ vbits → v' >>> 12 ≠ v >>> 12 →
      ops.walk v' s'.mem = ops.walk v' s.mem
  unmap_fails : ∀ {v r s'}, ops.unmap v s = (r, s') → r ≠ 0 →
    r = -1 ∧ ∀ v', ops.walk v' s'.mem = ops.walk v' s.mem

end PgOps

/-- A format of entries, the path of an address and the entries that are written. -/
structure Backend (w bits vbits ib D : ℕ) extends Format w ib where
  path : BitVec w → List (BitVec ib)
  leafOf : BitVec w → BitVec ib
  tableEntry : RivU32 → BitVec w → BitVec w
  leafEntry : BitVec w → RivU32 → BitVec w
  length_path : ∀ v, (path v).length = D
  page_path : ∀ {v v' : BitVec w}, v' >>> 12 = v >>> 12 → path v' = path v ∧ leafOf v' = leafOf v
  path_page : ∀ {v v' : BitVec w}, v.toNat < 2 ^ vbits → v'.toNat < 2 ^ vbits →
    path v' = path v → leafOf v' = leafOf v → v' >>> 12 = v >>> 12
  table_present : ∀ flags {f : BitVec w}, f.toNat % 4096 = 0 → f.toNat < 2 ^ bits →
    tableEntry flags f &&& 1 ≠ 0 ∧ target (tableEntry flags f) = f ∧ Link (tableEntry flags f)
  leaf_present : ∀ p flags, leafEntry p flags &&& 1 ≠ 0
  leaf_target : ∀ {p} flags, p.toNat < 2 ^ bits → target (leafEntry p flags) = p &&& ~~~0xFFF

namespace Backend

variable (B : Backend w bits vbits ib D) (R : Region w bits) (root : BitVec w)

abbrev tables : Space (BitVec w) (BitVec w) (BitVec ib) := R.space B.toFormat

abbrev frames : (B.tables R).Pool (RivPmm w) := R.pool B.toFormat

def fullPath (v : BitVec w) : List (BitVec ib) := B.path v ++ [B.leafOf v]

def map (v p : BitVec w) (flags : RivU32) (s : PgState w) : RivI32 × PgState w :=
  match (B.frames R).descend (B.tableEntry flags) (B.path v) root s.pmm s.mem with
  | (none, pmm, mem) => (-1, ⟨pmm, mem⟩)
  | (some t, pmm, mem) =>
    (0, ⟨pmm, Function.update mem ((B.tables R).slot t (B.leafOf v)) (B.leafEntry p flags)⟩)

def unmap (v : BitVec w) (s : PgState w) : RivI32 × PgState w :=
  match (B.tables R).follow s.mem root (B.path v) with
  | none => (-1, s)
  | some t => (0, { s with mem := Function.update s.mem ((B.tables R).slot t (B.leafOf v)) 0 })

def leaf? (mem : Mem w) (v : BitVec w) : Option (BitVec w) :=
  ((B.tables R).trace mem root (B.fullPath v)).bind List.getLast?

def walk (v : BitVec w) (mem : Mem w) : BitVec w :=
  (B.leaf? R root mem v).elim 0 fun e => B.target e ||| (v &&& 0xFFF)

variable {B R root}

theorem length_fullPath (v : BitVec w) : (B.fullPath v).length = D + 1 := by
  simp [fullPath, B.length_path]

variable {v v' : BitVec w} {s : PgState w}

theorem fullPath_of_page (h : v' >>> 12 = v >>> 12) :
    B.fullPath v' = B.fullPath v := by grind [fullPath, B.page_path]

theorem fullPath_ne (hv : v.toNat < 2 ^ vbits) (hv' : v'.toNat < 2 ^ vbits)
    (h : v' >>> 12 ≠ v >>> 12) : B.fullPath v' ≠ B.fullPath v := by
  intro heq
  obtain ⟨hpath, hleaf⟩ := List.append_inj' heq rfl
  exact h (B.path_page hv hv' hpath (List.singleton_inj.mp hleaf))

theorem links (flags : RivU32) : (B.tables R).Links (B.tableEntry flags) := by
  intro f hf
  have hbelow := Region.Frame.below hf
  obtain ⟨hpresent, htarget, hlink⟩ :=
    B.table_present flags (Region.Frame.aligned hf) (by omega)
  exact ⟨R.present_of_ne B.toFormat hpresent, htarget, hlink⟩

def Mapped (B : Backend w bits vbits ib D) (R : Region w bits) (root : BitVec w)
    (s : PgState w) : Prop := (B.frames R).Rooted D root s.pmm s.mem

theorem Mapped.manages (h : B.Mapped R root s) : R.Manages s.pmm := by
  obtain ⟨tab, hinv, -⟩ := h
  exact hinv.ok

theorem mapped_of_init {s0 : PgState w} (hm : R.Manages s0.pmm)
    (h : rivPgmapInit s0 = some (root, s)) : B.Mapped R root s := Region.rooted_of_init hm h D

theorem map_cases (h : B.Mapped R root s) (v p : BitVec w) (flags : RivU32) :
    (∃ s', B.map R root v p flags s = (-1, s') ∧ B.Mapped R root s' ∧ ∀ q, q.length = D + 1 →
        (B.tables R).trace s'.mem root q = (B.tables R).trace s.mem root q) ∨
    ∃ s', B.map R root v p flags s = (0, s') ∧ B.Mapped R root s' ∧
      (∃ fs : List (BitVec w), (∀ f ∈ fs, R.Frame f) ∧
        (B.tables R).trace s'.mem root (B.fullPath v) =
          some ((B.tables R).linked s.mem root (B.path v) ++ fs.map (B.tableEntry flags) ++
            [B.leafEntry p flags])) ∧ ∀ q, q.length = D + 1 → q ≠ B.fullPath v →
        (B.tables R).trace s'.mem root q = (B.tables R).trace s.mem root q := by
  unfold map
  obtain ⟨r, pmm, mem, hd⟩ : ∃ r pmm mem, (B.frames R).descend (B.tableEntry flags) (B.path v)
      root s.pmm s.mem = (r, pmm, mem) := ⟨_, _, _, rfl⟩
  rw [hd]
  cases r with
  | none =>
    left
    obtain ⟨hrooted, htrace⟩ := h.descend_none (links flags) (B.length_path v) hd
    exact ⟨⟨pmm, mem⟩, rfl, hrooted, htrace⟩
  | some t =>
    right
    obtain ⟨hrooted, hnew, hold⟩ := h.insert (links flags) (B.length_path v) hd (B.leafOf v)
      (R.present_of_ne B.toFormat (B.leaf_present p flags))
    exact ⟨_, rfl, hrooted, hnew, hold⟩

theorem unmap_cases (h : B.Mapped R root s) (v : BitVec w) : B.unmap R root v s = (-1, s) ∨
    ∃ s', B.unmap R root v s = (0, s') ∧ B.Mapped R root s' ∧
      (B.tables R).trace s'.mem root (B.fullPath v) = none ∧
      ∀ q, q.length = D + 1 → q ≠ B.fullPath v →
        (B.tables R).trace s'.mem root q = (B.tables R).trace s.mem root q := by
  unfold unmap
  cases ht : (B.tables R).follow s.mem root (B.path v) with
  | none => exact Or.inl rfl
  | some t =>
    right
    obtain ⟨hrooted, hnone, hold⟩ := h.erase (B.length_path v) ht (B.leafOf v)
    exact ⟨_, rfl, hrooted, hnone, hold⟩

theorem walk_congr {mem mem' : Mem w} (h : (B.tables R).trace mem' root (B.fullPath v) =
      (B.tables R).trace mem root (B.fullPath v)) : B.walk R root v mem' = B.walk R root v mem := by
  rw [walk, walk, leaf?, leaf?, h]

variable (B R root) in
def ops : PgOps w := ⟨B.map R root, B.unmap R root, B.walk R root⟩

theorem finiteMap (h : B.Mapped R root s) :
    (B.ops R root).FiniteMap vbits bits s where
  map_ok := by
    intro v p f s' hv hp hmap
    rcases map_cases h v p f with ⟨s₁, hs₁, -⟩ | ⟨s₁, hs₁, -, ⟨fs, -, htrace⟩, hothers⟩
    · cases hs₁.symm.trans hmap
    · cases hs₁.symm.trans hmap
      constructor
      · intro v' hpage
        show B.walk R root v' s'.mem = _
        rw [walk, leaf?, fullPath_of_page hpage, htrace, Option.bind_some, List.getLast?_concat,
          Option.elim_some, B.leaf_target f hp]
      · intro v' hv' hpage
        exact walk_congr (hothers _ (length_fullPath v') (fullPath_ne hv hv' hpage))
  map_fails := by
    intro v p f r s' hmap hr
    rcases map_cases h v p f with ⟨s₁, hs₁, -, htrace⟩ | ⟨s₁, hs₁, -⟩
    · cases hs₁.symm.trans hmap
      exact ⟨rfl, fun v' => walk_congr (htrace _ (length_fullPath v'))⟩
    · cases hs₁.symm.trans hmap
      exact absurd rfl hr
  unmap_ok := by
    intro v s' hv hunmap
    rcases unmap_cases h v with hs₁ | ⟨s₁, hs₁, -, hnone, hothers⟩
    · cases hs₁.symm.trans hunmap
    · cases hs₁.symm.trans hunmap
      constructor
      · intro v' hpage
        show B.walk R root v' s'.mem = _
        rw [walk, leaf?, fullPath_of_page hpage, hnone]
        rfl
      · intro v' hv' hpage
        exact walk_congr (hothers _ (length_fullPath v') (fullPath_ne hv hv' hpage))
  unmap_fails := by
    intro v r s' hunmap hr
    rcases unmap_cases h v with hs₁ | ⟨s₁, hs₁, -⟩
    · cases hs₁.symm.trans hunmap
      exact ⟨rfl, fun _ => rfl⟩
    · cases hs₁.symm.trans hunmap
      exact absurd rfl hr

theorem mapped_step (h : B.Mapped R root s) (call : PgOp w) :
    B.Mapped R root ((B.ops R root).step s call) := by
  cases call with
  | map v p f =>
    show B.Mapped R root (B.map R root v p f s).2
    rcases map_cases h v p f with ⟨s', hs', hmapped, -⟩ | ⟨s', hs', hmapped, -⟩
    all_goals simp_all
  | unmap v =>
    show B.Mapped R root (B.unmap R root v s).2
    rcases unmap_cases h v with hs' | ⟨s', hs', hmapped, -⟩
    all_goals simp_all

end Backend

/-! ## Functions that agree with a backend -/

/-- Functions that do what the operations on the tree do. -/
structure PgOps.Refines (ops : PgOps w) (B : Backend w bits vbits ib D) (R : Region w bits)
    (root : BitVec w) : Prop where
  map : ∀ {s} (v p f), R.Manages s.pmm → ops.map v p f s = B.map R root v p f s
  unmap : ∀ v s, ops.unmap v s = B.unmap R root v s
  walk : ∀ v mem, ops.walk v mem = B.walk R root v mem

namespace PgOps.Refines

variable {ops : PgOps w} {B : Backend w bits vbits ib D} {R : Region w bits} {root : BitVec w}
  (href : ops.Refines B R root)

include href

variable {s : PgState w}

theorem step_eq (hm : R.Manages s.pmm) (call : PgOp w) :
    ops.step s call = (B.ops R root).step s call := by
  cases call with
  | map v p f =>
    rw [step, href.map v p f hm]
    rfl
  | unmap v =>
    rw [step, href.unmap v s]
    rfl

theorem mapped_run (h : B.Mapped R root s) (calls : List (PgOp w)) :
    B.Mapped R root (ops.run s calls) := by
  induction calls generalizing s with
  | nil => exact h
  | cons call calls ih =>
    rw [run, List.foldl_cons, href.step_eq h.manages]
    exact ih (Backend.mapped_step h call)

theorem finiteMap_run (h : B.Mapped R root s) (calls : List (PgOp w)) :
    ops.FiniteMap vbits bits (ops.run s calls) := by
  have hmapped := href.mapped_run h calls
  obtain ⟨hmap, hmapf, hunmap, hunmapf⟩ := Backend.finiteMap hmapped
  have hwalk : ops.walk = (B.ops R root).walk := by
    funext v mem
    exact href.walk v mem
  constructor
  · intro v p f s' hv hp h
    rw [href.map v p f hmapped.manages] at h
    rw [hwalk]
    exact hmap hv hp h
  · intro v p f r s' h
    rw [href.map v p f hmapped.manages] at h
    rw [hwalk]
    exact hmapf h
  · intro v s' hv h
    rw [href.unmap] at h
    rw [hwalk]
    exact hunmap hv h
  · intro v r s' h
    rw [href.unmap] at h
    rw [hwalk]
    exact hunmapf h

end PgOps.Refines

end Rivet.Paging
