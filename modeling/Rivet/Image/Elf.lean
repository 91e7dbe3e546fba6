import Mathlib.Tactic
import Rivet.Core

/-!
# The program loader

`riv_elf_load` of `elf.h`.  Addresses are offsets from the start of the image,
modulo the width of an address; a read at an offset that is not inside the image
ends the model, as nothing can be said of what follows it.  The property compares
the loader with one that returns -1 at the first malformed program header.
-/

namespace Rivet.Elf

variable {i p : ℕ}

/-- An image in memory: its length is a `riv_size`. -/
structure Image (wb : WordBits) where
  bytes : List RivU8
  fits : bytes.length < 2 ^ wb.width

variable {wb : WordBits}

/-- The byte at `img + off`. -/
def Image.byte (img : Image wb) (off : ℕ) : Option RivU8 := img.bytes[off % 2 ^ wb.width]?

/-- The little-endian field of `size` bytes at `img + off`. -/
def Image.field (img : Image wb) : ℕ → ℕ → Option ℕ
  | _, 0 => some 0
  | off, size + 1 => do
    let b ← img.byte off
    let rest ← img.field (off + 1) size
    some (b.toNat + 256 * rest)

variable {img : Image wb}

theorem Image.field_lt {off size v : ℕ} (h : img.field off size = some v) : v < 256 ^ size := by
  induction size generalizing off v with
  | zero =>
    cases h
    decide
  | succ size ih =>
    obtain ⟨b, -, h⟩ := Option.bind_eq_some_iff.mp h
    obtain ⟨rest, hrest, h⟩ := Option.bind_eq_some_iff.mp h
    grind [pow_succ, b.isLt]

theorem Image.exists_field (img : Image wb) (off size : ℕ)
    (h : off + size ≤ img.bytes.length) : ∃ v, img.field off size = some v := by
  induction size generalizing off with
  | zero => exact ⟨0, rfl⟩
  | succ size ih =>
    have hmod : off % 2 ^ wb.width = off := Nat.mod_eq_of_lt (by have := img.fits; omega)
    have hlt : off < img.bytes.length := by omega
    obtain ⟨rest, hrest⟩ := ih (off + 1) (by omega)
    simp_all [Image.field, Image.byte]

/-! ## The file header -/

/-- `riv_elf_is_valid`: the length is checked before the magic number is read. -/
def rivElfIsValid (img : Image wb) : Bool :=
  if img.bytes.length < 64 then false
  else img.byte 0 = some 0x7F ∧ img.byte 1 = some 0x45 ∧ img.byte 2 = some 0x4C ∧
    img.byte 3 = some 0x46

/-- The fields of `riv_elf64_ehdr` that the loader reads. -/
structure Ehdr where
  elfClass : ℕ
  type : ℕ
  phoff : ℕ
  phentsize : ℕ
  phnum : ℕ
  deriving DecidableEq, Repr

def readEhdr (img : Image wb) : Option Ehdr := do
  let elfClass ← img.field 4 1
  let type ← img.field 16 2
  let phoff ← img.field 32 8
  let phentsize ← img.field 54 2
  let phnum ← img.field 56 2
  some ⟨elfClass, type, phoff, phentsize, phnum⟩

/-! ## Program headers -/

/-- `riv_elf_phdr`: the offset of a program header. -/
def rivElfPhdr (e : Ehdr) (i : ℕ) : Option ℕ :=
  if e.phnum ≤ i then none else some (e.phoff + i * e.phentsize)

def ptLoad : ℕ := 1

/-- The arguments of `place`; `data` is the pointer as an offset from the image. -/
structure PlaceCall where
  vaddr : ℕ
  data : ℕ
  filesz : ℕ
  memsz : ℕ
  flags : ℕ
  deriving DecidableEq, Repr

/-- What the body of the loop does with a program header at `p`. -/
inductive PhdrAction where
  | readsOutside
  | skip
  | reject
  | call (c : PlaceCall)
  deriving DecidableEq, Repr

/-- The body of the loop up to the call, with the reads in the order of the
source: a header of another type is skipped after its first field. -/
def phdrAction (img : Image wb) (p : ℕ) : PhdrAction :=
  match img.field p 4 with
  | none => .readsOutside
  | some type =>
  if type ≠ ptLoad then .skip
  else
  match img.field (p + 8) 8, img.field (p + 32) 8 with
  | some offset, some filesz =>
    if img.bytes.length < (offset + filesz) % 2 ^ 64 then .reject
    else
    match img.field (p + 16) 8, img.field (p + 40) 8, img.field (p + 4) 4 with
    | some vaddr, some memsz, some flags =>
      .call ⟨vaddr, offset % 2 ^ wb.width, filesz, memsz, flags⟩
    | _, _, _ => .readsOutside
  | _, _ => .readsOutside

/-! ## The loader -/

/-- How a call of the loader ends. -/
inductive Outcome where
  | readsOutside
  | returned (r : RivI32)
  deriving DecidableEq, Repr

/-- The end of a call, the calls of `place` it has made, and the state that
`place` has left in its context. -/
structure Run (σ : Type) where
  outcome : Outcome
  calls : List PlaceCall
  ctx : σ

abbrev PlaceFn (σ : Type) := PlaceCall → σ → RivI32 × σ

section Loader

variable {σ : Type} (img : Image wb) (place : PlaceFn σ)

/-- Call `place`, and go on with `next` when it returns zero. -/
def Run.placing (c : PlaceCall) (ctx : σ) (next : σ → Run σ) : Run σ :=
  let (r, ctx) := place c ctx
  if r ≠ 0 then ⟨.returned r, [c], ctx⟩
  else { next ctx with calls := c :: (next ctx).calls }

/-- The loop over the program headers, with `k` of them left from `i` on. -/
def loadFrom (e : Ehdr) : ℕ → ℕ → σ → Run σ
  | 0, _, ctx => ⟨.returned 0, [], ctx⟩
  | k + 1, i, ctx =>
    match rivElfPhdr e i with
    | none => ⟨.readsOutside, [], ctx⟩
    | some p =>
    match phdrAction img p with
    | .readsOutside => ⟨.readsOutside, [], ctx⟩
    | .skip => loadFrom e k (i + 1) ctx
    | .reject => ⟨.returned (-1), [], ctx⟩
    | .call c => Run.placing place c ctx (loadFrom e k (i + 1))

def rivElfLoad (ctx : σ) : Run σ :=
  if rivElfIsValid img = false then ⟨.returned (-1), [], ctx⟩
  else
  match readEhdr img with
  | none => ⟨.readsOutside, [], ctx⟩
  | some e =>
    if e.elfClass ≠ 2 then ⟨.returned (-1), [], ctx⟩
    else if e.type ≠ 2 ∧ e.type ≠ 3 then ⟨.returned (-1), [], ctx⟩
    else loadFrom img place e e.phnum 0 ctx

end Loader

/-! ## The property -/

/-- A call hands out bytes of the image, and no more than the segment takes. -/
def PlaceCall.InImage (img : Image wb) (c : PlaceCall) : Prop :=
  c.data + c.filesz ≤ img.bytes.length ∧ c.filesz ≤ c.memsz

instance (img : Image wb) (c : PlaceCall) : Decidable (c.InImage img) := by
  unfold PlaceCall.InImage
  infer_instance

/-- A PT_LOAD segment, read as a whole. -/
structure Segment where
  offset : ℕ
  filesz : ℕ
  vaddr : ℕ
  memsz : ℕ
  flags : ℕ
  deriving DecidableEq, Repr

def segmentAt (img : Image wb) (p : ℕ) : Option Segment := do
  let offset ← img.field (p + 8) 8
  let filesz ← img.field (p + 32) 8
  let vaddr ← img.field (p + 16) 8
  let memsz ← img.field (p + 40) 8
  let flags ← img.field (p + 4) 4
  some ⟨offset, filesz, vaddr, memsz, flags⟩

def Segment.Good (img : Image wb) (s : Segment) : Prop :=
  s.offset + s.filesz ≤ img.bytes.length ∧ s.filesz ≤ s.memsz

instance (img : Image wb) (s : Segment) : Decidable (s.Good img) := by
  unfold Segment.Good
  infer_instance

def Segment.placed (s : Segment) : PlaceCall := ⟨s.vaddr, s.offset, s.filesz, s.memsz, s.flags⟩

section Checked

variable {σ : Type} (img : Image wb) (place : PlaceFn σ)

/-- The loop with every check: a header of the type PT_LOAD that is not inside
the image, or whose bytes are not, ends it with -1. -/
def checkedFrom (e : Ehdr) : ℕ → ℕ → σ → Run σ
  | 0, _, ctx => ⟨.returned 0, [], ctx⟩
  | k + 1, i, ctx =>
    let p := e.phoff + i * e.phentsize
    match img.field p 4 with
    | none => ⟨.returned (-1), [], ctx⟩
    | some type =>
    if type ≠ ptLoad then checkedFrom e k (i + 1) ctx
    else
    match segmentAt img p with
    | none => ⟨.returned (-1), [], ctx⟩
    | some s =>
      if s.Good img then Run.placing place s.placed ctx (checkedFrom e k (i + 1))
      else ⟨.returned (-1), [], ctx⟩

def loadable : Option Ehdr :=
  if rivElfIsValid img then
    (readEhdr img).filter fun e => e.elfClass = 2 ∧ (e.type = 2 ∨ e.type = 3)
  else none

def checkedLoad (ctx : σ) : Run σ :=
  match loadable img with
  | none => ⟨.returned (-1), [], ctx⟩
  | some e => checkedFrom img place e e.phnum 0 ctx

/-- No read is outside the image, every call hands out bytes of it, and a
malformed header ends the loader with -1. -/
structure LoadsSafely (ctx : σ) : Prop where
  inside : (rivElfLoad img place ctx).outcome ≠ .readsOutside
  calls : ∀ c ∈ (rivElfLoad img place ctx).calls, c.InImage img
  checked : rivElfLoad img place ctx = checkedLoad img place ctx

end Checked

/-- A program header that can be read and, if it is to be loaded, has its bytes
inside the image. -/
def WellFormed (img : Image wb) (p : ℕ) : Prop :=
  ∃ type, img.field p 4 = some type ∧
    (type = ptLoad → ∃ s, segmentAt img p = some s ∧ s.Good img)

/-- A program header whose offset and size can be read and have a sum that is
too large also modulo `2 ^ 64`. -/
def Rejected (img : Image wb) (p : ℕ) : Prop :=
  img.field p 4 = some ptLoad ∧ ∃ offset filesz, img.field (p + 8) 8 = some offset ∧
    img.field (p + 32) 8 = some filesz ∧ img.bytes.length < (offset + filesz) % 2 ^ 64

/-- The first malformed program header, if there is one, is rejected. -/
def HeadersGuarded (img : Image wb) : Prop :=
  ∀ e, loadable img = some e → ∀ i < e.phnum,
    (∀ j < i, WellFormed img (e.phoff + j * e.phentsize)) →
      WellFormed img (e.phoff + i * e.phentsize) ∨ Rejected img (e.phoff + i * e.phentsize)

/-! ## One header -/

variable {s : Segment}

theorem Segment.Good.inImage (h : s.Good img) : s.placed.InImage img := h

theorem Segment.Good.data_eq (h : s.Good img) : s.offset % 2 ^ wb.width = s.offset :=
  Nat.mod_eq_of_lt (Nat.lt_of_le_of_lt (Nat.le_trans (Nat.le_add_right ..) h.1) img.fits)

theorem image_length_lt (img : Image wb) : img.bytes.length < 2 ^ 64 := by
  refine Nat.lt_of_lt_of_le img.fits ?_
  cases wb <;> decide

theorem segmentAt_eq_some : segmentAt img p = some s ↔ img.field (p + 8) 8 = some s.offset ∧
      img.field (p + 32) 8 = some s.filesz ∧ img.field (p + 16) 8 = some s.vaddr ∧
      img.field (p + 40) 8 = some s.memsz ∧ img.field (p + 4) 4 = some s.flags := by
  obtain ⟨offset, filesz, vaddr, memsz, flags⟩ := s
  unfold segmentAt
  cases img.field (p + 8) 8 <;> cases img.field (p + 32) 8 <;>
    cases img.field (p + 16) 8 <;> cases img.field (p + 40) 8 <;>
    cases img.field (p + 4) 4 <;> simp

theorem WellFormed.skip {type : ℕ} (htype : img.field p 4 = some type) (hne : type ≠ ptLoad) :
    phdrAction img p = .skip := by
  rw [phdrAction, htype]
  exact if_pos hne

theorem phdrAction_load (htype : img.field p 4 = some ptLoad) :
    phdrAction img p =
      match img.field (p + 8) 8, img.field (p + 32) 8 with
      | some offset, some filesz =>
        if img.bytes.length < (offset + filesz) % 2 ^ 64 then .reject
        else
        match img.field (p + 16) 8, img.field (p + 40) 8, img.field (p + 4) 4 with
        | some vaddr, some memsz, some flags =>
          .call ⟨vaddr, offset % 2 ^ wb.width, filesz, memsz, flags⟩
        | _, _, _ => .readsOutside
      | _, _ => .readsOutside := by grind [phdrAction]

theorem phdrAction_segment (htype : img.field p 4 = some ptLoad) (hs : segmentAt img p = some s)
    (hcheck : ¬img.bytes.length < (s.offset + s.filesz) % 2 ^ 64) : phdrAction img p =
      .call ⟨s.vaddr, s.offset % 2 ^ wb.width, s.filesz, s.memsz, s.flags⟩ := by
  obtain ⟨h1, h2, h3, h4, h5⟩ := segmentAt_eq_some.mp hs
  simp_all [phdrAction_load]

theorem Segment.Good.action (htype : img.field p 4 = some ptLoad) (hs : segmentAt img p = some s)
    (h : s.Good img) : phdrAction img p = .call s.placed := by
  have hlt := image_length_lt img
  have hsum : (s.offset + s.filesz) % 2 ^ 64 = s.offset + s.filesz :=
    Nat.mod_eq_of_lt (Nat.lt_of_le_of_lt h.1 hlt)
  rw [phdrAction_segment htype hs (by rw [hsum]; exact Nat.not_lt.mpr h.1), h.data_eq]
  rfl

theorem Rejected.action (h : Rejected img p) : phdrAction img p = .reject := by
  obtain ⟨htype, offset, filesz, h1, h2, hgt⟩ := h
  simp_all [phdrAction_load]

theorem Rejected.not_good (h : Rejected img p) (hs : segmentAt img p = some s) : ¬s.Good img := by
  obtain ⟨-, offset, filesz, h1, h2, hgt⟩ := h
  obtain ⟨h1', h2', -⟩ := segmentAt_eq_some.mp hs
  rw [h1, Option.some.injEq] at h1'
  rw [h2, Option.some.injEq] at h2'
  intro hgood
  have hsum := hgood.1
  omega

theorem phdrAction_of_malformed (hwf : ¬WellFormed img p) (hrej : ¬Rejected img p) :
    phdrAction img p = .readsOutside ∨ ∃ c, phdrAction img p = .call c ∧ ¬c.InImage img := by
  cases htype : img.field p 4 with
  | none =>
    left
    rw [phdrAction, htype]
  | some type =>
    obtain rfl : type = ptLoad := by
      by_contra hne
      exact hwf ⟨type, htype, fun h => absurd h hne⟩
    cases hs : segmentAt img p with
    | none =>
      left
      rw [phdrAction_load htype]
      split
      · next offset filesz h1 h2 =>
        have hcheck : ¬img.bytes.length < (offset + filesz) % 2 ^ 64 := fun hgt =>
          hrej ⟨htype, offset, filesz, h1, h2, hgt⟩
        rw [if_neg hcheck]
        split
        · next vaddr memsz flags h3 h4 h5 =>
          rw [segmentAt_eq_some (s := ⟨offset, filesz, vaddr, memsz, flags⟩) |>.mpr
            ⟨h1, h2, h3, h4, h5⟩] at hs
          cases hs
        · rfl
      · rfl
    | some s =>
      right
      have hcheck : ¬img.bytes.length < (s.offset + s.filesz) % 2 ^ 64 := fun hgt =>
        hrej ⟨htype, s.offset, s.filesz, (segmentAt_eq_some.mp hs).1,
          (segmentAt_eq_some.mp hs).2.1, hgt⟩
      refine ⟨_, phdrAction_segment htype hs hcheck, ?_⟩
      intro hin
      refine hwf ⟨ptLoad, htype, fun _ => ⟨s, hs, ?_, hin.2⟩⟩
      -- the pointer stays in the image, so that neither sum can have wrapped
      have hdata : s.offset % 2 ^ wb.width + s.filesz ≤ img.bytes.length := hin.1
      have hoff := Image.field_lt (segmentAt_eq_some.mp hs).1
      have hfits := img.fits
      cases wb with
      | bits32 =>
        simp only [WordBits.width] at hdata hfits
        omega
      | bits64 =>
        simp only [WordBits.width] at hdata
        omega

/-! ## The loop -/

section Loop

variable {σ : Type} {img : Image wb} {place : PlaceFn σ} {e : Ehdr} {k i : ℕ}

theorem loadFrom_succ (hi : i < e.phnum) (ctx : σ) :
    loadFrom img place e (k + 1) i ctx =
      match phdrAction img (e.phoff + i * e.phentsize) with
      | .readsOutside => ⟨.readsOutside, [], ctx⟩
      | .skip => loadFrom img place e k (i + 1) ctx
      | .reject => ⟨.returned (-1), [], ctx⟩
      | .call c => Run.placing place c ctx (loadFrom img place e k (i + 1)) := by
  rw [loadFrom, rivElfPhdr, if_neg (Nat.not_le.mpr hi)]

theorem loadFrom_succ_eq_checked (hi : i < e.phnum)
    (hp : WellFormed img (e.phoff + i * e.phentsize) ∨ Rejected img (e.phoff + i * e.phentsize))
    (hnext : WellFormed img (e.phoff + i * e.phentsize) →
      loadFrom img place e k (i + 1) = checkedFrom img place e k (i + 1)) (ctx : σ) :
    loadFrom img place e (k + 1) i ctx = checkedFrom img place e (k + 1) i ctx := by
  rw [loadFrom_succ hi, checkedFrom]
  rcases hp with hwf | hrej
  · have hnext := hnext hwf
    obtain ⟨type, htype, hload⟩ := hwf
    rw [htype]
    simp only
    by_cases hne : type ≠ ptLoad
    · rw [WellFormed.skip htype hne, if_pos hne, hnext]
    · obtain rfl : type = ptLoad := not_not.mp hne
      obtain ⟨s, hs, hgood⟩ := hload rfl
      simp [hgood.action htype hs, hne, hs, hgood, hnext]
  · rw [hrej.action, hrej.1]
    simp only
    rw [if_neg (not_not_intro rfl)]
    split
    · rfl
    · next s hs => rw [if_neg (hrej.not_good hs)]

theorem loadFrom_eq_checked (place : PlaceFn σ)
    (hguard : ∀ i < e.phnum, (∀ j < i, WellFormed img (e.phoff + j * e.phentsize)) →
      WellFormed img (e.phoff + i * e.phentsize) ∨ Rejected img (e.phoff + i * e.phentsize))
    (hk : i + k = e.phnum) (hbefore : ∀ j < i, WellFormed img (e.phoff + j * e.phentsize)) :
    loadFrom img place e k i = checkedFrom img place e k i := by
  induction k generalizing i with
  | zero => rfl
  | succ k ih =>
    grind [loadFrom_succ_eq_checked]

theorem checkedFrom_safe (ctx : σ) : (checkedFrom img place e k i ctx).outcome ≠ .readsOutside ∧
      ∀ c ∈ (checkedFrom img place e k i ctx).calls, c.InImage img := by
  have hend : ∀ r : RivI32, (Outcome.returned r ≠ .readsOutside) ∧
      ∀ c ∈ ([] : List PlaceCall), c.InImage img := fun r => ⟨nofun, nofun⟩
  induction k generalizing i ctx with
  | zero => exact hend 0
  | succ k ih =>
    rw [checkedFrom]
    split
    · exact hend (-1)
    split
    · exact ih ctx
    split
    · exact hend (-1)
    next s hs =>
    split
    · next hgood =>
      rw [Run.placing]
      simp only
      split
      · simp [hgood.inImage]
      · exact ⟨(ih _).1, List.forall_mem_cons.mpr ⟨hgood.inImage, (ih _).2⟩⟩
    · exact hend (-1)

end Loop

/-! ## Every image -/

section Load

variable {σ : Type} {img : Image wb} {place : PlaceFn σ}

theorem exists_readEhdr (h : 64 ≤ img.bytes.length) : ∃ e, readEhdr img = some e := by
  obtain ⟨elfClass, h1⟩ := img.exists_field 4 1 (by omega)
  obtain ⟨type, h2⟩ := img.exists_field 16 2 (by omega)
  obtain ⟨phoff, h3⟩ := img.exists_field 32 8 (by omega)
  obtain ⟨phentsize, h4⟩ := img.exists_field 54 2 (by omega)
  obtain ⟨phnum, h5⟩ := img.exists_field 56 2 (by omega)
  simp_all [readEhdr]

theorem rivElfLoad_eq (ctx : σ) :
    rivElfLoad img place ctx =
      match loadable img with
      | none => ⟨.returned (-1), [], ctx⟩
      | some e => loadFrom img place e e.phnum 0 ctx := by
  unfold rivElfLoad loadable
  cases hvalid : rivElfIsValid img with
  | false => rfl
  | true =>
    have hlen : 64 ≤ img.bytes.length := by grind [rivElfIsValid, Nat.not_le.mp]
    obtain ⟨e, he⟩ := exists_readEhdr hlen
    grind

theorem LoadsSafely.of_guarded (h : HeadersGuarded img) (ctx : σ) : LoadsSafely img place ctx := by
  have hchecked : rivElfLoad img place ctx = checkedLoad img place ctx := by
    rw [rivElfLoad_eq, checkedLoad]
    cases he : loadable img with
    | none => rfl
    | some e =>
      have hloop := loadFrom_eq_checked place (h e he) (Nat.zero_add _)
        (fun _ hj => absurd hj (Nat.not_lt_zero _))
      simp only [hloop]
  have hsafe : (checkedLoad img place ctx).outcome ≠ .readsOutside ∧
      ∀ c ∈ (checkedLoad img place ctx).calls, c.InImage img := by
    grind [checkedLoad, checkedFrom_safe]
  exact ⟨hchecked ▸ hsafe.1, hchecked ▸ hsafe.2, hchecked⟩

end Load

def acceptAll : PlaceFn Unit := fun _ _ => (0, ())

/-- The run reads outside the image, or hands out what is not in it. -/
def Run.Bad (img : Image wb) (run : Run Unit) : Prop :=
  run.outcome = .readsOutside ∨ ∃ c ∈ run.calls, ¬c.InImage img

theorem Run.Bad.cons {run : Run Unit} (h : run.Bad img) (c : PlaceCall) :
    Run.Bad img { run with calls := c :: run.calls } :=
  h.imp_right fun ⟨c', hc', hbad⟩ => ⟨c', List.mem_cons_of_mem c hc', hbad⟩

section Converse

variable {img : Image wb} {e : Ehdr}

theorem bad_of_malformed {k : ℕ} (hi : i < e.phnum)
    (hwf : ¬WellFormed img (e.phoff + i * e.phentsize))
    (hrej : ¬Rejected img (e.phoff + i * e.phentsize)) :
    (loadFrom img acceptAll e (k + 1) i ()).Bad img := by
  rw [loadFrom_succ hi]
  rcases phdrAction_of_malformed hwf hrej with hout | ⟨c, hcall, hbad⟩
  · rw [hout]
    exact Or.inl rfl
  · rw [hcall]
    exact Or.inr ⟨c, List.mem_cons_self, hbad⟩

theorem WellFormed.bad_of_next {k : ℕ} (hi : i < e.phnum)
    (hwf : WellFormed img (e.phoff + i * e.phentsize))
    (h : (loadFrom img acceptAll e k (i + 1) ()).Bad img) :
    (loadFrom img acceptAll e (k + 1) i ()).Bad img := by
  obtain ⟨type, htype, hload⟩ := hwf
  rw [loadFrom_succ hi]
  by_cases hne : type ≠ ptLoad
  · rw [WellFormed.skip htype hne]
    exact h
  obtain rfl : type = ptLoad := not_not.mp hne
  obtain ⟨s, hs, hgood⟩ := hload rfl
  rw [hgood.action htype hs]
  exact h.cons s.placed

theorem bad_of_prefix_wellFormed (hi : i ≤ e.phnum)
    (hbefore : ∀ j < i, WellFormed img (e.phoff + j * e.phentsize))
    (h : (loadFrom img acceptAll e (e.phnum - i) i ()).Bad img) :
    (loadFrom img acceptAll e e.phnum 0 ()).Bad img := by
  induction i with
  | zero => exact h
  | succ i ih =>
    refine ih (by omega) (fun j hj => hbefore j (by omega)) ?_
    have hk : e.phnum - i = e.phnum - (i + 1) + 1 := by omega
    rw [hk]
    exact (hbefore i (Nat.lt_succ_self i)).bad_of_next hi h

end Converse

/-- The loader touches only the image, whatever the callback does, exactly when
the first malformed program header is one whose offset and size have a sum that
is too large also modulo `2 ^ 64`. -/
theorem rivElfLoad_safe_iff (img : Image wb) :
    (∀ (σ : Type) (place : PlaceFn σ) (ctx : σ), LoadsSafely img place ctx) ↔
      HeadersGuarded img := by
  constructor
  · intro hsafe e he i hi hbefore
    by_contra hmalformed
    obtain ⟨hwf, hrej⟩ := not_or.mp hmalformed
    have hk : e.phnum - i = e.phnum - (i + 1) + 1 := by omega
    have hbad : (loadFrom img acceptAll e e.phnum 0 ()).Bad img :=
      bad_of_prefix_wellFormed hi.le hbefore (hk ▸ bad_of_malformed hi hwf hrej)
    obtain ⟨hinside, hcalls, -⟩ := hsafe Unit acceptAll ()
    rw [rivElfLoad_eq, he] at hinside hcalls
    rcases hbad with hout | ⟨c, hc, hnot⟩
    · exact hinside hout
    · exact hnot (hcalls c hc)
  · intro h σ place ctx
    exact LoadsSafely.of_guarded h ctx

/-! ## Images that lead outside -/

/-- A file header of class 64, type EXEC, with the given program headers. -/
def sampleHeader (phoff phnum : RivU8) : List RivU8 :=
  [0x7F, 0x45, 0x4C, 0x46, 2, 1, 1, 0] ++ List.replicate 8 0 ++ [2, 0] ++ List.replicate 14 0 ++
    [phoff] ++ List.replicate 21 0 ++ [56, 0, phnum, 0] ++ List.replicate 6 0

/-- A PT_LOAD header with the low bytes of its sizes, and an offset whose high
bytes are all `fill`. -/
def sampleSegment (low fill filesz memsz : RivU8) : List RivU8 :=
  [1, 0, 0, 0, 5, 0, 0, 0, low] ++ List.replicate 7 fill ++ List.replicate 16 0 ++
    [filesz] ++ List.replicate 7 0 ++ [memsz] ++ List.replicate 7 0 ++ List.replicate 8 0

def truncatedImage : Image .bits64 := ⟨sampleHeader 64 1, by decide⟩

/-- A segment of 16 bytes at the offset `2 ^ 64 - 16`. -/
def wrappedImage : Image .bits64 := ⟨sampleHeader 64 1 ++ sampleSegment 0xF0 0xFF 16 16, by decide⟩

def shrunkImage : Image .bits64 := ⟨sampleHeader 64 1 ++ sampleSegment 0 0 16 4, by decide⟩

/-- A header behind the end is read, a sum that wraps is accepted, and so is a
segment that does not fit into its memory. -/
theorem rivElfLoad_leaves_image : (rivElfLoad truncatedImage acceptAll ()).outcome = .readsOutside ∧
      (rivElfLoad wrappedImage acceptAll ()).calls = [⟨0, 2 ^ 64 - 16, 16, 16, 5⟩] ∧
      (rivElfLoad shrunkImage acceptAll ()).calls = [⟨0, 0, 16, 4, 5⟩] ∧
      ¬LoadsSafely truncatedImage acceptAll () ∧ ¬LoadsSafely wrappedImage acceptAll () ∧
      ¬LoadsSafely shrunkImage acceptAll () := by
  have h₁ : (rivElfLoad truncatedImage acceptAll ()).outcome = .readsOutside := by
    decide +kernel
  have h₂ : (rivElfLoad wrappedImage acceptAll ()).calls = [⟨0, 2 ^ 64 - 16, 16, 16, 5⟩] := by
    decide +kernel
  have h₃ : (rivElfLoad shrunkImage acceptAll ()).calls = [⟨0, 0, 16, 4, 5⟩] := by
    decide +kernel
  refine ⟨h₁, h₂, h₃, fun h => h.inside h₁, fun h => ?_, fun h => ?_⟩
  · have hcall := h.calls
    rw [h₂] at hcall
    exact absurd (hcall _ List.mem_cons_self) (by decide +kernel)
  · have hcall := h.calls
    rw [h₃] at hcall
    exact absurd (hcall _ List.mem_cons_self) (by decide +kernel)

end Rivet.Elf
