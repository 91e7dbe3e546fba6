import Rivet.Linker.Script
import Rivet.Support.Blocks
import Rivet.Support.Splice
import Rivet.Support.WriteLog

/-!
# Linking

`link_image` of `rivet-ld.c`.  The image is one array for all regions; the fills
and the files are stored at offsets that are computed and checked in 32 bits.  A
store outside the array is kept apart from the failures the program reports.
-/

namespace Rivet.Linker

open CLib Splice Blocks WriteLog Function

variable {regs : List RegionT} {i off : ℕ} {r : RegionT} {bytes image image' : List RivU8}

/-- The files, the allocator and whether an output can be written.  A fresh block
has arbitrary contents. -/
structure LdEnv where
  file : CStr → Option (List RivU8)
  malloc : (n : ℕ) → Option { l : List RivU8 // l.length = n }
  writable : CStr → Bool

/-- A placement as it is reported: the region by its index and the offset in it. -/
structure Placed where
  ridx : ℕ
  reloff : RivU32
  bytes : List RivU8
  deriving DecidableEq, Repr

/-- The variables of the loop over the placements. -/
structure LdState where
  cursor : ℕ → RivU32
  image : List RivU8
  placed : List Placed

structure LdResult where
  image : List RivU8
  placed : List Placed
  deriving DecidableEq, Repr

def store (image : List RivU8) (off : ℕ) (bytes : List RivU8) : Except LdStop (List RivU8) :=
  if bytes = [] ∨ off + bytes.length ≤ image.length then .ok (splice image off bytes)
  else .error .fault

def sumLengths (regs : List RegionT) : RivU32 := regs.foldl (fun t r => t + r.length) 0

def fillRegions : List RegionT → RivU32 → List RivU8 → Except LdStop (List RivU8)
  | [], _, image => .ok image
  | r :: rs, off, image => do
    let image ← store image off.toNat (List.replicate r.length.toNat r.fill)
    fillRegions rs (off + r.length) image

def placeFile (env : LdEnv) (regs : List RegionT) (st : LdState) (p : PlaceT) :
    Except LdStop LdState :=
  match findRegion regs p.region with
  | none => .error .failed
  | some (ridx, r) =>
    match env.file p.file with
    | none => .error .failed
    | some bytes =>
      let baseOff := sumLengths (regs.take ridx)
      let reloff := p.offset.getD (st.cursor ridx)
      if r.length < reloff + BitVec.ofNat 32 bytes.length then .error .failed
      else do
        let image ← store st.image (baseOff.toNat + reloff.toNat) bytes
        .ok
          { cursor := update st.cursor ridx (reloff + BitVec.ofNat 32 bytes.length)
            image := image
            placed := st.placed ++ [⟨ridx, reloff, bytes⟩] }

/-- The number of bytes asked of `malloc`. -/
def allocSize (regs : List RegionT) : ℕ :=
  if sumLengths regs = 0 then 1 else (sumLengths regs).toNat

/-- `link_image`: the bytes of the output and the placements reported. -/
def linkImage (env : LdEnv) (lay : Layout) : Except LdStop LdResult :=
  match env.malloc (allocSize lay.regs) with
  | none => .error .failed
  | some image => do
    let image ← fillRegions lay.regs 0 image.1
    let st ← lay.places.foldlM (placeFile env lay.regs) ⟨fun _ => 0, image, []⟩
    if env.writable lay.output then
      .ok ⟨st.image.take (sumLengths lay.regs).toNat, st.placed⟩
    else .error .failed

/-- `rivet-ld` on the text of a script. -/
def rivetLd (env : LdEnv) (text : List Char) : Except LdStop LdResult := do
  let lay ← parseScript text
  linkImage env lay

/-! ## Sums of lengths -/

def lengths (regs : List RegionT) : List ℕ := regs.map fun r => r.length.toNat

theorem sum_lengths_cons (r : RegionT) (regs : List RegionT) :
    (lengths (r :: regs)).sum = r.length.toNat + (lengths regs).sum := by simp [lengths]

theorem foldl_lengths (regs : List RegionT) (t : RivU32) :
    (regs.foldl (fun t r => t + r.length) t).toNat = (t.toNat + (lengths regs).sum) % 2 ^ 32 := by
  induction regs generalizing t with
  | nil => simp [lengths, Nat.mod_eq_of_lt t.isLt]
  | cons r regs ih =>
    rw [List.foldl_cons, ih, BitVec.toNat_add, sum_lengths_cons, Nat.mod_add_mod, Nat.add_assoc]

theorem sumLengths_toNat (regs : List RegionT) :
    (sumLengths regs).toNat = (lengths regs).sum % 2 ^ 32 := by
  rw [sumLengths, foldl_lengths]
  simp

theorem baseOff_toNat (hsum : (lengths regs).sum < 2 ^ 32) (i : ℕ) :
    (sumLengths (regs.take i)).toNat = start (lengths regs) i := by
  have hle := start_le_sum (lengths regs) i
  rw [sumLengths_toNat, lengths, List.map_take, ← lengths, ← start]
  exact Nat.mod_eq_of_lt (by omega)

theorem allocSize_eq (regs : List RegionT) : allocSize regs =
      if (lengths regs).sum % 2 ^ 32 = 0 then 1 else (lengths regs).sum % 2 ^ 32 := by
  have hzero : sumLengths regs = 0 ↔ (lengths regs).sum % 2 ^ 32 = 0 := by
    rw [← sumLengths_toNat, ← BitVec.toNat_inj]
    rfl
  rw [allocSize, sumLengths_toNat]
  simp only [hzero]

theorem allocSize_lt (regs : List RegionT) : allocSize regs < 2 ^ 32 := by
  rw [allocSize_eq]
  split <;> omega

theorem sum_le_allocSize (hsum : (lengths regs).sum < 2 ^ 32) :
    (lengths regs).sum ≤ allocSize regs := by
  rw [allocSize_eq, Nat.mod_eq_of_lt hsum]
  split <;> omega

theorem getElem?_lengths (h : regs[i]? = some r) : (lengths regs)[i]? = some r.length.toNat := by
  rw [lengths, List.getElem?_map, h]
  rfl

/-! ## Filling the regions -/

theorem store_eq_ok (h : store image off bytes = .ok image') :
    (bytes = [] ∨ off + bytes.length ≤ image.length) ∧ image' = splice image off bytes := by
  unfold store at h
  grind

theorem store_of_room (h : off + bytes.length ≤ image.length) :
    store image off bytes = .ok (splice image off bytes) := if_pos (Or.inr h)

theorem length_store (h : bytes = [] ∨ off + bytes.length ≤ image.length) :
    (splice image off bytes).length = image.length := by grind [splice_nil, length_splice]

theorem fillRegions_fault {off : RivU32} (himage : image.length < 2 ^ 32)
    (hsum : 2 ^ 32 ≤ off.toNat + (lengths regs).sum) :
    fillRegions regs off image = .error .fault := by
  induction regs generalizing off image with
  | nil => grind [lengths, off.isLt]
  | cons r rs ih =>
    have hcons := sum_lengths_cons r rs
    have hlen : (List.replicate r.length.toNat r.fill).length = r.length.toNat :=
      List.length_replicate
    rw [fillRegions]
    by_cases hwrap : 2 ^ 32 ≤ off.toNat + r.length.toNat
    · have hne : List.replicate r.length.toNat r.fill ≠ [] := by
        rw [← List.length_pos_iff, hlen]
        omega
      rw [store, if_neg (by rw [hlen, not_or]; exact ⟨hne, by omega⟩)]
      rfl
    · have hnext : (off + r.length).toNat = off.toNat + r.length.toNat := by
        rw [BitVec.toNat_add]
        omega
      cases hstore : store image off.toNat (List.replicate r.length.toNat r.fill) with
      | error e =>
        unfold store at hstore
        split at hstore
        · cases hstore
        · cases hstore
          rfl
      | ok image' =>
        obtain ⟨hroom, rfl⟩ := store_eq_ok hstore
        apply ih
        · rw [length_store hroom]
          exact himage
        · omega

theorem fillRegions_ok (regs : List RegionT) (off : RivU32) (image : List RivU8)
    (hroom : off.toNat + (lengths regs).sum ≤ image.length)
    (hsum : off.toNat + (lengths regs).sum < 2 ^ 32) :
    ∃ image', fillRegions regs off image = .ok image' ∧ image'.length = image.length ∧
      (∀ pos < off.toNat, image'[pos]? = image[pos]?) ∧
      ∀ i r pos, regs[i]? = some r → pos < r.length.toNat →
        image'[off.toNat + start (lengths regs) i + pos]? = some r.fill := by
  induction regs generalizing off image with
  | nil => exact ⟨image, rfl, rfl, fun _ _ => rfl, fun i r pos h => by simp at h⟩
  | cons r rs ih =>
    have hcons := sum_lengths_cons r rs
    have hlen : (List.replicate r.length.toNat r.fill).length = r.length.toNat :=
      List.length_replicate
    have hnext : (off + r.length).toNat = off.toNat + r.length.toNat := by
      rw [BitVec.toNat_add]
      omega
    have hfit : off.toNat + (List.replicate r.length.toNat r.fill).length ≤ image.length := by
      omega
    have hspliced := length_splice hfit
    obtain ⟨image', hfill, hsize, hbelow, hregs⟩ := ih (off + r.length)
      (splice image off.toNat (List.replicate r.length.toNat r.fill))
      (by rw [hspliced, hnext]; omega) (by rw [hnext]; omega)
    refine ⟨image', ?_, hsize.trans hspliced, ?_, ?_⟩
    · rw [fillRegions, store_of_room hfit, Exec.ok_bind, hfill]
    · intro pos hpos
      rw [hbelow pos (by rw [hnext]; omega), getElem?_splice hfit, if_neg (by omega)]
    intro i r' pos hr' hpos
    cases i with
    | zero =>
      cases hr'
      rw [start_zero, Nat.add_zero, hbelow _ (by rw [hnext]; omega), getElem?_splice hfit,
        if_pos ⟨by omega, by omega⟩, Nat.add_sub_cancel_left,
        List.getElem?_replicate_of_lt hpos]
    | succ i =>
      have h := hregs i r' pos hr' hpos
      rw [hnext] at h
      have hstart : start (lengths (r :: rs)) (i + 1) =
          r.length.toNat + start (lengths rs) i := start_cons _ _ _
      rw [hstart, ← Nat.add_assoc]
      exact h

/-! ## Placing the files -/

/-- The writes that placements make in a region, the latest first. -/
def writesIn (i : ℕ) (placed : List Placed) : List (Write RivU8) :=
  ((placed.filter fun p => p.ridx = i).map fun p => ⟨p.reloff.toNat, p.bytes⟩).reverse

theorem writesIn_concat (i j : ℕ) (reloff : RivU32) (bytes : List RivU8) (placed : List Placed) :
    writesIn j (placed ++ [⟨i, reloff, bytes⟩]) =
      if i = j then ⟨reloff.toNat, bytes⟩ :: writesIn j placed else writesIn j placed := by
  grind [writesIn]

theorem findRegion_eq_some {n : CStr} (h : findRegion regs n = some (i, r)) :
    regs[i]? = some r := by
  obtain ⟨j, -, hj⟩ := Option.bind_eq_some_iff.mp h
  grind

theorem placeFile_eq_ok {env : LdEnv} {st st' : LdState} {q : PlaceT}
    (h : placeFile env regs st q = .ok st') :
    ∃ i r bytes, findRegion regs q.region = some (i, r) ∧ env.file q.file = some bytes ∧
      ¬r.length < q.offset.getD (st.cursor i) + BitVec.ofNat 32 bytes.length ∧
      ∃ image, store st.image ((sumLengths (regs.take i)).toNat +
          (q.offset.getD (st.cursor i)).toNat) bytes = .ok image ∧ st' = ⟨update st.cursor i
            (q.offset.getD (st.cursor i) + BitVec.ofNat 32 bytes.length), image,
          st.placed ++ [⟨i, q.offset.getD (st.cursor i), bytes⟩]⟩ := by
  unfold placeFile at h
  split at h
  · cases h
  next i r hregion =>
  split at h
  · cases h
  next bytes hfile =>
  dsimp only at h
  split at h
  · cases h
  next hcheck =>
  obtain ⟨image, hstore, h⟩ := Exec.of_bind_eq_ok h
  cases h
  simp_all

/-- The image holds the placements made so far, and the fills elsewhere. -/
structure Holding (regs : List RegionT) (image : List RivU8) (placed : List Placed) : Prop where
  fits : ∀ p ∈ placed, ∃ r, regs[p.ridx]? = some r ∧
    p.reloff.toNat + p.bytes.length ≤ r.length.toNat
  bytes : ∀ i r pos, regs[i]? = some r → pos < r.length.toNat →
    image[start (lengths regs) i + pos]? = some ((latest (writesIn i placed) pos).getD r.fill)

theorem Holding.place {placed : List Placed} (h : Holding regs image placed) {reloff : RivU32}
    (hr : regs[i]? = some r) (hfit : reloff.toNat + bytes.length ≤ r.length.toNat)
    (hroom : (lengths regs).sum ≤ image.length) :
    Holding regs (splice image (start (lengths regs) i + reloff.toNat) bytes)
      (placed ++ [⟨i, reloff, bytes⟩]) where
  fits := by
    rw [List.forall_mem_append, List.forall_mem_singleton]
    exact ⟨h.fits, r, hr, hfit⟩
  bytes := by
    intro j r' pos hr' hpos
    have hend := end_le_sum (getElem?_lengths hr)
    have hold := h.bytes j r' pos hr' hpos
    rw [getElem?_splice (by omega)]
    by_cases hij : i = j
    · -- the region of the file: the bytes it covers are now its own
      subst hij
      obtain rfl := Option.some.inj (hr.symm.trans hr')
      rw [writesIn_concat, if_pos rfl, latest, Write.at?]
      dsimp only
      by_cases hlow : reloff.toNat ≤ pos
      · by_cases hhigh : pos < reloff.toNat + bytes.length
        · have hidx : pos - reloff.toNat < bytes.length := by omega
          rw [if_pos ⟨by omega, by omega⟩, if_pos hlow,
            List.getElem?_eq_getElem hidx, Option.some_or, Option.getD_some]
          rw [← List.getElem?_eq_getElem hidx]
          congr 1
          omega
        · have hnone : bytes[pos - reloff.toNat]? = none := List.getElem?_eq_none (by omega)
          rw [if_neg (by omega), if_pos hlow, hnone, Option.none_or]
          exact hold
      · rw [if_neg (by omega), if_neg hlow, Option.none_or]
        exact hold
    · -- another region: no byte of it is touched
      rw [writesIn_concat, if_neg hij, if_neg]
      · exact hold
      rintro ⟨hlow, hhigh⟩
      obtain ⟨rfl, -⟩ := eq_of_start_add_eq (getElem?_lengths hr) (getElem?_lengths hr')
        (p := start (lengths regs) j + pos - start (lengths regs) i) (by omega) hpos (by omega)
      exact hij rfl

theorem placed_fits {reloff : RivU32} (himage : image.length < 2 ^ 32)
    (hcheck : ¬r.length < reloff + BitVec.ofNat 32 bytes.length)
    (hroom : bytes = [] ∨ (sumLengths (regs.take i)).toNat + reloff.toNat + bytes.length ≤
      image.length) : reloff.toNat + bytes.length ≤ r.length.toNat := by
  rw [BitVec.lt_def, BitVec.toNat_add, BitVec.toNat_ofNat, Nat.add_mod_mod, Nat.not_lt] at hcheck
  have hlt := reloff.isLt
  grind

/-! ## Runs of placements -/

/-- A placement is that of a line of the script. -/
structure Places (env : LdEnv) (regs : List RegionT) (q : PlaceT) (p : Placed) : Prop where
  region : ∃ r, findRegion regs q.region = some (p.ridx, r)
  file : env.file q.file = some p.bytes
  offset : ∀ o, q.offset = some o → p.reloff = o

/-- Where the lines of a script put their files, with every region filled up
sequentially from its cursor unless an offset is given. -/
def placements (env : LdEnv) (regs : List RegionT) (cursor : ℕ → ℕ) :
    List PlaceT → List (ℕ × Write RivU8)
  | [] => []
  | q :: qs =>
    match findRegion regs q.region, env.file q.file with
    | some (i, _), some bytes =>
      let o := (q.offset.map BitVec.toNat).getD (cursor i)
      (i, ⟨o, bytes⟩) ::
        placements env regs (update cursor i (o + bytes.length)) qs
    | _, _ => placements env regs cursor qs

def Placed.write (p : Placed) : ℕ × Write RivU8 := (p.ridx, ⟨p.reloff.toNat, p.bytes⟩)

theorem toNat_offset (offset : Option RivU32) (c : RivU32) :
    (offset.getD c).toNat = (offset.map BitVec.toNat).getD c.toNat := by cases offset <;> rfl

theorem toNat_update (cursor : ℕ → RivU32) (i : ℕ) (c : RivU32) :
    (fun j => (update cursor i c j).toNat) = update (fun j => (cursor j).toNat) i c.toNat := by
  funext j
  grind

variable {env : LdEnv} {regs : List RegionT}

theorem place_run {places : List PlaceT} (st : LdState) {st' : LdState}
    (hsum : (lengths regs).sum < 2 ^ 32) (hroom : (lengths regs).sum ≤ st.image.length)
    (himage : st.image.length < 2 ^ 32) (hold : Holding regs st.image st.placed)
    (h : places.foldlM (placeFile env regs) st = .ok st') :
    ∃ new, st'.placed = st.placed ++ new ∧ List.Forall₂ (Places env regs) places new ∧
      new.map Placed.write = placements env regs (fun i => (st.cursor i).toNat) places ∧
      Holding regs st'.image st'.placed ∧ st'.image.length = st.image.length := by
  induction places generalizing st with
  | nil =>
    cases h
    exact ⟨[], (List.append_nil _).symm, .nil, rfl, hold, rfl⟩
  | cons q qs ih =>
    obtain ⟨st1, hstep, h⟩ := Exec.of_bind_eq_ok h
    obtain ⟨i, r, bytes, hregion, hfile, hcheck, image, hstore, rfl⟩ := placeFile_eq_ok hstep
    obtain ⟨hfits, rfl⟩ := store_eq_ok hstore
    have hr := findRegion_eq_some hregion
    have hfit := placed_fits himage hcheck hfits
    have hsize := length_store hfits
    have hbase := baseOff_toNat hsum i
    have hcursor : (q.offset.getD (st.cursor i) + BitVec.ofNat 32 bytes.length).toNat =
        (q.offset.map BitVec.toNat).getD (st.cursor i).toNat + bytes.length := by
      rw [BitVec.toNat_add, BitVec.toNat_ofNat, Nat.add_mod_mod, ← toNat_offset,
        Nat.mod_eq_of_lt (by omega)]
    have hold1 := hold.place hr hfit hroom
    rw [← hbase] at hold1
    obtain ⟨new, hplaced, hlines, hnew, hold', hsize'⟩ :=
      ih _ (by rw [hsize]; exact hroom) (by rw [hsize]; exact himage) hold1 h
    refine ⟨⟨i, q.offset.getD (st.cursor i), bytes⟩ :: new, ?_, ?_, ?_, hold', hsize'.trans hsize⟩
    · rw [hplaced, List.append_assoc]
      rfl
    · refine .cons ⟨⟨r, hregion⟩, hfile, ?_⟩ hlines
      intro o ho
      rw [ho]
      rfl
    · rw [List.map_cons, hnew, placements, hregion, hfile]
      rw [toNat_update, hcursor, Placed.write, toNat_offset]

/-! ## The output -/

/-- The output consists of the regions in order, every file is in its region, and
the bytes of a region are those of the latest placement that covers them or the
fill. -/
structure Located (env : LdEnv) (lay : Layout) (res : LdResult) : Prop where
  length : res.image.length = (lengths lay.regs).sum
  placed : List.Forall₂ (Places env lay.regs) lay.places res.placed
  holding : Holding lay.regs res.image res.placed

theorem Holding.take {placed : List Placed} (h : Holding regs image placed) :
    Holding regs (image.take (lengths regs).sum) placed where
  fits := h.fits
  bytes := by
    intro i r pos hr hpos
    have hend := end_le_sum (getElem?_lengths hr)
    rw [List.getElem?_take_of_lt (by omega)]
    exact h.bytes i r pos hr hpos

theorem holding_fill (hsum : (lengths regs).sum < 2 ^ 32)
    (hroom : (lengths regs).sum ≤ image.length) (h : fillRegions regs 0 image = .ok image') :
    image'.length = image.length ∧ Holding regs image' [] := by
  have hzero : (0 : RivU32).toNat = 0 := rfl
  obtain ⟨filled, hfill, hsize, -, hregs⟩ := fillRegions_ok regs 0 image
    (by rw [hzero]; omega) (by rw [hzero]; omega)
  obtain rfl := Except.ok.inj (hfill.symm.trans h)
  refine ⟨hsize, fun p hp => absurd hp List.not_mem_nil, ?_⟩
  intro i r pos hr hpos
  have h := hregs i r pos hr hpos
  rw [hzero, Nat.zero_add] at h
  rw [h]
  rfl

theorem sum_lt_of_fill (himage : image.length < 2 ^ 32)
    (h : fillRegions regs 0 image = .ok image') : (lengths regs).sum < 2 ^ 32 := by
  by_contra hsum
  rw [fillRegions_fault himage (by rw [show (0 : RivU32).toNat = 0 from rfl]; omega)] at h
  cases h

theorem linkImage_located {lay : Layout} {res : LdResult} (h : linkImage env lay = .ok res) :
    Located env lay res ∧
      res.placed.map Placed.write = placements env lay.regs (fun _ => 0) lay.places := by
  unfold linkImage at h
  split at h
  · cases h
  next image hmalloc =>
  obtain ⟨filled, hfill, h⟩ := Exec.of_bind_eq_ok h
  obtain ⟨st, hrun, h⟩ := Exec.of_bind_eq_ok h
  split at h
  · cases h
    have hlen : image.1.length = allocSize lay.regs := image.2
    have hlt := allocSize_lt lay.regs
    have hsum := sum_lt_of_fill (by rw [hlen]; exact hlt) hfill
    have hroom := sum_le_allocSize hsum
    obtain ⟨hsize, hold⟩ := holding_fill hsum (by rw [hlen]; exact hroom) hfill
    obtain ⟨new, hplaced, hlines, hnew, hold', hsize'⟩ := place_run
      ⟨fun _ => 0, filled, []⟩ hsum (by rw [hsize, hlen]; exact hroom)
      (by rw [hsize, hlen]; exact hlt) hold hrun
    have htotal : (sumLengths lay.regs).toNat = (lengths lay.regs).sum := by
      rw [sumLengths_toNat, Nat.mod_eq_of_lt hsum]
    rw [List.nil_append] at hplaced
    have hnew' : st.placed.map Placed.write =
        placements env lay.regs (fun _ => 0) lay.places := by
      rw [hplaced, hnew]
      rfl
    rw [htotal]
    refine ⟨⟨?_, ?_, hold'.take⟩, hnew'⟩
    all_goals simp_all
  · cases h

end Rivet.Linker
