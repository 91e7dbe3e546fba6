import Rivet.Linker.Image

/-!
# What a link guarantees

A store outside the image is made exactly when the lengths of the regions add up
to more than 32 bits, or when the check of a placement passes only because the end
of the file wraps.  Otherwise an image that is written is located.  Overlapping
placements are accepted: the files survive exactly when no two of them overlap.
-/

namespace Rivet.Linker

open CLib Splice Blocks WriteLog

/-! ## The parser reports its failures -/

/-- The errors of a computation are those of `die`. -/
def OnlyDies {α : Type} (x : Except LdStop α) : Prop :=
  ∀ e, x = .error e → ∃ line msg arg, e = .die line msg arg

theorem OnlyDies.ok {α : Type} (a : α) : OnlyDies (.ok a : Except LdStop α) := by
  intro e h
  cases h

theorem OnlyDies.die {α : Type} (lay : Layout) (msg : String) (x : Option CStr) :
    OnlyDies (lay.die msg x : Except LdStop α) := by
  intro e h
  cases h
  exact ⟨lay.lineNo, msg, x, rfl⟩

theorem OnlyDies.bind {α β : Type} {x : Except LdStop α} {f : α → Except LdStop β}
    (hx : OnlyDies x) (hf : ∀ a, OnlyDies (f a)) : OnlyDies (x >>= f) := by
  intro e h
  cases x with
  | error e' =>
    cases h
    exact hx e rfl
  | ok a => exact hf a e h

theorem onlyDies_parseNum (lay : Layout) (s : CStr) : OnlyDies (parseNum lay s) := by
  unfold parseNum
  split
  · exact .die lay _ _
  dsimp only
  split
  · exact .ok _
  · split
    · exact .ok _
    · exact .die lay _ _

theorem onlyDies_tokenizeFrom (lay : Layout) (n : ℕ) (p : CStr) :
    OnlyDies (tokenizeFrom lay n p) := by
  induction n, p using tokenizeFrom.induct with
  | case1 n p hblank =>
    rw [tokenizeFrom]
    split
    · exact .ok []
    · next h => cases hblank.symm.trans h
  | case2 n p c cs hp hend =>
    rw [tokenizeFrom]
    split
    · exact .ok []
    next h =>
    cases hp.symm.trans h
    rw [if_pos hend]
    exact .ok []
  | case3 n p c cs hp hend hmany =>
    rw [tokenizeFrom]
    split
    · exact .ok []
    next h =>
    cases hp.symm.trans h
    rw [if_neg hend, if_pos hmany]
    exact .die lay _ _
  | case4 n p c cs hp hend hmany ih =>
    rw [tokenizeFrom]
    split
    · exact .ok []
    next h =>
    cases hp.symm.trans h
    rw [if_neg hend, if_neg hmany]
    apply OnlyDies.bind
    · split
      · exact .ok []
      · next head rest hrest => exact ih head rest hrest
    · exact fun toks => .ok _

theorem onlyDies_parseRegion (lay : Layout) (t : List CStr) : OnlyDies (parseRegion lay t) := by
  unfold parseRegion
  split
  · split
    · exact .die lay _ _
    split
    · refine (onlyDies_parseNum lay _).bind fun origin => ?_
      refine (onlyDies_parseNum lay _).bind fun length => ?_
      split
      · exact (onlyDies_parseNum lay _).bind fun v => .ok _
      · exact .ok _
    · exact .die lay _ _
  · exact .die lay _ _

theorem onlyDies_parsePlace (lay : Layout) (t : List CStr) : OnlyDies (parsePlace lay t) := by
  unfold parsePlace
  split
  · split
    · exact .die lay _ _
    split
    · exact .die lay _ _
    split
    · split
      · exact (onlyDies_parseNum lay _).bind fun off => .ok _
      · exact .ok _
    · exact .ok _
  · exact .die lay _ _

theorem onlyDies_parseLine (lay : Layout) (line : CStr) : OnlyDies (parseLine lay line) := by
  refine (onlyDies_tokenizeFrom lay 0 line).bind fun toks => ?_
  split
  · exact .ok lay
  split
  · split
    · exact .ok _
    · exact .die lay _ _
  split
  · split
    · exact (onlyDies_parseNum lay _).bind fun v => .ok _
    · exact .die lay _ _
  split
  · split
    · exact .ok _
    · exact .die lay _ _
  split
  · split
    · split
      · exact .die lay _ _
      · exact (onlyDies_parseNum lay _).bind fun v => .ok _
    · exact .die lay _ _
  split
  · exact onlyDies_parseRegion lay _
  split
  · exact onlyDies_parsePlace lay _
  · exact .die lay _ _

theorem parseScript_ne_fault (text : List Char) : parseScript text ≠ .error .fault := by
  intro h
  obtain ⟨line, msg, arg, he⟩ := Exec.foldlM_error
    (P := fun e => ∃ line msg arg, e = LdStop.die line msg arg) h
    fun lay line => onlyDies_parseLine _ line
  cases he

/-! ## Stores outside the image -/

def placeStop (q : PlaceT) (cursor : ℕ) (bytes : List RivU8) : ℕ :=
  (q.offset.map BitVec.toNat).getD cursor + bytes.length

/-- As far as the placements are made, one whose end passes the check in 32 bits
also ends in its region. -/
def ChecksFit (env : LdEnv) (regs : List RegionT) (cursor : ℕ → ℕ) : List PlaceT → Prop
  | [] => True
  | q :: qs =>
    match findRegion regs q.region, env.file q.file with
    | some (i, r), some bytes =>
      placeStop q (cursor i) bytes % 2 ^ 32 ≤ r.length.toNat →
        placeStop q (cursor i) bytes ≤ r.length.toNat ∧
          ChecksFit env regs (Function.update cursor i (placeStop q (cursor i) bytes)) qs
    | _, _ => True

variable {env : LdEnv} {regs : List RegionT}

theorem toNat_end (q : PlaceT) (c : RivU32) (bytes : List RivU8) :
    (q.offset.getD c + BitVec.ofNat 32 bytes.length).toNat =
      placeStop q c.toNat bytes % 2 ^ 32 := by
  rw [BitVec.toNat_add, BitVec.toNat_ofNat, Nat.add_mod_mod, toNat_offset, placeStop]

theorem placeFile_of_found {st : LdState} {q : PlaceT} {i : ℕ} {r : RegionT}
    {bytes : List RivU8} (hregion : findRegion regs q.region = some (i, r))
    (hfile : env.file q.file = some bytes) :
    placeFile env regs st q =
      if r.length < q.offset.getD (st.cursor i) + BitVec.ofNat 32 bytes.length then .error .failed
      else (do
        let image ← store st.image ((sumLengths (regs.take i)).toNat +
          (q.offset.getD (st.cursor i)).toNat) bytes
        .ok ⟨Function.update st.cursor i
            (q.offset.getD (st.cursor i) + BitVec.ofNat 32 bytes.length), image,
          st.placed ++ [⟨i, q.offset.getD (st.cursor i), bytes⟩]⟩) := by
  unfold placeFile
  rw [hregion]
  rw [hfile]

theorem store_fault {st : LdState} {q : PlaceT} {i : ℕ} {r : RegionT} {bytes : List RivU8}
    (himage : st.image.length < 2 ^ 32)
    (hcheck : placeStop q (st.cursor i).toNat bytes % 2 ^ 32 ≤ r.length.toNat)
    (hfit : ¬placeStop q (st.cursor i).toNat bytes ≤ r.length.toNat) (base : ℕ) :
    store st.image (base + (q.offset.getD (st.cursor i)).toNat) bytes = .error .fault := by
  have hoff := (q.offset.getD (st.cursor i)).isLt
  rw [placeStop, ← toNat_offset] at hcheck hfit
  have hlen : bytes ≠ [] := by grind
  rw [store, if_neg]
  rw [not_or]
  exact ⟨hlen, by omega⟩

theorem place_fault_iff (env : LdEnv) (places : List PlaceT) (st : LdState)
    (hsum : (lengths regs).sum < 2 ^ 32) (hroom : (lengths regs).sum ≤ st.image.length)
    (himage : st.image.length < 2 ^ 32) : places.foldlM (placeFile env regs) st = .error .fault ↔
      ¬ChecksFit env regs (fun i => (st.cursor i).toNat) places := by
  induction places generalizing st with
  | nil => exact iff_of_false (by rintro ⟨⟩) (not_not_intro trivial)
  | cons q qs ih =>
    rw [List.foldlM_cons]
    unfold ChecksFit
    split
    · next i r bytes hregion hfile =>
      have hi := findRegion_eq_some hregion
      have hend := end_le_sum (getElem?_lengths hi)
      have hstop := toNat_end q (st.cursor i) bytes
      rw [placeFile_of_found hregion hfile]
      by_cases hcheck : placeStop q (st.cursor i).toNat bytes % 2 ^ 32 ≤ r.length.toNat
      · rw [if_neg (by rw [BitVec.lt_def, hstop]; omega)]
        by_cases hfit : placeStop q (st.cursor i).toNat bytes ≤ r.length.toNat
        · -- the file is stored in its region
          have hin : start (lengths regs) i + (q.offset.getD (st.cursor i)).toNat +
              bytes.length ≤ st.image.length := by
            rw [placeStop, ← toNat_offset] at hfit
            omega
          have hsize := length_splice hin
          rw [baseOff_toNat hsum, store_of_room hin, Exec.ok_bind, Exec.ok_bind,
            ih _ (by rw [hsize]; exact hroom) (by rw [hsize]; exact himage)]
          rw [Nat.mod_eq_of_lt (by omega)] at hstop
          rw [toNat_update, hstop]
          exact not_congr ⟨fun h _ => ⟨hfit, h⟩, fun h => (h hcheck).2⟩
        · rw [store_fault himage hcheck hfit]
          exact ⟨fun _ h => hfit (h hcheck).1, fun _ => rfl⟩
      · rw [if_pos (by rw [BitVec.lt_def, hstop]; omega)]
        simp_all
    · next hnone =>
      have hfailed : placeFile env regs st q = .error .failed := by
        unfold placeFile
        grind
      rw [hfailed]
      simp

def InBounds (env : LdEnv) (lay : Layout) : Prop :=
  env.malloc (allocSize lay.regs) = none ∨
    (lengths lay.regs).sum < 2 ^ 32 ∧ ChecksFit env lay.regs (fun _ => 0) lay.places

theorem linkImage_fault_iff (env : LdEnv) (lay : Layout) :
    linkImage env lay = .error .fault ↔ ¬InBounds env lay := by
  have hlt := allocSize_lt lay.regs
  unfold linkImage InBounds
  split
  · simp_all
  next image hmalloc =>
  have hlen : image.1.length = allocSize lay.regs := image.2
  have hsome : env.malloc (allocSize lay.regs) ≠ none := by
    rw [hmalloc]
    exact Option.some_ne_none image
  rw [not_or, and_iff_right hsome]
  by_cases hsum : (lengths lay.regs).sum < 2 ^ 32
  · have hroom := sum_le_allocSize hsum
    have hzero : (0 : RivU32).toNat = 0 := rfl
    obtain ⟨filled, hfill, hsize, -, -⟩ := fillRegions_ok lay.regs 0 image.1
      (by rw [hzero, hlen]; omega) (by rw [hzero]; omega)
    rw [hfill, Exec.ok_bind, and_iff_right hsum]
    have hfault := place_fault_iff env lay.places
      ⟨fun _ => 0, filled, []⟩ hsum (by rw [hsize, hlen]; exact hroom)
      (by rw [hsize, hlen]; exact hlt)
    rw [show (fun _ : ℕ => 0) = fun i : ℕ => ((fun _ => 0 : ℕ → RivU32) i).toNat from rfl, ← hfault]
    cases hrun : lay.places.foldlM (placeFile env lay.regs) ⟨fun _ => 0, filled, []⟩ with
    | error e => rw [Exec.error_bind, Except.error.injEq, Except.error.injEq]
    | ok st =>
      constructor
      · intro h
        split at h <;> cases h
      · intro h
        cases h
  · rw [fillRegions_fault (by rw [hlen]; exact hlt)
      (by rw [show (0 : RivU32).toNat = 0 from rfl]; omega)]
    exact ⟨fun _ h => hsum h.1, fun _ => rfl⟩

/-- No store falls outside the image, and an image that is written is located. -/
structure LinksInBounds (env : LdEnv) (text : List Char) : Prop where
  inBounds : rivetLd env text ≠ .error .fault
  located : ∀ res, rivetLd env text = .ok res →
    ∃ lay, parseScript text = .ok lay ∧ Located env lay res

theorem linksInBounds_iff (env : LdEnv) (text : List Char) :
    LinksInBounds env text ↔ ∀ lay, parseScript text = .ok lay → InBounds env lay := by
  constructor
  · intro h lay hlay
    by_contra hout
    apply h.inBounds
    rw [rivetLd, hlay, Exec.ok_bind]
    exact (linkImage_fault_iff env lay).mpr hout
  · intro h
    constructor
    · intro hfault
      rw [rivetLd] at hfault
      cases hlay : parseScript text with
      | error e =>
        rw [hlay] at hfault
        cases hfault
        exact parseScript_ne_fault text hlay
      | ok lay =>
        rw [hlay, Exec.ok_bind] at hfault
        exact (linkImage_fault_iff env lay).mp hfault (h lay hlay)
    · intro res hres
      obtain ⟨lay, hlay, hlink⟩ := Exec.of_bind_eq_ok hres
      exact ⟨lay, hlay, (linkImage_located hlink).1⟩

def sampleEnv (file : CStr → Option (List RivU8)) : LdEnv where
  file := file
  malloc n := some ⟨List.replicate n 0, List.length_replicate⟩
  writable _ := true

/-- An offset near the top of 32 bits passes the check of a small region. -/
theorem wrapped_offset_stored : rivetLd (sampleEnv fun _ => some (List.replicate 32 0xAA))
        "region rom origin=0 length=0x20\nplace a in rom at 0xFFFFFFF0\n".toList = .error .fault ∧
      ¬LinksInBounds (sampleEnv fun _ => some (List.replicate 32 0xAA))
        "region rom origin=0 length=0x20\nplace a in rom at 0xFFFFFFF0\n".toList := by
  have hfault : rivetLd (sampleEnv fun _ => some (List.replicate 32 0xAA))
      "region rom origin=0 length=0x20\nplace a in rom at 0xFFFFFFF0\n".toList =
        .error .fault := by
    decide +kernel
  exact ⟨hfault, fun h => h.inBounds hfault⟩

/-! ## Overlapping placements -/

def Overlap (a b : ℕ × Write RivU8) : Prop :=
  a.1 = b.1 ∧ max a.2.off b.2.off < min a.2.stop b.2.stop

instance : Std.Symm fun a b : ℕ × Write RivU8 => ¬Overlap a b where
  symm a b h hba := h ⟨hba.1.symm, by rw [max_comm, min_comm]; exact hba.2⟩

/-- Every byte of every file that was placed is in the image where it was reported,
and no placement covers a byte of another. -/
structure Survives (regs : List RegionT) (res : LdResult) : Prop where
  present : ∀ p ∈ res.placed, ∀ k < p.bytes.length,
    res.image[start (lengths regs) p.ridx + p.reloff.toNat + k]? = p.bytes[k]?
  apart : (res.placed.map Placed.write).Pairwise fun a b => ¬Overlap a b

theorem mem_writesIn {placed : List Placed} {i : ℕ} {w : Write RivU8} :
    w ∈ writesIn i placed ↔ ∃ p ∈ placed, p.write = (i, w) := by
  simp [writesIn, decide_eq_true_eq, Placed.write, Prod.mk.injEq, and_assoc]

theorem Holding.present {image : List RivU8} {placed : List Placed}
    (hold : Holding regs image placed)
    (hapart : (placed.map Placed.write).Pairwise fun a b => ¬Overlap a b) :
    ∀ p ∈ placed, ∀ k < p.bytes.length,
      image[start (lengths regs) p.ridx + p.reloff.toNat + k]? = p.bytes[k]? := by
  intro p hp k hk
  obtain ⟨r, hr, hfit⟩ := hold.fits p hp
  have hself : p.write.2.at? (p.reloff.toNat + k) = some (p.bytes[k]) := by
    rw [Placed.write, Write.at?]
    simp
  have hlatest := latest_of_mem (mem_writesIn.mpr ⟨p, hp, rfl⟩) hself (by
    intro w hw
    obtain ⟨p', hp', hw'⟩ := mem_writesIn.mp hw
    by_cases heq : p'.write = p.write
    · left
      exact (Prod.mk.inj (hw'.symm.trans heq)).2
    right
    have hno := hapart.forall (List.mem_map_of_mem hp') (List.mem_map_of_mem hp) heq
    rw [hw'] at hno
    by_contra hcover
    exact hno ⟨rfl, Write.overlap_of_at? hcover (by rw [hself]; exact Option.some_ne_none _)⟩)
  rw [Nat.add_assoc, hold.bytes p.ridx r _ hr (by omega), hlatest, Option.getD_some,
    List.getElem?_eq_getElem hk]

/-- The files of a script that is linked survive exactly when no two of its
placements overlap. -/
theorem survives_iff {text : List Char} {lay : Layout} {res : LdResult}
    (_hlay : parseScript text = .ok lay) (h : linkImage env lay = .ok res) : Survives lay.regs res ↔
      (placements env lay.regs (fun _ => 0) lay.places).Pairwise fun a b => ¬Overlap a b := by
  obtain ⟨hloc, hplaced⟩ := linkImage_located h
  rw [← hplaced]
  constructor
  · intro hs
    exact hs.apart
  · intro hapart
    exact ⟨hloc.holding.present hapart, hapart⟩

def sampleFile (name : CStr) : Option (List RivU8) :=
  if name = ['a'] then some [1, 2] else if name = ['b'] then some [3] else none

def sampleLayout (offset : Option RivU32) : Layout where
  regs := [⟨"rom".toList, 0, 4, 0⟩]
  places := [⟨['a'], "rom".toList, none⟩, ⟨['b'], "rom".toList, offset⟩]
  lineNo := 3

theorem survives_iff_sequential :
    Survives (sampleLayout none).regs ⟨[1, 2, 3, 0], [⟨0, 0, [1, 2]⟩, ⟨0, 2, [3]⟩]⟩ ↔
      (placements (sampleEnv sampleFile) (sampleLayout none).regs (fun _ => 0)
        (sampleLayout none).places).Pairwise fun a b => ¬Overlap a b :=
  survives_iff
    (show parseScript "region rom origin=0 length=4\nplace a in rom\nplace b in rom\n".toList =
        .ok (sampleLayout none) by decide +kernel)
    (by decide +kernel)

/-- A second file at an offset that the first one covers is accepted, and its byte
replaces one of the first. -/
theorem overlap_accepted :
    parseScript "region rom origin=0 length=4\nplace a in rom\nplace b in rom at 1\n".toList =
        .ok (sampleLayout (some 1)) ∧ linkImage (sampleEnv sampleFile) (sampleLayout (some 1)) =
        .ok ⟨[1, 3, 0, 0], [⟨0, 0, [1, 2]⟩, ⟨0, 1, [3]⟩]⟩ ∧ ¬Survives (sampleLayout (some 1)).regs
        ⟨[1, 3, 0, 0], [⟨0, 0, [1, 2]⟩, ⟨0, 1, [3]⟩]⟩ := by
  refine ⟨by decide +kernel, by decide +kernel, ?_⟩
  intro h
  have hbyte := h.present ⟨0, 0, [1, 2]⟩ List.mem_cons_self 1 (by decide)
  revert hbyte
  decide

end Rivet.Linker
