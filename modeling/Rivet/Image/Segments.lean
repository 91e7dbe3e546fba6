import Rivet.Image.Srec

/-!
# The segments of an Intel HEX file

A reader of the format forms the address of a data byte from the extended linear
base and the sixteen-bit offset of its record, which wraps at 64 KiB.
`bin_to_ihex` cuts its input into buffers of sixteen bytes from the base on and
prints a new extended address only in front of a buffer, so a buffer that lies
across a 64 KiB boundary is read back to the wrong place.
-/

namespace Rivet.Image

open CLib List BitVec

/-! ## A reader of the format -/

/-- What a reader has found out: the extended linear base and the bytes stored. -/
structure HexReader where
  upper : ℕ
  mem : ℕ → Option RivU8

def HexReader.start : HexReader where
  upper := 0
  mem _ := none

def beWord (hi lo : RivU8) : ℕ := 256 * hi.toNat + lo.toNat

def HexReader.store (r : HexReader) (offset : ℕ) : List RivU8 → HexReader
  | [] => r
  | b :: bs =>
    { r with mem := Function.update r.mem (r.upper + offset % 65536) (some b) }.store
      (offset + 1) bs

/-- One record: data, an extended linear address, or something that stores
nothing. -/
def HexReader.record (r : HexReader) : List RivU8 → HexReader
  | n :: hi :: lo :: type :: rest =>
    if type = 0 then r.store (beWord hi lo) (rest.take n.toNat)
    else
      match type, rest with
      | 4, b₁ :: b₂ :: _ => { r with upper := 65536 * beWord b₁ b₂ }
      | _, _ => r
  | _ => r

def HexReader.file (lines : List (List Char)) : HexReader :=
  (lines.filterMap readIhexRecord).foldl HexReader.record HexReader.start

def InSegment : List RivU8 → Prop
  | n :: hi :: lo :: type :: _ => type = 0 → beWord hi lo + n.toNat ≤ 0x10000
  | _ => True

/-- No data record of the output extends past a 64 KiB boundary, and a reader
stores every byte of the input at its address. -/
structure ObeysSegments (data : List RivU8) (base : RivU32) : Prop where
  within : ∀ l ∈ readLines (binToIhex data base), ∀ bytes ∈ readIhexRecord l, InSegment bytes
  stored : ∀ i, (h : i < data.length) →
    (HexReader.file (readLines (binToIhex data base))).mem (base.toNat + i) = some data[i]

/-- The buffers start at multiples of their size, or all data is in one segment. -/
def BuffersFit (addr len : ℕ) : Prop := addr % 16 = 0 ∨ addr % 65536 + len ≤ 65536

/-! ## The records of the output -/

def upperBytes (upper : RivU32) : List RivU8 :=
  ([2, 0, 0, 4] : List RivU8) ++ ([(upper >>> 8).setWidth 8] ++
    ([upper.setWidth 8] ++ [upperSum ((upper >>> 8).setWidth 8) (upper.setWidth 8)]))

/-- The bytes of the records that `bin_to_ihex` prints for `data`. -/
def hexRecords (addr last : RivU32) (data : List RivU8) : List (List RivU8) :=
  (ihexLines addr last data).filterMap readIhexRecord

theorem hexRecords_nil (addr last : RivU32) : hexRecords addr last [] = [] := by
  simp [hexRecords, ihexLines]

theorem hexRecords_cons (addr last : RivU32) {data : List RivU8} (h : data ≠ []) :
    hexRecords addr last data = (if addr >>> 16 ≠ last then [upperBytes (addr >>> 16)] else []) ++
        (dataBytes addr (data.take 16) ++ [dataSum addr (data.take 16)]) ::
          hexRecords (addr + BitVec.ofNat 32 (data.take 16).length) (addr >>> 16)
            (data.drop 16) := by
  have hdata : readIhexRecord (dataText addr (data.take 16)) =
      some (dataBytes addr (data.take 16) ++ [dataSum addr (data.take 16)]) := by
    grind [dataText_eq_ihexText, readIhexRecord_ihexText]
  have hupper : readIhexRecord (upperText (addr >>> 16)) = some (upperBytes (addr >>> 16)) := by
    rw [upperText_eq_ihexText, readIhexRecord_ihexText, upperBytes]
  rw [hexRecords, ihexLines, if_neg h]
  by_cases hup : addr >>> 16 ≠ last
  · rw [if_pos hup, if_pos hup, filterMap_cons_some hupper, filterMap_cons_some hdata]
    rfl
  · rw [if_neg hup, if_neg hup, filterMap_cons_some hdata]
    rfl

/-! ## Fields of a record -/

theorem beWord_addr (addr : RivU32) :
    beWord ((addr >>> 8).setWidth 8) (addr.setWidth 8) = addr.toNat % 65536 := by
  rw [beWord, toNat_setWidth, toNat_setWidth, toNat_ushiftRight, Nat.shiftRight_eq_div_pow]
  omega

theorem record_upper (r : HexReader) (addr : RivU32) :
    r.record (upperBytes (addr >>> 16)) = { r with upper := 65536 * (addr.toNat / 65536) } := by
  have hword : beWord (((addr >>> 16) >>> 8).setWidth 8) ((addr >>> 16).setWidth 8) =
      addr.toNat / 65536 := by
    rw [beWord_addr, toNat_ushiftRight, Nat.shiftRight_eq_div_pow]
    omega
  rw [← hword]
  rfl

theorem record_data (r : HexReader) (addr : RivU32) {buf : List RivU8} (hbuf : buf.length ≤ 16)
    (sum : RivU8) : r.record (dataBytes addr buf ++ [sum]) = r.store (addr.toNat % 65536) buf := by
  have hlen : (BitVec.ofNat 8 buf.length).toNat = buf.length := by
    rw [toNat_ofNat, Nat.mod_eq_of_lt (by omega)]
  have hrecord : r.record (dataBytes addr buf ++ [sum]) =
      r.store (beWord ((addr >>> 8).setWidth 8) (addr.setWidth 8))
        ((buf ++ [sum]).take (BitVec.ofNat 8 buf.length).toNat) := rfl
  rw [hrecord, beWord_addr, hlen, take_left]

theorem inSegment_data (addr : RivU32) {buf : List RivU8} (hbuf : buf.length ≤ 16) (sum : RivU8) :
    InSegment (dataBytes addr buf ++ [sum]) ↔ addr.toNat % 65536 + buf.length ≤ 65536 := by
  have hlen : (BitVec.ofNat 8 buf.length).toNat = buf.length := by
    rw [toNat_ofNat, Nat.mod_eq_of_lt (by omega)]
  have hfields : InSegment (dataBytes addr buf ++ [sum]) ↔
      ((0 : RivU8) = 0 → beWord ((addr >>> 8).setWidth 8) (addr.setWidth 8) +
        (BitVec.ofNat 8 buf.length).toNat ≤ 0x10000) := Iff.rfl
  simp [hfields, beWord_addr, hlen]

theorem inSegment_upper (upper : RivU32) : InSegment (upperBytes upper) :=
  fun h => absurd h (by decide)

/-! ## Storing a buffer -/

@[simp] theorem store_upper (r : HexReader) (offset : ℕ) (bs : List RivU8) :
    (r.store offset bs).upper = r.upper := by
  induction bs generalizing r offset with
  | nil => rfl
  | cons b bs ih => rw [HexReader.store, ih]

theorem store_mem (r : HexReader) (offset : ℕ) (bs : List RivU8)
    (h : offset + bs.length ≤ 65536) (x : ℕ) : (r.store offset bs).mem x =
      if r.upper + offset ≤ x ∧ x < r.upper + offset + bs.length then bs[x - (r.upper + offset)]?
      else r.mem x := by
  induction bs generalizing r offset with
  | nil => grind [HexReader.store]
  | cons b bs ih =>
    rw [length_cons] at h
    have hoff : offset % 65536 = offset := Nat.mod_eq_of_lt (by omega)
    rw [HexReader.store, ih _ _ (by omega), hoff, length_cons]
    by_cases hx : x = r.upper + offset
    · subst hx
      simp
    have hmem : Function.update r.mem (r.upper + offset) (some b) x = r.mem x :=
      Function.update_of_ne hx _ _
    simp only [hmem]
    by_cases hin : r.upper + (offset + 1) ≤ x ∧ x < r.upper + (offset + 1) + bs.length
    · have hidx : x - (r.upper + offset) = x - (r.upper + (offset + 1)) + 1 := by omega
      rw [if_pos hin, if_pos (by omega), hidx, List.getElem?_cons_succ]
    · rw [if_neg hin, if_neg (by omega)]

/-! ## The whole output -/

theorem BuffersFit.first {addr len : ℕ} (h : BuffersFit addr len) :
    addr % 65536 + min 16 len ≤ 65536 := by
  unfold BuffersFit at h
  omega

@[elab_as_elim]
theorem buffers_induction {motive : (addr last : RivU32) → (data : List RivU8) →
      addr.toNat + data.length ≤ 2 ^ 32 → Prop} (nil : ∀ addr last hfit, motive addr last [] hfit)
    (one : ∀ addr last data hfit, data ≠ [] → data.length ≤ 16 → motive addr last data hfit)
    (more : ∀ addr last data hfit hfit', 16 < data.length →
      (addr + BitVec.ofNat 32 (data.take 16).length).toNat = addr.toNat + 16 →
      motive (addr + BitVec.ofNat 32 (data.take 16).length) (addr >>> 16) (data.drop 16) hfit' →
      motive addr last data hfit)
    (addr last : RivU32) (data : List RivU8) (hfit : addr.toNat + data.length ≤ 2 ^ 32) :
    motive addr last data hfit := by
  induction hn : data.length using Nat.strong_induction_on generalizing addr last data with
  | _ n ih =>
    by_cases hne : data = []
    · subst hne
      exact nil addr last hfit
    by_cases hlong : data.length ≤ 16
    · exact one addr last data hfit hne hlong
    have htake : (data.take 16).length = 16 := by
      rw [length_take]
      omega
    have hdrop : (data.drop 16).length = n - 16 := by rw [length_drop, hn]
    have hnext : (addr + BitVec.ofNat 32 (data.take 16).length).toNat = addr.toNat + 16 := by
      rw [htake, toNat_add_length (by omega)]
    have hfit' : (addr + BitVec.ofNat 32 (data.take 16).length).toNat +
        (data.drop 16).length ≤ 2 ^ 32 := by
      omega
    exact more addr last data hfit hfit' (by omega) hnext
      (ih (n - 16) (by omega) _ _ _ hfit' hdrop)

theorem BuffersFit.next {addr len : ℕ} (h : BuffersFit addr len) (hlen : 16 < len) :
    BuffersFit (addr + 16) (len - 16) := by
  unfold BuffersFit at h ⊢
  omega

theorem record_upper_if (r : HexReader) {addr last : RivU32}
    (hlast : last = addr >>> 16 → r.upper = 65536 * (addr.toNat / 65536)) :
    (if addr >>> 16 ≠ last then [upperBytes (addr >>> 16)] else []).foldl HexReader.record r =
      { r with upper := 65536 * (addr.toNat / 65536) } := by
  split
  · rw [foldl_cons, foldl_nil, record_upper]
  · next hsame => rw [foldl_nil, ← hlast (not_not.mp hsame).symm]

theorem store_buffer (r : HexReader) (addr : RivU32) {data : List RivU8}
    (hbuf : BuffersFit addr.toNat data.length) (x : ℕ) :
    (({ r with upper := 65536 * (addr.toNat / 65536) }.store (addr.toNat % 65536)
        (data.take 16))).mem x =
      if addr.toNat ≤ x ∧ x < addr.toNat + (data.take 16).length then
        (data.take 16)[x - addr.toNat]?
      else r.mem x := by
  have hfirst : addr.toNat % 65536 + (data.take 16).length ≤ 65536 := by
    rw [length_take]
    exact hbuf.first
  have haddr : 65536 * (addr.toNat / 65536) + addr.toNat % 65536 = addr.toNat :=
    Nat.div_add_mod _ _
  rw [store_mem _ _ _ hfirst]
  simp only [haddr]

theorem foldl_hexRecords (addr last : RivU32) (data : List RivU8)
    (hfit : addr.toNat + data.length ≤ 2 ^ 32) (r : HexReader)
    (hbuf : BuffersFit addr.toNat data.length)
    (hlast : last = addr >>> 16 → r.upper = 65536 * (addr.toNat / 65536)) (x : ℕ) :
    ((hexRecords addr last data).foldl HexReader.record r).mem x =
      if addr.toNat ≤ x ∧ x < addr.toNat + data.length then data[x - addr.toNat]? else r.mem x := by
  induction addr, last, data, hfit using buffers_induction generalizing r with
  | nil addr last hfit => simp [hexRecords_nil]
  | one addr last data hfit hne hlen =>
    have hall : data.take 16 = data := take_of_length_le hlen
    rw [hexRecords_cons addr last hne, foldl_append, record_upper_if r hlast,
      foldl_cons, record_data _ addr (length_take_le 16 data),
      drop_of_length_le hlen, hexRecords_nil, foldl_nil, store_buffer r addr hbuf,
      hall]
  | more addr last data hfit hfit' hlong hnext ih =>
    have hne : data ≠ [] := ne_nil_of_length_pos (by omega)
    have htake : (data.take 16).length = 16 := by
      rw [length_take]
      omega
    have hdrop : (data.drop 16).length = data.length - 16 := length_drop
    rw [hexRecords_cons addr last hne, foldl_append, record_upper_if r hlast,
      foldl_cons, record_data _ addr (length_take_le 16 data), ih, hnext,
      store_buffer r addr hbuf, htake, hdrop]
    · by_cases hlow : addr.toNat + 16 ≤ x ∧ x < addr.toNat + 16 + (data.length - 16)
      · have hidx : 16 + (x - (addr.toNat + 16)) = x - addr.toNat := by omega
        rw [if_pos hlow, if_pos (by omega), List.getElem?_drop, hidx]
      rw [if_neg hlow]
      by_cases hin : addr.toNat ≤ x ∧ x < addr.toNat + 16
      · rw [if_pos hin, if_pos (by omega), List.getElem?_take_of_lt (by omega)]
      · rw [if_neg hin, if_neg (by omega)]
    · rw [hnext, hdrop]
      exact hbuf.next hlong
    · -- the base stays while the upper half of the address does
      intro hsame
      have hdiv := congrArg BitVec.toNat hsame
      rw [toNat_ushiftRight, toNat_ushiftRight, hnext,
        Nat.shiftRight_eq_div_pow, Nat.shiftRight_eq_div_pow] at hdiv
      rw [store_upper, hnext]
      simp only
      omega

theorem inSegment_hexRecords (addr last : RivU32) (data : List RivU8)
    (hfit : addr.toNat + data.length ≤ 2 ^ 32) (hbuf : BuffersFit addr.toNat data.length) :
    ∀ bytes ∈ hexRecords addr last data, InSegment bytes := by
  have hrecord : ∀ {addr last : RivU32} {data : List RivU8}, data ≠ [] →
      BuffersFit addr.toNat data.length →
      (∀ bytes ∈ hexRecords (addr + BitVec.ofNat 32 (data.take 16).length) (addr >>> 16)
        (data.drop 16), InSegment bytes) →
      ∀ bytes ∈ hexRecords addr last data, InSegment bytes := by
    intro addr last data hne hbuf hrest bytes hmem
    rw [hexRecords_cons addr last hne] at hmem
    rcases mem_append.mp hmem with hmem | hmem
    · split at hmem
      · simp_all [inSegment_upper]
      · exact absurd hmem not_mem_nil
    · rcases mem_cons.mp hmem with rfl | hmem
      · simp [inSegment_data addr (length_take_le 16 data), hbuf.first]
      · exact hrest bytes hmem
  induction addr, last, data, hfit using buffers_induction with
  | nil addr last hfit => simp [hexRecords_nil]
  | one addr last data hfit hne hlen =>
    refine hrecord hne hbuf ?_
    rw [drop_of_length_le hlen, hexRecords_nil]
    exact fun bytes hmem => absurd hmem not_mem_nil
  | more addr last data hfit hfit' hlong hnext ih =>
    refine hrecord (ne_nil_of_length_pos (by omega)) hbuf (ih ?_)
    rw [hnext, length_drop]
    exact hbuf.next hlong

theorem exists_crossing (addr last : RivU32) (data : List RivU8)
    (hfit : addr.toNat + data.length ≤ 2 ^ 32) (hbuf : ¬BuffersFit addr.toNat data.length) :
    ∃ bytes ∈ hexRecords addr last data, ¬InSegment bytes := by
  induction addr, last, data, hfit using buffers_induction with
  | nil addr last hfit => grind [BuffersFit]
  | one addr last data hfit hne hlen =>
    unfold BuffersFit at hbuf
    rw [hexRecords_cons addr last hne]
    refine ⟨_, mem_append_right _ mem_cons_self, ?_⟩
    simp_all [inSegment_data]
  | more addr last data hfit hfit' hlong hnext ih =>
    have htake : (data.take 16).length = 16 := by
      rw [length_take]
      omega
    rw [hexRecords_cons addr last (ne_nil_of_length_pos (by omega))]
    unfold BuffersFit at hbuf ih
    by_cases hcross : addr.toNat % 65536 + 16 ≤ 65536
    · -- the boundary lies behind this buffer, and not at its end
      obtain ⟨bytes, hmem, hbytes⟩ := ih (by rw [hnext, length_drop]; omega)
      exact ⟨bytes, mem_append_right _ (mem_cons_of_mem _ hmem), hbytes⟩
    · refine ⟨_, mem_append_right _ mem_cons_self, ?_⟩
      rw [inSegment_data addr (length_take_le 16 data), htake]
      exact hcross

theorem filterMap_readLines (data : List RivU8) (base : RivU32) :
    (readLines (binToIhex data base)).filterMap readIhexRecord =
      hexRecords base (-1) data ++ [[0, 0, 0, 1, 0xFF]] := by
  have hend : [endText].filterMap readIhexRecord = [[0, 0, 0, 1, 0xFF]] := by decide
  rw [readLines_binToIhex, filterMap_append, hend, hexRecords]

theorem ushiftRight_ne_neg_one (addr : RivU32) : addr >>> 16 ≠ -1 := by
  intro h
  have hlt := toNat_ushiftRight_lt addr
  rw [h] at hlt
  revert hlt
  decide

/-- The output obeys the segment rule exactly when the base is a multiple of
sixteen or the data stays in the segment of the base. -/
theorem binToIhex_obeysSegments_iff (data : List RivU8) (base : RivU32)
    (hfit : base.toNat + data.length ≤ 2 ^ 32) : ObeysSegments data base ↔
      base.toNat % 16 = 0 ∨ base.toNat % 65536 + data.length ≤ 65536 := by
  have hrecords := filterMap_readLines data base
  constructor
  · intro h
    by_contra hbuf
    obtain ⟨bytes, hmem, hbytes⟩ := exists_crossing base (-1) data hfit hbuf
    have hline : bytes ∈ (readLines (binToIhex data base)).filterMap readIhexRecord := by
      rw [hrecords]
      exact List.mem_append_left _ hmem
    obtain ⟨l, hl, hread⟩ := List.mem_filterMap.mp hline
    exact hbytes (h.within l hl bytes hread)
  · intro hbuf
    constructor
    · intro l hl bytes hread
      have hmem : bytes ∈ (readLines (binToIhex data base)).filterMap readIhexRecord :=
        List.mem_filterMap.mpr ⟨l, hl, hread⟩
      rw [hrecords] at hmem
      rcases List.mem_append.mp hmem with hmem | hmem
      · exact inSegment_hexRecords base (-1) data hfit hbuf bytes hmem
      · rw [List.mem_singleton.mp hmem]
        exact fun htype => absurd htype (by decide)
    · intro i hi
      have hend : ∀ r : HexReader, r.record [0, 0, 0, 1, 0xFF] = r := fun r => rfl
      rw [HexReader.file, hrecords, List.foldl_append, List.foldl_cons, List.foldl_nil, hend,
        foldl_hexRecords base (-1) data hfit _ hbuf
          (fun h => absurd h.symm (ushiftRight_ne_neg_one base)), if_pos (by omega),
        Nat.add_sub_cancel_left, List.getElem?_eq_getElem hi]

/-- Forty bytes from 0xFFF0 on. -/
theorem binToIhex_obeysSegments_aligned : ObeysSegments (List.replicate 40 0xA5) 0xFFF0 :=
  (binToIhex_obeysSegments_iff (List.replicate 40 0xA5) 0xFFF0 (by decide)).mpr (.inl (by decide))

/-- Two bytes at 0xFFFF are printed as one record, and a reader stores the second
of them at address 0. -/
theorem binToIhex_crosses_segment :
    (HexReader.file (readLines (binToIhex [1, 2] 0xFFFF))).mem 0 = some 2 ∧
      ¬ObeysSegments [1, 2] 0xFFFF := by
  have hfile : (HexReader.file (readLines (binToIhex [1, 2] 0xFFFF))).mem 0 = some 2 ∧
      (HexReader.file (readLines (binToIhex [1, 2] 0xFFFF))).mem 0x10000 = none := by
    decide +kernel
  refine ⟨hfile.1, fun h => ?_⟩
  have hstored : (HexReader.file (readLines (binToIhex [1, 2] 0xFFFF))).mem 0x10000 = some 2 :=
    h.stored 1 (by decide)
  rw [hfile.2] at hstored
  cases hstored

end Rivet.Image
