import Rivet.Image.Ihex
import Rivet.Support.Splice

/-!
# Intel HEX round trips

Decoding the text that `bin_to_ihex` prints gives the bytes and their base
address back.  Both loops of the decoder follow the encoder buffer by buffer: a
buffer's data record lies in the upper half announced last, even where its
bytes run past the end of that half.
-/

namespace Rivet.Image

open CLib Splice List BitVec

variable {addr upper : RivU32} {buf : List RivU8}

/-! ## The two loops of the decoder -/

theorem isRecord_ihexLines (addr last : RivU32) (data : List RivU8) :
    ∀ l ∈ ihexLines addr last data, IsRecord l := by
  have hdata (addr : RivU32) (data : List RivU8) : IsRecord (dataText addr (data.take 16)) :=
    have hlen : (data.take 16).length ≤ 16 := length_take_le 16 data
    ⟨_, recordDigits_data addr hlen, dataText_eq addr hlen⟩
  have hupper (upper : RivU32) : IsRecord (upperText upper) :=
    ⟨_, recordDigits_upper upper, upperText_eq upper⟩
  fun_induction ihexLines addr last data with
  | case1 => simp
  | case2 addr last data hne buf upper lines hup ih =>
    exact forall_mem_cons.mpr ⟨hupper _, forall_mem_cons.mpr ⟨hdata addr data, ih⟩⟩
  | case3 addr last data hne buf upper lines hup ih =>
    exact forall_mem_cons.mpr ⟨hdata addr data, ih⟩

theorem upper_or_lower (addr : RivU32) : ((addr >>> 16) <<< 16) ||| (addr &&& 0xFFFF) = addr := by
  have hmask : (0xFFFF : RivU32) = BitVec.setWidth 32 (BitVec.allOnes 16) := by decide
  rw [hmask]
  ext i hi
  simp only [getElem_or, getElem_shiftLeft, getElem_and, getElem_setWidth, getLsbD_allOnes]
  by_cases h : i < 16
  · simp [h]
  · simp [h, show 16 + (i - 16) = i by omega, getLsbD_eq_getElem hi]

theorem toNat_ushiftRight_lt (addr : RivU32) : (addr >>> 16).toNat < 65536 := by
  rw [toNat_ushiftRight, Nat.shiftRight_eq_div_pow]
  omega

/-- The variable `upper` of the decoder follows the last record of an upper
half; there is none before the first data record. -/
def Follows (upper last : RivU32) : Prop := last ≠ -1 → upper = last <<< 16

theorem follows_upper (addr : RivU32) : Follows ((addr >>> 16) <<< 16) (addr >>> 16) :=
  fun _ => rfl

theorem Follows.eq (h : Follows upper (addr >>> 16)) : upper = (addr >>> 16) <<< 16 := by
  apply h
  intro heq
  have hlt := toNat_ushiftRight_lt addr
  rw [heq] at hlt
  exact absurd hlt (by decide)

section Scan

theorem scanLine_upper (st : IhexScan) (hupper : upper.toNat < 65536) :
    scanLine st (upperText upper) =
      { st with line := st.line.fill (upperText upper), upper := upper <<< 16 } := by
  simp_all [upperText_eq, scanLine, fill_record_zero, fill_upper]

theorem scanLine_data (st : IhexScan) (addr : RivU32) (hbuf : buf.length ≤ 16)
    (hupper : st.upper = (addr >>> 16) <<< 16) :
    scanLine st (dataText addr buf) =
      { st with
        line := st.line.fill (dataText addr buf)
        minaddr := if addr < st.minaddr then addr else st.minaddr
        maxaddr := if st.maxaddr < addr + BitVec.ofNat 32 buf.length
          then addr + BitVec.ofNat 32 buf.length else st.maxaddr } := by
  obtain ⟨htype, hlen, haddr, -⟩ := fill_data st.line addr hbuf
  rw [dataText_eq addr hbuf, scanLine, if_neg (fill_record_zero _ _), if_neg (by rw [htype]; decide),
    if_pos htype, hlen, haddr, hupper, upper_or_lower, ofInt_natCast]

theorem scanLine_end (st : IhexScan) :
    scanLine st endText = { st with line := st.line.fill endText } := by
  have htype := fill_end st.line
  rw [endText_eq, scanLine, if_neg (fill_record_zero _ _), if_neg (by rw [htype]; decide),
    if_neg (by rw [htype]; decide)]

theorem scan_chunk (addr : RivU32) {last : RivU32} (hbuf : buf.length ≤ 16) (st : IhexScan)
    (hst : Follows st.upper last) :
    ∃ st' : IhexScan, st'.upper = (addr >>> 16) <<< 16 ∧
      st'.minaddr = (if addr < st.minaddr then addr else st.minaddr) ∧
      st'.maxaddr = (if st.maxaddr < addr + BitVec.ofNat 32 buf.length
        then addr + BitVec.ofNat 32 buf.length else st.maxaddr) ∧
      ∀ lines, (if addr >>> 16 ≠ last
          then upperText (addr >>> 16) :: dataText addr buf :: lines
          else dataText addr buf :: lines).foldl scanLine st = lines.foldl scanLine st' := by
  by_cases hlast : addr >>> 16 = last
  · subst hlast
    refine ⟨scanLine st (dataText addr buf), ?_⟩
    rw [scanLine_data st addr hbuf hst.eq]
    refine ⟨hst.eq, rfl, rfl, ?_⟩
    intro lines
    rw [if_neg (by simp), foldl_cons, scanLine_data st addr hbuf hst.eq]
  · have hup := scanLine_upper st (toNat_ushiftRight_lt addr)
    have hdata := scanLine_data { st with
      line := st.line.fill (upperText (addr >>> 16)), upper := (addr >>> 16) <<< 16 }
      addr hbuf rfl
    refine ⟨scanLine (scanLine st (upperText (addr >>> 16))) (dataText addr buf), ?_⟩
    simp_all

theorem toNat_ite_min (a b : RivU32) : (if a < b then a else b).toNat = min b.toNat a.toNat := by
  simp only [lt_def]
  split <;> omega

theorem toNat_ite_max (a b : RivU32) : (if b < a then a else b).toNat = max b.toNat a.toNat := by
  simp only [lt_def]
  split <;> omega

theorem toNat_add_length {n : ℕ} (h : addr.toNat + n < 2 ^ 32) :
    (addr + BitVec.ofNat 32 n).toNat = addr.toNat + n := by
  rw [toNat_add, toNat_ofNat]
  omega

theorem scan_ihexLines (addr last : RivU32) (data : List RivU8) (st : IhexScan)
    (hst : Follows st.upper last) (hfit : addr.toNat + data.length < 2 ^ 32) :
    let st' := (ihexLines addr last data).foldl scanLine st
    st'.minaddr.toNat = (if data = [] then st.minaddr.toNat else min st.minaddr.toNat addr.toNat) ∧
    st'.maxaddr.toNat = (if data = [] then st.maxaddr.toNat
      else max st.maxaddr.toNat (addr.toNat + data.length)) := by
  induction hn : data.length using Nat.strong_induction_on generalizing addr last data st with
  | h n ih =>
    by_cases hne : data = []
    · simp [ihexLines, hne]
    have hpos := length_pos_iff.mpr hne
    have hlen : (data.take 16).length = min 16 data.length := length_take
    obtain ⟨st1, hup, hmin, hmax, hfold⟩ :=
      scan_chunk addr (length_take_le 16 data) st hst
    have hnext : (addr + BitVec.ofNat 32 (data.take 16).length).toNat =
        addr.toNat + (data.take 16).length := toNat_add_length (by omega)
    obtain ⟨hmin', hmax'⟩ := ih (data.drop 16).length (by rw [length_drop]; omega)
      (addr + BitVec.ofNat 32 (data.take 16).length) (addr >>> 16) (data.drop 16) st1
      (by rw [hup]; exact follows_upper addr) (by rw [hnext, length_drop]; omega) rfl
    have hmin1 : st1.minaddr.toNat = min st.minaddr.toNat addr.toNat := by
      rw [hmin, toNat_ite_min]
    have hmax1 : st1.maxaddr.toNat =
        max st.maxaddr.toNat (addr.toNat + (data.take 16).length) := by
      rw [hmax, toNat_ite_max, hnext]
    rw [ihexLines, if_neg hne]
    dsimp only
    rw [hfold, if_neg hne, if_neg hne, hmin', hmax', hnext, hmin1, hmax1]
    by_cases hrest : data.drop 16 = []
    · rw [if_pos hrest, if_pos hrest]
      have : data.length ≤ 16 := drop_eq_nil_iff.mp hrest
      exact ⟨rfl, by omega⟩
    · rw [if_neg hrest, if_neg hrest, length_drop]
      omega

end Scan

section Store

theorem storeLine_upper (minaddr : RivU32) (st : IhexImage) (hupper : upper.toNat < 65536) :
    storeLine minaddr st (upperText upper) =
      .ok { st with line := st.line.fill (upperText upper), upper := upper <<< 16 } := by
  simp_all [upperText_eq, storeLine, fill_record_zero, fill_upper]

theorem storeLine_end (minaddr : RivU32) (st : IhexImage) :
    storeLine minaddr st endText = .ok { st with line := st.line.fill endText } := by
  have htype := fill_end st.line
  rw [endText_eq, storeLine, if_neg (fill_record_zero _ _), if_neg (by rw [htype]; decide),
    if_neg (by rw [htype]; decide)]

variable {minaddr : RivU32}

theorem storeBytes_eq {line : LineBuf} {start : RivU32} {image : List RivU8}
    (hlen : recLen line = buf.length) (hbytes : ∀ i (h : i < buf.length), recByte line i = buf[i])
    (hroom : start.toNat + buf.length ≤ image.length) (hfit : start.toNat + buf.length < 2 ^ 32) :
    storeBytes line start image = .ok (splice image start.toNat buf) := by
  have hloop (k : ℕ) (hk : k ≤ buf.length) : (List.range k).foldlM (storeByte line start) image =
      .ok (splice image start.toNat (buf.take k)) := by
    induction k with
    | zero =>
      rw [take_zero, splice_nil]
      rfl
    | succ k ih =>
      have hk' : (buf.take k).length = k := length_take_of_le (by omega)
      have hidx : (start + BitVec.ofNat 32 k).toNat = start.toNat + k :=
        toNat_add_length (by omega)
      have himage : (splice image start.toNat (buf.take k)).length = image.length :=
        length_splice (by omega)
      have hstep : storeByte line start (splice image start.toNat (buf.take k)) k =
          .ok (splice image start.toNat (buf.take (k + 1))) := by
        have happend := splice_splice image start.toNat (buf.take k) [buf[k]] (by omega)
        rw [hk', take_append_getElem (by omega)] at happend
        rw [← happend, ← set_eq_splice _ (by omega), ← hbytes k (by omega), storeByte, hidx]
        exact if_pos (by omega)
      rw [range_succ, foldlM_append, ih (by omega), Exec.ok_bind, foldlM_cons, hstep]
      rfl
  simp_all [storeBytes, Int.toNat_natCast]

theorem toNat_sub_min (h : minaddr.toNat ≤ addr.toNat) :
    (addr - minaddr).toNat = addr.toNat - minaddr.toNat :=
  toNat_sub_of_le (le_def.mpr h)

theorem storeLine_data (st : IhexImage) (hbuf : buf.length ≤ 16)
    (hupper : st.upper = (addr >>> 16) <<< 16) (hmin : minaddr.toNat ≤ addr.toNat)
    (hfit : addr.toNat + buf.length < 2 ^ 32)
    (hroom : addr.toNat - minaddr.toNat + buf.length ≤ st.image.length) :
    storeLine minaddr st (dataText addr buf) =
      .ok { st with
        line := st.line.fill (dataText addr buf)
        image := splice st.image (addr.toNat - minaddr.toNat) buf } := by
  obtain ⟨htype, hlen, haddr, hbytes⟩ := fill_data st.line addr hbuf
  have hsub := toNat_sub_min hmin
  have hstore : storeBytes _ (addr - minaddr) st.image = _ :=
    storeBytes_eq hlen hbytes (by omega) (by omega)
  rw [dataText_eq addr hbuf, storeLine, if_neg (fill_record_zero _ _),
    if_neg (by rw [htype]; decide), if_pos htype, haddr, hupper, upper_or_lower, hstore, hsub,
    Exec.ok_bind]

theorem store_chunk {last : RivU32} (hbuf : buf.length ≤ 16) (st : IhexImage)
    (hst : Follows st.upper last) (hmin : minaddr.toNat ≤ addr.toNat)
    (hfit : addr.toNat + buf.length < 2 ^ 32)
    (hroom : addr.toNat - minaddr.toNat + buf.length ≤ st.image.length) :
    ∃ st' : IhexImage, st'.upper = (addr >>> 16) <<< 16 ∧
      st'.image = splice st.image (addr.toNat - minaddr.toNat) buf ∧
      ∀ lines, (if addr >>> 16 ≠ last
          then upperText (addr >>> 16) :: dataText addr buf :: lines
          else dataText addr buf :: lines).foldlM (storeLine minaddr) st =
        lines.foldlM (storeLine minaddr) st' := by
  by_cases hlast : addr >>> 16 = last
  · subst hlast
    have hdata := storeLine_data st hbuf hst.eq hmin hfit hroom
    refine ⟨_, ?_, ?_, fun lines => by rw [if_neg (by simp), foldlM_cons, hdata, Exec.ok_bind]⟩
    · exact hst.eq
    · rfl
  · have hup := storeLine_upper minaddr st (toNat_ushiftRight_lt addr)
    have hdata := storeLine_data { st with
      line := st.line.fill (upperText (addr >>> 16)), upper := (addr >>> 16) <<< 16 }
      hbuf rfl hmin hfit hroom
    refine ⟨_, ?_, ?_, fun lines => by
      rw [if_pos hlast, foldlM_cons, hup, Exec.ok_bind, foldlM_cons, hdata,
        Exec.ok_bind]⟩
    · rfl
    · rfl

theorem store_ihexLines (addr last : RivU32) (data : List RivU8) (st : IhexImage)
    (hst : Follows st.upper last) (hmin : minaddr.toNat ≤ addr.toNat)
    (hfit : addr.toNat + data.length < 2 ^ 32)
    (hroom : addr.toNat - minaddr.toNat + data.length ≤ st.image.length) :
    ∃ st', (ihexLines addr last data).foldlM (storeLine minaddr) st = .ok st' ∧
      st'.image = splice st.image (addr.toNat - minaddr.toNat) data := by
  induction hn : data.length using Nat.strong_induction_on generalizing addr last data st with
  | h n ih =>
    by_cases hne : data = []
    · subst hne
      exact ⟨st, by rw [ihexLines, if_pos rfl]; rfl, (splice_nil _ _).symm⟩
    have hpos := length_pos_iff.mpr hne
    have hlen : (data.take 16).length = min 16 data.length := length_take
    have hdrop : (data.drop 16).length = data.length - 16 := length_drop
    obtain ⟨st1, hup, himage, hfold⟩ :=
      store_chunk (length_take_le 16 data) st hst hmin (by omega) (by omega)
    have hnext : (addr + BitVec.ofNat 32 (data.take 16).length).toNat =
        addr.toNat + (data.take 16).length := toNat_add_length (by omega)
    have hsize : st1.image.length = st.image.length := by
      rw [himage, length_splice (by omega)]
    obtain ⟨st2, hst2, himage2⟩ := ih (data.drop 16).length (by omega)
      (addr + BitVec.ofNat 32 (data.take 16).length) (addr >>> 16) (data.drop 16) st1
      (by rw [hup]; exact follows_upper addr) (by omega) (by omega) (by omega) rfl
    refine ⟨st2, ?_, ?_⟩
    · rw [ihexLines, if_neg hne]
      rw [hfold, hst2]
    · have hoff : addr.toNat + (data.take 16).length - minaddr.toNat =
          addr.toNat - minaddr.toNat + (data.take 16).length := by omega
      rw [himage2, himage, hnext, hoff, splice_splice _ _ _ _ (by omega), take_append_drop]

end Store

/-- Decoding what `bin_to_ihex` prints succeeds with the bytes and the base
address it was given, whatever the line buffer holds before. -/
theorem ihex_roundTrip (line : LineBuf) {data : List RivU8} {base : RivU32}
    (hne : data ≠ []) (hfit : base.toNat + data.length < 2 ^ 32) :
    ihexToBin line (binToIhex data base) = .ok (data, base) := by
  have hpos := List.length_pos_iff.mpr hne
  have hrecords : ∀ l ∈ ihexLines base (-1) data ++ [endText], IsRecord l := by
    rw [List.forall_mem_append]
    refine ⟨isRecord_ihexLines base (-1) data, ?_⟩
    rw [List.forall_mem_singleton]
    exact ⟨endDigits, recordDigits_end, endText_eq⟩
  have hlargest : (0xFFFFFFFF : RivU32).toNat = 2 ^ 32 - 1 := by decide
  have hstart : Follows 0 (-1) := fun h => absurd rfl h
  obtain ⟨scan, hscan⟩ : ∃ scan, scan = (ihexLines base (-1) data ++ [endText]).foldl scanLine
      ⟨line, 0xFFFFFFFF, 0, 0⟩ := ⟨_, rfl⟩
  obtain ⟨hmin, hmax⟩ :=
    scan_ihexLines base (-1) data ⟨line, 0xFFFFFFFF, 0, 0⟩ hstart hfit
  rw [if_neg hne] at hmin hmax
  rw [List.foldl_append, List.foldl_cons, List.foldl_nil, scanLine_end] at hscan
  have hminaddr : scan.minaddr = base := by
    apply BitVec.eq_of_toNat_eq
    have hlt := base.isLt
    rw [hscan, hmin, hlargest]
    omega
  have hsz : (scan.maxaddr - scan.minaddr).toNat = data.length := by
    have hmaxaddr : scan.maxaddr.toNat = base.toNat + data.length := by
      rw [hscan, hmax]
      exact Nat.max_eq_right (Nat.zero_le _)
    rw [hminaddr, toNat_sub_min (by omega), hmaxaddr, Nat.add_sub_cancel_left]
  obtain ⟨st, hst, himage⟩ := store_ihexLines base (-1) data
    ⟨scan.line, 0, List.replicate data.length 0⟩ hstart le_rfl hfit
    (by rw [List.length_replicate, Nat.sub_self, Nat.zero_add])
  rw [Nat.sub_self, splice_all (by rw [List.length_replicate])] at himage
  have hlines : readLines (binToIhex data base) = ihexLines base (-1) data ++ [endText] :=
    readLines_flatten hrecords
  have hscan' : (ihexLines base (-1) data ++ [endText]).foldl scanLine
      ⟨line, 0xFFFFFFFF, 0, 0⟩ = scan := by
    rw [List.foldl_append, List.foldl_cons, List.foldl_nil, scanLine_end, hscan]
  have hdata : base ≠ 0xFFFFFFFF := by
    intro heq
    rw [heq, hlargest] at hfit
    omega
  have hnonzero : scan.maxaddr - scan.minaddr ≠ 0 := by
    intro heq
    rw [heq] at hsz
    exact hpos.ne hsz
  simp only [ihexToBin, hlines, hscan', hminaddr] at hsz hnonzero ⊢
  rw [if_neg hdata, if_neg hnonzero, hsz, List.foldlM_append, hst, Exec.ok_bind,
    List.foldlM_cons, storeLine_end, Exec.ok_bind, List.foldlM_nil]
  show Except.ok (st.image.take data.length, base) = _
  rw [himage, List.take_length]

theorem ihex_roundTrip_crossing : ihexToBin (fun _ => 'x') (binToIhex [0x12, 0xAB, 0xFF] 0x2FFFE) =
      .ok ([0x12, 0xAB, 0xFF], 0x2FFFE) :=
  ihex_roundTrip (fun _ => 'x') (by decide) (by decide)

end Rivet.Image
