import Mathlib
import Rivet.Assembler.Reading
import Rivet.Disassembler.Basic

/-!
# Intel HEX

`bin_to_ihex` and `ihex_to_bin` of `rivet-objcopy.c`.  The decoder reads its
input twice, through one line buffer that keeps what earlier lines left behind
the end of a shorter one; the second reading stores into an image whose size the
first has found.  A store outside the image is kept apart from the error the
program reports.
-/

namespace Rivet.Image

open CLib Disassembler

variable {n : ℕ} {buf : List RivU8}

/-- `hex_val`. -/
def hexVal (c : Char) : ℤ :=
  if '0' ≤ c ∧ c ≤ '9' then (c.toNat : ℤ) - '0'.toNat
  else if 'a' ≤ c ∧ c ≤ 'f' then (c.toNat : ℤ) - 'a'.toNat + 10
  else if 'A' ≤ c ∧ c ≤ 'F' then (c.toNat : ℤ) - 'A'.toNat + 10
  else -1

/-- `%0<w>X`. -/
def showUpperHexPad (w n : ℕ) : CStr := (showHexPad w n).map Char.toUpper

/-! ## `bin_to_ihex` -/

def upperSum (b1 b2 : RivU8) : RivU8 := 0 - (2 + 0 + 0 + 4 + b1 + b2)

/-- The record that announces the upper half of the addresses that follow. -/
def upperText (upper : RivU32) : CStr :=
  let b1 : RivU8 := (upper >>> 8).setWidth 8
  let b2 : RivU8 := upper.setWidth 8
  ":02000004".toList ++ showUpperHexPad 2 b1.toNat ++ showUpperHexPad 2 b2.toNat ++
    showUpperHexPad 2 (upperSum b1 b2).toNat ++ ['\n']

def dataSum (addr : RivU32) (buf : List RivU8) : RivU8 :=
  let sum := BitVec.ofNat 8 buf.length + (addr >>> 8).setWidth 8 + addr.setWidth 8 + 0
  0 - buf.foldl (· + ·) sum

/-- The record of the bytes `buf` at `addr`. -/
def dataText (addr : RivU32) (buf : List RivU8) : CStr :=
  ':' :: showUpperHexPad 2 buf.length ++ showUpperHexPad 4 (addr &&& 0xFFFF).toNat ++
    "00".toList ++ buf.flatMap (fun b => showUpperHexPad 2 b.toNat) ++
    showUpperHexPad 2 (dataSum addr buf).toNat ++ ['\n']

def endText : CStr := ":00000001FF\n".toList

/-- The loop over the input: the lines printed for `data` from `addr` on. -/
def ihexLines (addr lastUpper : RivU32) (data : List RivU8) : List CStr :=
  if data = [] then []
  else
    let buf := data.take 16
    let upper := addr >>> 16
    let lines := ihexLines (addr + BitVec.ofNat 32 buf.length) upper (data.drop 16)
    if upper ≠ lastUpper then upperText upper :: dataText addr buf :: lines
    else dataText addr buf :: lines
termination_by data.length
decreasing_by
  have := List.length_pos_iff.mpr ‹data ≠ []›
  rw [List.length_drop]
  omega

/-- `bin_to_ihex`: the text of the output file. -/
def binToIhex (data : List RivU8) (base : RivU32) : List Char :=
  (ihexLines base (-1) data ++ [endText]).flatten

/-! ## `ihex_to_bin` -/

/-- The characters of the array `line`. -/
abbrev LineBuf := ℕ → Char

/-- The array after `fgets` has stored characters and their terminator. -/
def LineBuf.fill (line : LineBuf) (chars : List Char) : LineBuf := fun i =>
  if i < chars.length then chars.getD i '\x00' else if i = chars.length then '\x00' else line i

/-- The size of the array `line`. -/
def lineSize : ℕ := 1024

/-- What the calls of `fgets` read from a text. -/
def readLines (text : List Char) : List (List Char) :=
  match text with
  | [] => []
  | c :: cs =>
    (Assembler.fgets (lineSize - 1) (c :: cs)).1 ::
      readLines (Assembler.fgets (lineSize - 1) (c :: cs)).2
termination_by text.length
decreasing_by
  have h := Assembler.length_fgets_snd (lineSize - 2) cs
  rw [show lineSize - 1 = lineSize - 2 + 1 from rfl, Assembler.fgets, List.length_cons]
  split
  · exact Nat.lt_succ_self _
  · exact Nat.lt_succ_of_le h

def recLen (line : LineBuf) : ℤ := hexVal (line 1) * 16 + hexVal (line 2)

def recAddr (line : LineBuf) : RivU32 :=
  BitVec.ofInt 32 (hexVal (line 3) * 4096 + hexVal (line 4) * 256
    + hexVal (line 5) * 16 + hexVal (line 6))

def recType (line : LineBuf) : ℤ := hexVal (line 7) * 16 + hexVal (line 8)

def recUpper (line : LineBuf) : RivU32 :=
  BitVec.ofInt 32 (hexVal (line 9) * 4096 + hexVal (line 10) * 256
    + hexVal (line 11) * 16 + hexVal (line 12)) <<< 16

def recByte (line : LineBuf) (i : ℕ) : RivU8 :=
  ((BitVec.ofInt 32 (hexVal (line (9 + i * 2))) <<< 4) |||
    BitVec.ofInt 32 (hexVal (line (10 + i * 2)))).setWidth 8

/-- The variables of the first loop. -/
structure IhexScan where
  line : LineBuf
  minaddr : RivU32
  maxaddr : RivU32
  upper : RivU32

def scanLine (st : IhexScan) (chars : List Char) : IhexScan :=
  let line := st.line.fill chars
  if line 0 ≠ ':' then { st with line := line }
  else if recType line = 4 then { st with line := line, upper := recUpper line }
  else if recType line = 0 then
    let a := st.upper ||| recAddr line
    let e := a + BitVec.ofInt 32 (recLen line)
    { st with
      line := line
      minaddr := if a < st.minaddr then a else st.minaddr
      maxaddr := if st.maxaddr < e then e else st.maxaddr }
  else { st with line := line }

/-- Why `ihex_to_bin` writes no file: its error, or a store outside the image. -/
inductive IhexStop where
  | noData
  | fault
  deriving DecidableEq, Repr

/-- The variables of the second loop. -/
structure IhexImage where
  line : LineBuf
  upper : RivU32
  image : List RivU8

/-- The store of byte `i` of a record whose first byte goes to `start`. -/
def storeByte (line : LineBuf) (start : RivU32) (image : List RivU8) (i : ℕ) :
    Except IhexStop (List RivU8) :=
  let idx := (start + BitVec.ofNat 32 i).toNat
  if idx < image.length then .ok (image.set idx (recByte line i)) else .error .fault

def storeBytes (line : LineBuf) (start : RivU32) (image : List RivU8) :
    Except IhexStop (List RivU8) :=
  (List.range (recLen line).toNat).foldlM (storeByte line start) image

def storeLine (minaddr : RivU32) (st : IhexImage) (chars : List Char) :
    Except IhexStop IhexImage :=
  let line := st.line.fill chars
  if line 0 ≠ ':' then .ok { st with line := line }
  else if recType line = 4 then .ok { st with line := line, upper := recUpper line }
  else if recType line = 0 then do
    let image ← storeBytes line ((st.upper ||| recAddr line) - minaddr) st.image
    .ok { st with line := line, image := image }
  else .ok { st with line := line }

/-- `ihex_to_bin` on the text of its input: the bytes written and the base
address reported.  The array `line` starts with arbitrary contents. -/
def ihexToBin (line : LineBuf) (text : List Char) :
    Except IhexStop (List RivU8 × RivU32) :=
  let lines := readLines text
  let scan := lines.foldl scanLine ⟨line, 0xFFFFFFFF, 0, 0⟩
  if scan.minaddr = 0xFFFFFFFF then .error .noData
  else do
    let sz := scan.maxaddr - scan.minaddr
    let st ← lines.foldlM (storeLine scan.minaddr)
      ⟨scan.line, 0, List.replicate (if sz = 0 then 1 else sz.toNat) 0⟩
    .ok (st.image.take sz.toNat, scan.minaddr)

/-! ## Printed digits -/

/-- A digit as `%X` prints it. -/
def upperDigit (d : ℕ) : Char := d.digitChar.toUpper

theorem hexVal_upperDigit {d : ℕ} (h : d < 16) : hexVal (upperDigit d) = d := by
  have htable : (List.range 16).all (fun d => hexVal (upperDigit d) = d) = true := by decide
  exact of_decide_eq_true (List.all_eq_true.mp htable d (List.mem_range.mpr h))

theorem upperDigit_ne_newline {d : ℕ} (h : d < 16) : upperDigit d ≠ '\n' := by
  have htable : (List.range 16).all (fun d => upperDigit d ≠ '\n') = true := by decide
  exact of_decide_eq_true (List.all_eq_true.mp htable d (List.mem_range.mpr h))

theorem showHexPad_succ {w : ℕ} (hw : 0 < w) (hn : n < 16 ^ (w + 1)) :
    showHexPad (w + 1) n = showHexPad w (n / 16) ++ [(n % 16).digitChar] := by
  unfold showHexPad showHex
  by_cases hsmall : n < 16
  · rw [Nat.div_eq_of_lt hsmall, Nat.mod_eq_of_lt hsmall, Nat.toDigits_of_lt_base hsmall,
      Nat.toDigits_of_lt_base (by decide : 0 < 16), List.length_singleton, List.length_singleton]
    obtain ⟨w, rfl⟩ := Nat.exists_eq_succ_of_ne_zero hw.ne'
    rw [Nat.succ_eq_add_one, Nat.add_sub_cancel, Nat.add_sub_cancel, List.replicate_succ']
    rfl
  · rw [Nat.toDigits_of_base_le (by decide) (Nat.le_of_not_lt hsmall), List.length_append,
      List.length_singleton, Nat.add_sub_add_right, List.append_assoc]

theorem showUpperHexPad_succ {w : ℕ} (hw : 0 < w) (hn : n < 16 ^ (w + 1)) :
    showUpperHexPad (w + 1) n = showUpperHexPad w (n / 16) ++ [upperDigit (n % 16)] := by
  rw [showUpperHexPad, showHexPad_succ hw hn, List.map_append, List.map_singleton]
  rfl

theorem showUpperHexPad_one (hn : n < 16) : showUpperHexPad 1 n = [upperDigit n] := by
  rw [showUpperHexPad, showHexPad, showHex, Nat.toDigits_of_lt_base hn]
  rfl

def digits2 (n : ℕ) : List ℕ := [n / 16, n % 16]

def digits4 (n : ℕ) : List ℕ := [n / 16 / 16 / 16, n / 16 / 16 % 16, n / 16 % 16, n % 16]

@[simp] theorem length_digits2 (n : ℕ) : (digits2 n).length = 2 := rfl
@[simp] theorem length_digits4 (n : ℕ) : (digits4 n).length = 4 := rfl

theorem showUpperHexPad_two (hn : n < 256) : showUpperHexPad 2 n = (digits2 n).map upperDigit := by
  rw [showUpperHexPad_succ (by decide) (by simpa using hn), showUpperHexPad_one (by omega)]
  rfl

theorem showUpperHexPad_byte (b : RivU8) :
    showUpperHexPad 2 b.toNat = (digits2 b.toNat).map upperDigit := showUpperHexPad_two b.isLt

theorem showUpperHexPad_four (hn : n < 65536) :
    showUpperHexPad 4 n = (digits4 n).map upperDigit := by
  rw [showUpperHexPad_succ (by decide) (by simpa using hn),
    showUpperHexPad_succ (by decide) (by norm_num; omega), showUpperHexPad_two (by omega)]
  rfl

/-! ## Records as digits -/

def recordText (ds : List ℕ) : CStr := ':' :: ds.map upperDigit ++ ['\n']

/-- Digits that fit on a line. -/
structure RecordDigits (ds : List ℕ) : Prop where
  small : ∀ d ∈ ds, d < 16
  short : ds.length ≤ 1000

def upperDigits (upper : RivU32) : List ℕ :=
  let b1 : RivU8 := (upper >>> 8).setWidth 8
  let b2 : RivU8 := upper.setWidth 8
  [0, 2, 0, 0, 0, 0, 0, 4] ++ digits2 b1.toNat ++ digits2 b2.toNat ++
    digits2 (upperSum b1 b2).toNat

def dataDigits (addr : RivU32) (buf : List RivU8) : List ℕ :=
  digits2 buf.length ++ digits4 (addr &&& 0xFFFF).toNat ++ [0, 0] ++
    buf.flatMap (fun b => digits2 b.toNat) ++ digits2 (dataSum addr buf).toNat

def endDigits : List ℕ := [0, 0, 0, 0, 0, 0, 0, 1, 15, 15]

theorem upperText_eq (upper : RivU32) : upperText upper = recordText (upperDigits upper) := by
  have hhead : ":02000004".toList = ':' :: [0, 2, 0, 0, 0, 0, 0, 4].map upperDigit := by decide
  unfold upperText upperDigits recordText
  rw [hhead]
  simp only [showUpperHexPad_byte, List.map_append]
  simp only [List.cons_append]

theorem toNat_and_low (addr : RivU32) : (addr &&& 0xFFFF).toNat < 65536 := by
  exact Nat.and_lt_two_pow _ (by decide : (0xFFFF : RivU32).toNat < 2 ^ 16)

theorem dataText_eq (addr : RivU32) (hbuf : buf.length ≤ 16) :
    dataText addr buf = recordText (dataDigits addr buf) := by
  have htype : "00".toList = [0, 0].map upperDigit := by decide
  simp only [dataText, dataDigits, recordText, showUpperHexPad_byte, htype, List.map_flatMap,
    showUpperHexPad_two (show buf.length < 256 by omega), showUpperHexPad_four (toNat_and_low _),
    List.map_append, List.cons_append]

theorem endText_eq : endText = recordText endDigits := by decide

theorem digits2_lt (hn : n < 256) : ∀ d ∈ digits2 n, d < 16 := by
  simp only [digits2, List.forall_mem_cons]
  refine ⟨by omega, by omega, by simp⟩

theorem digits4_lt (hn : n < 65536) : ∀ d ∈ digits4 n, d < 16 := by
  simp only [digits4, List.forall_mem_cons]
  refine ⟨by omega, by omega, by omega, by omega, by simp⟩

theorem recordDigits_upper (upper : RivU32) : RecordDigits (upperDigits upper) where
  small := by
    simp only [upperDigits, List.forall_mem_append]
    exact ⟨⟨⟨by decide, digits2_lt (BitVec.isLt _)⟩, digits2_lt (BitVec.isLt _)⟩,
      digits2_lt (BitVec.isLt _)⟩
  short := by simp [upperDigits]

theorem length_flatMap_digits2 (buf : List RivU8) :
    (buf.flatMap (fun b => digits2 b.toNat)).length = 2 * buf.length := by
  induction buf with
  | nil => rfl
  | cons b buf ih =>
    rw [List.flatMap_cons, List.length_append, ih, List.length_cons, length_digits2]
    omega

theorem recordDigits_data (addr : RivU32) (hbuf : buf.length ≤ 16) :
    RecordDigits (dataDigits addr buf) where
  small := by
    have hbytes : ∀ d ∈ buf.flatMap (fun b => digits2 b.toNat), d < 16 := by
      intro d hd
      obtain ⟨b, -, hd⟩ := List.mem_flatMap.mp hd
      exact digits2_lt b.isLt d hd
    simp only [dataDigits, List.forall_mem_append]
    exact ⟨⟨⟨⟨digits2_lt (by omega), digits4_lt (toNat_and_low _)⟩, by decide⟩, hbytes⟩,
      digits2_lt (BitVec.isLt _)⟩
  short := by
    simp only [dataDigits, List.length_append, length_flatMap_digits2, length_digits2,
      length_digits4, List.length_cons, List.length_nil]
    omega

theorem recordDigits_end : RecordDigits endDigits where
  small := by decide
  short := by decide

/-! ## Reading lines -/

def IsRecord (l : CStr) : Prop := ∃ ds, RecordDigits ds ∧ l = recordText ds

theorem fgets_record {l : CStr} (h : IsRecord l) (rest : List Char) :
    Assembler.fgets (lineSize - 1) (l ++ rest) = (l, rest) := by
  obtain ⟨ds, hds, rfl⟩ := h
  have hbody : '\n' ∉ ':' :: ds.map upperDigit := by
    rw [List.mem_cons, not_or, List.mem_map]
    refine ⟨by decide, ?_⟩
    rintro ⟨d, hd, heq⟩
    exact upperDigit_ne_newline (hds.small d hd) heq
  have hlen : (':' :: ds.map upperDigit).length < lineSize - 1 := by
    have hshort := hds.short
    rw [List.length_cons, List.length_map, lineSize]
    omega
  have h := Assembler.fgets_line hbody hlen rest
  rwa [recordText, List.append_assoc]

theorem readLines_flatten {lines : List CStr} (h : ∀ l ∈ lines, IsRecord l) :
    readLines lines.flatten = lines := by
  induction lines with
  | nil => rw [List.flatten_nil, readLines]
  | cons l lines ih =>
    obtain ⟨hl, hrest⟩ := List.forall_mem_cons.mp h
    have hread : readLines (l ++ lines.flatten) = l :: readLines lines.flatten := by
      have hfgets := fgets_record hl lines.flatten
      obtain ⟨ds, -, rfl⟩ := hl
      rw [recordText, List.cons_append, List.cons_append] at hfgets ⊢
      rw [readLines, hfgets]
    rw [List.flatten_cons, hread, ih hrest]

/-! ## Reading records back -/

theorem hexVal_fill_record (line : LineBuf) {ds : List ℕ} (h : RecordDigits ds) {i : ℕ}
    (hi : i < ds.length) : hexVal (line.fill (recordText ds) (i + 1)) = (ds.getD i 0 : ℕ) := by
  have hlt : i + 1 < (recordText ds).length := by
    simp only [recordText, List.cons_append, List.length_cons, List.length_append, List.length_map]
    omega
  have hget : (recordText ds).getD (i + 1) '\x00' = upperDigit ds[i] := by
    simp only [recordText, List.cons_append, List.getD_cons_succ]
    rw [List.getD_append _ _ _ _ (by rwa [List.length_map]),
      List.getD_eq_getElem _ _ (by rwa [List.length_map]), List.getElem_map]
  rw [LineBuf.fill, if_pos hlt, hget, hexVal_upperDigit (h.small _ (List.getElem_mem hi)),
    List.getD_eq_getElem _ _ hi]

theorem fill_record_zero (line : LineBuf) (ds : List ℕ) :
    ¬line.fill (recordText ds) 0 ≠ ':' := fun h => h rfl

theorem ofInt_digits4 (n : ℕ) :
    BitVec.ofInt 32 ((n / 16 / 16 / 16 : ℕ) * 4096 + (n / 16 / 16 % 16 : ℕ) * 256
      + (n / 16 % 16 : ℕ) * 16 + (n % 16 : ℕ)) = BitVec.ofNat 32 n := by
  rw [← BitVec.ofInt_natCast]
  congr 1
  omega

theorem byte_digits2 (b : RivU8) :
    ((BitVec.ofInt 32 (b.toNat / 16 : ℕ) <<< 4) ||| BitVec.ofInt 32 (b.toNat % 16 : ℕ)).setWidth 8
      = b := by
  have htable : (List.range 256).all (fun n =>
      ((BitVec.ofNat 32 (n / 16) <<< 4) ||| BitVec.ofNat 32 (n % 16)).setWidth 8 =
        BitVec.ofNat 8 n) = true := by
    decide +kernel
  rw [BitVec.ofInt_natCast, BitVec.ofInt_natCast,
    of_decide_eq_true (List.all_eq_true.mp htable b.toNat (List.mem_range.mpr b.isLt)),
    BitVec.ofNat_toNat, BitVec.setWidth_eq]

theorem getD_flatMap_digits2 (buf : List RivU8) (tail : List ℕ) {i : ℕ} (h : i < buf.length) :
    (buf.flatMap (fun b => digits2 b.toNat) ++ tail).getD (2 * i) 0 = buf[i].toNat / 16 ∧
    (buf.flatMap (fun b => digits2 b.toNat) ++ tail).getD (2 * i + 1) 0 = buf[i].toNat % 16 := by
  induction buf generalizing i with
  | nil => exact absurd h (Nat.not_lt_zero i)
  | cons b buf ih =>
    cases i with
    | zero => exact ⟨rfl, rfl⟩
    | succ i =>
      rw [List.flatMap_cons, digits2, show 2 * (i + 1) = 2 * i + 1 + 1 by omega]
      simpa using ih (Nat.lt_of_succ_lt_succ h)

theorem fill_data (line : LineBuf) (addr : RivU32) (hbuf : buf.length ≤ 16) :
    recType (line.fill (recordText (dataDigits addr buf))) = 0 ∧
    recLen (line.fill (recordText (dataDigits addr buf))) = buf.length ∧
    recAddr (line.fill (recordText (dataDigits addr buf))) = addr &&& 0xFFFF ∧
    ∀ i (h : i < buf.length),
      recByte (line.fill (recordText (dataDigits addr buf))) i = buf[i] := by
  have hds := recordDigits_data addr hbuf
  have hlen : (dataDigits addr buf).length = 10 + 2 * buf.length := by
    simp only [dataDigits, List.length_append, length_flatMap_digits2, length_digits2,
      length_digits4, List.length_cons, List.length_nil]
    omega
  refine ⟨?_, ?_, ?_, ?_⟩
  · rfl
  · rw [recLen, hexVal_fill_record line hds (i := 0) (by omega),
      hexVal_fill_record line hds (i := 1) (by omega)]
    show ((buf.length / 16 : ℕ) : ℤ) * 16 + (buf.length % 16 : ℕ) = buf.length
    omega
  · rw [recAddr, hexVal_fill_record line hds (i := 2) (by omega),
      hexVal_fill_record line hds (i := 3) (by omega),
      hexVal_fill_record line hds (i := 4) (by omega),
      hexVal_fill_record line hds (i := 5) (by omega)]
    refine (ofInt_digits4 _).trans ?_
    rw [BitVec.ofNat_toNat, BitVec.setWidth_eq]
  · intro i hi
    obtain ⟨hhi, hlo⟩ := getD_flatMap_digits2 buf (digits2 (dataSum addr buf).toNat) hi
    rw [recByte, show 9 + i * 2 = 8 + 2 * i + 1 by omega,
      show 10 + i * 2 = 9 + 2 * i + 1 by omega,
      hexVal_fill_record line hds (by omega), hexVal_fill_record line hds (by omega)]
    have hskip (j : ℕ) : (dataDigits addr buf).getD (8 + j) 0 =
        (buf.flatMap (fun b => digits2 b.toNat) ++ digits2 (dataSum addr buf).toNat).getD j 0 := by
      rw [dataDigits, List.append_assoc, List.getD_append_right _ _ _ _ (Nat.le_add_right 8 j)]
      congr 1
      exact Nat.add_sub_cancel_left 8 j
    rw [show 9 + 2 * i = 8 + (2 * i + 1) by omega, hskip, hskip, hhi, hlo, byte_digits2]

theorem fill_upper (line : LineBuf) {upper : RivU32} (hupper : upper.toNat < 65536) :
    recType (line.fill (recordText (upperDigits upper))) = 4 ∧
    recUpper (line.fill (recordText (upperDigits upper))) = upper <<< 16 := by
  have hds := recordDigits_upper upper
  have hlen : (upperDigits upper).length = 14 := by simp [upperDigits]
  constructor
  · rfl
  rw [recUpper, hexVal_fill_record line hds (i := 8) (by omega),
    hexVal_fill_record line hds (i := 9) (by omega),
    hexVal_fill_record line hds (i := 10) (by omega),
    hexVal_fill_record line hds (i := 11) (by omega)]
  have h1 : ((upper >>> 8).setWidth 8 : RivU8).toNat = upper.toNat / 256 := by
    rw [BitVec.toNat_setWidth, BitVec.toNat_ushiftRight, Nat.shiftRight_eq_div_pow]
    omega
  have h2 : (upper.setWidth 8 : RivU8).toNat = upper.toNat % 256 := by
    rw [BitVec.toNat_setWidth]
  have hval : ((((upper >>> 8).setWidth 8 : RivU8).toNat / 16 : ℕ) : ℤ) * 4096
      + (((upper >>> 8).setWidth 8 : RivU8).toNat % 16 : ℕ) * 256
      + ((upper.setWidth 8 : RivU8).toNat / 16 : ℕ) * 16
      + ((upper.setWidth 8 : RivU8).toNat % 16 : ℕ) = (upper.toNat : ℤ) := by
    omega
  have hbits := congrArg (BitVec.ofInt 32) hval
  rw [BitVec.ofInt_natCast, BitVec.ofNat_toNat, BitVec.setWidth_eq] at hbits
  exact congrArg (fun x : RivU32 => x <<< (16 : ℕ)) hbits

theorem fill_end (line : LineBuf) : recType (line.fill (recordText endDigits)) = 1 := by rfl

end Rivet.Image
