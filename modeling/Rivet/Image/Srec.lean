import Rivet.Image.IhexRoundTrip
import Rivet.Image.Records

/-!
# S-records

`bin_to_srec` of `rivet-objcopy.c`.  What it prints is a header, one data record
for every buffer of sixteen bytes and an end record.  Read back by the rules of
the format, the data records put every byte of the input at its address.
-/

namespace Rivet.Image

open CLib Disassembler WriteLog

/-! ## `bin_to_srec` -/

def s0Text : CStr :=
  let hdr : List RivU8 := "HDR".toList.map fun c => BitVec.ofNat 8 c.toNat
  let cnt : RivU8 := 3 + 2 + 1
  let sum := hdr.foldl (· + ·) (cnt + 0 + 0)
  "S0".toList ++ showUpperHexPad 2 cnt.toNat ++ "0000".toList ++
    hdr.flatMap (fun b => showUpperHexPad 2 b.toNat) ++ showUpperHexPad 2 (~~~sum).toNat ++ ['\n']

/-- The sum of a count and the pieces of an address, formed in 32 bits. -/
def addrSum (cnt : RivU8) (addr : RivU32) : RivU8 :=
  (cnt.setWidth 32 + (addr >>> 24) + (addr >>> 16) + (addr >>> 8) + addr).setWidth 8

/-- The record of the bytes `buf` at `addr`. -/
def s3Text (addr : RivU32) (buf : List RivU8) : CStr :=
  let cnt : RivU8 := BitVec.ofNat 8 (buf.length + 4 + 1)
  let sum := buf.foldl (· + ·) (addrSum cnt addr)
  "S3".toList ++ showUpperHexPad 2 cnt.toNat ++ showUpperHexPad 8 addr.toNat ++
    buf.flatMap (fun b => showUpperHexPad 2 b.toNat) ++ showUpperHexPad 2 (~~~sum).toNat ++ ['\n']

def s7Text (base : RivU32) : CStr :=
  let cnt : RivU8 := 5
  let sum := addrSum cnt base
  "S7".toList ++ showUpperHexPad 2 cnt.toNat ++ showUpperHexPad 8 base.toNat ++
    showUpperHexPad 2 (~~~sum).toNat ++ ['\n']

/-- The loop over the input: the lines printed for `data` from `addr` on. -/
def srecLines (addr : RivU32) (data : List RivU8) : List CStr :=
  if data = [] then []
  else
    let buf := data.take 16
    s3Text addr buf :: srecLines (addr + BitVec.ofNat 32 buf.length) (data.drop 16)
termination_by data.length
decreasing_by
  have := List.length_pos_iff.mpr ‹data ≠ []›
  rw [List.length_drop]
  omega

/-- `bin_to_srec`: the text of the output file. -/
def binToSrec (data : List RivU8) (base : RivU32) : List Char :=
  (s0Text :: srecLines base data ++ [s7Text base]).flatten

/-! ## Printed records -/

def addrBytes (addr : RivU32) : List RivU8 :=
  [(addr >>> 24).setWidth 8, (addr >>> 16).setWidth 8, (addr >>> 8).setWidth 8, addr.setWidth 8]

def srecText (r : SRecord) : CStr := 'S' :: r.kind :: hexPairs r.bytes ++ ['\n']

theorem readSRecord_srecText (r : SRecord) : readSRecord (srecText r) = some r := by
  rw [srecText, List.cons_append, List.cons_append, readSRecord, chomp_line, hexBytes_hexPairs]
  rfl

theorem showUpperHexPad_add_two {w n : ℕ} (hw : 0 < w) (hn : n < 16 ^ (w + 2)) :
    showUpperHexPad (w + 2) n = showUpperHexPad w (n / 256) ++ showUpperHexPad 2 (n % 256) := by
  have hdiv : n / 16 < 16 ^ (w + 1) := by
    rw [Nat.div_lt_iff_lt_mul (by decide), ← Nat.pow_succ]
    exact hn
  have hhi : n / 16 / 16 = n / 256 := by omega
  have hmid : n % 256 / 16 = n / 16 % 16 := by omega
  have hlo : n % 256 % 16 = n % 16 := by omega
  rw [showUpperHexPad_succ (by omega) hn, showUpperHexPad_succ hw hdiv,
    showUpperHexPad_two (Nat.mod_lt n (by decide)), digits2, hhi, hmid, hlo, List.append_assoc]
  rfl

theorem showUpperHexPad_eight (addr : RivU32) :
    showUpperHexPad 8 addr.toNat = hexPairs (addrBytes addr) := by
  have h3 : ((addr >>> 24).setWidth 8 : RivU8).toNat = addr.toNat / 256 / 256 / 256 := by
    rw [BitVec.toNat_setWidth, BitVec.toNat_ushiftRight, Nat.shiftRight_eq_div_pow]
    omega
  have h2 : ((addr >>> 16).setWidth 8 : RivU8).toNat = addr.toNat / 256 / 256 % 256 := by
    rw [BitVec.toNat_setWidth, BitVec.toNat_ushiftRight, Nat.shiftRight_eq_div_pow]
    omega
  have h1 : ((addr >>> 8).setWidth 8 : RivU8).toNat = addr.toNat / 256 % 256 := by
    rw [BitVec.toNat_setWidth, BitVec.toNat_ushiftRight, Nat.shiftRight_eq_div_pow]
  have h0 : (addr.setWidth 8 : RivU8).toNat = addr.toNat % 256 := by
    rw [BitVec.toNat_setWidth]
  have hpairs : hexPairs (addrBytes addr) = showUpperHexPad 2 (addr.toNat / 256 / 256 / 256) ++
      (showUpperHexPad 2 (addr.toNat / 256 / 256 % 256) ++
        (showUpperHexPad 2 (addr.toNat / 256 % 256) ++ showUpperHexPad 2 (addr.toNat % 256))) := by
    rw [addrBytes, hexPairs_cons, hexPairs_cons, hexPairs_cons, hexPairs_cons, h0, h1, h2, h3]
    simp [hexPairs]
  rw [hpairs, showUpperHexPad_add_two (by decide) (by norm_num; omega),
    showUpperHexPad_add_two (by decide) (by norm_num; omega),
    showUpperHexPad_add_two (by decide) (by norm_num; omega), List.append_assoc, List.append_assoc]

theorem addrSum_eq (cnt : RivU8) (addr : RivU32) :
    addrSum cnt addr = byteSum (cnt :: addrBytes addr) := by
  have h : byteSum (cnt :: addrBytes addr) = (0 : RivU8) + cnt + (addr >>> 24).setWidth 8 +
    (addr >>> 16).setWidth 8 + (addr >>> 8).setWidth 8 + addr.setWidth 8 := rfl
  have hcnt : (cnt.setWidth 32).setWidth 8 = cnt := by
    apply BitVec.eq_of_toNat_eq
    rw [BitVec.toNat_setWidth, BitVec.toNat_setWidth]
    omega
  rw [h, zero_add, addrSum, BitVec.setWidth_add _ _ (by decide), BitVec.setWidth_add _ _ (by decide),
    BitVec.setWidth_add _ _ (by decide), BitVec.setWidth_add _ _ (by decide), hcnt]

theorem foldl_addrBytes (addr : RivU32) :
    (addrBytes addr).foldl (fun a b => 256 * a + b.toNat) 0 = addr.toNat := by
  simp only [addrBytes, List.foldl_cons, List.foldl_nil, BitVec.toNat_setWidth,
    BitVec.toNat_ushiftRight, Nat.shiftRight_eq_div_pow]
  omega

def addrRecord (kind : Char) (cnt : RivU8) (addr : RivU32) (buf : List RivU8) : SRecord :=
  ⟨kind, cnt :: addrBytes addr ++ buf ++ [~~~byteSum (cnt :: addrBytes addr ++ buf)]⟩

theorem addrRecord_addr (kind : Char) (cnt : RivU8) (addr : RivU32) (buf : List RivU8) :
    (addrRecord kind cnt addr buf).addr = addr.toNat :=
  foldl_addrBytes addr

theorem addrRecord_data (kind : Char) (cnt : RivU8) (addr : RivU32) (buf : List RivU8) :
    (addrRecord kind cnt addr buf).data = buf := by
  have h : (addrRecord kind cnt addr buf).data =
      (buf ++ [~~~byteSum (cnt :: addrBytes addr ++ buf)]).dropLast := rfl
  rw [h, List.dropLast_concat]

theorem byteSum_concat_not (bs : List RivU8) : byteSum (bs ++ [~~~byteSum bs]) = 0xFF := by
  have h : byteSum [~~~byteSum bs] = ~~~byteSum bs := by rw [byteSum_cons]; simp [byteSum]
  rw [byteSum_append, h, BitVec.add_not_self]
  rfl

theorem addrRecord_checked {kind : Char} {cnt : RivU8} {addr : RivU32} {buf : List RivU8}
    (hcnt : cnt.toNat = buf.length + 5) : (addrRecord kind cnt addr buf).Checked where
  count := by
    refine ⟨cnt, rfl, ?_, fun _ => ?_⟩
    · rw [hcnt]
      simp [addrRecord, SRecord.body, addrBytes]
    · rw [addrRecord_data, hcnt]
  sum := byteSum_concat_not _

theorem s3Text_eq (addr : RivU32) (buf : List RivU8) : s3Text addr buf =
      srecText (addrRecord '3' (BitVec.ofNat 8 (buf.length + 4 + 1)) addr buf) := by
  have hsum : buf.foldl (· + ·) (addrSum (BitVec.ofNat 8 (buf.length + 4 + 1)) addr) =
      byteSum (BitVec.ofNat 8 (buf.length + 4 + 1) :: addrBytes addr ++ buf) := by
    rw [foldl_add_eq, addrSum_eq, ← byteSum_append]
  simp only [s3Text, hsum, showUpperHexPad_eight, srecText, addrRecord, hexPairs_append,
    hexPairs_cons, List.append_assoc, List.cons_append]
  rfl

theorem s7Text_eq (base : RivU32) : s7Text base = srecText (addrRecord '7' 5 base []) := by
  simp only [s7Text, addrSum_eq, showUpperHexPad_eight, srecText, addrRecord, hexPairs_append,
    hexPairs_cons, List.append_assoc, List.cons_append, List.append_nil]
  rfl

def headerRecord : SRecord := ⟨'0', [6, 0, 0, 0x48, 0x44, 0x52, 0x1B]⟩

theorem s0Text_eq : s0Text = srecText headerRecord := by decide

theorem headerRecord_checked : headerRecord.Checked where
  count := ⟨6, rfl, rfl, fun h => absurd h (by decide)⟩
  sum := by decide

/-! ## Lines of the output -/

/-- Every byte of `data` is where it belongs from `addr` on, and nothing else is
written. -/
def WritesData (log : List (Write RivU8)) (addr : ℕ) (data : List RivU8) : Prop :=
  ∀ pos, latest log pos = if addr ≤ pos then data[pos - addr]? else none

theorem latest_append (log log' : List (Write RivU8)) (pos : ℕ) :
    latest (log ++ log') pos = (latest log pos).or (latest log' pos) := by
  induction log with
  | nil => rfl
  | cons w log ih => rw [List.cons_append, latest, latest, ih, Option.or_assoc]

theorem WritesData.cons {log : List (Write RivU8)} {addr : ℕ} {data : List RivU8} {k : ℕ}
    (h : WritesData log (addr + k) (data.drop k)) (hk : k ≤ data.length) :
    WritesData (log ++ [⟨addr, data.take k⟩]) addr data := by
  intro pos
  have hat : latest [(⟨addr, data.take k⟩ : Write RivU8)] pos =
      if addr ≤ pos then (data.take k)[pos - addr]? else none := by
    rw [latest, latest, Option.or_none]
    rfl
  rw [latest_append, h, hat]
  by_cases hlow : addr ≤ pos
  · rw [if_pos hlow, if_pos hlow]
    by_cases hhigh : addr + k ≤ pos
    · have hidx : k + (pos - (addr + k)) = pos - addr := by omega
      have hpast : (data.take k)[pos - addr]? = none := by
        rw [List.getElem?_eq_none_iff, List.length_take]
        omega
      rw [if_pos hhigh, List.getElem?_drop, hidx, hpast, Option.or_none]
    · rw [if_neg hhigh, Option.none_or, List.getElem?_take_of_lt (by omega)]
  · rw [if_neg hlow, if_neg (by omega), if_neg hlow]
    rfl

theorem s3Writes_cons {r : SRecord} (hkind : r.kind = '3') (recs : List SRecord) :
    s3Writes (r :: recs) = s3Writes recs ++ [⟨r.addr, r.data⟩] := by
  rw [s3Writes, List.filter_cons, if_pos (by rw [hkind]; rfl), List.map_cons, List.reverse_cons]
  rfl

theorem srecLines_denote (addr : RivU32) (data : List RivU8)
    (hfit : addr.toNat + data.length ≤ 2 ^ 32) :
    ∃ recs : List SRecord, srecLines addr data = recs.map srecText ∧
      (∀ r ∈ recs, r.Checked ∧ r.kind = '3' ∧ r.bytes.length ≤ 22) ∧
      WritesData (s3Writes recs) addr.toNat data := by
  induction hn : data.length using Nat.strong_induction_on generalizing addr data with
  | h n ih =>
    rw [srecLines]
    by_cases hne : data = []
    · subst hne
      refine ⟨[], rfl, by simp, ?_⟩
      intro pos
      simp [s3Writes, latest]
    · have hlen : (data.take 16).length = min 16 data.length := List.length_take
      have hdrop : (data.drop 16).length = data.length - 16 := List.length_drop
      rw [if_neg hne]
      dsimp only
      by_cases hlast : data.length ≤ 16
      · -- the last buffer: the address behind it may be past the end
        have hnil : data.drop 16 = [] := List.drop_eq_nil_of_le hlast
        have hall : data.take 16 = data := List.take_of_length_le hlast
        refine ⟨[addrRecord '3' (BitVec.ofNat 8 (data.length + 4 + 1)) addr data], ?_, ?_, ?_⟩
        · have hend (addr : RivU32) : srecLines addr [] = [] := by rw [srecLines, if_pos rfl]
          rw [hnil, hall, hend, s3Text_eq]
          rfl
        · rw [List.forall_mem_singleton]
          refine ⟨addrRecord_checked ?_, rfl, ?_⟩
          · rw [BitVec.toNat_ofNat]
            omega
          · simp only [addrRecord, addrBytes, List.length_append, List.length_cons, List.length_nil]
            omega
        · rw [s3Writes_cons rfl, addrRecord_addr, addrRecord_data]
          have hempty : WritesData [] (addr.toNat + data.length) (data.drop data.length) := by
            intro pos
            simp [latest]
          have h := hempty.cons le_rfl
          rw [List.take_length] at h
          exact h
      · have hnext : (addr + BitVec.ofNat 32 (data.take 16).length).toNat =
            addr.toNat + 16 := by
          rw [toNat_add_length (by omega)]
          omega
        obtain ⟨recs, hlines, hchecked, hdata⟩ := ih (data.drop 16).length (by omega)
          (addr + BitVec.ofNat 32 (data.take 16).length) (data.drop 16)
          (by rw [hnext]; omega) rfl
        refine ⟨addrRecord '3' (BitVec.ofNat 8 ((data.take 16).length + 4 + 1)) addr
          (data.take 16) :: recs, ?_, ?_, ?_⟩
        · rw [List.map_cons, ← hlines, s3Text_eq]
        · refine List.forall_mem_cons.mpr ⟨⟨addrRecord_checked ?_, rfl, ?_⟩, hchecked⟩
          · rw [BitVec.toNat_ofNat]
            omega
          · simp only [addrRecord, addrBytes, List.length_append, List.length_cons, List.length_nil]
            omega
        · rw [hnext] at hdata
          rw [s3Writes_cons rfl, addrRecord_addr, addrRecord_data]
          exact hdata.cons (by omega)

theorem srecText_line {r : SRecord} (hkind : r.kind ≠ '\n') (hlen : r.bytes.length ≤ 22) :
    ∃ body, srecText r = body ++ ['\n'] ∧ '\n' ∉ body ∧ body.length < lineSize - 1 := by
  refine ⟨'S' :: r.kind :: hexPairs r.bytes, rfl, ?_, ?_⟩
  · rw [List.mem_cons, List.mem_cons, not_or, not_or]
    exact ⟨by decide, hkind.symm, not_newline_hexPairs _⟩
  · rw [List.length_cons, List.length_cons, length_hexPairs, lineSize]
    omega

/-! ## Intel HEX lines -/

def ihexText (bytes : List RivU8) : CStr := ':' :: hexPairs bytes ++ ['\n']

theorem readIhexRecord_ihexText (bytes : List RivU8) :
    readIhexRecord (ihexText bytes) = some bytes := by
  rw [ihexText, List.cons_append, readIhexRecord, chomp_line, hexBytes_hexPairs]

theorem byteSum_concat_neg (bs : List RivU8) : byteSum (bs ++ [(0 : RivU8) - byteSum bs]) = 0 := by
  have h : byteSum [(0 : RivU8) - byteSum bs] = (0 : RivU8) - byteSum bs := by rw [byteSum_cons]; simp [byteSum]
  rw [byteSum_append, h]
  simp

theorem ihexChecked_concat {n : RivU8} (addr₁ addr₀ type : RivU8) {buf : List RivU8}
    (h : buf.length = n.toNat) : IhexChecked ((n :: addr₁ :: addr₀ :: type :: buf) ++
      [(0 : RivU8) - byteSum (n :: addr₁ :: addr₀ :: type :: buf)]) := by
  refine ⟨?_, byteSum_concat_neg (n :: addr₁ :: addr₀ :: type :: buf)⟩
  rw [← h]
  exact List.length_append

theorem upperText_eq_ihexText (upper : RivU32) :
    upperText upper = ihexText (([2, 0, 0, 4] : List RivU8) ++ ([(upper >>> 8).setWidth 8] ++
      ([upper.setWidth 8] ++ [upperSum ((upper >>> 8).setWidth 8) (upper.setWidth 8)]))) := by
  have hhead : ":02000004".toList = ':' :: hexPairs [2, 0, 0, 4] := by decide
  unfold upperText ihexText
  rw [hhead, hexPairs_append, hexPairs_append, hexPairs_append, hexPairs_singleton, hexPairs_singleton, hexPairs_singleton]
  simp only [List.append_assoc, List.cons_append]

theorem upperText_bytes (upper : RivU32) :
    ∃ bytes, upperText upper = ihexText bytes ∧ IhexChecked bytes ∧ bytes.length ≤ 21 := by
  have htwo : [(upper >>> 8).setWidth 8, upper.setWidth 8].length = (2 : RivU8).toNat := rfl
  have hchecked := ihexChecked_concat 0 0 4 htwo
  exact ⟨_, upperText_eq_ihexText upper, hchecked, by simp⟩

def dataBytes (addr : RivU32) (buf : List RivU8) : List RivU8 :=
  BitVec.ofNat 8 buf.length :: (addr >>> 8).setWidth 8 :: addr.setWidth 8 :: 0 :: buf

theorem dataSum_eq (addr : RivU32) (buf : List RivU8) :
    dataSum addr buf = (0 : RivU8) - byteSum (dataBytes addr buf) := by
  rw [dataSum, foldl_add_eq, dataBytes]
  simp only [byteSum_cons, add_assoc]

theorem dataText_eq_ihexText (addr : RivU32) {buf : List RivU8} (hbuf : buf.length ≤ 16) :
    dataText addr buf = ihexText (dataBytes addr buf ++ [dataSum addr buf]) := by
  have hlow : showUpperHexPad 4 (addr &&& 0xFFFF).toNat =
      hexPairs [(addr >>> 8).setWidth 8, addr.setWidth 8] := by
    have hand : (addr &&& 0xFFFF).toNat = addr.toNat % 65536 :=
      BitField.toNat_and_mask (w := 16) addr _ rfl
    have h1 : ((addr >>> 8).setWidth 8 : RivU8).toNat = addr.toNat % 65536 / 256 := by
      rw [BitVec.toNat_setWidth, BitVec.toNat_ushiftRight, Nat.shiftRight_eq_div_pow]
      omega
    have h0 : (addr.setWidth 8 : RivU8).toNat = addr.toNat % 65536 % 256 := by
      rw [BitVec.toNat_setWidth]
      omega
    rw [hand, showUpperHexPad_add_two (by decide) (by norm_num; omega), hexPairs_cons,
      hexPairs_cons, h1, h0]
    simp [hexPairs]
  have hlen : (BitVec.ofNat 8 buf.length).toNat = buf.length := by
    rw [BitVec.toNat_ofNat, Nat.mod_eq_of_lt (by omega)]
  have htype : "00".toList = hexPairs [0] := by decide
  simp only [dataText, dataBytes, hlow, htype, ihexText, hexPairs_append, hexPairs_cons, hlen,
    List.append_assoc, List.cons_append]
  rfl

theorem dataText_bytes (addr : RivU32) {buf : List RivU8} (hbuf : buf.length ≤ 16) :
    ∃ bytes, dataText addr buf = ihexText bytes ∧ IhexChecked bytes ∧ bytes.length ≤ 21 := by
  have hlen : (BitVec.ofNat 8 buf.length).toNat = buf.length := by
    rw [BitVec.toNat_ofNat, Nat.mod_eq_of_lt (by omega)]
  refine ⟨_, dataText_eq_ihexText addr hbuf, ?_, ?_⟩
  · rw [dataSum_eq]
    exact ihexChecked_concat ((addr >>> 8).setWidth 8) (addr.setWidth 8) 0 hlen.symm
  · simp only [dataBytes, List.length_append, List.length_cons, List.length_nil]
    omega

theorem endText_bytes : ∃ bytes, endText = ihexText bytes ∧ IhexChecked bytes ∧ bytes.length ≤ 21 :=
  ⟨[0, 0, 0, 1, 0xFF], by decide, ⟨rfl, by decide⟩, by decide⟩

theorem ihexLines_checked (addr last : RivU32) (data : List RivU8) : ∀ l ∈ ihexLines addr last data,
      ∃ bytes, l = ihexText bytes ∧ IhexChecked bytes ∧ bytes.length ≤ 21 := by
  have hdata (addr : RivU32) (data : List RivU8) :=
    dataText_bytes addr (List.length_take_le 16 data)
  fun_induction ihexLines addr last data with
  | case1 => simp
  | case2 addr last data hne buf upper lines hup ih =>
    exact List.forall_mem_cons.mpr
      ⟨upperText_bytes _, List.forall_mem_cons.mpr ⟨hdata addr data, ih⟩⟩
  | case3 addr last data hne buf upper lines hup ih =>
    exact List.forall_mem_cons.mpr ⟨hdata addr data, ih⟩

/-! ## The output files -/

theorem binToIhex_checked (data : List RivU8) (base : RivU32) :
    ∀ l ∈ ihexLines base (-1) data ++ [endText],
      ∃ bytes, l = ihexText bytes ∧ IhexChecked bytes ∧ bytes.length ≤ 21 := by
  rw [List.forall_mem_append, List.forall_mem_singleton]
  exact ⟨ihexLines_checked base (-1) data, endText_bytes⟩

theorem readLines_binToIhex (data : List RivU8) (base : RivU32) :
    readLines (binToIhex data base) = ihexLines base (-1) data ++ [endText] := by
  apply readLines_lines
  intro l hl
  obtain ⟨bytes, rfl, -, hlen⟩ := binToIhex_checked data base l hl
  refine ⟨':' :: hexPairs bytes, rfl, ?_, ?_⟩
  · rw [List.mem_cons, not_or]
    exact ⟨by decide, not_newline_hexPairs bytes⟩
  · rw [List.length_cons, length_hexPairs, lineSize]
    omega

/-- The lines of a file that `bin_to_srec` prints are checked records, and their
S3 records put the input at its addresses and write nothing else; the lines of a
file that `bin_to_ihex` prints are checked records. -/
theorem records_denote_input (data : List RivU8) (base : RivU32)
    (hfit : base.toNat + data.length ≤ 2 ^ 32) : (∃ recs : List SRecord,
      (readLines (binToSrec data base)).map readSRecord = recs.map some ∧
        (∀ r ∈ recs, r.Checked) ∧ WritesData (s3Writes recs) base.toNat data) ∧
      ∀ l ∈ readLines (binToIhex data base), WellFormedRecord l := by
  constructor
  · obtain ⟨recs, hlines, hrecs, hdata⟩ := srecLines_denote base data hfit
    have hend : (addrRecord '7' 5 base []).Checked := addrRecord_checked rfl
    have htext : s0Text :: srecLines base data ++ [s7Text base] =
        (headerRecord :: recs ++ [addrRecord '7' 5 base []]).map srecText := by
      rw [s0Text_eq, s7Text_eq, hlines, List.map_append, List.map_cons]
      rfl
    have hread : readLines (binToSrec data base) =
        (headerRecord :: recs ++ [addrRecord '7' 5 base []]).map srecText := by
      rw [binToSrec, htext]
      apply readLines_lines
      intro l hl
      obtain ⟨r, hr, rfl⟩ := List.mem_map.mp hl
      rcases List.mem_append.mp hr with hr | hr
      · rcases List.mem_cons.mp hr with rfl | hr
        · exact srecText_line (by decide) (by decide)
        · obtain ⟨-, hkind, hlen⟩ := hrecs r hr
          exact srecText_line (by rw [hkind]; decide) hlen
      · rw [List.mem_singleton.mp hr]
        exact srecText_line (show '7' ≠ '\n' by decide) (by simp [addrRecord, addrBytes])
    refine ⟨headerRecord :: recs ++ [addrRecord '7' 5 base []], ?_, ?_, ?_⟩
    · rw [hread, List.map_map]
      apply List.map_congr_left
      intro r _
      exact readSRecord_srecText r
    · rw [List.forall_mem_append, List.forall_mem_singleton, List.forall_mem_cons]
      exact ⟨⟨headerRecord_checked, fun r hr => (hrecs r hr).1⟩, hend⟩
    · have hwrites : s3Writes (headerRecord :: recs ++ [addrRecord '7' 5 base []]) =
          s3Writes recs := by
        simp only [s3Writes, List.cons_append, List.filter_cons, List.filter_append]
        simp [headerRecord, addrRecord]
      rw [hwrites]
      exact hdata
  · intro l hl
    rw [readLines_binToIhex] at hl
    obtain ⟨bytes, rfl, hchecked, -⟩ := binToIhex_checked data base l hl
    exact ⟨bytes, readIhexRecord_ihexText bytes, hchecked⟩

/-- Seventeen bytes that end with the address space. -/
theorem records_denote_input_top : ∃ recs : List SRecord,
      (readLines (binToSrec (List.replicate 17 0xA5) 0xFFFFFFEF)).map readSRecord = recs.map some ∧
      (∀ r ∈ recs, r.Checked) ∧ WritesData (s3Writes recs) 0xFFFFFFEF (List.replicate 17 0xA5) :=
  (records_denote_input (List.replicate 17 0xA5) 0xFFFFFFEF (by decide)).1

end Rivet.Image
