import Rivet.Image.IhexRoundTrip
import Rivet.Image.Records

/-!
# Intel HEX input

`ihex_to_bin` reads a file without checking its records.  The file is taken apart
here into the data records it has for the decoder, and what becomes of them is
compared with what the format asks of the file.
-/

namespace Rivet.Image

open CLib Splice List

variable {cs l : List Char} {m : RivU32}

/-! ## Data records of a file -/

/-- A line that the decoder takes for data: its address, its length field, which
is negative where a digit is missing, and its bytes. -/
structure IhexRecord where
  addr : RivU32
  len : ℤ
  bytes : List RivU8
  deriving DecidableEq, Repr

def recordOf (upper : RivU32) (line : LineBuf) : IhexRecord :=
  ⟨upper ||| recAddr line, recLen line, (List.range (recLen line).toNat).map (recByte line)⟩

/-- The data records among the lines, from a line buffer and an upper half on. -/
def records (line : LineBuf) (upper : RivU32) : List (List Char) → List IhexRecord
  | [] => []
  | chars :: lines =>
    if line.fill chars 0 ≠ ':' then records (line.fill chars) upper lines
    else if recType (line.fill chars) = 4 then
      records (line.fill chars) (recUpper (line.fill chars)) lines
    else if recType (line.fill chars) = 0 then
      recordOf upper (line.fill chars) :: records (line.fill chars) upper lines
    else records (line.fill chars) upper lines

/-- The smallest address of a record, as the first loop forms it. -/
def minAddr (m : RivU32) (recs : List IhexRecord) : RivU32 :=
  recs.foldl (fun m r => if r.addr < m then r.addr else m) m

def maxEnd (m : RivU32) (recs : List IhexRecord) : RivU32 :=
  recs.foldl (fun m r =>
    if m < r.addr + BitVec.ofInt 32 r.len then r.addr + BitVec.ofInt 32 r.len else m) m

theorem scan_records (lines : List (List Char)) (st : IhexScan) :
    (lines.foldl scanLine st).minaddr = minAddr st.minaddr (records st.line st.upper lines) ∧
      (lines.foldl scanLine st).maxaddr = maxEnd st.maxaddr (records st.line st.upper lines) := by
  induction lines generalizing st with
  | nil => exact ⟨rfl, rfl⟩
  | cons chars lines ih =>
    rw [foldl_cons, records]
    by_cases hmark : st.line.fill chars 0 ≠ ':'
    · have hstep : scanLine st chars = { st with line := st.line.fill chars } := if_pos hmark
      rw [if_pos hmark, hstep]
      exact ih _
    · rw [if_neg hmark]
      by_cases hupper : recType (st.line.fill chars) = 4
      · have hstep : scanLine st chars =
            { st with line := st.line.fill chars, upper := recUpper (st.line.fill chars) } := by
          rw [scanLine, if_neg hmark, if_pos hupper]
        rw [if_pos hupper, hstep]
        exact ih _
      · rw [if_neg hupper]
        by_cases hdata : recType (st.line.fill chars) = 0
        · rw [if_pos hdata, scanLine, if_neg hmark, if_neg hupper, if_pos hdata]
          exact ih _
        have hstep : scanLine st chars = { st with line := st.line.fill chars } := by
          grind [scanLine]
        rw [if_neg hdata, hstep]
        exact ih _

/-! ## Smallest address and largest end -/

theorem minAddr_spec (m : RivU32) (recs : List IhexRecord) :
    (minAddr m recs).toNat ≤ m.toNat ∧ (∀ r ∈ recs, (minAddr m recs).toNat ≤ r.addr.toNat) ∧
      (minAddr m recs = m ∨ ∃ r ∈ recs, r.addr = minAddr m recs) := by
  induction recs generalizing m with
  | nil => exact ⟨le_rfl, by simp, Or.inl rfl⟩
  | cons r recs ih =>
    obtain ⟨hle, hall, hatt⟩ := ih (if r.addr < m then r.addr else m)
    have hmin := toNat_ite_min r.addr m
    have hfold : minAddr m (r :: recs) = minAddr (if r.addr < m then r.addr else m) recs := rfl
    rw [hfold]
    refine ⟨by omega, forall_mem_cons.mpr ⟨by omega, hall⟩, ?_⟩
    rcases hatt with hatt | ⟨r', hr', hatt⟩
    · by_cases hlt : r.addr < m
      · rw [if_pos hlt] at hatt ⊢
        exact Or.inr ⟨r, mem_cons_self, hatt.symm⟩
      · rw [if_neg hlt] at hatt ⊢
        exact Or.inl hatt
    · exact Or.inr ⟨r', mem_cons_of_mem r hr', hatt⟩

theorem minAddr_eq_top_iff (recs : List IhexRecord) :
    minAddr 0xFFFFFFFF recs = 0xFFFFFFFF ↔ ∀ r ∈ recs, r.addr = 0xFFFFFFFF := by
  obtain ⟨-, hle, hatt⟩ := minAddr_spec 0xFFFFFFFF recs
  have hlargest : (0xFFFFFFFF : RivU32).toNat = 2 ^ 32 - 1 := by decide
  constructor
  · intro h r hr
    have hmin := hle r hr
    rw [h, hlargest] at hmin
    apply BitVec.eq_of_toNat_eq
    omega
  · intro h
    rcases hatt with hatt | ⟨r, hr, hatt⟩
    · exact hatt
    · rw [← hatt, h r hr]

theorem maxEnd_spec (m : RivU32) (recs : List IhexRecord) : m.toNat ≤ (maxEnd m recs).toNat ∧
      (∀ r ∈ recs, (r.addr + BitVec.ofInt 32 r.len).toNat ≤ (maxEnd m recs).toNat) ∧
      (maxEnd m recs = m ∨ ∃ r ∈ recs, r.addr + BitVec.ofInt 32 r.len = maxEnd m recs) := by
  induction recs generalizing m with
  | nil => exact ⟨le_rfl, by simp, Or.inl rfl⟩
  | cons r recs ih =>
    obtain ⟨hle, hall, hatt⟩ := ih (if m < r.addr + BitVec.ofInt 32 r.len
      then r.addr + BitVec.ofInt 32 r.len else m)
    have hmax := toNat_ite_max (r.addr + BitVec.ofInt 32 r.len) m
    have hfold : maxEnd m (r :: recs) = maxEnd (if m < r.addr + BitVec.ofInt 32 r.len
      then r.addr + BitVec.ofInt 32 r.len else m) recs := rfl
    rw [hfold]
    refine ⟨by omega, forall_mem_cons.mpr ⟨by omega, hall⟩, ?_⟩
    rcases hatt with hatt | ⟨r', hr', hatt⟩
    · by_cases hlt : m < r.addr + BitVec.ofInt 32 r.len
      · rw [if_pos hlt] at hatt ⊢
        exact Or.inr ⟨r, mem_cons_self, hatt.symm⟩
      · rw [if_neg hlt] at hatt ⊢
        exact Or.inl hatt
    · exact Or.inr ⟨r', mem_cons_of_mem r hr', hatt⟩

/-! ## Well-formed lines -/

def WellFormedFile (text : List Char) : Prop :=
  ∀ l ∈ readLines text, l.head? = some ':' → WellFormedRecord l

/-- Two digits and the byte they denote. -/
structure DenotesByte (c d : Char) (b : RivU8) : Prop where
  high : 0 ≤ hexVal c
  low : 0 ≤ hexVal d
  value : hexVal c * 16 + hexVal d = b.toNat

theorem hexVal_lt (c : Char) : hexVal c < 16 := by
  have hle {a b : Char} : a ≤ b ↔ a.toNat ≤ b.toNat := Iff.rfl
  unfold hexVal
  grind

theorem denotesByte_of_nonneg {c d : Char} (hc : 0 ≤ hexVal c) (hd : 0 ≤ hexVal d) :
    DenotesByte c d (BitVec.ofInt 8 (hexVal c * 16 + hexVal d)) where
  high := hc
  low := hd
  value := by
    have hclt := hexVal_lt c
    have hdlt := hexVal_lt d
    rw [BitVec.toNat_ofInt]
    omega

theorem hexBytes_eq_some {bytes : List RivU8} (h : hexBytes cs = some bytes) :
    cs.length = 2 * bytes.length ∧ ∀ j, j < bytes.length →
        DenotesByte (cs.getD (2 * j) '\x00') (cs.getD (2 * j + 1) '\x00') (bytes.getD j 0) := by
  fun_induction hexBytes cs generalizing bytes with
  | case1 => simp_all
  | case2 => cases h
  | case3 c d cs hdig ih =>
    obtain ⟨rest, hrest, rfl⟩ := Option.map_eq_some_iff.mp h
    obtain ⟨hlen, hbytes⟩ := ih hrest
    refine ⟨by simp only [length_cons]; omega, ?_⟩
    intro j hj
    cases j with
    | zero => exact denotesByte_of_nonneg hdig.1 hdig.2
    | succ j =>
      have h := hbytes j (by simpa using hj)
      simpa [Nat.mul_succ] using h
  | case4 => cases h

/-! ## Reading well-formed lines -/

theorem fill_agree (b1 b2 : LineBuf) {i : ℕ} (hi : i ≤ l.length) : b1.fill l i = b2.fill l i := by
  unfold LineBuf.fill
  grind

theorem chomp_getD {i : ℕ} (hi : i < (chomp cs).length) :
    (chomp cs).getD i '\x00' = cs.getD i '\x00' := by
  unfold chomp at hi ⊢
  grind

theorem length_chomp (cs : List Char) : (chomp cs).length ≤ cs.length ∧
      (cs.getLast? = some '\n' → (chomp cs).length + 1 = cs.length) := by
  unfold chomp
  grind

theorem WellFormedRecord.length_field (h : WellFormedRecord l) :
    ∃ n : ℕ, n ≤ 255 ∧ 2 * n + 11 ≤ l.length ∧ (l.getLast? = some '\n' → 2 * n + 12 ≤ l.length) ∧
      ∀ line : LineBuf, recLen (line.fill l) = n := by
  obtain ⟨bytes, hread, hchecked⟩ := h
  obtain ⟨cs, rfl⟩ : ∃ cs, l = ':' :: cs := by
    unfold readIhexRecord at hread
    grind
  obtain ⟨n, a1, a0, t, rest, rfl⟩ : ∃ n a1 a0 t rest, bytes = n :: a1 :: a0 :: t :: rest := by
    unfold IhexChecked at hchecked
    split at hchecked
    all_goals simp_all
  obtain ⟨hlen, hbytes⟩ := hexBytes_eq_some (show hexBytes (chomp cs) = _ from hread)
  have hrest : rest.length = n.toNat + 1 := hchecked.1
  obtain ⟨hle, hnewline⟩ := length_chomp cs
  simp only [length_cons] at hlen
  refine ⟨n.toNat, by omega, by rw [length_cons]; omega, ?_, ?_⟩
  · intro hlast
    have hcs : cs ≠ [] := by
      rintro rfl
      simp only [length_nil] at hle
      omega
    rw [List.getLast?_cons_of_ne_nil hcs] at hlast
    have := hnewline hlast
    rw [length_cons]
    omega
  · intro line
    have hdigit (i : ℕ) (hi : i < (chomp cs).length) :
        line.fill (':' :: cs) (i + 1) = (chomp cs).getD i '\x00' := by
      have hi' : i + 1 < (':' :: cs).length := by
        rw [length_cons]
        omega
      rw [chomp_getD hi, LineBuf.fill, if_pos hi', getD_cons_succ]
    have hfirst := (hbytes 0 (by simp)).value
    rw [recLen, hdigit 0 (by omega), hdigit 1 (by omega)]
    exact hfirst

theorem recordOf_agree (h : WellFormedRecord l) (b1 b2 : LineBuf) (upper : RivU32) :
    recordOf upper (b1.fill l) = recordOf upper (b2.fill l) := by
  obtain ⟨n, -, hlen, -, hfield⟩ := h.length_field
  have hagree (i : ℕ) (hi : i ≤ 2 * n + 11) : b1.fill l i = b2.fill l i :=
    fill_agree b1 b2 (by omega)
  have haddr : recAddr (b1.fill l) = recAddr (b2.fill l) := by grind [recAddr]
  have hbytes : (List.range n).map (recByte (b1.fill l)) =
      (List.range n).map (recByte (b2.fill l)) := by
    apply map_congr_left
    intro i hi
    have hi := mem_range.mp hi
    rw [recByte, recByte, hagree (9 + i * 2) (by omega), hagree (10 + i * 2) (by omega)]
  simp_all [recordOf, Int.toNat_natCast]

theorem recType_agree (h : WellFormedRecord l) (b1 b2 : LineBuf) :
    recType (b1.fill l) = recType (b2.fill l) := by
  obtain ⟨n, -, hlen, -⟩ := h.length_field
  grind [recType, fill_agree]

theorem recUpper_agree (h : 12 ≤ l.length) (b1 b2 : LineBuf) :
    recUpper (b1.fill l) = recUpper (b2.fill l) := by grind [recUpper, fill_agree]

theorem fgets_rest {cap : ℕ} (h : (Assembler.fgets cap cs).2 ≠ []) :
    (Assembler.fgets cap cs).1.getLast? = some '\n' ∨ (Assembler.fgets cap cs).1.length = cap := by
  induction cap generalizing cs with
  | zero => exact Or.inr rfl
  | succ cap ih =>
    cases cs with
    | nil => exact absurd rfl h
    | cons c cs =>
      rw [Assembler.fgets] at h ⊢
      by_cases hc : c = '\n'
      · rw [if_pos hc, hc]
        exact Or.inl rfl
      grind

theorem fill_zero_agree (b1 b2 : LineBuf) : b1.fill l 0 = b2.fill l 0 :=
  fill_agree b1 b2 (Nat.zero_le _)

theorem head?_of_fill_zero {line : LineBuf} (h : line.fill l 0 = ':') : l.head? = some ':' := by
  cases l with
  | nil => cases h
  | cons c cs => exact congrArg some h

theorem records_agree {text : List Char} (hwf : WellFormedFile text) (b1 b2 : LineBuf)
    (upper : RivU32) : records b1 upper (readLines text) = records b2 upper (readLines text) := by
  unfold WellFormedFile at hwf
  fun_induction readLines text generalizing b1 b2 upper with
  | case1 => rfl
  | case2 c cs ih =>
    obtain ⟨hl, hrest⟩ := forall_mem_cons.mp hwf
    generalize hline : (Assembler.fgets (lineSize - 1) (c :: cs)).1 = l at hl ⊢
    rw [records, records, fill_zero_agree b1 b2]
    by_cases hmark : b2.fill l 0 ≠ ':'
    · grind
    have hrec := hl (head?_of_fill_zero (not_not.mp hmark))
    rw [if_neg hmark, if_neg hmark, recType_agree hrec b1 b2, recordOf_agree hrec b1 b2]
    by_cases hlast : (Assembler.fgets (lineSize - 1) (c :: cs)).2 = []
    · -- nothing is read after the last line
      have hnone (b : LineBuf) (u : RivU32) : records b u
          (readLines (Assembler.fgets (lineSize - 1) (c :: cs)).2) = [] := by
        rw [hlast, readLines]
        rfl
      simp only [hnone]
    · obtain ⟨n, -, -, hnewline, -⟩ := hrec.length_field
      have hlong : 12 ≤ l.length := by
        rcases fgets_rest hlast with h | h
        · grind
        · rw [hline] at h
          rw [h]
          decide
      grind [recUpper_agree]

theorem records_len {lines : List (List Char)}
    (hwf : ∀ l ∈ lines, l.head? = some ':' → WellFormedRecord l) (line : LineBuf) (upper : RivU32) :
    ∀ r ∈ records line upper lines, r.len = r.bytes.length ∧ r.bytes.length ≤ 255 := by
  induction lines generalizing line upper with
  | nil => simp [records]
  | cons l lines ih =>
    obtain ⟨hl, hrest⟩ := forall_mem_cons.mp hwf
    rw [records]
    by_cases hmark : line.fill l 0 ≠ ':'
    · rw [if_pos hmark]
      exact ih hrest _ _
    rw [if_neg hmark]
    by_cases hupper : recType (line.fill l) = 4
    · rw [if_pos hupper]
      exact ih hrest _ _
    rw [if_neg hupper]
    by_cases hdata : recType (line.fill l) = 0
    · rw [if_pos hdata, forall_mem_cons]
      refine ⟨?_, ih hrest _ _⟩
      obtain ⟨n, hn, -, -, hfield⟩ :=
        (hl (head?_of_fill_zero (not_not.mp hmark))).length_field
      rw [recordOf, hfield]
      simp [hn]
    · rw [if_neg hdata]
      exact ih hrest _ _

/-! ## Storing the data -/

/-- An image after the records have been copied to their distance from `m`. -/
def copyRecords (m : RivU32) (image : List RivU8) (recs : List IhexRecord) : List RivU8 :=
  recs.foldl (fun image r => splice image (r.addr.toNat - m.toNat) r.bytes) image

theorem store_records {lines : List (List Char)} (st : IhexImage)
    (hwf : ∀ l ∈ lines, l.head? = some ':' → WellFormedRecord l)
    (hroom : ∀ r ∈ records st.line st.upper lines,
      m.toNat ≤ r.addr.toNat ∧ r.addr.toNat - m.toNat + r.bytes.length ≤ st.image.length)
    (hsize : st.image.length < 2 ^ 32) : ∃ st', lines.foldlM (storeLine m) st = .ok st' ∧
      st'.image = copyRecords m st.image (records st.line st.upper lines) := by
  induction lines generalizing st with
  | nil => exact ⟨st, rfl, rfl⟩
  | cons l lines ih =>
    obtain ⟨hl, hrest⟩ := forall_mem_cons.mp hwf
    rw [foldlM_cons]
    rw [records] at hroom ⊢
    by_cases hmark : st.line.fill l 0 ≠ ':'
    · rw [if_pos hmark] at hroom ⊢
      rw [storeLine, if_pos hmark, Exec.ok_bind]
      exact ih _ hrest hroom hsize
    · rw [if_neg hmark] at hroom ⊢
      by_cases hupper : recType (st.line.fill l) = 4
      · rw [if_pos hupper] at hroom ⊢
        rw [storeLine, if_neg hmark, if_pos hupper, Exec.ok_bind]
        exact ih _ hrest hroom hsize
      · rw [if_neg hupper] at hroom ⊢
        by_cases hdata : recType (st.line.fill l) = 0
        · rw [if_pos hdata] at hroom ⊢
          obtain ⟨⟨hmin, hfit⟩, hroom⟩ := forall_mem_cons.mp hroom
          obtain ⟨n, -, -, -, hfield⟩ :=
            (hl (head?_of_fill_zero (not_not.mp hmark))).length_field
          have hsub : ((st.upper ||| recAddr (st.line.fill l)) - m).toNat =
              (recordOf st.upper (st.line.fill l)).addr.toNat - m.toNat := toNat_sub_min hmin
          have hlen : recLen (st.line.fill l) =
              (recordOf st.upper (st.line.fill l)).bytes.length := by
            rw [recordOf, hfield]
            simp
          have hstore : storeBytes (st.line.fill l)
              ((st.upper ||| recAddr (st.line.fill l)) - m) st.image =
              .ok (splice st.image ((recordOf st.upper (st.line.fill l)).addr.toNat - m.toNat)
                (recordOf st.upper (st.line.fill l)).bytes) := by
            rw [← hsub]
            apply storeBytes_eq hlen
            · intro i hi
              simp [recordOf]
            all_goals omega
          have himage := length_splice hfit
          rw [storeLine, if_neg hmark, if_neg hupper, if_pos hdata, hstore, Exec.ok_bind,
            Exec.ok_bind]
          exact ih _ hrest (by rw [himage]; exact hroom) (by rw [himage]; exact hsize)
        · rw [if_neg hdata] at hroom ⊢
          rw [storeLine, if_neg hmark, if_neg hupper, if_neg hdata, Exec.ok_bind]
          exact ih _ hrest hroom hsize

theorem storeLine_error {st : IhexImage} {e : IhexStop} (h : storeLine m st l = .error e) :
    e = .fault := by
  unfold storeLine at h
  dsimp only at h
  split at h
  · cases h
  split at h
  · cases h
  split at h
  · cases hbytes : storeBytes (st.line.fill l)
        ((st.upper ||| recAddr (st.line.fill l)) - m) st.image with
    | ok image =>
      rw [hbytes] at h
      cases h
    | error e' =>
      rw [hbytes] at h
      cases h
      apply Exec.foldlM_error hbytes
      intro image i e he
      unfold storeByte at he
      simp only at he
      split at he
      all_goals simp_all
  · cases h

/-! ## Files that are accepted -/

def writtenSize (line : LineBuf) (text : List Char) : ℕ :=
  (((readLines text).foldl scanLine ⟨line, 0xFFFFFFFF, 0, 0⟩).maxaddr -
    ((readLines text).foldl scanLine ⟨line, 0xFFFFFFFF, 0, 0⟩).minaddr).toNat

def imageSize (line : LineBuf) (text : List Char) : ℕ :=
  if writtenSize line text = 0 then 1 else writtenSize line text

/-- Every byte of every data record is stored inside the image, at the distance of
its address from the smallest one, and the image is written. -/
def StoresRecords (line : LineBuf) (text : List Char) : Prop :=
  ∃ m : RivU32, (∃ r ∈ records line 0 (readLines text), r.addr = m) ∧
    (∀ r ∈ records line 0 (readLines text), m.toNat ≤ r.addr.toNat ∧
      r.addr.toNat - m.toNat + r.bytes.length ≤ imageSize line text) ∧
    ihexToBin line text =
      .ok ((copyRecords m (List.replicate (imageSize line text) 0)
        (records line 0 (readLines text))).take (writtenSize line text), m)

/-- The file is refused, or it is well formed and its data are stored. -/
def AcceptsWellFormed (line : LineBuf) (text : List Char) : Prop :=
  ihexToBin line text = .error .noData ∨ WellFormedFile text ∧ StoresRecords line text

/-- There is no data record below the last address, or the file is well formed
and none of its records reaches the end of the address space, or all of them do. -/
def ProperInput (line : LineBuf) (text : List Char) : Prop :=
  (∀ r ∈ records line 0 (readLines text), r.addr = 0xFFFFFFFF) ∨
    WellFormedFile text ∧
      ((∀ r ∈ records line 0 (readLines text), r.addr.toNat + r.bytes.length < 2 ^ 32) ∨
        ∀ r ∈ records line 0 (readLines text), 2 ^ 32 ≤ r.addr.toNat + r.bytes.length)

section Accepted
variable {line : LineBuf} {text : List Char}

theorem scan_min (line : LineBuf) (text : List Char) :
    ((readLines text).foldl scanLine ⟨line, 0xFFFFFFFF, 0, 0⟩).minaddr =
      minAddr 0xFFFFFFFF (records line 0 (readLines text)) :=
  (scan_records (readLines text) ⟨line, 0xFFFFFFFF, 0, 0⟩).1

theorem scan_max (line : LineBuf) (text : List Char) :
    ((readLines text).foldl scanLine ⟨line, 0xFFFFFFFF, 0, 0⟩).maxaddr =
      maxEnd 0 (records line 0 (readLines text)) :=
  (scan_records (readLines text) ⟨line, 0xFFFFFFFF, 0, 0⟩).2

theorem refused_iff : ihexToBin line text = .error .noData ↔
    minAddr 0xFFFFFFFF (records line 0 (readLines text)) = 0xFFFFFFFF := by
  unfold ihexToBin
  simp only [scan_min]
  constructor
  · intro h
    by_contra hne
    rw [if_neg hne] at h
    generalize (⟨((readLines text).foldl scanLine ⟨line, 0xFFFFFFFF, 0, 0⟩).line, 0, _⟩ :
      IhexImage) = st0 at h
    cases hrun : (readLines text).foldlM
        (storeLine (minAddr 0xFFFFFFFF (records line 0 (readLines text)))) st0 with
    | ok st =>
      rw [hrun] at h
      cases h
    | error e =>
      rw [hrun] at h
      cases h
      have hfault := Exec.foldlM_error hrun fun _ _ _ h => storeLine_error h
      cases hfault
  · intro h
    rw [if_pos h]

theorem writtenSize_eq (line : LineBuf) (text : List Char) :
    writtenSize line text = (maxEnd 0 (records line 0 (readLines text)) -
      minAddr 0xFFFFFFFF (records line 0 (readLines text))).toNat := by
  rw [writtenSize, scan_min, scan_max]

theorem imageSize_lt (line : LineBuf) (text : List Char) : imageSize line text < 2 ^ 32 := by
  have hlt : writtenSize line text < 2 ^ 32 := BitVec.isLt _
  rw [imageSize]
  split
  · decide
  · exact hlt

theorem end_toNat {r : IhexRecord} (hlen : r.len = r.bytes.length) :
    (r.addr + BitVec.ofInt 32 r.len).toNat = (r.addr.toNat + r.bytes.length) % 2 ^ 32 := by simp_all

theorem storesRecords_of_fits (hwf : WellFormedFile text)
    (hdata : minAddr 0xFFFFFFFF (records line 0 (readLines text)) ≠ 0xFFFFFFFF)
    (hfit : ∀ r ∈ records line 0 (readLines text),
      r.addr.toNat - (minAddr 0xFFFFFFFF (records line 0 (readLines text))).toNat +
        r.bytes.length ≤ imageSize line text) : StoresRecords line text := by
  obtain ⟨-, hle, hatt⟩ := minAddr_spec 0xFFFFFFFF (records line 0 (readLines text))
  refine ⟨_, hatt.resolve_left hdata, fun r hr => ⟨hle r hr, hfit r hr⟩, ?_⟩
  have hagree := records_agree hwf
    ((readLines text).foldl scanLine ⟨line, 0xFFFFFFFF, 0, 0⟩).line line 0
  obtain ⟨st, hst, himage⟩ := store_records
    (m := minAddr 0xFFFFFFFF (records line 0 (readLines text)))
    ⟨((readLines text).foldl scanLine ⟨line, 0xFFFFFFFF, 0, 0⟩).line, 0,
      List.replicate (imageSize line text) 0⟩ hwf
    (by
      rw [hagree, length_replicate]
      exact fun r hr => ⟨hle r hr, hfit r hr⟩)
    (by rw [length_replicate]; exact imageSize_lt line text)
  rw [hagree] at himage
  have hsize : (if ((readLines text).foldl scanLine ⟨line, 0xFFFFFFFF, 0, 0⟩).maxaddr -
      ((readLines text).foldl scanLine ⟨line, 0xFFFFFFFF, 0, 0⟩).minaddr = 0 then 1
      else (((readLines text).foldl scanLine ⟨line, 0xFFFFFFFF, 0, 0⟩).maxaddr -
        ((readLines text).foldl scanLine ⟨line, 0xFFFFFFFF, 0, 0⟩).minaddr).toNat) =
      imageSize line text := by
    unfold imageSize writtenSize
    simp only [BitVec.toNat_eq]
    rfl
  unfold ihexToBin
  dsimp only
  rw [hsize, scan_min, if_neg hdata, hst, Exec.ok_bind, himage, writtenSize, scan_min]

theorem eq_minAddr {recs : List IhexRecord} (hdata : minAddr 0xFFFFFFFF recs ≠ 0xFFFFFFFF)
    (hmem : ∃ r ∈ recs, r.addr = m) (hmin : ∀ r ∈ recs, m.toNat ≤ r.addr.toNat) :
    m = minAddr 0xFFFFFFFF recs := by
  obtain ⟨-, hle, hatt⟩ := minAddr_spec 0xFFFFFFFF recs
  obtain ⟨r, hr, rfl⟩ := hmem
  obtain ⟨r', hr', heq⟩ := hatt.resolve_left hdata
  apply BitVec.eq_of_toNat_eq
  apply Nat.le_antisymm
  · rw [← heq]
    exact hmin r' hr'
  · exact hle r hr

theorem fits_iff (hwf : WellFormedFile text)
    (hdata : minAddr 0xFFFFFFFF (records line 0 (readLines text)) ≠ 0xFFFFFFFF) :
    (∀ r ∈ records line 0 (readLines text),
      r.addr.toNat - (minAddr 0xFFFFFFFF (records line 0 (readLines text))).toNat +
        r.bytes.length ≤ imageSize line text) ↔
    (∀ r ∈ records line 0 (readLines text), r.addr.toNat + r.bytes.length < 2 ^ 32) ∨
      ∀ r ∈ records line 0 (readLines text), 2 ^ 32 ≤ r.addr.toNat + r.bytes.length := by
  have hlens := records_len hwf line 0
  have hsize := writtenSize_eq line text
  unfold imageSize
  generalize records line 0 (readLines text) = recs at *
  obtain ⟨-, hle, -⟩ := minAddr_spec 0xFFFFFFFF recs
  obtain ⟨-, hge, hmax⟩ := maxEnd_spec 0 recs
  have hmin : (minAddr 0xFFFFFFFF recs).toNat < 2 ^ 32 - 1 := by
    have hne : (minAddr 0xFFFFFFFF recs).toNat ≠ 2 ^ 32 - 1 :=
      fun h => hdata (BitVec.eq_of_toNat_eq h)
    omega
  have hends (r : IhexRecord) (hr : r ∈ recs) :
      (r.addr.toNat + r.bytes.length) % 2 ^ 32 ≤ (maxEnd 0 recs).toNat := by
    rw [← end_toNat (hlens r hr).1]
    exact hge r hr
  have hsub := BitVec.toNat_sub (maxEnd 0 recs) (minAddr 0xFFFFFFFF recs)
  constructor
  · intro hfit
    by_contra hsplit
    simp only [not_or, not_forall, not_lt, not_le] at hsplit
    obtain ⟨⟨r0, hr0, hwrap⟩, r1, hr1, hplain⟩ := hsplit
    have h0 := hfit r0 hr0
    have h1 := hends r1 hr1
    have hle1 := hle r1 hr1
    split at h0 <;> omega
  · rintro (hplain | hwrap)
    · intro r hr
      have h := hends r hr
      have hle := hle r hr
      have hlt := hplain r hr
      split <;> omega
    · intro r hr
      have h := hends r hr
      have hle := hle r hr
      have hlen := (hlens r hr).2
      have hsmall : (maxEnd 0 recs).toNat < 255 := by
        rcases hmax with hmax | ⟨r', hr', hmax⟩
        · rw [hmax]
          decide
        have hlen' := hlens r' hr'
        have hge' := hwrap r' hr'
        rw [← hmax, end_toNat hlen'.1]
        omega
      have hlow : 2 ^ 32 - 255 ≤ (minAddr 0xFFFFFFFF recs).toNat := by
        obtain ⟨r', hr', hr'm⟩ :=
          (minAddr_spec 0xFFFFFFFF recs).2.2.resolve_left hdata
        have hlen' := hlens r' hr'
        have hge' := hwrap r' hr'
        rw [← hr'm]
        omega
      split <;> omega

end Accepted

/-- Whatever the line buffer holds before, `ihex_to_bin` refuses a file or finds it
well formed and stores all of its data exactly when the input is proper. -/
theorem acceptsWellFormed_iff (line : LineBuf) (text : List Char) :
    AcceptsWellFormed line text ↔ ProperInput line text := by
  unfold AcceptsWellFormed ProperInput
  rw [refused_iff, ← minAddr_eq_top_iff]
  by_cases hdata : minAddr 0xFFFFFFFF (records line 0 (readLines text)) = 0xFFFFFFFF
  · exact iff_of_true (Or.inl hdata) (Or.inl hdata)
  rw [or_iff_right hdata, or_iff_right hdata]
  refine and_congr_right fun hwf => ?_
  rw [← fits_iff hwf hdata]
  constructor
  · rintro ⟨m, hmem, hbound, -⟩
    have hm := eq_minAddr hdata hmem fun r hr => (hbound r hr).1
    rw [← hm]
    exact fun r hr => (hbound r hr).2
  · exact storesRecords_of_fits hwf hdata

/-- A record with a wrong checksum is accepted. -/
theorem bad_checksum_accepted :
    ihexToBin (fun _ => '\x00') ":0100000041FF\n".toList = .ok ([0x41], 0) ∧
      ¬WellFormedRecord ":0100000041FF\n".toList := by
  constructor
  · decide +kernel
  rintro ⟨bytes, hread, hchecked⟩
  have hbytes : readIhexRecord ":0100000041FF\n".toList = some [1, 0, 0, 0, 0x41, 0xFF] := by
    decide
  obtain rfl := Option.some.inj (hbytes.symm.trans hread)
  exact absurd hchecked.2 (by decide)

end Rivet.Image
