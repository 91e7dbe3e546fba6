import Rivet.Image.Ihex
import Rivet.Support.WriteLog

/-!
# Hexadecimal records

Intel HEX and S-record files are lines of byte pairs behind a mark.  The lines
are read here independently of the programs that write or read them: the bytes
that the digits of a line denote, and what the two formats demand of them.
-/

namespace Rivet.Image

open CLib Disassembler

/-! ## Bytes of a line -/

def hexBytes : List Char → Option (List RivU8)
  | [] => some []
  | [_] => none
  | c :: d :: cs =>
    if 0 ≤ hexVal c ∧ 0 ≤ hexVal d then
      (hexBytes cs).map (BitVec.ofInt 8 (hexVal c * 16 + hexVal d) :: ·)
    else none

def chomp (l : List Char) : List Char := if l.getLast? = some '\n' then l.dropLast else l

def byteSum (bs : List RivU8) : RivU8 := bs.foldl (· + ·) 0

/-- The digits of bytes, as `%02X` prints them. -/
def hexPairs (bs : List RivU8) : CStr := bs.flatMap fun b => showUpperHexPad 2 b.toNat

theorem hexPairs_singleton (b : RivU8) : hexPairs [b] = showUpperHexPad 2 b.toNat := by
  simp [hexPairs]

theorem hexPairs_cons (b : RivU8) (bs : List RivU8) :
    hexPairs (b :: bs) = showUpperHexPad 2 b.toNat ++ hexPairs bs := rfl

theorem hexPairs_append (as bs : List RivU8) :
    hexPairs (as ++ bs) = hexPairs as ++ hexPairs bs := List.flatMap_append

theorem length_hexPairs (bs : List RivU8) : (hexPairs bs).length = 2 * bs.length := by
  induction bs with
  | nil => rfl
  | cons b bs ih => grind [hexPairs_cons, showUpperHexPad_byte, length_digits2]

theorem not_newline_hexPairs (bs : List RivU8) : '\n' ∉ hexPairs bs := by
  intro h
  obtain ⟨b, -, h⟩ := List.mem_flatMap.mp h
  rw [showUpperHexPad_byte] at h
  obtain ⟨d, hd, h⟩ := List.mem_map.mp h
  exact upperDigit_ne_newline (digits2_lt b.isLt d hd) h

theorem hexBytes_hexPairs (bs : List RivU8) : hexBytes (hexPairs bs) = some bs := by
  induction bs with
  | nil => rfl
  | cons b bs ih =>
    have hhi : hexVal (upperDigit (b.toNat / 16)) = (b.toNat / 16 : ℕ) :=
      hexVal_upperDigit (by omega)
    have hlo : hexVal (upperDigit (b.toNat % 16)) = (b.toNat % 16 : ℕ) :=
      hexVal_upperDigit (by omega)
    have hval : ((b.toNat / 16 : ℕ) : ℤ) * 16 + (b.toNat % 16 : ℕ) = (b.toNat : ℤ) := by omega
    have hpairs : hexPairs (b :: bs) =
        upperDigit (b.toNat / 16) :: upperDigit (b.toNat % 16) :: hexPairs bs := by
      rw [hexPairs_cons, showUpperHexPad_byte]
      rfl
    rw [hpairs, hexBytes, hhi, hlo, if_pos ⟨by omega, by omega⟩, ih, hval,
      BitVec.ofInt_natCast, BitVec.ofNat_toNat, BitVec.setWidth_eq]
    rfl

theorem chomp_line (l : List Char) : chomp (l ++ ['\n']) = l := by simp [chomp]

theorem foldl_add_eq (acc : RivU8) (bs : List RivU8) : bs.foldl (· + ·) acc = acc + byteSum bs := by
  induction bs generalizing acc with
  | nil => simp [byteSum]
  | cons b bs ih =>
    rw [byteSum, List.foldl_cons, List.foldl_cons, ih, ih (0 + b), zero_add, add_assoc]

theorem byteSum_cons (b : RivU8) (bs : List RivU8) : byteSum (b :: bs) = b + byteSum bs := by
  rw [byteSum, List.foldl_cons, zero_add, foldl_add_eq]

theorem byteSum_append (as bs : List RivU8) : byteSum (as ++ bs) = byteSum as + byteSum bs := by
  rw [byteSum, List.foldl_append, foldl_add_eq]
  rfl

/-! ## Files of lines -/

theorem readLines_lines {lines : List CStr}
    (h : ∀ l ∈ lines, ∃ body, l = body ++ ['\n'] ∧ '\n' ∉ body ∧ body.length < lineSize - 1) :
    readLines lines.flatten = lines := by
  induction lines with
  | nil => rw [List.flatten_nil, readLines]
  | cons l lines ih =>
    obtain ⟨⟨body, rfl, hbody, hlen⟩, hrest⟩ := List.forall_mem_cons.mp h
    have hread := Assembler.fgets_line hbody hlen lines.flatten
    obtain ⟨c, cs, hcs⟩ : ∃ c cs, body ++ '\n' :: lines.flatten = c :: cs := by
      cases body with
      | nil | cons => exact ⟨_, _, rfl⟩
    grind [readLines]

/-! ## Intel HEX -/

def readIhexRecord : List Char → Option (List RivU8)
  | ':' :: cs => hexBytes (chomp cs)
  | _ => none

/-- The length field counts the data, behind which the checksum stands, and the
bytes add up to zero. -/
def IhexChecked : List RivU8 → Prop
  | n :: addr₁ :: addr₀ :: type :: rest =>
    rest.length = n.toNat + 1 ∧ byteSum (n :: addr₁ :: addr₀ :: type :: rest) = 0
  | _ => False

def WellFormedRecord (l : List Char) : Prop :=
  ∃ bytes, readIhexRecord l = some bytes ∧ IhexChecked bytes

/-! ## S-records -/

/-- An S-record: the digit of its kind and its bytes, the count first. -/
structure SRecord where
  kind : Char
  bytes : List RivU8
  deriving DecidableEq, Repr

def readSRecord : List Char → Option SRecord
  | 'S' :: k :: cs => (hexBytes (chomp cs)).map (SRecord.mk k)
  | _ => none

def SRecord.body (r : SRecord) : List RivU8 := r.bytes.tail

/-- The 32-bit address of an S3 record, most significant byte first. -/
def SRecord.addr (r : SRecord) : ℕ := r.body.take 4 |>.foldl (fun a b => 256 * a + b.toNat) 0

/-- What lies between the address of an S3 record and its checksum. -/
def SRecord.data (r : SRecord) : List RivU8 := (r.body.drop 4).dropLast

/-- The count is that of the bytes that follow it and the bytes add up to
`0xFF`; in an S3 record the count is that of the data and five more bytes. -/
structure SRecord.Checked (r : SRecord) : Prop where
  count : ∃ cnt, r.bytes = cnt :: r.body ∧ cnt.toNat = r.body.length ∧
    (r.kind = '3' → cnt.toNat = r.data.length + 5)
  sum : byteSum r.bytes = 0xFF

def s3Writes (recs : List SRecord) : List (WriteLog.Write RivU8) :=
  ((recs.filter fun r => r.kind = '3').map fun r => ⟨r.addr, r.data⟩).reverse

end Rivet.Image
