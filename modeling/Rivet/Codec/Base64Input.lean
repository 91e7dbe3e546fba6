import Rivet.Codec.Base64

/-!
# Texts that the base64 decoder takes

`riv_base64_decode` checks the first two characters of each group of four.  The
other two are skipped when they are outside the alphabet, padding ends nothing, and
characters behind the last whole group are not looked at.  The decoder therefore
produces bytes from many texts that are not base64.  Where the text is base64, the
bytes encode to it again, but for the low bits of the last letter before the padding,
which belong to no byte.
-/

namespace Rivet.Codec

variable {wb : WordBits}

/-! ## Base64 -/

/-- Groups of four letters, of which the last may end in one or two `=`. -/
def IsBase64 : List RivU8 → Prop
  | [] => True
  | c₀ :: c₁ :: c₂ :: c₃ :: rest =>
    IsLetter c₀ ∧ IsLetter c₁ ∧
      (IsLetter c₂ ∧ IsLetter c₃ ∧ IsBase64 rest ∨
        (IsLetter c₂ ∨ c₂ = b64Pad) ∧ c₃ = b64Pad ∧ rest = [])
  | _ => False

instance IsBase64.decidable : (text : List RivU8) → Decidable (IsBase64 text)
  | [] => isTrue trivial
  | [_] => isFalse id
  | [_, _] => isFalse id
  | [_, _, _] => isFalse id
  | c₀ :: c₁ :: c₂ :: c₃ :: rest =>
    have : Decidable (IsBase64 rest) := IsBase64.decidable rest
    inferInstanceAs (Decidable (IsLetter c₀ ∧ IsLetter c₁ ∧
      (IsLetter c₂ ∧ IsLetter c₃ ∧ IsBase64 rest ∨
        (IsLetter c₂ ∨ c₂ = b64Pad) ∧ c₃ = b64Pad ∧ rest = [])))

/-- The text with the bits of its last group cleared that belong to no byte. -/
def canonical : List RivU8 → List RivU8
  | c₀ :: c₁ :: c₂ :: c₃ :: rest =>
    if c₃ ≠ b64Pad then c₀ :: c₁ :: c₂ :: c₃ :: canonical rest
    else if c₂ ≠ b64Pad then [c₀, c₁, b64Char (sextet c₂ &&& 0x3C), c₃]
    else [c₀, b64Char (sextet c₁ &&& 0x30), c₂, c₃]
  | cs => cs

def LettersFirst : List RivU8 → Prop
  | c₀ :: c₁ :: _ :: _ :: rest => IsLetter c₀ ∧ IsLetter c₁ ∧ LettersFirst rest
  | _ => True

instance LettersFirst.decidable : (text : List RivU8) → Decidable (LettersFirst text)
  | [] => isTrue trivial
  | [_] => isTrue trivial
  | [_, _] => isTrue trivial
  | [_, _, _] => isTrue trivial
  | c₀ :: c₁ :: _ :: _ :: rest =>
    have : Decidable (LettersFirst rest) := LettersFirst.decidable rest
    inferInstanceAs (Decidable (IsLetter c₀ ∧ IsLetter c₁ ∧ LettersFirst rest))

/-- With room for the bytes, the decoder returns a count other than zero only for
base64, and encoding its result gives the text back up to bits without meaning. -/
def AcceptsOnlyBase64 (wb : WordBits) (text : List RivU8) : Prop :=
  ∀ (after out : List RivU8) (cap : BitVec wb.width), text.length / 4 * 3 ≤ cap.toNat →
    cap.toNat ≤ out.length →
      ∃ o out', rivBase64Decode (text ++ after) (BitVec.ofNat wb.width text.length) out cap =
          some (o, out') ∧
        (o ≠ 0 → IsBase64 text ∧
          ∀ (buf : List RivU8) (room : BitVec wb.width), text.length + 1 ≤ room.toNat →
            room.toNat ≤ buf.length →
              rivBase64Encode (out'.take o.toNat) o buf room =
                some (BitVec.ofNat wb.width text.length,
                  canonical text ++ 0 :: buf.drop (text.length + 1)))

/-! ## Bytes and letters -/

theorem b64Char_of_and {v s : RivU32} (h : v &&& 0x3F = s &&& 0x3F) : b64Char v = b64Char s := by
  rw [b64Char, b64Char, h]

/-- The word of a group, joined from the indices of its letters. -/
def joined (s₀ s₁ s₂ s₃ : RivU32) : RivU32 :=
  (s₀ &&& 0x3F) <<< 18 ||| (s₁ &&& 0x3F) <<< 12 ||| (s₂ &&& 0x3F) <<< 6 ||| (s₃ &&& 0x3F)

section Bits

variable (s₀ s₁ s₂ s₃ : RivU32)

theorem joined_first : (joined s₀ s₁ s₂ s₃ >>> 18) &&& 0x3F = s₀ &&& 0x3F := by
  ext i hi
  interval_cases i <;> simp [joined]

theorem joined_second : (joined s₀ s₁ s₂ s₃ >>> 12) &&& 0x3F = s₁ &&& 0x3F := by
  ext i hi
  interval_cases i <;> simp [joined]

theorem joined_third : (joined s₀ s₁ s₂ s₃ >>> 6) &&& 0x3F = s₂ &&& 0x3F := by
  ext i hi
  interval_cases i <;> simp [joined]

theorem joined_fourth : joined s₀ s₁ s₂ s₃ &&& 0x3F = s₃ &&& 0x3F := by
  ext i hi
  interval_cases i <;> simp [joined]

theorem joined_and : joined s₀ s₁ s₂ s₃ &&& 0xFFFFFF = joined s₀ s₁ s₂ s₃ := by
  ext i hi
  interval_cases i <;> simp [joined]

theorem b64Word_bytes (t : RivU32) :
    b64Word ((t >>> 16).setWidth 8) ((t >>> 8).setWidth 8) (t.setWidth 8) = t &&& 0xFFFFFF := by
  ext i hi
  interval_cases i <;> simp [b64Word]

theorem b64Word_joined :
    b64Word (firstByte s₀ s₁) (secondByte s₁ s₂) (thirdByte s₂ s₃) = joined s₀ s₁ s₂ s₃ := by
  have hmask (s : RivU32) : s &&& 0x3F &&& 0x3F = s &&& 0x3F := BitVec.and_assoc ..
  have hfirst := firstByte_of_word (joined s₀ s₁ s₂ s₃)
  have hsecond := secondByte_of_word (joined s₀ s₁ s₂ s₃)
  have hthird := thirdByte_of_word (joined s₀ s₁ s₂ s₃)
  simp only [joined_first, joined_second, joined_third, joined_fourth, firstByte, secondByte,
    thirdByte, hmask] at hfirst hsecond hthird
  rw [firstByte, secondByte, thirdByte, hfirst, hsecond, hthird, b64Word_bytes, joined_and]

theorem b64Char_joined : b64Char (joined s₀ s₁ s₂ s₃ >>> 18) = b64Char s₀ ∧
      b64Char (joined s₀ s₁ s₂ s₃ >>> 12) = b64Char s₁ ∧
      b64Char (joined s₀ s₁ s₂ s₃ >>> 6) = b64Char s₂ ∧ b64Char (joined s₀ s₁ s₂ s₃) = b64Char s₃ :=
  ⟨b64Char_of_and (joined_first ..), b64Char_of_and (joined_second ..),
    b64Char_of_and (joined_third ..), b64Char_of_and (joined_fourth ..)⟩

theorem firstByte_clear : firstByte s₀ (s₁ &&& 0x30) = firstByte s₀ s₁ := by
  rw [firstByte, firstByte, sextet_sshiftRight, sextet_sshiftRight]
  ext i hi
  interval_cases i <;> simp

theorem secondByte_clear : secondByte s₁ (s₂ &&& 0x3C) = secondByte s₁ s₂ := by
  rw [secondByte, secondByte, sextet_sshiftRight, sextet_sshiftRight]
  ext i hi
  interval_cases i <;> simp

theorem b64Word_pad :
    b64Word (firstByte s₀ s₁) (secondByte s₁ s₂) 0 = joined s₀ s₁ (s₂ &&& 0x3C) 0 := by
  have hzero : thirdByte (s₂ &&& 0x3C) 0 = 0 := by
    rw [thirdByte]
    ext i hi
    interval_cases i <;> simp
  rw [← b64Word_joined, secondByte_clear, hzero]

theorem b64Word_pads : b64Word (firstByte s₀ s₁) 0 0 = joined s₀ (s₁ &&& 0x30) 0 0 := by
  have hzero : secondByte (s₁ &&& 0x30) 0 = 0 := by
    rw [secondByte, sextet_sshiftRight]
    ext i hi
    interval_cases i <;> simp
  rw [← b64Word_joined, firstByte_clear, hzero]
  rfl

end Bits

/-! ## Texts -/

theorem decodeGroups_eq_none_iff (text : List RivU8) :
    decodeGroups text = none ↔ ¬LettersFirst text := by
  fun_induction decodeGroups text with
  | case1 c₀ c1 c2 c3 rest hletters ih =>
    rw [Option.map_eq_none_iff, ih, LettersFirst]
    simp [hletters]
  | case2 c₀ c1 c2 c3 rest hletters =>
    refine iff_of_true rfl fun hfirst => hletters ?_
    grind [LettersFirst]
  | case3 cs hshort => simp [LettersFirst]

theorem decodeGroups_base64 {text : List RivU8} (h : IsBase64 text) :
    ∃ bytes, decodeGroups text = some bytes ∧ base64Text bytes = canonical text ∧
      (canonical text).length = text.length := by
  fun_induction IsBase64 text with
  | case1 => exact ⟨[], rfl, rfl, rfl⟩
  | case2 c₀ c1 c2 c3 rest ih =>
    obtain ⟨h0, h1, hlast⟩ := h
    rw [decodeGroups, if_pos ⟨h0, h1⟩]
    obtain ⟨h2, h3, hrest⟩ | ⟨h2, rfl, rfl⟩ := hlast
    · obtain ⟨bytes, hbytes, htext, hlen⟩ := ih hrest
      have hne : c3 ≠ b64Pad := fun heq => not_letter_pad (heq ▸ h3)
      refine ⟨_, by rw [hbytes]; rfl, ?_, ?_⟩
      · rw [groupBytes_letters h2 h3, canonical, if_pos hne]
        simp_all [base64Text, b64Word_joined, b64Char_joined, b64Char_sextet]
      · rw [canonical, if_pos hne]
        simp [hlen]
    · obtain h2 | rfl := h2
      · have hne : c2 ≠ b64Pad := fun heq => not_letter_pad (heq ▸ h2)
        rw [canonical, if_neg (not_not.mpr rfl), if_pos hne, groupBytes_pad h2]
        refine ⟨_, rfl, ?_, rfl⟩
        simp only [List.append_nil, base64Text, b64Word_pad, b64Char_joined, b64Char_sextet, h0, h1]
      · rw [canonical, if_neg (not_not.mpr rfl), if_neg (not_not.mpr rfl), groupBytes_pads]
        refine ⟨_, rfl, ?_, rfl⟩
        simp only [List.append_nil, base64Text, b64Word_pads, b64Char_joined, b64Char_sextet, h0]
  | case3 cs hnil hshort => exact h.elim

/-! ## The decoder -/

section Decoder

variable {text : List RivU8} (hlen : text.length < 2 ^ wb.width) (after out : List RivU8)
    {cap : BitVec wb.width} (hcap : text.length / 4 * 3 ≤ cap.toNat)
    (hout : cap.toNat ≤ out.length)

include hlen hcap hout

theorem rivBase64Decode_some {bytes : List RivU8} (h : decodeGroups text = some bytes) :
    rivBase64Decode (text ++ after) (BitVec.ofNat wb.width text.length) out cap =
      some (BitVec.ofNat wb.width bytes.length, bytes ++ out.drop bytes.length) := by
  have hn : (BitVec.ofNat wb.width text.length).toNat = text.length := toNat_ofNat_of_lt hlen
  have hle := (length_decodeGroups h).1
  have hloop := decodeLoop_some h [] after (BitVec.ofNat wb.width text.length) cap
    (by simpa using hn) [] out (by simp; omega) (by omega)
  exact congrArg finish hloop

theorem rivBase64Decode_none (h : decodeGroups text = none) :
    ∃ out', rivBase64Decode (text ++ after) (BitVec.ofNat wb.width text.length) out cap =
      some (0, out') := by
  have hn : (BitVec.ofNat wb.width text.length).toNat = text.length := toNat_ofNat_of_lt hlen
  obtain ⟨out', hloop⟩ := decodeLoop_none h [] after (BitVec.ofNat wb.width text.length) cap
    (by simpa using hn) [] out (by simpa using hcap) (by omega)
  refine ⟨out', ?_⟩
  exact congrArg finish hloop

end Decoder

/-- The decoder produces bytes from base64 only, if the text is base64, or has no whole
group, or a whole group that does not begin with two letters. -/
theorem accepts_only_base64_iff {text : List RivU8} (hlen : text.length < 2 ^ wb.width) :
    AcceptsOnlyBase64 wb text ↔ IsBase64 text ∨ text.length < 4 ∨ ¬LettersFirst text := by
  constructor
  · intro haccepts
    by_contra hno
    rw [not_or, not_or, not_not, Nat.not_lt] at hno
    obtain ⟨hbase, hlong, hfirst⟩ := hno
    have hsome : decodeGroups text ≠ none := fun hnone =>
      (decodeGroups_eq_none_iff text).mp hnone hfirst
    obtain ⟨bytes, hbytes⟩ := Option.ne_none_iff_exists'.mp hsome
    obtain ⟨hle, hnil⟩ := length_decodeGroups hbytes
    have hroom : (BitVec.ofNat wb.width (text.length / 4 * 3)).toNat = text.length / 4 * 3 :=
      toNat_ofNat_of_lt (by omega)
    obtain ⟨o, out', hdecode, hresult⟩ := haccepts [] (List.replicate (text.length / 4 * 3) 0)
      (BitVec.ofNat wb.width (text.length / 4 * 3)) (by omega)
      (by rw [List.length_replicate]; omega)
    rw [rivBase64Decode_some hlen _ _ (by omega) (by rw [List.length_replicate]; omega) hbytes]
      at hdecode
    cases hdecode
    refine hbase (hresult fun hzero => ?_).1
    have hcount := congrArg BitVec.toNat hzero
    rw [toNat_ofNat_of_lt (by omega)] at hcount
    have hempty : bytes = [] := List.eq_nil_of_length_eq_zero (hcount.trans (BitVec.toNat_ofNat ..))
    exact absurd (hnil.mp hempty) (by omega)
  · intro hwhen after out cap hcap hout
    cases hdecode : decodeGroups text with
    | none =>
      obtain ⟨out', hzero⟩ := rivBase64Decode_none hlen after out hcap hout hdecode
      exact ⟨0, out', hzero, fun hne => absurd rfl hne⟩
    | some bytes =>
      obtain ⟨hle, hnil⟩ := length_decodeGroups hdecode
      refine ⟨_, _, rivBase64Decode_some hlen after out hcap hout hdecode, fun hne => ?_⟩
      have hfirst : LettersFirst text := by
        by_contra hno
        rw [(decodeGroups_eq_none_iff text).mpr hno] at hdecode
        cases hdecode
      have hlong : ¬text.length < 4 := fun hshort => hne (by rw [hnil.mpr hshort]; rfl)
      have hbase : IsBase64 text := by
        obtain hbase | hshort | hno := hwhen
        · exact hbase
        · exact absurd hshort hlong
        · exact absurd hfirst hno
      refine ⟨hbase, fun buf room hroom hbuf => ?_⟩
      obtain ⟨bytes', hbytes', htext, hsame⟩ := decodeGroups_base64 hbase
      cases hdecode.symm.trans hbytes'
      have hsize := length_base64Text bytes
      rw [htext, hsame] at hsize
      rw [toNat_ofNat_of_lt (by omega), List.take_left' rfl,
        rivBase64Encode_text bytes (by omega) buf room (by omega) hbuf, htext, hsize]

/-- `QR==`, whose last letter has bits that belong to no byte. -/
theorem accepts_only_base64_padded : AcceptsOnlyBase64 .bits32 [0x51, 0x52, 0x3D, 0x3D] :=
  (accepts_only_base64_iff (by decide)).mpr (.inl (by decide))

theorem not_accepts_only_base64 {text out out' : List RivU8} {cap o : BitVec wb.width}
    (hcap : text.length / 4 * 3 ≤ cap.toNat) (hout : cap.toNat ≤ out.length)
    (hbase : ¬IsBase64 text)
    (hdecode : rivBase64Decode text (BitVec.ofNat wb.width text.length) out cap = some (o, out'))
    (ho : o ≠ 0) : ¬AcceptsOnlyBase64 wb text := by
  intro haccepts
  obtain ⟨o', out'', hdecode', hresult⟩ := haccepts [] out cap hcap hout
  simp_all

/-- `QUI?` is decoded to two bytes, `QQ==QUJD` to four, and `QUJDR` to three. -/
theorem decodes_no_base64 :
    (rivBase64Decode [0x51, 0x55, 0x49, 0x3F] (4 : BitVec WordBits.bits64.width) [0, 0, 0] 3 =
        some (2, [0x41, 0x42, 0]) ∧ ¬AcceptsOnlyBase64 .bits64 [0x51, 0x55, 0x49, 0x3F]) ∧
    (rivBase64Decode [0x51, 0x51, 0x3D, 0x3D, 0x51, 0x55, 0x4A, 0x44]
        (8 : BitVec WordBits.bits64.width) [0, 0, 0, 0, 0, 0] 6 =
        some (4, [0x41, 0x41, 0x42, 0x43, 0, 0]) ∧
      ¬AcceptsOnlyBase64 .bits64 [0x51, 0x51, 0x3D, 0x3D, 0x51, 0x55, 0x4A, 0x44]) ∧
    (rivBase64Decode [0x51, 0x55, 0x4A, 0x44, 0x52] (5 : BitVec WordBits.bits64.width) [0, 0, 0] 3 =
        some (3, [0x41, 0x42, 0x43]) ∧
      ¬AcceptsOnlyBase64 .bits64 [0x51, 0x55, 0x4A, 0x44, 0x52]) := by
  have h₁ : rivBase64Decode [0x51, 0x55, 0x49, 0x3F] (4 : BitVec WordBits.bits64.width) [0, 0, 0] 3 =
      some (2, [0x41, 0x42, 0]) := by decide +kernel
  have h₂ : rivBase64Decode [0x51, 0x51, 0x3D, 0x3D, 0x51, 0x55, 0x4A, 0x44]
      (8 : BitVec WordBits.bits64.width) [0, 0, 0, 0, 0, 0] 6 =
      some (4, [0x41, 0x41, 0x42, 0x43, 0, 0]) := by decide +kernel
  have h₃ : rivBase64Decode [0x51, 0x55, 0x4A, 0x44, 0x52] (5 : BitVec WordBits.bits64.width)
      [0, 0, 0] 3 = some (3, [0x41, 0x42, 0x43]) := by decide +kernel
  exact ⟨⟨h₁, not_accepts_only_base64 (by decide) (by decide) (by decide) h₁ (by decide)⟩,
    ⟨h₂, not_accepts_only_base64 (by decide) (by decide) (by decide) h₂ (by decide)⟩,
    h₃, not_accepts_only_base64 (by decide) (by decide) (by decide) h₃ (by decide)⟩

end Rivet.Codec
