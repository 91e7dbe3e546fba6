import Mathlib
import Rivet.Disassembler.Listing

/-!
# The listing partitions the image

A decoder is *bounded* when it never reads outside its buffer and never claims
more bytes than the buffer has.  Over a bounded decoder the main loop splits
the image into consecutive lines, each printed with its own address.  Both
backends are bounded: every read of `x86_decode` follows a `NEED`.
-/

namespace Rivet.Disassembler

open CLib Assembler

/-- What the loop needs of one call: it reads inside the buffer only, and the
count it returns is positive and fits in the buffer. -/
def Within {α : Type} (avail : ℕ) (r : Except DecodeStop (ℕ × α)) : Prop :=
  r = .error .short ∨ ∃ n a, r = .ok (n, a) ∧ 0 < n ∧ n ≤ avail

def Decoder.Bounded (decode : Decoder) : Prop :=
  ∀ pc bytes, Within bytes.length (decode pc bytes)

/-- The argument `(int)(sz - i)` of the call of the decoder. -/
def availInt (n : ℕ) : ℕ := (BitVec.ofNat 32 n).toInt.toNat

/-- `decode` as the loop calls it, on the bytes it is told to be available. -/
def Decoder.atInt (decode : Decoder) : Decoder := fun pc bytes =>
  decode pc (bytes.take (availInt bytes.length))

def ListingLine.pc : ListingLine → RivU32
  | .insn pc _ _ => pc
  | .raw pc _ => pc

theorem ListingLine.text_starts (line : ListingLine) :
    showHexPad 8 line.pc.toNat ++ ":  ".toList <+: line.text := by
  cases line with
  | insn | raw => simp [ListingLine.text, ListingLine.pc]

/-! ## The conversion to `int` -/

theorem Decoder.Bounded.atInt {decode : Decoder} (h : decode.Bounded) : decode.atInt.Bounded := by
  intro pc bytes
  have hlen : (bytes.take (availInt bytes.length)).length ≤ bytes.length :=
    List.length_take_le' _ _
  rcases h pc (bytes.take (availInt bytes.length)) with hshort | ⟨n, a, hok, hpos, hle⟩
  · exact .inl hshort
  · exact .inr ⟨n, a, hok, hpos, hle.trans hlen⟩

/-! ## The loop over a bounded decoder -/

section Loop

variable {decode : Decoder}

theorem lineAt_spec (hdecode : decode.Bounded) (pc : RivU32) (b : RivU8) (rest : List RivU8) :
    ∃ line, lineAt decode pc b rest = .ok line ∧ line.pc = pc ∧ line.bytes ≠ [] ∧
      line.bytes ++ rest.drop (line.bytes.length - 1) = b :: rest := by
  rcases hdecode pc (b :: rest) with hshort | ⟨n, text, hok, hpos, hle⟩
  · refine ⟨.raw pc b, ?_, rfl, by simp [ListingLine.bytes], rfl⟩
    simp only [lineAt, hshort]
  · obtain ⟨m, rfl⟩ := Nat.exists_eq_succ_of_ne_zero hpos.ne'
    refine ⟨.insn pc (b :: rest.take m) text, ?_, rfl, by simp [ListingLine.bytes], ?_⟩
    all_goals simp_all [lineAt, ListingLine.bytes]

/-- The lines stand for consecutive non-empty ranges that make up the image,
and each carries the address of its first byte. -/
structure Partitions (base : RivU32) (image : List RivU8) (lines : List ListingLine) :
    Prop where
  covers : (lines.map ListingLine.bytes).flatten = image
  nonempty : ∀ line ∈ lines, line.bytes ≠ []
  addresses : ∀ before line after, lines = before ++ line :: after →
    line.pc = base + BitVec.ofNat 32 (before.map ListingLine.bytes).flatten.length

theorem Partitions.nil (base : RivU32) : Partitions base [] [] where
  covers := rfl
  nonempty := by simp
  addresses := by simp

theorem Partitions.cons {base : RivU32} {image : List RivU8} {line : ListingLine}
    {lines : List ListingLine} (hpc : line.pc = base) (hne : line.bytes ≠ [])
    (h : Partitions (base + BitVec.ofNat 32 line.bytes.length) image lines) :
    Partitions base (line.bytes ++ image) (line :: lines) where
  covers := by rw [List.map_cons, List.flatten_cons, h.covers]
  nonempty := List.forall_mem_cons.mpr ⟨hne, h.nonempty⟩
  addresses := by
    intro before line' after heq
    cases before with
    | nil => simp_all
    | cons first before =>
      rw [List.cons_append, List.cons.injEq] at heq
      simp [h.addresses before line' after heq.2, heq.1, BitVec.ofNat_add, BitVec.add_assoc]

theorem listing_partitions (hdecode : decode.Bounded) (base : RivU32) (image : List RivU8) :
    ∃ lines, listing decode base image = .ok lines ∧ Partitions base image lines := by
  induction hn : image.length using Nat.strong_induction_on generalizing base image with
  | h n ih =>
    cases image with
    | nil => exact ⟨[], by rw [listing], Partitions.nil base⟩
    | cons b rest =>
      obtain ⟨line, hline, hpc, hne, hsplit⟩ := lineAt_spec hdecode base b rest
      obtain ⟨lines, hlines, hpart⟩ :=
        ih (rest.drop (line.bytes.length - 1)).length
          (by rw [← hn, List.length_drop, List.length_cons]; omega)
          (base + BitVec.ofNat 32 line.bytes.length) _ rfl
      refine ⟨line :: lines, ?_, ?_⟩
      · rw [listing, hline, Exec.ok_bind, hlines, Exec.ok_bind]
      · rw [← hsplit]
        exact Partitions.cons hpc hne hpart

end Loop

/-! ## Reads of the decoders -/

variable {bytes : List RivU8} {avail idx n : ℕ} {α β : Type}

theorem readByte_of_lt {i : ℕ} (h : i < bytes.length) :
    ∃ b, readByte bytes i = .ok b := by simp_all [readByte]

theorem readU32_of_le (h : idx + 4 ≤ bytes.length) : ∃ w, readU32 bytes idx = .ok w := by
  obtain ⟨b₀, h0⟩ := readByte_of_lt (show idx < bytes.length by omega)
  obtain ⟨b1, h1⟩ := readByte_of_lt (show idx + 1 < bytes.length by omega)
  obtain ⟨b2, h2⟩ := readByte_of_lt (show idx + 2 < bytes.length by omega)
  obtain ⟨b3, h3⟩ := readByte_of_lt (show idx + 3 < bytes.length by omega)
  simp [readU32, h0, h1, h2, h3, Exec.ok_bind]

theorem need_bind {P : Except DecodeStop β → Prop} {f : Unit → Except DecodeStop β}
    (hshort : P (.error .short)) (h : idx + n ≤ bytes.length → P (f ())) :
    P (need bytes idx n >>= f) := by
  by_cases hn : idx + n ≤ bytes.length
  · rw [need_eq_ok hn]
    exact h hn
  simp_all [need]

theorem Within.short (avail : ℕ) :
    Within avail (.error .short : Except DecodeStop (ℕ × α)) := .inl rfl

theorem Within.ok (a : α) (hpos : 0 < n) (hle : n ≤ avail) :
    Within avail (.ok (n, a) : Except DecodeStop (ℕ × α)) := .inr ⟨n, a, rfl, hpos, hle⟩

theorem Within.map {r : Except DecodeStop (ℕ × α)} (h : Within avail r) (g : α → β) :
    Within avail ((fun x => (x.1, g x.2)) <$> r) := by
  rcases h with rfl | ⟨n, a, rfl, hpos, hle⟩
  · exact Within.short avail
  · exact Within.ok (g a) hpos hle

theorem rvDecode_within (pc : RivU32) (bytes : List RivU8) :
    Within bytes.length (Riscv32.rvDecode pc bytes) := by
  apply need_bind (Within.short _)
  grind [Exec.ok_bind, Within.ok, readU32_of_le]

end Disassembler

namespace X86

open Disassembler

/-! ## Every path of `x86_decode` -/

/-- A read that keeps the count of consumed bytes and the bytes that follow in
step with the bytes available. -/
def Keeps {α : Type} (avail : ℕ) (r : Except DecodeStop (Taken α)) : Prop :=
  r = .error .short ∨
    ∃ idx rest v, r = .ok (idx, rest, v) ∧ 0 < idx ∧ idx + rest.length = avail

section Reads

variable {α β : Type} {avail idx : ℕ} {rest : List RivU8}

theorem Keeps.short : Keeps avail (.error .short : Except DecodeStop (Taken α)) :=
  .inl rfl

theorem Keeps.ok (v : α) (hpos : 0 < idx) (h : idx + rest.length = avail) :
    Keeps avail (.ok (idx, rest, v)) := .inr ⟨idx, rest, v, rfl, hpos, h⟩

variable {r : Except DecodeStop (Taken α)}

theorem Keeps.bind_within {f : Taken α → Except DecodeStop (ℕ × β)} (h : Keeps avail r)
    (hf : ∀ idx rest v, 0 < idx → idx + rest.length = avail →
      Within avail (f (idx, rest, v))) : Within avail (r >>= f) := by
  rcases h with rfl | ⟨idx, rest, v, rfl, hpos, hlen⟩
  all_goals simp_all [Within.short]

theorem Keeps.bind {f : Taken α → Except DecodeStop (Taken β)} (h : Keeps avail r)
    (hf : ∀ idx rest v, 0 < idx → idx + rest.length = avail →
      Keeps avail (f (idx, rest, v))) : Keeps avail (r >>= f) := by
  rcases h with rfl | ⟨idx, rest, v, rfl, hpos, hlen⟩
  · exact Keeps.short
  · exact hf idx rest v hpos hlen

variable (hpos : 0 < idx) (hlen : idx + rest.length = avail)
include hpos hlen

theorem takeByte_keeps : Keeps avail (takeByte idx rest) := by
  apply need_bind Keeps.short
  grind [Exec.ok_bind, Keeps.ok, readByte_of_lt]

theorem takeImm32_keeps : Keeps avail (takeImm32 idx rest) := by
  apply need_bind Keeps.short
  grind [Exec.ok_bind, Keeps.ok, readU32_of_le]

theorem takeImm64_keeps : Keeps avail (takeImm64 idx rest) := by
  apply need_bind Keeps.short
  intro h
  obtain ⟨lo, hlo⟩ := readU32_of_le (show 0 + 4 ≤ rest.length by omega)
  obtain ⟨hi, hhi⟩ := readU32_of_le (show 4 + 4 ≤ rest.length by omega)
  simp_all [Exec.ok_bind, Keeps.ok]

theorem takeDisp_keeps (mod : ℕ) : Keeps avail (takeDisp mod idx rest) := by
  unfold takeDisp
  split
  · apply (takeByte_keeps hpos hlen).bind
    simp_all [Keeps.ok]
  split
  · apply (takeImm32_keeps hpos hlen).bind
    simp_all [Keeps.ok]
  · exact Keeps.ok _ hpos hlen

theorem decodeMem_keeps (rex mod rmf : ℕ) : Keeps avail (decodeMem rex mod rmf idx rest) := by
  unfold decodeMem
  split
  · apply (takeByte_keeps hpos hlen).bind
    intro idx rest sib hpos hlen
    dsimp only
    split
    · apply (takeImm32_keeps hpos hlen).bind
      simp_all [Keeps.ok]
    · apply (takeDisp_keeps hpos hlen mod).bind
      simp_all [Keeps.ok]
  · split
    · apply (takeImm32_keeps hpos hlen).bind
      simp_all [Keeps.ok]
    · apply (takeDisp_keeps hpos hlen mod).bind
      simp_all [Keeps.ok]

theorem within_ok (a : β) : Within avail (.ok (idx, a) : Except DecodeStop (ℕ × β)) :=
  Within.ok a hpos (by omega)

theorem takeByte_within (g : Taken RivU8 → β) :
    Within avail (takeByte idx rest >>= fun taken => .ok (taken.1, g taken)) := by
  apply (takeByte_keeps hpos hlen).bind_within
  grind [within_ok]

theorem takeImm32_within (g : Taken RivI32 → β) :
    Within avail (takeImm32 idx rest >>= fun taken => .ok (taken.1, g taken)) := by
  apply (takeImm32_keeps hpos hlen).bind_within
  grind [within_ok]

theorem decodeModrm_within (rex : ℕ) (info : OpInfo) :
    Within avail (decodeModrm rex idx info rest) := by
  apply (takeByte_keeps hpos hlen).bind_within
  intro idx rest modrm hpos hlen
  dsimp only
  split
  · apply (decodeMem_keeps hpos hlen _ _ _).bind_within
    intro idx rest mem hpos hlen
    split
    · exact takeImm32_within hpos hlen _
    split
    · exact takeByte_within hpos hlen _
    grind [within_ok]
  · split
    · exact within_ok hpos hlen _
    split
    · exact takeImm32_within hpos hlen _
    split
    · exact takeByte_within hpos hlen _
    split <;> exact within_ok hpos hlen _

theorem decodeTwoByte_within (pc : RivU32) (rex : ℕ) :
    Within avail (decodeTwoByte pc rex idx rest) := by
  apply (takeByte_keeps hpos hlen).bind_within
  intro idx rest o2 hpos hlen
  dsimp only
  split
  · exact within_ok hpos hlen _
  split
  · exact within_ok hpos hlen _
  split
  · exact within_ok hpos hlen _
  split
  · exact takeImm32_within hpos hlen _
  split
  · exact takeByte_within hpos hlen _
  · exact within_ok hpos hlen _

theorem decodeOp_within (pc : RivU32) (rex : ℕ) (op : RivU8) :
    Within avail (decodeOp pc rex idx op rest) := by
  unfold decodeOp
  dsimp only
  split
  · exact within_ok hpos hlen _
  split
  · exact takeByte_within hpos hlen _
  split
  · exact takeImm32_within hpos hlen _
  split
  · exact within_ok hpos hlen _
  split
  · exact within_ok hpos hlen _
  split
  · exact takeByte_within hpos hlen _
  split
  · exact takeByte_within hpos hlen _
  split
  · exact within_ok hpos hlen _
  split
  · exact within_ok hpos hlen _
  split
  · apply (takeImm64_keeps hpos hlen).bind_within
    intro idx rest v hpos hlen
    exact within_ok hpos hlen _
  split
  · exact decodeTwoByte_within hpos hlen pc rex
  split
  · exact decodeModrm_within hpos hlen rex _
  · exact within_ok hpos hlen _

end Reads

theorem x86Decode_within (pc : RivU32) (bytes : List RivU8) :
    Within bytes.length (x86Decode pc bytes) := by
  apply need_bind (Within.short _)
  intro h
  obtain ⟨b₀, h0⟩ := readByte_of_lt (show 0 < bytes.length by omega)
  rw [h0, Exec.ok_bind]
  split
  · apply need_bind (Within.short _)
    intro h
    obtain ⟨op, hop⟩ := readByte_of_lt (show 1 < bytes.length by omega)
    simp_all [Exec.ok_bind, decodeOp_within]
  simp_all [decodeOp_within]

end X86

namespace Disassembler

open Assembler

theorem archDecode_bounded (arch : Arch) : (archDecode arch).Bounded := by
  intro pc bytes
  cases arch with
  | riscv32 => exact (rvDecode_within pc bytes).map _
  | x86_64 => exact (X86.x86Decode_within pc bytes).map _

/-- For either architecture, on any image and from any base, the loop ends with
lines that partition the image, printed at their addresses, and no call of the
decoder reads outside the image or returns more than it was given. -/
theorem disassembly_partitions (arch : Arch) (base : RivU32) (image : List RivU8) :
    (∃ lines, listing (archDecode arch).atInt base image = .ok lines ∧ Partitions base image lines ∧
      ∀ line ∈ lines, showHexPad 8 line.pc.toNat ++ ":  ".toList <+: line.text) ∧
    ∀ (pc : RivU32) (bytes : List RivU8), archDecode arch pc bytes ≠ .error .fault ∧
        ∀ n text, archDecode arch pc bytes = .ok (n, text) → 0 < n ∧ n ≤ bytes.length := by
  constructor
  · obtain ⟨lines, hlines, hpart⟩ :=
      listing_partitions (archDecode_bounded arch).atInt base image
    exact ⟨lines, hlines, hpart, fun line _ => line.text_starts⟩
  · intro pc bytes
    rcases archDecode_bounded arch pc bytes with hshort | ⟨n, text, hok, hpos, hle⟩
    · rw [hshort]
      simp
    rw [hok]
    constructor
    · simp
    · intro n' text' heq
      obtain ⟨rfl, -⟩ := Prod.mk.inj (Except.ok.inj heq)
      exact ⟨hpos, hle⟩

end Rivet.Disassembler
