import Mathlib
import Rivet.Core
import Rivet.Support.Exec

/-!
# Base64

`base64.h` turns three bytes into four characters, with `=` where the last group
has fewer than three bytes.  The encoder and the decoder are loops over buffers;
an access outside a buffer is an error of its own here, so a call that returns has
stayed inside.

The text of some bytes is given by recursion on groups of three, and the bytes of
some text by recursion on groups of four.  The encoder writes this text, the decoder
reads these bytes, and the bytes of the text of some bytes are these bytes.
-/

namespace Rivet.Codec

open List BitVec

variable {n : ℕ} {c : RivU8} {text : List RivU8}

variable {wb : WordBits}

/-! ## Buffers -/

/-- How a loop ends early: at a `return`, or at an access outside a buffer. -/
inductive Stop (wb : WordBits) where
  | returned (o : BitVec wb.width) (out : List RivU8)
  | fault

/-- An output buffer and the index of the next byte. -/
structure Cursor (wb : WordBits) where
  o : BitVec wb.width
  out : List RivU8

/-- `out[o++] = b`. -/
def Cursor.put (c : Cursor wb) (b : RivU8) : Except (Stop wb) (Cursor wb) :=
  if c.o.toNat < c.out.length then .ok ⟨c.o + 1, c.out.set c.o.toNat b⟩ else .error .fault

def readAt (input : List RivU8) (i : ℕ) : Except (Stop wb) RivU8 :=
  match input[i]? with
  | some b => .ok b
  | none => .error .fault

/-! ## `base64.h` -/

def rivB64Alphabet : List RivU8 :=
  "ABCDEFGHIJKLMNOPQRSTUVWXYZabcdefghijklmnopqrstuvwxyz0123456789+/".toList.map
    fun c => BitVec.ofNat 8 c.toNat

/-- `riv_b64_alphabet[v & 0x3F]`. -/
def b64Char (v : RivU32) : RivU8 := rivB64Alphabet.getD (v &&& 0x3F).toNat 0

/-- The character `=`. -/
def b64Pad : RivU8 := 61

def rivBase64EncodedSize (n : BitVec wb.width) : BitVec wb.width := ((n + 2) / 3) * 4

def rivBase64DecodedMax (n : BitVec wb.width) : BitVec wb.width := (n / 4) * 3

/-- The loop of `riv_base64_encode`.  The counter `i` is a multiple of three below
`n`, and the largest word is a multiple of three, so that `i + 3` does not wrap. -/
def encodeLoop (input : List RivU8) (n : BitVec wb.width) (i : ℕ) (c : Cursor wb) :
    Except (Stop wb) (Cursor wb) :=
  if i < n.toNat then do
    let a ← readAt input i
    let t : RivU32 := a.setWidth 32 <<< (16 : ℕ)
    let t ← (if i + 1 < n.toNat then do
        let b ← readAt input (i + 1)
        pure (t ||| b.setWidth 32 <<< (8 : ℕ))
      else pure t)
    let t ← (if i + 2 < n.toNat then do
        let b ← readAt input (i + 2)
        pure (t ||| b.setWidth 32)
      else pure t)
    let c ← c.put (b64Char (t >>> 18))
    let c ← c.put (b64Char (t >>> 12))
    let c ← c.put (if i + 1 < n.toNat then b64Char (t >>> 6) else b64Pad)
    let c ← c.put (if i + 2 < n.toNat then b64Char t else b64Pad)
    encodeLoop input n (i + 3) c
  else pure c
termination_by n.toNat - i

/-- A finished call: the value returned and the output buffer, or nothing where it
has left a buffer. -/
def finish : Except (Stop wb) (Cursor wb) → Option (BitVec wb.width × List RivU8)
  | .ok c => some (c.o, c.out)
  | .error (.returned o out) => some (o, out)
  | .error .fault => none

def rivBase64Encode (input : List RivU8) (n : BitVec wb.width) (out : List RivU8)
    (cap : BitVec wb.width) : Option (BitVec wb.width × List RivU8) :=
  finish <|
    if cap < rivBase64EncodedSize n + 1 then .error (.returned 0 out)
    else do
      let c ← encodeLoop input n 0 ⟨0, out⟩
      let last ← c.put 0
      pure ⟨c.o, last.out⟩

/-- The value of a character read through a pointer to `char`.  Where `char` is
unsigned, the bytes from 128 on lie outside the alphabet as well. -/
def charInt (c : RivU8) : RivI32 := c.signExtend 32

def rivB64Val (c : RivI32) : RivI32 :=
  if 65 ≤ c.toInt ∧ c.toInt ≤ 90 then c - 65
  else if 97 ≤ c.toInt ∧ c.toInt ≤ 122 then c - 97 + 26
  else if 48 ≤ c.toInt ∧ c.toInt ≤ 57 then c - 48 + 52
  else if c = 43 then 62
  else if c = 47 then 63
  else -1

/-- `if (o >= cap) return o; out[o++] = b`. -/
def Cursor.putBelow (c : Cursor wb) (cap : BitVec wb.width) (b : RivU8) :
    Except (Stop wb) (Cursor wb) :=
  if cap ≤ c.o then .error (.returned c.o c.out) else c.put b

/-- The loop of `riv_base64_decode`.  The counter `i` is a multiple of four, so
that neither `i + 3` nor `i + 4` wraps. -/
def decodeLoop (input : List RivU8) (n cap : BitVec wb.width) (i : ℕ) (c : Cursor wb) :
    Except (Stop wb) (Cursor wb) :=
  if i + 3 < n.toNat then do
    let c₀ ← readAt input i
    let c₁ ← readAt input (i + 1)
    let c₂ ← readAt input (i + 2)
    let c₃ ← readAt input (i + 3)
    let v₀ := rivB64Val (charInt c₀)
    let v₁ := rivB64Val (charInt c₁)
    let v₂ := if c₂ = b64Pad then 0 else rivB64Val (charInt c₂)
    let v₃ := if c₃ = b64Pad then 0 else rivB64Val (charInt c₃)
    if v₀.toInt < 0 ∨ v₁.toInt < 0 then .error (.returned 0 c.out)
    else do
      let c ← c.putBelow cap (((v₀ <<< 2) ||| v₁.sshiftRight 4).setWidth 8)
      let c ← (if c₂ ≠ b64Pad ∧ 0 ≤ v₂.toInt then
          c.putBelow cap (((v₁ <<< 4) ||| v₂.sshiftRight 2).setWidth 8)
        else pure c)
      let c ← (if c₃ ≠ b64Pad ∧ 0 ≤ v₃.toInt then
          c.putBelow cap (((v₂ <<< 6) ||| v₃).setWidth 8)
        else pure c)
      decodeLoop input n cap (i + 4) c
  else pure c
termination_by n.toNat - i

def rivBase64Decode (input : List RivU8) (n : BitVec wb.width) (out : List RivU8)
    (cap : BitVec wb.width) : Option (BitVec wb.width × List RivU8) :=
  finish (decodeLoop input n cap 0 ⟨0, out⟩)

/-! ## The text of some bytes -/

def b64Word (a b c : RivU8) : RivU32 :=
  (a.setWidth 32 <<< (16 : ℕ)) ||| (b.setWidth 32 <<< (8 : ℕ)) ||| c.setWidth 32

/-- Groups of three bytes as four characters, the last group padded. -/
def base64Text : List RivU8 → List RivU8
  | [] => []
  | [a] => [b64Char (b64Word a 0 0 >>> 18), b64Char (b64Word a 0 0 >>> 12), b64Pad, b64Pad]
  | [a, b] => [b64Char (b64Word a b 0 >>> 18), b64Char (b64Word a b 0 >>> 12),
      b64Char (b64Word a b 0 >>> 6), b64Pad]
  | a :: b :: c :: rest =>
    b64Char (b64Word a b c >>> 18) :: b64Char (b64Word a b c >>> 12) ::
      b64Char (b64Word a b c >>> 6) :: b64Char (b64Word a b c) :: base64Text rest

theorem length_base64Text (bytes : List RivU8) :
    (base64Text bytes).length = (bytes.length + 2) / 3 * 4 := by
  induction bytes using base64Text.induct with
  | case1 | case2 | case3 => simp [base64Text]
  | case4 a b c rest ih =>
    simp only [base64Text, length_cons, ih]
    omega

/-! ## Cursors -/

theorem toNat_ofNat_of_lt {w : ℕ} (h : n < 2 ^ w) : (BitVec.ofNat w n).toNat = n := by
  rw [toNat_ofNat, Nat.mod_eq_of_lt h]

def Cursor.behind (written free : List RivU8) : Cursor wb :=
  ⟨BitVec.ofNat wb.width written.length, written ++ free⟩

theorem Cursor.put_behind (written free : List RivU8) (x b : RivU8)
    (h : written.length < 2 ^ wb.width) : (Cursor.behind written (x :: free) : Cursor wb).put b =
      .ok (Cursor.behind (written ++ [b]) free) := by
  have ho : (BitVec.ofNat wb.width written.length).toNat = written.length :=
    toNat_ofNat_of_lt h
  simp_all [Cursor.put, Cursor.behind, ofNat_add]

theorem Cursor.putBelow_behind (written free : List RivU8) (x b : RivU8)
    (cap : BitVec wb.width) (h : written.length < cap.toNat) :
    (Cursor.behind written (x :: free) : Cursor wb).putBelow cap b =
      .ok (Cursor.behind (written ++ [b]) free) := by
  have hlt : written.length < 2 ^ wb.width := h.trans cap.isLt
  have hcap : ¬cap ≤ (Cursor.behind written (x :: free) : Cursor wb).o := by
    rw [le_def, Cursor.behind, toNat_ofNat_of_lt hlt]
    exact Nat.not_le.mpr h
  simp_all [Cursor.putBelow, Cursor.put_behind]

theorem readAt_self (before after : List RivU8) (b : RivU8) :
    (readAt (before ++ b :: after) before.length : Except (Stop wb) RivU8) = .ok b := by
  simp [readAt]

theorem readAt_append (before after : List RivU8) (b : RivU8) (k : ℕ) (h : after[k]? = some b) :
    (readAt (before ++ after) (before.length + k) : Except (Stop wb) RivU8) = .ok b := by
  grind [readAt, Nat.add_sub_cancel_left]

/-! ## The encoder -/

theorem b64Word_pair (a b : RivU8) :
    a.setWidth 32 <<< (16 : ℕ) ||| b.setWidth 32 <<< (8 : ℕ) = b64Word a b 0 := by simp [b64Word]

theorem b64Word_single (a : RivU8) : a.setWidth 32 <<< (16 : ℕ) = b64Word a 0 0 := by simp [b64Word]

theorem exists_four {free : List RivU8} {k : ℕ} (h : k + 4 ≤ free.length) :
    ∃ x0 x1 x2 x3 tail, free = x0 :: x1 :: x2 :: x3 :: tail ∧ k ≤ tail.length := by
  obtain ⟨x0, l, rfl⟩ := exists_cons_of_length_pos (l := free) (by omega)
  obtain ⟨x1, l, rfl⟩ := exists_cons_of_length_pos (l := l) (by simp at h; omega)
  obtain ⟨x2, l, rfl⟩ := exists_cons_of_length_pos (l := l) (by simp at h; omega)
  obtain ⟨x3, l, rfl⟩ := exists_cons_of_length_pos (l := l) (by simp at h; omega)
  grind

theorem put_four (written tail : List RivU8) (x₀ x₁ x₂ x₃ b₀ b₁ b₂ b₃ : RivU8)
    (h : written.length + 4 ≤ 2 ^ wb.width) (k : Cursor wb → Except (Stop wb) (Cursor wb)) :
    (do
      let c ← (Cursor.behind written (x₀ :: x₁ :: x₂ :: x₃ :: tail)).put b₀
      let c ← c.put b₁
      let c ← c.put b₂
      let c ← c.put b₃
      k c) = k (Cursor.behind (written ++ [b₀, b₁, b₂, b₃]) tail) := by
  have hlen (l : List RivU8) (hl : l.length < 4) : (written ++ l).length < 2 ^ wb.width := by
    rw [List.length_append]
    omega
  rw [Cursor.put_behind _ _ _ _ (by omega), Exec.ok_bind,
    Cursor.put_behind _ _ _ _ (hlen _ (by simp)), Exec.ok_bind, List.append_assoc,
    Cursor.put_behind _ _ _ _ (hlen _ (by simp)), Exec.ok_bind, List.append_assoc,
    Cursor.put_behind _ _ _ _ (hlen _ (by simp)), Exec.ok_bind, List.append_assoc]
  rfl

theorem encodeLoop_text (rest before : List RivU8) (n : BitVec wb.width)
    (hn : n.toNat = before.length + rest.length) (written free : List RivU8)
    (hfree : (base64Text rest).length ≤ free.length)
    (hsize : written.length + (base64Text rest).length ≤ 2 ^ wb.width) :
    encodeLoop (before ++ rest) n before.length (Cursor.behind written free) =
      .ok (Cursor.behind (written ++ base64Text rest) (free.drop (base64Text rest).length)) := by
  induction rest using base64Text.induct generalizing before written free with
  | case1 =>
    have hend : ¬before.length < n.toNat := by rw [hn]; exact Nat.lt_irrefl _
    rw [encodeLoop, if_neg hend, base64Text, List.append_nil]
    rfl
  | case2 a =>
    rw [length_singleton] at hn
    have h0 : before.length < n.toNat := by omega
    have h1 : ¬before.length + 1 < n.toNat := by omega
    have h2 : ¬before.length + 2 < n.toNat := by omega
    have hend : ¬before.length + 3 < n.toNat := by omega
    obtain ⟨x0, x1, x2, x3, tail, rfl, -⟩ := exists_four (k := 0) hfree
    rw [encodeLoop, if_pos h0]
    simp only [readAt_self, h1, h2, if_false, Exec.ok_bind, pure_bind]
    rw [put_four _ _ _ _ _ _ _ _ _ _ hsize, encodeLoop, if_neg hend, b64Word_single]
    rfl
  | case3 a b =>
    have hlen : [a, b].length = 2 := rfl
    have h0 : before.length < n.toNat := by omega
    have h1 : before.length + 1 < n.toNat := by omega
    have h2 : ¬before.length + 2 < n.toNat := by omega
    have hend : ¬before.length + 3 < n.toNat := by omega
    have hread : (readAt (before ++ [a, b]) (before.length + 1) : Except (Stop wb) RivU8) = .ok b :=
      readAt_append before [a, b] b 1 rfl
    obtain ⟨x0, x1, x2, x3, tail, rfl, -⟩ := exists_four (k := 0) hfree
    rw [encodeLoop, if_pos h0]
    simp only [readAt_self, hread, h1, h2, if_true, if_false, Exec.ok_bind, pure_bind]
    rw [put_four _ _ _ _ _ _ _ _ _ _ hsize, encodeLoop, if_neg hend, b64Word_pair]
    rfl
  | case4 a b c rest ih =>
    have hlen : (a :: b :: c :: rest).length = rest.length + 3 := rfl
    have h0 : before.length < n.toNat := by omega
    have h1 : before.length + 1 < n.toNat := by omega
    have h2 : before.length + 2 < n.toNat := by omega
    have hread (k : ℕ) (x : RivU8) (hk : (a :: b :: c :: rest)[k]? = some x) :
        (readAt (before ++ a :: b :: c :: rest) (before.length + k) : Except (Stop wb) RivU8) =
          .ok x :=
      readAt_append before (a :: b :: c :: rest) x k hk
    rw [base64Text] at hfree hsize ⊢
    obtain ⟨x0, x1, x2, x3, tail, rfl, htail⟩ := exists_four (k := (base64Text rest).length) hfree
    simp only [length_cons] at hsize
    rw [encodeLoop, if_pos h0]
    simp only [readAt_self, hread 1 b rfl, hread 2 c rfl, h1, h2, if_true, Exec.ok_bind, pure_bind]
    rw [put_four _ _ _ _ _ _ _ _ _ _ (by omega)]
    have hnext := ih (before ++ [a, b, c]) (by rw [List.length_append, hn, hlen]; simp; omega)
      (written ++ [b64Char (b64Word a b c >>> 18), b64Char (b64Word a b c >>> 12),
        b64Char (b64Word a b c >>> 6), b64Char (b64Word a b c)])
      tail htail (by rw [List.length_append]; simp; omega)
    rw [List.length_append, List.append_assoc, List.append_assoc] at hnext
    exact hnext

/-! ## Letters -/

def IsLetter (c : RivU8) : Prop := c ∈ rivB64Alphabet

instance IsLetter.decidable (c : RivU8) : Decidable (IsLetter c) :=
  inferInstanceAs (Decidable (c ∈ rivB64Alphabet))

def sextet (c : RivU8) : RivU32 := BitVec.ofNat 32 (rivB64Alphabet.idxOf c)

theorem sextet_lt (v : RivU32) : (v &&& 0x3F).toNat < 64 := by
  simp [toNat_and, Nat.and_le_right, Nat.lt_succ_of_le]

theorem isLetter_b64Char (v : RivU32) : IsLetter (b64Char v) := by
  have htable : ∀ k < 64, IsLetter (rivB64Alphabet.getD k 0) := by decide +kernel
  exact htable _ (sextet_lt v)

theorem sextet_b64Char (v : RivU32) : sextet (b64Char v) = v &&& 0x3F := by
  have htable : ∀ k < 64, sextet (rivB64Alphabet.getD k 0) = BitVec.ofNat 32 k := by
    decide +kernel
  rw [b64Char, htable _ (sextet_lt v), ofNat_toNat, setWidth_eq]

theorem b64Char_sextet (h : IsLetter c) : b64Char (sextet c) = c := by
  have htable : ∀ c ∈ rivB64Alphabet, b64Char (sextet c) = c := by decide +kernel
  exact htable c h

theorem rivB64Val_letter (h : IsLetter c) : rivB64Val (charInt c) = sextet c &&& 0x3F := by
  have htable : ∀ c ∈ rivB64Alphabet, rivB64Val (charInt c) = sextet c &&& 0x3F := by
    decide +kernel
  exact htable c h

theorem rivB64Val_of_not_letter (h : ¬IsLetter c) : (rivB64Val (charInt c)).toInt < 0 := by
  have htable : ∀ c : RivU8, ¬IsLetter c → (rivB64Val (charInt c)).toInt < 0 := by decide +kernel
  exact htable c h

theorem not_letter_pad : ¬IsLetter b64Pad := by decide

theorem sextet_nonneg (v : RivU32) : 0 ≤ (v &&& 0x3F).toInt := by
  have hlt := sextet_lt v
  rw [toInt_eq_toNat_of_lt (by omega)]
  exact Int.natCast_nonneg _

theorem sextet_sshiftRight (v : RivU32) (k : ℕ) :
    (v &&& 0x3F).sshiftRight k = (v &&& 0x3F) >>> k := by
  apply sshiftRight_eq_of_msb_false
  rw [msb_and]
  exact Bool.and_false _

/-! ## Groups -/

/-- `v2` and `v3`: padding counts as zero. -/
def paddedVal (c : RivU8) : RivI32 := if c = b64Pad then 0 else rivB64Val (charInt c)

def Counts (c : RivU8) : Prop := c ≠ b64Pad ∧ 0 ≤ (paddedVal c).toInt

instance Counts.decidable (c : RivU8) : Decidable (Counts c) :=
  inferInstanceAs (Decidable (_ ∧ _))

/-- What a group is decoded to that begins with the letters of two indices. -/
def groupBytes (s₀ s₁ : RivU32) (c₂ c₃ : RivU8) : List RivU8 :=
  [(((s₀ &&& 0x3F) <<< 2) ||| (s₁ &&& 0x3F).sshiftRight 4).setWidth 8] ++
    (if Counts c₂ then
      [(((s₁ &&& 0x3F) <<< 4) ||| (paddedVal c₂).sshiftRight 2).setWidth 8] else []) ++
    (if Counts c₃ then [((paddedVal c₂ <<< 6) ||| paddedVal c₃).setWidth 8] else [])

/-- What a text is decoded to, if all its groups begin with letters. -/
def decodeGroups : List RivU8 → Option (List RivU8)
  | c₀ :: c₁ :: c₂ :: c₃ :: rest =>
    if IsLetter c₀ ∧ IsLetter c₁ then
      (decodeGroups rest).map (groupBytes (sextet c₀) (sextet c₁) c₂ c₃ ++ ·)
    else none
  | _ => some []

theorem length_groupBytes (s₀ s₁ : RivU32) (c₂ c₃ : RivU8) :
    1 ≤ (groupBytes s₀ s₁ c₂ c₃).length ∧ (groupBytes s₀ s₁ c₂ c₃).length ≤ 3 := by
  rw [groupBytes]
  by_cases h2 : Counts c₂ <;> by_cases h3 : Counts c₃ <;> simp [h2, h3]

theorem length_lt_four {cs : List RivU8}
    (h : ∀ c₀ c₁ c₂ c₃ rest, cs = c₀ :: c₁ :: c₂ :: c₃ :: rest → False) : cs.length < 4 := by
  grind [exists_four]

theorem length_decodeGroups {bytes : List RivU8} (h : decodeGroups text = some bytes) :
    bytes.length ≤ text.length / 4 * 3 ∧ (bytes = [] ↔ text.length < 4) := by
  fun_induction decodeGroups text generalizing bytes with
  | case1 c₀ c₁ c₂ c₃ rest hletters ih =>
    obtain ⟨tail, htail, rfl⟩ := Option.map_eq_some_iff.mp h
    have hgroup := length_groupBytes (sextet c₀) (sextet c₁) c₂ c₃
    grind
  | case2 c₀ c₁ c₂ c₃ rest hletters => cases h
  | case3 cs hshort =>
    cases h
    exact ⟨Nat.zero_le _, iff_of_true rfl (length_lt_four hshort)⟩

theorem paddedVal_letter (h : IsLetter c) : paddedVal c = sextet c &&& 0x3F := by
  have hne : c ≠ b64Pad := fun heq => not_letter_pad (heq ▸ h)
  rw [paddedVal, if_neg hne, rivB64Val_letter h]

theorem counts_letter (h : IsLetter c) : Counts c := by
  refine ⟨fun heq => not_letter_pad (heq ▸ h), ?_⟩
  rw [paddedVal_letter h]
  exact sextet_nonneg _

theorem not_counts_pad : ¬Counts b64Pad := fun h => h.1 rfl

section Bits

variable (s₀ s₁ s₂ s₃ : RivU32)

def firstByte : RivU8 := (((s₀ &&& 0x3F) <<< 2) ||| (s₁ &&& 0x3F).sshiftRight 4).setWidth 8

def secondByte : RivU8 := (((s₁ &&& 0x3F) <<< 4) ||| (s₂ &&& 0x3F).sshiftRight 2).setWidth 8

def thirdByte : RivU8 := (((s₂ &&& 0x3F) <<< 6) ||| (s₃ &&& 0x3F)).setWidth 8

end Bits

section Group

variable {c₂ c₃ : RivU8}

theorem groupBytes_letters (h2 : IsLetter c₂) (h3 : IsLetter c₃) (s₀ s₁ : RivU32) :
    groupBytes s₀ s₁ c₂ c₃ =
      [firstByte s₀ s₁, secondByte s₁ (sextet c₂), thirdByte (sextet c₂) (sextet c₃)] := by
  rw [groupBytes, if_pos (counts_letter h2), if_pos (counts_letter h3), paddedVal_letter h2,
    paddedVal_letter h3]
  rfl

theorem groupBytes_pad (h2 : IsLetter c₂) (s₀ s₁ : RivU32) :
    groupBytes s₀ s₁ c₂ b64Pad = [firstByte s₀ s₁, secondByte s₁ (sextet c₂)] := by
  rw [groupBytes, if_pos (counts_letter h2), if_neg not_counts_pad, paddedVal_letter h2]
  rfl

theorem groupBytes_pads (s₀ s₁ : RivU32) : groupBytes s₀ s₁ b64Pad b64Pad = [firstByte s₀ s₁] := by
  rfl

end Group

/-! ## Bytes and their indices -/

theorem firstByte_of_word (t : RivU32) :
    firstByte ((t >>> 18) &&& 0x3F) ((t >>> 12) &&& 0x3F) = (t >>> 16).setWidth 8 := by
  rw [firstByte, sextet_sshiftRight]
  ext i hi
  interval_cases i <;> simp

theorem secondByte_of_word (t : RivU32) :
    secondByte ((t >>> 12) &&& 0x3F) ((t >>> 6) &&& 0x3F) = (t >>> 8).setWidth 8 := by
  rw [secondByte, sextet_sshiftRight]
  ext i hi
  interval_cases i <;> simp

theorem thirdByte_of_word (t : RivU32) :
    thirdByte ((t >>> 6) &&& 0x3F) (t &&& 0x3F) = t.setWidth 8 := by
  rw [thirdByte]
  ext i hi
  interval_cases i <;> simp

theorem b64Word_first (a b c : RivU8) : (b64Word a b c >>> 16).setWidth 8 = a := by
  ext i hi
  simp [b64Word]
  grind

theorem b64Word_second (a b c : RivU8) : (b64Word a b c >>> 8).setWidth 8 = b := by
  ext i hi
  simp [b64Word]
  grind

theorem b64Word_third (a b c : RivU8) : (b64Word a b c).setWidth 8 = c := by
  ext i hi
  simp [b64Word]

theorem decodeGroups_base64Text (bytes : List RivU8) :
    decodeGroups (base64Text bytes) = some bytes := by
  have hletters (s₀ s₁ : RivU32) : IsLetter (b64Char s₀) ∧ IsLetter (b64Char s₁) :=
    ⟨isLetter_b64Char s₀, isLetter_b64Char s₁⟩
  induction bytes using base64Text.induct with
  | case1 => rfl
  | case2 a =>
    rw [base64Text, decodeGroups, if_pos (hletters ..), groupBytes_pads]
    simp only [sextet_b64Char, firstByte_of_word, b64Word_first]
    rfl
  | case3 a b =>
    rw [base64Text, decodeGroups, if_pos (hletters ..), groupBytes_pad (isLetter_b64Char _)]
    simp only [sextet_b64Char, firstByte_of_word, secondByte_of_word, b64Word_first, b64Word_second]
    rfl
  | case4 a b c rest ih =>
    rw [base64Text, decodeGroups, if_pos (hletters ..), ih,
      groupBytes_letters (isLetter_b64Char _) (isLetter_b64Char _)]
    simp only [sextet_b64Char, firstByte_of_word, secondByte_of_word, thirdByte_of_word,
      b64Word_first, b64Word_second, b64Word_third]
    rfl

/-! ## The decoder -/

theorem exists_cons_of_lt {free : List RivU8} {k : ℕ} (h : k < free.length) :
    ∃ x tail, free = x :: tail ∧ k ≤ tail.length := by
  obtain ⟨x, l, rfl⟩ := exists_cons_of_length_pos (l := free) (by omega)
  exact ⟨x, l, rfl, Nat.le_of_lt_succ h⟩

def Cursor.putAllBelow (cap : BitVec wb.width) (bs : List RivU8) (c : Cursor wb) :
    Except (Stop wb) (Cursor wb) :=
  bs.foldlM (fun c b => c.putBelow cap b) c

theorem Cursor.putAllBelow_behind (cap : BitVec wb.width) (bs written free : List RivU8)
    (hcap : written.length + bs.length ≤ cap.toNat) (hfree : bs.length ≤ free.length) :
    Cursor.putAllBelow cap bs (Cursor.behind written free) =
      .ok (Cursor.behind (written ++ bs) (free.drop bs.length)) := by
  induction bs generalizing written free with
  | nil => rw [List.append_nil]; rfl
  | cons b bs ih =>
    obtain ⟨x, tail, rfl, htail⟩ := exists_cons_of_lt hfree
    rw [length_cons] at hcap
    have hput := Cursor.putBelow_behind written tail x b cap (by omega)
    have hrest := ih (written ++ [b]) tail (by rw [List.length_append]; simp; omega) htail
    simp_all [Cursor.putAllBelow]

section Round

variable (before after : List RivU8) (n cap : BitVec wb.width) (c : Cursor wb) {c₀ c₁ : RivU8}
  (c₂ c₃ : RivU8) (hmore : before.length + 3 < n.toNat)

include hmore

theorem decodeLoop_round :
    decodeLoop (before ++ c₀ :: c₁ :: c₂ :: c₃ :: after) n cap before.length c =
      if (rivB64Val (charInt c₀)).toInt < 0 ∨ (rivB64Val (charInt c₁)).toInt < 0 then
        .error (.returned 0 c.out)
      else (do
        let c ← c.putBelow cap ((rivB64Val (charInt c₀) <<< 2 |||
          (rivB64Val (charInt c₁)).sshiftRight 4).setWidth 8)
        let c ← (if Counts c₂ then c.putBelow cap ((rivB64Val (charInt c₁) <<< 4 |||
            (paddedVal c₂).sshiftRight 2).setWidth 8)
          else pure c)
        let c ← (if Counts c₃ then c.putBelow cap ((paddedVal c₂ <<< 6 ||| paddedVal c₃).setWidth 8)
          else pure c)
        decodeLoop (before ++ [c₀, c₁, c₂, c₃] ++ after) n cap
          (before ++ [c₀, c₁, c₂, c₃]).length c) := by
  have hread (k : ℕ) (x : RivU8) (hk : (c₀ :: c₁ :: c₂ :: c₃ :: after)[k]? = some x) :
      (readAt (before ++ c₀ :: c₁ :: c₂ :: c₃ :: after) (before.length + k) :
        Except (Stop wb) RivU8) = .ok x :=
    readAt_append before _ x k hk
  rw [decodeLoop, if_pos hmore, List.append_assoc, List.length_append]
  simp only [readAt_self, hread 1 _ rfl, hread 2 _ rfl, hread 3 _ rfl, Exec.ok_bind]
  rfl

theorem decodeLoop_letters (h0 : IsLetter c₀) (h1 : IsLetter c₁) :
    decodeLoop (before ++ c₀ :: c₁ :: c₂ :: c₃ :: after) n cap before.length c = (do
      let c ← Cursor.putAllBelow cap (groupBytes (sextet c₀) (sextet c₁) c₂ c₃) c
      decodeLoop (before ++ [c₀, c₁, c₂, c₃] ++ after) n cap
        (before ++ [c₀, c₁, c₂, c₃]).length c) := by
  rw [decodeLoop_round before after n cap c c₂ c₃ hmore, rivB64Val_letter h0, rivB64Val_letter h1,
    if_neg (not_or.mpr ⟨Int.not_lt.mpr (sextet_nonneg _), Int.not_lt.mpr (sextet_nonneg _)⟩),
    groupBytes]
  by_cases h2 : Counts c₂ <;> by_cases h3 : Counts c₃ <;>
    simp only [h2, h3, if_true, if_false, List.append_nil, List.nil_append, List.cons_append,
      Cursor.putAllBelow, List.foldlM_cons, List.foldlM_nil, bind_assoc, pure_bind, bind_pure]

theorem decodeLoop_not_letters (h : ¬(IsLetter c₀ ∧ IsLetter c₁)) :
    decodeLoop (before ++ c₀ :: c₁ :: c₂ :: c₃ :: after) n cap before.length c =
      .error (.returned 0 c.out) := by
  rw [decodeLoop_round before after n cap c c₂ c₃ hmore, if_pos]
  exact (not_and_or.mp h).imp rivB64Val_of_not_letter rivB64Val_of_not_letter

end Round

theorem decodeLoop_some {bytes : List RivU8} (h : decodeGroups text = some bytes)
    (before after : List RivU8) (n cap : BitVec wb.width)
    (hn : n.toNat = before.length + text.length) (written free : List RivU8)
    (hcap : written.length + bytes.length ≤ cap.toNat) (hfree : bytes.length ≤ free.length) :
    decodeLoop (before ++ (text ++ after)) n cap before.length (Cursor.behind written free) =
      .ok (Cursor.behind (written ++ bytes) (free.drop bytes.length)) := by
  fun_induction decodeGroups text generalizing before written free bytes with
  | case1 c₀ c₁ c₂ c₃ rest hletters ih =>
    obtain ⟨tail, htail, rfl⟩ := Option.map_eq_some_iff.mp h
    have hlen : (c₀ :: c₁ :: c₂ :: c₃ :: rest).length = rest.length + 4 := rfl
    set g := groupBytes (sextet c₀) (sextet c₁) c₂ c₃
    rw [List.length_append] at hcap hfree
    have hround := decodeLoop_letters before (rest ++ after) n cap (Cursor.behind written free)
      c₂ c₃ (by omega) hletters.1 hletters.2
    rw [Cursor.putAllBelow_behind cap g written free (by omega) (by omega), Exec.ok_bind] at hround
    have hrest := ih htail (before ++ [c₀, c₁, c₂, c₃])
      (by rw [List.length_append, hn, hlen]; simp; omega) (written ++ g) (free.drop g.length)
      (by rw [List.length_append, Nat.add_assoc]; exact hcap) (by rw [length_drop]; omega)
    rw [List.append_assoc written, drop_drop, ← List.length_append] at hrest
    exact hround.trans hrest
  | case2 => cases h
  | case3 cs hshort =>
    cases h
    have hlen := length_lt_four hshort
    rw [decodeLoop, if_neg (by omega), List.append_nil]
    rfl

theorem decodeLoop_none (h : decodeGroups text = none) (before after : List RivU8)
    (n cap : BitVec wb.width) (hn : n.toNat = before.length + text.length)
    (written free : List RivU8) (hcap : written.length + text.length / 4 * 3 ≤ cap.toNat)
    (hfree : text.length / 4 * 3 ≤ free.length) :
    ∃ out, decodeLoop (before ++ (text ++ after)) n cap before.length
      (Cursor.behind written free) = .error (.returned 0 out) := by
  fun_induction decodeGroups text generalizing before written free with
  | case1 c₀ c₁ c₂ c₃ rest hletters ih =>
    have hlen : (c₀ :: c₁ :: c₂ :: c₃ :: rest).length = rest.length + 4 := rfl
    have hgroup := length_groupBytes (sextet c₀) (sextet c₁) c₂ c₃
    set g := groupBytes (sextet c₀) (sextet c₁) c₂ c₃
    have hround := decodeLoop_letters before (rest ++ after) n cap (Cursor.behind written free)
      c₂ c₃ (by omega) hletters.1 hletters.2
    rw [Cursor.putAllBelow_behind cap g written free (by omega) (by omega), Exec.ok_bind] at hround
    obtain ⟨out, hout⟩ := ih (Option.map_eq_none_iff.mp h) (before ++ [c₀, c₁, c₂, c₃])
      (by rw [List.length_append, hn, hlen]; simp; omega) (written ++ g) (free.drop g.length)
      (by rw [List.length_append]; omega) (by rw [length_drop]; omega)
    exact ⟨out, hround.trans hout⟩
  | case2 c₀ c₁ c₂ c₃ rest hletters =>
    have hlen : (c₀ :: c₁ :: c₂ :: c₃ :: rest).length = rest.length + 4 := rfl
    exact ⟨_, decodeLoop_not_letters before (rest ++ after) n cap _ c₂ c₃ (by omega) hletters⟩
  | case3 => cases h

/-! ## Both together -/

theorem toNat_rivBase64EncodedSize (h : (n + 2) / 3 * 4 < 2 ^ wb.width) :
    (rivBase64EncodedSize (BitVec.ofNat wb.width n)).toNat = (n + 2) / 3 * 4 := by
  have hwidth : 8 < 2 ^ wb.width := by cases wb <;> decide
  have hn : n < 2 ^ wb.width := by omega
  have hsmall (k : ℕ) (hk : k < 8) : (BitVec.ofNat wb.width k).toNat = k :=
    toNat_ofNat_of_lt (by omega)
  have hsum : (BitVec.ofNat wb.width n + 2).toNat = n + 2 := by
    rw [toNat_add, toNat_ofNat_of_lt hn]
    exact (congrArg (fun k => (n + k) % 2 ^ wb.width) (hsmall 2 (by decide))).trans
      (Nat.mod_eq_of_lt (by omega))
  have hdiv : ((BitVec.ofNat wb.width n + 2) / 3).toNat = (n + 2) / 3 := by simp_all
  rw [rivBase64EncodedSize, toNat_mul, hdiv]
  exact (congrArg (fun k => (n + 2) / 3 * k % 2 ^ wb.width) (hsmall 4 (by decide))).trans
    (Nat.mod_eq_of_lt h)

theorem le_toNat_rivBase64DecodedMax {size : BitVec wb.width} (h : size.toNat = (n + 2) / 3 * 4) :
    n ≤ (rivBase64DecodedMax size).toNat := by
  have hwidth : 8 < 2 ^ wb.width := by cases wb <;> decide
  have hsmall (k : ℕ) (hk : k < 8) : (BitVec.ofNat wb.width k).toNat = k :=
    toNat_ofNat_of_lt (by omega)
  have hlt := size.isLt
  have hdiv : (size / 4).toNat = (n + 2) / 3 := by simp_all
  have hmul : (rivBase64DecodedMax size).toNat = (n + 2) / 3 * 3 := by
    rw [rivBase64DecodedMax, toNat_mul, hdiv]
    exact (congrArg (fun k => (n + 2) / 3 * k % 2 ^ wb.width) (hsmall 3 (by decide))).trans
      (Nat.mod_eq_of_lt (by omega))
  omega

theorem rivBase64Encode_text (bytes : List RivU8)
    (hsize : (bytes.length + 2) / 3 * 4 < 2 ^ wb.width) (out : List RivU8)
    (cap : BitVec wb.width) (hcap : (bytes.length + 2) / 3 * 4 + 1 ≤ cap.toNat)
    (hout : cap.toNat ≤ out.length) :
    rivBase64Encode bytes (BitVec.ofNat wb.width bytes.length) out cap =
      some (BitVec.ofNat wb.width ((bytes.length + 2) / 3 * 4),
        base64Text bytes ++ 0 :: out.drop ((bytes.length + 2) / 3 * 4 + 1)) := by
  have hsizeOf := toNat_rivBase64EncodedSize hsize
  have htext := length_base64Text bytes
  have hn : (BitVec.ofNat wb.width bytes.length).toNat = bytes.length :=
    toNat_ofNat_of_lt (by omega)
  have hone : (1 : BitVec wb.width).toNat = 1 := by cases wb <;> rfl
  have hroom : ¬cap < rivBase64EncodedSize (BitVec.ofNat wb.width bytes.length) + 1 := by
    rw [lt_def, toNat_add, hone, hsizeOf, Nat.mod_eq_of_lt (hcap.trans_lt cap.isLt)]
    exact Nat.not_lt.mpr hcap
  have hloop := encodeLoop_text bytes [] (BitVec.ofNat wb.width bytes.length) (by simpa using hn)
    [] out (by omega) (by simp; omega)
  obtain ⟨x, tail, hdrop⟩ := exists_cons_of_length_pos
    (l := out.drop (base64Text bytes).length) (by rw [length_drop]; omega)
  have htail : out.drop ((bytes.length + 2) / 3 * 4 + 1) = tail := by
    rw [← htext, ← drop_drop, hdrop, drop_succ_cons, drop_zero]
  rw [hdrop] at hloop
  calc
    rivBase64Encode bytes (BitVec.ofNat wb.width bytes.length) out cap
        = finish (do
            let c ← encodeLoop bytes (BitVec.ofNat wb.width bytes.length) 0
              (Cursor.behind [] out)
            let last ← c.put 0
            pure ⟨c.o, last.out⟩) := by
          rw [rivBase64Encode, if_neg hroom]
          rfl
    _ = finish (do
            let last ← (Cursor.behind (base64Text bytes) (x :: tail)).put 0
            pure ⟨BitVec.ofNat wb.width ((bytes.length + 2) / 3 * 4), last.out⟩) := by
          rw [← htext]
          exact congrArg finish (congrArg (· >>= _) hloop)
    _ = some (BitVec.ofNat wb.width ((bytes.length + 2) / 3 * 4),
          base64Text bytes ++ [0] ++ tail) := by
          rw [Cursor.put_behind _ _ _ _ (by omega)]
          rfl
    _ = some (BitVec.ofNat wb.width ((bytes.length + 2) / 3 * 4),
          base64Text bytes ++ 0 :: out.drop ((bytes.length + 2) / 3 * 4 + 1)) := by
          rw [htail, List.append_assoc, List.singleton_append]

/-- Encoding into a buffer with room for the text and its NUL returns the encoded
size and writes only the text and the NUL; decoding the text into a buffer with
room for the bytes gives them back. -/
theorem base64_roundTrip (bytes : List RivU8) (hsize : (bytes.length + 2) / 3 * 4 < 2 ^ wb.width) :
    let n := BitVec.ofNat wb.width bytes.length
    let size := rivBase64EncodedSize n
    (base64Text bytes).length = size.toNat ∧
      (∀ (out : List RivU8) (cap : BitVec wb.width), size.toNat + 1 ≤ cap.toNat →
        cap.toNat ≤ out.length →
          rivBase64Encode bytes n out cap =
            some (size, base64Text bytes ++ 0 :: out.drop (size.toNat + 1))) ∧
      (∀ (after out : List RivU8) (cap : BitVec wb.width), bytes.length ≤ cap.toNat →
        cap.toNat ≤ out.length →
          rivBase64Decode (base64Text bytes ++ after) size out cap =
            some (n, bytes ++ out.drop bytes.length)) ∧
      bytes.length ≤ (rivBase64DecodedMax size).toNat := by
  intro n size
  have htext : (base64Text bytes).length = size.toNat := by
    rw [length_base64Text, toNat_rivBase64EncodedSize hsize]
  have hn : n.toNat = bytes.length := toNat_ofNat_of_lt (by omega)
  refine ⟨htext, ?_, ?_, le_toNat_rivBase64DecodedMax (toNat_rivBase64EncodedSize hsize)⟩
  · intro out cap hcap hout
    have hsizeOf : size.toNat = (bytes.length + 2) / 3 * 4 := toNat_rivBase64EncodedSize hsize
    have hword : size = BitVec.ofNat wb.width ((bytes.length + 2) / 3 * 4) := by
      rw [← hsizeOf, BitVec.ofNat_toNat, BitVec.setWidth_eq]
    rw [hsizeOf] at hcap ⊢
    rw [hword]
    exact rivBase64Encode_text bytes hsize out cap hcap hout
  · intro after out cap hcap hout
    have hloop := decodeLoop_some (decodeGroups_base64Text bytes) [] after size cap
      (by simpa using htext.symm) [] out (by simpa using hcap) (by omega)
    rw [rivBase64Decode]
    exact congrArg finish hloop

/-- The bytes `Ma`, with one character of padding, in buffers of 8 and of 2 bytes. -/
theorem base64_roundTrip_pair :
    rivBase64Encode [0x4D, 0x61] (2 : BitVec WordBits.bits32.width) (List.replicate 8 0xFF) 8 =
        some (4, [0x54, 0x57, 0x45, 0x3D, 0x00, 0xFF, 0xFF, 0xFF]) ∧
      rivBase64Decode [0x54, 0x57, 0x45, 0x3D, 0x00, 0xFF, 0xFF, 0xFF]
          (4 : BitVec WordBits.bits32.width) [0xFF, 0xFF] 2 = some (2, [0x4D, 0x61]) := by
  have htext : base64Text [0x4D, 0x61] = [0x54, 0x57, 0x45, 0x3D] := by decide +kernel
  obtain ⟨-, hencode, hdecode, -⟩ :=
    base64_roundTrip [0x4D, 0x61] (by decide : _ < 2 ^ WordBits.bits32.width)
  rw [htext] at hencode hdecode
  exact ⟨hencode (List.replicate 8 0xFF) 8 (by decide) (by decide),
    hdecode [0x00, 0xFF, 0xFF, 0xFF] [0xFF, 0xFF] 2 (by decide) (by decide)⟩

end Rivet.Codec
