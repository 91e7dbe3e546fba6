import Mathlib
import Rivet.Assembler.Passes
import Rivet.Disassembler.Retokenize

/-!
# String directives

A byte of a string is written as itself or by an escape.  However a byte string
is written, the tokenizer and the string decoder agree on where the escapes and
the closing quote are, and the directive emits the byte string.
-/

namespace Rivet.Assembler

open CLib Riscv32 X86 Disassembler List

variable {c : Char} {cap n : ℕ}

/-! ## Written strings -/

/-- The characters after a backslash that stand for one byte, with that byte. -/
def escapes : List (Char × RivU8) :=
  [('n', 10), ('r', 13), ('t', 9), ('0', 0), ('\\', 92), ('"', 34)]

/-- One byte of a string, in one of the ways it can be written: as itself, by an
escape, or by two hexadecimal digits. -/
inductive StringByte where
  | literal (b : RivU8) (hb : b ≠ 0 ∧ b ≠ 10 ∧ b ≠ 34 ∧ b ≠ 92)
  | escape (e : Char × RivU8) (he : e ∈ escapes)
  | hex (hi lo : Char) (h l : ℕ) (hh : hexValue hi = some h) (hl : hexValue lo = some l)

def StringByte.text : StringByte → CStr
  | .literal b _ => [Char.ofNat b.toNat]
  | .escape e _ => ['\\', e.1]
  | .hex hi lo _ _ _ _ => ['\\', 'x', hi, lo]

def StringByte.byte : StringByte → RivU8
  | .literal b _ => b
  | .escape e _ => e.2
  | .hex _ _ h l _ _ => BitVec.ofNat 8 (16 * h + l)

def stringBody (bs : List StringByte) : CStr := bs.flatMap StringByte.text

def stringToken (bs : List StringByte) : CStr := '"' :: (stringBody bs ++ ['"'])

def stringDirectives : List (String × List RivU8) :=
  [(".ascii", []), (".asciz", [0]), (".string", [0])]

/-- A line of the form `.ascii "..."`. -/
def stringLine (dir : String) (bs : List StringByte) : CStr :=
  dir.toList ++ ' ' :: stringToken bs

/-! ## The characters of a written byte -/

theorem charByte_ofNat (b : RivU8) : charByte (Char.ofNat b.toNat) = b := by
  have hvalid : b.toNat.isValidChar := Or.inl (Nat.lt_trans b.isLt (by decide))
  rw [charByte, Char.toNat_ofNat, if_pos hvalid, BitVec.ofNat_toNat, BitVec.setWidth_eq]

theorem ofNat_ne {b : RivU8} (h : b ≠ charByte c) : Char.ofNat b.toNat ≠ c := by
  intro heq
  exact h (by rw [← heq, charByte_ofNat])

theorem hexValue_ne {v : ℕ} (h : hexValue c = some v) :
    c ≠ '"' ∧ c ≠ '\\' ∧ c ≠ '\n' ∧ c ≠ '\x00' := by
  refine ⟨?_, ?_, ?_, ?_⟩ <;> (rintro rfl; cases h)

theorem hexValue_lt {v : ℕ} (h : hexValue c = some v) : v < 16 := by
  unfold hexValue digitVal at h
  split at h
  · next hdigit =>
    cases h
    have hle : c.toNat ≤ 57 := by
      rw [Char.isDigit, Bool.and_eq_true, decide_eq_true_eq, decide_eq_true_eq] at hdigit
      exact UInt32.le_iff_toNat_le.mp hdigit.2
    omega
  · split at h
    · next hlower =>
      cases h
      have hle : c.toNat ≤ 102 := UInt32.le_iff_toNat_le.mp hlower.2
      omega
    · split at h
      · next hupper =>
        cases h
        have hle : c.toNat ≤ 70 := UInt32.le_iff_toNat_le.mp hupper.2
        omega
      · cases h

theorem escapes_clean : ∀ e ∈ escapes, e.1 ≠ '\n' ∧ e.1 ≠ '\x00' := by decide

theorem StringByte.text_clean (b : StringByte) : '\n' ∉ b.text ∧ '\x00' ∉ b.text := by
  cases b with
  | literal b hb =>
    have hnewline : Char.ofNat b.toNat ≠ '\n' := ofNat_ne hb.2.1
    have hnul : Char.ofNat b.toNat ≠ '\x00' := ofNat_ne hb.1
    simp only [StringByte.text, mem_singleton]
    exact ⟨Ne.symm hnewline, Ne.symm hnul⟩
  | escape e he =>
    have hclean := escapes_clean e he
    simp only [StringByte.text, mem_cons, not_mem_nil, or_false, not_or]
    grind
  | hex hi lo h l hh hl =>
    have hhi := hexValue_ne hh
    have hlo := hexValue_ne hl
    simp only [StringByte.text, mem_cons, not_mem_nil, or_false, not_or]
    grind

theorem stringBody_clean (bs : List StringByte) :
    '\n' ∉ stringBody bs ∧ '\x00' ∉ stringBody bs := by
  simp only [stringBody, mem_flatMap, not_exists, not_and]
  exact ⟨fun b _ => b.text_clean.1, fun b _ => b.text_clean.2⟩

theorem StringByte.text_length (b : StringByte) : 1 ≤ b.text.length := by
  cases b <;> simp [StringByte.text]

theorem length_le_stringBody (bs : List StringByte) : bs.length ≤ (stringBody bs).length := by
  induction bs with
  | nil => exact Nat.le_refl _
  | cons b bs ih => grind [stringBody, b.text_length]

/-! ## The tokenizer -/

theorem spanQuoted_text (b : StringByte) (cs : CStr) :
    spanQuoted (b.text ++ cs) = (b.text ++ (spanQuoted cs).1, (spanQuoted cs).2) := by
  cases b with
  | literal b hb => exact spanQuoted_other (ofNat_ne hb.2.2.1) (ofNat_ne hb.2.2.2) cs
  | escape e he => exact spanQuoted_escape e.1 cs
  | hex hi lo h l hh hl =>
    have hhi := hexValue_ne hh
    have hlo := hexValue_ne hl
    calc
      spanQuoted ('\\' :: 'x' :: hi :: lo :: cs) =
          ('\\' :: 'x' :: (spanQuoted (hi :: lo :: cs)).1,
            (spanQuoted (hi :: lo :: cs)).2) := spanQuoted_escape 'x' (hi :: lo :: cs)
      _ = ('\\' :: 'x' :: hi :: lo :: (spanQuoted cs).1, (spanQuoted cs).2) := by
        simp_all [spanQuoted_other]

theorem spanQuoted_stringBody (bs : List StringByte) (rest : CStr) :
    spanQuoted (stringBody bs ++ '"' :: rest) = (stringBody bs ++ ['"'], rest) := by
  induction bs with
  | nil => rw [stringBody, flatMap_nil, nil_append, nil_append, spanQuoted]
  | cons b bs ih => simp_all [stringBody, spanQuoted_text]

theorem spanToken_stringToken (bs : List StringByte) (rest : CStr) :
    spanToken (stringToken bs ++ rest) = (stringToken bs, rest) := by
  simp_all [stringToken, spanToken, spanQuoted_stringBody]

theorem tokenizeFrom_stringToken (hn : n < archMaxTokens) (bs : List StringByte) {eol : CStr}
    (heol : eol = [] ∨ eol = ['\n']) :
    tokenizeFrom n (stringToken bs ++ eol) = .ok [stringToken bs] := by
  have hdrop : (stringToken bs ++ eol).dropWhile isSeparator =
      '"' :: (stringBody bs ++ ['"'] ++ eol) := rfl
  have hspan := spanToken_stringToken bs eol
  rcases heol with rfl | rfl
  · exact tokenizeFrom_token_nil hdrop (by decide) hn hspan
  · rw [tokenizeFrom_token_cons hdrop (by decide) hn hspan, tokenizeFrom_eq]
    rfl

theorem tokenize_stringLine {dir : String} {term : List RivU8}
    (hdir : (dir, term) ∈ stringDirectives) (bs : List StringByte) {eol : CStr}
    (heol : eol = [] ∨ eol = ['\n']) :
    tokenize (stringLine dir bs ++ eol) = .ok [dir.toList, stringToken bs] := by
  have hplain : PlainToken dir.toList := by
    have hall : ∀ p ∈ stringDirectives, PlainToken p.1.toList := by decide
    exact hall (dir, term) hdir
  have hnext : tokenizeFrom 0 ([] ++ (dir.toList ++ ' ' :: (stringToken bs ++ eol))) =
      tokenizeFrom 1 (stringToken bs ++ eol) >>= fun toks => .ok (dir.toList :: toks) :=
    tokenizeFrom_next (by decide) (fun c hc => absurd hc not_mem_nil) hplain (by decide)
  rw [tokenizeFrom_stringToken (by decide) bs heol, Exec.ok_bind, nil_append] at hnext
  simp_all [tokenize, stringLine]

/-! ## The decoder -/

theorem decodeBody_other (hn : n < cap) (hc : c ≠ '\\') (cs : CStr) :
    decodeBody cap n (c :: cs) = (do
      let out ← decodeBody cap (n + 1) cs
      .ok (charByte c :: out)) := by
  rw [decodeBody.eq_def]
  simp only [if_neg (Nat.not_le.mpr hn), if_pos hc]

theorem decodeBody_escape (hn : n < cap) {e : Char × RivU8} (he : e ∈ escapes) (cs : CStr) :
    decodeBody cap n ('\\' :: e.1 :: cs) = (do
      let out ← decodeBody cap (n + 1) cs
      .ok (e.2 :: out)) := by
  have hcases : e = ('n', 10) ∨ e = ('r', 13) ∨ e = ('t', 9) ∨ e = ('0', 0) ∨
      e = ('\\', 92) ∨ e = ('"', 34) := by
    simpa [escapes] using he
  rcases hcases with rfl | rfl | rfl | rfl | rfl | rfl
  all_goals
    rw [decodeBody, if_neg (Nat.not_le.mpr hn), if_neg (by decide)]
    · rfl
    · intro h l rest hx
      exact absurd hx (by decide)
    · exact fun hx => absurd hx (by decide)

theorem decodeBody_hex (hn : n < cap) {hi lo : Char} {h l : ℕ} (hh : hexValue hi = some h)
    (hl : hexValue lo = some l) (cs : CStr) :
    decodeBody cap n ('\\' :: 'x' :: hi :: lo :: cs) = (do
      let out ← decodeBody cap (n + 1) cs
      .ok (BitVec.ofNat 8 (16 * h + l) :: out)) := by
  have hbyte : (h <<< 4) ||| l = 16 * h + l := by
    rw [← Nat.shiftLeft_add_eq_or_of_lt (hexValue_lt hl), Nat.shiftLeft_eq]
    omega
  rw [decodeBody, if_neg (Nat.not_le.mpr hn), if_neg (by decide)]
  simp only [hh, hl, hbyte]

theorem decodeBody_text (hn : n < cap) (b : StringByte) (cs : CStr) :
    decodeBody cap n (b.text ++ cs) = (do
      let out ← decodeBody cap (n + 1) cs
      .ok (b.byte :: out)) := by
  cases b with
  | literal b hb =>
    have h := decodeBody_other hn (ofNat_ne (b := b) (c := '\\') hb.2.2.2) cs
    rwa [charByte_ofNat] at h
  | escape e he => exact decodeBody_escape hn he cs
  | hex hi lo h l hh hl => exact decodeBody_hex hn hh hl cs

theorem decodeBody_stringBody (bs : List StringByte) (hn : n + bs.length ≤ cap) :
    decodeBody cap n (stringBody bs) = .ok (bs.map StringByte.byte) := by
  induction bs generalizing n with
  | nil => rw [stringBody, flatMap_nil, decodeBody, map_nil]
  | cons b bs ih => grind [stringBody, decodeBody_text, Exec.ok_bind]

theorem decodeString_stringToken (bs : List StringByte) (hlen : bs.length ≤ cap) :
    decodeString (stringToken bs) cap = .ok (bs.map StringByte.byte) := by
  have hlast : (stringToken bs).getLast? = some '"' := by grind [stringToken]
  simp_all [stringToken, decodeString, decodeBody_stringBody]

/-! ## The directives -/

theorem processTokens_string {dir : String} {term : List RivU8}
    (hdir : (dir, term) ∈ stringDirectives) {bs : List StringByte} (hlen : bs.length ≤ 1024)
    (st : AsState) : processTokens [dir.toList, stringToken bs] st =
      emitAll (bs.map StringByte.byte ++ term) st := by
  have hdecode := decodeString_stringToken bs hlen
  have hcases : (dir = ".ascii" ∧ term = []) ∨ (dir = ".asciz" ∧ term = [0]) ∨
      (dir = ".string" ∧ term = [0]) := by
    simpa [stringDirectives] using hdir
  rcases hcases with ⟨rfl, rfl⟩ | ⟨rfl, rfl⟩ | ⟨rfl, rfl⟩
  · have hlookup : lookupMnem directives ".ascii".toList = some .ascii := by decide
    rw [processTokens, if_pos (by decide), hlookup, append_nil]
    simp only [processDirective, hdecode, Exec.ok_bind, reduceCtorEq, if_false]
    exact bind_pure _
  · have hlookup : lookupMnem directives ".asciz".toList = some .asciz := by decide
    rw [processTokens, if_pos (by decide), hlookup]
    simp only [processDirective, hdecode, Exec.ok_bind, if_true, ← emitAll_singleton, emitAll_bind]
  · have hlookup : lookupMnem directives ".string".toList = some .asciz := by decide
    rw [processTokens, if_pos (by decide), hlookup]
    simp only [processDirective, hdecode, Exec.ok_bind, if_true, ← emitAll_singleton, emitAll_bind]

/-- However a byte string is written, a line with a string directive is read in
one piece, has two tokens, and emits the byte string with the terminator of the
directive. -/
theorem string_directive_emits {dir : String} {term : List RivU8}
    (hdir : (dir, term) ∈ stringDirectives) (bs : List StringByte)
    (hlen : (stringLine dir bs).length ≤ 510) :
    (∀ rest, fileLines (stringLine dir bs ++ '\n' :: rest) =
      (stringLine dir bs ++ ['\n']) :: fileLines rest) ∧
    fileLines (stringLine dir bs) = [stringLine dir bs] ∧ ∀ eol, eol = [] ∨ eol = ['\n'] →
      tokenize (stringLine dir bs ++ eol) = .ok [dir.toList, stringToken bs] ∧
      ∀ st, processLine (stringLine dir bs ++ eol) st =
        emitAll (bs.map StringByte.byte ++ term) st := by
  have hclean : ∀ p ∈ stringDirectives, '\n' ∉ p.1.toList ∧ '\x00' ∉ p.1.toList := by decide
  have hdirClean := hclean (dir, term) hdir
  have hbody := stringBody_clean bs
  have hnewline : '\n' ∉ stringLine dir bs := by
    simp only [stringLine, stringToken, List.mem_append, List.mem_cons, List.not_mem_nil,
      or_false, not_or]
    exact ⟨hdirClean.1, by decide, by decide, hbody.1, by decide⟩
  have hnul : '\x00' ∉ stringLine dir bs := by
    simp only [stringLine, stringToken, List.mem_append, List.mem_cons, List.not_mem_nil,
      or_false, not_or]
    exact ⟨hdirClean.2, by decide, by decide, hbody.2, by decide⟩
  refine ⟨fileLines_line hnewline hnul hlen, ?_, ?_⟩
  · exact fileLines_last (by simp [stringLine]) hnewline hnul hlen
  intro eol heol
  have htokens := tokenize_stringLine hdir bs heol
  refine ⟨htokens, fun st => ?_⟩
  have hshort : bs.length ≤ 1024 := by
    have hle := length_le_stringBody bs
    simp only [stringLine, stringToken, List.length_append, List.length_cons] at hlen
    omega
  have hlabel : labelOf dir.toList = none := by
    have hall : ∀ p ∈ stringDirectives, labelOf p.1.toList = none := by decide
    exact hall (dir, term) hdir
  rw [processLine, htokens, Exec.ok_bind, processLabels, hlabel]
  exact processTokens_string hdir hshort st

/-- A string with a comment character, an escaped quote and a hexadecimal escape
before the closing quote. -/
theorem string_directive_emits_escapes :
    processLine ".asciz \"#\\\"\\x5c\"\n".toList (initState .riscv32 0) =
      emitAll [35, 34, 92, 0] (initState .riscv32 0) := by
  have hdir : ((".asciz", [0]) : String × List RivU8) ∈ stringDirectives := by decide
  exact ((string_directive_emits hdir [.literal 35 (by decide), .escape ('"', 34) (by decide),
    .hex '5' 'c' 5 12 (by decide) (by decide)] (by decide)).2.2 ['\n'] (.inr rfl)).2 _

end Rivet.Assembler
