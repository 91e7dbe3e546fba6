import Rivet.Assembler.Reading
import Rivet.Disassembler.Basic

/-!
# Reading a printed line back

The assembler's tokenizer takes a line that a disassembler backend prints apart
into the mnemonic and the operands it was printed from.
-/

namespace Rivet.Disassembler

open CLib Assembler List

variable {lead t : CStr} {b n : ℕ}

/-- A token without separators, comments, quotes or brackets. -/
structure PlainToken (t : CStr) : Prop where
  ne_nil : t ≠ []
  chars : ∀ c ∈ t, isSeparator c = false ∧ isLineEnd c = false
  head : t.head? ≠ some '"' ∧ t.head? ≠ some '['

theorem all_plain_iff : (t.all fun c => !(isSeparator c || isLineEnd c)) = true ↔
      ∀ c ∈ t, isSeparator c = false ∧ isLineEnd c = false := by
  simp only [all_eq_true, Bool.not_eq_true', Bool.or_eq_false_iff]

instance PlainToken.decidable (t : CStr) : Decidable (PlainToken t) :=
  decidable_of_iff (t ≠ [] ∧ (t.all fun c => !(isSeparator c || isLineEnd c)) = true ∧
      t.head? ≠ some '"' ∧ t.head? ≠ some '[')
    ⟨fun h => ⟨h.1, all_plain_iff.mp h.2.1, h.2.2⟩,
      fun h => ⟨h.ne_nil, all_plain_iff.mpr h.chars, h.head⟩⟩

def EndsToken (rest : CStr) : Prop := ∀ c, rest.head? = some c → isSeparator c = true

theorem spanToken_plain (ht : PlainToken t) (rest : CStr) (hrest : EndsToken rest) :
    spanToken (t ++ rest) = (t, rest) := by
  obtain ⟨c, cs, rfl⟩ := exists_cons_of_ne_nil ht.ne_nil
  have hquote : c ≠ '"' := fun h => ht.head.1 (by rw [h]; rfl)
  have hbracket : c ≠ '[' := fun h => ht.head.2 (by rw [h]; rfl)
  have hspan : spanToken (c :: cs ++ rest) =
      (c :: cs ++ rest).span fun c => !(isSeparator c || isLineEnd c) := by simp_all [spanToken]
  have hall : ∀ x ∈ c :: cs, (!(isSeparator x || isLineEnd x)) = true :=
    all_eq_true.mp (all_plain_iff.mpr ht.chars)
  have hstop : rest.takeWhile (fun c => !(isSeparator c || isLineEnd c)) = [] ∧
      rest.dropWhile (fun c => !(isSeparator c || isLineEnd c)) = rest := by
    cases rest with
    | nil => exact ⟨rfl, rfl⟩
    | cons d ds =>
      have hd := hrest d rfl
      simp [hd]
  simp_all

theorem dropWhile_lead (rest : CStr) (hlead : ∀ c ∈ lead, isSeparator c = true)
    (ht : PlainToken t) : (lead ++ (t ++ rest)).dropWhile isSeparator = t ++ rest := by
  obtain ⟨c, cs, rfl⟩ := exists_cons_of_ne_nil ht.ne_nil
  have hc := (ht.chars c mem_cons_self).1
  simp_all

theorem tokenizeFrom_last (lead : CStr) (hn : n < archMaxTokens)
    (hlead : ∀ c ∈ lead, isSeparator c = true) (ht : PlainToken t) :
    tokenizeFrom n (lead ++ t) = .ok [t] := by
  have hdrop := dropWhile_lead [] hlead ht
  have hspan := spanToken_plain ht [] (fun c h => by cases h)
  rw [append_nil] at hdrop hspan
  obtain ⟨c, cs, rfl⟩ := exists_cons_of_ne_nil ht.ne_nil
  exact tokenizeFrom_token_nil hdrop (ht.chars c mem_cons_self).2 hn hspan

theorem tokenizeFrom_next {rest : CStr} {d : Char} (hn : n < archMaxTokens)
    (hlead : ∀ c ∈ lead, isSeparator c = true) (ht : PlainToken t) (hd : isSeparator d = true) :
    tokenizeFrom n (lead ++ (t ++ d :: rest)) =
      tokenizeFrom (n + 1) rest >>= fun toks => .ok (t :: toks) := by
  have hdrop := dropWhile_lead (d :: rest) hlead ht
  have hspan := spanToken_plain ht (d :: rest)
    (fun c h => by cases h; exact hd)
  obtain ⟨c, cs, rfl⟩ := exists_cons_of_ne_nil ht.ne_nil
  exact tokenizeFrom_token_cons hdrop (ht.chars c mem_cons_self).2 hn hspan

theorem tokenizeFrom_joined {more : List (CStr × CStr)} (hn : n + more.length < archMaxTokens)
    (hlead : ∀ c ∈ lead, isSeparator c = true) (ht : PlainToken t)
    (hmore : ∀ p ∈ more, p.1 ≠ [] ∧ (∀ c ∈ p.1, isSeparator c = true) ∧ PlainToken p.2) :
    tokenizeFrom n (lead ++ (t ++ more.flatMap fun p => p.1 ++ p.2)) =
      .ok (t :: more.map Prod.snd) := by
  induction more generalizing n lead t with
  | nil => simp_all [tokenizeFrom_last]
  | cons p more ih =>
    obtain ⟨⟨hne, hsep, hp⟩, hrest⟩ := forall_mem_cons.mp hmore
    obtain ⟨s, t'⟩ := p
    obtain ⟨d, ds, rfl⟩ := exists_cons_of_ne_nil hne
    obtain ⟨hd, hds⟩ := forall_mem_cons.mp hsep
    rw [length_cons] at hn
    rw [flatMap_cons, append_assoc, cons_append,
      tokenizeFrom_next (by omega) hlead ht hd, ih (n := n + 1) (by omega) hds hp hrest]
    rfl

theorem intercalate_cons (sep o : CStr) (os : List CStr) :
    List.intercalate sep (o :: os) = o ++ os.flatMap fun o => sep ++ o := by
  induction os generalizing o with
  | nil => simp [List.intercalate]
  | cons o' os ih => simp [ih]

theorem tokenize_showLine {mnem : String} {ops : List CStr} (hmnem : PlainToken mnem.toList)
    (hops : ∀ o ∈ ops, PlainToken o) (hlen : ops.length < archMaxTokens) :
    tokenize (showLine mnem ops) = .ok (mnem.toList :: ops) := by
  cases ops with
  | nil => exact tokenizeFrom_last [] (by decide) (by simp) hmnem
  | cons o os =>
    obtain ⟨ho, hos⟩ := forall_mem_cons.mp hops
    have hshow : showLine mnem (o :: os) = [] ++ (mnem.toList ++
        ((List.replicate (6 - mnem.toList.length) ' ' ++ [' '], o) ::
          os.map fun o => (", ".toList, o)).flatMap fun p => p.1 ++ p.2) := by
      simp [showLine, padMnem, intercalate_cons, flatMap_map]
    have hmap : ((List.replicate (6 - mnem.toList.length) ' ' ++ [' '], o) ::
        os.map fun o => (", ".toList, o)).map Prod.snd = o :: os := by
      simp
    rw [hshow, tokenize, tokenizeFrom_joined _ (fun c hc => by cases hc) hmnem, hmap]
    · rw [forall_mem_cons]
      refine ⟨⟨by simp, ?_, ho⟩, ?_⟩
      · intro c hc
        have hspace : c = ' ' := by grind
        rw [hspace]
        rfl
      · intro p hp
        obtain ⟨o', ho', rfl⟩ := mem_map.mp hp
        have hsep : ", ".toList ≠ [] ∧ ", ".toList.all isSeparator = true := by decide
        grind
    · simpa using hlen

theorem tokenize_showLine_head {mnem : String} {o : CStr} {os toks : List CStr}
    (hmnem : PlainToken mnem.toList) (h : tokenize (showLine mnem (o :: os)) = .ok toks) :
    ∃ ts, toks = mnem.toList :: ts := by
  obtain ⟨rest, hrest⟩ : ∃ rest, List.replicate (6 - mnem.toList.length) ' ' ++
      ' ' :: List.intercalate ", ".toList (o :: os) = ' ' :: rest := by
    cases 6 - mnem.toList.length with
    | zero | succ => exact ⟨_, rfl⟩
  have hshow : showLine mnem (o :: os) = [] ++ (mnem.toList ++ ' ' :: rest) := by
    simp_all [showLine, padMnem]
  rw [hshow, tokenize, tokenizeFrom_next (by decide) (fun c hc => by cases hc) hmnem rfl] at h
  obtain ⟨ts, -, h⟩ := Exec.of_bind_eq_ok h
  cases h
  exact ⟨ts, rfl⟩

/-! ## Printed numbers -/

theorem plainToken_append {u : CStr} (ht : PlainToken t)
    (hu : ∀ c ∈ u, isSeparator c = false ∧ isLineEnd c = false) : PlainToken (t ++ u) := by
  obtain ⟨c, cs, rfl⟩ := exists_cons_of_ne_nil ht.ne_nil
  refine ⟨by simp, ?_, ht.head⟩
  intro d hd
  rcases mem_append.mp hd with hd | hd
  · exact ht.chars d hd
  · exact hu d hd

theorem plain_of_isDigitIn {c : Char} (h : isDigitIn b c = true) :
    isSeparator c = false ∧ isLineEnd c = false := by
  constructor
  · rw [Bool.eq_false_iff]
    intro hc
    simp only [isSeparator, Bool.or_eq_true, decide_eq_true_eq] at hc
    rcases hc with (rfl | rfl) | rfl <;> cases h
  · rw [Bool.eq_false_iff]
    intro hc
    simp only [isLineEnd, Bool.or_eq_true, decide_eq_true_eq] at hc
    rcases hc with ((rfl | rfl) | rfl) | rfl <;> cases h

theorem plainToken_of_digits (hne : t ≠ []) (ht : ∀ c ∈ t, isDigitIn b c = true) :
    PlainToken t := by
  refine ⟨hne, fun c hc => plain_of_isDigitIn (ht c hc), ?_⟩
  obtain ⟨c, cs, rfl⟩ := exists_cons_of_ne_nil hne
  have hc := ht c mem_cons_self
  constructor
  · intro h
    cases h
    cases hc
  · intro h
    cases h
    cases hc

theorem plainToken_toDigits (h1 : 1 < b) (h2 : b ≤ 16) (n : ℕ) : PlainToken (Nat.toDigits b n) := by
  obtain ⟨c, cs, hcs, -⟩ := head_toDigits h1 h2 n
  exact plainToken_of_digits (by rw [hcs]; simp) (isDigitIn_of_mem_toDigits h1 h2)

theorem plainToken_showDec (v : ℤ) : PlainToken (showDec v) := by
  have hdigits := plainToken_toDigits (b := 10) (by decide) (by decide) v.natAbs
  rw [showDec]
  split
  · exact plainToken_append (t := ['-']) (by decide) hdigits.chars
  · exact hdigits

theorem plainToken_showHex (n : ℕ) : PlainToken ("0x".toList ++ showHex n) :=
  plainToken_append (by decide)
    (plainToken_toDigits (b := 16) (by decide) (by decide) n).chars

end Rivet.Disassembler
