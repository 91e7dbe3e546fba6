import Rivet.Assembler.Reading

/-!
# Where the tokens of a line end

`tokenize` overwrites the character behind a token with a terminator and goes on
with the one after it, and a token that opens with a quote or a bracket goes on to
the matching one, past any `#`, `;` and newline.  What follows a `#` or a `;` is
therefore passed over only where the last token before it has ended, and either a
separator stands between the two or nothing comes after.
-/

namespace Rivet.Assembler

open CLib List

variable {c d : Char} {cs p rest x z : CStr} {depth n : ℕ}

/-! ## Ends of tokens -/

/-- What follows a quoted token that ends in the text, from behind its opening
quote on. -/
def closeQuoted : CStr → Option CStr
  | [] => none
  | '"' :: cs => some cs
  | '\\' :: _ :: cs => closeQuoted cs
  | _ :: cs => closeQuoted cs

/-- What follows a token that opens with a bracket and ends in the text. -/
def closeBracket (depth : ℕ) : CStr → Option CStr
  | [] => none
  | c :: cs =>
    if bracketDepth depth c = 0 then some cs else closeBracket (bracketDepth depth c) cs

/-- What follows the token at the front of a text, if the text holds its end.  A
plain token ends wherever the text does. -/
def closeToken : CStr → Option CStr
  | '"' :: cs => closeQuoted cs
  | '[' :: cs => closeBracket 0 ('[' :: cs)
  | cs => some (cs.dropWhile fun c => !(isSeparator c || isLineEnd c))

/-! ### Quoted tokens -/

theorem closeQuoted_other (hquote : c ≠ '"') (hslash : c ≠ '\\') (cs : CStr) :
    closeQuoted (c :: cs) = closeQuoted cs := by simp_all [closeQuoted]

theorem quoted_induction {motive : CStr → Prop} (nil : motive []) (slash : motive ['\\'])
    (quote : ∀ cs, motive ('"' :: cs)) (escape : ∀ c cs, motive cs → motive ('\\' :: c :: cs))
    (other : ∀ c cs, c ≠ '"' → c ≠ '\\' → motive cs → motive (c :: cs)) (p : CStr) : motive p := by
  fun_induction closeQuoted p with
  | case1 => exact nil
  | case2 cs => exact quote cs
  | case3 c cs ih => exact escape c cs ih
  | case4 c cs hq hb ih =>
    by_cases hslash : c = '\\'
    · cases cs with
      | nil => exact hslash ▸ slash
      | cons d cs => exact (hb d cs hslash rfl).elim
    · exact other c cs hq hslash ih

theorem spanQuoted_close (h : closeQuoted p = some rest) (x : CStr) :
    spanQuoted (p ++ x) = ((spanQuoted p).1, rest ++ x) := by
  induction p using quoted_induction with
  | nil => cases h
  | slash => cases h
  | quote cs =>
    cases h
    rfl
  | escape c cs ih => simp [spanQuoted_escape, ih h]
  | other c cs hq hs ih => simp_all [closeQuoted_other, spanQuoted_other]

theorem spanQuoted_open (h : closeQuoted p = none) : spanQuoted p = (p, []) := by
  induction p using quoted_induction with
  | nil => rfl
  | slash => rfl
  | quote cs => cases h
  | escape c cs ih => rw [spanQuoted_escape, ih h]
  | other c cs hq hs ih => grind [closeQuoted_other, spanQuoted_other]

theorem closeQuoted_open_snoc (hc : c ≠ '"') (h : closeQuoted p = none) :
    closeQuoted (p ++ [c]) = none := by
  induction p using quoted_induction with
  | nil =>
    by_cases hslash : c = '\\'
    · rw [hslash]
      rfl
    · exact closeQuoted_other hc hslash []
  | slash => rfl
  | quote cs => cases h
  | escape d cs ih => exact ih h
  | other d cs hq hs ih => simp_all [closeQuoted_other]

theorem spanQuoted_runs_on (h : closeQuoted p = none) (x : CStr) :
    p <+: (spanQuoted (p ++ x)).1 := by
  induction p using quoted_induction with
  | nil => exact nil_prefix
  | slash =>
    cases x with
    | nil => exact prefix_rfl
    | cons c x => simp [spanQuoted_escape]
  | quote cs => cases h
  | escape c cs ih =>
    exact cons_prefix_cons.mpr ⟨rfl, cons_prefix_cons.mpr ⟨rfl, ih h⟩⟩
  | other c cs hq hs ih => simp_all [closeQuoted_other, spanQuoted_other]

/-! ### Bracketed tokens -/

theorem spanBracket_close (h : closeBracket depth p = some rest) (x : CStr) :
    spanBracket depth (p ++ x) = ((spanBracket depth p).1, rest ++ x) := by
  induction p generalizing depth with
  | nil => cases h
  | cons c cs ih => grind [closeBracket, spanBracket]

theorem spanBracket_open (h : closeBracket depth p = none) : spanBracket depth p = (p, []) := by
  induction p generalizing depth with
  | nil => rfl
  | cons c cs ih => grind [closeBracket, spanBracket]

theorem spanBracket_runs_on (h : closeBracket depth p = none) (x : CStr) :
    p <+: (spanBracket depth (p ++ x)).1 := by
  induction p generalizing depth with
  | nil => exact nil_prefix
  | cons c cs ih => grind [closeBracket, spanBracket]

theorem closeBracket_open_snoc (depth : ℕ) {p : CStr} {c : Char} (hopen : c ≠ '[')
    (hclose : c ≠ ']') (hdepth : depth ≠ 0) (h : closeBracket depth p = none) :
    closeBracket depth (p ++ [c]) = none := by
  induction p generalizing depth with
  | nil => simp_all [closeBracket, bracketDepth]
  | cons d cs ih => grind [closeBracket]

/-! ### Tokens -/

/-- The text is empty or goes on with a character that ends a line. -/
def EndsLine (x : CStr) : Prop := ∀ c, x.head? = some c → isLineEnd c = true

theorem endsLine_nil : EndsLine [] := by
  intro c h
  cases h

theorem endsLine_cons (h : isLineEnd c = true) : EndsLine (c :: x) := by
  intro d hd
  cases hd
  exact h

theorem ne_of_isLineEnd (hc : isLineEnd c = true) (hd : isLineEnd d = false) : c ≠ d := by
  rintro rfl
  rw [hc] at hd
  cases hd

def isPlain (c : Char) : Bool := !(isSeparator c || isLineEnd c)

theorem isPlain_of_isLineEnd (h : isLineEnd c = true) : isPlain c = false := by
  rw [isPlain, h, Bool.or_true]
  rfl

theorem spanToken_plain {c : Char} (hquote : c ≠ '"') (hopen : c ≠ '[') (cs : CStr) :
    spanToken (c :: cs) = ((c :: cs).takeWhile isPlain, (c :: cs).dropWhile isPlain) := by
  rw [spanToken, span_eq_takeWhile_dropWhile]
  · rfl
  all_goals grind

theorem closeToken_plain {c : Char} (hquote : c ≠ '"') (hopen : c ≠ '[') (cs : CStr) :
    closeToken (c :: cs) = some ((c :: cs).dropWhile isPlain) := by
  rw [closeToken]
  · rfl
  all_goals grind

theorem isSeparator_of_isLineEnd (h : isLineEnd c = true) : isSeparator c = false := by
  simp only [isLineEnd, Bool.or_eq_true, decide_eq_true_eq] at h
  obtain ((rfl | rfl) | rfl) | rfl := h <;> rfl

theorem span_append {stays : Char → Bool} (hstays : ∀ c, isLineEnd c = true → stays c = false)
    (p : CStr) (hx : EndsLine x) : (p ++ x).takeWhile stays = p.takeWhile stays ∧
      (p ++ x).dropWhile stays = p.dropWhile stays ++ x := by
  induction p with
  | nil =>
    cases x with
    | nil => exact ⟨rfl, rfl⟩
    | cons c x =>
      have hc := hstays c (hx c rfl)
      simp [hc]
  | cons c p ih =>
    cases hc : stays c with
    | false => simp [hc]
    | true => simp [hc, ih.1, ih.2]

theorem spanToken_close (h : closeToken (c :: cs) = some rest) (hx : EndsLine x) :
    spanToken (c :: cs ++ x) = ((spanToken (c :: cs)).1, rest ++ x) := by
  by_cases hquote : c = '"'
  · subst hquote
    change ('"' :: (spanQuoted (cs ++ x)).1, (spanQuoted (cs ++ x)).2) = _
    rw [spanQuoted_close h]
    rfl
  · by_cases hopen : c = '['
    · subst hopen
      exact spanBracket_close h x
    rw [closeToken_plain hquote hopen] at h
    cases h
    rw [cons_append, spanToken_plain hquote hopen, spanToken_plain hquote hopen,
      ← cons_append, (span_append (fun _ => isPlain_of_isLineEnd) _ hx).1,
      (span_append (fun _ => isPlain_of_isLineEnd) _ hx).2]

theorem closeToken_none (h : closeToken (c :: cs) = none) : c = '"' ∨ c = '[' := by
  by_contra hc
  simp_all [not_or, closeToken_plain]

theorem spanToken_open (h : closeToken (c :: cs) = none) : spanToken (c :: cs) = (c :: cs, []) := by
  obtain rfl | rfl := closeToken_none h
  · change ('"' :: (spanQuoted cs).1, (spanQuoted cs).2) = _
    rw [spanQuoted_open h]
  · exact spanBracket_open h

theorem spanToken_runs_on (h : closeToken (c :: cs) = none) (x : CStr) :
    c :: cs <+: (spanToken (c :: cs ++ x)).1 := by
  obtain rfl | rfl := closeToken_none h
  · exact cons_prefix_cons.mpr ⟨rfl, spanQuoted_runs_on h x⟩
  · exact spanBracket_runs_on h x

theorem closeToken_open_snoc (hd : isLineEnd d = true) (h : closeToken (c :: cs) = none) :
    closeToken (c :: cs ++ [d]) = none := by
  obtain rfl | rfl := closeToken_none h
  · exact closeQuoted_open_snoc (ne_of_isLineEnd hd rfl) h
  · exact closeBracket_open_snoc 1 (ne_of_isLineEnd hd rfl) (ne_of_isLineEnd hd rfl)
      Nat.one_ne_zero h

/-! ## Blank texts -/

/-- The tokenizer finds no token: separators, up to the end or a line end. -/
def blank (s : CStr) : Bool := (s.dropWhile isSeparator).head?.all isLineEnd

theorem tokenizeFrom_eq_ok_nil_iff (n : ℕ) (p : CStr) :
    tokenizeFrom n p = .ok [] ↔ blank p = true := by
  rw [tokenizeFrom_eq, blank]
  cases p.dropWhile isSeparator with
  | nil => simp
  | cons c cs =>
    cases hc : isLineEnd c with
    | true => simp [hc]
    | false =>
      simp only [hc, Bool.false_eq_true, if_false, List.head?_cons, Option.all_some, iff_false]
      by_cases hn : archMaxTokens ≤ n
      · rw [if_pos hn]
        exact fun h => by cases h
      rw [if_neg hn]
      intro h
      obtain ⟨toks, -, h⟩ := Exec.of_bind_eq_ok h
      cases h

theorem dropWhile_isSeparator_append (p : CStr) (hx : EndsLine x) :
    (p ++ x).dropWhile isSeparator = p.dropWhile isSeparator ++ x :=
  (span_append (fun _ => isSeparator_of_isLineEnd) p hx).2

theorem blank_append (p : CStr) (hx : EndsLine x) : blank (p ++ x) = blank p := by
  rw [blank, blank, dropWhile_isSeparator_append p hx]
  cases p.dropWhile isSeparator with
  | nil =>
    cases x with
    | nil => rfl
    | cons c x => simp [hx c rfl]
  | cons c cs => rfl

/-! ## Comments -/

theorem length_closeToken (h : closeToken (c :: cs) = some rest) :
    rest.length ≤ (c :: cs).length := by
  have hspan := spanToken_close h endsLine_nil
  grind [length_spanToken_snd]

/-- A comment behind `code`, with `n` tokens before, is passed over: no token is open
at its first character, and if that character is the one behind a token, where it is
overwritten, the rest of the comment is `clear` of tokens. -/
def apart (n : ℕ) (code : CStr) (clear : Bool) : Bool :=
  match _h : code.dropWhile isSeparator with
  | [] => true
  | c :: cs =>
    if isLineEnd c || archMaxTokens ≤ n then true
    else
      match _hs : closeToken (c :: cs) with
      | none => false
      | some [] => clear
      | some (_ :: rest) => apart (n + 1) rest clear
termination_by code.length
decreasing_by
  have h₁ := (dropWhile_suffix isSeparator (l := code)).length_le
  have h₂ := length_closeToken _hs
  rw [length_cons] at h₂
  rw [_h] at h₁
  omega

def isCommentStart (c : Char) : Bool := c = '#' || c = ';'

theorem isLineEnd_of_isCommentStart (h : isCommentStart c = true) : isLineEnd c = true := by
  simp only [isCommentStart, Bool.or_eq_true, decide_eq_true_eq] at h
  obtain rfl | rfl := h <;> rfl

def IsEnd (z : CStr) : Prop := z = [] ∨ z = ['\n']

theorem IsEnd.endsLine (h : IsEnd z) : EndsLine z := by
  obtain rfl | rfl := h
  · exact endsLine_nil
  · exact endsLine_cons rfl

theorem consTokens_inj (t : CStr) {a b : Except AsError (List CStr)} :
    (a >>= fun toks => .ok (t :: toks) : Except AsError (List CStr)) =
      (b >>= fun toks => .ok (t :: toks)) ↔ a = b := by
  constructor
  · intro h
    cases a with
    | error e =>
      cases b with
      | error e' => exact h
      | ok y => cases h
    | ok x =>
      cases b with
      | error e' => cases h
      | ok y =>
        cases h
        rfl
  · exact fun h => h ▸ rfl

theorem tokenizeFrom_head {t : CStr} {toks : List CStr}
    (hdrop : p.dropWhile isSeparator = c :: cs) (hend : isLineEnd c = false)
    (hn : n < archMaxTokens) (h : tokenizeFrom n p = .ok (t :: toks)) :
    (spanToken (c :: cs)).1 = t := by
  rw [tokenizeFrom_eq, hdrop] at h
  simp only [hend, Bool.false_eq_true, if_false, if_neg (Nat.not_le.mpr hn)] at h
  obtain ⟨rest, -, h⟩ := Exec.of_bind_eq_ok h
  cases h
  rfl

theorem tokenizeFrom_full (hdrop : p.dropWhile isSeparator = c :: cs) (hend : isLineEnd c = false)
    (hn : archMaxTokens ≤ n) : tokenizeFrom n p = rivAsDie "too many tokens" none := by
  simp_all [tokenizeFrom_eq, Bool.false_eq_true]

theorem tokenizeFrom_blank_eq {code : CStr} (h : blank code = true) (hx : EndsLine x)
    (hz : EndsLine z) : tokenizeFrom n (code ++ x) = tokenizeFrom n (code ++ z) := by
  rw [(tokenizeFrom_eq_ok_nil_iff n (code ++ x)).mpr (by rwa [blank_append code hx]),
    (tokenizeFrom_eq_ok_nil_iff n (code ++ z)).mpr (by rwa [blank_append code hz])]

theorem of_not_stop (h : ¬(isLineEnd c || decide (archMaxTokens ≤ n)) = true) :
    isLineEnd c = false ∧ n < archMaxTokens := by grind

section Step

variable {n : ℕ} {code cs : CStr} {c : Char} (hdrop : code.dropWhile isSeparator = c :: cs)
    (hend : isLineEnd c = false) (hn : n < archMaxTokens)

include hdrop

theorem dropWhile_code (hx : EndsLine x) :
    (code ++ x).dropWhile isSeparator = c :: (cs ++ x) := by grind [dropWhile_isSeparator_append]

include hend hn

theorem tokenizeFrom_closed (hclose : closeToken (c :: cs) = some (d :: rest)) (hx : EndsLine x) :
    tokenizeFrom n (code ++ x) = (do
      let toks ← tokenizeFrom (n + 1) (rest ++ x)
      .ok ((spanToken (c :: cs)).1 :: toks)) :=
  tokenizeFrom_token_cons (dropWhile_code hdrop hx) hend hn (spanToken_close hclose hx)

theorem tokenizeFrom_last_cons (hclose : closeToken (c :: cs) = some []) (hd : isLineEnd d = true) :
    tokenizeFrom n (code ++ d :: x) = (do
      let toks ← tokenizeFrom (n + 1) x
      .ok ((spanToken (c :: cs)).1 :: toks)) :=
  have hx := endsLine_cons (x := x) hd
  tokenizeFrom_token_cons (dropWhile_code hdrop hx) hend hn (spanToken_close hclose hx)

theorem tokenizeFrom_last (hz : IsEnd z) (hclose : closeToken (c :: cs) = some []) :
    tokenizeFrom n (code ++ z) = (do
      let toks ← (.ok [] : Except AsError (List CStr))
      .ok ((spanToken (c :: cs)).1 :: toks)) := by
  obtain rfl | rfl := hz
  · exact tokenizeFrom_token_nil (dropWhile_code hdrop endsLine_nil) hend hn
      (spanToken_close hclose endsLine_nil)
  · rw [tokenizeFrom_last_cons hdrop hend hn hclose rfl,
      (tokenizeFrom_eq_ok_nil_iff (n + 1) []).mpr rfl]

theorem tokenizeFrom_open (hz : IsEnd z) (hclose : closeToken (c :: cs) = none) :
    tokenizeFrom n (code ++ z) = .ok [c :: cs ++ z] := by
  refine tokenizeFrom_token_nil (dropWhile_code hdrop hz.endsLine) hend hn ?_
  obtain rfl | rfl := hz
  · simp_all [spanToken_open]
  · exact spanToken_open (closeToken_open_snoc rfl hclose)

theorem tokenizeFrom_open_ne {h : Char} {tail : CStr} (hh : isCommentStart h = true)
    (hz : IsEnd z) (hclose : closeToken (c :: cs) = none) :
    tokenizeFrom n (code ++ h :: tail) ≠ tokenizeFrom n (code ++ z) := by
  intro heq
  have hh' := isLineEnd_of_isCommentStart hh
  rw [tokenizeFrom_open hdrop hend hn hz hclose] at heq
  have htok : (spanToken (c :: (cs ++ h :: tail))).1 = c :: cs ++ z :=
    tokenizeFrom_head (dropWhile_code hdrop (endsLine_cons hh')) hend hn heq
  have hruns : c :: (cs ++ [h]) <+: (spanToken (c :: (cs ++ [h]) ++ tail)).1 :=
    spanToken_runs_on (closeToken_open_snoc hh' hclose) tail
  have hassoc : c :: (cs ++ [h]) ++ tail = c :: (cs ++ h :: tail) := by simp
  rw [hassoc, htok] at hruns
  have hprefix : [h] <+: z := (prefix_append_right_inj (c :: cs)).mp hruns
  obtain rfl | rfl := hz
  · cases prefix_nil.mp hprefix
  · rw [(cons_prefix_cons.mp hprefix).1] at hh
    cases hh

end Step

theorem tokenizeFrom_comment_iff (n : ℕ) (code tail : CStr) {h : Char}
    (hh : isCommentStart h = true) (hz : IsEnd z) :
    tokenizeFrom n (code ++ h :: tail) = tokenizeFrom n (code ++ z) ↔
      apart n code (blank tail) = true := by
  have hh' := isLineEnd_of_isCommentStart hh
  have hx : EndsLine (h :: tail) := endsLine_cons hh'
  generalize hclear : blank tail = clear
  fun_induction apart n code clear with
  | case1 n code hdrop =>
    have hblank : blank code = true := by
      rw [blank, hdrop]
      rfl
    exact iff_of_true (tokenizeFrom_blank_eq hblank hx hz.endsLine) rfl
  | case2 n code c cs hdrop hstop =>
    refine iff_of_true ?_ rfl
    cases hend : isLineEnd c with
    | true =>
      have hblank : blank code = true := by
        rw [blank, hdrop]
        exact hend
      exact tokenizeFrom_blank_eq hblank hx hz.endsLine
    | false =>
      rw [hend, Bool.false_or, decide_eq_true_eq] at hstop
      rw [tokenizeFrom_full (dropWhile_code hdrop hx) hend hstop,
        tokenizeFrom_full (dropWhile_code hdrop hz.endsLine) hend hstop]
  | case3 n code c cs hdrop hstop hclose =>
    obtain ⟨hend, hn⟩ := of_not_stop hstop
    exact iff_of_false (tokenizeFrom_open_ne hdrop hend hn hh hz hclose) Bool.false_ne_true
  | case4 n code c cs hdrop hstop hclose =>
    obtain ⟨hend, hn⟩ := of_not_stop hstop
    rw [tokenizeFrom_last_cons hdrop hend hn hclose hh',
      tokenizeFrom_last hdrop hend hn hz hclose, consTokens_inj, tokenizeFrom_eq_ok_nil_iff,
      hclear]
  | case5 n code c cs hdrop hstop d rest hclose ih =>
    obtain ⟨hend, hn⟩ := of_not_stop hstop
    rw [tokenizeFrom_closed hdrop hend hn hclose hx,
      tokenizeFrom_closed hdrop hend hn hclose hz.endsLine, consTokens_inj]
    exact ih

end Rivet.Assembler
