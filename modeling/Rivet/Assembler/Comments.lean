import Rivet.Assembler.LineNumbers
import Rivet.Assembler.TokenEnds

/-!
# Comments

A comment runs from the first `#` or `;` of a line that is not in a string to the
end of the line.  The assembler has no such notion.  It reads a line in pieces of
511 characters and takes each piece as a line of its own, and it drops what follows
a `#` or a `;` only where the tokenizer looks for the next token.  The comments of a
text can be deleted just in case each of them is apart from the code before it and
no piece behind the first holds a token.
-/

namespace Rivet.Assembler

open CLib List

variable {body s text z : List Char} {c : Char}

/-! ## Text without comments -/

def textLines : List Char → List (List Char)
  | [] => []
  | c :: cs =>
    if c = '\n' then [c] :: textLines cs
    else
      match textLines cs with
      | [] => [[c]]
      | line :: lines => (c :: line) :: lines

/-- Where the characters of a line stand: in the code, in a string, or behind a
backslash in a string. -/
inductive LexState where
  | code
  | string
  | escaped
  deriving DecidableEq, Repr

def LexState.next : LexState → Char → LexState
  | .code, c => if c = '"' then .string else .code
  | .string, c => if c = '"' then .code else if c = '\\' then .escaped else .string
  | .escaped, _ => .string

def splitComment : LexState → List Char → List Char × List Char
  | _, [] => ([], [])
  | s, c :: cs =>
    if s = .code ∧ isCommentStart c then ([], c :: cs)
    else (c :: (splitComment (s.next c) cs).1, (splitComment (s.next c) cs).2)

def lineBody (line : List Char) : List Char := line.takeWhile (· ≠ '\n')

def codeOf (line : List Char) : List Char := (splitComment .code (lineBody line)).1

def commentOf (line : List Char) : List Char := (splitComment .code (lineBody line)).2

def stripLine (line : List Char) : List Char :=
  codeOf line ++ line.dropWhile (· ≠ '\n')

def stripComments (text : List Char) : List Char := (textLines text).flatMap stripLine

/-! ## What is compared -/

/-- The bytes `main` writes. -/
def outputBytes (st : AsState) : List RivU8 := (List.range st.maxPc.toNat).map st.prog

/-- What the assembler makes of a text: the bytes and the symbols, or the message it
is rejected with. -/
def assembleResult (arch : Arch) (base : RivU32) (text : List Char) :
    Except AsError (List RivU8 × List Sym) :=
  (assemble arch base text).map fun r => (outputBytes r.2, r.2.symtab)

/-- What the tokenizer makes of lines, the ones without a token left out. -/
def tokensOf (lines : List CStr) : List (Except AsError (List CStr)) :=
  (lines.filter fun line => !blank line).map tokenize

def tokenLines (text : List Char) : List (Except AsError (List CStr)) :=
  tokensOf (fileLines text)

/-- Deleting the comments of a text changes neither the tokens the assembler works
on nor what it makes of them. -/
structure CommentsHarmless (text : List Char) : Prop where
  tokens : tokenLines (stripComments text) = tokenLines text
  result : ∀ arch base,
    assembleResult arch base (stripComments text) = assembleResult arch base text

/-! ## The condition -/

/-- The characters `fgets` reads at most. -/
def pieceLen : ℕ := maxLine - 1

/-- The end of the code, from where the last piece it reaches into begins. -/
def lastPiece (code : List Char) : List Char :=
  code.drop (pieceLen * (code.length / pieceLen))

def nearComment (line : List Char) : List Char :=
  (commentOf line).take (pieceLen - (lastPiece (codeOf line)).length)

def farComment (line : List Char) : List Char :=
  (commentOf line).drop (pieceLen - (lastPiece (codeOf line)).length)

def CommentApart (line : List Char) : Prop :=
  commentOf line = [] ∨
    ('\x00' ∈ lastPiece (codeOf line) ∨
      apart 0 (lastPiece (codeOf line)) (blank (cstr (nearComment line).tail)) = true) ∧
    ∀ j, blank (cstr (((farComment line).drop (pieceLen * j)).take pieceLen)) = true

/-! ## Lines of a text -/

theorem textLines_line (hbody : '\n' ∉ body) (rest : List Char) :
    textLines (body ++ '\n' :: rest) = (body ++ ['\n']) :: textLines rest := by
  induction body with
  | nil => rfl
  | cons c body ih => simp_all [not_or, textLines, Ne.symm]

theorem textLines_last (hbody : '\n' ∉ body) (hne : body ≠ []) : textLines body = [body] := by
  induction body with
  | nil => exact absurd rfl hne
  | cons c body ih =>
    rw [mem_cons, not_or] at hbody
    rw [textLines, if_neg (Ne.symm hbody.1)]
    cases body with
    | nil => rfl
    | cons d body => rw [ih hbody.2 (cons_ne_nil d body)]

theorem text_induction {motive : List Char → Prop} (nil : motive [])
    (last : ∀ body, '\n' ∉ body → body ≠ [] → motive body)
    (line : ∀ body rest, '\n' ∉ body → motive rest → motive (body ++ '\n' :: rest))
    (text : List Char) : motive text := by
  induction hn : text.length using Nat.strong_induction_on generalizing text with
  | _ n ih =>
    by_cases hmem : '\n' ∈ text
    · obtain ⟨body, rest, rfl, hbody⟩ := eq_append_cons_of_mem hmem
      grind
    grind

theorem mem_textLines {line : List Char} (h : line ∈ textLines text) :
    ∃ body z, '\n' ∉ body ∧ IsEnd z ∧ line = body ++ z := by
  induction text using text_induction with
  | nil => cases h
  | last body hbody hne =>
    rw [textLines_last hbody hne, mem_singleton] at h
    exact ⟨body, [], hbody, .inl rfl, h.trans (append_nil body).symm⟩
  | line body rest hbody ih =>
    rw [textLines_line hbody, mem_cons] at h
    obtain rfl | h := h
    · exact ⟨body, ['\n'], hbody, .inr rfl, rfl⟩
    · exact ih h

theorem splitComment_append (s : LexState) (cs : List Char) :
    (splitComment s cs).1 ++ (splitComment s cs).2 = cs := by
  induction cs generalizing s with
  | nil => rfl
  | cons c cs ih => grind [splitComment]

theorem splitComment_head {s : LexState} {cs comment : List Char}
    (h : (splitComment s cs).2 = c :: comment) : isCommentStart c = true := by
  induction cs generalizing s with
  | nil => cases h
  | cons d cs ih => grind [splitComment]

section Line

variable {body z : List Char} (hbody : '\n' ∉ body) (hz : IsEnd z)

include hbody

theorem newline_not_mem_of_append {code comment : List Char} (h : code ++ comment = body) :
    '\n' ∉ code ∧ '\n' ∉ comment := by grind

include hz

theorem lineBody_append : lineBody (body ++ z) = body ∧ (body ++ z).dropWhile (· ≠ '\n') = z := by
  have hstays : ∀ c ∈ body, decide (c ≠ '\n') = true := by grind
  obtain rfl | rfl := hz
  all_goals simp_all [lineBody]

theorem line_parts : body = codeOf (body ++ z) ++ commentOf (body ++ z) ∧
    stripLine (body ++ z) = codeOf (body ++ z) ++ z := by
  obtain ⟨hline, hend⟩ := lineBody_append hbody hz
  rw [stripLine, hend, codeOf, commentOf, hline]
  exact ⟨(splitComment_append .code body).symm, rfl⟩

end Line

/-! ## Pieces of a line -/

theorem tokensOf_append (as bs : List CStr) : tokensOf (as ++ bs) = tokensOf as ++ tokensOf bs := by
  simp [tokensOf]

theorem tokensOf_blank {line : CStr} (h : blank line = true) : tokensOf [line] = [] := by
  grind [tokensOf]

theorem tokensOf_tokens {line : CStr} (h : blank line = false) :
    tokensOf [line] = [tokenize line] := by grind [tokensOf]

theorem cstr_cons (hc : c ≠ '\x00') (s : List Char) : cstr (c :: s) = c :: cstr s :=
  takeWhile_cons_of_pos (decide_eq_true hc)

theorem cstr_append_of_mem (h : '\x00' ∈ s) (t : List Char) : cstr (s ++ t) = cstr s := by
  induction s with
  | nil => cases h
  | cons c s ih =>
    by_cases hc : c = '\x00'
    · subst hc
      rfl
    grind [cstr_cons]

theorem cstr_append_of_not_mem (h : '\x00' ∉ s) (t : List Char) : cstr (s ++ t) = s ++ cstr t := by
  refine takeWhile_append_of_pos fun c hc => ?_
  exact decide_eq_true fun heq => h (heq ▸ hc)

theorem IsEnd.cstr_eq {z : CStr} (hz : IsEnd z) : cstr z = z := by obtain rfl | rfl := hz <;> rfl

theorem blank_cstr_append (s : List Char) {x : List Char} (hx : EndsLine (cstr x)) :
    blank (cstr (s ++ x)) = blank (cstr s) := by
  by_cases hs : '\x00' ∈ s
  · rw [cstr_append_of_mem hs]
  · rw [cstr_append_of_not_mem hs, blank_append s hx, cstr_eq_self hs]

theorem IsEnd.blank_append {z : CStr} (hz : IsEnd z) (s : List Char) :
    blank (cstr (s ++ z)) = blank (cstr s) := by
  refine blank_cstr_append s ?_
  rw [hz.cstr_eq]
  exact hz.endsLine

theorem tokenLines_nil : tokenLines [] = [] := by
  rw [tokenLines, fileLines_nil]
  rfl

theorem tokenLines_short (hs : '\n' ∉ s) (hlen : s.length < pieceLen) (hz : IsEnd z) :
    tokenLines (s ++ z) = tokensOf [cstr (s ++ z)] := by
  have hcap : s.length < maxLine - 1 := hlen
  obtain rfl | rfl := hz
  · rw [append_nil]
    have htake : s.take (maxLine - 1) = s := take_of_length_le (Nat.le_of_lt hcap)
    cases s with
    | nil =>
      rw [tokenLines_nil]
      rfl
    | cons c s => grind [tokenLines, fileLines_eq, fgets_no_newline, fileLines_nil]
  · rw [tokenLines, fileLines_eq (by simp), fgets_line hs hcap, fileLines_nil]

theorem tokenLines_full (hs : '\n' ∉ s.take pieceLen) (hlen : pieceLen ≤ s.length) :
    tokenLines s = tokensOf [cstr (s.take pieceLen)] ++ tokenLines (s.drop pieceLen) := by
  have hne : s ≠ [] := by
    rintro rfl
    exact absurd hlen (by decide)
  have hread : fgets (maxLine - 1) s = (s.take pieceLen, s.drop pieceLen) := fgets_no_newline hs
  rw [tokenLines, fileLines_eq hne, hread, ← singleton_append, tokensOf_append]
  rfl

theorem tokenLines_piece (hs : '\n' ∉ s) (hz : IsEnd z) : ∃ z', IsEnd z' ∧ tokenLines (s ++ z) =
      tokensOf [cstr (s.take pieceLen ++ z')] ++ tokenLines (s.drop pieceLen ++ z) := by
  by_cases hlen : s.length < pieceLen
  · refine ⟨z, hz, ?_⟩
    rw [take_of_length_le (Nat.le_of_lt hlen), drop_of_length_le (Nat.le_of_lt hlen),
      tokenLines_short hs hlen hz,
      tokenLines_short (s := []) not_mem_nil (by decide) hz, nil_append]
    have hblank : blank (cstr z) = true := (hz.blank_append []).trans rfl
    rw [tokensOf_blank hblank, append_nil]
  · refine ⟨[], .inl rfl, ?_⟩
    grind [tokenLines_full]

theorem tokenLines_filled (k : ℕ) {x : List Char} (hs : '\n' ∉ s) (hlen : s.length = pieceLen * k) :
    tokenLines (s ++ x) = tokenLines s ++ tokenLines x := by
  induction k generalizing s with
  | zero => simp_all [tokenLines_nil]
  | succ k ih =>
    have hle : pieceLen ≤ s.length := by grind
    have hrest : (s.drop pieceLen).length = pieceLen * k := by grind
    grind [tokenLines_full]

theorem tokenLines_eq_nil_iff (hs : '\n' ∉ s) (hz : IsEnd z) : tokenLines (s ++ z) = [] ↔
      ∀ j, blank (cstr ((s.drop (pieceLen * j)).take pieceLen)) = true := by
  induction hn : s.length using Nat.strong_induction_on generalizing s with
  | _ n ih =>
    by_cases hne : s = []
    · subst hne
      refine iff_of_true ?_ fun j => ?_
      · rw [tokenLines_short hs (by decide) hz, tokensOf_blank]
        exact (hz.blank_append []).trans rfl
      · rw [drop_nil, take_nil]
        rfl
    · obtain ⟨z', hz', hpiece⟩ := tokenLines_piece hs hz
      have hshort : (s.drop pieceLen).length < n := by
        have hpos := length_pos_iff.mpr hne
        have hlen : 0 < pieceLen := by decide
        rw [length_drop]
        omega
      have hrest := ih _ hshort (fun hmem => hs (mem_of_mem_drop hmem)) rfl
      have hfirst : tokensOf [cstr (s.take pieceLen ++ z')] = [] ↔
          blank (cstr (s.take pieceLen)) = true := by
        rw [← hz'.blank_append (s.take pieceLen)]
        grind [tokensOf_blank, tokensOf_tokens]
      rw [hpiece, append_eq_nil_iff, hfirst, hrest]
      constructor
      · rintro ⟨hblank, hblanks⟩ j
        cases j with
        | zero => exact hblank
        | succ j => simp_all [Nat.add_comm, Nat.mul_succ]
      · intro h
        refine ⟨h 0, fun j => ?_⟩
        rw [drop_drop, Nat.add_comm, ← Nat.mul_succ]
        exact h (j + 1)

/-! ## One line -/

theorem ne_nul_of_isCommentStart (h : isCommentStart c = true) : c ≠ '\x00' := by
  rintro rfl
  cases h

section Piece

variable (code tail : List Char) {c : Char} {z z' : CStr} (hc : isCommentStart c = true)
    (hz : IsEnd z)

include hc hz

theorem blank_comment : blank (cstr (code ++ c :: tail)) = blank (cstr (code ++ z)) := by
  rw [hz.blank_append code]
  refine blank_cstr_append code ?_
  rw [cstr_cons (ne_nul_of_isCommentStart hc)]
  exact endsLine_cons (isLineEnd_of_isCommentStart hc)

theorem tokenize_comment_iff (hz' : IsEnd z') :
    tokenize (cstr (code ++ c :: (tail ++ z'))) = tokenize (cstr (code ++ z)) ↔
      '\x00' ∈ code ∨ apart 0 code (blank (cstr tail)) = true := by
  by_cases hnul : '\x00' ∈ code
  · simp_all [cstr_append_of_mem]
  rw [cstr_append_of_not_mem hnul, cstr_append_of_not_mem hnul,
    cstr_cons (ne_nul_of_isCommentStart hc), hz.cstr_eq,
    ← hz'.blank_append tail, tokenize, tokenize,
    tokenizeFrom_comment_iff 0 code (cstr (tail ++ z')) hc hz]
  exact (or_iff_right hnul).symm

end Piece

theorem tokensOf_eq_append_iff {a b : CStr} (hblank : blank a = blank b)
    (rest : List (Except AsError (List CStr))) :
    tokensOf [b] = tokensOf [a] ++ rest ↔ tokenize a = tokenize b ∧ rest = [] := by
  cases hb : blank b with
  | true =>
    have hok : ∀ l, blank l = true → tokenize l = .ok [] :=
      fun l => (tokenizeFrom_eq_ok_nil_iff 0 l).mpr
    simp_all [tokensOf_blank]
  | false => grind [tokensOf_tokens]

theorem length_tokensOf {a b : CStr} (hblank : blank a = blank b) :
    (tokensOf [b]).length = (tokensOf [a]).length := by
  cases hb : blank b with
  | true => rw [tokensOf_blank hb, tokensOf_blank (hblank.trans hb)]
  | false => simp_all [tokensOf_tokens]

theorem lastPiece_spec (code : List Char) : ∃ lead, code = lead ++ lastPiece code ∧
      lead.length = pieceLen * (code.length / pieceLen) ∧ (lastPiece code).length < pieceLen := by
  have hle : pieceLen * (code.length / pieceLen) ≤ code.length := Nat.mul_div_le ..
  refine ⟨code.take (pieceLen * (code.length / pieceLen)), (take_append_drop ..).symm,
    length_take_of_le hle, ?_⟩
  rw [lastPiece, length_drop, ← Nat.mod_eq_sub]
  exact Nat.mod_lt _ (by decide)

theorem nearComment_eq {line : List Char} (hne : commentOf line ≠ []) :
    ∃ c tail, nearComment line = c :: tail ∧ isCommentStart c = true := by
  obtain ⟨lead, -, -, hshort⟩ := lastPiece_spec (codeOf line)
  obtain ⟨c, tail, hcomment⟩ := exists_cons_of_ne_nil hne
  obtain ⟨room, hroom⟩ := Nat.exists_eq_succ_of_ne_zero (Nat.sub_ne_zero_of_lt hshort)
  refine ⟨c, tail.take room, ?_, splitComment_head hcomment⟩
  rw [nearComment, hcomment, hroom, take_succ_cons]

theorem piece_comment (line : List Char) :
    (lastPiece (codeOf line) ++ commentOf line).take pieceLen =
        lastPiece (codeOf line) ++ nearComment line ∧
      (lastPiece (codeOf line) ++ commentOf line).drop pieceLen = farComment line := by
  obtain ⟨lead, -, -, hshort⟩ := lastPiece_spec (codeOf line)
  rw [take_append, drop_append, take_of_length_le (Nat.le_of_lt hshort),
    drop_of_length_le (Nat.le_of_lt hshort)]
  exact ⟨rfl, nil_append _⟩

theorem tokenLines_comment (hbody : '\n' ∉ body) (hz : IsEnd z) (hne : commentOf (body ++ z) ≠ []) :
    ∃ lead a b rest, tokenLines (stripLine (body ++ z)) = lead ++ tokensOf [b] ∧
      tokenLines (body ++ z) = lead ++ (tokensOf [a] ++ rest) ∧ blank a = blank b ∧
      (tokenize a = tokenize b ∧ rest = [] ↔ CommentApart (body ++ z)) := by
  obtain ⟨hparts, hstrip⟩ := line_parts hbody hz
  obtain ⟨hcode, hcomment⟩ := newline_not_mem_of_append hbody hparts.symm
  obtain ⟨lead, hlead, hfilled, hshort⟩ := lastPiece_spec (codeOf (body ++ z))
  obtain ⟨c, tail, hnear, hc⟩ := nearComment_eq hne
  obtain ⟨hfirst, hbehind⟩ := piece_comment (body ++ z)
  have happart : CommentApart (body ++ z) ↔
      ('\x00' ∈ lastPiece (codeOf (body ++ z)) ∨
        apart 0 (lastPiece (codeOf (body ++ z))) (blank (cstr tail)) = true) ∧
      ∀ j, blank (cstr (((farComment (body ++ z)).drop (pieceLen * j)).take pieceLen)) = true := by
    rw [CommentApart, or_iff_right hne, hnear, tail_cons]
  have hline : body ++ z =
      lead ++ (lastPiece (codeOf (body ++ z)) ++ commentOf (body ++ z) ++ z) := by grind
  have hstripped : stripLine (body ++ z) = lead ++ (lastPiece (codeOf (body ++ z)) ++ z) := by
    rw [← append_assoc, ← hlead, hstrip]
  have hlead' : '\n' ∉ lead ∧ '\n' ∉ lastPiece (codeOf (body ++ z)) :=
    newline_not_mem_of_append hcode hlead.symm
  have hfar : '\n' ∉ farComment (body ++ z) := fun hmem => hcomment (mem_of_mem_drop hmem)
  have hjoined : '\n' ∉ lastPiece (codeOf (body ++ z)) ++ commentOf (body ++ z) := by grind
  obtain ⟨z', hz', hpiece⟩ := tokenLines_piece hjoined hz
  rw [hfirst, hbehind, hnear] at hpiece
  rw [happart, hstripped]
  generalize lastPiece (codeOf (body ++ z)) = code at *
  refine ⟨tokenLines lead, cstr (code ++ c :: (tail ++ z')), cstr (code ++ z),
    tokenLines (farComment (body ++ z) ++ z), ?_, ?_, blank_comment code (tail ++ z') hc hz, ?_⟩
  · rw [tokenLines_filled _ hlead'.1 hfilled, tokenLines_short hlead'.2 hshort hz]
  · have hassoc : code ++ c :: tail ++ z' = code ++ c :: (tail ++ z') := append_assoc ..
    calc tokenLines (body ++ z)
      _ = tokenLines (lead ++ (code ++ commentOf (body ++ z) ++ z)) := congrArg tokenLines hline
      _ = _ := by rw [tokenLines_filled _ hlead'.1 hfilled, hpiece, hassoc]
  · rw [tokenize_comment_iff code tail hc hz hz', tokenLines_eq_nil_iff hfar hz]

theorem tokenLines_stripLine_iff (hbody : '\n' ∉ body) (hz : IsEnd z) :
    tokenLines (stripLine (body ++ z)) = tokenLines (body ++ z) ↔ CommentApart (body ++ z) := by
  by_cases hne : commentOf (body ++ z) = []
  · obtain ⟨hparts, hstrip⟩ := line_parts hbody hz
    rw [hne, append_nil] at hparts
    rw [hstrip, ← hparts]
    exact iff_of_true rfl (.inl hne)
  · obtain ⟨lead, a, b, rest, hstrip, hline, hblank, hiff⟩ := tokenLines_comment hbody hz hne
    simp_all [tokensOf_eq_append_iff]

theorem length_tokenLines_stripLine (hbody : '\n' ∉ body) (hz : IsEnd z) :
    (tokenLines (stripLine (body ++ z))).length ≤ (tokenLines (body ++ z)).length := by
  by_cases hne : commentOf (body ++ z) = []
  · rw [(tokenLines_stripLine_iff hbody hz).mpr (.inl hne)]
  grind [length_tokensOf, tokenLines_comment]

/-! ## Files -/

theorem tokenLines_append (hbody : '\n' ∉ body) (rest : List Char) :
    tokenLines (body ++ '\n' :: rest) = tokenLines (body ++ ['\n']) ++ tokenLines rest := by
  rw [tokenLines, fileLines_append hbody, tokensOf_append]
  rfl

theorem tokenLines_eq_flatMap (text : List Char) :
    tokenLines text = (textLines text).flatMap tokenLines := by
  induction text using text_induction with
  | nil => exact tokenLines_nil
  | last body hbody hne => rw [textLines_last hbody hne, flatMap_singleton]
  | line body rest hbody ih => grind [textLines_line, tokenLines_append]

theorem tokenLines_stripComments (text : List Char) : tokenLines (stripComments text) =
      (textLines text).flatMap fun line => tokenLines (stripLine line) := by
  induction text using text_induction with
  | nil => exact tokenLines_nil
  | last body hbody hne => simp_all [stripComments, textLines_last]
  | line body rest hbody ih =>
    have hz : IsEnd ['\n'] := .inr rfl
    obtain ⟨hparts, hstrip⟩ := line_parts hbody hz
    have hcode := (newline_not_mem_of_append hbody hparts.symm).1
    rw [stripComments] at ih
    rw [stripComments, textLines_line hbody, flatMap_cons, flatMap_cons, hstrip,
      append_assoc, singleton_append, tokenLines_append hcode, ih]

theorem length_flatMap_le {α β : Type} {f g : α → List β} {l : List α}
    (h : ∀ x ∈ l, (f x).length ≤ (g x).length) : (l.flatMap f).length ≤ (l.flatMap g).length := by
  induction l with
  | nil => exact Nat.le_refl _
  | cons x l ih => grind

theorem flatMap_eq_iff {α β : Type} {f g : α → List β} {l : List α}
    (h : ∀ x ∈ l, (f x).length ≤ (g x).length) :
    l.flatMap f = l.flatMap g ↔ ∀ x ∈ l, f x = g x := by
  induction l with
  | nil => simp
  | cons x l ih =>
    have htail : ∀ y ∈ l, (f y).length ≤ (g y).length :=
      fun y hy => h y (mem_cons_of_mem x hy)
    rw [flatMap_cons, flatMap_cons, forall_mem_cons, ← ih htail]
    constructor
    · intro heq
      have hlen := congrArg List.length heq
      rw [length_append, length_append] at hlen
      have hhead := h x mem_cons_self
      have hrest := length_flatMap_le htail
      exact append_inj heq (by omega)
    · rintro ⟨hx, hl⟩
      rw [hx, hl]

theorem tokenLines_stripComments_iff (text : List Char) :
    tokenLines (stripComments text) = tokenLines text ↔
      ∀ line ∈ textLines text, CommentApart line := by
  have hlen : ∀ line ∈ textLines text,
      (tokenLines (stripLine line)).length ≤ (tokenLines line).length := by
    intro line hline
    grind [length_tokenLines_stripLine, mem_textLines]
  rw [tokenLines_stripComments, tokenLines_eq_flatMap text, flatMap_eq_iff hlen]
  refine forall₂_congr fun line hline => ?_
  grind [tokenLines_stripLine_iff, mem_textLines]

/-! ## Results -/

/-- A pass over lines that are tokenized already, without line numbers. -/
def runTokenLines (lines : List (Except AsError (List CStr))) (st : AsState) :
    Except AsError AsState :=
  lines.foldlM (fun st r => r >>= fun toks => runTokens toks st) st

theorem processLine_atLine (line : CStr) (n : ℕ) (st : AsState) :
    processLine line (st.atLine n) = (processLine line st).map (AsState.atLine n) := by
  rw [processLine_eq, processLine_eq]
  cases tokenize line with
  | error e => rfl
  | ok toks => exact runTokens_atLine n st toks

theorem assembleLines_eq (lines : List CStr) (st : AsState) :
    (assembleLines lines st).map (AsState.atLine 0) =
      runTokenLines (tokensOf lines) (st.atLine 0) := by
  induction lines generalizing st with
  | nil => rfl
  | cons line lines ih =>
    have hnext : nextLine st = st.atLine (st.line + 1) := rfl
    change (processLine line (nextLine st) >>= assembleLines lines).map _ = _
    cases hblank : blank line with
    | true =>
      have htoks : tokenize line = .ok [] := (tokenizeFrom_eq_ok_nil_iff 0 line).mpr hblank
      have hskip : processLine line (nextLine st) = .ok (nextLine st) := by
        rw [processLine_eq, htoks]
        rfl
      rw [hskip, ← singleton_append, tokensOf_append, tokensOf_blank hblank]
      exact ih (nextLine st)
    | false =>
      rw [← singleton_append, tokensOf_append, tokensOf_tokens hblank, hnext, processLine_atLine]
      change _ = processLine line (st.atLine 0) >>= runTokenLines (tokensOf lines)
      rw [processLine_atLine]
      cases processLine line st with
      | error e => rfl
      | ok s => exact ih (s.atLine (st.line + 1))

theorem assembleFile_eq (text : List Char) (st : AsState) :
    (assembleFile text st).map (AsState.atLine 0) =
      runTokenLines (tokenLines text) (startFile st) :=
  assembleLines_eq (fileLines text) (startFile st)

theorem assembleResult_eq (arch : Arch) (base : RivU32) (text : List Char) :
    assembleResult arch base text = (do
      let st0 ← runTokenLines (tokenLines text) (startFile (initState arch base))
      let st1 ← runTokenLines (tokenLines text) (startFile { st0 with pass := .emit })
      .ok (outputBytes st1, st1.symtab)) := by
  have hfile := assembleFile_eq text
  rw [assembleResult, assemble, ← hfile]
  cases assembleFile text (initState arch base) with
  | error e => rfl
  | ok st0 =>
    have hsecond := hfile { st0 with pass := .emit }
    change _ = runTokenLines (tokenLines text) (startFile { st0 with pass := .emit }) >>= _
    rw [← hsecond, Exec.ok_bind]
    cases assembleFile text { st0 with pass := .emit } with
    | error e => rfl
    | ok st1 => rfl

theorem assembleResult_congr {text' : List Char} (h : tokenLines text = tokenLines text')
    (arch : Arch) (base : RivU32) :
    assembleResult arch base text = assembleResult arch base text' := by
  rw [assembleResult_eq, assembleResult_eq, h]

/-- The bytes the assembler makes of a text for `x86_64`. -/
def bytesOf (text : List Char) : Option (List RivU8) :=
  (assembleResult .x86_64 0 text).toOption.map Prod.fst

theorem not_harmless_of_bytes (h : bytesOf (stripComments text) ≠ bytesOf text) :
    ¬CommentsHarmless text := by
  intro hharmless
  rw [bytesOf, bytesOf, hharmless.result] at h
  exact h rfl

end Rivet.Assembler
