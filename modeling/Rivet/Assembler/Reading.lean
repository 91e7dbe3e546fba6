import Rivet.Assembler.Frontend

/-!
# Reading a source text

How the loop of `assemble_file` cuts a text into the strings it hands to
`process_line`, and one step of the tokenizer as an equation.
-/

namespace Rivet.Assembler

open CLib

variable {body : List Char} {c : Char}

/-! ## Lines of a file -/

theorem fgets_line {cap : ℕ} (hbody : '\n' ∉ body) (hcap : body.length < cap) (rest : List Char) :
    fgets cap (body ++ '\n' :: rest) = (body ++ ['\n'], rest) := by
  induction body generalizing cap with
  | nil =>
    obtain ⟨cap, rfl⟩ := Nat.exists_eq_succ_of_ne_zero (Nat.ne_zero_of_lt hcap)
    rfl
  | cons c body ih =>
    obtain ⟨cap, rfl⟩ := Nat.exists_eq_succ_of_ne_zero (Nat.ne_zero_of_lt hcap)
    simp_all [not_or, Nat.succ_eq_add_one, fgets, Ne.symm]

theorem fgets_no_newline {cap : ℕ} {cs : List Char} (h : '\n' ∉ cs.take cap) :
    fgets cap cs = (cs.take cap, cs.drop cap) := by
  induction cap generalizing cs with
  | zero => rfl
  | succ cap ih =>
    cases cs with
    | nil => rfl
    | cons c cs => simp_all [not_or, fgets, Ne.symm]

theorem fileLines_eq {text : List Char} (h : text ≠ []) : fileLines text =
      cstr (fgets (maxLine - 1) text).1 :: fileLines (fgets (maxLine - 1) text).2 := by
  obtain ⟨c, cs, rfl⟩ := List.exists_cons_of_ne_nil h
  rw [fileLines]

@[simp] theorem fileLines_nil : fileLines [] = [] := by rw [fileLines]

theorem cstr_eq_self {s : List Char} (h : '\x00' ∉ s) : cstr s = s := by
  rw [cstr, List.takeWhile_eq_self_iff]
  grind

theorem fileLines_append (hbody : '\n' ∉ body) (rest : List Char) :
    fileLines (body ++ '\n' :: rest) = fileLines (body ++ ['\n']) ++ fileLines rest := by
  induction hn : body.length using Nat.strong_induction_on generalizing body with
  | _ n ih =>
    have hne : ∀ tail : List Char, body ++ '\n' :: tail ≠ [] := by simp
    by_cases hlen : body.length < maxLine - 1
    · simp [fileLines_eq (hne rest), fileLines_eq (hne []), fgets_line hbody hlen, fileLines_nil]
    have hread : ∀ tail : List Char, fgets (maxLine - 1) (body ++ '\n' :: tail) =
        (body.take (maxLine - 1), body.drop (maxLine - 1) ++ '\n' :: tail) := by
      grind [fgets_no_newline]
    have hshort : (body.drop (maxLine - 1)).length < n := by
      have hpos : 0 < maxLine - 1 := by decide
      rw [List.length_drop]
      omega
    grind [fileLines_eq]

theorem fileLines_line (hbody : '\n' ∉ body) (hnul : '\x00' ∉ body) (hlen : body.length ≤ 510)
    (rest : List Char) : fileLines (body ++ '\n' :: rest) = (body ++ ['\n']) :: fileLines rest := by
  have hcap : body.length < maxLine - 1 := Nat.lt_of_le_of_lt hlen (by decide)
  simp_all [fileLines_eq, fgets_line, cstr_eq_self]

theorem fileLines_last (hne : body ≠ []) (hbody : '\n' ∉ body) (hnul : '\x00' ∉ body)
    (hlen : body.length ≤ 510) : fileLines body = [body] := by
  have hcap : body.length ≤ maxLine - 1 := Nat.le_trans hlen (by decide)
  have htake : body.take (maxLine - 1) = body := List.take_of_length_le hcap
  grind [fileLines_eq, fgets_no_newline, cstr_eq_self, fileLines_nil]

/-! ## Tokens -/

theorem spanQuoted_other (hquote : c ≠ '"') (hslash : c ≠ '\\') (cs : CStr) :
    spanQuoted (c :: cs) = (c :: (spanQuoted cs).1, (spanQuoted cs).2) := by simp_all [spanQuoted]

theorem spanQuoted_escape (c : Char) (cs : CStr) :
    spanQuoted ('\\' :: c :: cs) = ('\\' :: c :: (spanQuoted cs).1, (spanQuoted cs).2) := by
  rw [spanQuoted]

theorem tokenizeFrom_eq (n : ℕ) (p : CStr) :
    tokenizeFrom n p =
      match p.dropWhile isSeparator with
      | [] => .ok []
      | c :: cs =>
        if isLineEnd c then .ok []
        else if archMaxTokens ≤ n then rivAsDie "too many tokens" none
        else (do
          let toks ←
            (match (spanToken (c :: cs)).2 with
            | [] => .ok []
            | _ :: rest => tokenizeFrom (n + 1) rest)
          .ok ((spanToken (c :: cs)).1 :: toks)) := by
  rw [tokenizeFrom]
  grind

theorem tokenizeFrom_token_nil {n : ℕ} {p cs tok : CStr}
    (hdrop : p.dropWhile isSeparator = c :: cs) (hend : isLineEnd c = false)
    (hn : n < archMaxTokens) (hspan : spanToken (c :: cs) = (tok, [])) :
    tokenizeFrom n p = .ok [tok] := by
  rw [tokenizeFrom_eq, hdrop]
  simp_all

theorem tokenizeFrom_token_cons {n : ℕ} {p cs tok rest : CStr} {d : Char}
    (hdrop : p.dropWhile isSeparator = c :: cs) (hend : isLineEnd c = false)
    (hn : n < archMaxTokens) (hspan : spanToken (c :: cs) = (tok, d :: rest)) :
    tokenizeFrom n p = (do
      let toks ← tokenizeFrom (n + 1) rest
      .ok (tok :: toks)) := by
  rw [tokenizeFrom_eq, hdrop]
  simp_all

end Rivet.Assembler
