import Mathlib.Tactic

/-!
# The parts of the C library the tools rely on

A C string is the list of the characters before its terminating NUL.  The
conversions below follow the C standard where it defines the result, and the
usual library behaviour (saturation, then truncation) where it does not.
-/

namespace CLib

abbrev CStr := List Char

/-- The string a buffer holds: its characters up to the first NUL. -/
def cstr (buf : List Char) : CStr := buf.takeWhile (· ≠ '\x00')

/-- `isspace` in the C locale. -/
def isSpace (c : Char) : Bool :=
  c = ' ' || c = '\t' || c = '\n' || c = '\x0b' || c = '\x0c' || c = '\r'

def digitVal (c : Char) : Option ℕ :=
  if c.isDigit then some (c.toNat - 48)
  else if 'a' ≤ c ∧ c ≤ 'f' then some (c.toNat - 87)
  else if 'A' ≤ c ∧ c ≤ 'F' then some (c.toNat - 55)
  else none

/-- Whether `c` is a digit of the given base. -/
def isDigitIn (base : ℕ) (c : Char) : Bool :=
  match digitVal c with
  | some d => decide (d < base)
  | none => false

/-- The longest run of digits, accumulated onto `acc`, and what follows it. -/
def spanDigits (base : ℕ) : ℕ → CStr → ℕ × CStr
  | acc, [] => (acc, [])
  | acc, c :: cs =>
    match digitVal c with
    | some d =>
      if d < base then spanDigits base (acc * base + d) cs
      else (acc, c :: cs)
    | none => (acc, c :: cs)

/-- The base announced by the prefix of a number, and the digits after it.
A `0x` that no hexadecimal digit follows is the octal number zero. -/
def detectBase : CStr → ℕ × CStr
  | '0' :: x :: d :: cs =>
    if (x = 'x' ∨ x = 'X') ∧ isDigitIn 16 d then (16, d :: cs)
    else (8, '0' :: x :: d :: cs)
  | '0' :: cs => (8, '0' :: cs)
  | cs => (10, cs)

def splitSign : CStr → Bool × CStr
  | '-' :: cs => (true, cs)
  | '+' :: cs => (false, cs)
  | cs => (false, cs)

/-- Saturation of an out-of-range value to `long long`. -/
def clampI64 (v : ℤ) : ℤ := max (-2 ^ 63) (min v (2 ^ 63 - 1))

/-- `strtoll`: the converted value and the unconverted rest, which is the
whole string when no conversion can be made.  Base zero is detected from the
prefix. -/
def strtoll (s : CStr) (base : ℕ) : ℤ × CStr :=
  let (neg, body) := splitSign (s.dropWhile isSpace)
  let (b, digits) := if base = 0 then detectBase body else (base, body)
  match digits with
  | [] => (0, s)
  | d :: _ =>
    if isDigitIn b d then
      let (n, rest) := spanDigits b 0 digits
      (clampI64 (if neg then -n else n), rest)
    else (0, s)

/-- `strtoul` with a 64-bit `unsigned long`: a number that is too large is
replaced by the largest one, and a sign negates modulo `2 ^ 64`. -/
def strtoul (s : CStr) (base : ℕ) : ℕ × CStr :=
  let (neg, body) := splitSign (s.dropWhile isSpace)
  let (b, digits) := if base = 0 then detectBase body else (base, body)
  match digits with
  | [] => (0, s)
  | d :: _ =>
    if isDigitIn b d then
      let (n, rest) := spanDigits b 0 digits
      (if 2 ^ 64 ≤ n then 2 ^ 64 - 1 else if neg then (2 ^ 64 - n) % 2 ^ 64 else n, rest)
    else (0, s)

/-- `strncpy` into a zeroed array of `size` characters whose last one stays. -/
def strncpyTo (size : ℕ) (s : CStr) : CStr := s.take (size - 1)

/-- `atoi`: `strtol` in base ten, cut down to an `int`. -/
def atoi (s : CStr) : ℤ := (strtoll s 10).1.bmod (2 ^ 32)

theorem clampI64_bounds (v : ℤ) : -2 ^ 63 ≤ clampI64 v ∧ clampI64 v < 2 ^ 63 := by
  unfold clampI64
  omega

theorem strtoll_bounds (s : CStr) (base : ℕ) :
    -2 ^ 63 ≤ (strtoll s base).1 ∧ (strtoll s base).1 < 2 ^ 63 := by
  have hzero : -2 ^ 63 ≤ (0 : ℤ) ∧ (0 : ℤ) < 2 ^ 63 := by decide
  unfold strtoll
  dsimp only
  generalize (if base = 0 then detectBase (splitSign (s.dropWhile isSpace)).2
    else (base, (splitSign (s.dropWhile isSpace)).2)) = body
  split
  · exact hzero
  next d _ _ =>
  by_cases hdig : isDigitIn body.1 d = true
  · rw [if_pos hdig]
    exact clampI64_bounds _
  · rw [if_neg hdig]
    exact hzero

example : strtoll "-0x1F".toList 0 = (-31, []) := by decide
example : strtoll "0x".toList 0 = (0, ['x']) := by decide

/-! ## Printed numbers -/

variable {b base d n : ℕ}

theorem digitVal_digitChar (h : d < 16) : digitVal d.digitChar = some d := by
  interval_cases d <;> decide

theorem isDigitIn_digitChar (hd : d < base) (hbase : base ≤ 16) :
    isDigitIn base d.digitChar = true := by grind [isDigitIn, digitVal_digitChar, decide_eq_true]

theorem spanDigits_append {acc v : ℕ} {ds : CStr} (h : spanDigits base acc ds = (v, [])) (cs : CStr)
    : spanDigits base acc (ds ++ cs) = spanDigits base v cs := by
  induction ds generalizing acc with
  | nil =>
    cases h
    rfl
  | cons c ds ih =>
    rw [spanDigits] at h
    grind [spanDigits]

theorem spanDigits_toDigits (h1 : 1 < base) (h2 : base ≤ 16) (n : ℕ) :
    spanDigits base 0 (Nat.toDigits base n) = (n, []) := by
  induction n using Nat.strong_induction_on with
  | _ n ih =>
    by_cases hlt : n < base
    · grind [Nat.toDigits_of_lt_base, spanDigits, digitVal_digitChar]
    have hle : base ≤ n := Nat.le_of_not_lt hlt
    have hmod : n % base < base := Nat.mod_lt n (by omega)
    rw [Nat.toDigits_of_base_le h1 hle,
      spanDigits_append (ih (n / base) (Nat.div_lt_self (by omega) h1)),
      spanDigits, digitVal_digitChar (by omega)]
    simp only [hmod, if_true, spanDigits, Nat.div_add_mod']

theorem head_toDigits (h1 : 1 < b) (h2 : b ≤ 16) (n : ℕ) :
    ∃ c cs, Nat.toDigits b n = c :: cs ∧ isDigitIn b c = true ∧ (0 < n → c ≠ '0') := by
  induction n using Nat.strong_induction_on with
  | _ n ih =>
    by_cases hlt : n < b
    · refine ⟨n.digitChar, [], Nat.toDigits_of_lt_base hlt,
        isDigitIn_digitChar hlt h2, fun hpos => ?_⟩
      have : n < 16 := Nat.lt_of_lt_of_le hlt h2
      interval_cases n <;> decide
    · have hle : b ≤ n := Nat.le_of_not_lt hlt
      obtain ⟨c, cs, hcs, hdig, hne⟩ :=
        ih (n / b) (Nat.div_lt_self (by omega) h1)
      refine ⟨c, cs ++ [(n % b).digitChar], ?_, hdig, fun _ => ?_⟩
      · grind [Nat.toDigits_of_base_le]
      · exact hne (Nat.div_pos hle (by omega))

theorem strtoll_toDigits_clamp {s body : CStr} {neg : Bool}
    (hs : splitSign (s.dropWhile isSpace) = (neg, body))
    (hbody : detectBase body = (b, Nat.toDigits b n)) (h1 : 1 < b) (h2 : b ≤ 16) :
    strtoll s 0 = (clampI64 (if neg then -(n : ℤ) else n), []) := by
  have hspan := spanDigits_toDigits h1 h2 n
  obtain ⟨c, cs, hcs, hdig, -⟩ := head_toDigits h1 h2 n
  simp_all [strtoll]

theorem strtoll_toDigits {s body : CStr} {neg : Bool}
    (hs : splitSign (s.dropWhile isSpace) = (neg, body))
    (hbody : detectBase body = (b, Nat.toDigits b n)) (h1 : 1 < b) (h2 : b ≤ 16) (hn : n < 2 ^ 63) :
    strtoll s 0 = (if neg then -(n : ℤ) else n, []) := by
  have hclamp : clampI64 (if neg then -(n : ℤ) else n) = if neg then -(n : ℤ) else n := by
    unfold clampI64
    cases neg <;> simp <;> omega
  rw [strtoll_toDigits_clamp hs hbody h1 h2, hclamp]

theorem splitSign_of_isDigit {c : Char} (h : c.isDigit = true) (cs : CStr) :
    splitSign ((c :: cs).dropWhile isSpace) = (false, c :: cs) := by
  have hspace : isSpace c = false := by
    rw [Bool.eq_false_iff]
    intro hc
    simp only [isSpace, Bool.or_eq_true, decide_eq_true_eq] at hc
    rcases hc with ((((rfl | rfl) | rfl) | rfl) | rfl) | rfl <;> exact absurd h (by decide)
  unfold splitSign
  split
  all_goals simp_all

theorem detectBase_toDigits_ten (n : ℕ) :
    ∃ b, detectBase (Nat.toDigits 10 n) = (b, Nat.toDigits b n) ∧ 1 < b ∧ b ≤ 16 := by
  rcases Nat.eq_zero_or_pos n with rfl | hpos
  · exact ⟨8, rfl, by decide, by decide⟩
  refine ⟨10, ?_, by decide, by decide⟩
  obtain ⟨c, cs, hcs, -, hne⟩ := head_toDigits (b := 10) (by decide) (by decide) n
  unfold detectBase
  simp_all

theorem detectBase_hex (n : ℕ) :
    detectBase ('0' :: 'x' :: Nat.toDigits 16 n) = (16, Nat.toDigits 16 n) := by
  obtain ⟨c, cs, hcs, hdig, -⟩ := head_toDigits (b := 16) (by decide) (by decide) n
  rw [hcs]
  simp [detectBase, hdig]

theorem isDigitIn_of_mem_toDigits (h1 : 1 < base) (h2 : base ≤ 16) :
    ∀ c ∈ Nat.toDigits base n, isDigitIn base c = true := by
  induction n using Nat.strong_induction_on with
  | _ n ih =>
    by_cases hlt : n < base
    · grind [Nat.toDigits_of_lt_base, isDigitIn_digitChar]
    have hle : base ≤ n := Nat.le_of_not_lt hlt
    rw [Nat.toDigits_of_base_le h1 hle]
    intro c hc
    rcases List.mem_append.mp hc with hc | hc
    · exact ih (n / base) (Nat.div_lt_self (by omega) h1) c hc
    · rw [List.mem_singleton.mp hc]
      exact isDigitIn_digitChar (Nat.mod_lt n (by omega)) h2

end CLib
