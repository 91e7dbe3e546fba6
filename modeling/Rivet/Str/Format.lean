import Mathlib
import Rivet.Str.Numbers

/-!
# Formatted output

`riv_vsnprintf` of `str.h` passes each character of its output to `PUT`, which counts it
and stores it as long as it fits.  The output does not depend on the capacity, so that a
truncated text is a prefix of the whole one.

After the conversion character of a directive the scan moves on without looking at it.
A format that ends in the middle of a directive has its terminating NUL there, and is
read on behind it.  Zeros are put in front of the whole number, its sign included.
-/

namespace Rivet.Str

open CLib Function List BitVec

variable {w : ℕ}

/-- The next argument as each of the types that `va_arg` asks for; a string may be
`NULL`. -/
structure VaArg (w : ℕ) where
  int : RivI32
  ptr : BitVec w
  str : Option CStr

def convert (conv : Char) (a : VaArg w) : Except Fault CStr :=
  match conv with
  | 'd' | 'i' => rivI64ToStr (a.int.signExtend 64)
  | 'u' => rivU64ToStr (a.int.setWidth 64) 10 false
  | 'x' => rivU64ToStr (a.int.setWidth 64) 16 false
  | 'X' => rivU64ToStr (a.int.setWidth 64) 16 true
  | 'p' => (rivU64ToStr (a.ptr.setWidth 64) 16 false).map ("0x".toList ++ ·)
  | 's' => .ok (a.str.getD "(null)".toList)
  | 'c' => .ok [Char.ofNat (a.int.toNat % 256)]
  | '%' => .ok ['%']
  | c => .ok ['%', c]

def nextArgs (conv : Char) (ap : ℕ → VaArg w) : ℕ → VaArg w :=
  if conv ∈ "diuxXpsc".toList then fun i => ap (i + 1) else ap

def padding (zeroPad : Bool) (width n : ℕ) : CStr :=
  List.replicate (width - n) (if zeroPad then '0' else ' ')

mutual

/-- The loop of `riv_vsnprintf` over the memory from `fmt` on: the characters that it
passes to `PUT`. -/
def format : List Char → (ℕ → VaArg w) → Except Fault CStr
  | [], _ => .error .pastEnd
  | c :: fmt, ap =>
    if c = '\x00' then .ok []
    else if c ≠ '%' then (format fmt ap).map (c :: ·)
    else
      match fmt with
      | '0' :: fmt => directive true 0 fmt ap
      | fmt => directive false 0 fmt ap

def directive (zeroPad : Bool) (width : ℕ) : List Char → (ℕ → VaArg w) → Except Fault CStr
  | [], _ => .error .pastEnd
  | c :: fmt, ap =>
    if c.isDigit then
      if 10 * width + (c.toNat - '0'.toNat) < 2 ^ 31 then
        directive zeroPad (10 * width + (c.toNat - '0'.toNat)) fmt ap
      else .error .widthOverflow
    else do
      let src ← convert c (ap 0)
      let out ← format fmt (nextArgs c ap)
      .ok (padding zeroPad width src.length ++ src ++ out)

end

/-- The count and the buffer that `PUT` changes. -/
structure Out (w : ℕ) where
  pos : BitVec w
  buf : ℕ → Char

/-- `PUT`. -/
def put (cap : BitVec w) (s : Out w) (c : Char) : Out w where
  pos := s.pos + 1
  buf := if s.pos + 1 < cap then update s.buf s.pos.toNat c else s.buf

/-- `riv_vsnprintf`: the result, and the buffer. -/
def rivVsnprintf (buf : ℕ → Char) (cap : BitVec w) (fmt : List Char) (ap : ℕ → VaArg w) :
    Except Fault (RivI32 × (ℕ → Char)) := do
  let out ← format fmt ap
  let s := out.foldl (put cap) ⟨0, buf⟩
  let stop := if s.pos < cap then s.pos else cap - 1
  .ok (s.pos.setWidth 32, if 0 < cap then update s.buf stop.toNat '\x00' else s.buf)

/-! ## Complete directives -/

/-- A format whose every directive is complete: an optional 0 and a width, which is a
number that fits in an `int`, and a conversion character. -/
inductive Complete : List Char → Prop
  | nil : Complete []
  | text {c fmt} (hc : c ≠ '%') (hfmt : Complete fmt) : Complete (c :: fmt)
  | directive {ds conv fmt} (hds : ∀ c ∈ ds, c.isDigit = true)
    (hwidth : Nat.ofDigitChars 10 ds 0 < 2 ^ 31) (hconv : conv.isDigit = false)
    (hfmt : Complete fmt) : Complete ('%' :: (ds ++ conv :: fmt))

variable {ap : ℕ → VaArg w} {zeroPad : Bool} {width : ℕ} {conv : Char} {ds fmt rest : List Char}

theorem exists_convert (conv : Char) (a : VaArg w) : ∃ src, convert conv a = .ok src := by
  unfold convert
  split
  · exact ⟨_, rivI64ToStr_eq _⟩
  · exact ⟨_, rivI64ToStr_eq _⟩
  · exact ⟨_, rivU64ToStr_of_ten_le (by decide) (by decide) _ _⟩
  · exact ⟨_, rivU64ToStr_of_ten_le (by decide) (by decide) _ _⟩
  · exact ⟨_, rivU64ToStr_of_ten_le (by decide) (by decide) _ _⟩
  · rw [rivU64ToStr_of_ten_le (by decide) (by decide)]
    exact ⟨_, rfl⟩
  all_goals exact ⟨_, rfl⟩

theorem le_ofDigitChars (ds : List Char) (n : ℕ) : n ≤ Nat.ofDigitChars 10 ds n := by
  induction ds generalizing n with
  | nil => exact le_rfl
  | cons c ds ih => grind [Nat.ofDigitChars_cons]

theorem directive_digits (hds : ∀ c ∈ ds, c.isDigit = true)
    (hwidth : Nat.ofDigitChars 10 ds width < 2 ^ 31) (rest : List Char) :
    directive zeroPad width (ds ++ rest) ap =
      directive zeroPad (Nat.ofDigitChars 10 ds width) rest ap := by
  induction ds generalizing width with
  | nil => rfl
  | cons c ds ih => grind [Nat.ofDigitChars_cons, directive, le_ofDigitChars]

theorem format_text {c : Char} (hnul : c ≠ '\x00') (hc : c ≠ '%') (fmt : List Char) :
    format (c :: fmt) ap = (format fmt ap).map (c :: ·) := by
  rw [format.eq_def]
  simp only [hnul, hc, if_false, if_true, ne_eq, not_false_eq_true]

theorem format_percent (rest : List Char) : format ('%' :: rest) ap =
      if rest.head? = some '0' then directive true 0 rest.tail ap else directive false 0 rest ap := by
  cases rest with
  | nil => rfl
  | cons c rest =>
    by_cases hc : c = '0'
    · subst hc
      rfl
    have hhead : (c :: rest).head? ≠ some '0' := fun heq => hc (Option.some.inj heq)
    rw [if_neg hhead, format.eq_def]
    dsimp only
    rw [if_neg (by decide), if_neg (by decide)]
    split
    · next heq =>
      cases heq
      exact absurd rfl hc
    · rfl

theorem format_directive (hds : ∀ c ∈ ds, c.isDigit = true)
    (hwidth : Nat.ofDigitChars 10 ds 0 < 2 ^ 31) (hconv : conv.isDigit = false) :
    format ('%' :: (ds ++ conv :: rest)) ap =
      directive (decide (ds.head? = some '0')) (Nat.ofDigitChars 10 ds 0) (conv :: rest) ap := by
  have hne : conv ≠ '0' := by
    rintro rfl
    cases hconv
  rw [format_percent, ← directive_digits hds hwidth]
  cases ds with
  | nil => simp [hne]
  | cons d ds =>
    by_cases hd : d = '0'
    · subst hd
      simp [directive]
    · simp [hd]

theorem directive_eq_ok (hnul : '\x00' ∉ fmt) (hlt : width < 2 ^ 31) {out : CStr}
    (h : directive zeroPad width (fmt ++ ['\x00']) ap = .ok out) :
    ∃ ds conv rest, fmt = ds ++ conv :: rest ∧ (∀ c ∈ ds, c.isDigit = true) ∧
      Nat.ofDigitChars 10 ds width < 2 ^ 31 ∧ conv.isDigit = false ∧
      ∃ (ap' : ℕ → VaArg w) (out' : CStr), format (rest ++ ['\x00']) ap' = .ok out' := by
  induction fmt generalizing width with
  | nil =>
    -- the NUL is taken for the conversion character
    cases h
  | cons c fmt ih =>
    obtain ⟨-, hnul⟩ := not_or.mp (mem_cons.not.mp hnul)
    rw [List.cons_append, directive] at h
    by_cases hc : c.isDigit = true
    · rw [if_pos hc] at h
      split at h
      · next hnext =>
        obtain ⟨ds, conv, rest, rfl, hds, hwidth, hconv⟩ := ih hnul hnext h
        exact ⟨c :: ds, conv, rest, rfl, forall_mem_cons.mpr ⟨hc, hds⟩, hwidth, hconv⟩
      · cases h
    · rw [if_neg hc] at h
      obtain ⟨src, -, h⟩ := Exec.of_bind_eq_ok h
      obtain ⟨out', hrest, -⟩ := Exec.of_bind_eq_ok h
      exact ⟨[], c, fmt, rfl, by simp, hlt, Bool.eq_false_iff.mpr hc, _, out', hrest⟩

theorem complete_of_format (hnul : '\x00' ∉ fmt) {out : CStr}
    (h : format (fmt ++ ['\x00']) ap = .ok out) : Complete fmt := by
  induction hlen : fmt.length using Nat.strong_induction_on generalizing fmt ap out with
  | _ n ih =>
    subst hlen
    cases fmt with
    | nil => exact .nil
    | cons c fmt =>
      obtain ⟨hc, hrest⟩ := not_or.mp (mem_cons.not.mp hnul)
      by_cases hpercent : c = '%'
      · subst hpercent
        -- a flag is the first digit of the directive
        have hparts : ∃ ds conv rest, fmt = ds ++ conv :: rest ∧ (∀ c ∈ ds, c.isDigit = true) ∧
            Nat.ofDigitChars 10 ds 0 < 2 ^ 31 ∧ conv.isDigit = false ∧
            ∃ (ap' : ℕ → VaArg w) (out' : CStr), format (rest ++ ['\x00']) ap' = .ok out' := by
          rw [List.cons_append, format_percent] at h
          split at h
          · next hflag =>
            cases fmt with
            | nil => cases hflag
            | cons d fmt =>
              obtain rfl : d = '0' := Option.some.inj hflag
              obtain ⟨-, hnul⟩ := not_or.mp (mem_cons.not.mp hrest)
              obtain ⟨ds, conv, rest, rfl, hds, hrest⟩ :=
                directive_eq_ok hnul (show 0 < 2 ^ 31 by decide) h
              exact ⟨'0' :: ds, conv, rest, rfl, forall_mem_cons.mpr ⟨rfl, hds⟩, hrest⟩
          · exact directive_eq_ok hrest (show 0 < 2 ^ 31 by decide) h
        obtain ⟨ds, conv, rest, rfl, hds, hwidth, hconv, ap', out', hout⟩ := hparts
        have hnul' : '\x00' ∉ rest := fun hmem => hrest (by simp [hmem])
        exact .directive hds hwidth hconv (ih _ (by simp; omega) hnul' hout rfl)
      · rw [List.cons_append, format_text (Ne.symm hc) hpercent] at h
        cases hout : format (fmt ++ ['\x00']) ap with
        | error e =>
          rw [hout] at h
          cases h
        | ok out' => exact .text hpercent (ih _ (Nat.lt_succ_self _) hrest hout rfl)

theorem Complete.exists_format (h : Complete fmt) (ap : ℕ → VaArg w) :
    ∃ out, format (fmt ++ ['\x00']) ap = .ok out := by
  induction h generalizing ap with
  | nil => exact ⟨[], rfl⟩
  | @text c fmt hc _ ih =>
    obtain ⟨out, hout⟩ := ih ap
    by_cases hnul : c = '\x00'
    · subst hnul
      exact ⟨[], rfl⟩
    · rw [List.cons_append, format_text hnul hc, hout]
      exact ⟨_, rfl⟩
  | @directive ds conv fmt hds hwidth hconv _ ih =>
    obtain ⟨src, hsrc⟩ := exists_convert conv (ap 0)
    obtain ⟨out, hout⟩ := ih (nextArgs conv ap)
    simp [format_directive hds hwidth hconv, Str.directive, Bool.eq_false_iff.mp hconv, hsrc,
      Exec.ok_bind, hout]

/-- The format is read up to its NUL and no further exactly if it ends after a complete
directive and every width is an `int`. -/
theorem format_read_inside_iff (hnul : '\x00' ∉ fmt) (ap : ℕ → VaArg w) :
    (∃ out, format (fmt ++ ['\x00']) ap = .ok out) ↔ Complete fmt :=
  ⟨fun ⟨_, h⟩ => complete_of_format hnul h, fun h => h.exists_format ap⟩

theorem format_read_inside_width :
    ∃ out, format ['%', '0', '8', 'x', '\x00'] (fun _ => (⟨-1, 0, none⟩ : VaArg 64)) = .ok out := by
  have hcomplete : Complete ['%', '0', '8', 'x'] :=
    @Complete.directive ['0', '8'] 'x' [] (by simp [Char.isDigit]) (by simp [Nat.ofDigitChars]) rfl .nil
  exact (format_read_inside_iff (by decide) _).mpr hcomplete

/-- A format that is a single percent sign is read behind its NUL. -/
theorem percent_read_past_end :
    format ['%', '\x00'] (fun _ => (⟨0, 0, none⟩ : VaArg 64)) = .error .pastEnd := rfl

/-! ## Truncation -/

/-- The start of a text and a NUL, over what a buffer of `cap` characters holds. -/
def truncated (buf : ℕ → Char) (cap : ℕ) (out : CStr) : ℕ → Char :=
  fun i => if 0 < cap then (out.take (cap - 1) ++ ['\x00'])[i]?.getD (buf i) else buf i

theorem update_length (text : CStr) (buf : ℕ → Char) (c : Char) :
    update (fun i => text[i]?.getD (buf i)) text.length c =
      fun i => (text ++ [c])[i]?.getD (buf i) := by
  funext i
  grind

theorem foldl_put (buf : ℕ → Char) (cap : BitVec w) {out : CStr} (h : out.length < 2 ^ w) :
    (out.foldl (put cap) ⟨0, buf⟩).pos = BitVec.ofNat w out.length ∧
      (out.foldl (put cap) ⟨0, buf⟩).buf =
        fun i => (out.take (cap.toNat - 1))[i]?.getD (buf i) := by
  induction out using List.reverseRecOn with
  | nil => exact ⟨rfl, by simp⟩
  | append_singleton out c ih =>
    rw [length_append, length_singleton] at h ⊢
    obtain ⟨hpos, hbuf⟩ := ih (by omega)
    have hlen : (BitVec.ofNat w out.length).toNat = out.length :=
      (toNat_ofNat ..).trans (Nat.mod_eq_of_lt (by omega))
    have hnext : BitVec.ofNat w out.length + 1 = BitVec.ofNat w (out.length + 1) :=
      (ofNat_add ..).symm
    have hsmall : BitVec.ofNat w (out.length + 1) < cap ↔ out.length + 1 < cap.toNat := by
      rw [lt_def, toNat_ofNat, Nat.mod_eq_of_lt h]
    rw [foldl_append, foldl_cons, foldl_nil]
    simp only [put, hpos, hbuf, hnext, hlen, hsmall, true_and]
    split
    · next hfits =>
      rw [take_of_length_le (by omega), take_of_length_le (by simp; omega)]
      exact update_length out buf c
    · next hfull => rw [take_append_of_le_length (by omega)]

/-- For every capacity, a format with complete directives writes the start of its output
that fits, and returns the length of the whole. -/
theorem vsnprintf_truncates (wb : WordBits) (h : Complete fmt) (ap : ℕ → VaArg wb.width) :
    ∃ out, format (fmt ++ ['\x00']) ap = .ok out ∧
      (out.length < 2 ^ 31 → ∀ buf (cap : BitVec wb.width),
        ∃ n, rivVsnprintf buf cap (fmt ++ ['\x00']) ap = .ok (n, truncated buf cap.toNat out) ∧
          n.toInt = out.length) := by
  obtain ⟨out, hout⟩ := h.exists_format ap
  refine ⟨out, hout, fun hlen buf cap => ?_⟩
  have hword : 32 ≤ wb.width := by
    cases wb with
    | bits32 | bits64 => decide
  have hlt : out.length < 2 ^ wb.width :=
    hlen.trans_le (Nat.pow_le_pow_right (by decide) ((by decide : 31 ≤ 32).trans hword))
  obtain ⟨hpos, hbuf⟩ := foldl_put buf cap hlt
  have hnat : (BitVec.ofNat wb.width out.length).toNat = out.length :=
    (BitVec.toNat_ofNat ..).trans (Nat.mod_eq_of_lt hlt)
  refine ⟨(BitVec.ofNat wb.width out.length).setWidth 32, ?_, ?_⟩
  · simp only [rivVsnprintf, hout, Exec.ok_bind, hpos, hbuf]
    congr 2
    funext i
    have hzero : 0 < cap ↔ 0 < cap.toNat := by
      rw [BitVec.lt_def]
      simp
    rw [truncated]
    by_cases hcap : 0 < cap.toNat
    · have hone : (1 : BitVec wb.width).toNat = 1 := BitVec.toNat_one (by omega)
      have hstop : (if BitVec.ofNat wb.width out.length < cap then BitVec.ofNat wb.width out.length
          else cap - 1).toNat = (out.take (cap.toNat - 1)).length := by
        rw [List.length_take]
        split
        · next hfits =>
          rw [BitVec.lt_def, hnat] at hfits
          omega
        · next hfull =>
          rw [BitVec.lt_def, hnat] at hfull
          rw [BitVec.toNat_sub_of_le (BitVec.le_def.mpr (by omega)), hone]
          omega
      rw [if_pos (hzero.mpr hcap), if_pos hcap, hstop, update_length]
    · rw [if_neg fun hpos => hcap (hzero.mp hpos), if_neg hcap]
      simp [Nat.eq_zero_of_not_pos hcap]
  · have hint : ((BitVec.ofNat wb.width out.length).setWidth 32).toNat = out.length := by
      rw [BitVec.toNat_setWidth, hnat]
      omega
    rw [BitVec.toInt_eq_toNat_of_lt (by omega), hint]

theorem vsnprintf_truncates_text :
    ∃ out, format ['o', 'k', '\x00'] (fun _ => (⟨0, 0, none⟩ : VaArg 32)) = .ok out ∧
      (out.length < 2 ^ 31 → ∀ buf (cap : BitVec 32),
        ∃ n, rivVsnprintf buf cap ['o', 'k', '\x00'] (fun _ => ⟨0, 0, none⟩) =
            .ok (n, truncated buf cap.toNat out) ∧ n.toInt = out.length) :=
  @vsnprintf_truncates ['o', 'k'] .bits32 (.text (by decide) (.text (by decide) .nil)) _

/-! ## Integer conversions -/

def c99Sign (conv : Char) (v : RivI32) : CStr :=
  if (conv = 'd' ∨ conv = 'i') ∧ v.toInt < 0 then ['-'] else []

def c99Digits (conv : Char) (v : RivI32) : CStr :=
  match conv with
  | 'd' | 'i' => Nat.toDigits 10 v.toInt.natAbs
  | 'u' => Nat.toDigits 10 v.toNat
  | 'x' => Nat.toDigits 16 v.toNat
  | _ => (Nat.toDigits 16 v.toNat).map Char.toUpper

/-- An integer conversion of C99: zeros stand between the sign and the digits, blanks in
front of both. -/
def c99Directive (zeroPad : Bool) (width : ℕ) (conv : Char) (v : RivI32) : CStr :=
  let fill := width - (c99Sign conv v ++ c99Digits conv v).length
  if zeroPad then c99Sign conv v ++ List.replicate fill '0' ++ c99Digits conv v
  else List.replicate fill ' ' ++ c99Sign conv v ++ c99Digits conv v

def directiveText (zeroPad : Bool) (width : ℕ) (conv : Char) : List Char :=
  '%' :: ((if zeroPad then ['0'] else []) ++ (if width = 0 then [] else Nat.toDigits 10 width) ++
    [conv])

theorem convert_eq {conv : Char} (hconv : conv ∈ ['d', 'i', 'u', 'x', 'X']) (a : VaArg w) :
    convert conv a = .ok (c99Sign conv a.int ++ c99Digits conv a.int) := by
  have hsigned := rivI64ToStr_eq (a.int.signExtend 64)
  have hunsigned := fun base hlow hhigh upper =>
    @rivU64ToStr_of_ten_le base hlow hhigh (a.int.setWidth 64) upper
  rw [toInt_signExtend_of_le (by decide)] at hsigned
  simp only [toNat_setWidth_of_le (by decide : 32 ≤ 64)] at hunsigned
  simp only [mem_cons, not_mem_nil, or_false] at hconv
  rcases hconv with rfl | rfl | rfl | rfl | rfl
  · exact hsigned.trans (by simp [c99Sign, c99Digits, digitsIn])
  · exact hsigned.trans (by simp [c99Sign, c99Digits, digitsIn])
  · exact (hunsigned 10 (by decide) (by decide) false).trans (by simp [c99Sign, c99Digits, digitsIn])
  · exact (hunsigned 16 (by decide) (by decide) false).trans (by simp [c99Sign, c99Digits, digitsIn])
  · exact (hunsigned 16 (by decide) (by decide) true).trans (by simp [c99Sign, c99Digits, digitsIn])

theorem widthText_spec (width : ℕ) : ∃ ds, (if width = 0 then [] else Nat.toDigits 10 width) = ds ∧
      (∀ c ∈ ds, c.isDigit = true) ∧ Nat.ofDigitChars 10 ds 0 = width ∧ ds.head? ≠ some '0' := by
  refine ⟨_, rfl, ?_⟩
  split
  · simp_all
  next hpos =>
  obtain ⟨c, cs, hcs, -, hne⟩ := head_toDigits (b := 10) (by decide) (by decide) width
  refine ⟨fun c hc => Nat.isDigit_of_mem_toDigits (by decide) (by decide) hc,
    Nat.ofDigitChars_toDigits (by decide) (by decide), ?_⟩
  grind

theorem format_directiveText (zeroPad : Bool) (hwidth : width < 2 ^ 31)
    (hconv : conv ∈ ['d', 'i', 'u', 'x', 'X']) (ap : ℕ → VaArg w) :
    format (directiveText zeroPad width conv ++ ['\x00']) ap =
      .ok (padding zeroPad width (c99Sign conv (ap 0).int ++ c99Digits conv (ap 0).int).length ++
        (c99Sign conv (ap 0).int ++ c99Digits conv (ap 0).int)) := by
  obtain ⟨ws, hws, hdigits, hvalue, hhead⟩ := widthText_spec width
  obtain ⟨ds, hds, hdigits, hvalue, hflag⟩ : ∃ ds, (if zeroPad then ['0'] else []) ++ ws = ds ∧
      (∀ c ∈ ds, c.isDigit = true) ∧ Nat.ofDigitChars 10 ds 0 = width ∧
      decide (ds.head? = some '0') = zeroPad := by
    refine ⟨_, rfl, ?_⟩
    cases zeroPad with
    | false => exact ⟨hdigits, hvalue, decide_eq_false hhead⟩
    | true => exact ⟨forall_mem_cons.mpr ⟨rfl, hdigits⟩, hvalue, rfl⟩
  have hconv' : conv.isDigit = false := by
    simp only [mem_cons, not_mem_nil, or_false] at hconv
    rcases hconv with rfl | rfl | rfl | rfl | rfl <;> rfl
  simp_all [directiveText, format_directive, directive, Bool.eq_false_iff.mp, convert_eq,
    Exec.ok_bind, format]

/-- An integer conversion is that of C99 unless zeros have to stand behind a sign. -/
theorem integer_conversion_iff (zeroPad : Bool) (hwidth : width < 2 ^ 31)
    (hconv : conv ∈ ['d', 'i', 'u', 'x', 'X']) (ap : ℕ → VaArg w) :
    format (directiveText zeroPad width conv ++ ['\x00']) ap =
        .ok (c99Directive zeroPad width conv (ap 0).int) ↔
      ¬(zeroPad = true ∧ c99Sign conv (ap 0).int ≠ [] ∧
        (c99Sign conv (ap 0).int ++ c99Digits conv (ap 0).int).length < width) := by
  rw [format_directiveText zeroPad hwidth hconv, Except.ok.injEq, padding, c99Directive]
  generalize c99Digits conv (ap 0).int = digits
  cases zeroPad with
  | false => simp
  | true =>
    rw [c99Sign]
    split
    · next hneg =>
      constructor
      · rintro heq ⟨-, -, hlt⟩
        have hfill : 0 < width - (['-'] ++ digits).length := by omega
        obtain ⟨n, hn⟩ := Nat.exists_eq_succ_of_ne_zero hfill.ne'
        simp only [hn, List.replicate_succ] at heq
        cases heq
      · intro hno
        have hfill : width - (['-'] ++ digits).length = 0 := by
          by_contra hpos
          exact hno ⟨rfl, by simp, by omega⟩
        simp only [hfill]
        simp
    · simp

theorem integer_conversion_blanks :
    format (directiveText false 5 'd' ++ ['\x00']) (fun _ => (⟨-42, 0, none⟩ : VaArg 64)) =
      .ok (c99Directive false 5 'd' (-42)) :=
  (integer_conversion_iff false (by decide) (by decide) _).mpr fun h => Bool.false_ne_true h.1

/-- `%05d` of -42 is `00-42`. -/
theorem zeros_before_sign :
    format (directiveText true 5 'd' ++ ['\x00']) (fun _ => (⟨-42, 0, none⟩ : VaArg 64)) =
        .ok "00-42".toList ∧ c99Directive true 5 'd' (-42) = "-0042".toList := by decide +kernel

end Rivet.Str
