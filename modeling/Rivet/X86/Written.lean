import Rivet.X86.Memory

/-!
# Memory operands as they are written

The text between the brackets is a sum of signed terms: registers, registers
with a scale, numbers and symbols.  Several signs before a term multiply, and a
number is the integer that its digits denote.  `x86_parse_mem` looks at the last
sign before a term, forgets the sign of a register, keeps one base and one
index, and adds the constants up in 32 bits after `strtoll` has saturated them.
-/

namespace Rivet.X86

open CLib Assembler List

variable {s tok : CStr} {v : ℤ} {st : AsState} {m : X86Mem}

/-! ## The sum -/

inductive AddrTerm where
  | reg (r : ℕ)
  | scaled (r : ℕ) (scale : ℤ)
  | const (v : ℤ)
  deriving DecidableEq, Repr

/-- A term with the product of the signs before it, and the last one of them. -/
structure SignedTerm where
  sign : ℤ
  last : ℤ
  term : AddrTerm
  deriving DecidableEq, Repr

def AddrTerm.isReg : AddrTerm → Bool
  | .reg _ => true
  | _ => false

def AddrTerm.isScaled : AddrTerm → Bool
  | .scaled _ _ => true
  | _ => false

def AddrTerm.offset : AddrTerm → ℤ
  | .const v => v
  | _ => 0

/-- What a term adds to the offset when the registers hold `regs`. -/
def AddrTerm.registers (regs : ℕ → ℤ) : AddrTerm → ℤ
  | .reg r => regs r
  | .scaled r scale => scale * regs r
  | .const _ => 0

def sumOffset (ts : List SignedTerm) : ℤ := (ts.map fun t => t.sign * t.term.offset).sum

def sumRegisters (regs : ℕ → ℤ) (ts : List SignedTerm) : ℤ :=
  (ts.map fun t => t.sign * t.term.registers regs).sum

def sumValue (regs : ℕ → ℤ) (ts : List SignedTerm) : ℤ := sumRegisters regs ts + sumOffset ts

/-! ## Reading the text -/

/-- The text up to the first sign, and then each sign with the text after it. -/
def cutSigns : CStr → CStr × List (ℤ × CStr)
  | [] => ([], [])
  | c :: text =>
    let (front, pieces) := cutSigns text
    if isSign c then ([], (if c = '-' then -1 else 1, front) :: pieces)
    else (c :: front, pieces)

def stripBlanks (s : CStr) : CStr := (s.dropWhile isBlank).rdropWhile isBlank

def signedPieces (sign : ℤ) (text : CStr) : List (ℤ × CStr) :=
  ((sign, (cutSigns text).1) :: (cutSigns text).2).map fun p => (p.1, stripBlanks p.2)

/-- The pieces that are not empty, each with the product of the signs since the
one before it and the last of these signs. -/
def joinSigns : ℤ → List (ℤ × CStr) → List (ℤ × ℤ × CStr)
  | _, [] => []
  | sign, (s, a) :: pieces =>
    if a = [] then joinSigns (sign * s) pieces
    else (sign * s, s, a) :: joinSigns 1 pieces

/-- The integer that a numeral denotes, in the notation of `strtoll`. -/
def numeral (s : CStr) : Option ℤ :=
  let (neg, body) := splitSign (s.dropWhile isSpace)
  let (b, digits) := detectBase body
  match digits with
  | [] => none
  | d :: _ =>
    if isDigitIn b d then
      match spanDigits b 0 digits with
      | (n, []) => some (if neg then -n else n)
      | (_, _ :: _) => none
    else none

/-- The integer that a number or a symbol stands for; a symbol that pass zero
has not met stands for zero there. -/
def constantOf (st : AsState) (s : CStr) : Option ℤ :=
  if isNumeric s then numeral s
  else
    match symValue st.symtab s with
    | some v => some v.toNat
    | none => if st.pass = .collect then some 0 else none

def readTerm (st : AsState) (a : CStr) : Option AddrTerm :=
  if '*' ∈ a then
    let l := (a.takeWhile (· ≠ '*')).dropWhile isBlank
    let r := (a.dropWhile (· ≠ '*')).tail.dropWhile isBlank
    match x86RegLookup l, x86RegLookup r with
    | some reg, none => (constantOf st r).map (.scaled reg)
    | none, some reg => (constantOf st l).map (.scaled reg)
    | _, _ => none
  else
    match x86RegLookup a with
    | some reg => some (.reg reg)
    | none => (constantOf st a).map .const

def readTerms (st : AsState) : List (ℤ × ℤ × CStr) → Option (List SignedTerm)
  | [] => some []
  | (sign, last, a) :: pieces =>
    (readTerm st a).bind fun t => (readTerms st pieces).map (⟨sign, last, t⟩ :: ·)

def readSum (st : AsState) (tok : CStr) : Option (List SignedTerm) :=
  readTerms st (joinSigns 1 (signedPieces 1 tok.tail.dropLast))

/-! ## The property -/

/-- The sums of the form base + index * scale + disp32. -/
structure Expressible (ts : List SignedTerm) : Prop where
  added : ∀ t ∈ ts, t.term.isReg ∨ t.term.isScaled → t.sign = 1
  registers : ts.countP (·.term.isReg) + ts.countP (·.term.isScaled) ≤ 2
  scaled : ts.countP (·.term.isScaled) ≤ 1
  scales : ∀ t ∈ ts, ∀ r k, t.term = .scaled r k → k ∈ ([1, 2, 4, 8] : List ℤ)
  offset : -2 ^ 31 ≤ sumOffset ts ∧ sumOffset ts < 2 ^ 31

def X86Mem.registersValue (m : X86Mem) (regs : ℕ → ℤ) : ℤ :=
  (if 0 ≤ m.base then regs m.base.toNat else 0) +
    if 0 ≤ m.index then m.scale * regs m.index.toNat else 0

/-- The address that an operand denotes, over register contents. -/
def X86Mem.value (m : X86Mem) (regs : ℕ → ℤ) : ℤ := m.registersValue regs + m.disp.toInt

/-- The text is a sum that an operand can express, and `m` denotes it. -/
def AsWritten (st : AsState) (tok : CStr) (m : X86Mem) : Prop :=
  ∃ ts, readSum st tok = some ts ∧ Expressible ts ∧ ∀ regs, m.value regs = sumValue regs ts

/-- The constants with their last signs only, saturated to a `long long`. -/
def keptOffset (ts : List SignedTerm) : ℤ :=
  (ts.map fun t => clampI64 t.term.offset * t.last).sum

/-- The condition: the text is a sum that an operand can express, and the signs
and digits that are lost make a difference of a multiple of `2 ^ 32`. -/
def WrittenPlainly (st : AsState) (tok : CStr) : Prop :=
  ∃ ts, readSum st tok = some ts ∧ Expressible ts ∧ 2 ^ 32 ∣ keptOffset ts - sumOffset ts

/-! ## What the code makes of the terms -/

def X86Mem.addTerm (m : X86Mem) (t : SignedTerm) : X86Mem :=
  match t.term with
  | .reg r =>
    if m.base < 0 then { m with base := r } else { m with index := r, scale := 1 }
  | .scaled r k => { m with index := r, scale := (BitVec.ofInt 32 (clampI64 k)).toNat }
  | .const v =>
    { m with disp := m.disp + BitVec.ofInt 32 (clampI64 v * t.last), hasDisp := true }

theorem cutSigns_eq (text : CStr) :
    cutSigns text = (text.takeWhile fun c => !isSign c,
      match text.dropWhile fun c => !isSign c with
      | [] => []
      | c :: rest =>
        (if c = '-' then -1 else 1, (cutSigns rest).1) :: (cutSigns rest).2) := by
  induction text with
  | nil => rfl
  | cons c text ih =>
    rw [cutSigns]
    cases hc : isSign c with
    | true => simp [hc]
    | false => simp [hc, ih]

theorem isBlank_not_isSign {c : Char} (h : isBlank c = true) : isSign c = false := by
  simp only [isBlank, Bool.or_eq_true, decide_eq_true_eq] at h
  rcases h with rfl | rfl <;> decide

theorem signedPieces_dropWhile (sign : ℤ) (text : CStr) :
    signedPieces sign (text.dropWhile isBlank) = signedPieces sign text := by
  induction text with
  | nil => rfl
  | cons c text ih =>
    cases hc : isBlank c with
    | false => rw [dropWhile_cons_of_neg (by simp [hc])]
    | true => simp_all [signedPieces, cutSigns, isBlank_not_isSign, stripBlanks]

theorem dropWhile_takeWhile_of_head {p q : Char → Bool} (h : s.dropWhile p = s) :
    (s.takeWhile q).dropWhile p = s.takeWhile q := by
  cases s with
  | nil => rfl
  | cons c s =>
    by_cases hq : q c = true
    all_goals simp_all

theorem signedPieces_of_start {start : CStr} (h : start.dropWhile isBlank = start) (sign : ℤ) :
    signedPieces sign start =
      (sign, (start.takeWhile fun c => !isSign c).rdropWhile isBlank) ::
        match start.dropWhile fun c => !isSign c with
        | [] => []
        | c :: rest => signedPieces (if c = '-' then -1 else 1) rest := by
  rw [signedPieces, cutSigns_eq, map_cons, stripBlanks, dropWhile_takeWhile_of_head h]
  cases start.dropWhile fun c => !isSign c <;> rfl

theorem splitAtoms_eq_ok {sign : ℤ} {n : ℕ} {p : CStr} {atoms : List (ℤ × CStr)}
    (h : splitAtoms sign n p = .ok atoms) :
    atoms = (signedPieces sign p).filter fun a => a.2 ≠ [] := by
  induction hlen : p.length using Nat.strong_induction_on generalizing sign n p atoms with
  | _ len ih =>
    rw [← signedPieces_dropWhile]
    rw [splitAtoms] at h
    have hstart : (p.dropWhile isBlank).dropWhile isBlank = p.dropWhile isBlank :=
      dropWhile_idempotent ..
    have hle := (dropWhile_suffix isBlank (l := p)).length_le
    generalize p.dropWhile isBlank = start at *
    rw [signedPieces_of_start hstart]
    by_cases hnil : start = []
    · simp_all
    rw [if_neg hnil] at h
    obtain ⟨stored, hstored, h⟩ := Exec.of_bind_eq_ok h
    have hfirst : stored =
        ([(sign, (start.takeWhile fun c => !isSign c).rdropWhile isBlank)].filter
          fun a => a.2 ≠ []) := by
      split at hstored
      · grind
      next hempty =>
      split at hstored
      · cases hstored
      · cases hstored
        simp [hempty]
    have hsuffix := (dropWhile_suffix (fun c => !isSign c) (l := start)).length_le
    split at h
    · grind
    · next c rest hrest =>
      obtain ⟨others, hothers, h⟩ := Exec.of_bind_eq_ok h
      grind

theorem joinSigns_atoms (sign : ℤ) (pieces : List (ℤ × CStr)) :
    (joinSigns sign pieces).map Prod.snd = pieces.filter fun a => a.2 ≠ [] := by
  induction pieces generalizing sign with
  | nil => rfl
  | cons p pieces ih => grind [joinSigns]

/-! ## One atom -/

theorem strtoll_numeral (hne : s ≠ []) (h : strtoll s 0 = (v, [])) :
    ∃ w, numeral s = some w ∧ v = clampI64 w := by
  unfold strtoll at h
  unfold numeral
  simp only [if_true] at h ⊢
  split at h
  · cases h
    exact absurd rfl hne
  · next d ds hds =>
    grind

theorem rivAsParseImm_constantOf (h : rivAsParseImm st s = .ok v) :
    ∃ w, constantOf st s = some w ∧ v = clampI64 w := by
  by_cases hne : s = []
  · rw [rivAsParseImm, if_pos hne] at h
    cases h
  cases hnum : isNumeric s with
  | true =>
    rw [rivAsParseImm, if_neg hne, if_pos hnum] at h
    rw [constantOf, if_pos hnum]
    split at h
    · simp_all [strtoll_numeral]
    · cases h
  | false =>
    rw [rivAsParseImm_symbol hne hnum] at h
    rw [constantOf, if_neg (by simp [hnum])]
    cases hsym : symValue st.symtab s with
    | some w =>
      rw [hsym] at h
      cases h
      refine ⟨w.toNat, rfl, ?_⟩
      have hlt := w.isLt
      unfold clampI64
      omega
    | none =>
      rw [hsym] at h
      simp only at h ⊢
      split at h
      · next hpass =>
        cases h
        exact ⟨0, by rw [if_pos hpass], by decide⟩
      · cases h

theorem x86ParseScaled_constantOf {l r : CStr} {reg sc : ℕ}
    (h : x86ParseScaled st l r = .ok (reg, sc)) : (x86RegLookup (l.dropWhile isBlank) = some reg ∧
      ∃ k, constantOf st (r.dropWhile isBlank) = some k ∧
        sc = (BitVec.ofInt 32 (clampI64 k)).toNat) ∨ (x86RegLookup (l.dropWhile isBlank) = none ∧
      x86RegLookup (r.dropWhile isBlank) = some reg ∧
      ∃ k, constantOf st (l.dropWhile isBlank) = some k ∧
        sc = (BitVec.ofInt 32 (clampI64 k)).toNat) := by
  obtain ⟨⟨reg', sc'⟩, hparts, h⟩ := Exec.of_bind_eq_ok h
  simp only at h
  split at h
  · cases h
  cases h
  split at hparts
  · next hl =>
    obtain ⟨v, hv, hparts⟩ := Exec.of_bind_eq_ok hparts
    cases hparts
    obtain ⟨k, hk, rfl⟩ := rivAsParseImm_constantOf hv
    exact Or.inl ⟨hl, k, hk, rfl⟩
  · next hl =>
    split at hparts
    · cases hparts
    next hr =>
    obtain ⟨v, hv, hparts⟩ := Exec.of_bind_eq_ok hparts
    cases hparts
    obtain ⟨k, hk, rfl⟩ := rivAsParseImm_constantOf hv
    exact Or.inr ⟨hl, hr, k, hk, rfl⟩

theorem x86MemAtom_addTerm {m' : X86Mem} {sign last : ℤ} {a : CStr} {t : AddrTerm}
    (h : x86MemAtom st m (last, a) = .ok m') (ht : readTerm st a = some t) :
    m' = m.addTerm ⟨sign, last, t⟩ := by
  unfold x86MemAtom at h
  unfold readTerm at ht
  simp only at h ht
  split at h
  · next c r hr =>
    have hstar : '*' ∈ a := by grind [dropWhile_star_eq_nil.mpr]
    obtain ⟨⟨reg, sc⟩, hparts, h⟩ := Exec.of_bind_eq_ok h
    cases h
    rw [if_pos hstar, hr, tail_cons] at ht
    rcases x86ParseScaled_constantOf hparts with ⟨hl, k, hk, rfl⟩ | ⟨hl, hreg, k, hk, rfl⟩
    · rw [hl] at ht
      cases hreg : x86RegLookup (r.dropWhile isBlank) with
      | some _ =>
        rw [hreg] at ht
        cases ht
      | none =>
        rw [hreg, hk] at ht
        cases ht
        rfl
    · rw [hl, hreg, hk] at ht
      cases ht
      rfl
  · next hr =>
    rw [if_neg (dropWhile_star_eq_nil.mp hr)] at ht
    split at h
    · grind [X86Mem.addTerm]
    next hreg =>
    obtain ⟨v, hv, h⟩ := Exec.of_bind_eq_ok h
    cases h
    obtain ⟨w, hw, rfl⟩ := rivAsParseImm_constantOf hv
    rw [hreg, hw] at ht
    cases ht
    rfl

/-! ## All atoms -/

variable {ts : List SignedTerm}

theorem foldlM_addTerm {pieces : List (ℤ × ℤ × CStr)} {m0 : X86Mem}
    (h : (pieces.map Prod.snd).foldlM (x86MemAtom st) m0 = .ok m)
    (hts : readTerms st pieces = some ts) : m = ts.foldl X86Mem.addTerm m0 := by
  induction pieces generalizing m0 ts with
  | nil =>
    cases hts
    cases h
    rfl
  | cons p pieces ih =>
    obtain ⟨t, ht, hts⟩ := Option.bind_eq_some_iff.mp hts
    obtain ⟨ts', hts', rfl⟩ := Option.map_eq_some_iff.mp hts
    obtain ⟨m1, hatom, h⟩ := Exec.of_bind_eq_ok h
    grind [x86MemAtom_addTerm]

theorem x86ParseMem_foldl (h : x86ParseMem st tok = .ok m) (hts : readSum st tok = some ts) :
    m = ts.foldl X86Mem.addTerm X86Mem.empty := by
  obtain ⟨atoms, hsplit, h⟩ := x86ParseMem_eq_ok h
  rw [splitAtoms_eq_ok hsplit, ← joinSigns_atoms 1] at h
  exact foldlM_addTerm h hts

theorem addTerm_disp (m : X86Mem) (t : SignedTerm) :
    (m.addTerm t).disp = m.disp + BitVec.ofInt 32 (clampI64 t.term.offset * t.last) := by
  obtain ⟨sign, last, t⟩ := t
  cases t with
  | reg r =>
    have hzero : clampI64 0 = 0 := by decide
    simp only [X86Mem.addTerm, AddrTerm.offset, hzero, zero_mul]
    split <;> exact (BitVec.add_zero _).symm
  | scaled r k =>
    have hzero : clampI64 0 = 0 := by decide
    simp_all [X86Mem.addTerm, AddrTerm.offset, zero_mul, BitVec.add_zero]
  | const v => rfl

theorem foldl_addTerm_disp (m : X86Mem) (ts : List SignedTerm) :
    (ts.foldl X86Mem.addTerm m).disp = m.disp + BitVec.ofInt 32 (keptOffset ts) := by
  induction ts generalizing m with
  | nil => exact (BitVec.add_zero _).symm
  | cons t ts ih =>
    rw [foldl_cons, ih, addTerm_disp, BitVec.add_assoc, ← BitVec.ofInt_add]
    rfl

def slot (reg : ℤ) : ℕ := if reg < 0 then 1 else 0

/-- The terms find a free slot each: those with a scale the index, the others
the base or the index. -/
def FitsSlots (m : X86Mem) (ts : List SignedTerm) : Prop :=
  ts.countP (·.term.isScaled) ≤ slot m.index ∧
    ts.countP (·.term.isReg) + ts.countP (·.term.isScaled) ≤ slot m.base + slot m.index

theorem toNat_scale {k : ℤ} (h : k ∈ ([1, 2, 4, 8] : List ℤ)) :
    ((BitVec.ofInt 32 (clampI64 k)).toNat : ℤ) = k := by
  simp only [mem_cons, not_mem_nil, or_false] at h
  rcases h with rfl | rfl | rfl | rfl <;> decide

theorem addTerm_registers {t : SignedTerm} (hfit : FitsSlots m (t :: ts))
    (hsign : t.term.isReg ∨ t.term.isScaled → t.sign = 1)
    (hscale : ∀ r k, t.term = .scaled r k → k ∈ ([1, 2, 4, 8] : List ℤ)) :
    FitsSlots (m.addTerm t) ts ∧ ∀ regs, (m.addTerm t).registersValue regs =
      m.registersValue regs + t.sign * t.term.registers regs := by
  obtain ⟨sign, last, t⟩ := t
  obtain ⟨hscaled, hall⟩ := hfit
  unfold FitsSlots
  rw [countP_cons] at hscaled
  rw [countP_cons, countP_cons] at hall
  generalize ts.countP (·.term.isScaled) = scaled at hscaled hall ⊢
  generalize ts.countP (·.term.isReg) = plain at hall ⊢
  cases t with
  | const v =>
    refine ⟨⟨hscaled, hall⟩, fun regs => ?_⟩
    rw [AddrTerm.registers, mul_zero, add_zero]
    rfl
  | scaled r k =>
    have hk := hscale r k rfl
    obtain rfl : sign = 1 := hsign (Or.inr rfl)
    have hscaled : scaled + 1 ≤ slot m.index := hscaled
    have hall : plain + 0 + (scaled + 1) ≤ slot m.base + slot m.index := hall
    have hfree : m.index < 0 := by grind [slot]
    have hindex : slot m.index = 1 := if_pos hfree
    have htaken : slot (r : ℤ) = 0 := if_neg (by omega)
    refine ⟨?_, fun regs => ?_⟩
    · simp only [X86Mem.addTerm, htaken]
      omega
    simp only [X86Mem.addTerm, X86Mem.registersValue, if_neg (not_le.mpr hfree),
      AddrTerm.registers, toNat_scale hk, Int.natCast_nonneg, if_true, Int.toNat_natCast]
    rw [add_zero, one_mul]
    rfl
  | reg r =>
    obtain rfl : sign = 1 := hsign (Or.inl rfl)
    have hall : plain + 1 + (scaled + 0) ≤ slot m.base + slot m.index := hall
    by_cases hbase : m.base < 0
    · have hbase' : slot m.base = 1 := if_pos hbase
      refine ⟨?_, fun regs => ?_⟩
      · grind [X86Mem.addTerm]
      simp only [X86Mem.addTerm, if_pos hbase, X86Mem.registersValue,
        if_neg (not_le.mpr hbase), AddrTerm.registers, Int.natCast_nonneg, if_true,
        Int.toNat_natCast]
      ring
    · have hbase' : slot m.base = 0 := if_neg hbase
      have hfree : m.index < 0 := by grind [slot]
      have hindex : slot m.index = 1 := if_pos hfree
      refine ⟨?_, fun regs => ?_⟩
      · omega
      simp [X86Mem.addTerm, hbase, X86Mem.registersValue, not_le.mpr hfree, AddrTerm.registers,
        Int.toNat_natCast]

theorem foldl_addTerm_registers (hfit : FitsSlots m ts)
    (hsign : ∀ t ∈ ts, t.term.isReg ∨ t.term.isScaled → t.sign = 1)
    (hscale : ∀ t ∈ ts, ∀ r k, t.term = .scaled r k → k ∈ ([1, 2, 4, 8] : List ℤ)) (regs : ℕ → ℤ) :
    (ts.foldl X86Mem.addTerm m).registersValue regs =
      m.registersValue regs + sumRegisters regs ts := by
  induction ts generalizing m with
  | nil => exact (add_zero _).symm
  | cons t ts ih =>
    obtain ⟨hst, hsts⟩ := forall_mem_cons.mp hsign
    obtain ⟨hkt, hkts⟩ := forall_mem_cons.mp hscale
    obtain ⟨hfit', hvalue⟩ := addTerm_registers hfit hst hkt
    rw [foldl_cons, ih hfit' hsts hkts, hvalue, add_assoc]
    rfl

theorem Expressible.registersValue (h : Expressible ts) (regs : ℕ → ℤ) :
    (ts.foldl X86Mem.addTerm X86Mem.empty).registersValue regs = sumRegisters regs ts := by
  have hfit : FitsSlots X86Mem.empty ts := ⟨h.scaled, h.registers⟩
  rw [foldl_addTerm_registers hfit h.added h.scales]
  exact zero_add _

theorem toInt_ofInt_eq_iff {w : ℤ} (hlo : -2 ^ 31 ≤ w) (hhi : w < 2 ^ 31) :
    (BitVec.ofInt 32 v).toInt = w ↔ 2 ^ 32 ∣ v - w := by
  rw [BitVec.toInt_ofInt, Int.bmod_def]
  omega

theorem x86ParseMem_disp (h : x86ParseMem st tok = .ok m) (hts : readSum st tok = some ts) :
    m.disp = BitVec.ofInt 32 (keptOffset ts) := by
  rw [x86ParseMem_foldl h hts, foldl_addTerm_disp]
  exact BitVec.zero_add _

theorem x86ParseMem_registersValue (h : x86ParseMem st tok = .ok m)
    (hts : readSum st tok = some ts) (hex : Expressible ts) (regs : ℕ → ℤ) :
    m.registersValue regs = sumRegisters regs ts := by
  rw [x86ParseMem_foldl h hts, hex.registersValue]

/-- An accepted operand denotes the address that was written, a text that an
operand can express, exactly when the text is written plainly. -/
theorem x86ParseMem_asWritten_iff {st : AsState} {tok : CStr} {m : X86Mem}
    (h : x86ParseMem st tok = .ok m) : AsWritten st tok m ↔ WrittenPlainly st tok := by
  refine exists_congr fun ts => and_congr_right fun hts => and_congr_right fun hex => ?_
  have hregs := x86ParseMem_registersValue h hts hex
  rw [← toInt_ofInt_eq_iff hex.offset.1 hex.offset.2, ← x86ParseMem_disp h hts]
  constructor
  · intro hall
    have hzero := hall fun _ => 0
    rw [X86Mem.value, sumValue, hregs] at hzero
    exact add_left_cancel hzero
  · intro heq regs
    rw [X86Mem.value, sumValue, hregs, heq]

/-- `[rbx+rcx*4-8]` is written plainly. -/
theorem x86ParseMem_asWritten_iff_scaled :
    ∃ m, x86ParseMem (initState .x86_64 0) "[rbx+rcx*4-8]".toList = .ok m ∧
      AsWritten (initState .x86_64 0) "[rbx+rcx*4-8]".toList m := by
  have hparse : x86ParseMem (initState .x86_64 0) "[rbx+rcx*4-8]".toList =
      .ok ⟨3, 1, 4, true, -8⟩ := by decide +kernel
  have hsum : readSum (initState .x86_64 0) "[rbx+rcx*4-8]".toList =
      some [⟨1, 1, .reg 3⟩, ⟨1, 1, .scaled 1 4⟩, ⟨-1, -1, .const 8⟩] := by decide +kernel
  refine ⟨_, hparse, (x86ParseMem_asWritten_iff hparse).mpr ⟨_, hsum, ?_, by decide⟩⟩
  refine ⟨by decide, by decide, by decide, ?_, by decide⟩
  intro t ht r k hk
  simp only [List.mem_cons, List.not_mem_nil, or_false] at ht
  rcases ht with rfl | rfl | rfl
  · cases hk
  · cases hk
    decide
  · cases hk

/-- A subtracted register is added, the second of three registers is dropped, and
so is a constant of `2 ^ 32`. -/
theorem x86ParseMem_not_asWritten :
    (x86ParseMem (initState .x86_64 0) "[rax-rbx]".toList = .ok ⟨0, 3, 1, false, 0⟩ ∧
        ¬AsWritten (initState .x86_64 0) "[rax-rbx]".toList ⟨0, 3, 1, false, 0⟩) ∧
      (x86ParseMem (initState .x86_64 0) "[rax+rbx+rcx]".toList = .ok ⟨0, 1, 1, false, 0⟩ ∧
        ¬AsWritten (initState .x86_64 0) "[rax+rbx+rcx]".toList ⟨0, 1, 1, false, 0⟩) ∧
      x86ParseMem (initState .x86_64 0) "[rax+4294967296]".toList = .ok ⟨0, -1, 1, true, 0⟩ ∧
        ¬AsWritten (initState .x86_64 0) "[rax+4294967296]".toList ⟨0, -1, 1, true, 0⟩ := by
  have h₁ : readSum (initState .x86_64 0) "[rax-rbx]".toList =
      some [⟨1, 1, .reg 0⟩, ⟨-1, -1, .reg 3⟩] := by decide +kernel
  have h₂ : readSum (initState .x86_64 0) "[rax+rbx+rcx]".toList =
      some [⟨1, 1, .reg 0⟩, ⟨1, 1, .reg 3⟩, ⟨1, 1, .reg 1⟩] := by decide +kernel
  have h₃ : readSum (initState .x86_64 0) "[rax+4294967296]".toList =
      some [⟨1, 1, .reg 0⟩, ⟨1, 1, .const 4294967296⟩] := by decide +kernel
  refine ⟨⟨by decide +kernel, ?_⟩, ⟨by decide +kernel, ?_⟩, by decide +kernel, ?_⟩
  · rintro ⟨ts, hts, hex, -⟩
    rw [h₁, Option.some.injEq] at hts
    subst hts
    exact absurd (hex.added ⟨-1, -1, .reg 3⟩ (by simp) (Or.inl rfl)) (by decide)
  · rintro ⟨ts, hts, hex, -⟩
    rw [h₂, Option.some.injEq] at hts
    subst hts
    exact absurd hex.registers (by decide)
  · rintro ⟨ts, hts, hex, -⟩
    rw [h₃, Option.some.injEq] at hts
    subst hts
    exact absurd hex.offset (by decide)

end Rivet.X86
