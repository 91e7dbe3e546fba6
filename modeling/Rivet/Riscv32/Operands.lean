import Rivet.Riscv32.Fields

/-!
# The operands an instruction carries

The immediate of an instruction word is read off its fields here as the RISC-V
formats define it, and compared with the operand that the source line writes.
`rv_encode` masks every immediate to the width of its field and checks none of
them, so the two agree exactly for the operands that fit.
-/

namespace Rivet.Riscv32

open CLib Assembler Disassembler BitField Exec

variable {s : CStr} {k x : ℕ}

/-! ## Immediates of a word -/

/-- The number of `k` bits as a signed number. -/
def signedBits (k n : ℕ) : ℤ := (n : ℤ).bmod (2 ^ k)

def immI (w : RivU32) : ℤ := signedBits 12 (extract 20 12 w.toNat)

def immS (w : RivU32) : ℤ :=
  signedBits 12 (extract 7 5 w.toNat + 2 ^ 5 * extract 25 7 w.toNat)

def immB (w : RivU32) : ℤ :=
  signedBits 13 (2 * extract 8 4 w.toNat + 2 ^ 5 * extract 25 6 w.toNat
    + 2 ^ 11 * extract 7 1 w.toNat + 2 ^ 12 * extract 31 1 w.toNat)

def immJ (w : RivU32) : ℤ :=
  signedBits 21 (2 * extract 21 10 w.toNat + 2 ^ 11 * extract 20 1 w.toNat
    + 2 ^ 12 * extract 12 8 w.toNat + 2 ^ 20 * extract 31 1 w.toNat)

/-- Where an instruction word carries its immediate. -/
inductive ImmFormat where
  | i
  | s
  | b
  | j
  | u
  | shamt
  deriving DecidableEq, Repr

/-- The word `w` at address `addr` carries the operand value `v`: itself, or, for
a branch or a jump, as the target. -/
def ImmFormat.Carries (addr w : RivU32) : ImmFormat → ℤ → Prop
  | .i, v => v = immI w
  | .s, v => v = immS w
  | .b, v => BitVec.ofInt 32 v = addr + BitVec.ofInt 32 (immB w)
  | .j, v => BitVec.ofInt 32 v = addr + BitVec.ofInt 32 (immJ w)
  | .u, v => v % 2 ^ 20 = extract 12 20 w.toNat ∧ -2 ^ 19 ≤ v ∧ v < 2 ^ 20
  | .shamt, v => v = extract 20 5 w.toNat

/-- The operand value `v` fits into the field. -/
def ImmFormat.Fits (addr : RivU32) : ImmFormat → ℤ → Prop
  | .i, v | .s, v => -2048 ≤ v ∧ v ≤ 2047
  | .b, v =>
    (BitVec.ofInt 32 v - addr).toInt % 2 = 0 ∧ -4096 ≤ (BitVec.ofInt 32 v - addr).toInt ∧
      (BitVec.ofInt 32 v - addr).toInt ≤ 4094
  | .j, v =>
    (BitVec.ofInt 32 v - addr).toInt % 2 = 0 ∧ -2 ^ 20 ≤ (BitVec.ofInt 32 v - addr).toInt ∧
      (BitVec.ofInt 32 v - addr).toInt ≤ 2 ^ 20 - 2
  | .u, v => -2 ^ 19 ≤ v ∧ v < 2 ^ 20
  | .shamt, v => 0 ≤ v ∧ v ≤ 31

/-! ## Operands of a line -/

/-- The offset of an `imm(reg)` operand. -/
def offsetPart (s : CStr) : CStr := s.takeWhile (· ≠ '(')

def immOf : Kind → List CStr → Option (ImmFormat × CStr)
  | .i, _ :: _ :: c :: _ => some (.i, c)
  | .shift, _ :: _ :: c :: _ => some (.shamt, c)
  | .load, _ :: b :: _ => some (.i, offsetPart b)
  | .store, _ :: b :: _ => some (.s, offsetPart b)
  | .branch, _ :: _ :: c :: _ => some (.b, c)
  | .jal, _ :: b :: _ => some (.j, b)
  | .jalr, [_, b] => some (.i, offsetPart b)
  | .jalr, _ :: _ :: c :: _ => some (.i, c)
  | .lui, _ :: b :: _ | .auipc, _ :: b :: _ => some (.u, b)
  | _, _ => none

/-- The immediate a source line writes.  A pseudo-operation has the operands of
the instruction it stands for. -/
def immOperand (tok : List CStr) : Option (ImmFormat × CStr) :=
  match rvExpandPseudo tok with
  | .ok (m :: ops) => (rvFind m).bind fun ix => immOf ix.kind ops
  | .ok [] | .error _ => none

def CarriesOperands (st : AsState) (tok : List CStr) (w : RivU32) : Prop :=
  ∀ f s v, immOperand tok = some (f, s) → rivAsParseImm st s = .ok v →
    f.Carries (st.pc + st.base) w v

def OperandsFit (st : AsState) (tok : List CStr) : Prop :=
  ∀ f s v, immOperand tok = some (f, s) → rivAsParseImm st s = .ok v →
    f.Fits (st.pc + st.base) v

/-! ## Fields of the encoded words -/

theorem rvRegLookup_lt {r : ℕ} (h : rvRegLookup s = some r) : r < 32 := by
  rw [rvRegLookup] at h
  split at h
  · grind [rvXReg.eq_def, Option.some.inj]
  split at h
  · obtain rfl := Option.some.inj h
    decide
  · exact (List.findIdx?_eq_some_iff_getElem.mp h).1

theorem rvParseReg_lt {r : ℕ} (h : rvParseReg s = .ok r) : r < 32 := by
  rw [rvParseReg] at h
  split at h
  · next r' hr =>
    cases h
    exact rvRegLookup_lt hr
  · cases h

theorem row_fields : ∀ ix ∈ rvIsa, ix.f3 < 8 ∧ ix.f7 < 128 ∧ ix.op < 128 := by decide

theorem parseI32_eq_ok {st : AsState} {x : RivI32} (h : parseI32 st s = .ok x) :
    ∃ v, rivAsParseImm st s = .ok v ∧ x = BitVec.ofInt 32 v := by
  obtain ⟨v, hv, h⟩ := of_bind_eq_ok h
  cases h
  exact ⟨v, hv, rfl⟩

theorem splitOffsetOrDie_eq_ok {parts : CStr × CStr} (h : splitOffsetOrDie s = .ok parts) :
    ∃ base, parts = (offsetPart s, base) ∧ rivAsSplitOffset s = .ok (some parts) := by
  obtain ⟨r, hr, h⟩ := of_bind_eq_ok h
  rw [hr]
  rw [rivAsSplitOffset] at hr
  split at hr
  · cases hr
    cases h
  split at hr
  · cases hr
    cases h
    exact ⟨_, rfl, rfl⟩
  · cases hr

theorem signedBits_mod (k n : ℕ) : signedBits k (n % 2 ^ k) = signedBits k n := by
  exact Int.emod_bmod n (2 ^ k)

theorem signedBits_ofInt (v : ℤ) (hk : k ≤ 32) :
    signedBits k (BitVec.ofInt 32 v).toNat = v.bmod (2 ^ k) := by
  rw [← signedBits_mod]
  unfold signedBits
  rw [toNat_ofInt_mod v hk]
  exact Int.emod_bmod v (2 ^ k)

theorem eq_bmod_iff (v : ℤ) (k : ℕ) : v = v.bmod (2 ^ (k + 1)) ↔ -2 ^ k ≤ v ∧ v < 2 ^ k := by
  have hpow : ((2 ^ (k + 1) : ℕ) : ℤ) = 2 * 2 ^ k := by push_cast; ring
  constructor
  · intro h
    have hlo := Int.le_bmod (x := v) (m := 2 ^ (k + 1)) (Nat.two_pow_pos _)
    have hhi := Int.bmod_lt (x := v) (m := 2 ^ (k + 1)) (Nat.two_pow_pos _)
    omega
  · rintro ⟨hlo, hhi⟩
    symm
    apply Int.bmod_eq_of_le
    · omega
    · omega

section Words

variable {w : RivU32} {rd f3 rs1 rs2 f7 op : ℕ}

theorem immI_of_pack (hw : w.toNat = pack [(7, op), (5, rd), (3, f3), (5, rs1), (12, x % 2 ^ 12)]) :
    immI w = signedBits 12 x := by
  have hfield : extract 20 12 w.toNat = x % 2 ^ 12 :=
    extract_at 4 hw rfl rfl (Nat.mod_lt _ (by decide))
  unfold immI
  rw [hfield, signedBits_mod]

theorem immS_of_pack (hw : w.toNat = pack [(7, op), (5, extract 0 5 x), (3, f3), (5, rs1), (5, rs2),
      (7, extract 5 7 x)]) : immS w = signedBits 12 x := by
  have hlo : extract 7 5 w.toNat = extract 0 5 x := extract_at 1 hw rfl rfl (extract_lt ..)
  have hhi : extract 25 7 w.toNat = extract 5 7 x := extract_at 5 hw rfl rfl (extract_lt ..)
  have hjoin : extract 0 5 x + 2 ^ 5 * extract 5 7 x = x % 2 ^ 12 := by
    simp only [extract]
    omega
  unfold immS
  rw [hlo, hhi, hjoin, signedBits_mod]

theorem immB_of_pack
    (hw : w.toNat = pack [(7, op), (1, extract 11 1 x), (4, extract 1 4 x), (3, f3), (5, rs1),
      (5, rs2), (6, extract 5 6 x), (1, extract 12 1 x)]) : immB w = signedBits 13 (x - x % 2) := by
  have h1 : extract 8 4 w.toNat = extract 1 4 x := extract_at 2 hw rfl rfl (extract_lt ..)
  have h5 : extract 25 6 w.toNat = extract 5 6 x := extract_at 6 hw rfl rfl (extract_lt ..)
  have h11 : extract 7 1 w.toNat = extract 11 1 x := extract_at 1 hw rfl rfl (extract_lt ..)
  have h12 : extract 31 1 w.toNat = extract 12 1 x := extract_at 7 hw rfl rfl (extract_lt ..)
  have hjoin : 2 * extract 1 4 x + 2 ^ 5 * extract 5 6 x + 2 ^ 11 * extract 11 1 x
      + 2 ^ 12 * extract 12 1 x = (x - x % 2) % 2 ^ 13 := by
    simp only [extract]
    omega
  unfold immB
  rw [h1, h5, h11, h12, hjoin, signedBits_mod]

theorem immJ_of_pack
    (hw : w.toNat = pack [(7, op), (5, rd), (8, extract 12 8 x), (1, extract 11 1 x),
      (10, extract 1 10 x), (1, extract 20 1 x)]) : immJ w = signedBits 21 (x - x % 2) := by
  have h1 : extract 21 10 w.toNat = extract 1 10 x := extract_at 4 hw rfl rfl (extract_lt ..)
  have h11 : extract 20 1 w.toNat = extract 11 1 x := extract_at 3 hw rfl rfl (extract_lt ..)
  have h12 : extract 12 8 w.toNat = extract 12 8 x := extract_at 2 hw rfl rfl (extract_lt ..)
  have h20 : extract 31 1 w.toNat = extract 20 1 x := extract_at 5 hw rfl rfl (extract_lt ..)
  have hjoin : 2 * extract 1 10 x + 2 ^ 11 * extract 11 1 x + 2 ^ 12 * extract 12 8 x
      + 2 ^ 20 * extract 20 1 x = (x - x % 2) % 2 ^ 21 := by
    simp only [extract]
    omega
  unfold immJ
  rw [h1, h11, h12, h20, hjoin, signedBits_mod]

end Words

/-! ## What is carried -/

theorem signedBits_even (x : RivU32) (hk : k < 31) : signedBits (k + 1) (x.toNat - x.toNat % 2) =
      (x.toInt - x.toInt % 2).bmod (2 ^ (k + 1)) := by
  have hsplit : (2 : ℤ) ^ 32 = (2 ^ (k + 1) : ℕ) * 2 ^ (31 - k) := by
    push_cast
    rw [← pow_add, show k + 1 + (31 - k) = 32 by omega]
    norm_num
  have hcast : ((x.toNat - x.toNat % 2 : ℕ) : ℤ) = x.toNat - (x.toNat : ℤ) % 2 := by omega
  unfold signedBits
  rw [hcast, BitVec.toInt_eq_toNat_cond]
  split
  · rfl
  · have hsub : ((x.toNat : ℤ) - (2 ^ 32 : ℕ)) - ((x.toNat : ℤ) - (2 ^ 32 : ℕ)) % 2 =
        (x.toNat - (x.toNat : ℤ) % 2) - 2 ^ 32 := by omega
    rw [hsub, hsplit, Int.sub_mul_bmod_self_left]

theorem displacement_iff {t addr : RivU32} (hpos : 0 < k) (hk : k < 31) {disp : ℤ}
    (hdisp : disp = signedBits (k + 1) ((t - addr).toNat - (t - addr).toNat % 2)) :
    t = addr + BitVec.ofInt 32 disp ↔
      (t - addr).toInt % 2 = 0 ∧ -2 ^ k ≤ (t - addr).toInt ∧ (t - addr).toInt ≤ 2 ^ k - 2 := by
  rw [signedBits_even _ hk] at hdisp
  have heven : (2 : ℤ) ^ k % 2 = 0 := by grind
  have hsub : t = addr + BitVec.ofInt 32 disp ↔ t - addr = BitVec.ofInt 32 disp := by grind
  have hrange : -2 ^ k ≤ disp ∧ disp < 2 ^ k := by
    rw [← eq_bmod_iff, hdisp, Int.bmod_bmod]
  have htoInt : t - addr = BitVec.ofInt 32 disp ↔ (t - addr).toInt = disp := by
    grind [BitVec.toInt_inj, toInt_ofInt_of_range]
  rw [hsub, htoInt]
  generalize (t - addr).toInt = i at hdisp ⊢
  constructor
  · rintro rfl
    have hdvd : (2 : ℤ) ∣ (2 ^ (k + 1) : ℕ) := ⟨2 ^ k, by push_cast; ring⟩
    have hmod : i % 2 = 0 := by
      have h := Int.emod_emod_of_dvd i hdvd
      rw [hdisp, Int.bmod_emod, Int.emod_emod_of_dvd _ hdvd] at h
      omega
    refine ⟨hmod, hrange.1, ?_⟩
    omega
  · rintro ⟨hmod, hlo, hhi⟩
    rw [hmod, sub_zero] at hdisp
    rw [hdisp, eq_bmod_iff]
    exact ⟨hlo, by omega⟩

/-! ## Words that `rv_encode` computes -/

/-- What a word carries for an operand that is read as `v`. -/
def CarriesIffFits (st : AsState) (w : RivU32) (operand : Option (ImmFormat × CStr)) : Prop :=
  ∀ f s v, operand = some (f, s) → rivAsParseImm st s = .ok v →
    (f.Carries (st.pc + st.base) w v ↔ f.Fits (st.pc + st.base) v)

section Formats

variable {st : AsState} {rd f3 rs1 rs2 f7 op : ℕ} {s : CStr} {v : ℤ}

theorem carriesIffFits_of_parseImm {w : RivU32} {f : ImmFormat} (hv : rivAsParseImm st s = .ok v)
    (h : f.Carries (st.pc + st.base) w v ↔ f.Fits (st.pc + st.base) v) :
    CarriesIffFits st w (some (f, s)) := by
  intro f s' v' hoperand hv'
  simp_all

theorem carriesIffFits_encI (hv : rivAsParseImm st s = .ok v) (hrd : rd < 32) (hf3 : f3 < 8)
    (hrs1 : rs1 < 32) (hop : op < 128) :
    CarriesIffFits st (encI rd f3 rs1 (BitVec.ofInt 32 v) op) (some (.i, s)) := by
  refine carriesIffFits_of_parseImm hv ?_
  have himm := immI_of_pack (encI_toNat (BitVec.ofInt 32 v) hrd hf3 hrs1 hop)
  rw [signedBits_ofInt v (by decide)] at himm
  have hiff := eq_bmod_iff v 11
  show v = immI _ ↔ -2048 ≤ v ∧ v ≤ 2047
  rw [himm, hiff]
  omega

theorem carriesIffFits_encS (hv : rivAsParseImm st s = .ok v) (hrs2 : rs2 < 32) (hf3 : f3 < 8)
    (hrs1 : rs1 < 32) (hop : op < 128) :
    CarriesIffFits st (encS rs2 f3 rs1 (BitVec.ofInt 32 v) op) (some (.s, s)) := by
  refine carriesIffFits_of_parseImm hv ?_
  have himm := immS_of_pack (encS_toNat (BitVec.ofInt 32 v) hrs2 hf3 hrs1 hop)
  rw [signedBits_ofInt v (by decide)] at himm
  have hiff := eq_bmod_iff v 11
  show v = immS _ ↔ -2048 ≤ v ∧ v ≤ 2047
  rw [himm, hiff]
  omega

theorem carriesIffFits_encB (hv : rivAsParseImm st s = .ok v) (hrs1 : rs1 < 32) (hrs2 : rs2 < 32)
    (hf3 : f3 < 8) (hop : op < 128) :
    CarriesIffFits st (encB rs1 rs2 f3 (BitVec.ofInt 32 v - (st.pc + st.base)) op)
      (some (.b, s)) := by
  refine carriesIffFits_of_parseImm hv ?_
  exact displacement_iff (by decide) (by decide) (immB_of_pack (encB_toNat _ hrs1 hrs2 hf3 hop))

theorem carriesIffFits_encJ (hv : rivAsParseImm st s = .ok v) (hrd : rd < 32) (hop : op < 128) :
    CarriesIffFits st (encJ rd (BitVec.ofInt 32 v - (st.pc + st.base)) op) (some (.j, s)) := by
  refine carriesIffFits_of_parseImm hv ?_
  exact displacement_iff (by decide) (by decide) (immJ_of_pack (encJ_toNat _ hrd hop))

theorem carriesIffFits_encShift (hv : rivAsParseImm st s = .ok v) (hrd : rd < 32) (hf3 : f3 < 8)
    (hrs1 : rs1 < 32) (hf7 : f7 < 128) (hop : op < 128) :
    CarriesIffFits st (encShift rd f3 rs1 (BitVec.ofInt 32 v &&& 0x1F) f7 op)
      (some (.shamt, s)) := by
  refine carriesIffFits_of_parseImm hv ?_
  have hmod := toNat_ofInt_mod v (show 5 ≤ 32 by decide)
  have hfield : extract 20 5 (encShift rd f3 rs1 (BitVec.ofInt 32 v &&& 0x1F) f7 op).toNat =
      (BitVec.ofInt 32 v).toNat % 2 ^ 5 := by
    rw [← toNat_and_mask (w := 5) _ 0x1F rfl]
    refine (extract_at 4 (encShift_toNat _ hrd hf3 hrs1 hf7 hop) rfl rfl
      (Nat.mod_lt _ (by decide))).trans (Nat.mod_eq_of_lt ?_)
    rw [toNat_and_mask (w := 5) _ _ rfl]
    exact Nat.mod_lt _ (by decide)
  show v = (extract 20 5 _ : ℕ) ↔ 0 ≤ v ∧ v ≤ 31
  omega

theorem encU_mask (rd : ℕ) (x : RivI32) (op : ℕ) :
    encU rd (x <<< 12) op = encU rd ((x &&& 0xFFFFF) <<< 12) op := by
  have hshift : x <<< 12 = (x &&& 0xFFFFF) <<< 12 := by
    apply BitVec.eq_of_toNat_eq
    rw [BitVec.toNat_shiftLeft, BitVec.toNat_shiftLeft, toNat_and_mask (w := 20) x _ rfl,
      Nat.shiftLeft_eq, Nat.shiftLeft_eq]
    omega
  rw [← hshift]

theorem carriesIffFits_encU (hv : rivAsParseImm st s = .ok v) (hrd : rd < 32) (hop : op < 128) :
    CarriesIffFits st (encU rd (BitVec.ofInt 32 v <<< 12) op) (some (.u, s)) := by
  refine carriesIffFits_of_parseImm hv ?_
  have hmask : (BitVec.ofInt 32 v &&& 0xFFFFF).toNat = (BitVec.ofInt 32 v).toNat % 2 ^ 20 :=
    toNat_and_mask _ _ rfl
  have hmod := toNat_ofInt_mod v (show 20 ≤ 32 by decide)
  have hlt : (BitVec.ofInt 32 v &&& 0xFFFFF).toNat < 2 ^ 20 := by
    rw [hmask]
    exact Nat.mod_lt _ (by decide)
  have hfield : extract 12 20 (encU rd (BitVec.ofInt 32 v <<< 12) op).toNat =
      (BitVec.ofInt 32 v).toNat % 2 ^ 20 := by
    rw [encU_mask, ← hmask]
    exact extract_at 2 (encU_toNat hlt hrd hop) rfl rfl hlt
  show v % 2 ^ 20 = (extract 12 20 _ : ℕ) ∧ -2 ^ 19 ≤ v ∧ v < 2 ^ 20 ↔ -2 ^ 19 ≤ v ∧ v < 2 ^ 20
  rw [hfield, hmod]
  exact and_iff_right rfl

end Formats

section Encoding

variable {st st' : AsState} {w : RivU32} {ix : InsnT} {m : CStr} {ops : List CStr}

/-- The word of a row and the operands it is made of, one case for each format. -/
inductive WordForm (st : AsState) (ix : InsnT) : List CStr → RivU32 → Prop
  | r {a b c rest rd rs1 rs2} (hkind : ix.kind = .r) (hrd : rvParseReg a = .ok rd)
      (hrs1 : rvParseReg b = .ok rs1) (hrs2 : rvParseReg c = .ok rs2) :
      WordForm st ix (a :: b :: c :: rest) (encR rd ix.f3 rs1 rs2 ix.f7 ix.op)
  | i {a b c rest rd rs1 v} (hkind : ix.kind = .i ∨ ix.kind = .jalr)
      (hrd : rvParseReg a = .ok rd) (hrs1 : rvParseReg b = .ok rs1)
      (hv : rivAsParseImm st c = .ok v) :
      WordForm st ix (a :: b :: c :: rest) (encI rd ix.f3 rs1 (BitVec.ofInt 32 v) ix.op)
  | shift {a b c rest rd rs1 v} (hkind : ix.kind = .shift) (hrd : rvParseReg a = .ok rd)
      (hrs1 : rvParseReg b = .ok rs1) (hv : rivAsParseImm st c = .ok v) :
      WordForm st ix (a :: b :: c :: rest)
        (encShift rd ix.f3 rs1 (BitVec.ofInt 32 v &&& 0x1F) ix.f7 ix.op)
  | offset {a b base rest rd rs1 v} (hkind : ix.kind = .load ∨ ix.kind = .jalr ∧ rest = [])
      (hsplit : rivAsSplitOffset b = .ok (some (offsetPart b, base)))
      (hrd : rvParseReg a = .ok rd) (hrs1 : rvParseReg base = .ok rs1)
      (hv : rivAsParseImm st (offsetPart b) = .ok v) :
      WordForm st ix (a :: b :: rest) (encI rd ix.f3 rs1 (BitVec.ofInt 32 v) ix.op)
  | store {a b base rest rs2 rs1 v} (hkind : ix.kind = .store)
      (hsplit : rivAsSplitOffset b = .ok (some (offsetPart b, base)))
      (hrs2 : rvParseReg a = .ok rs2) (hrs1 : rvParseReg base = .ok rs1)
      (hv : rivAsParseImm st (offsetPart b) = .ok v) :
      WordForm st ix (a :: b :: rest) (encS rs2 ix.f3 rs1 (BitVec.ofInt 32 v) ix.op)
  | branch {a b c rest rs1 rs2 v} (hkind : ix.kind = .branch) (hrs1 : rvParseReg a = .ok rs1)
      (hrs2 : rvParseReg b = .ok rs2) (hv : rivAsParseImm st c = .ok v) :
      WordForm st ix (a :: b :: c :: rest)
        (encB rs1 rs2 ix.f3 (BitVec.ofInt 32 v - (st.pc + st.base)) ix.op)
  | jal {a b rest rd v} (hkind : ix.kind = .jal) (hrd : rvParseReg a = .ok rd)
      (hv : rivAsParseImm st b = .ok v) :
      WordForm st ix (a :: b :: rest) (encJ rd (BitVec.ofInt 32 v - (st.pc + st.base)) ix.op)
  | upper {a b rest rd v} (hkind : ix.kind = .lui ∨ ix.kind = .auipc)
      (hrd : rvParseReg a = .ok rd) (hv : rivAsParseImm st b = .ok v) :
      WordForm st ix (a :: b :: rest) (encU rd (BitVec.ofInt 32 v <<< 12) ix.op)
  | none {l : List CStr} {x : RivU32} (hkind : ix.kind = .sys ∨ ix.kind = .fence) :
      WordForm st ix l x

theorem wordForm_of_rvWord (h : rvWord st ix m ops = .ok w) : WordForm st ix ops w := by
  rw [rvWord.eq_def] at h
  cases hkind : ix.kind with
  | sys => exact .none (.inl hkind)
  | fence => exact .none (.inr hkind)
  | r =>
    simp only [hkind] at h
    rcases ops with _ | ⟨a, _ | ⟨b, _ | ⟨c, rest⟩⟩⟩
    iterate 3 cases h
    obtain ⟨rd, hrd, h⟩ := of_bind_eq_ok h
    obtain ⟨rs1, hrs1, h⟩ := of_bind_eq_ok h
    obtain ⟨rs2, hrs2, h⟩ := of_bind_eq_ok h
    cases h
    exact .r hkind hrd hrs1 hrs2
  | i =>
    simp only [hkind] at h
    rcases ops with _ | ⟨a, _ | ⟨b, _ | ⟨c, rest⟩⟩⟩
    iterate 3 cases h
    obtain ⟨rd, hrd, h⟩ := of_bind_eq_ok h
    obtain ⟨rs1, hrs1, h⟩ := of_bind_eq_ok h
    obtain ⟨x, hx, h⟩ := of_bind_eq_ok h
    obtain ⟨v, hv, rfl⟩ := parseI32_eq_ok hx
    cases h
    exact .i (.inl hkind) hrd hrs1 hv
  | shift =>
    simp only [hkind] at h
    rcases ops with _ | ⟨a, _ | ⟨b, _ | ⟨c, rest⟩⟩⟩
    iterate 3 cases h
    obtain ⟨rd, hrd, h⟩ := of_bind_eq_ok h
    obtain ⟨rs1, hrs1, h⟩ := of_bind_eq_ok h
    obtain ⟨x, hx, h⟩ := of_bind_eq_ok h
    obtain ⟨v, hv, rfl⟩ := parseI32_eq_ok hx
    cases h
    exact .shift hkind hrd hrs1 hv
  | load =>
    simp only [hkind] at h
    rcases ops with _ | ⟨a, _ | ⟨b, rest⟩⟩
    iterate 2 cases h
    obtain ⟨parts, hsplit, h⟩ := of_bind_eq_ok h
    obtain ⟨r, hr, h⟩ := of_bind_eq_ok h
    obtain ⟨rs1, hrs1, h⟩ := of_bind_eq_ok h
    obtain ⟨x, hx, h⟩ := of_bind_eq_ok h
    obtain ⟨base, rfl, hsplit⟩ := splitOffsetOrDie_eq_ok hsplit
    obtain ⟨v, hv, rfl⟩ := parseI32_eq_ok hx
    cases h
    exact .offset (.inl hkind) hsplit hr hrs1 hv
  | store =>
    simp only [hkind] at h
    rcases ops with _ | ⟨a, _ | ⟨b, rest⟩⟩
    iterate 2 cases h
    obtain ⟨parts, hsplit, h⟩ := of_bind_eq_ok h
    obtain ⟨r, hr, h⟩ := of_bind_eq_ok h
    obtain ⟨rs1, hrs1, h⟩ := of_bind_eq_ok h
    obtain ⟨x, hx, h⟩ := of_bind_eq_ok h
    obtain ⟨base, rfl, hsplit⟩ := splitOffsetOrDie_eq_ok hsplit
    obtain ⟨v, hv, rfl⟩ := parseI32_eq_ok hx
    cases h
    exact .store hkind hsplit hr hrs1 hv
  | branch =>
    simp only [hkind] at h
    rcases ops with _ | ⟨a, _ | ⟨b, _ | ⟨c, rest⟩⟩⟩
    iterate 3 cases h
    obtain ⟨x, hx, h⟩ := of_bind_eq_ok h
    obtain ⟨rs1, hrs1, h⟩ := of_bind_eq_ok h
    obtain ⟨rs2, hrs2, h⟩ := of_bind_eq_ok h
    obtain ⟨v, hv, rfl⟩ := parseI32_eq_ok hx
    cases h
    exact .branch hkind hrs1 hrs2 hv
  | jal =>
    simp only [hkind] at h
    rcases ops with _ | ⟨a, _ | ⟨b, rest⟩⟩
    iterate 2 cases h
    obtain ⟨x, hx, h⟩ := of_bind_eq_ok h
    obtain ⟨rd, hrd, h⟩ := of_bind_eq_ok h
    obtain ⟨v, hv, rfl⟩ := parseI32_eq_ok hx
    cases h
    exact .jal hkind hrd hv
  | lui | auipc =>
    simp only [hkind] at h
    rcases ops with _ | ⟨a, _ | ⟨b, rest⟩⟩
    iterate 2 cases h
    obtain ⟨x, hx, h⟩ := of_bind_eq_ok h
    obtain ⟨rd, hrd, h⟩ := of_bind_eq_ok h
    obtain ⟨v, hv, rfl⟩ := parseI32_eq_ok hx
    cases h
    exact .upper (by simp [hkind]) hrd hv
  | jalr =>
    simp only [hkind] at h
    rcases ops with _ | ⟨a, _ | ⟨b, _ | ⟨c, rest⟩⟩⟩
    iterate 2 cases h
    · obtain ⟨parts, hsplit, h⟩ := of_bind_eq_ok h
      obtain ⟨rd, hrd, h⟩ := of_bind_eq_ok h
      obtain ⟨rs1, hrs1, h⟩ := of_bind_eq_ok h
      obtain ⟨x, hx, h⟩ := of_bind_eq_ok h
      obtain ⟨base, rfl, hsplit⟩ := splitOffsetOrDie_eq_ok hsplit
      obtain ⟨v, hv, rfl⟩ := parseI32_eq_ok hx
      cases h
      exact .offset (.inr ⟨hkind, rfl⟩) hsplit hrd hrs1 hv
    · obtain ⟨rd, hrd, h⟩ := of_bind_eq_ok h
      obtain ⟨rs1, hrs1, h⟩ := of_bind_eq_ok h
      obtain ⟨x, hx, h⟩ := of_bind_eq_ok h
      obtain ⟨v, hv, rfl⟩ := parseI32_eq_ok hx
      cases h
      exact .i (.inr hkind) hrd hrs1 hv

theorem carriesIffFits_rvWord (hix : ix ∈ rvIsa) (h : rvWord st ix m ops = .ok w) :
    CarriesIffFits st w (immOf ix.kind ops) := by
  obtain ⟨hf3, hf7, hop⟩ := row_fields ix hix
  have hnone : CarriesIffFits st w none := by
    intro f s v hoperand
    cases hoperand
  cases wordForm_of_rvWord h with
  | r hkind => rwa [hkind]
  | i hkind hrd hrs1 hv =>
    have hfits := carriesIffFits_encI hv (rvParseReg_lt hrd) hf3 (rvParseReg_lt hrs1) hop
    obtain hkind | hkind := hkind <;> rwa [hkind]
  | shift hkind hrd hrs1 hv =>
    rw [hkind]
    exact carriesIffFits_encShift hv (rvParseReg_lt hrd) hf3 (rvParseReg_lt hrs1) hf7 hop
  | offset hkind _ hrd hrs1 hv =>
    have hfits := carriesIffFits_encI hv (rvParseReg_lt hrd) hf3 (rvParseReg_lt hrs1) hop
    obtain hkind | ⟨hkind, rfl⟩ := hkind <;> rwa [hkind]
  | store hkind _ hrs2 hrs1 hv =>
    rw [hkind]
    exact carriesIffFits_encS hv (rvParseReg_lt hrs2) hf3 (rvParseReg_lt hrs1) hop
  | branch hkind hrs1 hrs2 hv =>
    rw [hkind]
    exact carriesIffFits_encB hv (rvParseReg_lt hrs1) (rvParseReg_lt hrs2) hf3 hop
  | jal hkind hrd hv =>
    rw [hkind]
    exact carriesIffFits_encJ hv (rvParseReg_lt hrd) hop
  | upper hkind hrd hv =>
    have hfits := carriesIffFits_encU hv (rvParseReg_lt hrd) hop
    obtain hkind | hkind := hkind <;> rwa [hkind]
  | none hkind => obtain hkind | hkind := hkind <;> rwa [hkind]

theorem rvEncode_eq_ok {tok : List CStr} (h : rvEncode tok st = .ok (some st')) :
    ∃ m ops ix w, rvExpandPseudo tok = .ok (m :: ops) ∧ rvFind m = some ix ∧
      rvWord st ix m ops = .ok w ∧ emitted st st' = leU32 w := by
  obtain ⟨tok', htok, h⟩ := of_bind_eq_ok h
  rcases tok' with _ | ⟨m, ops⟩
  · cases h
  cases hfind : rvFind m with
  | none =>
    simp only [hfind] at h
    cases h
  | some ix =>
    simp only [hfind] at h
    obtain ⟨w, hw, h⟩ := of_bind_eq_ok h
    obtain ⟨st1, hemit, h⟩ := of_bind_eq_ok h
    cases h
    rw [rivAsEmitU32_eq] at hemit
    obtain ⟨rfl, hfit⟩ := emitAll_eq_ok hemit
    exact ⟨m, ops, ix, w, htok, hfind, hw, emitted_putAll (hfit (by simp [leU32]))⟩

end Encoding

/-- The second pass at the start of an image that is loaded at `0x1000`. -/
def emitState : AsState := ⟨fun _ => 0, 0, 0, 0x1000, .emit, 1, [], .riscv32⟩

end Rivet.Riscv32
