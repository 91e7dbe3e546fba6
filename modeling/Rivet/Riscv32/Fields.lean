import Rivet.Riscv32.Decode

/-!
# Fields of RV32 instruction words

The words built by the format encoders are described by their fields, and
`rv_decode` reads the same fields.  The scrambled branch and jump immediates
are put together again field by field.
-/

namespace Rivet.Riscv32

open CLib Assembler Disassembler BitField BitVec

variable {pc w : RivU32} {f3 f7 k op rd rs1 rs2 v : ℕ} {fields : List (ℕ × ℕ)} {disp imm : ℤ}

/-! ## Fields of the encoded words -/

theorem u32_toNat {n w : ℕ} (hn : n < 2 ^ w) (hw : w ≤ 32) : (u32 n).toNat = n := by
  rw [toNat_ofNat, Nat.mod_eq_of_lt]
  exact Nat.lt_of_lt_of_le hn (Nat.pow_le_pow_right (by decide) hw)

theorem u32_eq_pack {w : ℕ} (hv : v < 2 ^ w) (hw : w ≤ 32) : (u32 v).toNat = pack [(w, v)] := by
  rw [u32_toNat hv hw, pack_singleton hv]

theorem u32_shiftLeft_or {y : RivU32} {w : ℕ} (hv : v < 2 ^ w) (hy : y.toNat = pack fields)
    (hk : width fields = k) (hwk : w + k ≤ 32) :
    (u32 v <<< k ||| y).toNat = pack (fields ++ [(w, v)]) :=
  toNat_shiftLeft_or (u32_toNat hv (by omega)) hv hy hk hwk

theorem low_fields_toNat {x : RivU32} (hx : x.toNat = v) (hv : v < 2 ^ 5) (hf3 : f3 < 8)
    (hrs1 : rs1 < 32) (hop : op < 128) :
    (u32 rs1 <<< 15 ||| (u32 f3 <<< 12 ||| (x <<< 7 ||| u32 op))).toNat =
      pack [(7, op), (5, v), (3, f3), (5, rs1)] := by
  have h0 : (u32 op).toNat = pack [(7, op)] := u32_eq_pack hop (by decide)
  have h1 := toNat_shiftLeft_or (k := 7) hx hv h0 rfl (by decide)
  have h2 := u32_shiftLeft_or (w := 3) (k := 12) hf3 h1 rfl (by decide)
  exact u32_shiftLeft_or (w := 5) (k := 15) hrs1 h2 rfl (by decide)

theorem low_fields_reg_toNat (hrd : rd < 32) (hf3 : f3 < 8) (hrs1 : rs1 < 32) (hop : op < 128) :
    (u32 rs1 <<< 15 ||| (u32 f3 <<< 12 ||| (u32 rd <<< 7 ||| u32 op))).toNat =
      pack [(7, op), (5, rd), (3, f3), (5, rs1)] :=
  low_fields_toNat (u32_toNat (w := 5) hrd (by decide)) hrd hf3 hrs1 hop

theorem encR_toNat (hrd : rd < 32) (hf3 : f3 < 8) (hrs1 : rs1 < 32) (hrs2 : rs2 < 32)
    (hf7 : f7 < 128) (hop : op < 128) : (encR rd f3 rs1 rs2 f7 op).toNat =
      pack [(7, op), (5, rd), (3, f3), (5, rs1), (5, rs2), (7, f7)] := by
  have hlow := low_fields_reg_toNat hrd hf3 hrs1 hop
  have hrs := u32_shiftLeft_or (w := 5) (k := 20) hrs2 hlow rfl (by decide)
  have hall := u32_shiftLeft_or (w := 7) (k := 25) hf7 hrs rfl (by decide)
  simp only [encR, BitVec.or_assoc]
  exact hall

theorem encI_toNat (imm : RivI32) (hrd : rd < 32) (hf3 : f3 < 8) (hrs1 : rs1 < 32)
    (hop : op < 128) : (encI rd f3 rs1 imm op).toNat =
      pack [(7, op), (5, rd), (3, f3), (5, rs1), (12, imm.toNat % 2 ^ 12)] := by
  have hlow := low_fields_reg_toNat hrd hf3 hrs1 hop
  have hall := toNat_shiftLeft_or (w := 12) (k := 20) (toNat_and_mask imm 0xFFF rfl)
    (Nat.mod_lt _ (by decide)) hlow rfl (by decide)
  simp only [encI, BitVec.or_assoc]
  exact hall

theorem encShift_toNat (shamt : RivI32) (hrd : rd < 32) (hf3 : f3 < 8) (hrs1 : rs1 < 32)
    (hf7 : f7 < 128) (hop : op < 128) : (encShift rd f3 rs1 shamt f7 op).toNat =
      pack [(7, op), (5, rd), (3, f3), (5, rs1), (5, shamt.toNat % 2 ^ 5), (7, f7)] := by
  have hlow := low_fields_reg_toNat hrd hf3 hrs1 hop
  have hsh := toNat_shiftLeft_or (w := 5) (k := 20) (toNat_and_mask shamt 0x1F rfl)
    (Nat.mod_lt _ (by decide)) hlow rfl (by decide)
  have hall := u32_shiftLeft_or (w := 7) (k := 25) hf7 hsh rfl (by decide)
  simp only [encShift, BitVec.or_assoc]
  exact hall

theorem encS_toNat (imm : RivI32) (hrs2 : rs2 < 32) (hf3 : f3 < 8) (hrs1 : rs1 < 32)
    (hop : op < 128) : (encS rs2 f3 rs1 imm op).toNat =
      pack [(7, op), (5, extract 0 5 imm.toNat), (3, f3), (5, rs1), (5, rs2),
        (7, extract 5 7 imm.toNat)] := by
  have hlo : ((imm &&& 0xFFF) &&& 0x1F).toNat = extract 0 5 imm.toNat :=
    toNat_and_ushiftRight_and (k := 0) imm 0xFFF 0x1F (by decide) rfl
  have hhi : ((imm &&& 0xFFF) >>> 5).toNat = extract 5 7 imm.toNat := by
    rw [toNat_ushiftRight, toNat_and_mask (w := 12) imm _ rfl, Nat.shiftRight_eq_div_pow, extract]
    omega
  have hlow := low_fields_toNat hlo (extract_lt ..) hf3 hrs1 hop
  have hrs := u32_shiftLeft_or (w := 5) (k := 20) hrs2 hlow rfl (by decide)
  have hall := toNat_shiftLeft_or (k := 25) hhi (extract_lt ..) hrs rfl (by decide)
  simp only [encS, BitVec.or_assoc]
  exact hall

theorem encB_toNat (off : RivI32) (hrs1 : rs1 < 32) (hrs2 : rs2 < 32) (hf3 : f3 < 8)
    (hop : op < 128) : (encB rs1 rs2 f3 off op).toNat =
      pack [(7, op), (1, extract 11 1 off.toNat), (4, extract 1 4 off.toNat),
        (3, f3), (5, rs1), (5, rs2), (6, extract 5 6 off.toNat), (1, extract 12 1 off.toNat)] := by
  have h12 : (((off &&& 0x1FFE) >>> 12) &&& 1).toNat = extract 12 1 off.toNat :=
    toNat_and_ushiftRight_and off _ _ (by decide) rfl
  have h5 : (((off &&& 0x1FFE) >>> 5) &&& 0x3F).toNat = extract 5 6 off.toNat :=
    toNat_and_ushiftRight_and off _ _ (by decide) rfl
  have h1 : (((off &&& 0x1FFE) >>> 1) &&& 0xF).toNat = extract 1 4 off.toNat :=
    toNat_and_ushiftRight_and off _ _ (by decide) rfl
  have h11 : (((off &&& 0x1FFE) >>> 11) &&& 1).toNat = extract 11 1 off.toNat :=
    toNat_and_ushiftRight_and off _ _ (by decide) rfl
  have s0 : (u32 op).toNat = pack [(7, op)] := u32_eq_pack hop (by decide)
  have s1 := toNat_shiftLeft_or (k := 7) h11 (extract_lt ..) s0 rfl (by decide)
  have s2 := toNat_shiftLeft_or (k := 8) h1 (extract_lt ..) s1 rfl (by decide)
  have s3 := u32_shiftLeft_or (w := 3) (k := 12) hf3 s2 rfl (by decide)
  have s4 := u32_shiftLeft_or (w := 5) (k := 15) hrs1 s3 rfl (by decide)
  have s5 := u32_shiftLeft_or (w := 5) (k := 20) hrs2 s4 rfl (by decide)
  have s6 := toNat_shiftLeft_or (k := 25) h5 (extract_lt ..) s5 rfl (by decide)
  have s7 := toNat_shiftLeft_or (k := 31) h12 (extract_lt ..) s6 rfl (by decide)
  simp only [encB, BitVec.or_assoc]
  exact s7

theorem encJ_toNat (off : RivI32) (hrd : rd < 32) (hop : op < 128) : (encJ rd off op).toNat =
      pack [(7, op), (5, rd), (8, extract 12 8 off.toNat),
        (1, extract 11 1 off.toNat), (10, extract 1 10 off.toNat),
        (1, extract 20 1 off.toNat)] := by
  have h20 : (((off &&& 0x1FFFFE) >>> 20) &&& 1).toNat = extract 20 1 off.toNat :=
    toNat_and_ushiftRight_and off _ _ (by decide) rfl
  have h1 : (((off &&& 0x1FFFFE) >>> 1) &&& 0x3FF).toNat = extract 1 10 off.toNat :=
    toNat_and_ushiftRight_and off _ _ (by decide) rfl
  have h11 : (((off &&& 0x1FFFFE) >>> 11) &&& 1).toNat = extract 11 1 off.toNat :=
    toNat_and_ushiftRight_and off _ _ (by decide) rfl
  have h12 : (((off &&& 0x1FFFFE) >>> 12) &&& 0xFF).toNat = extract 12 8 off.toNat :=
    toNat_and_ushiftRight_and off _ _ (by decide) rfl
  have s0 : (u32 op).toNat = pack [(7, op)] := u32_eq_pack hop (by decide)
  have s1 := u32_shiftLeft_or (w := 5) (k := 7) hrd s0 rfl (by decide)
  have s2 := toNat_shiftLeft_or (k := 12) h12 (extract_lt ..) s1 rfl (by decide)
  have s3 := toNat_shiftLeft_or (k := 20) h11 (extract_lt ..) s2 rfl (by decide)
  have s4 := toNat_shiftLeft_or (k := 21) h1 (extract_lt ..) s3 rfl (by decide)
  have s5 := toNat_shiftLeft_or (k := 31) h20 (extract_lt ..) s4 rfl (by decide)
  simp only [encJ, BitVec.or_assoc]
  exact s5

theorem encU_toNat {v : RivI32} (hv : v.toNat < 2 ^ 20) (hrd : rd < 32) (hop : op < 128) :
    (encU rd (v <<< 12) op).toNat = pack [(7, op), (5, rd), (20, v.toNat)] := by
  have hmask : (v <<< 12) &&& 0xFFFFF000 = v <<< 12 := by
    have hv' : v &&& 0xFFFFF = v := by
      apply eq_of_toNat_eq
      rw [toNat_and_mask (w := 20) v _ rfl, Nat.mod_eq_of_lt hv]
    calc
      (v <<< 12) &&& 0xFFFFF000 = (v <<< 12) &&& ((0xFFFFF : RivU32) <<< 12) := rfl
      _ = (v &&& 0xFFFFF) <<< 12 := (shiftLeft_and_distrib v _ 12).symm
      _ = v <<< 12 := by rw [hv']
  have s0 : (u32 op).toNat = pack [(7, op)] := u32_eq_pack hop (by decide)
  have s1 := u32_shiftLeft_or (w := 5) (k := 7) hrd s0 rfl (by decide)
  have s2 := toNat_shiftLeft_or (k := 12) rfl hv s1 rfl (by decide)
  simp only [encU, hmask, BitVec.or_assoc]
  exact s2

/-! ## Fields read by the decoder -/

/-- The fields `rv_decode` extracts from every word. -/
structure ReadsAs (w : RivU32) (op rd f3 rs1 : ℕ) : Prop where
  op_eq : (w &&& 0x7F).toNat = op
  rd_eq : ((w >>> 7) &&& 0x1F).toNat = rd
  f3_eq : ((w >>> 12) &&& 0x7).toNat = f3
  rs1_eq : ((w >>> 15) &&& 0x1F).toNat = rs1

theorem field_at {mask : RivU32} {lo n : ℕ} (i : ℕ) (hw : w.toNat = pack fields)
    (hi : fields[i]? = some (n, v)) (hlo : width (fields.take i) = lo)
    (hmask : mask.toNat = 2 ^ n - 1) (hv : v < 2 ^ n) : ((w >>> lo) &&& mask).toNat = v :=
  (toNat_ushiftRight_and w mask hmask).trans (extract_at i hw hi hlo hv)

theorem opcode_of_pack (hw : w.toNat = pack ((7, op) :: fields)) (hop : op < 128) :
    (w &&& 0x7F).toNat = op := by
  have h : ((w >>> 0) &&& 0x7F).toNat = op := field_at 0 hw rfl rfl rfl hop
  exact h

theorem readsAs_of_pack
    (hw : w.toNat = pack ((7, op) :: (5, rd) :: (3, f3) :: (5, rs1) :: fields)) (hop : op < 128)
    (hrd : rd < 32) (hf3 : f3 < 8) (hrs1 : rs1 < 32) : ReadsAs w op rd f3 rs1 where
  op_eq := opcode_of_pack hw hop
  rd_eq := field_at 1 hw rfl rfl rfl hrd
  f3_eq := field_at 2 hw rfl rfl rfl hf3
  rs1_eq := field_at 3 hw rfl rfl rfl hrs1

theorem displacement_eq {t d : RivU32} (h : t = pc + d) : t - pc = d := by
  rw [h, BitVec.add_comm, BitVec.add_sub_cancel]

theorem sext_eq_ofInt {v : RivU32} (imm : ℤ) (hk : k < 31) (hlo : -2 ^ k ≤ imm)
    (hhi : imm < 2 ^ k) (hv : (v.toNat : ℤ) = imm % 2 ^ (k + 1)) :
    sext v (k + 1) = BitVec.ofInt 32 imm := by
  have hpow : (2 : ℤ) ^ (k + 1) = 2 * 2 ^ k := by ring
  have hcast : ((2 ^ k : ℕ) : ℤ) = 2 ^ k := by push_cast; rfl
  have hle : 2 ^ k ≤ 2 ^ 30 := Nat.pow_le_pow_right (by decide) (by omega)
  have hlt : v.toNat < 2 ^ (k + 1) := by omega
  have hbit : ((1 : RivU32) <<< k).toNat = 2 ^ k := by
    rw [toNat_shiftLeft, Nat.shiftLeft_eq]
    change 1 * 2 ^ k % 2 ^ 32 = 2 ^ k
    omega
  have hval : v.toNat = if 0 ≤ imm then imm.toNat else (imm + 2 * 2 ^ k).toNat := by
    split
    · next h =>
      rw [Int.emod_eq_of_lt h (by omega)] at hv
      omega
    · next h =>
      rw [← Int.add_emod_right, Int.emod_eq_of_lt (by omega) (by omega), hpow] at hv
      omega
  apply eq_of_toNat_eq
  rw [sext, Nat.add_sub_cancel, toNat_sub, toNat_xor, hbit, xor_two_pow hlt, toNat_ofInt]
  split at hval <;> split <;> omega

theorem toInt_ofInt_of_range (imm : ℤ) (hk : k < 31) (hlo : -2 ^ k ≤ imm) (hhi : imm < 2 ^ k) :
    (BitVec.ofInt 32 imm).toInt = imm := by
  have hle : (2 : ℤ) ^ k ≤ 2 ^ 30 :=
    pow_le_pow_right₀ (by decide) (by omega)
  grind

theorem toNat_ofInt_mod (imm : ℤ) (hk : k ≤ 32) :
    (((BitVec.ofInt 32 imm).toNat % 2 ^ k : ℕ) : ℤ) = imm % 2 ^ k := by
  rw [toNat_ofInt]
  push_cast
  rw [Int.toNat_of_nonneg (Int.emod_nonneg _ (by decide))]
  exact Int.emod_emod_of_dvd imm (pow_dvd_pow 2 hk)

theorem rvDecodeWord_r (hw : w.toNat =
      pack [(7, 0x33), (5, rd), (3, f3), (5, rs1), (5, rs2), (7, f7)]) (hrd : rd < 32)
    (hf3 : f3 < 8) (hrs1 : rs1 < 32) (hrs2 : rs2 < 32) (hf7 : f7 < 128) :
    rvDecodeWord pc w = ⟨rvOpName f7 f3, [.reg rd, .reg rs1, .reg rs2]⟩ := by
  have h := readsAs_of_pack hw (by decide) hrd hf3 hrs1
  have hrs2' : ((w >>> 20) &&& 0x1F).toNat = rs2 := field_at 4 hw rfl rfl rfl hrs2
  have hf7' : ((w >>> 25) &&& 0x7F).toNat = f7 := field_at 5 hw rfl rfl rfl hf7
  simp only [rvDecodeWord, h.op_eq, h.rd_eq, h.f3_eq, h.rs1_eq, hrs2', hf7']

theorem sext_top_eq (hw : w.toNat = pack [(7, op), (5, rd), (3, f3), (5, rs1),
      (12, (BitVec.ofInt 32 imm).toNat % 2 ^ 12)]) (hlo : -2048 ≤ imm) (hhi : imm ≤ 2047) :
    sext (w >>> 20) 12 = BitVec.ofInt 32 imm := by
  have htop : (w >>> 20).toNat = (BitVec.ofInt 32 imm).toNat % 2 ^ 12 :=
    (toNat_ushiftRight_top w rfl).trans (extract_at 4 hw rfl rfl (Nat.mod_lt _ (by decide)))
  apply sext_eq_ofInt (k := 11) imm (by decide) (by omega) (by omega)
  rw [htop]
  exact toNat_ofInt_mod imm (by decide)

theorem rvDecodeWord_i {name : String} (hw : w.toNat = pack [(7, 0x13), (5, rd), (3, f3), (5, rs1),
      (12, (BitVec.ofInt 32 imm).toNat % 2 ^ 12)]) (hrd : rd < 32) (hf3 : f3 < 8)
    (hrs1 : rs1 < 32) (hname : ∀ f7, rvOpImmName f7 f3 = name) (hshift : ¬(f3 = 1 ∨ f3 = 5))
    (hlo : -2048 ≤ imm) (hhi : imm ≤ 2047) :
    rvDecodeWord pc w = ⟨name, [.reg rd, .reg rs1, .dec imm]⟩ := by
  have h := readsAs_of_pack hw (by decide) hrd hf3 hrs1
  have himm := toInt_ofInt_of_range (k := 11) imm (by decide) (by omega) (by omega)
  simp only [rvDecodeWord, h.op_eq, h.rd_eq, h.f3_eq, h.rs1_eq, if_neg hshift,
    hname, sext_top_eq hw hlo hhi, himm]

theorem sext_and_shamt {v : RivU32} (hv : v.toNat < 2 ^ 12) :
    (sext v 12 &&& 0x1F).toInt = ((v.toNat % 32 : ℕ) : ℤ) := by
  have hmod : (sext v 12).toNat % 32 = v.toNat % 32 := by
    by_cases hsmall : v.toNat < 2048
    · have h := sext_eq_ofInt (v := v) (k := 11) (v.toNat)
        (by decide) (by omega) (by omega) (by omega)
      rw [h, toNat_ofInt]
      omega
    · have h := sext_eq_ofInt (v := v) (k := 11) (v.toNat - 4096)
        (by decide) (by omega) (by omega) (by omega)
      rw [h, toNat_ofInt]
      omega
  have hand : (sext v 12 &&& 0x1F).toNat = v.toNat % 32 := by
    rw [toNat_and_mask (w := 5) _ _ rfl]
    exact hmod
  rw [toInt_eq_toNat_of_lt, hand]
  omega

theorem rvDecodeWord_shift {shamt : ℕ} (hw : w.toNat =
      pack [(7, 0x13), (5, rd), (3, f3), (5, rs1), (5, shamt), (7, f7)]) (hrd : rd < 32)
    (hf3 : f3 < 8) (hrs1 : rs1 < 32) (hshamt : shamt < 32) (hf7 : f7 < 128)
    (hshift : f3 = 1 ∨ f3 = 5) : rvDecodeWord pc w =
      ⟨rvOpImmName f7 f3, [.reg rd, .reg rs1, .dec (shamt : ℤ)]⟩ := by
  have h := readsAs_of_pack hw (by decide) hrd hf3 hrs1
  have hf7' : ((w >>> 25) &&& 0x7F).toNat = f7 := field_at 5 hw rfl rfl rfl hf7
  have htop : (w >>> 20).toNat = shamt + 32 * f7 := by
    rw [toNat_ushiftRight_top (w := 12) w rfl, hw]
    simp only [extract, pack]
    omega
  have himm : (sext (w >>> 20) 12 &&& 0x1F).toInt = (shamt : ℤ) := by
    rw [sext_and_shamt (by omega), htop]
    omega
  simp only [rvDecodeWord, h.op_eq, h.rd_eq, h.f3_eq, h.rs1_eq, hf7', if_pos hshift, himm]

theorem rvDecodeWord_load {off : ℤ} (hw : w.toNat = pack [(7, 0x03), (5, rd), (3, f3), (5, rs1),
      (12, (BitVec.ofInt 32 off).toNat % 2 ^ 12)]) (hrd : rd < 32) (hf3 : f3 < 8)
    (hrs1 : rs1 < 32) (hlo : -2048 ≤ off) (hhi : off ≤ 2047) :
    rvDecodeWord pc w = ⟨rvLoadName f3, [.reg rd, .offset off rs1]⟩ := by
  have h := readsAs_of_pack hw (by decide) hrd hf3 hrs1
  have himm := toInt_ofInt_of_range (k := 11) off (by decide) (by omega) (by omega)
  simp only [rvDecodeWord, h.op_eq, h.rd_eq, h.f3_eq, h.rs1_eq, sext_top_eq hw hlo hhi, himm]

theorem rvDecodeWord_jalr (hw : w.toNat = pack [(7, 0x67), (5, rd), (3, 0), (5, rs1),
      (12, (BitVec.ofInt 32 imm).toNat % 2 ^ 12)]) (hrd : rd < 32) (hrs1 : rs1 < 32)
    (hlo : -2048 ≤ imm) (hhi : imm ≤ 2047) :
    rvDecodeWord pc w = ⟨"jalr", [.reg rd, .reg rs1, .dec imm]⟩ := by
  have h := readsAs_of_pack hw (by decide) hrd (by decide) hrs1
  have himm := toInt_ofInt_of_range (k := 11) imm (by decide) (by omega) (by omega)
  simp only [rvDecodeWord, h.op_eq, h.rd_eq, h.rs1_eq, sext_top_eq hw hlo hhi, himm]

theorem rvDecodeWord_store {off : ℤ} (hw : w.toNat = pack [(7, 0x23),
      (5, extract 0 5 (BitVec.ofInt 32 off).toNat), (3, f3), (5, rs1), (5, rs2),
      (7, extract 5 7 (BitVec.ofInt 32 off).toNat)]) (hrs2 : rs2 < 32) (hf3 : f3 < 8)
    (hrs1 : rs1 < 32) (hlo : -2048 ≤ off) (hhi : off ≤ 2047) :
    rvDecodeWord pc w = ⟨rvStoreName f3, [.reg rs2, .offset off rs1]⟩ := by
  have h := readsAs_of_pack hw (by decide) (extract_lt 0 5 _) hf3 hrs1
  have hrs2' : ((w >>> 20) &&& 0x1F).toNat = rs2 := field_at 4 hw rfl rfl rfl hrs2
  have hhigh : (w >>> 25).toNat = extract 5 7 (BitVec.ofInt 32 off).toNat :=
    (toNat_ushiftRight_top w rfl).trans (extract_at 5 hw rfl rfl (extract_lt ..))
  have hjoin : (((w >>> 25) <<< 5) ||| ((w >>> 7) &&& 0x1F)).toNat =
      (BitVec.ofInt 32 off).toNat % 2 ^ 12 := by
    have hlow : ((w >>> 7) &&& 0x1F).toNat =
        pack [(5, extract 0 5 (BitVec.ofInt 32 off).toNat)] := by
      rw [h.rd_eq, pack_singleton (extract_lt 0 5 _)]
    rw [toNat_shiftLeft_or (k := 5) hhigh (extract_lt ..) hlow rfl (by decide)]
    simp only [pack, extract, List.cons_append, List.nil_append]
    omega
  have hsext : sext (((w >>> 25) <<< 5) ||| ((w >>> 7) &&& 0x1F)) 12 =
      BitVec.ofInt 32 off := by
    apply sext_eq_ofInt (k := 11) off (by decide) (by omega) (by omega)
    rw [hjoin]
    exact toNat_ofInt_mod off (by decide)
  have himm := toInt_ofInt_of_range (k := 11) off (by decide) (by omega) (by omega)
  simp only [rvDecodeWord, h.op_eq, h.f3_eq, h.rs1_eq, hrs2', hsext, himm]

theorem even_ofInt_toNat (heven : disp % 2 = 0) : (BitVec.ofInt 32 disp).toNat % 2 = 0 := by
  rw [toNat_ofInt]
  omega

theorem rvDecodeWord_branch (hw : w.toNat = pack [(7, 0x63),
      (1, extract 11 1 (BitVec.ofInt 32 disp).toNat),
      (4, extract 1 4 (BitVec.ofInt 32 disp).toNat), (3, f3), (5, rs1), (5, rs2),
      (6, extract 5 6 (BitVec.ofInt 32 disp).toNat),
      (1, extract 12 1 (BitVec.ofInt 32 disp).toNat)]) (hrs1 : rs1 < 32) (hrs2 : rs2 < 32)
    (hf3 : f3 < 8) (heven : disp % 2 = 0) (hlo : -4096 ≤ disp) (hhi : disp ≤ 4094) :
    rvDecodeWord pc w =
      ⟨rvBranchName f3, [.reg rs1, .reg rs2, .hex (pc + BitVec.ofInt 32 disp)]⟩ := by
  have hop : (w &&& 0x7F).toNat = 0x63 := opcode_of_pack hw (by decide)
  have hf3' : ((w >>> 12) &&& 0x7).toNat = f3 := field_at 3 hw rfl rfl rfl hf3
  have hrs1' : ((w >>> 15) &&& 0x1F).toNat = rs1 := field_at 4 hw rfl rfl rfl hrs1
  have hrs2' : ((w >>> 20) &&& 0x1F).toNat = rs2 := field_at 5 hw rfl rfl rfl hrs2
  have h12 : ((w >>> 31) &&& 1).toNat = extract 12 1 (BitVec.ofInt 32 disp).toNat :=
    field_at 7 hw rfl rfl rfl (extract_lt ..)
  have h11 : ((w >>> 7) &&& 1).toNat = extract 11 1 (BitVec.ofInt 32 disp).toNat :=
    field_at 1 hw rfl rfl rfl (extract_lt ..)
  have h5 : ((w >>> 25) &&& 0x3F).toNat = extract 5 6 (BitVec.ofInt 32 disp).toNat :=
    field_at 6 hw rfl rfl rfl (extract_lt ..)
  have h1 : ((w >>> 8) &&& 0xF).toNat = extract 1 4 (BitVec.ofInt 32 disp).toNat :=
    field_at 2 hw rfl rfl rfl (extract_lt ..)
  have hjoin : ((((w >>> 31) &&& 1) <<< 12) ||| (((w >>> 7) &&& 1) <<< 11)
      ||| (((w >>> 25) &&& 0x3F) <<< 5) ||| (((w >>> 8) &&& 0xF) <<< 1)).toNat =
      (BitVec.ofInt 32 disp).toNat % 2 ^ 13 := by
    have s0 := toNat_shiftLeft_eq_pack (k := 1) h1 (extract_lt ..) (by decide)
    have s1 := toNat_shiftLeft_or (k := 5) h5 (extract_lt ..) s0 rfl (by decide)
    have s2 := toNat_shiftLeft_or (k := 11) h11 (extract_lt ..) s1 rfl (by decide)
    have s3 := toNat_shiftLeft_or (k := 12) h12 (extract_lt ..) s2 rfl (by decide)
    simp only [BitVec.or_assoc]
    rw [s3]
    have := even_ofInt_toNat heven
    simp only [pack, extract, List.cons_append, List.nil_append]
    omega
  have hsext := sext_eq_ofInt (k := 12) disp (by decide) (by omega) (by omega)
    (by rw [hjoin]; exact toNat_ofInt_mod disp (by decide))
  simp only [rvDecodeWord, hop, hf3', hrs1', hrs2', hsext]

theorem rvDecodeWord_jal (hw : w.toNat = pack [(7, 0x6F), (5, rd),
      (8, extract 12 8 (BitVec.ofInt 32 disp).toNat),
      (1, extract 11 1 (BitVec.ofInt 32 disp).toNat),
      (10, extract 1 10 (BitVec.ofInt 32 disp).toNat),
      (1, extract 20 1 (BitVec.ofInt 32 disp).toNat)]) (hrd : rd < 32) (heven : disp % 2 = 0)
    (hlo : -2 ^ 20 ≤ disp) (hhi : disp ≤ 2 ^ 20 - 2) :
    rvDecodeWord pc w = ⟨"jal", [.reg rd, .hex (pc + BitVec.ofInt 32 disp)]⟩ := by
  have hop : (w &&& 0x7F).toNat = 0x6F := opcode_of_pack hw (by decide)
  have hrd' : ((w >>> 7) &&& 0x1F).toNat = rd := field_at 1 hw rfl rfl rfl hrd
  have h20 : ((w >>> 31) &&& 1).toNat = extract 20 1 (BitVec.ofInt 32 disp).toNat :=
    field_at 5 hw rfl rfl rfl (extract_lt ..)
  have h12 : ((w >>> 12) &&& 0xFF).toNat = extract 12 8 (BitVec.ofInt 32 disp).toNat :=
    field_at 2 hw rfl rfl rfl (extract_lt ..)
  have h11 : ((w >>> 20) &&& 1).toNat = extract 11 1 (BitVec.ofInt 32 disp).toNat :=
    field_at 3 hw rfl rfl rfl (extract_lt ..)
  have h1 : ((w >>> 21) &&& 0x3FF).toNat = extract 1 10 (BitVec.ofInt 32 disp).toNat :=
    field_at 4 hw rfl rfl rfl (extract_lt ..)
  have hjoin : ((((w >>> 31) &&& 1) <<< 20) ||| (((w >>> 12) &&& 0xFF) <<< 12)
      ||| (((w >>> 20) &&& 1) <<< 11) ||| (((w >>> 21) &&& 0x3FF) <<< 1)).toNat =
      (BitVec.ofInt 32 disp).toNat % 2 ^ 21 := by
    have s0 := toNat_shiftLeft_eq_pack (k := 1) h1 (extract_lt ..) (by decide)
    have s1 := toNat_shiftLeft_or (k := 11) h11 (extract_lt ..) s0 rfl (by decide)
    have s2 := toNat_shiftLeft_or (k := 12) h12 (extract_lt ..) s1 rfl (by decide)
    have s3 := toNat_shiftLeft_or (k := 20) h20 (extract_lt ..) s2 rfl (by decide)
    simp only [BitVec.or_assoc]
    rw [s3]
    have := even_ofInt_toNat heven
    simp only [pack, extract, List.cons_append, List.nil_append]
    omega
  have hsext := sext_eq_ofInt (k := 20) disp (by decide) (by omega) (by omega)
    (by rw [hjoin]; exact toNat_ofInt_mod disp (by decide))
  simp only [rvDecodeWord, hop, hrd', hsext]

theorem upper_fields (hw : w.toNat = pack [(7, op), (5, rd), (20, v)]) (hop : op < 128)
    (hrd : rd < 32) (hv : v < 2 ^ 20) :
    (w &&& 0x7F).toNat = op ∧ ((w >>> 7) &&& 0x1F).toNat = rd ∧ w >>> 12 = u32 v := by
  refine ⟨opcode_of_pack hw hop, field_at 1 hw rfl rfl rfl hrd, ?_⟩
  apply eq_of_toNat_eq
  rw [toNat_ushiftRight_top (w := 20) w rfl, u32_toNat hv (by decide)]
  exact extract_at 2 hw rfl rfl hv

end Rivet.Riscv32
