import Rivet.X86.IntelOperands
import Rivet.X86.Written

/-!
# Operands that are carried

`x86_encode` looks only at a least number of operands and narrows each constant with
a cast, so an accepted line can emit an instruction that says something else.  Here
the operands of a line are compared with those that the emitted bytes have for the
processor: as many as are written, the same registers, the address that the sum
between the brackets denotes, and constants without a loss.  A line passes exactly
when it has the number of operands of its mnemonic and each of them fits its place.
-/

namespace Rivet.X86

open CLib Assembler Intel

variable {x : Operand} {m : X86Mem} {r : ℕ} {a b : CStr} {opcode : RivU8}

/-! ## The operands of the emitted instructions -/

/-- The operands of an instruction, in the orders in which they may be written;
`next` is the address behind it. -/
def X86Insn.orders (next : BitVec 64) : X86Insn → List (List Operand)
  | .plain bytes =>
    if bytes = [0xEC] then [[.al, .dx]] else if bytes = [0xEE] then [[.dx, .al]] else [[]]
  | .imm8 opcode v =>
    if opcode = 0xE4 then [[.al, .imm8 v]]
    else if opcode = 0xE6 then [[.imm8 v, .al]]
    else [[.imm8 v]]
  | .stack _ r | .unary _ r _ => [[.reg r]]
  | .rr opcode dst src =>
    if opcode = 0x85 ∨ opcode = 0x87 then [[.reg dst, .reg src], [.reg src, .reg dst]]
    else [[.reg dst, .reg src]]
  | .ri32 _ dst imm | .movImm32 dst imm => [[.reg dst, .imm (imm.signExtend 64)]]
  | .movImm64 dst imm => [[.reg dst, .imm imm]]
  | .mem opcode reg m =>
    if opcode = 0x85 then
      [[.mem (m.operand reg), .reg reg], [.reg reg, .mem (m.operand reg)]]
    else if opcode ∈ [0x89, 0x01, 0x09, 0x21, 0x29, 0x31, 0x39] then
      [[.mem (m.operand reg), .reg reg]]
    else [[.reg reg, .mem (m.operand reg)]]
  | .movMem m imm => [[.mem (m.operand 0), .imm (imm.signExtend 64)]]
  | .imul dst src => [[.reg dst, .reg src]]
  | .shift dst _ v => [[.reg dst, .imm8 v]]
  | .branch _ off | .jcc _ off => [[.imm (next + off.signExtend 64)]]

theorem regOrMem_modrmByte {w x reg rm : ℕ} (hreg : reg < 16) (hrm : rm < 16) (rest : List RivU8) :
    regOrMem ⟨w, (reg >>> 3) &&& 1, x, (rm >>> 3) &&& 1⟩ (modrmByte 3 reg rm :: rest) =
      some (reg, .reg rm, rest) := by
  obtain ⟨htop, hmid, hlow⟩ := modrmByte_fields (show 3 < 4 by decide) reg rm
  have hmid : midField (modrmByte 3 reg rm) = reg &&& 7 := hmid
  have hlow : lowField (modrmByte 3 reg rm) = rm &&& 7 := hlow
  rw [regOrMem_reg htop, hmid, hlow, regField_split hreg, regField_split hrm]

theorem regOrMem_digit {w x digit rm : ℕ} (hdigit : digit < 8) (hrm : rm < 16) (rest : List RivU8) :
    regOrMem ⟨w, 0, x, (rm >>> 3) &&& 1⟩ (modrmByte 3 digit rm :: rest) =
      some (digit, .reg rm, rest) := by
  have hhigh : (digit >>> 3) &&& 1 = 0 := by interval_cases digit <;> rfl
  grind [regOrMem_modrmByte]

theorem regOrMem_bytes (hm : m.WF) {reg : ℕ} (hreg : reg < 16) (w : ℕ) (rest : List RivU8) :
    regOrMem ⟨w, (reg >>> 3) &&& 1, highBit m.index, highBit m.base⟩ (m.bytes reg ++ rest) =
      some (reg, .mem (m.operand reg), rest) :=
  regOrMem_mem (memOperand_bytes hm hreg w rest)

theorem rexBytes_read_reg (r b : ℕ) : Rex.read (rexBytes 1 ((r >>> 3) &&& 1) 0 ((b >>> 3) &&& 1)) =
      some ⟨1, (r >>> 3) &&& 1, 0, (b >>> 3) &&& 1⟩ :=
  rexBytes_read (by decide) (and_one_lt _) (by decide) (and_one_lt _)

theorem rexBytes_read_digit (b : ℕ) :
    Rex.read (rexBytes 1 0 0 ((b >>> 3) &&& 1)) = some ⟨1, 0, 0, (b >>> 3) &&& 1⟩ :=
  rexBytes_read (by decide) (by decide) (by decide) (and_one_lt _)

theorem X86Mem.rex_read (reg : ℕ) (m : X86Mem) :
    Rex.read (m.rex reg) = some ⟨1, (reg >>> 3) &&& 1, highBit m.index, highBit m.base⟩ :=
  rexBytes_read (by decide) (and_one_lt _) (highBit_lt _) (highBit_lt _)

theorem setWidth_and_255 (v : RivU64) : (v &&& 0xFF).setWidth 8 = v.setWidth 8 := by
  ext i hi
  interval_cases i <;> simp

theorem readImm64_leU64 (v : RivU64) : readImm64 (leU64 v) = some (v, []) := by
  have hbytes : leU64 v = [v.setWidth 8, (v >>> 8).setWidth 8, (v >>> 16).setWidth 8,
      (v >>> 24).setWidth 8, (v >>> 32).setWidth 8, (v >>> 40).setWidth 8, (v >>> 48).setWidth 8,
      (v >>> 56).setWidth 8] := by
    simp only [leU64, setWidth_and_255]
    rfl
  rw [hbytes, readImm64]
  congr 2
  apply BitVec.eq_of_getLsbD_eq
  intro i hi
  grind

theorem readDisp32_leU32_nil (v : RivI32) : readDisp32 (leU32 v) = some (v, []) := by
  have h := readDisp32_leU32 v []
  rwa [List.append_nil] at h

theorem operandOrders_bytes {i : X86Insn} (hi : i.WF) (addr : BitVec 64) :
    operandOrders addr i.bytes = i.orders (addr + BitVec.ofNat 64 i.bytes.length) := by
  cases i with
  | plain bytes =>
    simp only [X86Insn.WF, x86ZeroOps, List.map_cons, List.map_nil, List.mem_cons,
      List.not_mem_nil, or_false] at hi
    rcases hi with (rfl | rfl | rfl | rfl | rfl | rfl | rfl | rfl | rfl | rfl | rfl) | rfl | rfl <;>
      rfl
  | imm8 opcode v =>
    simp only [X86Insn.WF, List.mem_cons, List.not_mem_nil, or_false] at hi
    rcases hi with rfl | rfl | rfl <;> rfl
  | stack opcode r =>
    obtain ⟨hop, hr⟩ := hi
    simp only [List.mem_cons, List.not_mem_nil, or_false] at hop
    rcases hop with rfl | rfl <;> interval_cases r <;> rfl
  | rr opcode dst src =>
    obtain ⟨hop, hdst, hsrc⟩ := hi
    have hforms : ∀ op ∈ rrOpcodes, Rex.read [op] = none ∧ op ≠ 0x0F ∧
        oneByteForm op = some (if op = 0x85 ∨ op = 0x87 then .mrEither else .mr) := by decide
    obtain ⟨hno, hne, hform⟩ := hforms opcode hop
    rw [X86Insn.bytes, operandOrders_oneByte opcode (rexBytes_read_reg src dst) hno hne hform,
      X86Insn.orders]
    split <;> rw [Form.orders, regOrMem_modrmByte hsrc hdst]
  | ri32 digit dst imm =>
    obtain ⟨hdigit, hdst⟩ := hi
    have hlt : ∀ d ∈ [0, 1, 4, 5, 6, 7], d < 8 := by decide
    rw [X86Insn.bytes, List.append_assoc, List.cons_append, List.singleton_append,
      operandOrders_oneByte 0x81 (rexBytes_read_digit dst) (by decide) (by decide) rfl]
    simp only [Form.orders, regOrMem_digit (hlt digit hdigit) hdst, Option.bind_some,
      readDisp32_leU32_nil, Option.map_some, X86Insn.orders]
  | movImm32 dst imm =>
    rw [X86Insn.bytes, List.append_assoc, List.cons_append, List.singleton_append,
      operandOrders_oneByte 0xC7 (rexBytes_read_digit dst) (by decide) (by decide) rfl]
    simp only [Form.orders, regOrMem_digit (show 0 < 8 by decide) hi, Option.bind_some,
      readDisp32_leU32_nil, Option.map_some, X86Insn.orders]
  | movImm64 dst imm =>
    have hopcode : ∀ d < 16, Rex.read [u8 (0xB8 + (d &&& 7))] = none ∧
        u8 (0xB8 + (d &&& 7)) ≠ 0x0F ∧ oneByteForm (u8 (0xB8 + (d &&& 7))) = some .oi ∧
        8 * ((d >>> 3) &&& 1) + lowField (u8 (0xB8 + (d &&& 7))) = d := by decide
    obtain ⟨hno, hne, hform, hreg⟩ := hopcode dst hi
    rw [X86Insn.bytes, List.append_assoc, List.singleton_append,
      operandOrders_oneByte _ (rexBytes_read_digit dst) hno hne hform]
    simp only [Form.orders, readImm64_leU64, hreg, if_true, X86Insn.orders]
  | mem opcode reg m =>
    obtain ⟨hop, hreg, hm⟩ := hi
    have hforms : ∀ op ∈ memOpcodes, Rex.read [op] = none ∧ op ≠ 0x0F ∧
        oneByteForm op = some (if op = 0x85 then .mrEither
          else if op ∈ [0x89, 0x01, 0x09, 0x21, 0x29, 0x31, 0x39] then .mr else .rm) := by
      decide
    obtain ⟨hno, hne, hform⟩ := hforms opcode hop
    have hread := regOrMem_bytes hm hreg 1 []
    rw [List.append_nil] at hread
    rw [X86Insn.bytes, List.append_assoc, List.singleton_append,
      operandOrders_oneByte opcode (m.rex_read reg) hno hne hform, X86Insn.orders]
    split
    · rw [Form.orders, hread]
    · split <;> rw [Form.orders, hread]
  | movMem m imm =>
    have hread := regOrMem_bytes hi (show 0 < 16 by decide) 1 (leU32 imm)
    rw [X86Insn.bytes, List.append_assoc, List.append_assoc, List.singleton_append,
      operandOrders_oneByte 0xC7 (m.rex_read 0) (by decide) (by decide) rfl]
    simp only [Form.orders, hread, Option.bind_some, readDisp32_leU32_nil, Option.map_some,
      X86Insn.orders]
  | imul dst src =>
    obtain ⟨hdst, hsrc⟩ := hi
    rw [X86Insn.bytes, operandOrders_twoByte 0xAF (rexBytes_read_reg dst src) rfl]
    simp only [Form.orders, regOrMem_modrmByte hdst hsrc, X86Insn.orders]
  | unary opcode dst digit =>
    obtain ⟨hop, hdst⟩ := hi
    have hforms : ∀ row ∈ [((0xFF : RivU8), 0), (0xFF, 1), (0xF7, 2), (0xF7, 3), (0xF7, 4),
        (0xF7, 6), (0xF7, 7)], Rex.read [row.1] = none ∧ row.1 ≠ 0x0F ∧
          oneByteForm row.1 = some .m ∧ row.2 < 8 ∧ ¬(row.1 = 0xF7 ∧ row.2 % 8 < 2) := by
      decide
    obtain ⟨hno, hne, hform, hlt, hnoimm⟩ := hforms (opcode, digit) hop
    rw [X86Insn.bytes, operandOrders_oneByte opcode (rexBytes_read_digit dst) hno hne hform]
    simp only [Form.orders, regOrMem_digit hlt hdst, if_neg hnoimm, X86Insn.orders]
  | shift dst digit v =>
    obtain ⟨hdigit, hdst⟩ := hi
    have hlt : ∀ d ∈ [4, 5, 7], d < 8 := by decide
    rw [X86Insn.bytes, operandOrders_oneByte 0xC1 (rexBytes_read_digit dst) (by decide)
      (by decide) rfl]
    simp only [Form.orders, regOrMem_digit (hlt digit hdigit) hdst, X86Insn.orders]
  | branch opcode off =>
    have hforms : ∀ op ∈ [(0xE8 : RivU8), 0xE9], Rex.read [op] = none ∧ op ≠ 0x0F ∧
        oneByteForm op = some .d := by decide
    obtain ⟨hno, hne, hform⟩ := hforms opcode hi
    have horders : operandOrders addr ([] ++ opcode :: leU32 off) = _ :=
      operandOrders_oneByte opcode rfl hno hne hform
    simp_all [X86Insn.bytes, X86Insn.orders, Form.orders, readDisp32_leU32_nil]
  | jcc cc off =>
    have hforms : ∀ op ∈ x86JccOpcodes.map Prod.snd, twoByteForm op = some .d := by decide
    have horders : operandOrders addr ([] ++ 0x0F :: cc :: leU32 off) = _ :=
      operandOrders_twoByte cc rfl (hforms cc hi)
    simp_all [X86Insn.bytes, X86Insn.orders, Form.orders, readDisp32_leU32_nil]

/-! ## The property -/

def word64 (w : ℤ) : Option (BitVec 64) :=
  if -2 ^ 63 ≤ w ∧ w < 2 ^ 64 then some (BitVec.ofInt 64 w) else none

/-- The operand of the instruction is what the token says: a register, a sum of the
form base + index * scale + disp32 with the address that the processor computes, or
a constant. -/
def Carries (st : AsState) (tok : CStr) : Operand → Prop
  | .reg r => x86RegLookup tok = some r
  | .mem op =>
    x86IsMem tok = true ∧ ∃ ts, readSum st tok = some ts ∧ Expressible ts ∧
      ∀ (regs : ℕ → ℤ) (rip : BitVec 64),
        op.address (fun r => BitVec.ofInt 64 (regs r)) rip = BitVec.ofInt 64 (sumValue regs ts)
  | .imm v => ∃ w, constantOf st tok = some w ∧ word64 w = some v
  | .imm8 v => ∃ w, constantOf st tok = some w ∧ w = v.toNat
  | .al => tok = "al".toList
  | .dx => tok = "dx".toList

def insnAddr (st : AsState) : BitVec 64 := BitVec.ofNat 64 (st.base.toNat + st.pc.toNat)

/-- The bytes emitted between the states carry all the operands of the line, and
the line has no others. -/
def OperandsCarried (ops : List CStr) (st st' : AsState) : Prop :=
  ∃ l ∈ operandOrders (insnAddr st) (emitted st st'), List.Forall₂ (Carries st) ops l

/-! ## The condition -/

/-- What stands in the place of an operand: a name that the encoder compares, a
memory operand, or a constant with the room there is for it. -/
inductive PlaceKind where
  | given
  | memory
  | imm8
  | imm32
  | imm64
  | target (size : ℕ)

def Fits (st : AsState) (tok : CStr) : PlaceKind → Prop
  | .given => True
  | .memory => WrittenPlainly st tok ∧ Encodable (memAtoms tok)
  | .imm8 => ∃ w, constantOf st tok = some w ∧ 0 ≤ w ∧ w < 256
  | .imm32 => ∃ w, constantOf st tok = some w ∧ (-2 ^ 31 ≤ w ∧ w < 2 ^ 31 ∨ w = 2 ^ 64 - 1)
  | .imm64 => ∃ w, constantOf st tok = some w ∧ -2 ^ 63 ≤ w ∧ w < 2 ^ 63
  | .target size =>
    ∃ w, constantOf st tok = some w ∧
      let next : ℤ := st.base.toNat + st.pc.toNat + size
      (w < 2 ^ 63 ∧ -2 ^ 31 ≤ w - next ∧ w - next < 2 ^ 31) ∨
        (w = 2 ^ 64 - 1 ∧ next < 2 ^ 31)

/-- The mnemonics by the operands they take. -/
inductive Shape where
  | zero | vector | oneReg | twoRegs | mov | arith | lea | shift | jump | jcc | inPort | outPort
  deriving DecidableEq, Repr

def shapes : List (List String × Shape) :=
  [(x86ZeroOps.map Prod.fst, .zero),
   (["int"], .vector),
   (["push", "pop", "inc", "dec", "neg", "not", "mul", "div", "idiv"], .oneReg),
   (["xchg", "imul"], .twoRegs),
   (["mov"], .mov),
   (x86ArithMrOpcodes.map Prod.fst, .arith),
   (["lea"], .lea),
   (["shl", "shr", "sar"], .shift),
   (["jmp", "call"], .jump),
   (x86JccOpcodes.map Prod.fst, .jcc),
   (["in"], .inPort),
   (["out"], .outPort)]

def shapeOf (m : CStr) : Option Shape :=
  (shapes.find? fun row => m ∈ row.1.map String.toList).map Prod.snd

def placeKind (tok : CStr) : PlaceKind := if x86IsMem tok then .memory else .given

/-- The second operand of `mov` and of the arithmetic group. -/
def sourceKind (imm : PlaceKind) (tok : CStr) : PlaceKind :=
  if x86IsMem tok then .memory else if x86IsReg tok then .given else imm

def portKind (tok : CStr) : PlaceKind := if tok = "dx".toList then .given else .imm8

def Shape.kinds : Shape → List CStr → List PlaceKind
  | .zero, _ => []
  | .vector, _ => [.imm8]
  | .oneReg, _ => [.given]
  | .twoRegs, _ => [.given, .given]
  | .mov, a :: b :: _ => [placeKind a, sourceKind (if x86IsMem a then .imm32 else .imm64) b]
  | .arith, a :: b :: _ => [placeKind a, sourceKind .imm32 b]
  | .lea, _ => [.given, .memory]
  | .shift, _ => [.given, .imm8]
  | .jump, _ => [.target 5]
  | .jcc, _ => [.target 6]
  | .inPort, _ :: b :: _ => [.given, portKind b]
  | .outPort, a :: _ => [portKind a, .given]
  | _, _ => []

/-- The condition: as many operands as the instruction has room for, and each of
them fits. -/
def OperandsFit (m : CStr) (ops : List CStr) (st : AsState) : Prop :=
  ∃ shape, shapeOf m = some shape ∧ List.Forall₂ (Fits st) ops (shape.kinds ops)

/-! ## One operand -/

section Operands

variable {st : AsState} {tok : CStr} {v : ℤ}

theorem carries_reg (h : x86RegLookup tok = some r) :
    Carries st tok (.reg r) ↔ Fits st tok .given :=
  iff_true_intro h

theorem exists_constant_iff {P Q : ℤ → Prop} (h : rivAsParseImm st tok = .ok v)
    (hPQ : ∀ w, v = clampI64 w → (P w ↔ Q w)) :
    (∃ w, constantOf st tok = some w ∧ P w) ↔ ∃ w, constantOf st tok = some w ∧ Q w := by
  obtain ⟨w, hw, hv⟩ := rivAsParseImm_constantOf h
  simp_all

theorem ofInt_eq_ofInt_iff (x y : ℤ) : BitVec.ofInt 64 x = BitVec.ofInt 64 y ↔ 2 ^ 64 ∣ x - y := by
  rw [← BitVec.toInt_inj, BitVec.toInt_ofInt, BitVec.toInt_ofInt, Int.bmod_def, Int.bmod_def]
  omega

theorem word64_eq_some_iff (w x : ℤ) :
    word64 w = some (BitVec.ofInt 64 x) ↔ (-2 ^ 63 ≤ w ∧ w < 2 ^ 64) ∧ 2 ^ 64 ∣ w - x := by
  unfold word64
  split
  · next h => rw [Option.some.injEq, ofInt_eq_ofInt_iff, and_iff_right h]
  grind

theorem carries_imm8 (h : rivAsParseImm st tok = .ok v) :
    Carries st tok (.imm8 (BitVec.ofInt 8 v)) ↔ Fits st tok .imm8 := by
  refine exists_constant_iff h fun w hw => ?_
  rw [BitVec.toNat_ofInt, hw, clampI64]
  omega

theorem carries_imm32 (h : rivAsParseImm st tok = .ok v) :
    Carries st tok (.imm ((BitVec.ofInt 32 v).signExtend 64)) ↔ Fits st tok .imm32 := by
  refine exists_constant_iff h fun w hw => ?_
  rw [BitVec.signExtend, word64_eq_some_iff, BitVec.toInt_ofInt, Int.bmod_def, hw, clampI64]
  omega

theorem carries_imm64 (h : rivAsParseImm st tok = .ok v) :
    Carries st tok (.imm (BitVec.ofInt 64 v)) ↔ Fits st tok .imm64 := by
  refine exists_constant_iff h fun w hw => ?_
  rw [word64_eq_some_iff, hw, clampI64]
  omega

theorem signExtend_of_fitsI32 (h : fitsI32 v = true) :
    (BitVec.ofInt 32 v).signExtend 64 = BitVec.ofInt 64 v := by
  have hrange : -0x80000000 ≤ v ∧ v ≤ 0x7FFFFFFF := of_decide_eq_true h
  rw [BitVec.signExtend, BitVec.toInt_ofInt, Int.bmod_def]
  congr 1
  omega

theorem carries_target (size : ℕ) (hsize : size < 8) (h : rivAsParseImm st tok = .ok v) :
    Carries st tok (.imm (insnAddr st + BitVec.ofNat 64 size +
        (x86RelOffset st (BitVec.ofNat 32 size) v).signExtend 64)) ↔
      Fits st tok (.target size) := by
  have haddr : insnAddr st + BitVec.ofNat 64 size +
      (x86RelOffset st (BitVec.ofNat 32 size) v).signExtend 64 =
        BitVec.ofInt 64 (st.base.toNat + st.pc.toNat + size +
          (x86RelOffset st (BitVec.ofNat 32 size) v).toInt) := by
    rw [BitVec.ofInt_add, BitVec.ofInt_add, ← Nat.cast_add, BitVec.ofInt_natCast,
      BitVec.ofInt_natCast]
    rfl
  have hnext : (st.pc + st.base + BitVec.ofNat 32 size).toNat =
      (st.base.toNat + st.pc.toNat + size) % 2 ^ 32 := by
    rw [BitVec.toNat_add, BitVec.toNat_add, BitVec.toNat_ofNat]
    omega
  refine exists_constant_iff h fun w hw => ?_
  rw [haddr, word64_eq_some_iff, x86RelOffset, BitVec.toInt_ofInt, Int.bmod_def, hnext, hw,
    clampI64]
  omega

end Operands

/-! ## Memory operands -/

/-- What the emitted bytes add to the registers of an operand without a base, and
what they leave out where the index is `rsp`. -/
def X86Mem.slip (m : X86Mem) (regs : ℕ → ℤ) : ℤ :=
  (if 0 ≤ m.base then 0 else if m.index < 0 then regs 7 else if m.mod = 0 then 0 else regs 5) -
    if m.index = 4 then m.scale * regs 4 else 0

theorem address_operand (m : X86Mem) (reg : ℕ) (regs : ℕ → ℤ) (rip : BitVec 64) :
    (m.operand reg).address (fun r => BitVec.ofInt 64 (regs r)) rip =
      BitVec.ofInt 64 (m.registersValue regs + m.slip regs + m.disp.toInt) := by
  have hbase : (m.operand reg).base.value (fun r => BitVec.ofInt 64 (regs r)) rip =
      BitVec.ofInt 64 ((if 0 ≤ m.base then regs m.base.toNat else 0) +
        if 0 ≤ m.base then 0 else if m.index < 0 then regs 7 else if m.mod = 0 then 0
          else regs 5) := by
    unfold X86Mem.operand
    split_ifs <;> simp [Base.value]
  have hindex : scaledIndex (fun r => BitVec.ofInt 64 (regs r)) (m.operand reg).index =
      BitVec.ofInt 64 ((if 0 ≤ m.index then m.scale * regs m.index.toNat else 0) -
        if m.index = 4 then m.scale * regs 4 else 0) := by
    by_cases hrsp : m.index = 4
    · simp [X86Mem.operand, hrsp, scaledIndex]
    by_cases hidx : 0 ≤ m.index
    · simp only [X86Mem.operand, hrsp, hidx, ne_eq, not_false_eq_true, and_self, if_true,
        if_false, scaledIndex, sub_zero]
      rw [BitVec.ofInt_mul, BitVec.ofInt_natCast, BitVec.mul_comm]
    · simp [X86Mem.operand, hrsp, hidx, scaledIndex]
  rw [MemOperand.address, hbase, hindex, BitVec.signExtend, ← BitVec.ofInt_add, ← BitVec.ofInt_add]
  rw [X86Mem.registersValue, X86Mem.slip, X86Mem.operand]
  ring

theorem slip_iff (hm : m.WF) : (∀ regs, 2 ^ 64 ∣ m.slip regs) ↔
      m.index ≠ 4 ∧ (m.base < 0 → 0 ≤ m.index ∧ m.hasDisp = false) := by
  constructor
  · intro h
    have hscale : ¬(2 ^ 64 : ℤ) ∣ m.scale := by
      have hmem := hm.scale_mem
      grind
    -- one register at a time: the one left out, and the two that may be slipped in
    have hrsp := h fun r => if r = 4 then 1 else 0
    have hrbp := h fun r => if r = 5 then 1 else 0
    have hrdi := h fun r => if r = 7 then 1 else 0
    constructor
    · intro hindex
      simp_all [X86Mem.slip]
    intro hbase
    have hidx : 0 ≤ m.index := by grind [X86Mem.slip, not_le.mpr, not_le.mp]
    refine ⟨hidx, (mod_eq_zero_iff hbase).mp ?_⟩
    grind [X86Mem.slip, not_le.mpr, not_lt.mpr]
  grind [X86Mem.slip, sub_zero, not_lt.mpr, mod_eq_zero_iff, dvd_zero]

theorem carries_mem {st : AsState} {tok : CStr} (h : x86ParseMem st tok = .ok m)
    (hmem : x86IsMem tok = true) (reg : ℕ) :
    Carries st tok (.mem (m.operand reg)) ↔ Fits st tok .memory := by
  have hzero : m.slip (fun _ => 0) = 0 := by simp [X86Mem.slip]
  rw [Carries, Fits, and_iff_right hmem, ← encodable_iff h, ← slip_iff (x86ParseMem_wf h),
    WrittenPlainly, ← exists_and_right]
  refine exists_congr fun ts => ?_
  rw [and_assoc, and_assoc]
  refine and_congr_right fun hts => and_congr_right fun hex => ?_
  have hregs := x86ParseMem_registersValue h hts hex
  have hlo := hex.offset.1
  have hhi := hex.offset.2
  have hdisp : 2 ^ 32 ∣ keptOffset ts - sumOffset ts ↔ m.disp.toInt = sumOffset ts := by
    grind [x86ParseMem_disp, toInt_ofInt_eq_iff]
  have hle := m.disp.toInt_lt
  have hge := m.disp.le_toInt
  simp only [address_operand, hregs, sumValue, ofInt_eq_ofInt_iff, hdisp]
  constructor
  · intro hall
    have heq : m.disp.toInt = sumOffset ts := by
      have h0 := hall (fun _ => 0) 0
      omega
    simp_all
  grind

/-! ## Lines -/

section Lines

variable {st st' : AsState} {m : CStr} {i : X86Insn}

theorem operandsCarried_iff (h : Emits i st st') (ops : List CStr) : OperandsCarried ops st st' ↔
      ∃ l ∈ i.orders (insnAddr st + BitVec.ofNat 64 i.bytes.length),
        List.Forall₂ (Carries st) ops l := by
  rw [OperandsCarried, h.emitted_eq, operandOrders_bytes h.wf]

theorem operandsFit_iff {shape : Shape} (h : shapeOf m = some shape) (ops : List CStr) :
    OperandsFit m ops st ↔ List.Forall₂ (Fits st) ops (shape.kinds ops) := by
  constructor
  · rintro ⟨shape', h', hfit⟩
    cases h.symm.trans h'
    exact hfit
  · exact fun hfit => ⟨shape, h, hfit⟩

theorem carried_as (shape : Shape) (h : shapeOf m = some shape) {l : List Operand}
    (hemit : Emits i st st')
    (horders : i.orders (insnAddr st + BitVec.ofNat 64 i.bytes.length) = [l]) {ops : List CStr}
    (hl : List.Forall₂ (Carries st) ops l ↔ List.Forall₂ (Fits st) ops (shape.kinds ops)) :
    OperandsCarried ops st st' ↔ OperandsFit m ops st := by
  rw [operandsFit_iff h, ← hl, operandsCarried_iff hemit, horders]
  simp

theorem forall₂_one {rest : List CStr} {k : PlaceKind} (h : Carries st a x ↔ Fits st a k) :
    List.Forall₂ (Carries st) (a :: rest) [x] ↔ List.Forall₂ (Fits st) (a :: rest) [k] := by
  simp_all

theorem forall₂_two {rest : List CStr} {y : Operand} {k1 k2 : PlaceKind}
    (ha : Carries st a x ↔ Fits st a k1) (hb : Carries st b y ↔ Fits st b k2) :
    List.Forall₂ (Carries st) (a :: b :: rest) [x, y] ↔
      List.Forall₂ (Fits st) (a :: b :: rest) [k1, k2] := by simp_all

theorem exists_either {y : Operand} (ops : List CStr) :
    (∃ l ∈ [[x, y], [y, x]], List.Forall₂ (Carries st) ops l) ↔
      List.Forall₂ (Carries st) ops [x, y] ∨ List.Forall₂ (Carries st) ops [y, x] := by grind

theorem carried_rr {dst src : ℕ} (hdst : x86RegLookup a = some dst)
    (hsrc : x86RegLookup b = some src) (hemit : Emits (.rr opcode dst src) st st')
    (rest : List CStr) : OperandsCarried (a :: b :: rest) st st' ↔
      List.Forall₂ (Fits st) (a :: b :: rest) [.given, .given] := by
  have hregs : List.Forall₂ (Carries st) (a :: b :: rest) [.reg dst, .reg src] ↔
      List.Forall₂ (Fits st) (a :: b :: rest) [.given, .given] :=
    forall₂_two (carries_reg hdst) (carries_reg hsrc)
  rw [operandsCarried_iff hemit, X86Insn.orders, ← hregs]
  split
  · rw [exists_either]
    refine or_iff_left_of_imp fun hswapped => ?_
    have hrest : rest = [] := by
      have hlen := hswapped.length_eq
      simpa using hlen
    rw [hrest]
    exact .cons hdst (.cons hsrc .nil)
  · simp only [List.mem_singleton, exists_eq_left]

theorem carried_load {mem : X86Mem}
    (hop : opcode = 0x85 ∨ opcode ∉ [0x89, 0x01, 0x09, 0x21, 0x29, 0x31, 0x39])
    (hr : x86RegLookup a = some r) (hmem : x86IsMem b = true) (hm : x86ParseMem st b = .ok mem)
    (hemit : Emits (.mem opcode r mem) st st') (rest : List CStr) :
    OperandsCarried (a :: b :: rest) st st' ↔
      List.Forall₂ (Fits st) (a :: b :: rest) [.given, .memory] := by
  rw [operandsCarried_iff hemit, X86Insn.orders,
    ← forall₂_two (carries_reg hr) (carries_mem hm hmem r)]
  split
  · rw [exists_either]
    refine or_iff_right fun hswapped => ?_
    obtain ⟨ha, -⟩ := List.forall₂_cons.mp hswapped
    have hbracket : x86IsMem a = true := ha.1
    simp_all [x86IsMem_of_reg]
  simp_all

theorem carried_store {mem : X86Mem}
    (hop : opcode = 0x85 ∨ opcode ∈ [0x89, 0x01, 0x09, 0x21, 0x29, 0x31, 0x39])
    (hmem : x86IsMem a = true) (hm : x86ParseMem st a = .ok mem) (hr : x86RegLookup b = some r)
    (hemit : Emits (.mem opcode r mem) st st') (rest : List CStr) :
    OperandsCarried (a :: b :: rest) st st' ↔
      List.Forall₂ (Fits st) (a :: b :: rest) [.memory, .given] := by
  rw [operandsCarried_iff hemit, X86Insn.orders,
    ← forall₂_two (carries_mem hm hmem r) (carries_reg hr)]
  split
  · rw [exists_either]
    refine or_iff_left fun hswapped => ?_
    obtain ⟨ha, -⟩ := List.forall₂_cons.mp hswapped
    rw [x86IsMem_of_reg ha] at hmem
    exact absurd hmem (by decide)
  simp_all

theorem pairOps_shape : (∀ row ∈ rrOps, shapeOf row.1.toList ∈
      [some .mov, some .twoRegs, some .arith]) ∧
    (∀ row ∈ loadOps, shapeOf row.1.toList ∈ [some .mov, some .lea, some .arith] ∧
      (row.2 = 0x85 ∨ row.2 ∉ [0x89, 0x01, 0x09, 0x21, 0x29, 0x31, 0x39])) ∧
    ∀ row ∈ storeOps, shapeOf row.1.toList ∈ [some .mov, some .arith] ∧
      (row.2 = 0x85 ∨ row.2 ∈ [0x89, 0x01, 0x09, 0x21, 0x29, 0x31, 0x39]) := by decide

theorem oneOps_shape : (∀ row ∈ stackOps, shapeOf row.1.toList = some .oneReg) ∧
    (∀ row ∈ unaryOps, shapeOf row.1.toList = some .oneReg) ∧
    (∀ row ∈ shiftOps, shapeOf row.1.toList = some .shift) ∧
    (∀ row ∈ branchOps, shapeOf row.1.toList = some .jump) ∧
    (∀ row ∈ x86JccOpcodes, shapeOf row.1.toList = some .jcc) ∧
    (∀ row ∈ x86ArithDigits, shapeOf row.1.toList = some .arith) ∧
    ∀ row ∈ x86ZeroOps, shapeOf row.1.toList = some .zero ∧ row.2 ≠ [0xEC] ∧ row.2 ≠ [0xEE] := by
  decide

theorem LineForm.carries_iff {ops : List CStr} (hform : LineForm st m ops i)
    (hemit : Emits i st st') : OperandsCarried ops st st' ↔ OperandsFit m ops st := by
  obtain ⟨hrrs, hloads, hstores⟩ := pairOps_shape
  obtain ⟨hstack, hunary, hshift, hbranch, hjcc, hdigits, hzero⟩ := oneOps_shape
  cases hform with
  | zero h =>
    obtain ⟨hshape, hec, hee⟩ := hzero _ h
    refine carried_as (l := []) .zero hshape hemit ?_ (by simp [Shape.kinds])
    rw [X86Insn.orders, if_neg hec, if_neg hee]
  | int hv => exact carried_as .vector (by decide) hemit rfl (forall₂_one (carries_imm8 hv))
  | stack h hr => exact carried_as .oneReg (hstack _ h) hemit rfl (forall₂_one (carries_reg hr))
  | load h hr hb hm =>
    obtain ⟨hshape, hop⟩ := hloads _ h
    have hcarried := carried_load hop hr hb hm hemit
    have ha := x86IsMem_of_reg hr
    simp only [List.mem_cons, List.not_mem_nil, or_false] at hshape
    rcases hshape with hshape | hshape | hshape
    all_goals simp [operandsFit_iff hshape, hcarried, Shape.kinds, placeKind, sourceKind, ha, hb]
  | store h ha hm hr =>
    obtain ⟨hshape, hop⟩ := hstores _ h
    have hcarried := carried_store hop ha hm hr hemit
    have hb := x86IsMem_of_reg hr
    simp only [List.mem_cons, List.not_mem_nil, or_false] at hshape
    rcases hshape with hshape | hshape
    all_goals simp [operandsFit_iff hshape, hcarried, Shape.kinds, placeKind, sourceKind, ha, hb,
      x86IsReg_of_lookup hr]
  | storeImm ha hm hb hreg hv =>
    refine carried_as .mov (by decide) hemit rfl ?_
    simp only [Shape.kinds, placeKind, sourceKind, ha, hb, hreg, if_true, Bool.false_eq_true,
      if_false]
    exact forall₂_two (carries_mem hm ha 0) (carries_imm32 hv)
  | rr h hdst hsrc =>
    have hcarried := carried_rr hdst hsrc hemit
    have ha := x86IsMem_of_reg hdst
    have hb := x86IsMem_of_reg hsrc
    have hshape := hrrs _ h
    simp only [List.mem_cons, List.not_mem_nil, or_false] at hshape
    rcases hshape with hshape | hshape | hshape
    all_goals simp [operandsFit_iff hshape, hcarried, Shape.kinds, placeKind, sourceKind, ha, hb,
      x86IsReg_of_lookup hsrc]
  | movImm32 hdst hb hreg hv hfits =>
    refine carried_as .mov (by decide) hemit rfl ?_
    rw [signExtend_of_fitsI32 hfits]
    simp only [Shape.kinds, placeKind, sourceKind, x86IsMem_of_reg hdst, hb, hreg,
      Bool.false_eq_true, if_false]
    exact forall₂_two (carries_reg hdst) (carries_imm64 hv)
  | movImm64 hdst hb hreg hv =>
    refine carried_as .mov (by decide) hemit rfl ?_
    simp only [Shape.kinds, placeKind, sourceKind, x86IsMem_of_reg hdst, hb, hreg,
      Bool.false_eq_true, if_false]
    exact forall₂_two (carries_reg hdst) (carries_imm64 hv)
  | arithImm h hdst hb hreg hv =>
    refine carried_as .arith (hdigits _ h) hemit rfl ?_
    simp only [Shape.kinds, placeKind, sourceKind, x86IsMem_of_reg hdst, hb, hreg,
      Bool.false_eq_true, if_false]
    exact forall₂_two (carries_reg hdst) (carries_imm32 hv)
  | imul hdst hsrc =>
    exact carried_as .twoRegs (by decide) hemit rfl
      (forall₂_two (carries_reg hdst) (carries_reg hsrc))
  | unary h hr => exact carried_as .oneReg (hunary _ h) hemit rfl (forall₂_one (carries_reg hr))
  | shift h hr hv =>
    exact carried_as .shift (hshift _ h) hemit rfl (forall₂_two (carries_reg hr) (carries_imm8 hv))
  | branch h hv =>
    exact carried_as .jump (hbranch _ h) hemit rfl (forall₂_one (carries_target 5 (by decide) hv))
  | jcc h hv =>
    exact carried_as .jcc (hjcc _ h) hemit rfl (forall₂_one (carries_target 6 (by decide) hv))
  | inDx =>
    exact carried_as .inPort (by decide) hemit rfl
      (forall₂_two (iff_true_intro rfl) (iff_true_intro rfl))
  | inImm hb hv =>
    refine carried_as .inPort (by decide) hemit rfl ?_
    rw [Shape.kinds, portKind, if_neg hb]
    exact forall₂_two (iff_true_intro rfl) (carries_imm8 hv)
  | outDx =>
    exact carried_as .outPort (by decide) hemit rfl
      (forall₂_two (iff_true_intro rfl) (iff_true_intro rfl))
  | outImm ha hv =>
    refine carried_as .outPort (by decide) hemit rfl ?_
    rw [Shape.kinds, portKind, if_neg ha]
    exact forall₂_two (carries_imm8 hv) (iff_true_intro rfl)

end Lines

/-- In every state, an accepted line has its operands carried by the instruction
that it emits exactly when they fit. -/
theorem x86Encode_carries_iff {m : CStr} {ops : List CStr} {st st' : AsState}
    (h : x86Encode (m :: ops) st = .ok (some st')) :
    OperandsCarried ops st st' ↔ OperandsFit m ops st := by
  obtain ⟨_, _, i, htok, hform, hemit⟩ := x86Encode_eq_some h
  cases htok
  exact hform.carries_iff hemit

/-- The state at the beginning of pass one, with no symbols and base zero. -/
def emitOrigin : AsState := { initState .x86_64 0 with pass := .emit }

/-- `shl rbx, 3` has its operands carried. -/
theorem x86Encode_carries_iff_shl :
    ∃ st', x86Encode (["shl", "rbx", "3"].map String.toList) emitOrigin = .ok (some st') ∧
      OperandsCarried (["rbx", "3"].map String.toList) emitOrigin st' := by
  have hline : x86Encode (["shl", "rbx", "3"].map String.toList) emitOrigin =
      .ok (some (emitOrigin.putAll [0x48, 0xC1, 0xE3, 3])) := rfl
  have hconst : constantOf emitOrigin "3".toList = some 3 := by decide +kernel
  refine ⟨_, hline, (x86Encode_carries_iff hline).mpr ⟨.shift, by decide, ?_⟩⟩
  exact .cons trivial (.cons ⟨3, hconst, by decide, by decide⟩ .nil)

/-- The third operand of `imul rax, rbx, rcx` is dropped; `add rax, 4294967296`
adds zero, `int 256` is `int 0`, and `jmp 4294967296` goes to zero. -/
theorem x86Encode_drops_operands :
    (∃ st', x86Encode (["imul", "rax", "rbx", "rcx"].map String.toList) emitOrigin =
        .ok (some st') ∧
      ¬OperandsCarried (["rax", "rbx", "rcx"].map String.toList) emitOrigin st') ∧
      (∃ st', x86Encode (["add", "rax", "4294967296"].map String.toList) emitOrigin =
          .ok (some st') ∧
        ¬OperandsCarried (["rax", "4294967296"].map String.toList) emitOrigin st') ∧
      (∃ st', x86Encode (["int", "256"].map String.toList) emitOrigin = .ok (some st') ∧
        ¬OperandsCarried (["256"].map String.toList) emitOrigin st') ∧
      ∃ st', x86Encode (["jmp", "4294967296"].map String.toList) emitOrigin = .ok (some st') ∧
        ¬OperandsCarried (["4294967296"].map String.toList) emitOrigin st' := by
  have hbig : constantOf emitOrigin "4294967296".toList = some 4294967296 := by decide +kernel
  have hemitted (bytes : List RivU8) (hfit : bytes.length ≤ maxProg) :
      emitted emitOrigin (emitOrigin.putAll bytes) = bytes :=
    emitted_of_emitAll (emitAll_of_fits (by rwa [show emitOrigin.pc.toNat = 0 from rfl, zero_add]))
  refine ⟨⟨emitOrigin.putAll [0x48, 0x0F, 0xAF, 0xC3], rfl, ?_⟩,
    ⟨emitOrigin.putAll [0x48, 0x81, 0xC0, 0, 0, 0, 0], rfl, ?_⟩,
    ⟨emitOrigin.putAll [0xCD, 0], rfl, ?_⟩,
    ⟨emitOrigin.putAll [0xE9, 0xFB, 0xFF, 0xFF, 0xFF], rfl, ?_⟩⟩
  · rintro ⟨l, hl, hcarry⟩
    rw [hemitted _ (by decide)] at hl
    have horders : operandOrders (insnAddr emitOrigin) [0x48, 0x0F, 0xAF, 0xC3] =
        [[.reg 0, .reg 3]] := by decide +kernel
    rw [horders, List.mem_singleton] at hl
    subst hl
    exact absurd hcarry.length_eq (by decide)
  · rintro ⟨l, hl, hcarry⟩
    rw [hemitted _ (by decide)] at hl
    have horders : operandOrders (insnAddr emitOrigin) [0x48, 0x81, 0xC0, 0, 0, 0, 0] =
        [[.reg 0, .imm 0]] := by decide +kernel
    rw [horders, List.mem_singleton] at hl
    subst hl
    obtain ⟨-, hrest⟩ := List.forall₂_cons.mp hcarry
    obtain ⟨⟨w, hw, hword⟩, -⟩ := List.forall₂_cons.mp hrest
    cases hbig.symm.trans hw
    exact absurd hword (by decide)
  · rintro ⟨l, hl, hcarry⟩
    rw [hemitted _ (by decide)] at hl
    have horders : operandOrders (insnAddr emitOrigin) [0xCD, 0] = [[.imm8 0]] := by
      decide +kernel
    have hconst : constantOf emitOrigin "256".toList = some 256 := by decide +kernel
    rw [horders, List.mem_singleton] at hl
    subst hl
    obtain ⟨⟨w, hw, hbyte⟩, -⟩ := List.forall₂_cons.mp hcarry
    cases hconst.symm.trans hw
    exact absurd hbyte (by decide)
  · rintro ⟨l, hl, hcarry⟩
    rw [hemitted _ (by decide)] at hl
    have horders : operandOrders (insnAddr emitOrigin) [0xE9, 0xFB, 0xFF, 0xFF, 0xFF] =
        [[.imm 0]] := by decide +kernel
    rw [horders, List.mem_singleton] at hl
    subst hl
    obtain ⟨⟨w, hw, hword⟩, -⟩ := List.forall₂_cons.mp hcarry
    cases hbig.symm.trans hw
    exact absurd hword (by decide)

end Rivet.X86
