import Mathlib.Data.List.Basic
import Mathlib.Logic.Function.Basic
import Rivet.Core
import Rivet.Support.CLib
import Rivet.Support.Exec

/-!
# State of the assembler frontend

The globals of `rivet-as.c`, the emission of bytes into the program image and
the symbol table.  A function of the source that may call `riv_as_die` returns
in `Except AsError`; the state is passed explicitly.
-/

namespace Rivet

open CLib

namespace Assembler

def maxLine : ℕ := 512
def maxSym : ℕ := 2048
def maxProg : ℕ := 2 ^ 20
def archMaxTokens : ℕ := 12

/-- The message given to `riv_as_die`, with the token it quotes. -/
structure AsError where
  msg : String
  extra : Option CStr
  deriving DecidableEq, Repr

/-- `riv_as_die`: the process exits, so nothing after it is computed. -/
def rivAsDie {α : Type} (msg : String) (extra : Option CStr) : Except AsError α :=
  .error ⟨msg, extra⟩

/-- The backends of `riv_arch_as`. -/
inductive Arch where
  | riscv32
  | x86_64
  deriving DecidableEq, Repr

/-- `riv_as_pass`: pass zero collects symbols, pass one emits. -/
inductive Pass where
  | collect
  | emit
  deriving DecidableEq, Repr

/-- `sym_t`: the name is stored in sixty-four bytes, terminator included. -/
structure Sym where
  name : CStr
  addr : RivU32
  name_lt : name.length < 64

/-- The global state of `rivet-as.c`. -/
structure AsState where
  prog : ℕ → RivU8
  pc : RivU32
  maxPc : RivU32
  base : RivU32
  pass : Pass
  line : ℕ
  symtab : List Sym
  arch : Arch

/-! ## Emission -/

def AsState.put (b : RivU8) (st : AsState) : AsState :=
  { st with
    prog := Function.update st.prog st.pc.toNat b
    pc := st.pc + 1
    maxPc := if st.maxPc < st.pc + 1 then st.pc + 1 else st.maxPc }

def rivAsEmitU8 (b : RivU8) (st : AsState) : Except AsError AsState :=
  if maxProg ≤ st.pc.toNat then rivAsDie "program too large" none
  else .ok (st.put b)

def rivAsEmitU16 (v : RivU16) (st : AsState) : Except AsError AsState := do
  let st ← rivAsEmitU8 ((v &&& 0xFF).setWidth 8) st
  rivAsEmitU8 (((v >>> 8) &&& 0xFF).setWidth 8) st

def rivAsEmitU32 (v : RivU32) (st : AsState) : Except AsError AsState := do
  let st ← rivAsEmitU8 ((v &&& 0xFF).setWidth 8) st
  let st ← rivAsEmitU8 (((v >>> 8) &&& 0xFF).setWidth 8) st
  let st ← rivAsEmitU8 (((v >>> 16) &&& 0xFF).setWidth 8) st
  rivAsEmitU8 (((v >>> 24) &&& 0xFF).setWidth 8) st

def emitAll (bs : List RivU8) (st : AsState) : Except AsError AsState :=
  bs.foldlM (fun st b => rivAsEmitU8 b st) st

def rivAsEmitU64 (v : RivU64) (st : AsState) : Except AsError AsState :=
  emitAll ((List.range 8).map fun i => ((v >>> (8 * i)) &&& 0xFF).setWidth 8) st

def leU32 (v : RivU32) : List RivU8 :=
  [(v &&& 0xFF).setWidth 8, ((v >>> 8) &&& 0xFF).setWidth 8,
   ((v >>> 16) &&& 0xFF).setWidth 8, ((v >>> 24) &&& 0xFF).setWidth 8]

def AsState.putAll (bs : List RivU8) (st : AsState) : AsState :=
  bs.foldl (fun st b => st.put b) st

/-- The bytes stored between the cursor of `st` and the cursor of `st'`. -/
def emitted (st st' : AsState) : List RivU8 :=
  (List.range (st'.pc.toNat - st.pc.toNat)).map fun i =>
    st'.prog (st.pc.toNat + i)

@[simp] theorem emitAll_nil (st : AsState) : emitAll [] st = .ok st := rfl

theorem emitAll_cons (b : RivU8) (bs : List RivU8) (st : AsState) :
    emitAll (b :: bs) st = rivAsEmitU8 b st >>= emitAll bs := rfl

@[simp] theorem emitAll_singleton (b : RivU8) (st : AsState) :
    emitAll [b] st = rivAsEmitU8 b st := by simp [emitAll]

theorem emitAll_append (as bs : List RivU8) (st : AsState) :
    emitAll (as ++ bs) st = emitAll as st >>= emitAll bs := by
  simp only [emitAll, List.foldlM_append]
  rfl

theorem rivAsEmitU32_eq (v : RivU32) (st : AsState) :
    rivAsEmitU32 v st = emitAll (leU32 v) st := by simp [rivAsEmitU32, leU32, emitAll, bind_pure]

@[simp] theorem putAll_nil (st : AsState) : st.putAll [] = st := rfl

@[simp] theorem putAll_cons (b : RivU8) (bs : List RivU8) (st : AsState) :
    st.putAll (b :: bs) = (st.put b).putAll bs := rfl

@[simp] theorem put_base (b : RivU8) (st : AsState) : (st.put b).base = st.base := rfl
@[simp] theorem put_pass (b : RivU8) (st : AsState) : (st.put b).pass = st.pass := rfl
@[simp] theorem put_line (b : RivU8) (st : AsState) : (st.put b).line = st.line := rfl
@[simp] theorem put_arch (b : RivU8) (st : AsState) : (st.put b).arch = st.arch := rfl
@[simp] theorem put_symtab (b : RivU8) (st : AsState) : (st.put b).symtab = st.symtab := rfl
@[simp] theorem put_pc (b : RivU8) (st : AsState) : (st.put b).pc = st.pc + 1 := rfl

theorem putAll_pc (bs : List RivU8) (st : AsState) :
    (st.putAll bs).pc = st.pc + BitVec.ofNat 32 bs.length := by
  induction bs generalizing st with
  | nil => simp
  | cons b bs ih => simp_all [putAll_cons, put_pc, Nat.add_comm, BitVec.ofNat_add, BitVec.add_assoc]

variable {bs : List RivU8} {st st' : AsState}

theorem putAll_pc_toNat (h : st.pc.toNat + bs.length ≤ maxProg) :
    (st.putAll bs).pc.toNat = st.pc.toNat + bs.length := by
  have hmax : maxProg < 2 ^ 32 := by decide
  rw [putAll_pc, BitVec.toNat_add, BitVec.toNat_ofNat]
  omega

/-- Storing bytes only moves the cursor and changes the image. -/
structure SameContext (st st' : AsState) : Prop where
  base : st'.base = st.base
  pass : st'.pass = st.pass
  line : st'.line = st.line
  arch : st'.arch = st.arch
  symtab : st'.symtab = st.symtab

theorem SameContext.refl (st : AsState) : SameContext st st :=
  ⟨rfl, rfl, rfl, rfl, rfl⟩

theorem SameContext.trans {a b c : AsState}
    (hab : SameContext a b) (hbc : SameContext b c) : SameContext a c :=
  ⟨hbc.base.trans hab.base, hbc.pass.trans hab.pass, hbc.line.trans hab.line,
    hbc.arch.trans hab.arch, hbc.symtab.trans hab.symtab⟩

theorem putAll_sameContext (bs : List RivU8) (st : AsState) : SameContext st (st.putAll bs) := by
  induction bs generalizing st with
  | nil => exact SameContext.refl st
  | cons b bs ih =>
    have hput : SameContext st (st.put b) := ⟨rfl, rfl, rfl, rfl, rfl⟩
    exact hput.trans (ih (st.put b))

theorem rivAsEmitU8_eq_ok {b : RivU8} (h : rivAsEmitU8 b st = .ok st') :
    st.pc.toNat < maxProg ∧ st' = st.put b := by
  unfold rivAsEmitU8 at h
  split at h
  · cases h
  simp_all

theorem put_pc_toNat {b : RivU8} (h : st.pc.toNat < maxProg) :
    (st.put b).pc.toNat = st.pc.toNat + 1 := by
  have hmax : maxProg < 2 ^ 32 := by decide
  grind [put_pc]

theorem emitAll_of_fits (h : st.pc.toNat + bs.length ≤ maxProg) :
    emitAll bs st = .ok (st.putAll bs) := by
  induction bs generalizing st with
  | nil => rfl
  | cons b bs ih =>
    rw [List.length_cons] at h
    have hpc : st.pc.toNat < maxProg := by omega
    have hnext : (st.put b).pc.toNat + bs.length ≤ maxProg := by
      rw [put_pc_toNat hpc]
      omega
    simp_all [emitAll_cons, rivAsEmitU8, Nat.not_le.mpr]

theorem emitAll_eq_ok (h : emitAll bs st = .ok st') :
    st' = st.putAll bs ∧ (bs ≠ [] → st.pc.toNat + bs.length ≤ maxProg) := by
  induction bs generalizing st with
  | nil =>
    cases h
    exact ⟨rfl, fun hne => absurd rfl hne⟩
  | cons b bs ih =>
    obtain ⟨st1, hb, h⟩ := Exec.of_bind_eq_ok h
    obtain ⟨hpc, rfl⟩ := rivAsEmitU8_eq_ok hb
    obtain ⟨hst, hfit⟩ := ih h
    refine ⟨hst, fun _ => ?_⟩
    rw [put_pc_toNat hpc] at hfit
    rw [List.length_cons]
    grind

theorem putAll_prog_of_lt {i : ℕ} (hi : i < st.pc.toNat) (h : st.pc.toNat + bs.length ≤ maxProg) :
    (st.putAll bs).prog i = st.prog i := by
  induction bs generalizing st with
  | nil => rfl
  | cons b bs ih =>
    rw [List.length_cons] at h
    have hpc : st.pc.toNat < maxProg := by omega
    have hnext := put_pc_toNat (b := b) hpc
    rw [putAll_cons, ih (by omega) (by omega)]
    exact Function.update_of_ne (by omega) _ _

theorem emitted_putAll (h : st.pc.toNat + bs.length ≤ maxProg) :
    emitted st (st.putAll bs) = bs := by
  induction bs generalizing st with
  | nil => simp [emitted]
  | cons b bs ih =>
    rw [List.length_cons] at h
    have hpc : st.pc.toNat < maxProg := by omega
    have hnext := put_pc_toNat (b := b) hpc
    have htail : emitted (st.put b) ((st.put b).putAll bs) = bs := ih (by omega)
    have hlen : (st.putAll (b :: bs)).pc.toNat - st.pc.toNat = bs.length + 1 := by
      grind [putAll_pc_toNat]
    have hlen' : ((st.put b).putAll bs).pc.toNat - (st.put b).pc.toNat =
        bs.length := by
      rw [putAll_pc_toNat (by omega)]
      omega
    have hhead : (st.putAll (b :: bs)).prog st.pc.toNat = b := by
      rw [putAll_cons, putAll_prog_of_lt (by omega) (by omega)]
      exact Function.update_self _ _ _
    rw [emitted, hlen'] at htail
    rw [emitted, hlen, List.range_succ_eq_map, List.map_cons, Nat.add_zero,
      hhead, List.map_map]
    congr 1
    calc
      List.map ((fun i => (st.putAll (b :: bs)).prog (st.pc.toNat + i)) ∘ Nat.succ)
          (List.range bs.length) =
          List.map (fun i => ((st.put b).putAll bs).prog ((st.put b).pc.toNat + i))
            (List.range bs.length) := by
        apply List.map_congr_left
        intro i _
        simp only [Function.comp_apply, putAll_cons]
        congr 1
        omega
      _ = bs := htail

theorem emitted_of_emitAll (h : emitAll bs st = .ok st') : emitted st st' = bs := by
  obtain ⟨rfl, hfit⟩ := emitAll_eq_ok h
  by_cases hnil : bs = []
  · rw [hnil]
    simp [emitted]
  · exact emitted_putAll (hfit hnil)

end Assembler
end Rivet
