import Rivet.Assembler.Reading
import Rivet.X86.Insn

/-!
# Line numbers

`riv_as_line` is only printed: what a line does to the rest of the state, or the
error it ends in, does not depend on it.  A change of the line number is moved from
the state a function starts in to the one it ends in, by rules for the ways in which
the functions of the assembler are put together.
-/

namespace Rivet.Assembler

open CLib Riscv32 X86

def AsState.atLine (n : ℕ) (st : AsState) : AsState := { st with line := n }

/-! ## Rules -/

section Rules

variable {α β γ ε : Type}

@[simp] theorem map_bind (x : Except ε α) (g : α → Except ε β) (f : β → γ) :
    (x >>= g).map f = x >>= fun a => (g a).map f := by cases x <;> rfl

@[simp] theorem bind_map (x : Except ε α) (f : α → β) (g : β → Except ε γ) :
    x.map f >>= g = x >>= fun a => g (f a) := by cases x <;> rfl

@[simp] theorem map_ite (c : Prop) [Decidable c] (x y : Except ε α) (f : α → β) :
    (if c then x else y).map f = if c then x.map f else y.map f := apply_ite ..

@[simp] theorem ite_bind (c : Prop) [Decidable c] (x y : Except ε α) (g : α → Except ε β) :
    (if c then x else y) >>= g = if c then x >>= g else y >>= g := by split <;> rfl

@[simp] theorem map_die (msg : String) (extra : Option CStr) (f : α → β) :
    (rivAsDie msg extra).map f = rivAsDie msg extra := rfl

@[simp] theorem map_ok (a : α) (f : α → β) : (Except.ok a : Except ε α).map f = .ok (f a) := rfl

@[simp] theorem map_error (e : ε) (f : α → β) :
    (Except.error e : Except ε α).map f = .error e := rfl

end Rules

section Lines

variable (n : ℕ) (st : AsState)

@[simp] theorem atLine_reads : (st.atLine n).pc = st.pc ∧ (st.atLine n).base = st.base ∧
    (st.atLine n).pass = st.pass ∧ (st.atLine n).symtab = st.symtab ∧
    (st.atLine n).arch = st.arch := ⟨rfl, rfl, rfl, rfl, rfl⟩

@[simp] theorem parse_atLine (a : CStr) : rivAsParseImm (st.atLine n) a = rivAsParseImm st a ∧
    x86ParseMem (st.atLine n) a = x86ParseMem st a := ⟨rfl, rfl⟩

@[simp] theorem emitU8_atLine (b : RivU8) :
    rivAsEmitU8 b (st.atLine n) = (rivAsEmitU8 b st).map (AsState.atLine n) := by
  simp [rivAsEmitU8, AsState.put]
  rfl

@[simp] theorem emitAll_atLine (bs : List RivU8) :
    emitAll bs (st.atLine n) = (emitAll bs st).map (AsState.atLine n) := by
  induction bs generalizing st with
  | nil => rfl
  | cons b bs ih => simp [emitAll_cons, ih]

@[simp] theorem emitWhile_atLine (pad : RivU32 → Bool) :
    emitWhile pad (st.atLine n) = (emitWhile pad st).map (AsState.atLine n) := by
  fun_induction emitWhile pad st with
  | case1 st hpad hfull =>
    rw [emitWhile]
    simp [hpad, hfull]
  | case2 st hpad hfull ih =>
    rw [← ih, emitWhile]
    simp [hpad, hfull]
    rfl
  | case3 st hpad =>
    rw [emitWhile]
    simp [hpad]

@[simp] theorem symSet_atLine (name : CStr) (v : RivU32) :
    rivAsSymSet name v (st.atLine n) = (rivAsSymSet name v st).map (AsState.atLine n) := by
  unfold rivAsSymSet
  cases h : rivAsSymFind st.symtab name <;> simp [h] <;> rfl

/-! ## The backends -/

theorem rvEncode_atLine (tok : List CStr) :
    rvEncode tok (st.atLine n) = (rvEncode tok st).map (Option.map (AsState.atLine n)) := by
  have hword : ∀ ix m ops, rvWord (st.atLine n) ix m ops = rvWord st ix m ops :=
    fun _ _ _ => rfl
  simp only [rvEncode, map_bind]
  congr 1
  funext tok
  cases tok with
  | nil => rfl
  | cons m ops =>
    cases h : rvFind m with
    | none | some ix => simp [h, hword, rivAsEmitU32]

theorem group_atLine {m : CStr} {f : Handler} (hg : Group m f) (ops : List CStr) :
    f ops (st.atLine n) = (f ops st).map (AsState.atLine n) := by
  cases hg with
  | arith h =>
    obtain _ | ⟨a, _ | ⟨b, rest⟩⟩ := ops
    · rfl
    · rfl
    cases hrm : lookupMnem x86OpRm m <;> cases hdg : lookupMnem x86ArithDigits m
    all_goals simp [x86Arith, hrm, hdg, x86EmitRmOrMr, x86EmitRrMr, x86EmitRi32, x86EmitRex,
      x86EmitModrm, x86EmitImm32, x86EmitRexForMem, x86EmitMem]
  | _ =>
    obtain _ | ⟨a, _ | ⟨b, rest⟩⟩ := ops
    all_goals simp [x86Int, x86PushPop, x86Mov, x86Xchg, x86Lea, x86Imul, x86IncDec, x86NegNot,
      x86MulDiv, x86ShiftOp, x86JmpCall, x86Jcc, x86In, x86Out, x86EmitRmOrMr, x86EmitRrMr,
      x86EmitUnaryF7, x86EmitUnaryFf, x86EmitUnary, x86EmitShift, x86EmitRex, x86EmitModrm,
      x86EmitImm32, x86EmitImm64, x86EmitRexForMem, x86EmitMem, x86RelOffset]

theorem x86Encode_atLine (tok : List CStr) :
    x86Encode tok (st.atLine n) = (x86Encode tok st).map (Option.map (AsState.atLine n)) := by
  cases tok with
  | nil => rfl
  | cons m ops =>
    cases hf : x86Handler m with
    | none => simp [x86Encode, hf]
    | some f => simp [x86Encode, hf, group_atLine n st (x86Handler_group hf)]

@[simp] theorem encodeLine_atLine (tok : List CStr) :
    encodeLine tok (st.atLine n) = (encodeLine tok st).map (Option.map (AsState.atLine n)) := by
  cases h : st.arch <;> simp [encodeLine, h, rvEncode_atLine, x86Encode_atLine]

/-! ## Lines -/

theorem emitEach_atLine {emit : ℤ → AsState → Except AsError AsState}
    (hemit : ∀ v st, emit v (st.atLine n) = (emit v st).map (AsState.atLine n)) (ops : List CStr) :
    emitEach emit ops (st.atLine n) = (emitEach emit ops st).map (AsState.atLine n) := by
  induction ops generalizing st with
  | nil => rfl
  | cons a ops ih =>
    simp only [emitEach, List.foldlM_cons] at ih ⊢
    simp [hemit, ih]

theorem processDirective_atLine (d : Directive) (ops : List CStr) :
    processDirective d ops (st.atLine n) = (processDirective d ops st).map (AsState.atLine n) := by
  cases d with
  | word | quad | byte | half =>
    exact emitEach_atLine n st (by simp [rivAsEmitU16, rivAsEmitU32, rivAsEmitU64]) ops
  | arch =>
    obtain _ | ⟨a, rest⟩ := ops
    · rfl
    cases h : pickArch a with
    | none => simp [processDirective, h]
    | some arch =>
      simp [processDirective, h]
      rfl
  | _ =>
    obtain _ | ⟨a, _ | ⟨b, rest⟩⟩ := ops
    all_goals simp [processDirective, setOrg, alignTo]
    all_goals rfl

theorem processLabels_atLine (toks : List CStr) : processLabels toks (st.atLine n) =
      (processLabels toks st).map fun r => (r.1.atLine n, r.2) := by
  induction toks generalizing st with
  | nil => rfl
  | cons t ts ih => cases h : labelOf t <;> simp [processLabels, h, ih]

theorem processTokens_atLine (toks : List CStr) :
    processTokens toks (st.atLine n) = (processTokens toks st).map (AsState.atLine n) := by
  cases toks with
  | nil => rfl
  | cons t ops =>
    by_cases hdot : t.head? = some '.'
    · cases hd : lookupMnem directives t with
      | none | some d => simp [processTokens, hdot, hd, processDirective_atLine]
    · rcases hr : encodeLine (t :: ops) st with e | _ | s
      all_goals simp [processTokens, hdot, hr]

/-- `process_line` behind the tokenizer. -/
def runTokens (toks : List CStr) (st : AsState) : Except AsError AsState := do
  let (st, toks) ← processLabels toks st
  processTokens toks st

theorem runTokens_atLine (toks : List CStr) :
    runTokens toks (st.atLine n) = (runTokens toks st).map (AsState.atLine n) := by
  simp [runTokens, processLabels_atLine, processTokens_atLine]

end Lines

theorem processLine_eq (line : CStr) (st : AsState) :
    processLine line st = tokenize line >>= fun toks => runTokens toks st := rfl

end Rivet.Assembler
