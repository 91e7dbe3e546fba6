import Rivet.Assembler.TwoPass

/-!
# The backend of a line

An instruction goes to the backend that is in force when its line is entered.
Only `.arch` directives change it, and they name the new one whatever the pass.
`main` selects a backend before the first pass and not again before the second,
which therefore starts with the one the last `.arch` directive of the file has
left.
-/

namespace Rivet.Assembler

open CLib Riscv32 X86

/-- The backend an `.arch` directive names. -/
def archNamed (line : CStr) : Option Arch :=
  match (lineParts line).2 with
  | t :: a :: _ => if lookupMnem directives t = some .arch then pickArch a else none
  | _ => none

/-- The backend in force after lines that are entered with `arch`. -/
def archAfter (arch : Arch) (lines : List CStr) : Arch :=
  lines.foldl (fun arch line => (archNamed line).getD arch) arch

def isInstruction (line : CStr) : Bool :=
  match (lineParts line).2 with
  | [] => false
  | t :: _ => t.head? ≠ some '.'

/-- A pass that starts in `st` dispatches line `k` of a text to a backend. -/
def Dispatches (text : List Char) (st : AsState) (k : ℕ) (arch : Arch) : Prop :=
  (∃ line, (fileLines text)[k]? = some line ∧ isInstruction line = true) ∧
    ∃ s, enterLine text st k = .ok s ∧ s.arch = arch

/-- With `arch` selected on the command line: the passes dispatch every line to the
same backend, and the second pass, which follows a first pass that ends in `st₀`,
starts with the one selected. -/
structure SameBackend (arch : Arch) (base : RivU32) (text : List Char) (st₀ : AsState) : Prop where
  start : ({ st₀ with pass := .emit } : AsState).arch = arch
  lines : ∀ k a b, Dispatches text (initState arch base) k a →
    Dispatches text { st₀ with pass := .emit } k b → a = b

theorem processDirective_arch_eq {ops : List CStr} {s s' : AsState}
    (h : processDirective .arch ops s = .ok s') :
    ∃ a rest, ops = a :: rest ∧ pickArch a = some s'.arch := by
  match ops with
  | [] => cases h
  | a :: rest =>
    refine ⟨a, rest, rfl, ?_⟩
    simp only [processDirective] at h
    cases hpick : pickArch a with
    | none =>
      rw [hpick] at h
      cases h
    | some arch =>
      rw [hpick] at h
      cases h
      rfl

theorem processLine_arch_eq {line : CStr} {s s' : AsState} (h : processLine line s = .ok s') :
    s'.arch = (archNamed line).getD s.arch := by
  by_cases huses : usesArch line = true
  · obtain ⟨s1, -, htokens⟩ := processLine_eq_ok h
    rw [usesArch] at huses
    rw [archNamed]
    cases hparts : (lineParts line).2 with
    | nil =>
      rw [hparts] at huses
      cases huses
    | cons t ops =>
      rw [hparts] at huses htokens
      have harch : lookupMnem directives t = some .arch := of_decide_eq_true huses
      rcases processTokens_cases htokens with ⟨-, d, hd, hdir⟩ | ⟨hdot, -⟩
      · obtain rfl : d = .arch := Option.some.inj (hd.symm.trans harch)
        obtain ⟨a, rest, rfl, hpick⟩ := processDirective_arch_eq hdir
        simp only [harch, if_true, hpick, Option.getD_some]
      · exact absurd (head_of_directive harch) hdot
  grind [processLine_arch, usesArch, archNamed, of_decide_eq_false]

theorem assembleLines_archAfter {lines : List CStr} {s s' : AsState}
    (h : assembleLines lines s = .ok s') : s'.arch = archAfter s.arch lines := by
  induction lines generalizing s with
  | nil =>
    cases h
    rfl
  | cons line lines ih =>
    obtain ⟨s1, hline, hrest⟩ := Exec.of_bind_eq_ok h
    rw [ih hrest, processLine_arch_eq hline]
    rfl

/-- After a first pass that ends, the second keeps to its backends if and only if
the file leaves the selected backend in force. -/
theorem sameBackend_iff {arch : Arch} {base : RivU32} {text : List Char} {st₀ : AsState}
    (hpass : assembleFile text (initState arch base) = .ok st₀) :
    SameBackend arch base text st₀ ↔ archAfter arch (fileLines text) = arch := by
  have hafter : st₀.arch = archAfter arch (fileLines text) := assembleLines_archAfter hpass
  constructor
  · intro h
    exact hafter.symm.trans h.start
  intro h
  have hstart : st₀.arch = arch := hafter.trans h
  refine ⟨hstart, ?_⟩
  rintro k a b ⟨-, s, hs, rfl⟩ ⟨-, t, ht, rfl⟩
  rw [assembleLines_archAfter hs, assembleLines_archAfter ht]
  show archAfter arch _ = archAfter st₀.arch _
  rw [hstart]

theorem sameBackend_iff_restored :
    ∃ st₀, assembleFile "nop\n.arch x86_64\nnop\n.arch rv32\n".toList (initState .riscv32 0) =
        .ok st₀ ∧ SameBackend .riscv32 0 "nop\n.arch x86_64\nnop\n.arch rv32\n".toList st₀ := by
  have hok : (assembleFile "nop\n.arch x86_64\nnop\n.arch rv32\n".toList
      (initState .riscv32 0)).toBool = true := by
    decide +kernel
  obtain ⟨st₀, h⟩ := Exec.exists_ok_of_toBool hok
  exact ⟨st₀, h, (sameBackend_iff h).mpr (by decide +kernel)⟩

/-- The first pass assembles the line for RV32 and the second for x86_64. -/
theorem nop_dispatched_to_both :
    ∃ st₀, assembleFile "nop\n.arch x86_64\n".toList (initState .riscv32 0) = .ok st₀ ∧
      Dispatches "nop\n.arch x86_64\n".toList (initState .riscv32 0) 0 .riscv32 ∧
      Dispatches "nop\n.arch x86_64\n".toList { st₀ with pass := .emit } 0 .x86_64 := by
  have hok : (assembleFile "nop\n.arch x86_64\n".toList (initState .riscv32 0)).toBool = true := by
    decide +kernel
  obtain ⟨st₀, h⟩ := Exec.exists_ok_of_toBool hok
  have harch : st₀.arch = .x86_64 := by
    rw [assembleLines_archAfter h]
    decide +kernel
  have hline : ∃ line, (fileLines "nop\n.arch x86_64\n".toList)[0]? = some line ∧
      isInstruction line = true :=
    ⟨"nop\n".toList, by decide +kernel, by decide +kernel⟩
  exact ⟨st₀, h, ⟨hline, _, rfl, rfl⟩, ⟨hline, _, rfl, harch⟩⟩

end Rivet.Assembler
