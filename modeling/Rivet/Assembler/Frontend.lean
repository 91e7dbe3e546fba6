import Rivet.Riscv32.Encode
import Rivet.X86.Encode

/-!
# The assembler frontend

The tokenizer, the string decoder, the directives and the two passes of
`rivet-as.c`.  A character of a source text is one byte of the file.
-/

namespace Rivet.Assembler

open CLib Riscv32 X86

/-! ## Tokenizer -/

def isLineEnd (c : Char) : Bool := c = '#' || c = ';' || c = '\n' || c = '\r'

def isSeparator (c : Char) : Bool := c = ' ' || c = '\t' || c = ','

/-- A quoted token from the character after its opening quote on, with what
follows the token. -/
def spanQuoted : CStr → CStr × CStr
  | [] => ([], [])
  | '"' :: cs => (['"'], cs)
  | '\\' :: c :: cs =>
    let (tok, rest) := spanQuoted cs
    ('\\' :: c :: tok, rest)
  | c :: cs =>
    let (tok, rest) := spanQuoted cs
    (c :: tok, rest)

def bracketDepth (depth : ℕ) (c : Char) : ℕ :=
  if c = '[' then depth + 1 else if c = ']' then depth - 1 else depth

/-- A bracketed token, with the brackets open so far, and what follows it. -/
def spanBracket : ℕ → CStr → CStr × CStr
  | _, [] => ([], [])
  | depth, c :: cs =>
    if bracketDepth depth c = 0 then ([c], cs)
    else
      let (tok, rest) := spanBracket (bracketDepth depth c) cs
      (c :: tok, rest)

def spanToken : CStr → CStr × CStr
  | '"' :: cs =>
    let (tok, rest) := spanQuoted cs
    ('"' :: tok, rest)
  | '[' :: cs => spanBracket 0 ('[' :: cs)
  | cs => cs.span fun c => !(isSeparator c || isLineEnd c)

theorem length_spanQuoted_snd (cs : CStr) : (spanQuoted cs).2.length ≤ cs.length := by
  fun_induction spanQuoted cs with
  | case1 => exact Nat.le_refl _
  | case2 => simp
  | case3 _ _ _ _ h ih | case4 _ _ _ _ _ _ h ih => grind

theorem length_spanBracket_snd (depth : ℕ) (cs : CStr) :
    (spanBracket depth cs).2.length ≤ cs.length := by
  induction cs generalizing depth with
  | nil => exact Nat.le_refl _
  | cons c cs ih =>
    rw [spanBracket, List.length_cons]
    grind

theorem length_spanToken_snd (cs : CStr) : (spanToken cs).2.length ≤ cs.length := by
  unfold spanToken
  split
  · exact Nat.le_succ_of_le (length_spanQuoted_snd _)
  · exact length_spanBracket_snd _ _
  · rw [List.span_eq_takeWhile_dropWhile]
    exact (List.dropWhile_suffix _).length_le

/-- `tokenize`, from the position `p` on with `n` tokens stored.  The character
after a token is overwritten by its terminator and not looked at again. -/
def tokenizeFrom (n : ℕ) (p : CStr) : Except AsError (List CStr) :=
  match _h : p.dropWhile isSeparator with
  | [] => .ok []
  | c :: cs =>
    if isLineEnd c then .ok []
    else if archMaxTokens ≤ n then rivAsDie "too many tokens" none
    else do
      let toks ←
        (match _hs : (spanToken (c :: cs)).2 with
        | [] => .ok []
        | _ :: rest => tokenizeFrom (n + 1) rest)
      .ok ((spanToken (c :: cs)).1 :: toks)
termination_by p.length
decreasing_by
  have h₁ := (List.dropWhile_suffix isSeparator (l := p)).length_le
  have h₂ := length_spanToken_snd (c :: cs)
  rw [_hs, List.length_cons] at h₂
  rw [_h] at h₁
  omega

def tokenize (line : CStr) : Except AsError (List CStr) := tokenizeFrom 0 line

/-! ## Strings -/

/-- `HV`: the value of a hexadecimal digit. -/
def hexValue (c : Char) : Option ℕ := digitVal c

def charByte (c : Char) : RivU8 := BitVec.ofNat 8 c.toNat

/-- The loop of `decode_string` over what stands between the quotes, with `n`
bytes stored. -/
def decodeBody (cap n : ℕ) : CStr → Except AsError (List RivU8)
  | [] => .ok []
  | c :: cs =>
    if cap ≤ n then rivAsDie "string too long" none
    else if c ≠ '\\' then do
      let out ← decodeBody cap (n + 1) cs
      .ok (charByte c :: out)
    else
      match cs with
      | [] => rivAsDie "trailing backslash" none
      | 'x' :: h :: l :: rest =>
        match hexValue h, hexValue l with
        | some h, some l => do
          let out ← decodeBody cap (n + 1) rest
          .ok (BitVec.ofNat 8 ((h <<< 4) ||| l) :: out)
        | _, _ => rivAsDie "bad \\x escape" none
      | 'x' :: _ => rivAsDie "bad \\x escape" none
      | e :: rest => do
        let b :=
          if e = 'n' then charByte '\n'
          else if e = 'r' then charByte '\r'
          else if e = 't' then charByte '\t'
          else if e = '0' then 0
          else charByte e
        let out ← decodeBody cap (n + 1) rest
        .ok (b :: out)

def decodeString (tok : CStr) (cap : ℕ) : Except AsError (List RivU8) :=
  if tok.length < 2 ∨ tok.head? ≠ some '"' ∨ tok.getLast? ≠ some '"' then
    rivAsDie "expected quoted string:" (some tok)
  else decodeBody cap 0 tok.tail.dropLast

/-! ## Padding -/

/-- The loop `while (pad(riv_as_pc)) riv_as_emit_u8(0);`.  It ends at the
latest when the image is full. -/
def emitWhile (pad : RivU32 → Bool) (st : AsState) : Except AsError AsState :=
  if pad st.pc then
    if _h : maxProg ≤ st.pc.toNat then rivAsDie "program too large" none
    else emitWhile pad (st.put 0)
  else .ok st
termination_by maxProg - st.pc.toNat
decreasing_by
  have hlt : st.pc.toNat < maxProg := Nat.lt_of_not_le _h
  rw [put_pc_toNat hlt]
  omega

/-! ## Directives -/

/-- `pick_arch`, for a name that is given. -/
def pickArch (name : CStr) : Option Arch :=
  if name = "riscv32".toList ∨ name = "rv32".toList then some .riscv32
  else if name = "x86_64".toList ∨ name = "amd64".toList then some .x86_64
  else none

/-- The directives, by the names that share a branch of `process_line`. -/
inductive Directive where
  | text
  | org
  | word
  | quad
  | byte
  | half
  | zero
  | ascii
  | asciz
  | align
  | p2align
  | global
  | equ
  | arch
  deriving DecidableEq, Repr

def directives : List (String × Directive) :=
  [(".text", .text), (".data", .text), (".org", .org), (".word", .word),
   (".quad", .quad), (".byte", .byte), (".half", .half), (".short", .half),
   (".zero", .zero), (".skip", .zero), (".ascii", .ascii), (".asciz", .asciz),
   (".string", .asciz), (".align", .align), (".p2align", .p2align),
   (".global", .global), (".globl", .global), (".equ", .equ), (".set", .equ),
   (".arch", .arch)]

/-- The data directives: every operand is evaluated and emitted in turn. -/
def emitEach (emit : ℤ → AsState → Except AsError AsState) (ops : List CStr)
    (st : AsState) : Except AsError AsState :=
  ops.foldlM (fun st a => do emit (← rivAsParseImm st a) st) st

/-- The cursor is moved to `newpc`, over zero bytes where it moves forward. -/
def setOrg (newpc : RivU32) (st : AsState) : Except AsError AsState := do
  let st ← emitWhile (fun pc => pc < newpc) st
  .ok { st with
    pc := newpc
    maxPc := if st.maxPc < newpc then newpc else st.maxPc }

def alignTo (a : RivU32) : AsState → Except AsError AsState :=
  emitWhile fun pc => pc &&& (a - 1) ≠ 0

/-- The branch of `process_line` for a directive and its operands. -/
def processDirective (d : Directive) (ops : List CStr) (st : AsState) :
    Except AsError AsState :=
  match d with
  | .text | .global => .ok st
  | .org =>
    match ops with
    | a :: _ => do
      let v ← rivAsParseImm st a
      setOrg (BitVec.ofInt 32 v - st.base) st
    | [] => rivAsDie ".org needs arg" none
  | .word => emitEach (fun v => rivAsEmitU32 (BitVec.ofInt 32 v)) ops st
  | .quad => emitEach (fun v => rivAsEmitU64 (BitVec.ofInt 64 v)) ops st
  | .byte => emitEach (fun v => rivAsEmitU8 (BitVec.ofInt 8 v)) ops st
  | .half => emitEach (fun v => rivAsEmitU16 (BitVec.ofInt 16 v)) ops st
  | .zero =>
    match ops with
    | a :: rest => do
      let cnt ← rivAsParseImm st a
      let fill ←
        (match rest with
        | b :: _ => rivAsParseImm st b
        | [] => .ok 0)
      emitAll (List.replicate (BitVec.ofInt 32 cnt).toNat (BitVec.ofInt 8 fill)) st
    | [] => rivAsDie ".zero needs count" none
  | .ascii | .asciz =>
    match ops with
    | a :: _ => do
      let bytes ← decodeString a 1024
      let st ← emitAll bytes st
      if d = .asciz then rivAsEmitU8 0 st else .ok st
    | [] => rivAsDie "string directive needs quoted arg" none
  | .align =>
    match ops with
    | a :: _ => do
      let v ← rivAsParseImm st a
      let a := BitVec.ofInt 32 v
      alignTo (if a < 1 then 1 else a) st
    | [] => rivAsDie ".align needs arg" none
  | .p2align =>
    match ops with
    | a :: _ => do
      let v ← rivAsParseImm st a
      alignTo (1 <<< ((BitVec.ofInt 32 v).toNat % 32)) st
    | [] => rivAsDie ".p2align needs arg" none
  | .equ =>
    match ops with
    | a :: b :: _ =>
      if st.pass = .collect then do
        let v ← rivAsParseImm st b
        rivAsSymSet a (BitVec.ofInt 32 v) st
      else .ok st
    | _ => rivAsDie "equ needs name,val" none
  | .arch =>
    match ops with
    | a :: _ =>
      match pickArch a with
      | some arch => .ok { st with arch := arch }
      | none => rivAsDie "unknown arch:" (some a)
    | [] => rivAsDie ".arch needs name" none

/-! ## Lines -/

/-- The label a token defines: all of it but the colon at its end. -/
def labelOf (t : CStr) : Option CStr :=
  if 1 < t.length ∧ t.getLast? = some ':' then some t.dropLast else none

/-- The label loop of `process_line`: the state after it and the remaining
tokens. -/
def processLabels : List CStr → AsState → Except AsError (AsState × List CStr)
  | [], st => .ok (st, [])
  | t :: ts, st =>
    match labelOf t with
    | some name => do
      let st ←
        (if st.pass = .collect then rivAsSymSet name (st.pc + st.base) st
        else .ok st)
      processLabels ts st
    | none => .ok (st, t :: ts)

/-- `encode_line` of the backend in force. -/
def encodeLine (tok : List CStr) (st : AsState) : Except AsError (Option AsState) :=
  match st.arch with
  | .riscv32 => rvEncode tok st
  | .x86_64 => x86Encode tok st

/-- `process_line` after its labels. -/
def processTokens : List CStr → AsState → Except AsError AsState
  | [], st => .ok st
  | t :: ops, st =>
    if t.head? = some '.' then
      match lookupMnem directives t with
      | some d => processDirective d ops st
      | none => rivAsDie "unknown directive:" (some t)
    else do
      match ← encodeLine (t :: ops) st with
      | some st' => .ok st'
      | none => rivAsDie "unknown mnemonic for arch:" (some t)

def processLine (line : CStr) (st : AsState) : Except AsError AsState := do
  let toks ← tokenize line
  let (st, toks) ← processLabels toks st
  processTokens toks st

/-! ## Files and passes -/

/-- `fgets` with room for `cap` characters: the characters read and the rest
of the file. -/
def fgets : ℕ → List Char → List Char × List Char
  | 0, cs => ([], cs)
  | _ + 1, [] => ([], [])
  | cap + 1, c :: cs =>
    if c = '\n' then ([c], cs)
    else
      let (line, rest) := fgets cap cs
      (c :: line, rest)

theorem length_fgets_snd (cap : ℕ) (cs : List Char) : (fgets cap cs).2.length ≤ cs.length := by
  induction cap generalizing cs with
  | zero => exact Nat.le_refl _
  | succ cap ih =>
    cases cs with
    | nil => exact Nat.le_refl _
    | cons c cs =>
      rw [fgets]
      grind

/-- The lines that the loop of `assemble_file` reads from a file. -/
def fileLines (text : List Char) : List CStr :=
  match text with
  | [] => []
  | c :: cs =>
    cstr (fgets (maxLine - 1) (c :: cs)).1 :: fileLines (fgets (maxLine - 1) (c :: cs)).2
termination_by text.length
decreasing_by
  have h := length_fgets_snd (maxLine - 2) cs
  change (if c = '\n' then (([c], cs) : List Char × List Char)
    else (c :: (fgets (maxLine - 2) cs).1, (fgets (maxLine - 2) cs).2)).2.length <
      cs.length + 1
  split
  · exact Nat.lt_succ_self _
  · exact Nat.lt_succ_of_le h

/-- `riv_as_line++`. -/
def nextLine (st : AsState) : AsState := { st with line := st.line + 1 }

/-- The loop of `assemble_file` over lines. -/
def assembleLines (lines : List CStr) (st : AsState) : Except AsError AsState :=
  lines.foldlM (fun st line => processLine line (nextLine st)) st

/-- The state in which `assemble_file` enters its loop. -/
def startFile (st : AsState) : AsState := { st with line := 0, pc := 0 }

/-- `assemble_file`, with the contents of the file. -/
def assembleFile (text : List Char) (st : AsState) : Except AsError AsState :=
  assembleLines (fileLines text) (startFile st)

/-- The state in which `main` starts the first pass. -/
def initState (arch : Arch) (base : RivU32) : AsState where
  prog := fun _ => 0
  pc := 0
  maxPc := 0
  base := base
  pass := .collect
  line := 0
  symtab := []
  arch := arch

/-- The two passes of `main`: the states after each of them. -/
def assemble (arch : Arch) (base : RivU32) (text : List Char) :
    Except AsError (AsState × AsState) := do
  let st₀ ← assembleFile text (initState arch base)
  let st₁ ← assembleFile text { st₀ with pass := .emit }
  .ok (st₀, st₁)

end Rivet.Assembler
