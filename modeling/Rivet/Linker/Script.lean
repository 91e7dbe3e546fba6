import Mathlib
import Rivet.Assembler.Frontend

/-!
# Layout scripts

`parse_script` of `rivet-ld.c`: the line-based script that declares regions and
the files placed in them.
-/

namespace Rivet.Linker

open CLib

def maxRegions : ℕ := 16
def maxPlaces : ℕ := 64
def maxDefs : ℕ := 64
def maxTokens : ℕ := 16

/-- `region_t`. -/
structure RegionT where
  name : CStr
  origin : RivU32
  length : RivU32
  fill : RivU8
  deriving DecidableEq, Repr

/-- `place_t`; an offset is there when `has_offset` is set. -/
structure PlaceT where
  file : CStr
  region : CStr
  offset : Option RivU32
  deriving DecidableEq, Repr

/-- `def_t`. -/
structure DefT where
  name : CStr
  value : RivU32
  deriving DecidableEq, Repr

/-- The variables that the script sets. -/
structure Layout where
  regs : List RegionT := []
  places : List PlaceT := []
  defs : List DefT := []
  entry : CStr := "_start".toList
  output : CStr := "image.bin".toList
  defaultFill : RivU8 := 0
  lineNo : ℕ := 0
  deriving DecidableEq, Repr

/-- How `rivet-ld` ends without an image: `die` with its line, message and
argument, a failure that `link_image` reports, or a store outside the image. -/
inductive LdStop where
  | die (line : ℕ) (msg : String) (x : Option CStr)
  | failed
  | fault
  deriving DecidableEq, Repr

def Layout.die {α : Type} (lay : Layout) (msg : String) (x : Option CStr) : Except LdStop α :=
  .error (.die lay.lineNo msg x)

/-- `parse_num`. -/
def parseNum (lay : Layout) (s : CStr) : Except LdStop RivU32 :=
  if s = [] then lay.die "expected number" none
  else
    let (v, rest) := strtoul s 0
    let (v, rest) := match rest with
      | 'K' :: rest | 'k' :: rest => (v * 1024 % 2 ^ 64, rest)
      | 'M' :: rest | 'm' :: rest => (v * (1024 * 1024) % 2 ^ 64, rest)
      | rest => (v, rest)
    match rest with
    | [] => .ok (BitVec.ofNat 32 v)
    | c :: _ => if isSpace c then .ok (BitVec.ofNat 32 v) else lay.die "bad number:" (some s)

/-- `find_region`: the first region of that name, with its index. -/
def findRegion (regs : List RegionT) (n : CStr) : Option (ℕ × RegionT) :=
  (regs.findIdx? fun r => r.name = n).bind fun i => regs[i]?.map fun r => (i, r)

/-! ## Lines -/

def isBlank (c : Char) : Bool := c = ' ' || c = '\t' || c = '=' || c = ','

def endsToken (c : Char) : Bool := isBlank c || c = '\n' || c = '\r'

/-- `tokenize`, with `n` tokens found so far. -/
def tokenizeFrom (lay : Layout) (n : ℕ) (p : CStr) : Except LdStop (List CStr) :=
  match _h : p.dropWhile isBlank with
  | [] => .ok []
  | c :: cs =>
    if c = '#' ∨ c = '\n' ∨ c = '\r' then .ok []
    else if maxTokens ≤ n then lay.die "too many tokens" none
    else do
      let toks ←
        (match _hs : (c :: cs).dropWhile (fun c => !endsToken c) with
        | [] => .ok []
        | _ :: rest => tokenizeFrom lay (n + 1) rest)
      .ok ((c :: cs).takeWhile (fun c => !endsToken c) :: toks)
termination_by p.length
decreasing_by
  have h₁ := (List.dropWhile_suffix isBlank (l := p)).length_le
  have h₂ := (List.dropWhile_suffix (fun c => !endsToken c) (l := c :: cs)).length_le
  rw [_hs, List.length_cons] at h₂
  rw [_h] at h₁
  omega

def tokenize (lay : Layout) (line : CStr) : Except LdStop (List CStr) := tokenizeFrom lay 0 line

/-- `kv_lookup`: the token after the first `k`. -/
def kvLookup (k : String) : List CStr → Option CStr
  | t :: v :: ts => if t = k.toList then some v else kvLookup k (v :: ts)
  | _ => none

/-- The directive `region`. -/
def parseRegion (lay : Layout) (t : List CStr) : Except LdStop Layout :=
  match t with
  | _ :: name :: _ =>
    if maxRegions ≤ lay.regs.length then lay.die "too many regions" none
    else
      let name := strncpyTo 32 name
      match kvLookup "origin" t, kvLookup "length" t with
      | some org, some len => do
        let origin ← parseNum lay org
        let length ← parseNum lay len
        let fill ← match kvLookup "fill" t with
          | some fl => do
            let v ← parseNum lay fl
            .ok (v.setWidth 8)
          | none => .ok lay.defaultFill
        .ok { lay with regs := lay.regs ++ [⟨name, origin, length, fill⟩] }
      | _, _ => lay.die "region needs origin and length" (some name)
  | _ => lay.die "region needs name" none

/-- The directive `place`. -/
def parsePlace (lay : Layout) (t : List CStr) : Except LdStop Layout :=
  match t with
  | _ :: file :: word :: region :: more =>
    if maxPlaces ≤ lay.places.length then lay.die "too many places" none
    else if word ≠ "in".toList then lay.die "expected 'in':" (some word)
    else do
      let offset ← match more with
        | word :: off :: _ =>
          if word = "at".toList then do
            let off ← parseNum lay off
            .ok (some off)
          else .ok none
        | _ => .ok none
      .ok { lay with
        places := lay.places ++ [⟨strncpyTo 256 file, strncpyTo 32 region, offset⟩] }
  | _ => lay.die "place: bad syntax" none

/-- `parse_line`. -/
def parseLine (lay : Layout) (line : CStr) : Except LdStop Layout := do
  match ← tokenize lay line with
  | [] => .ok lay
  | d :: args =>
    if d = "entry".toList then
      match args with
      | a :: _ => .ok { lay with entry := strncpyTo 64 a }
      | [] => lay.die "entry needs arg" none
    else if d = "fill".toList then
      match args with
      | a :: _ => do
        let v ← parseNum lay a
        .ok { lay with defaultFill := v.setWidth 8 }
      | [] => lay.die "fill needs arg" none
    else if d = "output".toList then
      match args with
      | a :: _ => .ok { lay with output := strncpyTo 256 a }
      | [] => lay.die "output needs path" none
    else if d = "define".toList then
      match args with
      | name :: value :: _ =>
        if maxDefs ≤ lay.defs.length then lay.die "too many defines" none
        else do
          let v ← parseNum lay value
          .ok { lay with defs := lay.defs ++ [⟨strncpyTo 64 name, v⟩] }
      | _ => lay.die "define needs name and value" none
    else if d = "region".toList then parseRegion lay (d :: args)
    else if d = "place".toList then parsePlace lay (d :: args)
    else lay.die "unknown directive:" (some d)

/-- `parse_script`, with the contents of the script.  Its lines are read into an
array of the size that the assembler has. -/
def parseScript (text : List Char) : Except LdStop Layout :=
  (Assembler.fileLines text).foldlM
    (fun lay line => parseLine { lay with lineNo := lay.lineNo + 1 } line) {}

end Rivet.Linker
