import Rivet.Disassembler.Basic

/-!
# The walk over a flat device tree

`riv_fdt_walk` of `dt.h`.  A pointer into the blob is modelled by the bytes from
it on, and a read behind the last byte ends the model.  The tree is given apart
from the code, with its structure block: node names and property values padded
to four bytes, and NOP tags between any two tokens.
-/

namespace Rivet.Fdt

open Disassembler List

/-! ## The source -/

def rivFdtBe32 (v : RivU32) : RivU32 :=
  ((v >>> 24) &&& 0xFF) ||| ((v >>> 8) &&& 0xFF00) ||| ((v <<< 8) &&& 0xFF0000) |||
    ((v <<< 24) &&& 0xFF000000)

/-- The little-endian word at a pointer, and the pointer after it. -/
def readWord : List RivU8 → Option (RivU32 × List RivU8)
  | b₀ :: b₁ :: b₂ :: b₃ :: rest => some (joinU32 b₀ b₁ b₂ b₃, rest)
  | _ => none

/-- `riv_fdt_be32(*p++)`. -/
def takeBe32 (p : List RivU8) : Option (RivU32 × List RivU8) :=
  (readWord p).map fun (v, rest) => (rivFdtBe32 v, rest)

/-- `riv_strlen`. -/
def rivStrlen : List RivU8 → Option ℕ
  | [] => none
  | c :: s => if c = 0 then some 0 else (rivStrlen s).map (· + 1)

def fdtMagic : RivU32 := 0xD00DFEED
def fdtBeginNode : RivU32 := 0x1
def fdtEndNode : RivU32 := 0x2
def fdtProp : RivU32 := 0x3
def fdtNop : RivU32 := 0x4
def fdtEnd : RivU32 := 0x9

def rivFdtValid (blob : List RivU8) : Option Bool :=
  (takeBe32 blob).map fun (magic, _) => magic = fdtMagic

inductive Outcome where
  | returned (r : RivI32)
  | readsOutside
  | unfinished
  deriving DecidableEq, Repr

/-- The end of a walk, the names and depths given to the callback in order, and
the state that it has left in its context. -/
structure Walk (σ : Type) where
  outcome : Outcome
  visits : List (List RivU8 × RivI32)
  ctx : σ

abbrev VisitFn (σ : Type) := List RivU8 → RivI32 → σ → RivI32 × σ

section Source

variable {σ : Type} (cb : VisitFn σ)

/-- Call `cb`, and go on with `next` when it returns zero. -/
def Walk.visiting (name : List RivU8) (depth : RivI32) (ctx : σ) (next : σ → Walk σ) : Walk σ :=
  let (r, ctx) := cb name depth ctx
  if r ≠ 0 then ⟨.returned r, [(name, depth)], ctx⟩
  else { next ctx with visits := (name, depth) :: (next ctx).visits }

/-- The loop, for at most `fuel` tags. -/
def walkLoop : ℕ → List RivU8 → RivI32 → σ → Walk σ
  | 0, _, _, ctx => ⟨.unfinished, [], ctx⟩
  | fuel + 1, p, depth, ctx =>
    match takeBe32 p with
    | none => ⟨.readsOutside, [], ctx⟩
    | some (tag, p) =>
    if tag = fdtEnd then ⟨.returned 0, [], ctx⟩
    else if tag = fdtNop then walkLoop fuel p depth ctx
    else if tag = fdtBeginNode then
      match rivStrlen p with
      | none => ⟨.readsOutside, [], ctx⟩
      | some len =>
        Walk.visiting cb (p.take len) depth ctx
          (walkLoop fuel (p.drop (4 * ((len + 4) / 4))) (depth + 1))
    else if tag = fdtEndNode then walkLoop fuel p (depth - 1) ctx
    else if tag = fdtProp then
      match takeBe32 p with
      | none => ⟨.readsOutside, [], ctx⟩
      | some (plen, p) =>
        walkLoop fuel ((p.drop 4).drop (4 * ((plen + 3) / 4).toNat)) depth ctx
    else ⟨.returned (-1), [], ctx⟩

/-- `riv_fdt_walk`; a tag takes four bytes, so that the loop has at most as many
rounds as the blob has bytes. -/
def rivFdtWalk (blob : List RivU8) (ctx : σ) : Walk σ :=
  match rivFdtValid blob, takeBe32 (blob.drop 8) with
  | some true, some (off, _) => walkLoop cb (blob.length + 1) (blob.drop off.toNat) 0 ctx
  | some true, none => ⟨.readsOutside, [], ctx⟩
  | some false, _ => ⟨.returned (-1), [], ctx⟩
  | none, _ => ⟨.readsOutside, [], ctx⟩

end Source

/-! ## Device trees -/

abbrev Name := { s : List RivU8 // (0 : RivU8) ∉ s }

abbrev Value := { v : List RivU8 // v.length ≤ 2 ^ 32 - 4 }

/-- What stands inside a node: properties, nodes and NOP tags, in any order. -/
inductive Contents where
  | done
  | nop (rest : Contents)
  | prop (nameoff : RivU32) (value : Value) (rest : Contents)
  | node (name : Name) (inner rest : Contents)

/-- A tree, with NOP tags before and after its root. -/
structure DeviceTree where
  before : ℕ
  name : Name
  contents : Contents
  after : ℕ

def beU32 (v : RivU32) : List RivU8 :=
  [((v >>> 24) &&& 0xFF).setWidth 8, ((v >>> 16) &&& 0xFF).setWidth 8,
    ((v >>> 8) &&& 0xFF).setWidth 8, (v &&& 0xFF).setWidth 8]

def padding (n : ℕ) : List RivU8 := List.replicate ((4 - n % 4) % 4) 0

def Name.bytes (s : Name) : List RivU8 := s.val ++ 0 :: padding (s.val.length + 1)

def Value.bytes (v : Value) : List RivU8 := v.val ++ padding v.val.length

def Contents.bytes : Contents → List RivU8
  | .done => []
  | .nop rest => beU32 fdtNop ++ rest.bytes
  | .prop nameoff value rest =>
    beU32 fdtProp ++ beU32 (BitVec.ofNat 32 value.val.length) ++ beU32 nameoff ++
      value.bytes ++ rest.bytes
  | .node name inner rest =>
    beU32 fdtBeginNode ++ name.bytes ++ inner.bytes ++ beU32 fdtEndNode ++ rest.bytes

def Contents.nodes (depth : ℕ) : Contents → List (Name × ℕ)
  | .done => []
  | .nop rest => rest.nodes depth
  | .prop _ _ rest => rest.nodes depth
  | .node name inner rest => (name, depth) :: inner.nodes (depth + 1) ++ rest.nodes depth

def Contents.nops : ℕ → Contents → Contents
  | 0, c => c
  | n + 1, c => .nop (c.nops n)

def DeviceTree.all (t : DeviceTree) : Contents :=
  Contents.nops t.before (.node t.name t.contents (Contents.nops t.after .done))

def DeviceTree.block (t : DeviceTree) : List RivU8 := t.all.bytes ++ beU32 fdtEnd

/-- The nodes of the tree in pre-order; the root has depth zero. -/
def DeviceTree.nodes (t : DeviceTree) : List (Name × ℕ) :=
  (t.name, 0) :: t.contents.nodes 1

/-- The visits that are due: each node in order, until the callback returns a
value other than zero. -/
def visitAll {σ : Type} (cb : VisitFn σ) : List (Name × ℕ) → σ → (σ → Walk σ) → Walk σ
  | [], ctx, next => next ctx
  | (name, depth) :: nodes, ctx, next =>
    Walk.visiting cb name.val (BitVec.ofNat 32 depth) ctx fun ctx => visitAll cb nodes ctx next

/-! ## Words and padding -/

theorem rivFdtBe32_joinU32 (b₀ b1 b2 b3 : RivU8) :
    rivFdtBe32 (joinU32 b₀ b1 b2 b3) = joinU32 b3 b2 b1 b₀ := by
  apply BitVec.eq_of_getLsbD_eq
  intro i hi
  unfold rivFdtBe32 joinU32
  interval_cases i <;> simp

theorem takeBe32_beU32 (v : RivU32) (rest : List RivU8) :
    takeBe32 (beU32 v ++ rest) = some (v, rest) := by
  simp only [takeBe32, beU32, cons_append, nil_append, readWord, Option.map_some,
    rivFdtBe32_joinU32, joinU32_leU32]

theorem rivStrlen_append {s : List RivU8} (hs : (0 : RivU8) ∉ s) (rest : List RivU8) :
    rivStrlen (s ++ 0 :: rest) = some s.length := by
  induction s with
  | nil => rfl
  | cons c s ih => simp_all [not_or, rivStrlen, Ne.symm]

theorem rivStrlen_name (s : Name) (rest : List RivU8) :
    rivStrlen (s.bytes ++ rest) = some s.val.length := by
  rw [Name.bytes, append_assoc, cons_append]
  exact rivStrlen_append s.property _

theorem length_name (s : Name) : s.bytes.length = 4 * ((s.val.length + 4) / 4) := by
  simp only [Name.bytes, padding, length_append, length_cons, length_replicate]
  omega

theorem length_value (v : Value) :
    v.bytes.length = 4 * ((BitVec.ofNat 32 v.val.length + 3) / 4).toNat := by
  have hthree : BitVec.toNat (3 : RivU32) = 3 := rfl
  have hfour : BitVec.toNat (4 : RivU32) = 4 := rfl
  rw [BitVec.toNat_udiv, BitVec.toNat_add, BitVec.toNat_ofNat, hthree, hfour]
  simp only [Value.bytes, padding, length_append, length_replicate]
  omega

/-! ## The walk -/

section Walk

variable {σ : Type} (cb : VisitFn σ)

theorem visitAll_append (nodes nodes' : List (Name × ℕ)) (ctx : σ) (next : σ → Walk σ) :
    visitAll cb (nodes ++ nodes') ctx next =
      visitAll cb nodes ctx fun ctx => visitAll cb nodes' ctx next := by
  induction nodes generalizing ctx with
  | nil => rfl
  | cons n nodes ih => simp_all [visitAll]

variable (fuel : ℕ) (rest : List RivU8) (depth : RivI32) (ctx : σ)

theorem walkLoop_end :
    walkLoop cb (fuel + 1) (beU32 fdtEnd ++ rest) depth ctx = ⟨.returned 0, [], ctx⟩ := by rfl

theorem walkLoop_nop :
    walkLoop cb (fuel + 1) (beU32 fdtNop ++ rest) depth ctx = walkLoop cb fuel rest depth ctx := by
  rfl

theorem walkLoop_endNode : walkLoop cb (fuel + 1) (beU32 fdtEndNode ++ rest) depth ctx =
      walkLoop cb fuel rest (depth - 1) ctx := by rfl

theorem walkLoop_beginNode (name : Name) :
    walkLoop cb (fuel + 1) (beU32 fdtBeginNode ++ (name.bytes ++ rest)) depth ctx =
      Walk.visiting cb name.val depth ctx (walkLoop cb fuel rest (depth + 1)) := by
  rw [walkLoop, takeBe32_beU32]
  simp only [rivStrlen_name]
  have htake : (name.bytes ++ rest).take name.val.length = name.val := by simp [Name.bytes]
  rw [← length_name, drop_left, htake]
  rfl

theorem walkLoop_prop (nameoff : RivU32) (value : Value) :
    walkLoop cb (fuel + 1) (beU32 fdtProp ++ (beU32 (BitVec.ofNat 32 value.val.length) ++
        (beU32 nameoff ++ (value.bytes ++ rest)))) depth ctx = walkLoop cb fuel rest depth ctx := by
  rw [walkLoop, takeBe32_beU32]
  simp only [takeBe32_beU32]
  have hoff : (beU32 nameoff ++ (value.bytes ++ rest)).drop 4 = value.bytes ++ rest := rfl
  rw [hoff, ← length_value, drop_left]
  rfl

end Walk

def Contents.tags : Contents → ℕ
  | .done => 0
  | .nop rest => rest.tags + 1
  | .prop _ _ rest => rest.tags + 1
  | .node _ inner rest => inner.tags + (rest.tags + 1) + 1

theorem Contents.tags_le (c : Contents) : c.tags ≤ c.bytes.length := by
  induction c with
  | done => exact Nat.le_refl 0
  | nop | prop | node =>
    simp only [tags, bytes, length_append, beU32, length_cons, length_nil]
    omega

theorem walkLoop_contents {σ : Type} (cb : VisitFn σ) (c : Contents) (fuel : ℕ)
    (tail : List RivU8) (depth : ℕ) (ctx : σ) :
    walkLoop cb (c.tags + fuel) (c.bytes ++ tail) (BitVec.ofNat 32 depth) ctx =
      visitAll cb (c.nodes depth) ctx fun ctx =>
        walkLoop cb fuel tail (BitVec.ofNat 32 depth) ctx := by
  induction c generalizing fuel tail depth ctx with
  | done =>
    rw [Contents.tags, Nat.zero_add]
    rfl
  | nop rest ih =>
    rw [Contents.tags, Nat.add_right_comm, Contents.bytes, append_assoc, walkLoop_nop]
    exact ih fuel tail depth ctx
  | prop nameoff value rest ih =>
    simp only [Contents.tags, Nat.add_right_comm _ 1, Contents.bytes, append_assoc]
    rw [walkLoop_prop]
    exact ih fuel tail depth ctx
  | node name inner rest ihInner ihRest =>
    have hfuel : (Contents.node name inner rest).tags + fuel =
        inner.tags + (rest.tags + fuel + 1) + 1 := by
      rw [Contents.tags]
      omega
    simp only [hfuel, Contents.bytes, append_assoc]
    rw [walkLoop_beginNode, Contents.nodes, cons_append, visitAll]
    congr 1
    funext ctx
    -- one level down, back up at the end of the node, and on to its siblings
    have hdown : BitVec.ofNat 32 depth + 1 = BitVec.ofNat 32 (depth + 1) :=
      (BitVec.ofNat_add ..).symm
    have hup : BitVec.ofNat 32 (depth + 1) - 1 = BitVec.ofNat 32 depth := by
      rw [← hdown, BitVec.add_sub_cancel]
    simp_all [visitAll_append, walkLoop_endNode]

/-! ## Whole trees -/

theorem Contents.nodes_nops (n depth : ℕ) (c : Contents) :
    (c.nops n).nodes depth = c.nodes depth := by
  induction n with
  | zero => rfl
  | succ n ih => exact ih

theorem DeviceTree.nodes_all (t : DeviceTree) : t.all.nodes 0 = t.nodes := by
  rw [DeviceTree.all, Contents.nodes_nops, Contents.nodes, Contents.nodes_nops]
  exact append_nil _

theorem Contents.depth_le {c : Contents} {depth d : ℕ} {name : Name}
    (h : (name, d) ∈ c.nodes depth) : 12 * (d + 1) ≤ 12 * depth + c.bytes.length := by
  induction c generalizing depth with
  | done => cases h
  | nop _ ih | prop _ _ _ ih =>
    have := ih h
    simp only [bytes, length_append]
    omega
  | node name' inner rest ihInner ihRest =>
    have hname := length_name name'
    simp only [bytes, length_append, beU32, length_cons, length_nil]
    grind [Contents.nodes]

theorem DeviceTree.depth_lt {t : DeviceTree} (hsize : t.block.length < 2 ^ 32) {name : Name}
    {d : ℕ} (h : (name, d) ∈ t.nodes) : (BitVec.ofNat 32 d).toInt = d := by
  rw [← t.nodes_all] at h
  have hle := Contents.depth_le h
  grind [DeviceTree.block, BitVec.toInt_ofNat', Int.bmod_eq_of_le]

/-- The walk calls the callback for each node in pre-order, with its name and
depth, and returns zero at the end of the block or the first value of the
callback that is not.  In a block of less than `2 ^ 32` bytes every depth is
an `int`. -/
theorem rivFdtWalk_visits {σ : Type} (cb : VisitFn σ) (ctx : σ) (t : DeviceTree)
    {blob p rest : List RivU8} {off : RivU32} (hmagic : rivFdtValid blob = some true)
    (hoff : takeBe32 (blob.drop 8) = some (off, p))
    (hblock : blob.drop off.toNat = t.block ++ rest) :
    rivFdtWalk cb blob ctx = visitAll cb t.nodes ctx (fun ctx => ⟨.returned 0, [], ctx⟩) ∧
      (t.block.length < 2 ^ 32 →
        ∀ name d, (name, d) ∈ t.nodes → (BitVec.ofNat 32 d).toInt = d) := by
  refine ⟨?_, fun hsize name d h => DeviceTree.depth_lt hsize h⟩
  have hlen := congrArg List.length hblock
  have htags := t.all.tags_le
  simp only [List.length_drop, DeviceTree.block, List.length_append] at hlen
  obtain ⟨k, hk⟩ : ∃ k, blob.length + 1 = t.all.tags + (k + 1) :=
    ⟨blob.length - t.all.tags, by omega⟩
  rw [rivFdtWalk, hmagic, hoff]
  simp only
  rw [hblock, hk, DeviceTree.block, List.append_assoc, ← t.nodes_all]
  have hend : (fun ctx => walkLoop cb (k + 1) (beU32 fdtEnd ++ rest) (BitVec.ofNat 32 0) ctx) =
      fun ctx => ⟨.returned 0, [], ctx⟩ := funext fun ctx => walkLoop_end ..
  rw [← hend]
  exact walkLoop_contents cb t.all (k + 1) _ 0 ctx

/-- A root with a property of three bytes and a node `a`, NOP tags around. -/
def sampleTree : DeviceTree where
  before := 1
  name := ⟨[], by decide⟩
  contents := .prop 0 ⟨[1, 2, 3], by decide⟩ (.nop (.node ⟨[0x61], by decide⟩ .done .done))
  after := 1

def sampleBlob : List RivU8 :=
  beU32 fdtMagic ++ beU32 0 ++ beU32 12 ++ sampleTree.block

/-- The root and the node are visited at the depths 0 and 1. -/
theorem rivFdtWalk_visits_sample : rivFdtWalk (fun _ _ n => (0, n + 1)) sampleBlob 0 =
      ⟨.returned 0, [([], 0), ([0x61], 1)], 2⟩ := by
  have hmagic : rivFdtValid sampleBlob = some true := by decide
  have hoff : takeBe32 (sampleBlob.drop 8) = some (12, sampleTree.block) := by decide
  have hblock : sampleBlob.drop (12 : RivU32).toNat = sampleTree.block ++ [] := by decide
  exact (rivFdtWalk_visits (fun _ _ n => (0, n + 1)) 0 sampleTree hmagic hoff hblock).1

end Rivet.Fdt
