import Mathlib.Tactic
import Rivet.Image.Fdt

/-!
# The device-tree walk on arbitrary blobs

`riv_fdt_walk` trusts the blob: it never compares the pointer with the size, and never
looks at the depth.  The walk is cut into tokens here, and the blobs it is safe on are
those whose structure block is well formed up to an END tag or an unknown one.
-/

namespace Rivet.Fdt

open Disassembler List Option

/-- `riv_fdt_size`. -/
def rivFdtSize (blob : List RivU8) : Option RivU32 := (takeBe32 (blob.drop 4)).map Prod.fst

/-! ## Tokens -/

/-- What one round of the loop reads, with the pointer after it; `skip` is a NOP tag or
a property, `other` a tag that the format does not have. -/
inductive Token where
  | stop
  | other
  | skip (rest : List RivU8)
  | beginNode (name rest : List RivU8)
  | endNode (rest : List RivU8)

/-- The token at a pointer, unless it runs off the end of the blob. -/
def token (p : List RivU8) : Option Token := do
  let (tag, p) ← takeBe32 p
  if tag = fdtEnd then some .stop
  else if tag = fdtNop then some (.skip p)
  else if tag = fdtBeginNode then
    (rivStrlen p).map fun len => .beginNode (p.take len) (p.drop (4 * ((len + 4) / 4)))
  else if tag = fdtEndNode then some (.endNode p)
  else if tag = fdtProp then
    (takeBe32 p).map fun (plen, p) => .skip ((p.drop 4).drop (4 * ((plen + 3) / 4).toNat))
  else some .other

/-- From a pointer on, at a depth, the blob has complete tokens that open nodes at depths
from zero on, up to an END tag at depth zero or, if it may, up to an unknown tag. -/
inductive Block (unknown : Prop) : ℤ → List RivU8 → Prop where
  | stop {p : List RivU8} (h : token p = some .stop) : Block unknown 0 p
  | other {d : ℤ} {p : List RivU8} (hunknown : unknown) (h : token p = some .other) :
      Block unknown d p
  | skip {d : ℤ} {p rest : List RivU8} (h : token p = some (.skip rest))
      (hrest : Block unknown d rest) : Block unknown d p
  | beginNode {d : ℤ} {p name rest : List RivU8} (h : token p = some (.beginNode name rest))
      (hd : 0 ≤ d) (hrest : Block unknown (d + 1) rest) : Block unknown d p
  | endNode {d : ℤ} {p rest : List RivU8} (h : token p = some (.endNode rest))
      (hrest : Block unknown (d - 1) rest) : Block unknown d p

/-- What the loop did from a pointer and a depth on: it returned, with zero behind a
well-formed block only and otherwise with `-1` or what the callback asked for, and called
the callback at depths from zero on with names that end inside the blob. -/
structure Safe {σ : Type} (cb : VisitFn σ) (blob p : List RivU8) (d : ℤ) (w : Walk σ) :
    Prop where
  returns : ∃ r, w.outcome = .returned r ∧ (r = 0 → Block False d p) ∧
    (r ≠ 0 → r = -1 ∨ ∃ name depth ctx, (cb name depth ctx).1 = r)
  visits : ∀ v ∈ w.visits, 0 ≤ v.2.toInt ∧ (0 : RivU8) ∉ v.1 ∧ v.1 ++ [0] <:+: blob

def WalkSafe (blob : List RivU8) : Prop :=
  ∀ (σ : Type) (cb : VisitFn σ) (ctx : σ), ∃ off rest,
    takeBe32 (blob.drop 8) = some (off, rest) ∧
      Safe cb blob (blob.drop off.toNat) 0 (rivFdtWalk cb blob ctx)

/-- The header is complete, and the structure block well formed up to its end or to an
unknown tag. -/
def WellFormedBlob (blob : List RivU8) : Prop :=
  ∃ off rest, takeBe32 (blob.drop 8) = some (off, rest) ∧ Block True 0 (blob.drop off.toNat)

theorem takeBe32_eq_some {p rest : List RivU8} {v : RivU32} (h : takeBe32 p = some (v, rest)) :
    rest <:+ p ∧ rest.length + 4 = p.length := by
  obtain ⟨⟨u, rest'⟩, hword, heq⟩ := map_eq_some_iff.mp h
  cases heq
  rw [readWord.eq_def] at hword
  split at hword
  · cases hword
    exact ⟨suffix_append [_, _, _, _] rest, rfl⟩
  · cases hword

theorem rivStrlen_eq_some {p : List RivU8} {len : ℕ} (h : rivStrlen p = some len) :
    (0 : RivU8) ∉ p.take len ∧ p.take len ++ [0] <+: p := by
  induction p generalizing len with
  | nil => cases h
  | cons c p ih =>
    rw [rivStrlen] at h
    split at h
    · next hc =>
      cases h
      simp [hc]
    grind [map_eq_some_iff.mp]

def MovedOn (p rest : List RivU8) : Prop := rest <:+ p ∧ rest.length + 4 ≤ p.length

section Tokens

variable {p : List RivU8}

theorem token_spec {t : Token} (h : token p = some t) : match t with
    | .stop | .other => True
    | .skip rest | .endNode rest => MovedOn p rest
    | .beginNode name rest => MovedOn p rest ∧ (0 : RivU8) ∉ name ∧ name ++ [0] <:+: p := by
  obtain ⟨⟨tag, q⟩, htag, h⟩ := bind_eq_some_iff.mp h
  obtain ⟨hq, hlen⟩ := takeBe32_eq_some htag
  have hmoved {rest : List RivU8} (hrest : rest <:+ q) : MovedOn p rest := by
    have := hrest.length_le
    exact ⟨hrest.trans hq, by omega⟩
  dsimp only at h
  split_ifs at h
  · cases h
    trivial
  · cases h
    exact hmoved (suffix_refl _)
  · obtain ⟨len, hstrlen, rfl⟩ := map_eq_some_iff.mp h
    obtain ⟨hnul, hpre⟩ := rivStrlen_eq_some hstrlen
    exact ⟨hmoved (drop_suffix ..), hnul, hpre.isInfix.trans hq.isInfix⟩
  · cases h
    exact hmoved (suffix_refl _)
  · obtain ⟨⟨plen, q'⟩, hplen, rfl⟩ := map_eq_some_iff.mp h
    exact hmoved ((drop_suffix ..).trans
      ((drop_suffix ..).trans (takeBe32_eq_some hplen).1))
  · cases h
    trivial

theorem walkLoop_token {σ : Type} (cb : VisitFn σ) (fuel : ℕ) (depth : RivI32) (ctx : σ) :
    walkLoop cb (fuel + 1) p depth ctx = match token p with
      | none => ⟨.readsOutside, [], ctx⟩
      | some .stop => ⟨.returned 0, [], ctx⟩
      | some .other => ⟨.returned (-1), [], ctx⟩
      | some (.skip rest) => walkLoop cb fuel rest depth ctx
      | some (.beginNode name rest) =>
        Walk.visiting cb name depth ctx (walkLoop cb fuel rest (depth + 1))
      | some (.endNode rest) => walkLoop cb fuel rest (depth - 1) ctx := by
  rw [walkLoop, token]
  cases takeBe32 p with
  | none => rfl
  | some r =>
    simp only [bind_eq_bind, bind_some]
    split_ifs
    · rfl
    · rfl
    · cases rivStrlen r.2 <;> rfl
    · rfl
    · cases takeBe32 r.2 <;> rfl
    · rfl

theorem Block.inv {d : ℤ} (h : Block False d p) : match token p with
    | some .stop => d = 0
    | some (.skip rest) => Block False d rest
    | some (.beginNode _ rest) => Block False (d + 1) rest
    | some (.endNode rest) => Block False (d - 1) rest
    | _ => False := by
  cases h with
  | stop h => rw [h]
  | other hunknown h => exact hunknown.elim
  | skip h hrest => rwa [h]
  | beginNode h hd hrest => rwa [h]
  | endNode h hrest => rwa [h]

end Tokens

/-! ## The walk -/

section Walks

variable {blob p : List RivU8} {d : ℤ}

theorem toInt_ofInt_depth (h : 4 * d.natAbs < 2 ^ 32) : (BitVec.ofInt 32 d).toInt = d := by grind

theorem ofInt_succ (d : ℤ) : BitVec.ofInt 32 d + 1 = BitVec.ofInt 32 (d + 1) := by
  rw [BitVec.ofInt_add]
  rfl

theorem ofInt_pred (d : ℤ) : BitVec.ofInt 32 d - 1 = BitVec.ofInt 32 (d - 1) := by
  rw [sub_eq_add_neg d, BitVec.ofInt_add, BitVec.sub_eq_add_neg]
  rfl

section Safety

variable {σ : Type} {cb : VisitFn σ} {rest : List RivU8} {d' : ℤ} {w : Walk σ}

theorem Safe.of_rest (h : Safe cb blob rest d' w) (hblock : Block False d' rest → Block False d p) :
    Safe cb blob p d w := by
  obtain ⟨⟨r, hr, hzero, hne⟩, hvisits⟩ := h
  exact ⟨⟨r, hr, fun h0 => hblock (hzero h0), hne⟩, hvisits⟩

theorem Safe.visiting {name : List RivU8} {depth : RivI32} {next : σ → Walk σ}
    (hname : 0 ≤ depth.toInt ∧ (0 : RivU8) ∉ name ∧ name ++ [0] <:+: blob)
    (h : ∀ ctx, Safe cb blob p d (next ctx)) (ctx : σ) :
    Safe cb blob p d (Walk.visiting cb name depth ctx next) := by
  unfold Walk.visiting
  dsimp only
  split
  · next hr =>
    refine ⟨⟨_, rfl, fun h0 => absurd h0 hr, fun _ => .inr ⟨name, depth, ctx, rfl⟩⟩, ?_⟩
    exact fun v hv => by rwa [mem_singleton.mp hv]
  · obtain ⟨hreturns, hvisits⟩ := h (cb name depth ctx).2
    exact ⟨hreturns, forall_mem_cons.mpr ⟨hname, hvisits⟩⟩

theorem Block.safe (h : Block True d p) (hp : p <:+: blob)
    (hdepth : 4 * d.natAbs + p.length < 2 ^ 32) {fuel : ℕ} (hfuel : p.length < fuel) (ctx : σ) :
    Safe cb blob p d (walkLoop cb fuel p (BitVec.ofInt 32 d) ctx) := by
  induction fuel generalizing p d ctx with
  | zero => exact absurd hfuel (Nat.not_lt_zero _)
  | succ fuel ih =>
    rw [walkLoop_token]
    cases h with
    | stop h =>
      rw [h]
      exact ⟨⟨0, rfl, fun _ => .stop h, fun hr => absurd rfl hr⟩, nofun⟩
    | other _ h =>
      rw [h]
      exact ⟨⟨-1, rfl, nofun, fun _ => .inl rfl⟩, nofun⟩
    | skip h hrest =>
      obtain ⟨hsuffix, hlen⟩ := token_spec h
      rw [h]
      refine (ih hrest (hsuffix.isInfix.trans hp) ?_ ?_ ctx).of_rest (.skip h)
      · omega
      · omega
    | beginNode h hd hrest =>
      obtain ⟨⟨hsuffix, hlen⟩, hnul, hname⟩ := token_spec h
      rw [h]
      rw [ofInt_succ]
      refine Safe.visiting ⟨?_, hnul, hname.trans hp⟩ (fun ctx => ?_) ctx
      · rwa [toInt_ofInt_depth (by omega)]
      · refine (ih hrest (hsuffix.isInfix.trans hp) ?_ ?_ ctx).of_rest (.beginNode h hd)
        · omega
        · omega
    | endNode h hrest =>
      obtain ⟨hsuffix, hlen⟩ := token_spec h
      rw [h]
      rw [ofInt_pred]
      refine (ih hrest (hsuffix.isInfix.trans hp) ?_ ?_ ctx).of_rest (.endNode h)
      · omega
      · omega

theorem block_of_safe (hcb : ∀ name depth ctx, (cb name depth ctx).1 = 0)
    (hdepth : 4 * d.natAbs + p.length < 2 ^ 32) {fuel : ℕ} {ctx : σ}
    (h : Safe cb blob p d (walkLoop cb fuel p (BitVec.ofInt 32 d) ctx)) : Block True d p := by
  induction fuel generalizing p d ctx with
  | zero =>
    obtain ⟨⟨r, hr, -⟩, -⟩ := h
    cases hr
  | succ fuel ih =>
    rw [walkLoop_token] at h
    obtain ⟨⟨r, hr, hzero, hne⟩, hvisits⟩ := h
    have hinv := fun h0 => (hzero h0).inv
    cases htoken : token p with
    | none =>
      rw [htoken] at hr
      cases hr
    | some t =>
      rw [htoken] at hr hvisits hinv
      have hspec := token_spec htoken
      cases t with
      | stop =>
        cases hr
        obtain rfl : d = 0 := hinv rfl
        exact .stop htoken
      | other => exact .other trivial htoken
      | skip rest =>
        have := hspec.2
        exact .skip htoken (ih (by omega) ⟨⟨r, hr, hinv, hne⟩, hvisits⟩)
      | beginNode name rest =>
        obtain ⟨⟨-, hlen⟩, -⟩ := hspec
        simp only [Walk.visiting, hcb, ne_eq, not_true_eq_false, if_false, ofInt_succ] at hr hvisits
        obtain ⟨⟨hd, -⟩, hvisits⟩ := forall_mem_cons.mp hvisits
        rw [toInt_ofInt_depth (by omega)] at hd
        exact .beginNode htoken hd (ih (by omega) ⟨⟨r, hr, hinv, hne⟩, hvisits⟩)
      | endNode rest =>
        have := hspec.2
        simp only [ofInt_pred] at hr hvisits
        exact .endNode htoken (ih (by omega) ⟨⟨r, hr, hinv, hne⟩, hvisits⟩)

end Safety

end Walks

end Rivet.Fdt
