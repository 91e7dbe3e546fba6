import Rivet.Core
import Rivet.Support.Xorshift

/-!
# Pseudo-random numbers

The generator of `rand.h`: a 64-bit word, seeded through one step of splitmix64 and
moved on by three xorshifts, whose value is scrambled by a multiplication.
-/

namespace Rivet.Rand

open Function

structure RivRng where
  state : RivU64

/-- `riv_splitmix64`: the value, and the state behind it. -/
def rivSplitmix64 (s : RivU64) : RivU64 × RivU64 :=
  let s := s + 0x9E3779B97F4A7C15
  let z := (s ^^^ s >>> 30) * 0xBF58476D1CE4E5B9
  let z := (z ^^^ z >>> 27) * 0x94D049BB133111EB
  (z ^^^ z >>> 31, s)

def rivRngSeed (seed : RivU64) : RivRng :=
  let state := (rivSplitmix64 seed).1
  if state = 0 then ⟨1⟩ else ⟨state⟩

def rivRngNext (r : RivRng) : RivU64 × RivRng :=
  let x := r.state
  let x := x ^^^ x <<< 13
  let x := x ^^^ x >>> 7
  let x := x ^^^ x <<< 17
  (x * 0x2545F4914F6CDD1D, ⟨x⟩)

def rivRngU32 (r : RivRng) : RivU32 × RivRng :=
  ((rivRngNext r).1.setWidth 32, (rivRngNext r).2)

/-- `riv_rng_range`: no number is drawn where the bound is zero. -/
def rivRngRange (r : RivRng) (bound : RivU32) : RivU32 × RivRng :=
  if bound = 0 then (0, r)
  else
    let m : RivU64 := (rivRngU32 r).1.setWidth 64 * bound.setWidth 64
    ((m >>> 32).setWidth 32, (rivRngU32 r).2)

/-! ## The states -/

/-- A draw from the generator. -/
inductive Draw where
  | next
  | u32
  | range (bound : RivU32)

def Draw.after (r : RivRng) : Draw → RivRng
  | .next => (rivRngNext r).2
  | .u32 => (rivRngU32 r).2
  | .range bound => (rivRngRange r bound).2

theorem rivRngNext_injective : Injective fun r => (rivRngNext r).2 := by
  rintro ⟨x⟩ ⟨y⟩ h
  have hleft := Xorshift.injective_xor_shiftLeft (w := 64) (k := 13) (by decide)
  have hright := Xorshift.injective_xor_shiftRight (w := 64) (k := 7) (by decide)
  have hlast := Xorshift.injective_xor_shiftLeft (w := 64) (k := 17) (by decide)
  exact congrArg RivRng.mk (hleft (hright (hlast (congrArg RivRng.state h))))

theorem rivRngNext_ne_zero {r : RivRng} (h : r.state ≠ 0) : (rivRngNext r).2.state ≠ 0 := by
  intro hzero
  have hstuck : (rivRngNext ⟨0⟩).2 = ⟨0⟩ := rfl
  have hsame : (rivRngNext r).2 = (rivRngNext ⟨0⟩).2 := by rw [hstuck, ← hzero]
  exact h (congrArg RivRng.state (rivRngNext_injective hsame))

theorem rivRngSeed_ne_zero (seed : RivU64) : (rivRngSeed seed).state ≠ 0 := by
  simp only [rivRngSeed]
  split
  · decide
  · next hne => exact hne

theorem Draw.after_eq (r : RivRng) (d : Draw) : d.after r = (rivRngNext r).2 ∨ d.after r = r := by
  cases d with
  | next => exact .inl rfl
  | u32 => exact .inl rfl
  | range bound =>
    simp only [Draw.after, rivRngRange]
    split
    · exact .inr rfl
    · exact .inl rfl

theorem draws_ne_zero (seed : RivU64) (draws : List Draw) :
    (draws.foldl Draw.after (rivRngSeed seed)).state ≠ 0 := by
  induction draws using List.reverseRecOn with
  | nil =>
    rw [List.foldl_nil]
    exact rivRngSeed_ne_zero seed
  | append_singleton draws d ih =>
    rw [List.foldl_concat]
    obtain hstep | hsame := d.after_eq (draws.foldl Draw.after (rivRngSeed seed))
    · rw [hstep]
      exact rivRngNext_ne_zero ih
    · rwa [hsame]

theorem finite_rivRng : Finite RivRng :=
  Finite.of_injective RivRng.state fun ⟨_⟩ ⟨_⟩ h => congrArg RivRng.mk h

/-! ## Ranges -/

theorem rivRngRange_lt (r : RivRng) {bound : RivU32} (h : 0 < bound) :
    (rivRngRange r bound).1 < bound := by
  have hpos : 0 < bound.toNat := h
  have hne : bound ≠ 0 := by
    rintro rfl
    exact absurd hpos (by decide)
  have hx := (rivRngU32 r).1.isLt
  have hb := bound.isLt
  have hprod : (rivRngU32 r).1.toNat * bound.toNat < 2 ^ 32 * bound.toNat :=
    Nat.mul_lt_mul_of_pos_right hx hpos
  have hfits : 2 ^ 32 * bound.toNat ≤ 2 ^ 32 * 2 ^ 32 := Nat.mul_le_mul_left _ hb.le
  rw [rivRngRange, if_neg hne, BitVec.lt_def, BitVec.toNat_setWidth, BitVec.toNat_ushiftRight,
    BitVec.toNat_mul, BitVec.toNat_setWidth, BitVec.toNat_setWidth, Nat.shiftRight_eq_div_pow,
    Nat.mod_eq_of_lt (a := (rivRngU32 r).1.toNat) (by omega),
    Nat.mod_eq_of_lt (a := bound.toNat) (by omega), Nat.mod_eq_of_lt (b := 2 ^ 64) (by omega)]
  omega

/-- From every seed the states stay away from zero; the step is injective, so that
every state comes again; and a range is never left. -/
theorem rng_never_stuck (seed : RivU64) (draws : List Draw) :
    (draws.foldl Draw.after (rivRngSeed seed)).state ≠ 0 ∧ Injective (fun r => (rivRngNext r).2) ∧
      (∀ r : RivRng, ∃ p > 0, (fun r => (rivRngNext r).2)^[p] r = r) ∧
      ∀ (r : RivRng) (bound : RivU32), 0 < bound → (rivRngRange r bound).1 < bound := by
  have := finite_rivRng
  refine ⟨draws_ne_zero seed draws, rivRngNext_injective, fun r => ?_, fun r _ => rivRngRange_lt r⟩
  exact rivRngNext_injective.mem_periodicPts r

end Rivet.Rand
