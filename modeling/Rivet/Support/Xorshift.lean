import Mathlib

/-!
# Xorshift steps

A word xored with its own shift determines the word: the bits that the shift leaves
alone are read off, and each of the others follows from one that is known already.
Steps of this kind permute the words, so that a generator made of them runs in
circles and is never caught by zero.
-/

namespace Xorshift

variable {w k : ℕ}

theorem injective_xor_shiftLeft (hk : 0 < k) :
    Function.Injective fun x : BitVec w => x ^^^ x <<< k := by
  intro x y h
  apply BitVec.eq_of_getLsbD_eq
  intro i
  induction i using Nat.strong_induction_on with
  | _ i ih =>
    intro hi
    have hbit : (x ^^^ x <<< k).getLsbD i = (y ^^^ y <<< k).getLsbD i :=
      congrArg (fun z => z.getLsbD i) h
    rw [BitVec.getLsbD_xor, BitVec.getLsbD_xor, BitVec.getLsbD_shiftLeft,
      BitVec.getLsbD_shiftLeft] at hbit
    by_cases hlow : i < k
    · simpa [hlow] using hbit
    · rw [ih (i - k) (by omega) (by omega)] at hbit
      exact Bool.xor_left_inj.mp hbit

theorem injective_xor_shiftRight (hk : 0 < k) :
    Function.Injective fun x : BitVec w => x ^^^ x >>> k := by
  intro x y h
  apply BitVec.eq_of_getLsbD_eq
  intro i hi
  induction hn : w - i using Nat.strong_induction_on generalizing i with
  | _ n ih =>
    have hbit : (x ^^^ x >>> k).getLsbD i = (y ^^^ y >>> k).getLsbD i :=
      congrArg (fun z => z.getLsbD i) h
    by_cases hhigh : k + i < w
    · simpa [ih (w - (k + i)) (by omega) (k + i) hhigh rfl] using hbit
    · simpa [BitVec.getLsbD_of_ge _ _ (not_lt.mp hhigh)] using hbit

end Xorshift
