import Rivet.Core
import Rivet.Support.ByteMem

/-!
# Words in memory

The machine words of the two word sizes, as they lie in memory.
-/

namespace Rivet

open ByteMem

/-- The size of a pointer and of `riv_size`. -/
def WordBits.bytes : WordBits → ℕ
  | .bits32 => 4
  | .bits64 => 8

namespace Alloc

variable {wb : WordBits} {m m' : Bytes} {a b : ℕ}

def loadWord (m : Bytes) (a : ℕ) : BitVec wb.width := BitVec.ofNat _ (load wb.bytes m a)

def storeWord (m : Bytes) (a : ℕ) (v : BitVec wb.width) : Bytes := store wb.bytes m a v.toNat

theorem pow_bytes (wb : WordBits) : 256 ^ wb.bytes = 2 ^ wb.width := by
  cases wb with
  | bits32 => rfl
  | bits64 => rfl

theorem loadWord_storeWord_self (m : Bytes) (a : ℕ) (v : BitVec wb.width) :
    loadWord (storeWord m a v) a = v := by
  rw [loadWord, storeWord, load_store_self, pow_bytes, Nat.mod_eq_of_lt v.isLt, BitVec.ofNat_toNat,
    BitVec.setWidth_eq]

theorem loadWord_congr (h : ∀ x, a ≤ x → x < a + wb.bytes → m x = m' x) :
    (loadWord m a : BitVec wb.width) = loadWord m' a := by rw [loadWord, loadWord, load_congr h]

theorem loadWord_storeWord_of_disjoint (v : BitVec wb.width)
    (h : a + wb.bytes ≤ b ∨ b + wb.bytes ≤ a) :
    (loadWord (storeWord m a v) b : BitVec wb.width) = loadWord m b := by
  rw [loadWord, loadWord, storeWord, load_store_of_disjoint h]

end Alloc
end Rivet
