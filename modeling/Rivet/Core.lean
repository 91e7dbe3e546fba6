/-!
# Fixed-width integers

The integer types of `core.h`, as words.
-/

namespace Rivet

abbrev RivU8 := BitVec 8
abbrev RivU16 := BitVec 16
abbrev RivU32 := BitVec 32
abbrev RivU64 := BitVec 64

/-- A C `int` or `riv_i32`, as its two's complement word; `BitVec.toInt` is
its value. -/
abbrev RivI32 := BitVec 32

/-- The values of `RIVET_WORD_BITS`, the width of an address and of `riv_size`. -/
inductive WordBits where
  | bits32
  | bits64
  deriving DecidableEq, Repr

def WordBits.width : WordBits → Nat
  | .bits32 => 32
  | .bits64 => 64

end Rivet
