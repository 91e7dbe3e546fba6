import Rivet.Disassembler.Basic
import Rivet.Support.Crc

/-!
# CRC trailers

`rivet-img` pads an image and appends the CRC-32 of what comes before; the boot
code checks it with `crc.h`.  The two loops are written separately, on the host
and in the runtime.
-/

namespace Rivet.Image

open Disassembler BitVec

/-! ## `crc.h` -/

def crc32Poly : RivU32 := 0xEDB88320

def rivCrc32Update (crc : RivU32) (data : List RivU8) : RivU32 :=
  ~~~(Crc.run crc32Poly (~~~crc) data)

def rivCrc32 (data : List RivU8) : RivU32 := rivCrc32Update 0 data

/-! ## `rivet-img.c` -/

def crc32Buf (p : List RivU8) : RivU32 := ~~~(Crc.run crc32Poly (~~~0) p)

def crcTrailer (m : List RivU8) : List RivU8 :=
  let crc := crc32Buf m
  [crc.setWidth 8, (crc >>> 8).setWidth 8, (crc >>> 16).setWidth 8, (crc >>> 24).setWidth 8]

/-- Why `rivet-img` writes nothing: the message about `--pad`, or a read past the
end of the buffer. -/
inductive ImgStop where
  | padTooSmall (pad : RivU32) (sz : ℕ)
  | fault
  deriving DecidableEq, Repr

/-- The variable `final` of `main`. -/
def imgFinal (sz : RivU32) (pad : Option RivU32) (addCrc : Bool) : RivU32 :=
  let final := pad.getD sz
  if addCrc ∧ final < sz + 4 then sz + 4 else final

/-- `main`: the bytes of the output file. -/
def rivetImg (input : List RivU8) (pad : Option RivU32) (fill : RivU32) (addCrc : Bool) :
    Except ImgStop (List RivU8) :=
  let sz : RivU32 := BitVec.ofNat 32 input.length
  let final := imgFinal sz pad addCrc
  if final < sz then .error (.padTooSmall (pad.getD 0) input.length)
  else if final.toNat < input.length then .error .fault
  else
    let image := input ++ List.replicate (final.toNat - input.length) (fill.setWidth 8)
    if addCrc then
      let m := image.take (final - 4).toNat
      .ok (m ++ crcTrailer m)
    else .ok image

/-! ## The trailer -/

theorem rivCrc32Update_append (crc : RivU32) (a b : List RivU8) :
    rivCrc32Update (rivCrc32Update crc a) b = rivCrc32Update crc (a ++ b) := by
  simp [rivCrc32Update, BitVec.not_not, Crc.run_append]

theorem joinU32_bytes (v : RivU32) :
    joinU32 (v.setWidth 8) ((v >>> 8).setWidth 8) ((v >>> 16).setWidth 8)
      ((v >>> 24).setWidth 8) = v := by
  ext i hi
  simp only [joinU32, getElem_or, getElem_shiftLeft, getElem_setWidth,
    getLsbD_setWidth, getLsbD_ushiftRight]
  grind

theorem rivCrc32_append_crcTrailer (m : List RivU8) :
    rivCrc32 (m ++ crcTrailer m) = 0x2144DF1C := by
  have hword : Crc.word 32 (crcTrailer m) = ~~~(Crc.run crc32Poly (~~~0) m) :=
    Crc.word_bytes (crc32Buf m)
  have hlen : 8 * (crcTrailer m).length = 32 := rfl
  have hresidue : ~~~(Crc.shifts crc32Poly 32 (BitVec.allOnes 32)) = 0x2144DF1C := by decide
  rw [rivCrc32, rivCrc32Update, Crc.run_append, Crc.run_not _ _ hlen hword, hresidue]

theorem rivetImg_crcTrailer {input : List RivU8} {pad : Option RivU32} {fill : RivU32}
    {out : List RivU8} (h : rivetImg input pad fill true = .ok out) :
    ∃ m, out = m ++ crcTrailer m := by
  simp only [rivetImg] at h
  split at h
  · cases h
  split at h
  · cases h
  · cases h
    exact ⟨_, rfl⟩

/-- The trailer `t` of an image `m` is the value the runtime computes over `m`, a
check over `m ++ t` gives the fixed residue, and a check in two parts agrees with
the one over the whole. -/
theorem crc_trailer_verifies (m : List RivU8) :
    (∃ b₀ b₁ b₂ b₃, crcTrailer m = [b₀, b₁, b₂, b₃] ∧ rivCrc32 m = joinU32 b₀ b₁ b₂ b₃) ∧
      rivCrc32 (m ++ crcTrailer m) = 0x2144DF1C ∧
      (∀ a b, rivCrc32Update (rivCrc32Update 0 a) b = rivCrc32 (a ++ b)) ∧
      ∀ pad fill out, rivetImg m pad fill true = .ok out →
        ∃ image, out = image ++ crcTrailer image := by
  refine ⟨⟨_, _, _, _, rfl, ?_⟩, rivCrc32_append_crcTrailer m, rivCrc32Update_append 0, ?_⟩
  · rw [joinU32_bytes]
    rfl
  · intro pad fill out hout
    exact rivetImg_crcTrailer hout

/-- The usual check string, whose CRC is `CBF43926`. -/
theorem crc_trailer_verifies_digits :
    rivCrc32 [0x31, 0x32, 0x33, 0x34, 0x35, 0x36, 0x37, 0x38, 0x39] = 0xCBF43926 ∧
      rivCrc32 ([0x31, 0x32, 0x33, 0x34, 0x35, 0x36, 0x37, 0x38, 0x39] ++
        crcTrailer [0x31, 0x32, 0x33, 0x34, 0x35, 0x36, 0x37, 0x38, 0x39]) = 0x2144DF1C :=
  ⟨by decide +kernel, (crc_trailer_verifies _).2.1⟩

end Rivet.Image
