import Rivet.Image.Crc
import Rivet.Support.CrcBits

/-!
# Bursts

`crc.h` has a reflected CRC of 32 bits, one of 16 bits that shifts towards the top,
and a reflected one of 8 bits.  Each tells messages of one length apart that differ
only within a window of as many bits as its register has, wherever the window lies:
the window is counted in the order in which the bits are shifted in.
-/

namespace Rivet.Image

/-! ## `crc.h` -/

def crc16Shift (crc : RivU16) : RivU16 :=
  if crc &&& 0x8000 ≠ 0 then (crc <<< 1) ^^^ 0x1021 else crc <<< 1

def rivCrc16Update (crc : RivU16) (data : List RivU8) : RivU16 :=
  data.foldl (fun crc (b : RivU8) => crc16Shift^[8] (crc ^^^ (b.setWidth 16 <<< (8 : ℕ)))) crc

def rivCrc16 (data : List RivU8) : RivU16 := rivCrc16Update 0xFFFF data

def crc8Shift (crc : RivU8) : RivU8 :=
  if crc &&& 1 ≠ 0 then (crc >>> 1) ^^^ 0x8C else crc >>> 1

def rivCrc8OneWire (data : List RivU8) : RivU8 :=
  data.foldl (fun crc b => crc8Shift^[8] (crc ^^^ b)) 0

/-! ## The registers -/

theorem crc16Shift_eq (crc : RivU16) : crc16Shift crc = Crc.shiftUp 0x1021 crc := by
  have hmask : crc &&& 0x8000 = if crc.getLsbD 15 then BitVec.twoPow 16 15 else 0 :=
    BitVec.and_twoPow crc 15
  have htop : crc &&& 0x8000 ≠ 0 ↔ crc.msb = true := by simp_all [BitVec.msb_eq_getLsbD_last]
  rw [crc16Shift, Crc.shiftUp]
  simp only [htop]

theorem rivCrc16_eq (data : List RivU8) : rivCrc16 data = Crc.runUp 0x1021 0xFFFF data := by
  have hshift : crc16Shift = Crc.shiftUp 0x1021 := funext crc16Shift_eq
  rw [rivCrc16, rivCrc16Update, hshift]
  rfl

theorem crc8Shift_eq (crc : RivU8) : crc8Shift crc = Crc.shift 0x8C crc := by
  revert crc
  decide +kernel

theorem rivCrc8OneWire_eq (data : List RivU8) : rivCrc8OneWire data = Crc.run 0x8C 0 data := by
  have hshift : crc8Shift = Crc.shift 0x8C := funext crc8Shift_eq
  have hfeed : (fun crc b => crc8Shift^[8] (crc ^^^ b)) = Crc.feed (0x8C : RivU8) := by
    funext crc b
    rw [hshift, Crc.feed, Crc.shifts_eq_iterate, BitVec.setWidth_eq]
  rw [rivCrc8OneWire, hfeed, Crc.run]

/-- Distinct messages of one length that differ only within a window of 32, 16 and
8 bits, in the order the register takes them, have different checks. -/
theorem crcs_detect_bursts (a b : List RivU8) (hlen : a.length = b.length) (hne : a ≠ b) :
    (Crc.DifferWithin 32 (a.flatMap Crc.lsbBits) (b.flatMap Crc.lsbBits) →
        rivCrc32 a ≠ rivCrc32 b) ∧
      (Crc.DifferWithin 16 (a.flatMap Crc.msbBits) (b.flatMap Crc.msbBits) →
        rivCrc16 a ≠ rivCrc16 b) ∧
      (Crc.DifferWithin 8 (a.flatMap Crc.lsbBits) (b.flatMap Crc.lsbBits) →
        rivCrc8OneWire a ≠ rivCrc8OneWire b) := by
  refine ⟨?_, ?_, ?_⟩
  · intro hwindow h
    have hrun := BitVec.not_inj.mp h
    exact Crc.run_burst (by decide) (by decide) hlen hne hwindow _ hrun
  · intro hwindow
    rw [rivCrc16_eq, rivCrc16_eq]
    exact Crc.runUp_burst (by decide) (by decide) hlen hne hwindow _
  · intro hwindow
    rw [rivCrc8OneWire_eq, rivCrc8OneWire_eq]
    exact Crc.run_burst (by decide) (by decide) hlen hne hwindow _

/-- The message `FF 00` against `7F 01`: the two bits around the border of the bytes,
in the order of the registers of 32 and of 8 bits. -/
theorem crcs_detect_bursts_border : rivCrc32 [0xFF, 0x00] ≠ rivCrc32 [0x7F, 0x01] ∧
      rivCrc8OneWire [0xFF, 0x00] ≠ rivCrc8OneWire [0x7F, 0x01] ∧
      rivCrc16 [0xFF, 0x00] ≠ rivCrc16 [0x7F, 0x01] := by
  have hlow (n : ℕ) (hn : 2 ≤ n) :
      Crc.DifferWithin n (List.flatMap Crc.lsbBits [0xFF, 0x00])
        (List.flatMap Crc.lsbBits [0x7F, 0x01]) :=
    Crc.differWithin_append (List.replicate 7 true) (List.replicate 7 false)
      (u := [true, false]) (v := [false, true]) rfl hn
  have hhigh : Crc.DifferWithin 16 (List.flatMap Crc.msbBits [0xFF, 0x00])
      (List.flatMap Crc.msbBits [0x7F, 0x01]) :=
    Crc.differWithin_append [] [] (u := Crc.msbBits 0xFF ++ Crc.msbBits 0x00)
      (v := Crc.msbBits 0x7F ++ Crc.msbBits 0x01) rfl (by decide)
  obtain ⟨h32, h16, h8⟩ := crcs_detect_bursts [0xFF, 0x00] [0x7F, 0x01] rfl (by decide)
  exact ⟨h32 (hlow 32 (by decide)), h8 (hlow 8 (by decide)), h16 hhigh⟩

end Rivet.Image
