import Rivet.Image.Crc

/-!
# Padded images

What `rivet-img` is asked for, an image of the size given with `--pad` or an
error, and for which inputs it does that.  The size is computed in 32 bits, and
the trailer raises it without a look at `--pad`.
-/

namespace Rivet.Image

variable {addCrc : Bool} {size : RivU32} {len : ℕ}

def neededBytes (len : ℕ) (addCrc : Bool) : ℕ := len + if addCrc then 4 else 0

/-- The image of `size` bytes: the input, fill bytes, and the CRC of all that
comes before it. -/
def paddedImage (input : List RivU8) (size : ℕ) (fill : RivU8) (addCrc : Bool) : List RivU8 :=
  let body := input ++ List.replicate (size - neededBytes input.length addCrc) fill
  if addCrc then body ++ crcTrailer body else body

/-- The output is what was asked for. -/
structure MeetsRequest (input : List RivU8) (pad : Option RivU32) (fill : RivU32)
    (addCrc : Bool) : Prop where
  padded : ∀ size ∈ pad, ∀ out, rivetImg input pad fill addCrc = .ok out →
    out.length = size.toNat ∧ out = paddedImage input size.toNat (fill.setWidth 8) addCrc
  refused : ∀ size ∈ pad, size.toNat < neededBytes input.length addCrc →
    rivetImg input pad fill addCrc = .error (.padTooSmall size input.length)
  plain : pad = none →
    rivetImg input pad fill addCrc = .ok (input ++ if addCrc then crcTrailer input else [])

/-- The bytes fit, or the 32-bit comparison finds out that they do not: it sees
the length of the input modulo `2 ^ 32`, and the trailer only where its four bytes
make that length overflow. -/
def RequestFits (len : ℕ) (pad : Option RivU32) (addCrc : Bool) : Prop :=
  match pad with
  | none => neededBytes len addCrc < 2 ^ 32
  | some size =>
    neededBytes len addCrc ≤ size.toNat ∨
      (size.toNat < len % 2 ^ 32 ∧ (addCrc = true → 2 ^ 32 ≤ len % 2 ^ 32 + 4))

/-! ## The decisions of `main` -/

/-- The value of `final`, as a number. -/
def finalSize (len : ℕ) (pad : Option RivU32) (addCrc : Bool) : ℕ :=
  let size := (pad.map BitVec.toNat).getD (len % 2 ^ 32)
  if addCrc = true ∧ size < (len % 2 ^ 32 + 4) % 2 ^ 32 then (len % 2 ^ 32 + 4) % 2 ^ 32 else size

theorem imgFinal_toNat (len : ℕ) (pad : Option RivU32) (addCrc : Bool) :
    (imgFinal (BitVec.ofNat 32 len) pad addCrc).toNat = finalSize len pad addCrc := by
  have hsz : (BitVec.ofNat 32 len).toNat = len % 2 ^ 32 := BitVec.toNat_ofNat _ _
  have hsum : (BitVec.ofNat 32 len + 4).toNat = (len % 2 ^ 32 + 4) % 2 ^ 32 := by
    rfl
  have hpad : (pad.getD (BitVec.ofNat 32 len)).toNat =
      (pad.map BitVec.toNat).getD (len % 2 ^ 32) := by
    cases pad with
    | none => exact hsz
    | some size => rfl
  rw [imgFinal, finalSize]
  simp only [BitVec.lt_def, hsum, hpad]
  split
  · exact hsum
  · exact hpad

theorem finalSize_lt_two_pow (len : ℕ) (pad : Option RivU32) (addCrc : Bool) :
    finalSize len pad addCrc < 2 ^ 32 := by
  rw [← imgFinal_toNat]
  exact BitVec.isLt _

theorem length_crcTrailer (m : List RivU8) : (crcTrailer m).length = 4 := rfl

section Outcomes

variable {input : List RivU8} {pad : Option RivU32} (fill : RivU32)

theorem rivetImg_refused (h : finalSize input.length pad addCrc < input.length % 2 ^ 32) :
    rivetImg input pad fill addCrc = .error (.padTooSmall (pad.getD 0) input.length) := by
  simp only [rivetImg, BitVec.lt_def, imgFinal_toNat, BitVec.toNat_ofNat]
  rw [if_pos h]

theorem rivetImg_fault (h : input.length % 2 ^ 32 ≤ finalSize input.length pad addCrc)
    (hlen : finalSize input.length pad addCrc < input.length) :
    rivetImg input pad fill addCrc = .error .fault := by
  simp_all [rivetImg, BitVec.lt_def, imgFinal_toNat, BitVec.toNat_ofNat, Nat.not_lt.mpr]

theorem rivetImg_image (hlen : input.length ≤ finalSize input.length pad false) :
    rivetImg input pad fill false =
      .ok (input ++ List.replicate (finalSize input.length pad false - input.length)
        (fill.setWidth 8)) := by
  simp only [rivetImg, BitVec.lt_def, imgFinal_toNat, BitVec.toNat_ofNat]
  grind

theorem four_le_finalSize (hlen : input.length ≤ finalSize input.length pad true) :
    4 ≤ finalSize input.length pad true := by
  have hfinal : (input.length % 2 ^ 32 + 4) % 2 ^ 32 ≤ finalSize input.length pad true := by
    unfold finalSize
    simp only [true_and]
    split <;> omega
  omega

theorem rivetImg_trailer (hlen : input.length ≤ finalSize input.length pad true) :
    ∃ m, m = (input ++ List.replicate (finalSize input.length pad true - input.length)
        (fill.setWidth 8)).take (finalSize input.length pad true - 4) ∧
      rivetImg input pad fill true = .ok (m ++ crcTrailer m) := by
  have hfour := four_le_finalSize hlen
  have hsub : (imgFinal (BitVec.ofNat 32 input.length) pad true - 4).toNat =
      finalSize input.length pad true - 4 := by
    have hle : (4 : RivU32) ≤ imgFinal (BitVec.ofNat 32 input.length) pad true := by
      rw [BitVec.le_def, imgFinal_toNat]
      exact hfour
    rw [BitVec.toNat_sub_of_le hle, imgFinal_toNat]
    rfl
  simp only [rivetImg, BitVec.lt_def, imgFinal_toNat, BitVec.toNat_ofNat, hsub]
  rw [if_neg (by omega), if_neg (by omega), if_pos trivial]
  exact ⟨_, rfl, rfl⟩

theorem length_of_rivetImg {out : List RivU8} (h : rivetImg input pad fill addCrc = .ok out) :
    out.length = finalSize input.length pad addCrc := by
  by_cases hsmall : finalSize input.length pad addCrc < input.length % 2 ^ 32
  · rw [rivetImg_refused fill hsmall] at h
    cases h
  by_cases hlen : finalSize input.length pad addCrc < input.length
  · simp_all [rivetImg_fault]
  rw [Nat.not_lt] at hlen
  cases addCrc with
  | false =>
    rw [rivetImg_image fill hlen] at h
    cases h
    simp_all
  | true =>
    have hfour := four_le_finalSize hlen
    obtain ⟨m, hm, himg⟩ := rivetImg_trailer fill hlen
    rw [himg] at h
    cases h
    simp_all [length_crcTrailer]

theorem finalSize_of_refused {n : ℕ}
    (h : rivetImg input pad fill addCrc = .error (.padTooSmall size n)) :
    finalSize input.length pad addCrc < input.length % 2 ^ 32 := by
  by_contra hge
  rw [Nat.not_lt] at hge
  by_cases hlen : finalSize input.length pad addCrc < input.length
  · rw [rivetImg_fault fill hge hlen] at h
    cases h
  rw [Nat.not_lt] at hlen
  cases addCrc with
  | false =>
    rw [rivetImg_image fill hlen] at h
    cases h
  | true =>
    obtain ⟨m, -, hm⟩ := rivetImg_trailer fill hlen
    rw [hm] at h
    cases h

end Outcomes

/-! ## Images that fit -/

theorem take_padded {input : List RivU8} {f : ℕ} (fill : RivU8) (h : input.length + 4 ≤ f) :
    (input ++ List.replicate (f - input.length) fill).take (f - 4) =
      input ++ List.replicate (f - (input.length + 4)) fill := by
  have hmin : min (f - 4 - input.length) (f - input.length) = f - (input.length + 4) := by omega
  rw [List.take_append, List.take_of_length_le (by omega), List.take_replicate, hmin]

theorem length_paddedImage (input : List RivU8) {size : ℕ} (fill : RivU8)
    (h : neededBytes input.length addCrc ≤ size) :
    (paddedImage input size fill addCrc).length = size := by
  cases addCrc with
  | false => simp_all [paddedImage, neededBytes, Bool.false_eq_true]
  | true =>
    simp only [paddedImage, neededBytes, if_true, List.length_append, List.length_replicate,
      length_crcTrailer] at h ⊢
    omega

theorem rivetImg_of_finalSize {input : List RivU8} {pad : Option RivU32} (fill : RivU32) {f : ℕ}
    (hf : finalSize input.length pad addCrc = f) (hfit : neededBytes input.length addCrc ≤ f) :
    rivetImg input pad fill addCrc = .ok (paddedImage input f (fill.setWidth 8) addCrc) := by
  subst hf
  cases addCrc with
  | false => exact rivetImg_image fill hfit
  | true =>
    have hneeded : input.length + 4 ≤ finalSize input.length pad true := hfit
    have hlen : input.length ≤ finalSize input.length pad true := by omega
    obtain ⟨m, hm, himg⟩ := rivetImg_trailer fill hlen
    rw [take_padded _ hneeded] at hm
    rw [himg, hm]
    rfl

theorem finalSize_some_of_fits (h : neededBytes len addCrc ≤ size.toNat) :
    finalSize len (some size) addCrc = size.toNat := by
  unfold neededBytes at h
  rw [finalSize]
  grind

theorem finalSize_none_of_fits (h : neededBytes len addCrc < 2 ^ 32) :
    finalSize len none addCrc = neededBytes len addCrc := by
  unfold neededBytes at h ⊢
  cases addCrc with
  | false =>
    simp_all [finalSize, Bool.false_eq_true, false_and, Option.map_none, Option.getD_none]
  | true =>
    simp only [finalSize, if_true, true_and, Option.map_none, Option.getD_none] at h ⊢
    split <;> omega

theorem paddedImage_needed (input : List RivU8) (fill : RivU8) (addCrc : Bool) :
    paddedImage input (neededBytes input.length addCrc) fill addCrc =
      input ++ if addCrc then crcTrailer input else [] := by cases addCrc <;> simp [paddedImage]

theorem finalSize_lt (h : size.toNat < len % 2 ^ 32)
    (hcrc : addCrc = true → 2 ^ 32 ≤ len % 2 ^ 32 + 4) :
    finalSize len (some size) addCrc < len % 2 ^ 32 := by
  cases addCrc with
  | false =>
    exact h
  | true =>
    have hover := hcrc rfl
    simp only [finalSize, true_and, Option.map_some, Option.getD_some]
    split <;> omega

theorem le_finalSize
    (h : ¬(size.toNat < len % 2 ^ 32 ∧ (addCrc = true → 2 ^ 32 ≤ len % 2 ^ 32 + 4))) :
    len % 2 ^ 32 ≤ finalSize len (some size) addCrc := by
  cases addCrc with
  | false =>
    simp_all [finalSize, Bool.false_eq_true, false_and, Option.map_some, Option.getD_some]
  | true =>
    simp only [finalSize, true_and, Option.map_some, Option.getD_some]
    by_contra hlt
    refine h ⟨?_, fun _ => ?_⟩ <;> split at hlt <;> omega

/-- `rivet-img` does what it is asked exactly when the request fits. -/
theorem rivetImg_meetsRequest_iff (input : List RivU8) (pad : Option RivU32) (fill : RivU32)
    (addCrc : Bool) : MeetsRequest input pad fill addCrc ↔ RequestFits input.length pad addCrc := by
  cases pad with
  | none =>
    constructor
    · intro h
      have hlen := length_of_rivetImg fill (h.plain rfl)
      have hlt := finalSize_lt_two_pow input.length none addCrc
      have hneeded : (input ++ if addCrc = true then crcTrailer input else []).length =
          neededBytes input.length addCrc := by
        cases addCrc <;> simp [neededBytes, length_crcTrailer]
      rw [RequestFits, ← hneeded, hlen]
      exact hlt
    · intro hfit
      refine ⟨fun size hsize => absurd hsize (Option.not_mem_none size),
        fun size hsize => absurd hsize (Option.not_mem_none size), fun _ => ?_⟩
      rw [rivetImg_of_finalSize fill (finalSize_none_of_fits hfit) (Nat.le_refl _),
        paddedImage_needed]
  | some size =>
    constructor
    · intro h
      by_contra hbad
      rw [RequestFits, not_or, Nat.not_le] at hbad
      have hrefused := finalSize_of_refused fill (h.refused size rfl hbad.1)
      have hle := le_finalSize hbad.2
      omega
    · rw [RequestFits]
      rintro (hfit | ⟨hsmall, hcrc⟩)
      · have hout := rivetImg_of_finalSize fill (finalSize_some_of_fits hfit) hfit
        refine ⟨?_, ?_, fun hnone => absurd hnone (Option.some_ne_none size)⟩
        · intro size' hsize out hok
          cases hsize
          rw [hout] at hok
          cases hok
          exact ⟨length_paddedImage input _ hfit, rfl⟩
        · intro size' hsize hlt
          cases hsize
          omega
      · have hout := rivetImg_refused fill (finalSize_lt hsmall hcrc)
        refine ⟨?_, ?_, fun hnone => absurd hnone (Option.some_ne_none size)⟩
        · intro size' hsize out hok
          rw [hout] at hok
          cases hok
        · intro size' hsize _
          cases hsize
          exact hout

/-- Three bytes and a trailer in four bytes: seven are written. -/
theorem rivetImg_exceeds_pad :
    (rivetImg [1, 2, 3] (some 4) 0xFF true).toOption.map List.length = some 7 ∧
      ¬MeetsRequest [1, 2, 3] (some 4) 0xFF true := by
  have hlen : (rivetImg [1, 2, 3] (some 4) 0xFF true).toOption.map List.length = some 7 := by
    decide +kernel
  refine ⟨hlen, fun h => ?_⟩
  rw [h.refused 4 rfl (by decide)] at hlen
  cases hlen

end Rivet.Image
