import Rivet.Support.Crc

/-!
# CRC registers bit by bit

A message of a CRC register is a sequence of bits.  Where the feedback polynomial
has its top bit, a shift loses nothing, so the register after a message determines
the register before it; and a register tells any two windows of as many bits as it
has apart.  Together, two messages that differ within such a window are told
apart, whatever stands before and after it.

A register that shifts the other way is the reflected one read backwards.
-/

namespace Crc

open List BitVec

/-! ## Windows of a run -/

section Windows

variable {σ β : Type*} {step : σ → β → σ}

theorem foldl_injective (hstep : ∀ b, Function.Injective fun c => step c b) (l : List β) :
    Function.Injective fun c => l.foldl step c := by
  induction l with
  | nil => exact Function.injective_id
  | cons b l ih => exact fun c d h => hstep b (ih h)

theorem foldl_window_ne (hstep : ∀ b, Function.Injective fun c => step c b) {x y : List β}
    (hwindow : ∀ c, x.foldl step c ≠ y.foldl step c) (before after : List β) (c : σ) :
    (before ++ x ++ after).foldl step c ≠ (before ++ y ++ after).foldl step c := by
  intro h
  simp only [foldl_append] at h
  exact hwindow _ (foldl_injective hstep after h)

/-- The lists agree outside a window of `n` places. -/
def DifferWithin (n : ℕ) (x y : List β) : Prop :=
  ∃ start len, len ≤ n ∧ ∀ i, i < start ∨ start + len ≤ i → x[i]? = y[i]?

theorem DifferWithin.cut {n : ℕ} {x y : List β} (h : DifferWithin n x y)
    (hlen : x.length = y.length) : ∃ before u v after, u.length = v.length ∧ u.length ≤ n ∧
      x = before ++ u ++ after ∧ y = before ++ v ++ after := by
  obtain ⟨start, len, hle, hout⟩ := h
  have hbefore : x.take start = y.take start := by
    apply ext_getElem?
    grind
  have hafter : x.drop (start + len) = y.drop (start + len) := by
    apply ext_getElem?
    grind
  have hsplit : ∀ l : List β, l = l.take start ++ (l.drop start).take len ++ l.drop (start + len) := by
    simp
  refine ⟨x.take start, (x.drop start).take len, (y.drop start).take len,
    x.drop (start + len), ?_, ?_, hsplit x, ?_⟩
  · grind
  · exact (length_take_le _ _).trans hle
  · rw [hbefore, hafter]
    exact hsplit y

theorem differWithin_append {n : ℕ} (before after : List β) {u v : List β}
    (huv : u.length = v.length) (hle : u.length ≤ n) :
    DifferWithin n (before ++ u ++ after) (before ++ v ++ after) := by
  refine ⟨before.length, u.length, hle, ?_⟩
  grind

end Windows

variable {w : ℕ}

/-! ## Bits of a message -/

def bitWord (w : ℕ) (b : Bool) : BitVec w := (BitVec.ofBool b).setWidth w

def feedBit (poly c : BitVec w) (b : Bool) : BitVec w := shift poly (c ^^^ bitWord w b)

def runBits (poly c : BitVec w) (bits : List Bool) : BitVec w := bits.foldl (feedBit poly) c

def bitsWord (w : ℕ) : List Bool → BitVec w
  | [] => 0
  | b :: bits => bitWord w b ^^^ (bitsWord w bits <<< 1)

def lsbBits (b : BitVec 8) : List Bool := (List.range 8).map b.getLsbD

def msbBits (b : BitVec 8) : List Bool := (List.range 8).map b.getMsbD

theorem getLsbD_bitWord (b : Bool) (i : ℕ) :
    (bitWord w b).getLsbD i = (decide (i < w) && (decide (i = 0) && b)) := by
  rw [bitWord, getLsbD_setWidth, getLsbD_ofBool]

theorem getLsbD_bitsWord (bits : List Bool) {i : ℕ} (hi : i < w) :
    (bitsWord w bits).getLsbD i = bits.getD i false := by
  induction bits generalizing i with
  | nil =>
    rw [bitsWord, getD_nil]
    exact getLsbD_zero
  | cons b bits ih =>
    rw [bitsWord, getLsbD_xor, getLsbD_bitWord, getLsbD_shiftLeft]
    cases i with
    | zero => simp [hi]
    | succ i => grind

variable {x y : List Bool} {poly : BitVec w} {f : BitVec 8 → List Bool}

theorem bitsWord_injective (hlen : x.length = y.length) (hle : x.length ≤ w)
    (h : bitsWord w x = bitsWord w y) : x = y := by
  apply ext_getElem hlen
  intro i hx hy
  have hbit : (bitsWord w x).getLsbD i = (bitsWord w y).getLsbD i := by rw [h]
  grind [getLsbD_bitsWord]

theorem bitWord_lt (b : Bool) : (bitWord w b).toNat < 2 := by
  rw [bitWord, toNat_setWidth]
  exact (Nat.mod_le _ _).trans_lt (BitVec.isLt _)

theorem bitsWord_lt (bits : List Bool) (h : bits.length ≤ w) :
    (bitsWord w bits).toNat < 2 ^ bits.length := by
  induction bits with
  | nil => exact Nat.two_pow_pos _
  | cons b bits ih =>
    rw [length_cons] at h ⊢
    have hrest := ih (by omega)
    have hshift := BitField.toNat_shiftLeft_of_lt (k := 1) _ hrest (by omega)
    rw [bitsWord, toNat_xor, hshift, Nat.shiftLeft_eq]
    refine Nat.xor_lt_two_pow ?_ ?_
    all_goals grind [pow_succ, pow_one, bitWord_lt, Nat.mul_lt_mul_of_pos_right]

/-! ## Shifts -/

theorem shift_eq_ite (poly c : BitVec w) :
    shift poly c = if c.getLsbD 0 then (c >>> 1) ^^^ poly else c >>> 1 := by
  have hlow : c &&& 1 = bitWord w (c.getLsbD 0) := and_one_eq_setWidth_ofBool_getLsbD
  rw [shift, hlow]
  cases c.getLsbD 0 with
  | false => simp [bitWord]
  | true =>
    have hone : -bitWord w true = BitVec.allOnes w := by
      rw [← neg_one_eq_allOnes]
      congr 1
      apply eq_of_toNat_eq
      simp [bitWord]
    simp [hone]

theorem msb_shift (hpoly : poly.msb = true) (c : BitVec w) : (shift poly c).msb = c.getLsbD 0 := by
  rw [shift_eq_ite]
  grind [msb_xor]

theorem shift_injective (hpoly : poly.msb = true) : Function.Injective (shift poly) := by
  intro c d h
  have hlow : c.getLsbD 0 = d.getLsbD 0 := by
    rw [← msb_shift hpoly, ← msb_shift hpoly, h]
  have hrest : c >>> 1 = d >>> 1 := by
    rw [shift_eq_ite, shift_eq_ite, hlow] at h
    grind [xor_left_inj]
  apply eq_of_getLsbD_eq
  intro i _
  cases i with
  | zero => exact hlow
  | succ i =>
    have hbit := congrArg (fun x => x.getLsbD i) hrest
    grind

theorem shifts_injective (hpoly : poly.msb = true) (n : ℕ) :
    Function.Injective (shifts poly n) := by
  induction n with
  | zero => exact Function.injective_id
  | succ n ih => exact fun c d h => shift_injective hpoly (ih h)

theorem feedBit_injective (hpoly : poly.msb = true) (b : Bool) :
    Function.Injective fun c => feedBit poly c b := by
  intro c d h
  exact (xor_left_inj _).mp (shift_injective hpoly h)

/-! ## Runs over bits -/

theorem runBits_eq_shifts (poly c : BitVec w) {bits : List Bool} (h : bits.length ≤ w) :
    runBits poly c bits = shifts poly bits.length (c ^^^ bitsWord w bits) := by
  induction bits generalizing c with
  | nil => rw [bitsWord, length_nil, shifts]; exact xor_zero.symm
  | cons b bits ih =>
    rw [length_cons] at h
    have hlt : (bitsWord w bits).toNat < 2 ^ (w - 1) :=
      (bitsWord_lt bits (by omega)).trans_le (Nat.pow_le_pow_right (by decide) (by omega))
    calc
      runBits poly c (b :: bits) = runBits poly (feedBit poly c b) bits := rfl
      _ = shifts poly bits.length (feedBit poly c b ^^^ bitsWord w bits) :=
        ih (feedBit poly c b) (by omega)
      _ = shifts poly bits.length
            (shifts poly 1 (c ^^^ bitWord w b ^^^ (bitsWord w bits <<< 1))) := by
        rw [shifts_xor poly _ hlt (by omega)]
        rfl
      _ = shifts poly (b :: bits).length (c ^^^ bitsWord w (b :: bits)) := by
        rw [← shifts_add, length_cons, Nat.add_comm, xor_assoc, bitsWord]

theorem runBits_window_ne (hpoly : poly.msb = true) (hlen : x.length = y.length)
    (hle : x.length ≤ w) (hne : x ≠ y) (c : BitVec w) : runBits poly c x ≠ runBits poly c y := by
  intro h
  rw [runBits_eq_shifts poly c hle, runBits_eq_shifts poly c (hlen ▸ hle), hlen] at h
  have hword := shifts_injective hpoly _ h
  exact hne (bitsWord_injective hlen hle ((xor_right_inj c).mp hword))

theorem runBits_burst (hpoly : poly.msb = true) (hlen : x.length = y.length) (hne : x ≠ y)
    (hwindow : DifferWithin w x y) (c : BitVec w) : runBits poly c x ≠ runBits poly c y := by
  obtain ⟨before, u, v, after, huv, hle, rfl, rfl⟩ := hwindow.cut hlen
  have huv' : u ≠ v := fun h => hne (by rw [h])
  exact foldl_window_ne (feedBit_injective hpoly)
    (fun c => runBits_window_ne hpoly huv hle huv' c) before after c

/-! ## Bytes -/

theorem length_lsbBits (b : BitVec 8) : (lsbBits b).length = 8 := by
  rw [lsbBits, length_map, length_range]

theorem bitsWord_lsbBits (b : BitVec 8) : bitsWord w (lsbBits b) = b.setWidth w := by
  apply eq_of_getLsbD_eq
  grind [getLsbD_bitsWord, getLsbD_setWidth, lsbBits]

theorem feed_eq_runBits (poly c : BitVec w) (b : BitVec 8) (hw : 8 ≤ w) :
    feed poly c b = runBits poly c (lsbBits b) := by
  simp_all [runBits_eq_shifts, length_lsbBits, bitsWord_lsbBits, feed]

theorem run_eq_runBits (poly c : BitVec w) (bytes : List (BitVec 8)) (hw : 8 ≤ w) :
    run poly c bytes = runBits poly c (bytes.flatMap lsbBits) := by
  induction bytes generalizing c with
  | nil => rfl
  | cons b bytes ih => simp_all [run, runBits, feed_eq_runBits]

theorem lsbBits_injective : Function.Injective lsbBits := by
  intro a b h
  apply eq_of_getLsbD_eq
  intro i hi
  simp_all [lsbBits]

theorem flatMap_injective (hlen : ∀ b, (f b).length = 8) (hf : Function.Injective f)
    {x y : List (BitVec 8)} (h : x.flatMap f = y.flatMap f) : x = y := by
  induction x generalizing y with
  | nil =>
    cases y with
    | nil => rfl
    | cons b y =>
      have hl := congrArg List.length h
      grind
  | cons a x ih =>
    cases y with
    | nil =>
      have hl := congrArg List.length h
      grind
    | cons b y =>
      obtain ⟨hhead, htail⟩ := append_inj h (by rw [hlen, hlen])
      rw [hf hhead, ih htail]

theorem length_flatMap (hlen : ∀ b, (f b).length = 8) (x : List (BitVec 8)) :
    (x.flatMap f).length = x.length * 8 := by
  induction x with
  | nil => rfl
  | cons a x ih => grind

theorem run_burst (hpoly : poly.msb = true) (hw : 8 ≤ w) {x y : List (BitVec 8)}
    (hlen : x.length = y.length) (hne : x ≠ y)
    (hwindow : DifferWithin w (x.flatMap lsbBits) (y.flatMap lsbBits)) (c : BitVec w) :
    run poly c x ≠ run poly c y := by
  rw [run_eq_runBits poly c x hw, run_eq_runBits poly c y hw]
  refine runBits_burst hpoly ?_ ?_ hwindow c
  · simp [length_flatMap length_lsbBits, hlen]
  · exact fun h => hne (flatMap_injective length_lsbBits lsbBits_injective h)

/-! ## The register that shifts up -/

def shiftUp (poly c : BitVec w) : BitVec w :=
  if c.msb then (c <<< 1) ^^^ poly else c <<< 1

def feedUp (poly c : BitVec w) (b : BitVec 8) : BitVec w :=
  (shiftUp poly)^[8] (c ^^^ (b.setWidth w <<< (w - 8)))

def runUp (poly c : BitVec w) (bytes : List (BitVec 8)) : BitVec w :=
  bytes.foldl (feedUp poly) c

theorem shifts_eq_iterate (poly : BitVec w) (n : ℕ) (c : BitVec w) :
    shifts poly n c = (shift poly)^[n] c := by
  induction n generalizing c with
  | zero => rfl
  | succ n ih => rw [shifts, ih, Function.iterate_succ_apply]

theorem reverse_xor (x y : BitVec w) : (x ^^^ y).reverse = x.reverse ^^^ y.reverse := by grind

theorem reverse_shiftLeft_one (x : BitVec w) : (x <<< 1).reverse = x.reverse >>> 1 := by grind

theorem reverse_shiftUp (poly c : BitVec w) :
    (shiftUp poly c).reverse = shift poly.reverse c.reverse := by
  have htop : c.reverse.getLsbD 0 = c.msb := by
    rw [getLsbD_reverse, BitVec.msb]
  rw [shiftUp, shift_eq_ite, htop]
  grind [reverse_xor, reverse_shiftLeft_one]

theorem reverse_topByte (b : BitVec 8) (hw : 8 ≤ w) :
    (b.setWidth w <<< (w - 8)).reverse = b.reverse.setWidth w := by
  apply eq_of_getLsbD_eq
  intro i hi
  grind

theorem reverse_feedUp (poly c : BitVec w) (b : BitVec 8) (hw : 8 ≤ w) :
    (feedUp poly c b).reverse = feed poly.reverse c.reverse b.reverse := by
  simp_all [feedUp, feed, shifts_eq_iterate, reverse_xor, reverse_topByte, reverse_shiftUp]

theorem reverse_runUp (poly c : BitVec w) (bytes : List (BitVec 8)) (hw : 8 ≤ w) :
    (runUp poly c bytes).reverse = run poly.reverse c.reverse (bytes.map BitVec.reverse) := by
  induction bytes generalizing c with
  | nil => rfl
  | cons b bytes ih => simp_all [runUp, run, reverse_feedUp]

theorem reverse_injective : Function.Injective (BitVec.reverse : BitVec w → BitVec w) :=
  Function.LeftInverse.injective fun _ => reverse_reverse_eq

theorem lsbBits_reverse (b : BitVec 8) : lsbBits b.reverse = msbBits b := by
  apply map_congr_left
  intro i _
  exact getLsbD_reverse

theorem flatMap_reverse (bytes : List (BitVec 8)) :
    (bytes.map BitVec.reverse).flatMap lsbBits = bytes.flatMap msbBits := by
  rw [flatMap_map]
  exact flatMap_congr fun b _ => lsbBits_reverse b

theorem runUp_burst (hpoly : poly.getLsbD 0 = true) (hw : 8 ≤ w) {x y : List (BitVec 8)}
    (hlen : x.length = y.length) (hne : x ≠ y)
    (hwindow : DifferWithin w (x.flatMap msbBits) (y.flatMap msbBits)) (c : BitVec w) :
    runUp poly c x ≠ runUp poly c y := by
  intro h
  have hrev := congrArg BitVec.reverse h
  rw [reverse_runUp poly c x hw, reverse_runUp poly c y hw] at hrev
  refine run_burst ?_ hw ?_ ?_ ?_ c.reverse hrev
  · rw [msb_reverse, ← hpoly]
  · rw [length_map, length_map, hlen]
  · exact fun heq => hne (reverse_injective.list_map heq)
  · grind [flatMap_reverse]

end Crc
