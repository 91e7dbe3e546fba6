import Mathlib
import Rivet.Paging.Frames

/-!
# Bitmaps

The operations of `bitmap.h` change single bits, and its scans go by words.  A bitmap is
a finite set as long as the bits of the last word that no index has are clear: the scan
for a set bit and the count would see them.
-/

namespace Rivet.Bitmap

open Function Finset Paging BitVec

abbrev Words := ℕ → RivU32

/-- `riv_bm_set`. -/
def rivBmSet (bm : Words) (i : RivU32) : Words :=
  update bm (i >>> 5).toNat (bm (i >>> 5).toNat ||| ((1 : RivU32) <<< (i &&& 31)))

/-- `riv_bm_clear`. -/
def rivBmClear (bm : Words) (i : RivU32) : Words :=
  update bm (i >>> 5).toNat (bm (i >>> 5).toNat &&& ~~~((1 : RivU32) <<< (i &&& 31)))

/-- `riv_bm_flip`. -/
def rivBmFlip (bm : Words) (i : RivU32) : Words :=
  update bm (i >>> 5).toNat (bm (i >>> 5).toNat ^^^ ((1 : RivU32) <<< (i &&& 31)))

/-- `riv_bm_test`. -/
def rivBmTest (bm : Words) (i : RivU32) : RivU32 :=
  (bm (i >>> 5).toNat >>> (i &&& 31)) &&& 1

/-- `RIV_BITMAP_WORDS`. -/
def rivBitmapWords (nbits : RivU32) : RivU32 := (nbits + 31) / 32

/-- `riv_bm_zero`. -/
def rivBmZero (bm : Words) (nbits : RivU32) : Words :=
  fun i => if i < (rivBitmapWords nbits).toNat then 0 else bm i

/-- `riv_bm_ffs`: the scan stops at the first word that is not zero. -/
def rivBmFfs (bm : Words) (nbits : RivU32) : RivU32 :=
  match freeWord bm (rivBitmapWords nbits).toNat 0 with
  | none => nbits
  | some i => BitVec.ofNat 32 i * 32 + (bm i).ctz

/-- `riv_bm_ffz`. -/
def rivBmFfz (bm : Words) (nbits : RivU32) : RivU32 :=
  match freeWord (fun i => ~~~bm i) (rivBitmapWords nbits).toNat 0 with
  | none => nbits
  | some i =>
    let bit := BitVec.ofNat 32 i * 32 + (~~~bm i).ctz
    if bit < nbits then bit else nbits

/-- The loop of `riv_bm_popcount` over the first words. -/
def popcountLoop (bm : Words) : ℕ → RivU32
  | 0 => 0
  | n + 1 => popcountLoop bm n + (bm n).cpop

/-- `riv_bm_popcount`. -/
def rivBmPopcount (bm : Words) (nbits : RivU32) : RivU32 :=
  popcountLoop bm (rivBitmapWords nbits).toNat

/-! ## Bits -/

variable {bm : Words} {nbits i : RivU32} {S : Finset ℕ}

def bit (bm : Words) (k : ℕ) : Bool := (bm (k / 32)).getLsbD (k % 32)

theorem toNat_word (i : RivU32) : (i >>> 5).toNat = i.toNat / 32 := by
  rw [toNat_ushiftRight, Nat.shiftRight_eq_div_pow]

theorem toNat_offset (i : RivU32) : (i &&& 31).toNat = i.toNat % 32 := by
  exact Nat.and_two_pow_sub_one_eq_mod _ 5

theorem bit_set (bm : Words) (i : RivU32) (k : ℕ) :
    bit (rivBmSet bm i) k = (bit bm k || decide (i.toNat = k)) := by
  rw [rivBmSet, shiftLeft_eq', toNat_word, toNat_offset]
  exact getLsbD_setBit bm i.toNat k

theorem bit_clear (bm : Words) (i : RivU32) (k : ℕ) :
    bit (rivBmClear bm i) k = (bit bm k && decide (k ≠ i.toNat)) := by
  rw [rivBmClear, shiftLeft_eq', toNat_word, toNat_offset]
  exact getLsbD_clearBit bm i.toNat k

theorem bit_flip (bm : Words) (i : RivU32) (k : ℕ) :
    bit (rivBmFlip bm i) k = (bit bm k ^^ decide (i.toNat = k)) := by
  have hk : k % 32 < 32 := Nat.mod_lt k (by decide)
  rw [rivBmFlip, shiftLeft_eq', toNat_word, toNat_offset, bit]
  by_cases hword : k / 32 = i.toNat / 32
  · have hbit : i.toNat = k ↔ i.toNat % 32 = k % 32 := by omega
    rw [hword, update_self, getLsbD_xor, getLsbD_one_shiftLeft _ hk, bit, hword]
    simp only [hbit]
  · have hne : i.toNat ≠ k := fun heq => hword (by rw [heq])
    rw [update_of_ne hword, decide_eq_false hne, Bool.xor_false, bit]

theorem rivBmTest_eq (bm : Words) (i : RivU32) :
    rivBmTest bm i = if bit bm i.toNat = true then 1 else 0 := by
  rw [rivBmTest, ushiftRight_eq', toNat_word, toNat_offset]
  have hand := @BitVec.and_one_eq_setWidth_ofBool_getLsbD 32 (bm (i.toNat / 32) >>> (i.toNat % 32))
  rw [getLsbD_ushiftRight, Nat.add_zero] at hand
  refine hand.trans ?_
  rw [bit]
  cases (bm (i.toNat / 32)).getLsbD (i.toNat % 32) with
  | true | false => rfl

/-! ## Bitmaps as sets -/

/-- A bitmap of `nbits` bits that is a set: the bits behind the last index are clear. -/
structure Represents (bm : Words) (nbits : RivU32) (S : Finset ℕ) : Prop where
  bits : ∀ k < 32 * ((nbits.toNat + 31) / 32), bit bm k = decide (k ∈ S)
  below : S ⊆ range nbits.toNat

inductive Change where
  | set (i : RivU32)
  | clear (i : RivU32)
  | flip (i : RivU32)

def Change.index : Change → RivU32
  | .set i | .clear i | .flip i => i

def Change.run (bm : Words) : Change → Words
  | .set i => rivBmSet bm i
  | .clear i => rivBmClear bm i
  | .flip i => rivBmFlip bm i

def Change.apply (S : Finset ℕ) : Change → Finset ℕ
  | .set i => insert i.toNat S
  | .clear i => S.erase i.toNat
  | .flip i => if i.toNat ∈ S then S.erase i.toNat else insert i.toNat S

theorem Represents.change (h : Represents bm nbits S) {a : Change} (ha : a.index < nbits) :
    Represents (a.run bm) nbits (a.apply S) := by
  have hlt := lt_def.mp ha
  have hinsert : insert a.index.toNat S ⊆ range nbits.toNat :=
    insert_subset (mem_range.mpr hlt) h.below
  have herase : S.erase a.index.toNat ⊆ range nbits.toNat := (erase_subset _ _).trans h.below
  cases a with
  | set i =>
    refine ⟨fun k hk => ?_, hinsert⟩
    simp [Change.run, Change.apply, bit_set, h.bits k hk, Bool.or_comm, eq_comm]
  | clear i =>
    refine ⟨fun k hk => ?_, herase⟩
    simp [Change.run, Change.apply, bit_clear, h.bits k hk, Bool.and_comm]
  | flip i =>
    rw [Change.apply]
    split
    · next hmem =>
      refine ⟨fun k hk => ?_, herase⟩
      rw [Change.run, bit_flip, h.bits k hk]
      by_cases heq : i.toNat = k
      all_goals simp_all [Ne.symm]
    · next hmem =>
      refine ⟨fun k hk => ?_, hinsert⟩
      rw [Change.run, bit_flip, h.bits k hk]
      by_cases heq : i.toNat = k
      all_goals simp_all [Ne.symm]

theorem Represents.changes (h : Represents bm nbits S) {as : List Change}
    (has : ∀ a ∈ as, a.index < nbits) :
    Represents (as.foldl Change.run bm) nbits (as.foldl Change.apply S) := by
  induction as generalizing bm S with
  | nil => exact h
  | cons a as ih =>
    obtain ⟨ha, has⟩ := List.forall_mem_cons.mp has
    exact ih (h.change ha) has

theorem represents_zero (bm : Words) (hn : nbits.toNat ≤ 2 ^ 32 - 32) :
    Represents (rivBmZero bm nbits) nbits ∅ := by
  refine ⟨fun k hk => ?_, empty_subset _⟩
  have hword : k / 32 < (rivBitmapWords nbits).toNat := by
    rw [rivBitmapWords, words_toNat hn]
    omega
  rw [bit, rivBmZero, if_pos hword]
  simp

/-! ## Scans -/

def leastOr (S : Finset ℕ) (d : ℕ) : ℕ := if h : S.Nonempty then S.min' h else d

theorem leastOr_eq {k d : ℕ} (hk : k ∈ S) (hlow : ∀ j < k, j ∉ S) : leastOr S d = k := by
  rw [leastOr, dif_pos ⟨k, hk⟩]
  apply Nat.le_antisymm (S.min'_le k hk)
  by_contra hlt
  exact hlow _ (Nat.lt_of_not_le hlt) (S.min'_mem _)

theorem leastOr_of_empty {d : ℕ} (h : ∀ k, k ∉ S) : leastOr S d = d :=
  dif_neg fun ⟨k, hk⟩ => h k hk

theorem Represents.mem_iff (h : Represents bm nbits S) {k : ℕ}
    (hk : k < 32 * ((nbits.toNat + 31) / 32)) : bit bm k = true ↔ k ∈ S := by
  rw [h.bits k hk, decide_eq_true_iff]

theorem Represents.lt (h : Represents bm nbits S) {k : ℕ} (hk : k ∈ S) :
    k < nbits.toNat := mem_range.mp (h.below hk)

theorem Represents.ffs (h : Represents bm nbits S) (hn : nbits.toNat ≤ 2 ^ 32 - 32) :
    (rivBmFfs bm nbits).toNat = leastOr S nbits.toNat := by
  have hscan := freeWord_lowest bm (words_toNat_lt nbits)
  rw [rivBmFfs, rivBitmapWords]
  rw [words_toNat hn] at hscan ⊢
  rcases hscan with ⟨hnone, hclear⟩ | ⟨i, k, hsome, hk, -, -, hidx, hset, hlow⟩
  · rw [hnone, leastOr_of_empty]
    intro k hmem
    have hlt := h.lt hmem
    have hbit := (h.mem_iff (by omega)).mpr hmem
    exact Bool.false_ne_true ((hclear k (by omega)).symm.trans hbit)
  · rw [hsome, leastOr_eq ((h.mem_iff hk).mp hset) fun j hj hmem => ?_]
    · exact hidx
    · have hbit := (h.mem_iff (by omega)).mpr hmem
      exact Bool.false_ne_true ((hlow j hj).symm.trans hbit)

theorem bit_not (bm : Words) (k : ℕ) : (~~~bm (k / 32)).getLsbD (k % 32) = !bit bm k := by
  rw [getLsbD_not, bit, decide_eq_true (Nat.mod_lt k (by decide)), Bool.true_and]

theorem Represents.ffz (h : Represents bm nbits S) (hn : nbits.toNat ≤ 2 ^ 32 - 32) :
    (rivBmFfz bm nbits).toNat = leastOr (range nbits.toNat \ S) nbits.toNat := by
  have hscan := freeWord_lowest (fun i => ~~~bm i) (words_toNat_lt nbits)
  simp only [bit_not, Bool.not_eq_false', Bool.not_eq_true'] at hscan
  -- up to an index that is not below `nbits` all are in the set
  have hfull : ∀ k, nbits.toNat ≤ k → (∀ j < k, j < 32 * ((nbits.toNat + 31) / 32) →
      bit bm j = true) → leastOr (range nbits.toNat \ S) nbits.toNat = nbits.toNat := by
    intro k hle hset
    apply leastOr_of_empty
    intro j hmem
    obtain ⟨hj, hnot⟩ := mem_sdiff.mp hmem
    have hlt := mem_range.mp hj
    exact hnot ((h.mem_iff (by omega)).mp (hset j (by omega) (by omega)))
  rw [rivBmFfz, rivBitmapWords]
  rw [words_toNat hn] at hscan ⊢
  rcases hscan with ⟨hnone, hset⟩ | ⟨i, k, hsome, hk, -, -, hidx, hclear, hlow⟩
  · rw [hnone, hfull _ le_rfl fun j _ hj => hset j hj]
  rw [hsome]
  dsimp only
  split
  · next hlt =>
    rw [lt_def, hidx] at hlt
    rw [hidx, leastOr_eq (mem_sdiff.mpr ⟨mem_range.mpr hlt, ?_⟩)]
    · intro j hj hmem
      exact (mem_sdiff.mp hmem).2 ((h.mem_iff (by omega)).mp (hlow j hj))
    · intro hmem
      exact Bool.false_ne_true (hclear.symm.trans ((h.mem_iff hk).mpr hmem))
  · next hge =>
    rw [BitVec.not_lt, BitVec.le_def, hidx] at hge
    rw [hfull k hge fun j hj _ => hlow j hj]

theorem toNat_cpop (x : RivU32) : x.cpop.toNat = ∑ j ∈ range 32, (x.getLsbD j).toNat := by
  have hrec : ∀ n, x.cpopNatRec n 0 = ∑ j ∈ range n, (x.getLsbD j).toNat := by
    intro n
    induction n with
    | zero => rfl
    | succ n ih =>
      rw [cpopNatRec_succ, cpopNatRec_eq, ih, sum_range_succ, Nat.zero_add]
  rw [BitVec.toNat_cpop, hrec]

theorem toNat_popcountLoop (bm : Words) {n : ℕ} (hn : 32 * n < 2 ^ 32) :
    (popcountLoop bm n).toNat = ∑ k ∈ range (32 * n), (bit bm k).toNat := by
  induction n with
  | zero => rfl
  | succ n ih =>
    have hword : (bm n).cpop.toNat = ∑ j ∈ range 32, (bit bm (32 * n + j)).toNat := by
      rw [toNat_cpop]
      refine sum_congr rfl fun j hj => ?_
      have hlt := mem_range.mp hj
      rw [bit, show (32 * n + j) / 32 = n by omega, show (32 * n + j) % 32 = j by omega]
    have hle : ∑ k ∈ range (32 * n + 32), (bit bm k).toNat ≤ 32 * n + 32 := by
      refine (sum_le_card_nsmul _ _ 1 fun k _ => Bool.toNat_le _).trans_eq ?_
      simp
    rw [popcountLoop, Nat.mul_succ, sum_range_add] at *
    rw [toNat_add, ih (by omega), hword]
    exact Nat.mod_eq_of_lt (by omega)

theorem Represents.popcount (h : Represents bm nbits S) (hn : nbits.toNat ≤ 2 ^ 32 - 32) :
    (rivBmPopcount bm nbits).toNat = S.card := by
  rw [rivBmPopcount, rivBitmapWords, words_toNat hn, toNat_popcountLoop bm (by omega)]
  have hsub : S ⊆ range (32 * ((nbits.toNat + 31) / 32)) :=
    h.below.trans (range_subset_range.mpr (by omega))
  calc ∑ k ∈ range (32 * ((nbits.toNat + 31) / 32)), (bit bm k).toNat
      = ∑ k ∈ range (32 * ((nbits.toNat + 31) / 32)), if k ∈ S then 1 else 0 := by
        refine sum_congr rfl fun k hk => ?_
        rw [h.bits k (mem_range.mp hk)]
        by_cases hmem : k ∈ S <;> simp [hmem]
    _ = S.card := by
        rw [← card_filter, filter_mem_eq_inter, inter_eq_right.mpr hsub]

/-- After any changes of a cleared bitmap, the operations of the bitmap are those of the
set. -/
theorem bitmap_isSet (bm : Words) (hn : nbits.toNat ≤ 2 ^ 32 - 32) {as : List Change}
    (has : ∀ a ∈ as, a.index < nbits) :
    (∀ i < nbits, rivBmTest (as.foldl Change.run (rivBmZero bm nbits)) i =
        if i.toNat ∈ as.foldl Change.apply ∅ then 1 else 0) ∧
      (rivBmFfs (as.foldl Change.run (rivBmZero bm nbits)) nbits).toNat =
        leastOr (as.foldl Change.apply ∅) nbits.toNat ∧
      (rivBmFfz (as.foldl Change.run (rivBmZero bm nbits)) nbits).toNat =
        leastOr (range nbits.toNat \ as.foldl Change.apply ∅) nbits.toNat ∧
      (rivBmPopcount (as.foldl Change.run (rivBmZero bm nbits)) nbits).toNat =
        (as.foldl Change.apply ∅).card := by
  have h := (represents_zero bm hn).changes has
  refine ⟨fun i hi => ?_, h.ffs hn, h.ffz hn, h.popcount hn⟩
  have hlt := BitVec.lt_def.mp hi
  rw [rivBmTest_eq]
  simp only [h.mem_iff (k := i.toNat) (by omega)]

theorem bitmap_isSet_forty :
    (rivBmFfs ([.set 3, .set 35, .flip 3].foldl Change.run (rivBmZero (fun _ => 7) 40)) 40).toNat =
        leastOr {35} 40 ∧
      (rivBmFfz ([.set 3, .set 35, .flip 3].foldl Change.run (rivBmZero (fun _ => 7) 40)) 40).toNat =
        leastOr (range 40 \ {35}) 40 := by
  have h := @bitmap_isSet 40 (fun _ => 7) (by decide) [.set 3, .set 35, .flip 3] (by decide)
  exact ⟨h.2.1, h.2.2.1⟩

end Rivet.Bitmap
