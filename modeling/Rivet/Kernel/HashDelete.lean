import Rivet.Kernel.HashKeys

/-!
# Deletion in every reachable table

Keys that are too long are stored under another string, so a table may hold a string
twice, and strings that no search gets to.  A deletion still returns: each entry it
moves gets closer to its home by one slot.  It removes one entry, and `count` is the
number of used slots.
-/

namespace Rivet.Kernel

open CLib Probing Function

variable {V : Type} {h : RivHash V} {k : CStr}

/-- What the calls make of a table that `riv_hash_init` has set up. -/
inductive HashReachable : RivHash V → Prop
  | init {h₀ h : RivHash V} {slots : ℕ → RivHashSlot V} {capPow2 : RivU32}
      (hinit : rivHashInit h₀ slots capPow2 = (0, h)) : HashReachable h
  | set {h : RivHash V} (hh : HashReachable h) {k : CStr} (hk : '\x00' ∉ k) (v : V) :
      HashReachable (rivHashSet h k v).2
  | del {h h' : RivHash V} (hh : HashReachable h) {k : CStr} (hk : '\x00' ∉ k) {fuel : ℕ}
      {rc : RivI32} (hdel : rivHashDel fuel h k = some (rc, h')) : HashReachable h'

def RivHash.pairs (h : RivHash V) : Multiset (CStr × V) := contents h.cap.toNat h.keyTable

def RivHash.usedSlots (h : RivHash V) : ℕ :=
  ((Finset.range h.cap.toNat).filter fun i => (h.slots i).used = true).card

/-! ## The second loop of `riv_hash_del` -/

theorem stored_clearSlot (slots : ℕ → RivHashSlot V) (hole : RivU64) :
    (fun x => (clearSlot slots hole x).stored) =
      update (fun x => (slots x).stored) hole.toNat none := by
  rw [clearSlot, stored_update]
  rfl

theorem RivHash.shift_contents (hpow : ∃ m, h.cap.toNat = 2 ^ m) {fuel : ℕ}
    (slots : ℕ → RivHashSlot V) {hole : RivU64} (hhole : hole.toNat < h.cap.toNat)
    (hfuel : displacement h.cap.toNat h.keyHome (fun x => (slots x).stored) hole.toNat < fuel) :
    ∃ slots', h.shift fuel slots hole = some slots' ∧
      contents h.cap.toNat (fun x => (slots' x).stored) =
        besides h.cap.toNat (fun x => (slots x).stored) hole.toNat := by
  induction fuel generalizing slots hole with
  | zero => exact absurd hfuel (Nat.not_lt_zero _)
  | succ fuel ih =>
    have hstop : ∃ slots', some (clearSlot slots hole) = some slots' ∧
        contents h.cap.toNat (fun x => (slots' x).stored) =
          besides h.cap.toNat (fun x => (slots x).stored) hole.toNat := by
      simp [stored_clearSlot, contents_update_none hhole]
    have hnext := h.toNat_next hpow hhole
    rw [RivHash.shift]
    by_cases hused : (slots (h.index (hole + 1)).toNat).used = true
    · simp only [hused, Bool.not_true, Bool.false_eq_true, if_false]
      rw [if_congr (h.moves_iff_desired hpow hhole (h.desired_lt hpow _)) rfl rfl]
      rw [hnext] at hused ⊢
      by_cases haway : (h.desired (slots (nxt h.cap.toNat hole.toNat)).key).toNat ≠
          nxt h.cap.toNat hole.toNat
      · rw [if_pos haway]
        have hstored := RivHashSlot.stored_eq_some.mpr ⟨hused, rfl, rfl⟩
        have hhome := h.keyHome_lt hpow (slots (nxt h.cap.toNat hole.toNat)).key
        have hmove := displacement_move (T := fun x => (slots x).stored) hhole hhome hstored haway
        have hbesides := besides_move (T := fun x => (slots x).stored) hhole (nxt_lt hhole)
          (nxt_ne_self hhome hhole haway)
        rw [← stored_update, ← hnext] at hmove hbesides
        rw [← hbesides, ← hnext]
        apply ih
        · rw [hnext]
          exact nxt_lt hhole
        · omega
      · rw [if_neg haway]
        exact hstop
    · simp only [Bool.eq_false_of_not_eq_true hused, Bool.not_false, if_true]
      exact hstop

theorem RivHash.shift_mono {fuel n : ℕ} (hle : fuel ≤ n) {slots slots' : ℕ → RivHashSlot V}
    {hole : RivU64} (hshift : h.shift fuel slots hole = some slots') :
    h.shift n slots hole = some slots' := by
  induction fuel generalizing n slots hole with
  | zero => cases hshift
  | succ fuel ih =>
    obtain ⟨n, rfl⟩ : ∃ m, n = m + 1 := ⟨n - 1, by omega⟩
    rw [RivHash.shift] at hshift ⊢
    simp only at hshift ⊢
    by_cases hused : (!(slots (h.index (hole + 1)).toNat).used) = true
    · rw [if_pos hused] at hshift ⊢
      exact hshift
    rw [if_neg hused] at hshift ⊢
    split at hshift
    · next hmove =>
      rw [if_pos hmove]
      exact ih (Nat.le_of_succ_le_succ hle) hshift
    · next hstay =>
      rw [if_neg hstay]
      exact hshift

/-! ## Tables that count their entries -/

/-- What every call keeps. -/
structure RivHash.Counted (h : RivHash V) : Prop extends h.Ok where
  count_eq : h.count.toNat = h.pairs.card

theorem RivHash.ok_of_pairs (hpow : ∃ m, h.cap.toNat = 2 ^ m)
    (hvalid : ∀ e ∈ h.pairs, ValidKey e.1) : h.Ok where
  pow := hpow
  valid := by
    intro i hi hused
    have hmem := mem_contents.mpr ⟨i, hi, keyTable_eq_some.mpr ⟨hused, rfl, rfl⟩⟩
    exact hvalid _ hmem

theorem RivHash.Ok.validKey_of_mem (hok : h.Ok) {e : CStr × V} (he : e ∈ h.pairs) :
    ValidKey e.1 := by
  obtain ⟨i, hi, hT⟩ := mem_contents.mp he
  obtain ⟨hused, hkey, -⟩ := keyTable_eq_some.mp hT
  rw [← hkey]
  exact hok.valid i hi hused

theorem RivHash.card_pairs (h : RivHash V) : h.pairs.card = h.usedSlots := by
  rw [RivHash.pairs, card_contents, RivHash.usedSlots]
  simp [RivHash.keyTable, RivHashSlot.stored]

theorem RivHash.usedSlots_le (h : RivHash V) : h.usedSlots ≤ h.cap.toNat := by
  refine (Finset.card_filter_le _ _).trans_eq ?_
  exact Finset.card_range _

theorem counted_init {h0 : RivHash V} {slots : ℕ → RivHashSlot V} {capPow2 : RivU32}
    (hinit : rivHashInit h0 slots capPow2 = (0, h)) : h.Counted := by
  rw [rivHashInit] at hinit
  split at hinit
  · cases hinit
  next hcap =>
  push Not at hcap
  obtain rfl := (Prod.mk.inj hinit).2
  refine ⟨⟨exists_two_pow hcap.1 hcap.2, ?_⟩, ?_⟩
  all_goals simp_all [RivHash.card_pairs, RivHash.usedSlots, Finset.card_eq_zero.mpr]

theorem RivHash.Counted.set (hh : h.Counted) (hk : '\x00' ∉ k) (v : V) :
    (rivHashSet h k v).2.Counted := by
  refine ⟨hh.toOk.set hk v, ?_⟩
  have hspec := hh.toOk.search_keys_spec hk
  have hcount := hh.count_eq
  rw [rivHashSet]
  cases hres : h.search k with
  | unused i =>
    rw [hres] at hspec
    obtain ⟨hi, hT, -⟩ := hspec
    have hlt := card_besides_lt hi h.keyTable
    rw [RivHash.pairs, contents_of_unused hi hT] at hcount
    rw [RivHash.pairs, keyTable_update]
    have hstored : RivHashSlot.stored ⟨rivStrlcpy k hashKeylen, v, true⟩ = some (_, _) := rfl
    rw [hstored, contents_update_some hi, Multiset.card_cons, ← hcount, BitVec.toNat_add]
    exact Nat.mod_eq_of_lt (by simp; omega)
  | found i =>
    rw [hres] at hspec
    obtain ⟨hi, ⟨w, hT⟩, -⟩ := hspec
    have hstored : RivHashSlot.stored { h.slots i.toNat with val := v } = some (k, v) := by
      obtain ⟨hused, hkey, -⟩ := keyTable_eq_some.mp hT
      exact RivHashSlot.stored_eq_some.mpr ⟨hused, hkey, rfl⟩
    have htable := keyTable_update h i.toNat { h.slots i.toNat with val := v } h.count
    rw [RivHash.pairs, contents_eq_cons hi hT, Multiset.card_cons] at hcount
    rw [RivHash.pairs, show RivHash.keyTable _ = _ from htable, hstored,
      contents_update_some hi, Multiset.card_cons]
    exact hcount
  | full => exact hcount

theorem RivHash.Ok.del_contents (hok : h.Ok) (hk : '\x00' ∉ k) :
    ∃ r fuel, (∀ n ≥ fuel, rivHashDel n h k = some r) ∧ (r = (-1, h) ∨
        ∃ v slots, r = (0, { h with slots := slots, count := h.count - 1 }) ∧
          h.pairs = (k, v) ::ₘ r.2.pairs) := by
  have hspec := hok.search_keys_spec hk
  cases hres : h.search k with
  | unused | full =>
    refine ⟨(-1, h), 0, fun n _ => ?_, .inl rfl⟩
    rw [rivHashDel, hres]
  | found i =>
    rw [hres] at hspec
    obtain ⟨hi, ⟨v, hT⟩, -⟩ := hspec
    obtain ⟨slots, hshift, hcontents⟩ :=
      h.shift_contents hok.pow h.slots hi (Nat.lt_succ_self _)
    refine ⟨(0, { h with slots := slots, count := h.count - 1 }),
      displacement h.cap.toNat h.keyHome h.keyTable i.toNat + 1, ?_, .inr ⟨v, slots, rfl, ?_⟩⟩
    · intro n hn
      rw [rivHashDel, hres]
      simp only [h.shift_mono hn hshift]
      rfl
    · rw [RivHash.pairs, contents_eq_cons hi hT]
      exact congrArg _ hcontents.symm

theorem rivHashDel_mono {fuel n : ℕ} (hle : fuel ≤ n) {r : RivI32 × RivHash V}
    (hdel : rivHashDel fuel h k = some r) : rivHashDel n h k = some r := by
  rw [rivHashDel] at hdel ⊢
  cases hres : h.search k with
  | unused | full =>
    rw [hres] at hdel
    exact hdel
  | found i =>
    rw [hres] at hdel
    obtain ⟨slots, hshift, heq⟩ := Option.map_eq_some_iff.mp hdel
    simp only [h.shift_mono hle hshift]
    exact congrArg some heq

theorem RivHash.Counted.del (hh : h.Counted) (hk : '\x00' ∉ k) {fuel : ℕ} {rc : RivI32}
    {h' : RivHash V} (hdel : rivHashDel fuel h k = some (rc, h')) : h'.Counted := by
  obtain ⟨r, fuel0, hr, hcases⟩ := hh.toOk.del_contents hk
  have hsame : some (rc, h') = some r := by
    rw [← rivHashDel_mono (Nat.le_max_left fuel fuel0) hdel, hr _ (Nat.le_max_right fuel fuel0)]
  obtain rfl := Option.some.inj hsame
  rcases hcases with heq | ⟨v, slots, heq, hpairs⟩
  · obtain rfl := (Prod.mk.inj heq).2
    exact hh
  have hcount := hh.count_eq
  rw [hpairs, Multiset.card_cons] at hcount
  have hvalid : ∀ e ∈ h'.pairs, ValidKey e.1 := fun e he =>
    hh.toOk.validKey_of_mem (hpairs ▸ Multiset.mem_cons_of_mem he)
  obtain rfl := (Prod.mk.inj heq).2
  refine ⟨RivHash.ok_of_pairs hh.pow hvalid, ?_⟩
  have hle : (1 : RivU32) ≤ h.count := BitVec.le_def.mpr (by rw [hcount]; exact Nat.le_add_left ..)
  rw [BitVec.toNat_sub_of_le hle, hcount]
  rfl

theorem HashReachable.counted (hh : HashReachable h) : h.Counted := by
  induction hh with
  | init hinit => exact counted_init hinit
  | set _ hk v ih => exact ih.set hk v
  | del _ hk hdel ih => exact ih.del hk hdel

/-- In every reachable table `count` is the number of used slots, and a deletion returns
and removes one entry with the key, or returns -1 and leaves the table alone. -/
theorem hash_deletion (hh : HashReachable h) : (h.count.toNat = h.usedSlots ∧ h.count ≤ h.cap) ∧
      ∀ k, '\x00' ∉ k → ∃ rc h' fuel, (∀ n ≥ fuel, rivHashDel n h k = some (rc, h')) ∧
        ((rc = 0 ∧ ∃ v, h.pairs = (k, v) ::ₘ h'.pairs) ∨ (rc = -1 ∧ h' = h)) := by
  have hcounted := hh.counted
  have hcount : h.count.toNat = h.usedSlots := hcounted.count_eq.trans h.card_pairs
  refine ⟨⟨hcount, ?_⟩, fun k hk => ?_⟩
  · rw [BitVec.le_def, hcount]
    exact h.usedSlots_le
  obtain ⟨r, fuel, hr, hcases⟩ := hcounted.toOk.del_contents hk
  refine ⟨r.1, r.2, fuel, hr, ?_⟩
  rcases hcases with rfl | ⟨v, slots, rfl, hpairs⟩
  · exact .inr ⟨rfl, rfl⟩
  · exact .inl ⟨rfl, v, hpairs⟩

theorem hash_deletion_tty : HashReachable (rivHashSet emptyHash "tty".toList 7).2 ∧
      (rivHashSet emptyHash "tty".toList 7).2.count.toNat =
        (rivHashSet emptyHash "tty".toList 7).2.usedSlots := by
  have hreach := HashReachable.set (.init rivHashInit_emptyHash) (k := "tty".toList) (by decide) 7
  exact ⟨hreach, (hash_deletion hreach).1.1⟩

end Rivet.Kernel
