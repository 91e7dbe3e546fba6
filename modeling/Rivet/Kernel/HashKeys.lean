import Rivet.Kernel.Hash

/-!
# Keys of any length

`riv_hash_set` looks for a key as it is given, and stores its first 31 characters.
A longer key is therefore never found again: the table holds another string in its
place.  Keys of at most 31 characters have an entry of their own.
-/

namespace Rivet.Kernel

open CLib Probing Function

variable {V : Type} {h : RivHash V} {k : CStr}

/-! ## The table by the keys that are stored -/

def RivHashSlot.stored (s : RivHashSlot V) : Option (CStr × V) :=
  if s.used then some (s.key, s.val) else none

def RivHash.keyTable (h : RivHash V) : Table CStr V := fun i => (h.slots i).stored

def RivHash.keyHome (h : RivHash V) (k : CStr) : ℕ := (h.desired k).toNat

theorem RivHash.keyHome_lt (hpow : ∃ m, h.cap.toNat = 2 ^ m) (k : CStr) :
    h.keyHome k < h.cap.toNat := h.desired_lt hpow k

theorem RivHashSlot.stored_eq_some {s : RivHashSlot V} {v : V} :
    s.stored = some (k, v) ↔ s.used = true ∧ s.key = k ∧ s.val = v := by simp [RivHashSlot.stored]

theorem RivHashSlot.stored_eq_none {s : RivHashSlot V} : s.stored = none ↔ s.used = false := by
  simp [RivHashSlot.stored]

theorem keyTable_eq_some {i : ℕ} {v : V} : h.keyTable i = some (k, v) ↔
      (h.slots i).used = true ∧ (h.slots i).key = k ∧ (h.slots i).val = v :=
  RivHashSlot.stored_eq_some

theorem keyTable_eq_none {i : ℕ} : h.keyTable i = none ↔ (h.slots i).used = false :=
  RivHashSlot.stored_eq_none

theorem RivHash.Ok.probe_keys (hok : h.Ok) (hk : '\x00' ∉ k) (n : ℕ) {i : RivU64}
    (hi : i.toNat < h.cap.toNat) :
    Probing.search h.cap.toNat h.keyTable k n i.toNat = (h.probe k n i).toSearch := by
  induction n generalizing i with
  | zero => rfl
  | succ n ih =>
    rw [RivHash.probe, Probing.search]
    cases hused : (h.slots i.toNat).used with
    | false =>
      rw [keyTable_eq_none.mpr hused]
      rfl
    | true =>
      have hcmp := rivStrcmp_eq_zero_iff (hok.valid _ hi hused).2 hk
      rw [keyTable_eq_some.mpr ⟨hused, rfl, rfl⟩]
      simp only [Bool.not_true, Bool.false_eq_true, if_false, hcmp]
      by_cases hkey : (h.slots i.toNat).key = k
      · simp only [hkey, if_true]
        rfl
      simp only [hkey, if_false]
      rw [← h.toNat_next hok.pow hi]
      apply ih
      rw [h.toNat_next hok.pow hi]
      exact nxt_lt hi

theorem RivHash.Ok.search_keys (hok : h.Ok) (hk : '\x00' ∉ k) :
    Probing.search h.cap.toNat h.keyTable k h.cap.toNat (h.keyHome k) = (h.search k).toSearch :=
  hok.probe_keys hk _ (h.desired_lt hok.pow k)

theorem RivHash.Ok.search_keys_spec (hok : h.Ok) (hk : '\x00' ∉ k) :
    (h.search k).toSearch.Spec h.cap.toNat h.keyHome h.keyTable k := by
  rw [← hok.search_keys hk]
  exact Probing.search_spec (h.desired_lt hok.pow k)

theorem validKey_rivStrlcpy (hk : '\x00' ∉ k) : ValidKey (rivStrlcpy k hashKeylen) := by
  constructor
  · rw [rivStrlcpy, List.length_take]
    exact Nat.lt_of_le_of_lt (Nat.min_le_left ..) (by decide)
  · exact fun hmem => hk (List.mem_of_mem_take hmem)

theorem RivHash.Ok.set (hok : h.Ok) (hk : '\x00' ∉ k) (v : V) : (rivHashSet h k v).2.Ok := by
  have hspec := hok.search_keys_spec hk
  rw [rivHashSet]
  cases hres : h.search k with
  | unused i => exact hok.setSlot i.toNat (fun _ => validKey_rivStrlcpy hk) _
  | found i =>
    rw [hres] at hspec
    exact hok.setSlot (s := { h.slots i.toNat with val := v }) i.toNat
      (fun hused => hok.valid _ hspec.1 hused) _
  | full => exact hok

/-! ## Entries -/

/-- A key has an entry with a value: it is found, the next call overwrites the value,
and a call with another key leaves the entry alone. -/
def HasOwnEntry (h : RivHash V) (k : CStr) (v : V) : Prop :=
  rivHashGet h k = some v ∧
    ∃ i < h.cap.toNat,
      (∀ w, rivHashSet h k w =
        (0, { h with slots := update h.slots i { h.slots i with val := w } })) ∧
      ∀ k' w, '\x00' ∉ k' → k' ≠ k → (rivHashSet h k' w).2.slots i = h.slots i

def KeyWorks (h : RivHash V) (k : CStr) (v : V) : Prop :=
  ∀ h', rivHashSet h k v = (0, h') → HasOwnEntry h' k v

theorem RivHash.Ok.set_slots (hok : h.Ok) {k' : CStr} (hk' : '\x00' ∉ k') {i : ℕ}
    (hused : (h.slots i).used = true) (hne : (h.slots i).key ≠ k') (w : V) :
    (rivHashSet h k' w).2.slots i = h.slots i := by
  have hspec := hok.search_keys_spec hk'
  rw [rivHashSet]
  cases hres : h.search k' with
  | unused j =>
    rw [hres] at hspec
    refine update_of_ne ?_ _ _
    rintro rfl
    rw [keyTable_eq_none.mp hspec.2.1] at hused
    cases hused
  | found j =>
    rw [hres] at hspec
    obtain ⟨-, ⟨v, hT⟩, -⟩ := hspec
    refine update_of_ne ?_ _ _
    rintro rfl
    exact hne (keyTable_eq_some.mp hT).2.1
  | full => rfl

theorem RivHash.Ok.hasOwnEntry (hok : h.Ok) (hk : '\x00' ∉ k) {i : ℕ} (hi : i < h.cap.toNat)
    {v : V} (hT : h.keyTable i = some (k, v))
    (hpassed : Passed h.cap.toNat h.keyHome h.keyTable k (fwd h.cap.toNat (h.keyHome k) i)) :
    HasOwnEntry h k v := by
  obtain ⟨hused, hkey, hval⟩ := keyTable_eq_some.mp hT
  have hsearch := hok.search_keys hk
  rw [search_of_passed (h.keyHome_lt hok.pow k) hi hT hpassed] at hsearch
  cases hres : h.search k with
  | unused | full =>
    rw [hres] at hsearch
    cases hsearch
  | found j =>
    rw [hres] at hsearch
    obtain rfl : i = j.toNat := Search.found.inj hsearch
    refine ⟨?_, j.toNat, hi, ?_, ?_⟩
    · rw [rivHashGet, hres]
      exact congrArg some hval
    · intro w
      rw [rivHashSet, hres]
    · intro k' w hk' hne
      exact hok.set_slots hk' hused (fun heq => hne (heq.symm.trans hkey)) w

theorem passed_update {T : Table CStr V} {cap : ℕ} {home : CStr → ℕ} {i : ℕ}
    (h : Passed cap home T k (fwd cap (home k) i)) (e : Option (CStr × V)) :
    Passed cap home (update T i e) k (fwd cap (home k) i) := by
  intro y hy hlt
  have hne : y ≠ i := by
    rintro rfl
    exact Nat.lt_irrefl _ hlt
  rw [update_of_ne hne]
  exact h y hy hlt

theorem stored_update (slots : ℕ → RivHashSlot V) (i : ℕ) (s : RivHashSlot V) :
    (fun x => (update slots i s x).stored) = update (fun x => (slots x).stored) i s.stored := by
  funext x
  grind

theorem keyTable_update (h : RivHash V) (i : ℕ) (s : RivHashSlot V) (c : RivU32) :
    RivHash.keyTable { h with slots := update h.slots i s, count := c } =
      update h.keyTable i s.stored := stored_update h.slots i s

theorem RivHash.Ok.keyWorks (hok : h.Ok) (hk : '\x00' ∉ k) (hlen : k.length < hashKeylen) (v : V) :
    KeyWorks h k v := by
  intro h' hset
  have hok' := hok.set hk v
  have hspec := hok.search_keys_spec hk
  have hcopy : rivStrlcpy k hashKeylen = k := List.take_of_length_le (Nat.le_sub_one_of_lt hlen)
  rw [rivHashSet] at hset hok'
  cases hres : h.search k with
  | unused i =>
    rw [hres] at hset hspec hok'
    obtain ⟨hi, -, hpassed⟩ := hspec
    obtain rfl := (Prod.mk.inj hset).2
    refine hok'.hasOwnEntry hk hi ?_ ?_
    · rw [keyTable_update, update_self, hcopy]
      rfl
    · rw [keyTable_update]
      exact passed_update hpassed _
  | found i =>
    rw [hres] at hset hspec hok'
    obtain ⟨hi, ⟨v0, hT⟩, hpassed⟩ := hspec
    obtain ⟨hused, hkey, -⟩ := keyTable_eq_some.mp hT
    obtain rfl := (Prod.mk.inj hset).2
    refine hok'.hasOwnEntry hk hi ?_ ?_
    · exact keyTable_eq_some.mpr (by simp [hused, hkey])
    · have htable := keyTable_update h i.toNat { h.slots i.toNat with val := v } h.count
      rw [show RivHash.keyTable _ = _ from htable]
      exact passed_update hpassed _
  | full =>
    rw [hres] at hset
    cases hset

theorem RivHash.Ok.get_long (hok : h.Ok) (hk : '\x00' ∉ k) (hlen : ¬k.length < hashKeylen) :
    rivHashGet h k = none := by
  have hspec := hok.search_keys_spec hk
  rw [rivHashGet]
  cases hres : h.search k with
  | unused i => rfl
  | full => rfl
  | found i =>
    rw [hres] at hspec
    obtain ⟨hi, ⟨v, hT⟩, -⟩ := hspec
    obtain ⟨hused, rfl, -⟩ := keyTable_eq_some.mp hT
    exact absurd (hok.valid _ hi hused).1 hlen

theorem RivHash.Ok.set_of_unused (hok : h.Ok) (hk : '\x00' ∉ k) {i : ℕ}
    (hi : i < h.cap.toNat) (hunused : (h.slots i).used = false) (v : V) :
    ∃ h', rivHashSet h k v = (0, h') := by
  have hspec := hok.search_keys_spec hk
  rw [rivHashSet]
  cases hres : h.search k with
  | unused j => exact ⟨_, rfl⟩
  | found j => exact ⟨_, rfl⟩
  | full =>
    rw [hres] at hspec
    obtain ⟨k', v', hT, -⟩ := hspec i hi (fwd_lt (h.keyHome_lt hok.pow k) hi)
    rw [keyTable_eq_none.mpr hunused] at hT
    cases hT

theorem RivHash.Ok.set_long_full (hok : h.Ok) (hk : '\x00' ∉ k) (hlen : ¬k.length < hashKeylen)
    (hfull : ∀ i < h.cap.toNat, (h.slots i).used = true) (v : V) : rivHashSet h k v = (-1, h) := by
  have hspec := hok.search_keys_spec hk
  rw [rivHashSet]
  cases hres : h.search k with
  | unused i =>
    rw [hres] at hspec
    have hused := hfull _ hspec.1
    rw [keyTable_eq_none.mp hspec.2.1] at hused
    cases hused
  | found i =>
    rw [hres] at hspec
    obtain ⟨hi, ⟨w, hT⟩, -⟩ := hspec
    obtain ⟨hused, rfl, -⟩ := keyTable_eq_some.mp hT
    exact absurd (hok.valid _ hi hused).1 hlen
  | full => rfl

/-- In every table, a key gets an entry of its own if and only if it fits into a slot,
or no slot is left for it. -/
theorem keyWorks_iff (hok : h.Ok) (hk : '\x00' ∉ k) (v : V) : KeyWorks h k v ↔
      k.length < hashKeylen ∨ ∀ i < h.cap.toNat, (h.slots i).used = true := by
  constructor
  · intro hworks
    by_contra hno
    rw [not_or] at hno
    obtain ⟨hlen, hfull⟩ := hno
    push Not at hfull
    obtain ⟨i, hi, hunused⟩ := hfull
    obtain ⟨h', hset⟩ := hok.set_of_unused hk hi (Bool.eq_false_of_not_eq_true hunused) v
    have hok' := hok.set hk v
    rw [hset] at hok'
    have hget := (hworks h' hset).1
    rw [hok'.get_long hk hlen] at hget
    cases hget
  · rintro (hlen | hfull)
    · exact hok.keyWorks hk hlen v
    by_cases hlen : k.length < hashKeylen
    · exact hok.keyWorks hk hlen v
    · intro h' hset
      rw [hok.set_long_full hk hlen hfull v] at hset
      cases hset

theorem emptyHash_ok : emptyHash.Ok where
  pow := ⟨3, rfl⟩
  valid := by
    intro i _ hused
    cases hused

theorem keyWorks_tty : KeyWorks emptyHash "tty".toList 7 :=
  (keyWorks_iff emptyHash_ok (by decide) 7).mpr (.inl (by decide))

/-- A key of 32 characters is stored, and not found.  The key that consists of its first
31 characters is. -/
theorem hash_loses_long_key : (rivHashSet emptyHash (List.replicate 32 'a') 7).1 = 0 ∧
      rivHashGet (rivHashSet emptyHash (List.replicate 32 'a') 7).2 (List.replicate 32 'a') = none ∧
      ¬KeyWorks emptyHash (List.replicate 32 'a') 7 := by
  have hset : (rivHashSet emptyHash (List.replicate 32 'a') 7).1 = 0 := by decide +kernel
  have hget : rivHashGet (rivHashSet emptyHash (List.replicate 32 'a') 7).2
      (List.replicate 32 'a') = none := by decide +kernel
  refine ⟨hset, hget, fun hworks => ?_⟩
  have hfound : rivHashGet (rivHashSet emptyHash (List.replicate 32 'a') 7).2
      (List.replicate 32 'a') = some 7 := (hworks _ (Prod.ext hset rfl)).1
  rw [hget] at hfound
  cases hfound

end Rivet.Kernel
