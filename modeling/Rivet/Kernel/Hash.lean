import Rivet.Kernel.Storage
import Rivet.Support.Probing
import Rivet.Support.Runs

/-!
# The hash table

The functions of `hash.h`, and runs of `riv_hash_set` and `riv_hash_del` against
the dictionary they are to implement.

`riv_hash_del` fills the hole it makes with the entry after it and goes on from
there, but it stops at the first entry that is in its home slot.  An entry
further on, which was pushed past that one, may have its home at or before the
hole that is left: it is still in the table but no lookup gets to it.
-/

namespace Rivet.Kernel

open CLib Runs Probing Function BitVec

variable {hole : RivU64} {cap cut : ℕ}

variable {V : Type}

/-! ## `str.h` and `hash.h` -/

/-- `riv_strcmp`. -/
def rivStrcmp : CStr → CStr → ℤ
  | [], [] => 0
  | [], b :: _ => -(b.toNat : ℤ)
  | a :: _, [] => a.toNat
  | a :: as, b :: bs => if a = b then rivStrcmp as bs else (a.toNat : ℤ) - b.toNat

/-- `RIV_HASH_KEYLEN`. -/
def hashKeylen : ℕ := 32

/-- `riv_hash_slot`; nothing looks at the values. -/
structure RivHashSlot (V : Type) where
  key : CStr
  val : V
  used : Bool

/-- `riv_hash`. -/
structure RivHash (V : Type) where
  slots : ℕ → RivHashSlot V
  cap : RivU32
  count : RivU32

/-- `riv_hash_fnv64`. -/
def rivHashFnv64 (s : CStr) : RivU64 :=
  s.foldl (fun h c => (h ^^^ (BitVec.ofNat 8 c.toNat).setWidth 64) * 0x100000001b3)
    0xcbf29ce484222325

/-- `riv_hash_init`. -/
def rivHashInit (h : RivHash V) (slots : ℕ → RivHashSlot V) (capPow2 : RivU32) :
    RivI32 × RivHash V :=
  if capPow2 = 0 ∨ capPow2 &&& (capPow2 - 1) ≠ 0 then (-1, h)
  else
    (0,
      { slots := fun i => if i < capPow2.toNat then { slots i with used := false } else slots i
        cap := capPow2
        count := 0 })

/-- `x & (h->cap - 1)`. -/
def RivHash.index (h : RivHash V) (x : RivU64) : RivU64 := x &&& (h.cap - 1).setWidth 64

def RivHash.desired (h : RivHash V) (key : CStr) : RivU64 := h.index (rivHashFnv64 key)

/-- How the loop over the slots ends that `riv_hash_set`, `riv_hash_get` and
`riv_hash_del` begin with. -/
inductive HashProbe where
  | unused (i : RivU64)
  | found (i : RivU64)
  | full

/-- That loop, with `n` steps left. -/
def RivHash.probe (h : RivHash V) (key : CStr) : ℕ → RivU64 → HashProbe
  | 0, _ => .full
  | n + 1, i =>
    let s := h.slots i.toNat
    if !s.used then .unused i
    else if rivStrcmp s.key key = 0 then .found i
    else h.probe key n (h.index (i + 1))

def RivHash.search (h : RivHash V) (key : CStr) : HashProbe :=
  h.probe key h.cap.toNat (h.desired key)

/-- `riv_hash_set`. -/
def rivHashSet (h : RivHash V) (key : CStr) (val : V) : RivI32 × RivHash V :=
  match h.search key with
  | .unused i =>
    (0,
      { h with
        slots := update h.slots i.toNat ⟨rivStrlcpy key hashKeylen, val, true⟩
        count := h.count + 1 })
  | .found i =>
    (0, { h with slots := update h.slots i.toNat { h.slots i.toNat with val := val } })
  | .full => (-1, h)

/-- `riv_hash_get`: `some val` if it returns 1 with `val` in `*out`, and `none` if
it returns 0. -/
def rivHashGet (h : RivHash V) (key : CStr) : Option V :=
  match h.search key with
  | .unused _ => none
  | .found i => some (h.slots i.toNat).val
  | .full => none

/-- `slots[hole].used = 0`. -/
def clearSlot (slots : ℕ → RivHashSlot V) (hole : RivU64) : ℕ → RivHashSlot V :=
  update slots hole.toNat { slots hole.toNat with used := false }

/-- The second loop of `riv_hash_del`, for at most `fuel` rounds; the slots
change, the capacity does not. -/
def RivHash.shift (h : RivHash V) :
    ℕ → (ℕ → RivHashSlot V) → RivU64 → Option (ℕ → RivHashSlot V)
  | 0, _, _ => none
  | fuel + 1, slots, hole =>
    let next := h.index (hole + 1)
    let ns := slots next.toNat
    if !ns.used then some (clearSlot slots hole)
    else
      let desired := h.desired ns.key
      if (next > hole ∧ (desired ≤ hole ∨ desired > next)) ∨
          (next < hole ∧ (desired ≤ hole ∧ desired > next)) then
        h.shift fuel (update slots hole.toNat ns) next
      else some (clearSlot slots hole)

/-- `riv_hash_del`; `none` if its second loop takes more than `fuel` rounds. -/
def rivHashDel (fuel : ℕ) (h : RivHash V) (key : CStr) : Option (RivI32 × RivHash V) :=
  match h.search key with
  | .unused _ => some (-1, h)
  | .full => some (-1, h)
  | .found i =>
    (h.shift fuel h.slots i).map fun slots =>
      (0, { h with slots := slots, count := h.count - 1 })

/-! ## Runs -/

def ValidKey (k : CStr) : Prop := k.length < hashKeylen ∧ '\x00' ∉ k

instance (k : CStr) : Decidable (ValidKey k) := inferInstanceAs (Decidable (_ ∧ _))

abbrev HashKey := { k : CStr // ValidKey k }

/-- The table with the dictionary of the successful calls. -/
structure HashRun (V : Type) where
  hash : RivHash V
  dict : HashKey → Option V

inductive HashAction (V : Type) where
  | set (k : HashKey) (v : V)
  | del (k : HashKey)

def HashRun.step (s : HashRun V) : HashAction V → Option (HashRun V)
  | .set k v =>
    let (rc, h) := rivHashSet s.hash k.1 v
    some ⟨h, if rc = 0 then update s.dict k (some v) else s.dict⟩
  | .del k =>
    (rivHashDel s.hash.cap.toNat s.hash k.1).map fun r =>
      ⟨r.2, if r.1 = 0 then update s.dict k none else s.dict⟩

/-- The table after `riv_hash_init`. -/
def HashRun.start (h : RivHash V) : HashRun V := ⟨h, fun _ => none⟩

/-- The table answers like the dictionary, and calls return. -/
structure HashRun.IsDictionary (s : HashRun V) : Prop where
  get : ∀ k : HashKey, rivHashGet s.hash k.1 = s.dict k
  returns : ∀ a, (s.step a).isSome

/-! ## The table of a hash -/

def RivHashSlot.entry (s : RivHashSlot V) : Option (HashKey × V) :=
  if h : s.used = true ∧ ValidKey s.key then some (⟨s.key, h.2⟩, s.val) else none

def RivHash.table (h : RivHash V) : Table HashKey V := fun i => (h.slots i).entry

def RivHash.home (h : RivHash V) (k : HashKey) : ℕ := (h.desired k.1).toNat

/-- A deletion strands no key: none of those beyond the entries it shifts is
looked for across the slot it leaves unused. -/
def StrandsNoKey (s : HashRun V) : HashAction V → Prop
  | .set _ _ => True
  | .del k =>
    ∀ i < s.hash.cap.toNat, (s.hash.table i).map Prod.fst = some k →
      ∀ m < s.hash.cap.toNat, MaximalRun s.hash.cap.toNat s.hash.home s.hash.table i m →
        ShiftKeeps s.hash.cap.toNat s.hash.home s.hash.table i m

instance StrandsNoKey.decidable (s : HashRun V) : (a : HashAction V) → Decidable (StrandsNoKey s a)
  | .set _ _ => isTrue trivial
  | .del _ => inferInstanceAs (Decidable (∀ i < _, _ → ∀ m < _, _ → _))

/-- What `riv_hash_init` and the calls establish about the slots themselves. -/
structure RivHash.Ok (h : RivHash V) : Prop where
  pow : ∃ m, h.cap.toNat = 2 ^ m
  valid : ∀ i < h.cap.toNat, (h.slots i).used = true → ValidKey (h.slots i).key

theorem rivStrcmp_eq_zero_iff {a b : CStr} (ha : '\x00' ∉ a) (hb : '\x00' ∉ b) :
    rivStrcmp a b = 0 ↔ a = b := by
  have hpos {c : Char} (hc : c ≠ '\x00') : c.toNat ≠ 0 := fun h =>
    hc (Char.toNat_inj.mp (h.trans rfl))
  induction a generalizing b with
  | nil =>
    cases b with
    | nil => simp [rivStrcmp]
    | cons c b => grind [rivStrcmp]
  | cons d a ih =>
    cases b with
    | nil => grind [rivStrcmp]
    | cons c b =>
      rw [rivStrcmp]
      split
      · simp_all
      · next hne =>
        have hne' : d.toNat ≠ c.toNat := fun h => hne (Char.toNat_inj.mp h)
        grind

section Table

variable {h : RivHash V}

theorem RivHash.toNat_index (hpow : ∃ m, h.cap.toNat = 2 ^ m) (x : RivU64) :
    (h.index x).toNat = x.toNat % h.cap.toNat := by
  obtain ⟨m, hm⟩ := hpow
  have hpos : 1 ≤ h.cap.toNat := by rw [hm]; exact Nat.one_le_two_pow
  have hsub : (h.cap - 1).toNat = h.cap.toNat - 1 := toNat_sub_of_le (le_def.mpr hpos)
  have hwide : ((h.cap - 1).setWidth 64).toNat = h.cap.toNat - 1 := by
    rw [toNat_setWidth, hsub, Nat.mod_eq_of_lt (by omega)]
  rw [RivHash.index, toNat_and, hwide, hm, Nat.and_two_pow_sub_one_eq_mod]

theorem RivHash.desired_lt (hpow : ∃ m, h.cap.toNat = 2 ^ m) (k : CStr) :
    (h.desired k).toNat < h.cap.toNat := by
  rw [RivHash.desired, h.toNat_index hpow]
  apply Nat.mod_lt
  grind

theorem RivHash.home_lt (hpow : ∃ m, h.cap.toNat = 2 ^ m) (k : HashKey) :
    h.home k < h.cap.toNat := h.desired_lt hpow k.1

theorem RivHash.home_eq {h' : RivHash V} (hcap : h'.cap = h.cap) : h'.home = h.home := by
  funext k
  simp_all [RivHash.home, RivHash.desired, RivHash.index]

theorem RivHash.toNat_next (hpow : ∃ m, h.cap.toNat = 2 ^ m) {i : RivU64}
    (hi : i.toNat < h.cap.toNat) : (h.index (i + 1)).toNat = nxt h.cap.toNat i.toNat := by
  have hone : (1 : RivU64).toNat = 1 := rfl
  have hsmall : i.toNat + 1 < 2 ^ 64 := by omega
  rw [h.toNat_index hpow, toNat_add, hone, Nat.mod_eq_of_lt hsmall, nxt]

variable {k : HashKey}

theorem RivHashSlot.entry_eq_some {s : RivHashSlot V} {v : V} :
    s.entry = some (k, v) ↔ s.used = true ∧ s.key = k.1 ∧ s.val = v := by
  rw [RivHashSlot.entry]
  grind

theorem RivHashSlot.entry_of_unused {s : RivHashSlot V} (h : s.used = false) : s.entry = none := by
  rw [RivHashSlot.entry, dif_neg (by simp [h])]

def HashProbe.toSearch : HashProbe → Search
  | .unused i => .unused i.toNat
  | .found i => .found i.toNat
  | .full => .full

theorem RivHash.Ok.probe_eq (hok : h.Ok) (k : HashKey) (n : ℕ) {i : RivU64}
    (hi : i.toNat < h.cap.toNat) :
    Probing.search h.cap.toNat h.table k n i.toNat = (h.probe k.1 n i).toSearch := by
  induction n generalizing i with
  | zero => rfl
  | succ n ih =>
    rw [RivHash.probe, Probing.search]
    by_cases hused : (h.slots i.toNat).used = true
    · have hvalid := hok.valid _ hi hused
      have hT : h.table i.toNat = some (⟨_, hvalid⟩, (h.slots i.toNat).val) :=
        RivHashSlot.entry_eq_some.mpr ⟨hused, rfl, rfl⟩
      simp only [hused, hT, Bool.not_true, Bool.false_eq_true, if_false]
      simp only [rivStrcmp_eq_zero_iff hvalid.2 k.2.2]
      by_cases hkey : (h.slots i.toNat).key = k.1
      · rw [if_pos hkey, if_pos (Subtype.ext hkey)]
        rfl
      rw [if_neg hkey, if_neg (fun heq => hkey (congrArg Subtype.val heq))]
      rw [← h.toNat_next hok.pow hi]
      apply ih
      rw [h.toNat_next hok.pow hi]
      exact nxt_lt hi
    · have hunused : (h.slots i.toNat).used = false := by simpa using hused
      have hT : h.table i.toNat = none := RivHashSlot.entry_of_unused hunused
      simp only [hunused, hT, Bool.not_false, if_true]
      rfl

theorem RivHash.Ok.search_spec (hok : h.Ok) (k : HashKey) :
    (h.search k.1).toSearch.Spec h.cap.toNat h.home h.table k := by
  have hspec := Probing.search_spec (T := h.table) (h.home_lt hok.pow k)
  rw [RivHash.home, hok.probe_eq k _ (h.home_lt hok.pow k)] at hspec
  exact hspec

theorem RivHash.Ok.get_eq (hok : h.Ok) (k : HashKey) :
    rivHashGet h k.1 = lookup h.cap.toNat h.home h.table k := by
  have hspec := hok.search_spec k
  rw [rivHashGet, lookup, RivHash.home, hok.probe_eq k _ (h.home_lt hok.pow k), ← RivHash.search]
  cases hres : h.search k.1 with
  | unused i => rfl
  | full => rfl
  | found i =>
    rw [hres] at hspec
    obtain ⟨-, ⟨v, hT⟩, -⟩ := hspec
    show _ = (h.table i.toNat).map Prod.snd
    rw [hT, ← (RivHashSlot.entry_eq_some.mp hT).2.2]
    rfl

theorem RivHash.table_update (h : RivHash V) (i : ℕ) (s : RivHashSlot V) (c : RivU32) :
    RivHash.table { h with slots := update h.slots i s, count := c } =
      update h.table i s.entry := by
  funext x
  grind [RivHash.table]

theorem RivHash.Ok.setSlot (hok : h.Ok) (i : ℕ) {s : RivHashSlot V}
    (hs : s.used = true → ValidKey s.key) (c : RivU32) :
    RivHash.Ok { h with slots := update h.slots i s, count := c } where
  pow := hok.pow
  valid := by
    intro x hx hused
    show ValidKey (update h.slots i s x).key
    change (update h.slots i s x).used = true at hused
    by_cases heq : x = i
    · simp_all
    · rw [update_of_ne heq] at hused ⊢
      exact hok.valid x hx hused

end Table

/-! ## Deletion -/

section Shift

variable {h : RivHash V} {i : ℕ}

/-- The slots after `j` rounds of the second loop of `riv_hash_del` that started
with the hole at `i`. -/
def shiftedSlots (cap : ℕ) (slots : ℕ → RivHashSlot V) (i j : ℕ) : ℕ → RivHashSlot V := fun x =>
  if x < cap ∧ fwd cap i x < j then slots (nxt cap x) else slots x

theorem shiftedSlots_zero (cap : ℕ) (slots : ℕ → RivHashSlot V) (i : ℕ) :
    shiftedSlots cap slots i 0 = slots := by
  funext x
  simp [shiftedSlots]

theorem shiftedSlots_valid (hok : h.Ok) {j x : ℕ} (hx : x < h.cap.toNat)
    (hused : (shiftedSlots h.cap.toNat h.slots i j x).used = true) :
    ValidKey (shiftedSlots h.cap.toNat h.slots i j x).key := by
  by_cases hlt : x < h.cap.toNat ∧ fwd h.cap.toNat i x < j
  · rw [shiftedSlots, if_pos hlt] at hused ⊢
    exact hok.valid _ (nxt_lt hx) hused
  · rw [shiftedSlots, if_neg hlt] at hused ⊢
    exact hok.valid x hx hused

theorem RivHash.moves_iff_desired (hpow : ∃ m, h.cap.toNat = 2 ^ m) {desired : RivU64}
    (hhole : hole.toNat < h.cap.toNat) (hdesired : desired.toNat < h.cap.toNat) :
    ((h.index (hole + 1) > hole ∧ (desired ≤ hole ∨ desired > h.index (hole + 1))) ∨
        (h.index (hole + 1) < hole ∧ (desired ≤ hole ∧ desired > h.index (hole + 1)))) ↔
      desired.toNat ≠ nxt h.cap.toNat hole.toNat := by
  have hnext := h.toNat_next hpow hhole
  simp only [gt_iff_lt, lt_def, le_def, hnext]
  rw [nxt_eq hhole]
  split <;> omega

theorem RivHash.moves_iff (hpow : ∃ m, h.cap.toNat = 2 ^ m) (hhole : hole.toNat < h.cap.toNat)
    (key : HashKey) : ((h.index (hole + 1) > hole ∧
          (h.desired key.1 ≤ hole ∨ h.desired key.1 > h.index (hole + 1))) ∨
        (h.index (hole + 1) < hole ∧
          (h.desired key.1 ≤ hole ∧ h.desired key.1 > h.index (hole + 1)))) ↔
      h.home key ≠ nxt h.cap.toNat hole.toNat :=
  h.moves_iff_desired hpow hhole (h.home_lt hpow key)

theorem shiftedSlots_next {slots : ℕ → RivHashSlot V} {hole : ℕ} (hi : i < cap)
    (hhole : hole < cap) (h : fwd cap i hole + 1 < cap) :
    shiftedSlots cap slots i (fwd cap i hole) (nxt cap hole) = slots (nxt cap hole) := by
  have hfwd := fwd_nxt hi hhole h
  rw [shiftedSlots, if_neg (by omega)]

theorem shiftedSlots_succ {slots : ℕ → RivHashSlot V} {hole : ℕ} (hi : i < cap)
    (hhole : hole < cap) :
    update (shiftedSlots cap slots i (fwd cap i hole)) hole (slots (nxt cap hole)) =
      shiftedSlots cap slots i (fwd cap i hole + 1) := by
  funext x
  by_cases heq : x = hole
  · simp_all [update_self, shiftedSlots]
  rw [update_of_ne heq, shiftedSlots, shiftedSlots]
  congr 1
  apply propext
  apply and_congr_right
  intro hx
  have hne : fwd cap i x ≠ fwd cap i hole := fun hfwd => heq (fwd_inj hi hx hhole hfwd)
  omega

theorem entry_clear_shiftedSlots {slots : ℕ → RivHashSlot V} {p : ℕ} (hi : i < cap) (hp : p < cap)
    {b : RivHashSlot V} (hb : b.used = false) (x : ℕ) :
    (update (shiftedSlots cap slots i (fwd cap i p)) p b x).entry =
      shiftOut cap (fun x => (slots x).entry) i (fwd cap i p) x := by
  by_cases heq : x = p
  · subst heq
    rw [update_self, shiftOut_of_eq hp rfl, RivHashSlot.entry_of_unused hb]
  rw [update_of_ne heq, shiftedSlots, shiftOut]
  by_cases hx : x < cap
  · have hne : fwd cap i x ≠ fwd cap i p := fun hfwd => heq (fwd_inj hi hx hp hfwd)
    grind
  · rw [if_neg (fun h => hx h.1), if_neg hx]

theorem RivHash.Ok.home_once_around (hok : h.Ok) (hsound : Sound h.cap.toNat h.home cut h.table)
    (hi : i < h.cap.toNat) {hole : ℕ} (hhole : hole < h.cap.toNat)
    (hlast : fwd h.cap.toNat i hole + 1 = h.cap.toNat)
    (hrun : DisplacedRun h.cap.toNat h.home h.table i (fwd h.cap.toNat i hole)) {v : V}
    (hentry : (shiftedSlots h.cap.toNat h.slots i (fwd h.cap.toNat i hole)
      (nxt h.cap.toNat hole)).entry = some (k, v)) : h.home k = nxt h.cap.toNat hole := by
  have hback : nxt h.cap.toNat hole = i := nxt_of_fwd hi hhole hlast
  have hhome := h.home_lt hok.pow k
  rw [hback] at hentry ⊢
  by_cases hone : h.cap.toNat = 1
  · omega
  rw [shiftedSlots, if_pos ⟨hi, by rw [fwd_self]; omega⟩] at hentry
  have hlen : fwd h.cap.toNat i hole = h.cap.toNat - 1 := by omega
  rw [hlen] at hrun
  exact hsound.home_of_displacedRun (h.home_lt hok.pow) hi hrun (by omega) hentry

theorem RivHash.Ok.shift_eq (hok : h.Ok) (hsound : Sound h.cap.toNat h.home cut h.table)
    (hi : i < h.cap.toNat) {fuel : ℕ} (hhole : hole.toNat < h.cap.toNat)
    (hfuel : fwd h.cap.toNat i hole.toNat + fuel = h.cap.toNat)
    (hrun : DisplacedRun h.cap.toNat h.home h.table i (fwd h.cap.toNat i hole.toNat)) :
    ∃ p < h.cap.toNat, ∃ b : RivHashSlot V, b.used = false ∧ h.shift fuel
          (shiftedSlots h.cap.toNat h.slots i (fwd h.cap.toNat i hole.toNat)) hole =
        some (update (shiftedSlots h.cap.toNat h.slots i (fwd h.cap.toNat i p)) p b) ∧
      MaximalRun h.cap.toNat h.home h.table i (fwd h.cap.toNat i p) := by
  induction fuel generalizing hole with
  | zero =>
    have := fwd_lt hi hhole
    omega
  | succ fuel ih =>
    set cap := h.cap.toNat
    set slots := shiftedSlots cap h.slots i (fwd cap i hole.toNat) with hslots
    have hnext : (h.index (hole + 1)).toNat = nxt cap hole.toNat := h.toNat_next hok.pow hhole
    have hnextLt : nxt cap hole.toNat < cap := nxt_lt hhole
    have hsame (hmore : fwd cap i hole.toNat + 1 < cap) :
        h.table (nxt cap hole.toNat) = (slots (nxt cap hole.toNat)).entry := by
      rw [hslots, shiftedSlots_next hi hhole hmore]
      rfl
    -- stopping here is right unless the next entry is displaced
    have hstop (hno : fwd cap i hole.toNat + 1 < cap →
        ¬Displaced h.home h.table (nxt cap hole.toNat)) :
        ∃ p < cap, ∃ b : RivHashSlot V, b.used = false ∧
          some (clearSlot slots hole) =
            some (update (shiftedSlots cap h.slots i (fwd cap i p)) p b) ∧
          MaximalRun cap h.home h.table i (fwd cap i p) := by
      refine ⟨hole.toNat, hhole, _, rfl, rfl, fwd_lt hi hhole, hrun, ?_⟩
      intro x hx hfwd
      have hlt := fwd_lt hi hx
      rw [fwd_inj hi hx hnextLt (hfwd.trans (fwd_nxt hi hhole (by omega)).symm)]
      exact hno (by omega)
    rw [RivHash.shift]
    simp only [hnext]
    by_cases hused : (slots (nxt cap hole.toNat)).used = true
    · have hvalid : ValidKey (slots (nxt cap hole.toNat)).key :=
        shiftedSlots_valid hok hnextLt hused
      have hentry : (slots (nxt cap hole.toNat)).entry =
          some (⟨_, hvalid⟩, (slots (nxt cap hole.toNat)).val) :=
        RivHashSlot.entry_eq_some.mpr ⟨hused, rfl, rfl⟩
      simp only [hused, Bool.not_true, Bool.false_eq_true, if_false]
      rw [if_congr (h.moves_iff hok.pow hhole ⟨_, hvalid⟩) rfl rfl]
      by_cases hhome : h.home ⟨_, hvalid⟩ = nxt cap hole.toNat
      · rw [if_neg (not_not.mpr hhome)]
        apply hstop
        rintro hmore ⟨k, v, hT, hne⟩
        rw [hsame hmore, hentry] at hT
        cases hT
        exact hne hhome
      · have hmore : fwd cap i hole.toNat + 1 < cap := by
          have hle := fwd_lt hi hhole
          refine lt_of_le_of_ne hle fun hlast => hhome ?_
          exact hok.home_once_around hsound hi hhole hlast hrun hentry
        have hfwd : fwd cap i (h.index (hole + 1)).toNat = fwd cap i hole.toNat + 1 := by
          rw [hnext, fwd_nxt hi hhole hmore]
        have hmoved : update slots hole.toNat (slots (nxt cap hole.toNat)) =
            shiftedSlots cap h.slots i (fwd cap i hole.toNat + 1) := by
          rw [hslots, shiftedSlots_next hi hhole hmore, shiftedSlots_succ hi hhole]
        rw [if_pos hhome, hmoved, ← hfwd]
        apply ih
        · rw [hnext]
          exact hnextLt
        · omega
        intro x hx hpos hle
        rw [hfwd] at hle
        rcases Nat.le_or_eq_of_le_succ hle with hle | heq
        · exact hrun x hx hpos hle
        · rw [fwd_inj hi hx hnextLt (heq.trans (fwd_nxt hi hhole hmore).symm)]
          exact ⟨_, _, (hsame hmore).trans hentry, hhome⟩
    · have hunused : (slots (nxt cap hole.toNat)).used = false := by simpa using hused
      simp only [hunused, Bool.not_false, if_true]
      apply hstop
      rintro hmore ⟨k, v, hT, -⟩
      rw [hsame hmore, RivHashSlot.entry_of_unused hunused] at hT
      cases hT

theorem RivHash.Ok.search_of_stored (hok : h.Ok) (hsound : Sound h.cap.toNat h.home cut h.table)
    (hi : i < h.cap.toNat) {v : V} (hT : h.table i = some (k, v)) :
    (h.search k.1).toSearch = .found i := by
  rw [← hsound.search_of_stored (h.home_lt hok.pow) hi hT, RivHash.home,
    hok.probe_eq k _ (h.home_lt hok.pow k)]
  rfl

theorem RivHash.Ok.del_cases (hok : h.Ok) (hsound : Sound h.cap.toNat h.home cut h.table)
    (k : HashKey) :
    ((∀ v, ¬Holds h.cap.toNat h.table k v) ∧
        rivHashDel h.cap.toNat h k.1 = some (-1, h)) ∨
      ∃ i < h.cap.toNat, ∃ v m h', h.table i = some (k, v) ∧
        MaximalRun h.cap.toNat h.home h.table i m ∧
        rivHashDel h.cap.toNat h k.1 = some (0, h') ∧ h'.Ok ∧ h'.cap = h.cap ∧
        h'.table = shiftOut h.cap.toNat h.table i m := by
  have hspec := hok.search_spec k
  rw [rivHashDel]
  cases hres : h.search k.1 with
  | unused | full =>
    left
    refine ⟨?_, rfl⟩
    rintro v ⟨s, hs, hT⟩
    have hfound := hok.search_of_stored hsound hs hT
    rw [hres] at hfound
    cases hfound
  | found i =>
    right
    rw [hres] at hspec
    obtain ⟨hi, ⟨v, hT⟩, -⟩ := hspec
    have hfuel : fwd h.cap.toNat i.toNat i.toNat + h.cap.toNat = h.cap.toNat := by simp
    have hrun : DisplacedRun h.cap.toNat h.home h.table i.toNat
        (fwd h.cap.toNat i.toNat i.toNat) := by
      intro x hx hpos hle
      omega
    obtain ⟨p, hp, b, hb, hshift, hmax⟩ := hok.shift_eq hsound hi hi hfuel hrun
    rw [fwd_self, shiftedSlots_zero] at hshift
    refine ⟨i.toNat, hi, v, _,
      { h with
        slots := update
          (shiftedSlots h.cap.toNat h.slots i.toNat (fwd h.cap.toNat i.toNat p)) p b
        count := h.count - 1 }, hT, hmax, ?_, ⟨hok.pow, ?_⟩, rfl, ?_⟩
    · simp only [hshift]
      rfl
    · intro x hx hused
      by_cases heq : x = p
      all_goals simp_all [update_self, update_of_ne, shiftedSlots_valid]
    · funext x
      exact entry_clear_shiftedSlots hi hp hb x

end Shift

/-! ## Whole runs -/

structure HashRun.Inv (s : HashRun V) : Prop where
  ok : s.hash.Ok
  sound : ∃ cut, Sound s.hash.cap.toNat s.hash.home cut s.hash.table
  dict : ∀ k v, s.dict k = some v ↔ Holds s.hash.cap.toNat s.hash.table k v

section Steps

variable {s s' : HashRun V}

theorem HashRun.Inv.get (h : s.Inv) (k : HashKey) : rivHashGet s.hash k.1 = s.dict k := by
  obtain ⟨cut, hsound⟩ := h.sound
  apply Option.ext
  intro v
  rw [h.ok.get_eq k, hsound.lookup_eq_some_iff (s.hash.home_lt h.ok.pow), h.dict]

theorem HashRun.Inv.write (h : s.Inv) {v : V} {i : ℕ} {b : RivHashSlot V} (c : RivU32)
    (hi : i < s.hash.cap.toNat) (hb : b.entry = some (k, v))
    (hfirst : ∀ t < s.hash.cap.toNat, ∀ w, s.hash.table t = some (k, w) → t = i)
    (hfree : ∀ k' w, s.hash.table i = some (k', w) → k' = k)
    (hsound : ∃ cut, Sound s.hash.cap.toNat s.hash.home cut (update s.hash.table i (some (k, v)))) :
    HashRun.Inv ⟨{ s.hash with slots := update s.hash.slots i b, count := c },
      update s.dict k (some v)⟩ := by
  refine ⟨h.ok.setSlot i (fun _ => ?_) c, ?_, ?_⟩
  · rw [(RivHashSlot.entry_eq_some.mp hb).2.1]
    exact k.2
  · rw [RivHash.table_update, hb]
    exact hsound
  intro k' w
  rw [RivHash.table_update, hb]
  show update s.dict k (some v) k' = some w ↔
    Holds s.hash.cap.toNat (update s.hash.table i (some (k, v))) k' w
  by_cases hk : k' = k
  · subst hk
    rw [update_self]
    constructor
    · rintro ⟨⟩
      exact ⟨i, hi, update_self ..⟩
    · rintro ⟨t, ht, hT⟩
      grind
  · rw [update_of_ne hk, h.dict]
    have hiff {t : ℕ} : update s.hash.table i (some (k, v)) t = some (k', w) ↔
        s.hash.table t = some (k', w) := by
      by_cases hti : t = i
      · subst hti
        rw [update_self]
        constructor
        · rintro ⟨⟩
          exact absurd rfl hk
        · intro hT
          exact absurd (hfree k' w hT) hk
      · rw [update_of_ne hti]
    simp only [Holds, hiff]

theorem HashRun.Inv.set (h : s.Inv) {v : V} (hstep : s.step (.set k v) = some s') : s'.Inv := by
  obtain ⟨cut, hsound⟩ := h.sound
  have hspec := h.ok.search_spec k
  have hhome := s.hash.home_lt h.ok.pow
  obtain rfl := Option.some.inj hstep
  cases hres : s.hash.search k.1 with
  | unused i =>
    rw [hres] at hspec
    obtain ⟨hi, hnone, hpassed⟩ := hspec
    have hnew : ∀ w, ¬Holds s.hash.cap.toNat s.hash.table k w := by
      rintro w ⟨t, ht, hT⟩
      have hfound := h.ok.search_of_stored hsound ht hT
      rw [hres] at hfound
      cases hfound
    refine h.write _ hi ?_ ?_ ?_ ⟨_, hsound.insert hhome hnew hi hnone hpassed v⟩
    · rw [RivHashSlot.entry_eq_some]
      refine ⟨rfl, List.take_of_length_le ?_, rfl⟩
      exact Nat.le_sub_one_of_lt k.2.1
    · intro t ht w hT
      exact absurd ⟨t, ht, hT⟩ (hnew w)
    · intro k' w hT
      rw [hnone] at hT
      cases hT
  | found i =>
    rw [hres] at hspec
    obtain ⟨hi, ⟨v0, hT0⟩, -⟩ := hspec
    refine h.write _ hi ?_ ?_ ?_ ⟨cut, hsound.replace hT0 v⟩
    · obtain ⟨hused, hkey, -⟩ := RivHashSlot.entry_eq_some.mp hT0
      exact RivHashSlot.entry_eq_some.mpr ⟨hused, hkey, rfl⟩
    · intro t ht w hT
      exact hsound.unique t ht i.toNat hi k w v0 hT hT0
    intro k' w hT
    rw [hT0] at hT
    cases hT
    rfl
  | full =>
    exact h

theorem HashRun.Inv.del (h : s.Inv) (hok : StrandsNoKey s (.del k))
    (hstep : s.step (.del k) = some s') : s'.Inv := by
  obtain ⟨cut, hsound⟩ := h.sound
  have hhome := s.hash.home_lt h.ok.pow
  rw [HashRun.step] at hstep
  rcases h.ok.del_cases hsound k with ⟨-, hdel⟩ | ⟨i, hi, v, m, h', hT, hmax, hdel, hok', hcap, htable⟩
  · rw [hdel] at hstep
    obtain rfl := Option.some.inj hstep
    exact h
  · rw [hdel] at hstep
    obtain rfl := Option.some.inj hstep
    have hkeeps := hok i hi (by rw [hT]; rfl) m hmax.lt hmax
    have hhome' : h'.home = s.hash.home := RivHash.home_eq hcap
    obtain ⟨p, hp, hpm⟩ := exists_fwd hi hmax.lt
    refine ⟨hok', ⟨nxt s.hash.cap.toNat p, ?_⟩, ?_⟩
    · rw [hcap, hhome', htable]
      exact hsound.shiftOut hhome hi hmax.lt hmax.run hkeeps hp hpm
    intro k' w
    show update s.dict k none k' = some w ↔ Holds h'.cap.toNat h'.table k' w
    rw [hcap, htable, hsound.holds_shiftOut hi hmax.lt hT]
    by_cases hk : k' = k
    · subst hk
      simp
    · rw [update_of_ne hk, h.dict]
      simp [hk]

theorem HashRun.Inv.not_isDictionary_of_strands (h : s.Inv) (hno : ¬StrandsNoKey s (.del k))
    (hstep : s.step (.del k) = some s') : ¬s'.IsDictionary := by
  obtain ⟨cut, hsound⟩ := h.sound
  have hhome := s.hash.home_lt h.ok.pow
  rw [StrandsNoKey] at hno
  push Not at hno
  obtain ⟨i, hi, hk, m, hm, hmax, hlost⟩ := hno
  obtain ⟨⟨k0, v⟩, hT, rfl⟩ := Option.map_eq_some_iff.mp hk
  rw [HashRun.step] at hstep
  rcases h.ok.del_cases hsound k0 with ⟨hnone, -⟩ | ⟨j, hj, w, n, h', hT', hmax', hdel, hok', hcap, htable⟩
  · exact absurd ⟨i, hi, hT⟩ (hnone v)
  obtain rfl := hsound.unique i hi j hj k0 v w hT hT'
  obtain rfl := hmax.unique hi hmax'
  rw [hdel] at hstep
  obtain rfl := Option.some.inj hstep
  obtain ⟨k, u, hother, hholds, hlookup⟩ :=
    hsound.lookup_shiftOut_of_not_keeps hhome hi hm hlost
  have hne : k ≠ k0 := by
    rintro rfl
    exact hother v hT
  intro hdict
  have hget : rivHashGet h' k.1 = update s.dict k0 none k := hdict.get k
  have hhome' : h'.home = s.hash.home := RivHash.home_eq hcap
  rw [hok'.get_eq, hcap, hhome', htable, hlookup, update_of_ne hne, (h.dict k u).mpr hholds] at hget
  cases hget

theorem HashRun.Inv.step_isSome (h : s.Inv) (a : HashAction V) : (s.step a).isSome = true := by
  cases a with
  | set k v => rfl
  | del k =>
    obtain ⟨cut, hsound⟩ := h.sound
    rw [HashRun.step]
    rcases h.ok.del_cases hsound k with ⟨-, hdel⟩ | ⟨i, -, v, m, h', -, -, hdel, -⟩
    · rw [hdel]
      rfl
    · rw [hdel]
      rfl

end Steps

theorem exists_two_pow {cap : RivU32} (hzero : cap ≠ 0) (hand : cap &&& (cap - 1) = 0) :
    ∃ m, cap.toNat = 2 ^ m := by
  have hpos : cap.toNat ≠ 0 := fun h0 => hzero (eq_of_toNat_eq h0)
  have hsub : (cap - 1).toNat = cap.toNat - 1 :=
    toNat_sub_of_le (le_def.mpr (Nat.one_le_iff_ne_zero.mpr hpos))
  apply (Nat.and_sub_one_eq_zero_iff_isPowerOfTwo hpos).mp
  rw [← hsub, ← toNat_and, hand]
  rfl

theorem rivHashInit_inv {h h' : RivHash V} {slots : ℕ → RivHashSlot V} {cap : RivU32}
    (hinit : rivHashInit h slots cap = (0, h')) : (HashRun.start h').Inv := by
  rw [rivHashInit] at hinit
  split at hinit
  · cases hinit
  next hcap =>
  push Not at hcap
  obtain rfl := (Prod.mk.inj hinit).2
  have hpow := exists_two_pow hcap.1 hcap.2
  have hempty {i : ℕ} (hi : i < cap.toNat) {k : HashKey} {v : V}
      (hT : (if i < cap.toNat then { slots i with used := false } else slots i).entry =
        some (k, v)) : False := by simp_all [RivHashSlot.entry_of_unused]
  refine ⟨⟨hpow, ?_⟩, ⟨0, ?_, ?_, ?_, ?_⟩, ?_⟩
  · intro i hi hused
    simp_all [HashRun.start]
  · obtain ⟨m, hm⟩ := hpow
    show 0 < cap.toNat
    rw [hm]
    exact Nat.two_pow_pos m
  · intro i hi j _ k v w hT
    exact (hempty hi hT).elim
  · intro i hi k v hT
    exact (hempty hi hT).elim
  · intro i hi k v hT
    exact (hempty hi hT).elim
  · intro k v
    constructor
    · rintro ⟨⟩
    · rintro ⟨i, hi, hT⟩
      exact (hempty hi hT).elim

/-- After `riv_hash_init`, a run of sets and deletions answers like a dictionary
after every call if and only if none of its deletions strands a key. -/
theorem hash_isDictionary_iff {h h' : RivHash V} {slots : ℕ → RivHashSlot V} {cap : RivU32}
    (hinit : rivHashInit h slots cap = (0, h')) (as : List (HashAction V)) :
    Always HashRun.step HashRun.IsDictionary (HashRun.start h') as ↔
      Meets HashRun.step StrandsNoKey (HashRun.start h') as := by
  apply always_iff_meets ?_ ?_ ?_ ?_ (rivHashInit_inv hinit)
  · intro s a hs
    exact Option.isSome_iff_exists.mp (hs.step_isSome a)
  · intro s a s' hs hok hstep
    cases a with
    | set k v => exact hs.set hstep
    | del k => exact hs.del hok hstep
  · intro s hs
    exact ⟨hs.get, hs.step_isSome⟩
  · intro s a s' hs hno hstep
    cases a with
    | set k v => exact absurd trivial hno
    | del k => exact hs.not_isDictionary_of_strands hno hstep

def emptyHash : RivHash ℕ where
  slots _ := ⟨[], 0, false⟩
  cap := 8
  count := 0

theorem rivHashInit_emptyHash : rivHashInit emptyHash emptyHash.slots 8 = (0, emptyHash) := by
  simp [rivHashInit, emptyHash]

def ttyKey : HashKey := ⟨"tty".toList, by decide⟩
def uartKey : HashKey := ⟨"uart".toList, by decide⟩
def diskKey : HashKey := ⟨"disk".toList, by decide⟩

theorem hash_isDictionary_iff_del_last : rivHashInit emptyHash emptyHash.slots 8 = (0, emptyHash) ∧
      Always HashRun.step HashRun.IsDictionary (HashRun.start emptyHash)
        [.set ttyKey 1, .set uartKey 2, .set diskKey 3, .del uartKey, .del ttyKey] :=
  ⟨rivHashInit_emptyHash, (hash_isDictionary_iff rivHashInit_emptyHash _).mpr (by decide +kernel)⟩

/-- `tty` and `disk` have slot 4 for their home, and `uart` slot 5.  The deletion of
`tty` stops at `uart`, and `disk` is stranded in slot 6. -/
theorem hash_get_none_of_stranded : ∃ s, exec HashRun.step (HashRun.start emptyHash)
        [.set ttyKey 1, .set uartKey 2, .set diskKey 3, .del ttyKey] = some s ∧
      s.dict diskKey = some 3 ∧ rivHashGet s.hash diskKey.1 = none :=
  ⟨_, rfl, rfl, rfl⟩

end Rivet.Kernel
