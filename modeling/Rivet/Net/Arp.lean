import Mathlib
import Rivet.Core

/-!
# The ARP cache

One scan of `riv_arp_insert` in `arp.h` looks for the address, for a free entry and
for the entry that expires first.  It stops at a free entry before it has seen the whole
table; that this does not enter an address twice rests on the free entries being the
last ones.
-/

namespace Rivet.Net

open Function

/-- `riv_arp_entry`; the address is 0 in a free entry. -/
structure RivArpEntry where
  ip : RivU32
  mac : Vector RivU8 6
  expiryMs : RivU64
  deriving DecidableEq

/-- `riv_arp_cache`, of `RIV_ARP_CACHE_SIZE` entries. -/
abbrev RivArpCache := Fin 16 → RivArpEntry

/-- `riv_arp_cache_init`, of any memory. -/
def rivArpCacheInit (c : RivArpCache) : RivArpCache := fun i => { c i with ip := 0 }

/-- `riv_arp_lookup`: the address that is copied, if it returns 1. -/
def rivArpLookup (c : RivArpCache) (ip : RivU32) : Option (Vector RivU8 6) :=
  ((List.finRange 16).find? fun i => (c i).ip = ip).map fun i => (c i).mac

/-- The loop of `riv_arp_insert`: the entry that is written. -/
def insertLoop (c : RivArpCache) (ip : RivU32) : List (Fin 16) → Fin 16 → RivU64 → Fin 16
  | [], oldest, _ => oldest
  | i :: is, oldest, oldestExp =>
    if (c i).ip = ip ∨ (c i).ip = 0 then i
    else if (c i).expiryMs < oldestExp then insertLoop c ip is i (c i).expiryMs
    else insertLoop c ip is oldest oldestExp

def slot (c : RivArpCache) (ip : RivU32) : Fin 16 :=
  insertLoop c ip (List.finRange 16) 0 (c 0).expiryMs

/-- `riv_arp_insert`, of the address, the MAC and the expiry of an entry. -/
def rivArpInsert (c : RivArpCache) (e : RivArpEntry) : RivArpCache := update c (slot c e.ip) e

def inserted (c : RivArpCache) (es : List RivArpEntry) : RivArpCache := es.foldl rivArpInsert c

variable {c : RivArpCache} {e : RivArpEntry} {ip : RivU32}

/-! ## The scan -/

/-- An entry that expires before another, or as early and stands before it. -/
def Older (c : RivArpCache) (k i : Fin 16) : Prop :=
  (c k).expiryMs < (c i).expiryMs ∨ (c k).expiryMs = (c i).expiryMs ∧ k ≤ i

variable {i : Fin 16} {is : List (Fin 16)} {es : List RivArpEntry}

theorem Older.trans {k j : Fin 16} (h : Older c k i) (h' : Older c i j) : Older c k j := by
  rcases h with hlt | ⟨heq, hle⟩
  · rcases h' with hlt' | ⟨heq', -⟩
    · exact .inl (BitVec.lt_trans hlt hlt')
    · exact .inl (heq' ▸ hlt)
  · rcases h' with hlt' | ⟨heq', hle'⟩
    · exact .inl (heq ▸ hlt')
    · exact .inr ⟨heq.trans heq', hle.trans hle'⟩

theorem find_finRange {n : ℕ} {p : Fin n → Bool} {k : Fin n}
    (h : (List.finRange n).find? p = some k) : p k = true ∧ ∀ i < k, p i = false := by
  obtain ⟨hk, as, bs, heq, hbefore⟩ := List.find?_eq_some_iff_append.mp h
  refine ⟨hk, fun i hi => ?_⟩
  have hsorted := List.pairwise_lt_finRange n
  have hmem := List.mem_finRange i
  rw [heq] at hsorted hmem
  rcases List.mem_append.mp hmem with has | hbs
  · simpa using hbefore i has
  · have hlater := (List.pairwise_cons.mp (List.pairwise_append.mp hsorted).2.1).1
    grind

theorem insertLoop_of_find (h : is.find? (fun i => (c i).ip = ip ∨ (c i).ip = 0) = some i)
    (oldest : Fin 16) (oldestExp : RivU64) : insertLoop c ip is oldest oldestExp = i := by
  induction is generalizing oldest oldestExp with
  | nil => cases h
  | cons j is ih =>
    rw [List.find?_cons] at h
    by_cases hhit : (c j).ip = ip ∨ (c j).ip = 0
    · rw [decide_eq_true hhit] at h
      rw [insertLoop, if_pos hhit]
      exact Option.some.inj h
    simp_all [decide_eq_false, insertLoop]

theorem insertLoop_oldest (hmiss : ∀ i ∈ is, (c i).ip ≠ ip ∧ (c i).ip ≠ 0) {oldest : Fin 16}
    (hsorted : (oldest :: is).Pairwise (· ≤ ·)) :
    ∀ i ∈ oldest :: is, Older c (insertLoop c ip is oldest (c oldest).expiryMs) i := by
  induction is generalizing oldest with
  | nil =>
    intro i hi
    obtain rfl := List.mem_singleton.mp hi
    exact .inr ⟨rfl, le_rfl⟩
  | cons j is ih =>
    have hmiss' : ∀ i ∈ is, (c i).ip ≠ ip ∧ (c i).ip ≠ 0 :=
      fun i hi => hmiss i (List.mem_cons_of_mem j hi)
    obtain ⟨hhead, htail⟩ := List.pairwise_cons.mp hsorted
    rw [insertLoop, if_neg (not_or.mpr (hmiss j List.mem_cons_self))]
    split
    · next hlt =>
      have hrest := ih hmiss' htail
      intro i hi
      rcases List.mem_cons.mp hi with rfl | hi
      · exact (hrest j List.mem_cons_self).trans (.inl hlt)
      · exact hrest i hi
    · next hge =>
      have hrest := ih hmiss' (hsorted.sublist (List.Sublist.cons_cons _ (List.sublist_cons_self j is)))
      have hfirst := hrest oldest List.mem_cons_self
      intro i hi
      rcases List.mem_cons.mp hi with rfl | hi
      · exact hfirst
      rcases List.mem_cons.mp hi with rfl | hi
      · apply hfirst.trans
        by_cases heq : (c oldest).expiryMs = (c i).expiryMs
        · exact .inr ⟨heq, hhead i List.mem_cons_self⟩
        · exact .inl (BitVec.lt_of_le_ne (BitVec.not_lt.mp hge) heq)
      · exact hrest i (List.mem_cons_of_mem _ hi)

/-! ## What an insertion does -/

/-- No address is entered twice, and the free entries are the last ones. -/
structure Inv (c : RivArpCache) : Prop where
  distinct : ∀ i j, (c i).ip ≠ 0 → (c i).ip = (c j).ip → i = j
  free_last : ∀ i j, i ≤ j → (c i).ip = 0 → (c j).ip = 0

/-- The entry that an insertion writes: the one of the address, the first free one, or
the first of the oldest. -/
inductive Chosen (c : RivArpCache) (ip : RivU32) (k : Fin 16) : Prop
  | known (hip : (c k).ip = ip)
  | free (hnew : ∀ i, (c i).ip ≠ ip) (hfree : (c k).ip = 0) (hbefore : ∀ i < k, (c i).ip ≠ 0)
  | evicted (hnew : ∀ i, (c i).ip ≠ ip) (hfull : ∀ i, (c i).ip ≠ 0) (hfirst : ∀ i, Older c k i)

theorem chosen_of_full (hnew : ∀ i, (c i).ip ≠ ip) (hfull : ∀ i, (c i).ip ≠ 0) :
    ∀ i, Older c (slot c ip) i := by
  have hsorted : (0 :: List.finRange 16).Pairwise (· ≤ ·) := by decide
  intro i
  exact insertLoop_oldest (fun i _ => ⟨hnew i, hfull i⟩) hsorted i
    (List.mem_cons_of_mem 0 (List.mem_finRange i))

theorem Inv.chosen (h : Inv c) (hip : ip ≠ 0) : Chosen c ip (slot c ip) := by
  cases hfind : (List.finRange 16).find? (fun i => (c i).ip = ip ∨ (c i).ip = 0) with
  | none =>
    have hmiss : ∀ i, (c i).ip ≠ ip ∧ (c i).ip ≠ 0 := by simp_all
    exact .evicted (fun i => (hmiss i).1) (fun i => (hmiss i).2)
      (chosen_of_full (fun i => (hmiss i).1) fun i => (hmiss i).2)
  | some k =>
    have hslot : slot c ip = k := insertLoop_of_find hfind _ _
    obtain ⟨hhit, hbefore⟩ := find_finRange hfind
    rw [hslot]
    rcases of_decide_eq_true hhit with hknown | hfree
    · exact .known hknown
    have hmiss : ∀ i < k, ¬((c i).ip = ip ∨ (c i).ip = 0) :=
      fun i hi => of_decide_eq_false (hbefore i hi)
    refine .free (fun i hsame => ?_) hfree fun i hi hzero => hmiss i hi (.inr hzero)
    rcases lt_or_ge i k with hi | hi
    · exact hmiss i hi (.inl hsame)
    · exact hip (hsame.symm.trans (h.free_last k i hi hfree))

theorem Inv.other (h : Inv c) (hip : ip ≠ 0) (hne : i ≠ slot c ip) : (c i).ip ≠ ip := by
  cases h.chosen hip with
  | known hknown =>
    intro hsame
    exact hne (h.distinct i _ (hsame ▸ hip) (hsame.trans hknown.symm))
  | free hnew | evicted hnew => exact hnew i

theorem Inv.before (h : Inv c) (hip : ip ≠ 0) (hle : i ≤ slot c ip) (hne : i ≠ slot c ip) :
    (c i).ip ≠ 0 := by
  cases h.chosen hip with
  | known hknown =>
    intro hzero
    exact hip (hknown.symm.trans (h.free_last i _ hle hzero))
  | free _ _ hbefore => exact hbefore i (lt_of_le_of_ne hle hne)
  | evicted _ hfull => exact hfull i

theorem rivArpInsert_self (c : RivArpCache) (e : RivArpEntry) :
    rivArpInsert c e (slot c e.ip) = e := update_self ..

theorem rivArpInsert_of_ne (hne : i ≠ slot c e.ip) : rivArpInsert c e i = c i :=
  update_of_ne hne ..

theorem Inv.insert (h : Inv c) (he : e.ip ≠ 0) : Inv (rivArpInsert c e) := by
  constructor
  · intro i j hpos hsame
    by_cases hi : i = slot c e.ip
    · by_contra hij
      have hj : j ≠ slot c e.ip := fun hj => hij (hi.trans hj.symm)
      rw [hi, rivArpInsert_self, rivArpInsert_of_ne hj] at hsame
      exact h.other he hj hsame.symm
    · rw [rivArpInsert_of_ne hi] at hpos hsame
      by_cases hj : j = slot c e.ip
      · rw [hj, rivArpInsert_self] at hsame
        exact absurd hsame (h.other he hi)
      · rw [rivArpInsert_of_ne hj] at hsame
        exact h.distinct i j hpos hsame
  · intro i j hle hfree
    by_cases hi : i = slot c e.ip
    · simp_all [rivArpInsert_self]
    rw [rivArpInsert_of_ne hi] at hfree
    by_cases hj : j = slot c e.ip
    · exact absurd hfree (h.before he (hj ▸ hle) hi)
    · rw [rivArpInsert_of_ne hj]
      exact h.free_last i j hle hfree

theorem Inv.inserted (h : Inv c) (hes : ∀ e ∈ es, e.ip ≠ 0) : Inv (inserted c es) := by
  induction es generalizing c with
  | nil => exact h
  | cons e es ih =>
    obtain ⟨he, hes⟩ := List.forall_mem_cons.mp hes
    exact ih (h.insert he) hes

theorem inv_init (c : RivArpCache) : Inv (rivArpCacheInit c) :=
  ⟨fun _ _ hpos _ => absurd rfl hpos, fun _ _ _ _ => rfl⟩

/-! ## Lookups -/

theorem Inv.lookup_eq_some_iff (h : Inv c) (hip : ip ≠ 0) {mac : Vector RivU8 6} :
    rivArpLookup c ip = some mac ↔ ∃ i, (c i).ip = ip ∧ (c i).mac = mac := by
  rw [rivArpLookup, Option.map_eq_some_iff]
  constructor
  · rintro ⟨i, hfind, hmac⟩
    exact ⟨i, of_decide_eq_true (find_finRange hfind).1, hmac⟩
  rintro ⟨i, hi, hmac⟩
  cases hfind : (List.finRange 16).find? fun i => (c i).ip = ip with
  | none => exact absurd (decide_eq_true hi) (List.find?_eq_none.mp hfind i (List.mem_finRange i))
  | some j =>
    have hj : (c j).ip = ip := of_decide_eq_true (find_finRange hfind).1
    exact ⟨j, rfl, h.distinct j i (hj ▸ hip) (hj.trans hi.symm) ▸ hmac⟩

/-- An insertion into a full cache that writes over the entry of another address. -/
def Evicts (c : RivArpCache) (e : RivArpEntry) (ip : RivU32) : Prop :=
  (∀ i, (c i).ip ≠ 0) ∧ (∀ i, (c i).ip ≠ e.ip) ∧ (c (slot c e.ip)).ip = ip

def EvictedSince (c : RivArpCache) : List RivArpEntry → RivU32 → Prop
  | [], _ => False
  | e :: es, ip => Evicts c e ip ∨ EvictedSince (rivArpInsert c e) es ip

theorem Inv.lookup_self (h : Inv c) (he : e.ip ≠ 0) :
    rivArpLookup (rivArpInsert c e) e.ip = some e.mac := by
  apply ((h.insert he).lookup_eq_some_iff he).mpr
  refine ⟨slot c e.ip, ?_⟩
  rw [rivArpInsert_self]
  exact ⟨rfl, rfl⟩

theorem Inv.lookup_other (h : Inv c) (he : e.ip ≠ 0) (hip : ip ≠ 0) (hne : e.ip ≠ ip)
    (mac : Vector RivU8 6) : rivArpLookup (rivArpInsert c e) ip = some mac ↔
      rivArpLookup c ip = some mac ∧ ¬Evicts c e ip := by
  rw [(h.insert he).lookup_eq_some_iff hip, h.lookup_eq_some_iff hip]
  constructor
  · rintro ⟨i, hi, hmac⟩
    have hslot : i ≠ slot c e.ip := by
      rintro rfl
      rw [rivArpInsert_self] at hi
      exact hne hi
    rw [rivArpInsert_of_ne hslot] at hi hmac
    refine ⟨⟨i, hi, hmac⟩, fun hevicts => hslot ?_⟩
    exact h.distinct i _ (hi ▸ hip) (hi.trans hevicts.2.2.symm)
  · rintro ⟨⟨i, hi, hmac⟩, hstays⟩
    refine ⟨i, ?_⟩
    rw [rivArpInsert_of_ne ?_]
    · exact ⟨hi, hmac⟩
    rintro rfl
    cases h.chosen he with
    | known hknown => exact hne (hknown.symm.trans hi)
    | free _ hfree => exact hip (hi.symm.trans hfree)
    | evicted hnew hfull => exact hstays ⟨hfull, hnew, hi⟩

theorem Inv.lookup_inserted (h : Inv c) (hip : ip ≠ 0) (hes : ∀ e ∈ es, e.ip ≠ 0 ∧ e.ip ≠ ip)
    (mac : Vector RivU8 6) : rivArpLookup (Net.inserted c es) ip = some mac ↔
      rivArpLookup c ip = some mac ∧ ¬EvictedSince c es ip := by
  induction es generalizing c with
  | nil => simp [Net.inserted, EvictedSince]
  | cons e es ih =>
    obtain ⟨⟨he, hne⟩, hes⟩ := List.forall_mem_cons.mp hes
    have hrest := ih (h.insert he) hes
    rw [h.lookup_other he hip hne] at hrest
    rw [EvictedSince, not_or, ← and_assoc]
    exact hrest

/-- After some insertions no address is entered twice; a lookup returns what was inserted
last for the address, unless that is evicted; a new address in a full cache replaces
the first of the oldest entries and no other. -/
structure KeepsLatest (c : RivArpCache) (es : List RivArpEntry) : Prop where
  distinct : ∀ i j, (inserted c es i).ip ≠ 0 → (inserted c es i).ip = (inserted c es j).ip → i = j
  latest : ∀ before e since, es = before ++ e :: since → (∀ e' ∈ since, e'.ip ≠ e.ip) →
    ∀ mac, rivArpLookup (inserted c es) e.ip = some mac ↔
      mac = e.mac ∧ ¬EvictedSince (inserted c (before ++ [e])) since e.ip
  replaces : ∀ e, (∀ i, (inserted c es i).ip ≠ 0) → (∀ i, (inserted c es i).ip ≠ e.ip) →
    ∃ k, (∀ i, Older (inserted c es) k i) ∧
      rivArpInsert (inserted c es) e = update (inserted c es) k e

theorem arp_keeps_latest (c : RivArpCache) {es : List RivArpEntry} (hes : ∀ e ∈ es, e.ip ≠ 0) :
    KeepsLatest (rivArpCacheInit c) es := by
  have hinv := (inv_init c).inserted hes
  refine ⟨hinv.distinct, ?_, fun e hfull hnew => ⟨_, chosen_of_full hnew hfull, rfl⟩⟩
  rintro before e since rfl hsince mac
  obtain ⟨hbefore, hrest⟩ := List.forall_mem_append.mp hes
  obtain ⟨he, hrest⟩ := List.forall_mem_cons.mp hrest
  have hfirst := (inv_init c).inserted hbefore
  have hlast := (hfirst.insert he).lookup_inserted he (fun e' h => ⟨hrest e' h, hsince e' h⟩) mac
  rw [hfirst.lookup_self he, Option.some.injEq] at hlast
  simp only [inserted, List.foldl_append, List.foldl_cons, List.foldl_nil] at hlast ⊢
  rw [hlast, eq_comm]

theorem arp_keeps_latest_rebind : KeepsLatest (rivArpCacheInit fun _ => ⟨9, .replicate 6 0, 5⟩)
      [⟨1, .replicate 6 1, 100⟩, ⟨2, .replicate 6 2, 50⟩, ⟨1, .replicate 6 3, 200⟩] :=
  arp_keeps_latest _ (by decide)

end Rivet.Net
