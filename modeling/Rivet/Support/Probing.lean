import Mathlib

/-!
# Linear probing

A table of `cap` slots in a ring.  A key is looked for from its home slot on,
until it or an empty slot is met.  The lookup finds every stored key as long as
no key is stored twice and every slot between the home of a stored key and the
slot it is in is taken.

A third part of the invariant is about the ring: there is a cut that no probe
path crosses.  It is what bounds a backward shift in a full table.  The slot
after an empty one is always a cut.
-/

namespace Probing

open Function

variable {i n s x : ℕ}

/-! ## Slots in a ring -/

/-- The number of steps forward from `a` to `b`. -/
def fwd (cap a b : ℕ) : ℕ := if a ≤ b then b - a else cap + b - a

/-- The slot after `a`. -/
def nxt (cap a : ℕ) : ℕ := (a + 1) % cap

section Ring

variable {cap a b c : ℕ}

theorem nxt_eq (ha : a < cap) : nxt cap a = if a + 1 = cap then 0 else a + 1 := by
  rw [nxt]
  split
  · next h => rw [h, Nat.mod_self]
  · exact Nat.mod_eq_of_lt (by omega)

theorem nxt_lt (ha : a < cap) : nxt cap a < cap := Nat.mod_lt _ (by omega)

@[simp] theorem fwd_self (cap a : ℕ) : fwd cap a a = 0 := by simp [fwd]

theorem fwd_lt (ha : a < cap) (hb : b < cap) : fwd cap a b < cap := by
  rw [fwd]
  split <;> omega

theorem fwd_inj (ha : a < cap) (hb : b < cap) (hc : c < cap)
    (h : fwd cap a b = fwd cap a c) : b = c := by grind [fwd]

theorem fwd_eq_zero (ha : a < cap) (hb : b < cap) (h : fwd cap a b = 0) : b = a :=
  fwd_inj ha hb ha (h.trans (fwd_self cap a).symm)

theorem fwd_nxt (ha : a < cap) (hb : b < cap) (h : fwd cap a b + 1 < cap) :
    fwd cap a (nxt cap b) = fwd cap a b + 1 := by
  rw [nxt_eq hb]
  grind [fwd]

theorem nxt_of_fwd (ha : a < cap) (hb : b < cap) (h : fwd cap a b + 1 = cap) : nxt cap b = a := by
  rw [nxt_eq hb]
  rw [fwd] at h
  split at h <;> split <;> omega

theorem fwd_nxt_of_ne (ha : a < cap) (hb : b < cap) (h : a ≠ nxt cap b) :
    fwd cap a (nxt cap b) = fwd cap a b + 1 := by
  refine fwd_nxt ha hb (lt_of_le_of_ne (fwd_lt ha hb) fun hlast => h ?_)
  exact (nxt_of_fwd ha hb hlast).symm

theorem nxt_ne_self (ha : a < cap) (hb : b < cap) (h : a ≠ nxt cap b) : nxt cap b ≠ b := by
  intro heq
  have hfwd := fwd_nxt_of_ne ha hb h
  rw [heq] at hfwd
  omega

theorem exists_nxt (ha : a < cap) (hb : b < cap) (h : 0 < fwd cap a b) :
    ∃ x < cap, nxt cap x = b ∧ fwd cap a x + 1 = fwd cap a b := by
  refine ⟨if b = 0 then cap - 1 else b - 1, by split <;> omega, ?_, ?_⟩
  · grind [nxt_eq]
  grind [fwd]

theorem exists_fwd (ha : a < cap) (hb : b < cap) : ∃ x < cap, fwd cap a x = b := by
  refine ⟨if a + b < cap then a + b else a + b - cap, by split <;> omega, ?_⟩
  rw [fwd]
  split <;> split <;> omega

theorem fwd_eq_sub (ha : a < cap) (hb : b < cap) (hc : c < cap)
    (h : fwd cap c a ≤ fwd cap c b) : fwd cap a b = fwd cap c b - fwd cap c a := by grind [fwd]

theorem fwd_lt_fwd (ha : a < cap) (hb : b < cap) (hc : c < cap) (hi : i < cap)
    (h : fwd cap i a < fwd cap i b) (hout : fwd cap i c = 0 ∨ fwd cap i b < fwd cap i c) :
    fwd cap c a < fwd cap c b := by
  simp only [fwd] at h hout ⊢
  split at h <;> split at h <;> split at hout <;> split <;> split <;> omega

theorem fwd_nxt_le_iff (ha : a < cap) (hb : b < cap) (hc : c < cap) :
    fwd cap (nxt cap c) a ≤ fwd cap (nxt cap c) b ↔ fwd cap a b ≤ fwd cap a c := by
  rw [nxt_eq hc]
  simp only [fwd]
  split <;> split <;> split <;> split <;> split <;> omega

end Ring

/-! ## Tables -/

abbrev Table (K V : Type*) := ℕ → Option (K × V)

/-- How the search for a key ends. -/
inductive Search where
  | unused (i : ℕ)
  | found (i : ℕ)
  | full
  deriving DecidableEq

variable {K V : Type*} {cap : ℕ} {home : K → ℕ} {T : Table K V}

/-- The search for a key in the next `n` slots from `i` on. -/
def search [DecidableEq K] (cap : ℕ) (T : Table K V) (k : K) : ℕ → ℕ → Search
  | 0, _ => .full
  | n + 1, i =>
    match T i with
    | none => .unused i
    | some (k', _) => if k' = k then .found i else search cap T k n (nxt cap i)

def lookup [DecidableEq K] (cap : ℕ) (home : K → ℕ) (T : Table K V) (k : K) : Option V :=
  match search cap T k cap (home k) with
  | .found i => (T i).map Prod.snd
  | .unused _ | .full => none

def Holds (cap : ℕ) (T : Table K V) (k : K) (v : V) : Prop := ∃ s < cap, T s = some (k, v)

/-- The first `d` slots of the probe path of `k` are taken by other keys. -/
def Passed (cap : ℕ) (home : K → ℕ) (T : Table K V) (k : K) (d : ℕ) : Prop :=
  ∀ y < cap, fwd cap (home k) y < d → ∃ k' v', T y = some (k', v') ∧ k' ≠ k

def Search.Spec (cap : ℕ) (home : K → ℕ) (T : Table K V) (k : K) : Search → Prop
  | .unused i => i < cap ∧ T i = none ∧ Passed cap home T k (fwd cap (home k) i)
  | .found i => i < cap ∧ (∃ v, T i = some (k, v)) ∧ Passed cap home T k (fwd cap (home k) i)
  | .full => Passed cap home T k cap

section Search

variable {k : K}

theorem Passed.next (hhome : home k < cap) (hi : i < cap)
    (h : Passed cap home T k (fwd cap (home k) i)) {k' : K} {v' : V} (hT : T i = some (k', v'))
    (hne : k' ≠ k) : Passed cap home T k (fwd cap (home k) i + 1) := by
  intro y hy hlt
  rcases Nat.lt_succ_iff_lt_or_eq.mp hlt with hlt | heq
  · exact h y hy hlt
  grind [fwd_inj]

theorem search_spec_from [DecidableEq K] (hhome : home k < cap) (hi : i < cap)
    (hn : fwd cap (home k) i + n = cap) (h : Passed cap home T k (fwd cap (home k) i)) :
    (search cap T k n i).Spec cap home T k := by
  induction n generalizing i with
  | zero =>
    have := fwd_lt hhome hi
    omega
  | succ n ih =>
    rw [search]
    split
    · next hT => exact ⟨hi, hT, h⟩
    next k' v' hT =>
    split
    · next heq =>
      subst heq
      exact ⟨hi, ⟨v', hT⟩, h⟩
    · next hne =>
      have hnext := h.next hhome hi hT hne
      cases n with
      | zero =>
        rw [hn] at hnext
        exact hnext
      | succ n =>
        have hfwd := fwd_nxt hhome hi (by omega)
        apply ih (nxt_lt hi)
        all_goals grind

theorem search_spec [DecidableEq K] (hhome : home k < cap) :
    (search cap T k cap (home k)).Spec cap home T k := by
  apply search_spec_from hhome hhome
  · simp
  · intro y _ hlt
    simp at hlt

theorem search_of_passed [DecidableEq K] (hhome : home k < cap) (hi : i < cap) {v : V}
    (hT : T i = some (k, v)) (h : Passed cap home T k (fwd cap (home k) i)) :
    search cap T k cap (home k) = .found i := by
  have hlt := fwd_lt hhome hi
  -- what the search passes by is not the key
  have hstop {d : ℕ} (hd : Passed cap home T k d) : ¬fwd cap (home k) i < d := by
    intro hlt'
    obtain ⟨k', v', hT', hne⟩ := hd i hi hlt'
    rw [hT] at hT'
    cases hT'
    exact hne rfl
  have hspec := search_spec (T := T) hhome
  cases hres : search cap T k cap (home k) with
  | unused j =>
    rw [hres] at hspec
    obtain ⟨hj, hnone, hpassed⟩ := hspec
    rcases (Nat.le_of_not_lt (hstop hpassed)).lt_or_eq with hbefore | heq
    · obtain ⟨k', v', hT', -⟩ := h j hj hbefore
      rw [hnone] at hT'
      cases hT'
    grind [fwd_inj]
  | found j =>
    rw [hres] at hspec
    obtain ⟨hj, ⟨w, hT'⟩, hpassed⟩ := hspec
    rcases (Nat.le_of_not_lt (hstop hpassed)).lt_or_eq with hbefore | heq
    · obtain ⟨k', v', hT'', hne⟩ := h j hj hbefore
      grind
    · rw [fwd_inj hhome hj hi heq]
  | full =>
    rw [hres] at hspec
    exact absurd hlt (hstop hspec)

end Search

/-! ## Sound tables -/

/-- No key is stored twice, every probe path is taken, and none crosses the cut. -/
structure Sound (cap : ℕ) (home : K → ℕ) (cut : ℕ) (T : Table K V) : Prop where
  cut_lt : cut < cap
  unique : ∀ s < cap, ∀ t < cap, ∀ k v w, T s = some (k, v) → T t = some (k, w) → s = t
  path : ∀ s < cap, ∀ k v, T s = some (k, v) →
    ∀ y < cap, fwd cap (home k) y < fwd cap (home k) s → T y ≠ none
  uncrossed : ∀ s < cap, ∀ k v, T s = some (k, v) → fwd cap cut (home k) ≤ fwd cap cut s

section Sound

variable {cut : ℕ} {k : K} {v : V} (hhome : ∀ k, home k < cap)

include hhome

theorem Sound.search_of_stored [DecidableEq K] (h : Sound cap home cut T) (hs : s < cap)
    (hT : T s = some (k, v)) : search cap T k cap (home k) = .found s := by
  have hspec := search_spec (T := T) (hhome k)
  cases hres : search cap T k cap (home k) with
  | unused i =>
    rw [hres] at hspec
    obtain ⟨hi, hnone, hpassed⟩ := hspec
    rcases lt_or_ge (fwd cap (home k) s) (fwd cap (home k) i) with hlt | hge
    · obtain ⟨k', v', hT', hne⟩ := hpassed s hs hlt
      grind
    · rcases hge.lt_or_eq with hlt | heq
      · exact absurd hnone (h.path s hs k v hT i hi hlt)
      grind [fwd_inj]
  | found i =>
    rw [hres] at hspec
    obtain ⟨hi, ⟨w, hT'⟩, -⟩ := hspec
    rw [h.unique i hi s hs k w v hT' hT]
  | full =>
    rw [hres] at hspec
    obtain ⟨k', v', hT', hne⟩ := hspec s hs (fwd_lt (hhome k) hs)
    rw [hT] at hT'
    cases hT'
    exact absurd rfl hne

theorem Sound.lookup_eq_some_iff [DecidableEq K] (h : Sound cap home cut T) :
    lookup cap home T k = some v ↔ Holds cap T k v := by
  constructor
  · intro hlookup
    have hspec := search_spec (T := T) (hhome k)
    rw [lookup] at hlookup
    cases hres : search cap T k cap (home k) with
    | found i =>
      rw [hres] at hspec hlookup
      obtain ⟨hi, ⟨w, hT⟩, -⟩ := hspec
      have hw : (T i).map Prod.snd = some v := hlookup
      rw [hT] at hw
      cases hw
      exact ⟨i, hi, hT⟩
    | unused | full =>
      rw [hres] at hlookup
      cases hlookup
  · rintro ⟨s, hs, hT⟩
    simp [lookup, h.search_of_stored hhome hs hT, hT]

theorem uncrossed_of_unused (hi : i < cap) (hnone : T i = none)
    (hpath : ∀ s < cap, ∀ k v, T s = some (k, v) →
      ∀ y < cap, fwd cap (home k) y < fwd cap (home k) s → T y ≠ none) (hs : s < cap)
    (hT : T s = some (k, v)) : fwd cap (nxt cap i) (home k) ≤ fwd cap (nxt cap i) s := by
  rw [fwd_nxt_le_iff (hhome k) hs hi]
  grind

omit hhome in
theorem Sound.replace (h : Sound cap home cut T) (hT : T i = some (k, v)) (w : V) :
    Sound cap home cut (update T i (some (k, w))) := by
  -- the slots hold the same keys as before
  have hback {s : ℕ} {k' : K} {v' : V} (hs : update T i (some (k, w)) s = some (k', v')) :
      ∃ v'', T s = some (k', v'') := by grind
  refine ⟨h.cut_lt, ?_, ?_, ?_⟩
  · intro s hs t ht k' v1 v2 h1 h2
    obtain ⟨w1, h1⟩ := hback h1
    obtain ⟨w2, h2⟩ := hback h2
    exact h.unique s hs t ht k' w1 w2 h1 h2
  · intro s hs k' v1 h1 y hy hlt
    obtain ⟨w1, h1⟩ := hback h1
    by_cases heq : y = i
    · subst heq
      simp
    · rw [update_of_ne heq]
      exact h.path s hs k' w1 h1 y hy hlt
  · intro s hs k' v1 h1
    obtain ⟨w1, h1⟩ := hback h1
    exact h.uncrossed s hs k' w1 h1

theorem Sound.insert (h : Sound cap home cut T) (hnew : ∀ w, ¬Holds cap T k w) (hi : i < cap)
    (hnone : T i = none) (hpassed : Passed cap home T k (fwd cap (home k) i)) (v : V) :
    Sound cap home (nxt cap i) (update T i (some (k, v))) := by
  have hcases {s : ℕ} {k' : K} {v' : V} (hs : update T i (some (k, v)) s = some (k', v')) :
      s = i ∧ k' = k ∨ s ≠ i ∧ T s = some (k', v') := by grind
  refine ⟨nxt_lt hi, ?_, ?_, ?_⟩
  · intro s hs t ht k' v1 v2 h1 h2
    rcases hcases h1 with ⟨hs', hk1⟩ | ⟨-, hT1⟩ <;> rcases hcases h2 with ⟨ht', hk2⟩ | ⟨-, hT2⟩
    · exact hs'.trans ht'.symm
    · exact absurd ⟨t, ht, hk1 ▸ hT2⟩ (hnew v2)
    · exact absurd ⟨s, hs, hk2 ▸ hT1⟩ (hnew v1)
    · exact h.unique s hs t ht k' v1 v2 hT1 hT2
  · intro s hs k' v1 h1 y hy hlt
    by_cases heq : y = i
    · subst heq
      simp
    rw [update_of_ne heq]
    rcases hcases h1 with ⟨rfl, rfl⟩ | ⟨-, h1⟩
    · obtain ⟨k2, v2, hT, -⟩ := hpassed y hy hlt
      simp [hT]
    · exact h.path s hs k' v1 h1 y hy hlt
  · intro s hs k' v1 h1
    rcases hcases h1 with ⟨rfl, rfl⟩ | ⟨-, h1⟩
    · rw [fwd_nxt_le_iff (hhome k') hs hs]
    · exact uncrossed_of_unused hhome hi hnone h.path hs h1

end Sound

/-! ## Backward shifts -/

def Displaced (home : K → ℕ) (T : Table K V) (s : ℕ) : Prop :=
  ∃ k v, T s = some (k, v) ∧ home k ≠ s

/-- The entry of slot `i` is removed: those of the next `m` slots move back by
one, and the last of these slots becomes empty. -/
def shiftOut (cap : ℕ) (T : Table K V) (i m : ℕ) : Table K V := fun x =>
  if x < cap then
    if fwd cap i x < m then T (nxt cap x) else if fwd cap i x = m then none else T x
  else T x

/-- The `m` slots after `i` hold displaced keys. -/
def DisplacedRun (cap : ℕ) (home : K → ℕ) (T : Table K V) (i m : ℕ) : Prop :=
  ∀ x < cap, 0 < fwd cap i x → fwd cap i x ≤ m → Displaced home T x

/-- The run of displaced keys after `i` has length `m`. -/
structure MaximalRun (cap : ℕ) (home : K → ℕ) (T : Table K V) (i m : ℕ) : Prop where
  lt : m < cap
  run : DisplacedRun cap home T i m
  stop : ∀ x < cap, fwd cap i x = m + 1 → ¬Displaced home T x

/-- No key beyond the slots that are shifted is looked for across the slot that
becomes empty. -/
def ShiftKeeps (cap : ℕ) (home : K → ℕ) (T : Table K V) (i m : ℕ) : Prop :=
  ∀ p < cap, fwd cap i p = m → ∀ s < cap, m < fwd cap i s → ∀ k v, T s = some (k, v) →
    ¬fwd cap (home k) p < fwd cap (home k) s

instance Displaced.decidable (home : K → ℕ) (T : Table K V) (s : ℕ) :
    Decidable (Displaced home T s) :=
  match h : T s with
  | none => isFalse (by simp [Displaced, h])
  | some (k, v) => decidable_of_iff (home k ≠ s) (by simp [Displaced, h])

instance DisplacedRun.decidable (cap : ℕ) (home : K → ℕ) (T : Table K V) (i m : ℕ) :
    Decidable (DisplacedRun cap home T i m) :=
  inferInstanceAs (Decidable (∀ x < cap, _ → _ → Displaced home T x))

instance MaximalRun.decidable (cap : ℕ) (home : K → ℕ) (T : Table K V) (i m : ℕ) :
    Decidable (MaximalRun cap home T i m) :=
  decidable_of_iff (m < cap ∧ DisplacedRun cap home T i m ∧
      ∀ x < cap, fwd cap i x = m + 1 → ¬Displaced home T x)
    ⟨fun h => ⟨h.1, h.2.1, h.2.2⟩, fun h => ⟨h.lt, h.run, h.stop⟩⟩

instance ShiftKeeps.decidable (cap : ℕ) (home : K → ℕ) (T : Table K V) (i m : ℕ) :
    Decidable (ShiftKeeps cap home T i m) :=
  have (p s : ℕ) : Decidable (∀ k v, T s = some (k, v) →
      ¬fwd cap (home k) p < fwd cap (home k) s) :=
    match h : T s with
    | none => isTrue (by simp)
    | some (k, v) => decidable_of_iff (¬fwd cap (home k) p < fwd cap (home k) s) (by simp)
  inferInstanceAs (Decidable (∀ p < cap, _ → ∀ s < cap, _ → ∀ k v, _ → _))

section Shift

variable {cut i m : ℕ} (hhome : ∀ k, home k < cap)

include hhome

theorem Sound.not_displaced_cut (h : Sound cap home cut T) : ¬Displaced home T cut := by
  rintro ⟨k, v, hT, hne⟩
  have hle := h.uncrossed cut h.cut_lt k v hT
  rw [fwd_self] at hle
  exact hne (fwd_eq_zero h.cut_lt (hhome k) (Nat.le_zero.mp hle))

theorem Sound.home_of_displacedRun (h : Sound cap home cut T) (hi : i < cap)
    (hrun : DisplacedRun cap home T i (cap - 1)) (hcap : 1 < cap) {k : K} {v : V}
    (hT : T (nxt cap i) = some (k, v)) : home k = i := by
  have hcut : cut = i := by
    by_contra hne
    apply h.not_displaced_cut hhome
    apply hrun cut h.cut_lt
    · rw [Nat.pos_iff_ne_zero]
      exact fun hzero => hne (fwd_eq_zero hi h.cut_lt hzero)
    · have := fwd_lt hi h.cut_lt
      omega
  subst hcut
  have hnxt := nxt_lt hi
  have hone : fwd cap cut (nxt cap cut) = 1 := by
    rw [fwd_nxt hi hi (by simpa using hcap), fwd_self]
  obtain ⟨k', v', hT', hne⟩ := hrun _ hnxt (by omega) (by omega)
  rw [hT] at hT'
  cases hT'
  have hle := h.uncrossed _ hnxt k v hT
  rw [hone] at hle
  rcases Nat.le_one_iff_eq_zero_or_eq_one.mp hle with hzero | heq
  · exact fwd_eq_zero hi (hhome k) hzero
  · exact absurd (fwd_inj hi (hhome k) hnxt (heq.trans hone.symm)) hne

omit hhome in
theorem MaximalRun.le (hi : i < cap) (h : MaximalRun cap home T i m)
    (hrun : DisplacedRun cap home T i n) (hn : n < cap) : n ≤ m := by
  by_contra hlt
  obtain ⟨x, hx, hfwd⟩ := exists_fwd hi (show m + 1 < cap by omega)
  exact h.stop x hx hfwd (hrun x hx (by omega) (by omega))

omit hhome in
theorem MaximalRun.unique (hi : i < cap) (h : MaximalRun cap home T i m)
    (h' : MaximalRun cap home T i n) : m = n :=
  le_antisymm (h'.le hi h.run h.lt) (h.le hi h'.run h'.lt)

omit hhome in
theorem shiftOut_eq_some (hx : x < cap) {k : K} {v : V} (h : shiftOut cap T i m x = some (k, v)) :
    fwd cap i x < m ∧ T (nxt cap x) = some (k, v) ∨ m < fwd cap i x ∧ T x = some (k, v) := by
  rw [shiftOut, if_pos hx] at h
  grind

omit hhome in
theorem shiftOut_of_lt (hx : x < cap) (h : fwd cap i x < m) :
    shiftOut cap T i m x = T (nxt cap x) := by rw [shiftOut, if_pos hx, if_pos h]

omit hhome in
theorem shiftOut_of_eq (hx : x < cap) (h : fwd cap i x = m) : shiftOut cap T i m x = none := by
  rw [shiftOut, if_pos hx, if_neg (by omega), if_pos h]

omit hhome in
theorem shiftOut_of_gt (h : m < fwd cap i x) : shiftOut cap T i m x = T x := by
  have hlt : ¬fwd cap i x < m := by omega
  have hne : fwd cap i x ≠ m := by omega
  rw [shiftOut, if_neg hlt, if_neg hne, ite_self]

omit hhome in
theorem Sound.shiftOut_unique (h : Sound cap home cut T) (hi : i < cap) (hm : m < cap) {t : ℕ}
    (hs : s < cap) (ht : t < cap) {k : K} {v w : V} (h1 : shiftOut cap T i m s = some (k, v))
    (h2 : shiftOut cap T i m t = some (k, w)) : s = t := by
  rcases shiftOut_eq_some hs h1 with ⟨hlt1, hT1⟩ | ⟨hgt1, hT1⟩ <;>
    rcases shiftOut_eq_some ht h2 with ⟨hlt2, hT2⟩ | ⟨hgt2, hT2⟩
  · have heq := h.unique _ (nxt_lt hs) _ (nxt_lt ht) k v w hT1 hT2
    have hfs := fwd_nxt hi hs (by omega)
    grind [fwd_inj, fwd_nxt]
  · have heq := h.unique _ (nxt_lt hs) _ ht k v w hT1 hT2
    grind [fwd_nxt]
  · have heq := h.unique _ hs _ (nxt_lt ht) k v w hT1 hT2
    grind [fwd_nxt]
  · exact h.unique s hs t ht k v w hT1 hT2

theorem Sound.moved_path (h : Sound cap home cut T) (hi : i < cap) (hm : m < cap)
    (hrun : DisplacedRun cap home T i m) {p : ℕ} (hp : p < cap) (hpm : fwd cap i p = m)
    (hx : x < cap) (hxm : fwd cap i x < m) {k : K} {v : V} (hT : T (nxt cap x) = some (k, v)) :
    ¬fwd cap (home k) p < fwd cap (home k) x := by
  have hfx := fwd_nxt hi hx (by omega)
  obtain ⟨k', v', hT', hne⟩ := hrun _ (nxt_lt hx) (by omega) (by omega)
  rw [hT] at hT'
  cases hT'
  have hcut : fwd cap i cut = 0 ∨ m < fwd cap i cut := by
    by_contra hno
    apply h.not_displaced_cut hhome
    apply hrun cut h.cut_lt <;> omega
  have hxp := fwd_lt_fwd hx hp h.cut_lt hi (by omega) (by omega)
  have hp' := fwd_lt h.cut_lt hp
  have hxnxt := fwd_nxt h.cut_lt hx (by omega)
  have hle := h.uncrossed _ (nxt_lt hx) k v hT
  have hne' : fwd cap cut (home k) ≠ fwd cap cut (nxt cap x) := fun heq =>
    hne (fwd_inj h.cut_lt (hhome k) (nxt_lt hx) heq)
  rw [fwd_eq_sub (hhome k) hp h.cut_lt (by omega), fwd_eq_sub (hhome k) hx h.cut_lt (by omega)]
  omega

theorem Sound.shiftOut (h : Sound cap home cut T) (hi : i < cap) (hm : m < cap)
    (hrun : DisplacedRun cap home T i m) (hkeeps : ShiftKeeps cap home T i m) {p : ℕ}
    (hp : p < cap) (hpm : fwd cap i p = m) : Sound cap home (nxt cap p) (shiftOut cap T i m) := by
  have hpath : ∀ s < cap, ∀ k v, Probing.shiftOut cap T i m s = some (k, v) →
      ∀ y < cap, fwd cap (home k) y < fwd cap (home k) s →
        Probing.shiftOut cap T i m y ≠ none := by
    intro s hs k v hs' y hy hlt
    rcases lt_trichotomy (fwd cap i y) m with hym | hym | hym
    · -- the entry after `y` is displaced, so there is one
      have hfy := fwd_nxt hi hy (by omega)
      obtain ⟨k', v', hT', -⟩ := hrun _ (nxt_lt hy) (by omega) (by omega)
      rw [shiftOut_of_lt hy hym, hT']
      simp
    · rcases shiftOut_eq_some hs hs' with ⟨hsm, hT⟩ | ⟨hsm, hT⟩
      · exact absurd hlt (h.moved_path hhome hi hm hrun hy hym hs hsm hT)
      · exact absurd hlt (hkeeps y hy hym s hs hsm k v hT)
    · rw [shiftOut_of_gt hym]
      rcases shiftOut_eq_some hs hs' with ⟨hsm, hT⟩ | ⟨hsm, hT⟩
      · have hfs := fwd_nxt hi hs (by omega)
        obtain ⟨k', v', hT', hne⟩ := hrun _ (nxt_lt hs) (by omega) (by omega)
        rw [hT] at hT'
        cases hT'
        have hlast : fwd cap (home k) s + 1 ≠ cap := fun heq =>
          hne (nxt_of_fwd (hhome k) hs heq).symm
        have hle := fwd_lt (hhome k) hs
        have hfs' := fwd_nxt (hhome k) hs (by omega)
        exact h.path _ (nxt_lt hs) k v hT y hy (by omega)
      · exact h.path s hs k v hT y hy hlt
  refine ⟨nxt_lt hp, ?_, hpath, ?_⟩
  · intro s hs t ht k v w h1 h2
    exact h.shiftOut_unique hi hm hs ht h1 h2
  · intro s hs k v hs'
    exact uncrossed_of_unused hhome hp (shiftOut_of_eq hp hpm) hpath hs hs'

omit hhome in
theorem Sound.holds_shiftOut (h : Sound cap home cut T) (hi : i < cap) (hm : m < cap)
    {k0 : K} {v0 : V} (hT0 : T i = some (k0, v0)) {k : K} {v : V} :
    Holds cap (Probing.shiftOut cap T i m) k v ↔ k ≠ k0 ∧ Holds cap T k v := by
  have hother {s : ℕ} (hs : s < cap) (hpos : 0 < fwd cap i s) (hT : T s = some (k, v)) :
      k ≠ k0 := by
    rintro rfl
    rw [h.unique s hs i hi k v v0 hT hT0, fwd_self] at hpos
    omega
  constructor
  · rintro ⟨s, hs, hs'⟩
    rcases shiftOut_eq_some hs hs' with ⟨hsm, hT⟩ | ⟨hsm, hT⟩
    · have hfs := fwd_nxt hi hs (by omega)
      exact ⟨hother (nxt_lt hs) (by omega) hT, _, nxt_lt hs, hT⟩
    · exact ⟨hother hs (by omega) hT, s, hs, hT⟩
  · rintro ⟨hne, s, hs, hT⟩
    rcases Nat.lt_or_ge m (fwd cap i s) with hsm | hsm
    · exact ⟨s, hs, by rw [shiftOut_of_gt hsm, hT]⟩
    have hpos : 0 < fwd cap i s := by
      rw [Nat.pos_iff_ne_zero]
      intro hzero
      rw [fwd_eq_zero hi hs hzero, hT0] at hT
      cases hT
      exact hne rfl
    obtain ⟨x, hx, rfl, hfx⟩ := exists_nxt hi hs hpos
    exact ⟨x, hx, by rw [shiftOut_of_lt hx (by omega), hT]⟩

theorem Sound.lookup_shiftOut_of_not_keeps [DecidableEq K] (h : Sound cap home cut T)
    (hi : i < cap) (hm : m < cap) (hno : ¬ShiftKeeps cap home T i m) :
    ∃ k v, (∀ w, T i ≠ some (k, w)) ∧ Holds cap T k v ∧
      lookup cap home (Probing.shiftOut cap T i m) k = none := by
  rw [ShiftKeeps] at hno
  push Not at hno
  obtain ⟨p, hp, hpm, s, hs, hsm, k, v, hT, hlt⟩ := hno
  refine ⟨k, v, ?_, ⟨s, hs, hT⟩, ?_⟩
  · intro w hT'
    rw [h.unique s hs i hi k v w hT hT', fwd_self] at hsm
    omega
  · have hs' : Probing.shiftOut cap T i m s = some (k, v) := by rw [shiftOut_of_gt hsm, hT]
    have hspec := search_spec (T := Probing.shiftOut cap T i m) (hhome k)
    rw [lookup]
    cases hres : search cap (Probing.shiftOut cap T i m) k cap (home k) with
    | unused j => rfl
    | full => rfl
    | found j =>
      rw [hres] at hspec
      obtain ⟨hj, ⟨w, hj'⟩, hpassed⟩ := hspec
      obtain rfl := h.shiftOut_unique hi hm hj hs hj' hs'
      obtain ⟨k', v', hp', -⟩ := hpassed p hp hlt
      rw [shiftOut_of_eq hp hpm] at hp'
      cases hp'

end Shift

/-! ## A hole that travels

The entries in all slots but one, while entries are copied into that slot from the
next.  The sum of their distances from home bounds the number of copies. -/

section Hole

variable {hole : ℕ}

def contents (cap : ℕ) (T : Table K V) : Multiset (K × V) := (Multiset.range cap).filterMap T

def besides (cap : ℕ) (T : Table K V) (hole : ℕ) : Multiset (K × V) :=
  ((Multiset.range cap).erase hole).filterMap T

def offset (cap : ℕ) (home : K → ℕ) (i : ℕ) : Option (K × V) → ℕ
  | none => 0
  | some (k, _) => fwd cap (home k) i

/-- How far the entries in the other slots are from their homes. -/
def displacement (cap : ℕ) (home : K → ℕ) (T : Table K V) (hole : ℕ) : ℕ :=
  (((Multiset.range cap).erase hole).map fun i => offset cap home i (T i)).sum

theorem mem_contents {e : K × V} : e ∈ contents cap T ↔ ∃ i < cap, T i = some e := by
  rw [contents, Multiset.mem_filterMap]
  simp

theorem cons_range_erase (hh : hole < cap) :
    hole ::ₘ (Multiset.range cap).erase hole = Multiset.range cap :=
  Multiset.cons_erase (Multiset.mem_range.mpr hh)

theorem not_mem_range_erase : hole ∉ (Multiset.range cap).erase hole :=
  (Multiset.nodup_range cap).notMem_erase

theorem filterMap_update_of_notMem {s : Multiset ℕ} (hs : hole ∉ s) (e : Option (K × V)) :
    s.filterMap (update T hole e) = s.filterMap T := by
  grind [Multiset.filterMap_eq_bind, update_of_ne, Multiset.bind_congr]

theorem contents_update (hh : hole < cap) (e : Option (K × V)) : contents cap (update T hole e) =
      (hole ::ₘ (Multiset.range cap).erase hole).filterMap (update T hole e) := by
  rw [cons_range_erase hh, contents]

theorem card_filterMap (s : Multiset ℕ) (T : Table K V) :
    (s.filterMap T).card = s.countP fun i => (T i).isSome := by
  induction s using Multiset.induction with
  | empty => rfl
  | cons i s ih =>
    cases hT : T i with
    | none => rw [Multiset.filterMap_cons_none _ _ hT, Multiset.countP_cons_of_neg _ (by simp [hT]), ih]
    | some e => simp_all

theorem card_contents (cap : ℕ) (T : Table K V) :
    (contents cap T).card = ((Finset.range cap).filter fun i => (T i).isSome).card := by
  rw [Finset.card_def, Finset.filter_val, Finset.range_val, ← Multiset.countP_eq_card_filter,
    contents, card_filterMap]

theorem card_besides_lt (hh : hole < cap) (T : Table K V) : (besides cap T hole).card < cap := by
  have hle := Multiset.countP_le_card (fun i => (T i).isSome = true)
    ((Multiset.range cap).erase hole)
  rw [Multiset.card_erase_of_mem (Multiset.mem_range.mpr hh), Multiset.card_range,
    ← card_filterMap] at hle
  exact lt_of_le_of_lt hle (Nat.pred_lt (Nat.ne_of_gt (Nat.zero_lt_of_lt hh)))

theorem contents_update_none (hh : hole < cap) :
    contents cap (update T hole none) = besides cap T hole := by
  rw [contents_update hh, Multiset.filterMap_cons_none _ _ (update_self ..)]
  exact filterMap_update_of_notMem not_mem_range_erase none

theorem contents_update_some (hh : hole < cap) (e : K × V) :
    contents cap (update T hole (some e)) = e ::ₘ besides cap T hole := by
  rw [contents_update hh, Multiset.filterMap_cons_some _ _ _ (update_self ..)]
  exact congrArg _ (filterMap_update_of_notMem not_mem_range_erase (some e))

theorem contents_eq_cons (hh : hole < cap) {e : K × V} (hT : T hole = some e) :
    contents cap T = e ::ₘ besides cap T hole := by
  rw [← contents_update_some hh e, ← hT, update_eq_self]

theorem contents_of_unused (hh : hole < cap) (hT : T hole = none) :
    contents cap T = besides cap T hole := by rw [← contents_update_none hh, ← hT, update_eq_self]

theorem range_erase_eq_cons {a b : ℕ} (hb : b < cap) (hne : b ≠ a) :
    (Multiset.range cap).erase a = b ::ₘ ((Multiset.range cap).erase a).erase b := by
  simp_all [Multiset.mem_erase_of_ne, Multiset.cons_erase, Multiset.mem_range.mpr]

theorem besides_move {next : ℕ} (hh : hole < cap) (hn : next < cap) (hne : next ≠ hole) :
    besides cap (update T hole (T next)) next = besides cap T hole := by
  have hrest : hole ∉ ((Multiset.range cap).erase next).erase hole :=
    ((Multiset.nodup_range cap).erase next).notMem_erase
  rw [besides, besides, range_erase_eq_cons hh hne.symm, range_erase_eq_cons hn hne,
    Multiset.erase_comm (Multiset.range cap) hole next]
  cases hT : T next with
  | none => simp_all [Multiset.filterMap_cons_none, filterMap_update_of_notMem]
  | some e =>
    rw [Multiset.filterMap_cons_some _ _ _ (update_self ..), Multiset.filterMap_cons_some _ _ _ hT]
    exact congrArg _ (filterMap_update_of_notMem hrest (some e))

theorem displacement_move {k : K} {v : V} (hh : hole < cap) (hhome : home k < cap)
    (hT : T (nxt cap hole) = some (k, v)) (haway : home k ≠ nxt cap hole) :
    displacement cap home (update T hole (T (nxt cap hole))) (nxt cap hole) + 1 =
      displacement cap home T hole := by
  have hn := nxt_lt hh
  have hstep := fwd_nxt_of_ne hhome hh haway
  have hne := nxt_ne_self hhome hh haway
  have hrest : hole ∉ ((Multiset.range cap).erase (nxt cap hole)).erase hole :=
    ((Multiset.nodup_range cap).erase _).notMem_erase
  rw [displacement, displacement, range_erase_eq_cons hh hne.symm, range_erase_eq_cons hn hne,
    Multiset.erase_comm (Multiset.range cap) hole, Multiset.map_cons, Multiset.map_cons,
    Multiset.sum_cons, Multiset.sum_cons, update_self, hT]
  grind [update_of_ne, offset, Multiset.map_congr]

end Hole

end Probing
