import Mathlib

/-!
# Radix tables in memory

A tree of fixed depth whose nodes are tables of entries in frames of a memory.
An entry that is present leads to a table, or at the last level is a leaf.  The
tables are described by a partial function from paths to frames, the last index
of a path coming first: no frame is the table of two paths.  A leaf that is set
changes what is found at one path only, and a table that is added to a free frame
changes nothing that is found.
-/

namespace RadixTable

open Function

variable {A E I : Type}

/-- How tables lie in the memory and what their entries mean. -/
structure Space (A E I : Type) where
  slot : A → I → A
  present : E → Bool
  target : E → A
  blank : E
  /-- The frames that can hold tables. -/
  Frame : A → Prop
  /-- The form of the entries that lead to tables. -/
  Link : E → Prop
  slot_inj : ∀ {t u i j}, Frame t → Frame u → slot t i = slot u j → t = u ∧ i = j
  blank_absent : present blank = false

namespace Space

variable (S : Space A E I)

def trace (mem : A → E) (t : A) : List I → Option (List E)
  | [] => some []
  | i :: is =>
    if S.present (mem (S.slot t i)) then
      (trace mem (S.target (mem (S.slot t i))) is).map (mem (S.slot t i) :: ·)
    else none

/-- The entries along a path up to the first that is not present. -/
def linked (mem : A → E) (t : A) : List I → List E
  | [] => []
  | i :: is =>
    if S.present (mem (S.slot t i)) then
      mem (S.slot t i) :: linked mem (S.target (mem (S.slot t i))) is
    else []

def follow (mem : A → E) (t : A) : List I → Option A
  | [] => some t
  | i :: is =>
    if S.present (mem (S.slot t i)) then follow mem (S.target (mem (S.slot t i))) is else none

/-- A memory holds the tables `tab`, of paths of at most `D` indices. -/
structure Tree (D : ℕ) (mem : A → E) (tab : List I → Option A) : Prop where
  short : ∀ {p t}, tab p = some t → p.length ≤ D
  frame : ∀ {p t}, tab p = some t → S.Frame t
  inj : ∀ {p q t}, tab p = some t → tab q = some t → p = q
  closed : ∀ {p} (i), tab p = none → tab (i :: p) = none
  child : ∀ {p t} (i), tab p = some t → p.length < D →
    tab (i :: p) =
      if S.present (mem (S.slot t i)) then some (S.target (mem (S.slot t i))) else none
  link : ∀ {p t} (i), tab p = some t → p.length < D → S.present (mem (S.slot t i)) →
    S.Link (mem (S.slot t i))

/-- A memory in which a frame was cleared and the other frames are as before. -/
structure Cleared (mem mem' : A → E) (f : A) : Prop where
  blank : ∀ j, mem' (S.slot f j) = S.blank
  same : ∀ {u} (j), S.Frame u → u ≠ f → mem' (S.slot u j) = mem (S.slot u j)

variable {S} {D : ℕ} {mem : A → E} {tab : List I → Option A} {p : List I} {t : A} {i : I}

theorem follow_cons_of_present {is : List I} (h : S.present (mem (S.slot t i)) = true) :
    S.follow mem t (i :: is) = S.follow mem (S.target (mem (S.slot t i))) is := by
  rw [follow, if_pos h]

theorem follow_cons_of_absent {is : List I} (h : S.present (mem (S.slot t i)) = false) :
    S.follow mem t (i :: is) = none := by rw [follow, if_neg (by rw [h]; exact Bool.false_ne_true)]

theorem trace_cons_of_present {is : List I} (h : S.present (mem (S.slot t i)) = true) :
    S.trace mem t (i :: is) =
      (S.trace mem (S.target (mem (S.slot t i))) is).map (mem (S.slot t i) :: ·) := by
  rw [trace, if_pos h]

theorem trace_cons_of_absent {is : List I} (h : S.present (mem (S.slot t i)) = false) :
    S.trace mem t (i :: is) = none := by rw [trace, if_neg (by rw [h]; exact Bool.false_ne_true)]

theorem linked_cons_of_present {is : List I} (h : S.present (mem (S.slot t i)) = true) :
    S.linked mem t (i :: is) =
      mem (S.slot t i) :: S.linked mem (S.target (mem (S.slot t i))) is := by rw [linked, if_pos h]

theorem linked_cons_of_absent {is : List I} (h : S.present (mem (S.slot t i)) = false) :
    S.linked mem t (i :: is) = [] := by rw [linked, if_neg (by rw [h]; exact Bool.false_ne_true)]

theorem trace_ne_some_nil {is : List I} (j : I) : S.trace mem t (is ++ [j]) ≠ some [] := by
  intro h
  cases is with
  | nil => grind [trace]
  | cons i is => simp_all [trace]

theorem trace_getLast (is : List I) (j : I) : (S.trace mem t (is ++ [j])).bind List.getLast? =
      (S.follow mem t is).bind fun u =>
        if S.present (mem (S.slot u j)) then some (mem (S.slot u j)) else none := by
  induction is generalizing t with
  | nil => grind [trace, follow]
  | cons i is ih =>
    rw [List.cons_append, trace, follow]
    split
    · grind [Option.bind_congr, trace_ne_some_nil]
    · rfl

namespace Tree

variable (h : S.Tree D mem tab)

include h

theorem child_of_present (hp : tab p = some t) (hlt : p.length < D)
    (hi : S.present (mem (S.slot t i)) = true) :
    tab (i :: p) = some (S.target (mem (S.slot t i))) := by rw [h.child i hp hlt, if_pos hi]

theorem child_of_absent (hp : tab p = some t) (hlt : p.length < D)
    (hi : S.present (mem (S.slot t i)) = false) : tab (i :: p) = none := by
  rw [h.child i hp hlt, if_neg (by rw [hi]; exact Bool.false_ne_true)]

theorem follow_eq (hp : tab p = some t) {is : List I} (hlen : p.length + is.length ≤ D) :
    S.follow mem t is = tab (is.reverse ++ p) := by
  induction is generalizing p t with
  | nil => exact hp.symm
  | cons i is ih =>
    rw [List.length_cons] at hlen
    rw [follow, List.reverse_cons, List.append_assoc, List.singleton_append]
    cases hi : S.present (mem (S.slot t i)) with
    | true =>
      apply ih (h.child_of_present hp (by omega) hi)
      rw [List.length_cons]
      omega
    | false =>
      have hnone := h.child_of_absent hp (by omega) hi
      induction is.reverse with
      | nil => exact hnone.symm
      | cons j js ihj =>
        exact (h.closed j ihj.symm).symm

theorem link_of_mem_linked (hp : tab p = some t) {is : List I}
    (hlen : p.length + is.length ≤ D) : ∀ e ∈ S.linked mem t is, S.Link e := by
  induction is generalizing p t with
  | nil => exact fun e he => absurd he List.not_mem_nil
  | cons i is ih =>
    rw [List.length_cons] at hlen
    cases hi : S.present (mem (S.slot t i)) with
    | true =>
      rw [linked_cons_of_present hi, List.forall_mem_cons]
      refine ⟨h.link i hp (by omega) hi, ?_⟩
      apply ih (h.child_of_present hp (by omega) hi)
      rw [List.length_cons]
      omega
    | false => simp [linked_cons_of_absent hi]

/-! ## Setting a leaf -/

theorem slot_ne (hp : tab p = some t) {q : List I} {u : A} {j : I} (hq : tab q = some u)
    (hne : (q, j) ≠ (p, i)) : S.slot u j ≠ S.slot t i := by
  intro heq
  obtain ⟨rfl, rfl⟩ := S.slot_inj (h.frame hq) (h.frame hp) heq
  exact hne (by rw [h.inj hq hp])

section SetLeaf

variable [DecidableEq A]

theorem setLeaf (hp : tab p = some t) (hD : p.length = D) (i : I) (e : E) :
    S.Tree D (update mem (S.slot t i) e) tab where
  short := h.short
  frame := h.frame
  inj := h.inj
  closed := h.closed
  child := by
    intro q u j hq hlt
    have hne : (q, j) ≠ (p, i) := by
      rintro ⟨⟩
      omega
    rw [update_of_ne (h.slot_ne hp hq hne)]
    exact h.child j hq hlt
  link := by
    intro q u j hq hlt
    have hne : (q, j) ≠ (p, i) := by
      rintro ⟨⟩
      omega
    rw [update_of_ne (h.slot_ne hp hq hne)]
    exact h.link j hq hlt

theorem trace_setLeaf_of_ne (hp : tab p = some t) (hD : p.length = D) (i : I) (e : E)
    {q : List I} {u : A} (hq : tab q = some u) {is : List I}
    (hlen : q.length + is.length ≤ D + 1) (hne : is.reverse ++ q ≠ i :: p) :
    S.trace (update mem (S.slot t i) e) u is = S.trace mem u is := by
  induction is generalizing q u with
  | nil => rfl
  | cons j is ih =>
    rw [List.length_cons] at hlen
    rw [List.reverse_cons, List.append_assoc, List.singleton_append] at hne
    have hslot : S.slot u j ≠ S.slot t i := by
      apply h.slot_ne hp hq
      rintro ⟨⟩
      have hnil : is = [] := List.length_eq_zero_iff.mp (by omega)
      rw [hnil] at hne
      exact hne rfl
    rw [trace, trace, update_of_ne hslot]
    cases hj : S.present (mem (S.slot u j)) with
    | false => rfl
    | true =>
      cases is with
      | nil => rfl
      | cons k is =>
        rw [List.length_cons] at hlen
        rw [ih (h.child_of_present hq (by omega) hj) (by simp only [List.length_cons]; omega) hne]

theorem trace_setLeaf (hp : tab p = some t) (hD : p.length = D) (i : I) (e : E) {q : List I}
    {u : A} (hq : tab q = some u) {is : List I} (hpath : is.reverse ++ q = p) :
    S.trace (update mem (S.slot t i) e) u (is ++ [i]) =
      (S.trace mem u is).bind fun es => if S.present e then some (es ++ [e]) else none := by
  induction is generalizing q u with
  | nil =>
    cases hpath
    cases hp.symm.trans hq
    have hself : update mem (S.slot t i) e (S.slot t i) = e := update_self ..
    rw [List.nil_append]
    cases he : S.present e with
    | true =>
      rw [trace_cons_of_present (by rw [hself]; exact he), hself]
      rfl
    | false => simp_all [trace_cons_of_absent]
  | cons j is ih =>
    rw [List.reverse_cons, List.append_assoc, List.singleton_append] at hpath
    have hlong : q.length < p.length := by grind
    have hslot : S.slot u j ≠ S.slot t i := by
      apply h.slot_ne hp hq
      rintro ⟨⟩
      omega
    rw [List.cons_append, trace, trace, update_of_ne hslot]
    cases hj : S.present (mem (S.slot u j)) with
    | false => rfl
    | true =>
      rw [if_pos rfl, if_pos rfl, ih (h.child_of_present hq (by omega) hj) hpath]
      grind

end SetLeaf

/-! ## Adding a table -/

section Grow

variable [DecidableEq A] {mem' : A → E} {f : A} {e : E}

omit h in
theorem grown_slot (hc : S.Cleared mem mem' f) (ht : S.Frame t) {u : A} {j : I}
    (hu : S.Frame u) (huf : u ≠ f) (hne : (u, j) ≠ (t, i)) :
    update mem' (S.slot t i) e (S.slot u j) = mem (S.slot u j) := by
  rw [update_of_ne, hc.same j hu huf]
  grind [S.slot_inj]

omit h in
theorem grown_slot_new (hc : S.Cleared mem mem' f) (ht : S.Frame t) (hf : S.Frame f)
    (htf : t ≠ f) (j : I) : update mem' (S.slot t i) e (S.slot f j) = S.blank := by
  rw [update_of_ne, hc.blank]
  intro heq
  exact htf (S.slot_inj hf ht heq).1.symm

theorem grow [DecidableEq I] (hp : tab p = some t) (hlt : p.length < D)
    (hi : S.present (mem (S.slot t i)) = false) (hf : S.Frame f) (hfresh : ∀ q, tab q ≠ some f)
    (hc : S.Cleared mem mem' f) (he : S.present e = true) (htarget : S.target e = f)
    (hlink : S.Link e) : S.Tree D (update mem' (S.slot t i) e) (update tab (i :: p) (some f)) := by
  have ht := h.frame hp
  have htf : t ≠ f := by
    rintro rfl
    exact hfresh p hp
  have hnone := h.child_of_absent hp hlt hi
  -- a table is the new one or one from before
  have hcases : ∀ {q u}, update tab (i :: p) (some f) q = some u →
      q = i :: p ∧ u = f ∨ q ≠ i :: p ∧ tab q = some u := by grind
  constructor
  case short =>
    intro q u hq
    rcases hcases hq with ⟨rfl, -⟩ | ⟨-, hq⟩
    · exact hlt
    · exact h.short hq
  case frame =>
    intro q u hq
    rcases hcases hq with ⟨-, rfl⟩ | ⟨-, hq⟩
    · exact hf
    · exact h.frame hq
  case inj =>
    intro q q' u hq hq'
    rcases hcases hq with ⟨rfl, rfl⟩ | ⟨-, hold⟩
    · grind
    · rcases hcases hq' with ⟨-, rfl⟩ | ⟨-, hold'⟩
      · exact absurd hold (hfresh q)
      · exact h.inj hold hold'
  case closed =>
    intro q j hq
    have hqp : q ≠ i :: p := by
      rintro rfl
      rw [update_self] at hq
      cases hq
    rw [update_of_ne hqp] at hq
    have hjq : j :: q ≠ i :: p := by
      rintro ⟨⟩
      cases hp.symm.trans hq
    rw [update_of_ne hjq]
    exact h.closed j hq
  case child =>
    intro q u j hq hqlt
    rcases hcases hq with ⟨rfl, rfl⟩ | ⟨-, hold⟩
    · -- the new table is blank
      rw [grown_slot_new hc ht hf htf, S.blank_absent, if_neg Bool.false_ne_true,
        update_of_ne (by simp)]
      exact h.closed j hnone
    · by_cases hjq : j :: q = i :: p
      · grind
      have hne : (u, j) ≠ (t, i) := by
        rintro ⟨⟩
        exact hjq (by rw [h.inj hold hp])
      have huf : u ≠ f := by
        rintro rfl
        exact hfresh q hold
      rw [update_of_ne hjq, grown_slot hc ht (h.frame hold) huf hne]
      exact h.child j hold hqlt
  case link =>
    intro q u j hq hqlt hj
    rcases hcases hq with ⟨rfl, rfl⟩ | ⟨-, hold⟩
    · grind [grown_slot_new, S.blank_absent]
    by_cases hjq : (u, j) = (t, i)
    · cases hjq
      rw [update_self]
      exact hlink
    · have huf : u ≠ f := by
        rintro rfl
        exact hfresh q hold
      rw [grown_slot hc ht (h.frame hold) huf hjq] at hj ⊢
      exact h.link j hold hqlt hj

theorem trace_grow (hp : tab p = some t) (hlt : p.length < D)
    (hi : S.present (mem (S.slot t i)) = false) (hf : S.Frame f) (hfresh : ∀ q, tab q ≠ some f)
    (hc : S.Cleared mem mem' f) (htarget : S.target e = f) {q : List I} {u : A}
    (hq : tab q = some u) {is : List I} (hlen : q.length + is.length = D + 1) :
    S.trace (update mem' (S.slot t i) e) u is = S.trace mem u is := by
  have ht := h.frame hp
  have htf : t ≠ f := by
    rintro rfl
    exact hfresh p hp
  induction is generalizing q u with
  | nil => rfl
  | cons j is ih =>
    rw [List.length_cons] at hlen
    by_cases hne : (u, j) = (t, i)
    · -- the slot of the new table: nothing was there, and nothing is below it
      obtain ⟨rfl, rfl⟩ := Prod.mk.inj hne
      have hself : update mem' (S.slot u j) e (S.slot u j) = e :=
        update_self ..
      rw [trace_cons_of_absent hi, trace, hself, htarget]
      have hqp := h.inj hq hp
      subst hqp
      cases is with
      | nil =>
        simp only [List.length_nil] at hlen
        omega
      | cons k is =>
        have hblank : S.present (update mem' (S.slot u j) e (S.slot f k)) = false := by
          rw [grown_slot_new hc ht hf htf, S.blank_absent]
        rw [trace_cons_of_absent hblank]
        split <;> rfl
    · have huf : u ≠ f := by
        rintro rfl
        exact hfresh q hq
      rw [trace, trace, grown_slot hc ht (h.frame hq) huf hne]
      cases hj : S.present (mem (S.slot u j)) with
      | false => rfl
      | true =>
        cases is with
        | nil => rfl
        | cons k is =>
          rw [List.length_cons] at hlen
          rw [ih (h.child_of_present hq (by omega) hj) (by simp only [List.length_cons]; omega)]

end Grow

end Tree

/-! ## Walking down with an allocator -/

/-- Where frames for new tables come from. -/
structure Pool (S : Space A E I) (P : Type) where
  alloc : P → (A → E) → Option (A × P × (A → E))
  ok : P → Prop
  free : P → A → Prop
  alloc_frame : ∀ {π π' mem mem' f}, ok π → alloc π mem = some (f, π', mem') → S.Frame f
  alloc_ok : ∀ {π π' mem mem' f}, ok π → alloc π mem = some (f, π', mem') → ok π'
  alloc_free : ∀ {π π' mem mem' f}, ok π → alloc π mem = some (f, π', mem') → free π f
  alloc_taken : ∀ {π π' mem mem' f}, ok π → alloc π mem = some (f, π', mem') →
    ∀ a, free π' a → free π a ∧ a ≠ f
  alloc_cleared : ∀ {π π' mem mem' f}, ok π → alloc π mem = some (f, π', mem') →
    S.Cleared mem mem' f

variable [DecidableEq A] {P : Type}

/-- The table at the end of a path, with the tables that are missing added.  It
stops when no frame is left. -/
def Pool.descend (pool : S.Pool P) (link : A → E) :
    List I → A → P → (A → E) → Option A × P × (A → E)
  | [], t, π, mem => (some t, π, mem)
  | i :: is, t, π, mem =>
    if S.present (mem (S.slot t i)) then
      pool.descend link is (S.target (mem (S.slot t i))) π mem
    else
      match pool.alloc π mem with
      | none => (none, π, mem)
      | some (f, π', mem') =>
        pool.descend link is f π' (update mem' (S.slot t i) (link f))

section Descend

variable {pool : S.Pool P} {link : A → E} {is : List I} {π : P}

theorem Pool.descend_of_present (hi : S.present (mem (S.slot t i)) = true) :
    pool.descend link (i :: is) t π mem =
      pool.descend link is (S.target (mem (S.slot t i))) π mem := by rw [descend, if_pos hi]

theorem Pool.descend_of_full (hi : S.present (mem (S.slot t i)) = false)
    (halloc : pool.alloc π mem = none) : pool.descend link (i :: is) t π mem = (none, π, mem) := by
  rw [descend, if_neg (by rw [hi]; exact Bool.false_ne_true), halloc]

theorem Pool.descend_of_alloc {f : A} {π' : P} {mem' : A → E}
    (hi : S.present (mem (S.slot t i)) = false) (halloc : pool.alloc π mem = some (f, π', mem')) :
    pool.descend link (i :: is) t π mem =
      pool.descend link is f π' (update mem' (S.slot t i) (link f)) := by
  rw [descend, if_neg (by rw [hi]; exact Bool.false_ne_true), halloc]

end Descend

/-- The tables of a tree are not free. -/
structure Pool.Inv (pool : S.Pool P) (D : ℕ) (π : P) (mem : A → E) (tab : List I → Option A) :
    Prop where
  ok : pool.ok π
  tree : S.Tree D mem tab
  taken : ∀ {q u}, tab q = some u → ¬pool.free π u

def Links (S : Space A E I) (link : A → E) : Prop :=
  ∀ f, S.Frame f → S.present (link f) = true ∧ S.target (link f) = f ∧ S.Link (link f)

/-- What a walk down does: tables are only added, what leads to the old ones and
everything found at the last level stays, and the path is there at the end. -/
structure Pool.Descends (pool : S.Pool P) (link : A → E) (D : ℕ) (mem : A → E)
    (tab : List I → Option A) (p is : List I) (t : A) (r : Option A) (π' : P) (mem' : A → E)
    (tab' : List I → Option A) : Prop where
  inv : pool.Inv D π' mem' tab'
  old : ∀ {q u}, tab q = some u → tab' q = some u
  kept : ∀ {q u} (j), tab q = some u → q.length < D → S.present (mem (S.slot u j)) = true →
    mem' (S.slot u j) = mem (S.slot u j)
  found : ∀ {q u js}, tab q = some u → q.length + js.length = D + 1 →
    S.trace mem' u js = S.trace mem u js
  reached : ∀ {t'}, r = some t' → tab' (is.reverse ++ p) = some t' ∧
    ∃ fs : List A, (∀ f ∈ fs, S.Frame f) ∧ S.trace mem' t is = some (S.linked mem t is ++ fs.map link)

omit [DecidableEq A] in
theorem Pool.Inv.fresh {pool : S.Pool P} {π π1 : P} {mem1 : A → E} {f : A}
    (hinv : pool.Inv D π mem tab) (halloc : pool.alloc π mem = some (f, π1, mem1)) (q : List I) :
    tab q ≠ some f := by
  intro hq
  exact hinv.taken hq (pool.alloc_free hinv.ok halloc)

theorem Pool.Inv.grow [DecidableEq I] {pool : S.Pool P} {link : A → E} (hlink : S.Links link)
    {π π1 : P} {mem1 : A → E} {f : A} (hinv : pool.Inv D π mem tab) (hp : tab p = some t)
    (hlt : p.length < D) (hi : S.present (mem (S.slot t i)) = false)
    (halloc : pool.alloc π mem = some (f, π1, mem1)) :
    pool.Inv D π1 (update mem1 (S.slot t i) (link f)) (update tab (i :: p) (some f)) := by
  have hf := pool.alloc_frame hinv.ok halloc
  obtain ⟨hpres, htarget, hl⟩ := hlink f hf
  refine ⟨pool.alloc_ok hinv.ok halloc, hinv.tree.grow hp hlt hi hf (hinv.fresh halloc)
    (pool.alloc_cleared hinv.ok halloc) hpres htarget hl, ?_⟩
  intro q u hq hfree
  obtain ⟨hfree', hne⟩ := pool.alloc_taken hinv.ok halloc u hfree
  by_cases hqp : q = i :: p
  · simp_all
  · rw [update_of_ne hqp] at hq
    exact hinv.taken hq hfree'

omit [DecidableEq A] in
theorem Pool.Inv.stay {pool : S.Pool P} {link : A → E} {π : P} (hinv : pool.Inv D π mem tab)
    {is : List I} {r : Option A} (hr : ∀ {t'}, r = some t' → tab (is.reverse ++ p) = some t' ∧
      ∃ fs : List A, (∀ f ∈ fs, S.Frame f) ∧
        S.trace mem t is = some (S.linked mem t is ++ fs.map link)) :
    pool.Descends link D mem tab p is t r π mem tab :=
  ⟨hinv, fun h => h, fun _ _ _ _ => rfl, fun _ _ => rfl, hr⟩

omit [DecidableEq A] in
theorem Pool.Descends.through {pool : S.Pool P} {link : A → E} {is : List I} {r : Option A}
    {π' : P} {mem' : A → E} {tab' : List I → Option A} (hp : tab p = some t) (hlt : p.length < D)
    (hi : S.present (mem (S.slot t i)) = true)
    (hd : pool.Descends link D mem tab (i :: p) is (S.target (mem (S.slot t i))) r π' mem' tab') :
    pool.Descends link D mem tab p (i :: is) t r π' mem' tab' := by
  refine ⟨hd.inv, hd.old, hd.kept, hd.found, ?_⟩
  intro t' ht'
  obtain ⟨hreach, fs, hfs, htrace⟩ := hd.reached ht'
  rw [List.reverse_cons, List.append_assoc, List.singleton_append]
  refine ⟨hreach, fs, hfs, ?_⟩
  have hsame := hd.kept i hp hlt hi
  simp_all [trace_cons_of_present, linked_cons_of_present]

theorem Pool.Descends.grown [DecidableEq I] {pool : S.Pool P} {link : A → E}
    (hlink : S.Links link) {π π1 π' : P} {mem1 mem' : A → E} {f : A} {is : List I} {r : Option A}
    {tab' : List I → Option A} (hinv : pool.Inv D π mem tab) (hp : tab p = some t)
    (hlt : p.length < D) (hi : S.present (mem (S.slot t i)) = false)
    (halloc : pool.alloc π mem = some (f, π1, mem1))
    (hd : pool.Descends link D (update mem1 (S.slot t i) (link f))
      (update tab (i :: p) (some f)) (i :: p) is f r π' mem' tab') :
    pool.Descends link D mem tab p (i :: is) t r π' mem' tab' := by
  have htree := hinv.tree
  have hf := pool.alloc_frame hinv.ok halloc
  have hc := pool.alloc_cleared hinv.ok halloc
  have hfresh := hinv.fresh halloc
  obtain ⟨hpres, htarget, -⟩ := hlink f hf
  have hold : ∀ {q u}, tab q = some u → update tab (i :: p) (some f) q = some u := by
    intro q u hq
    rw [update_of_ne, hq]
    rintro rfl
    cases (htree.child_of_absent hp hlt hi).symm.trans hq
  refine ⟨hd.inv, fun hq => hd.old (hold hq), ?_, ?_, ?_⟩
  · intro q u j hq hqlt hj
    have hne : (u, j) ≠ (t, i) := by
      rintro ⟨⟩
      cases hi.symm.trans hj
    have huf : u ≠ f := by
      rintro rfl
      exact hfresh q hq
    have hslot := Tree.grown_slot (e := link f) hc (htree.frame hp) (htree.frame hq) huf hne
    rw [hd.kept j (hold hq) hqlt (by rw [hslot]; exact hj), hslot]
  · intro q u js hq hjs
    rw [hd.found (hold hq) hjs, htree.trace_grow hp hlt hi hf hfresh hc htarget hq hjs]
  · intro t' ht'
    obtain ⟨hreach, fs, hfs, htrace⟩ := hd.reached ht'
    rw [List.reverse_cons, List.append_assoc, List.singleton_append]
    refine ⟨hreach, f :: fs, ?_, ?_⟩
    · rw [List.forall_mem_cons]
      exact ⟨hf, hfs⟩
    -- the new table is blank, so that the rest of the path is new
    have hempty : S.linked (update mem1 (S.slot t i) (link f)) f is = [] := by
      cases is with
      | nil => rfl
      | cons j is =>
        apply linked_cons_of_absent
        rw [Tree.grown_slot_new hc (htree.frame hp) hf, S.blank_absent]
        rintro rfl
        exact hfresh p hp
    have hself : update mem1 (S.slot t i) (link f) (S.slot t i) = link f :=
      update_self ..
    have hsame := hd.kept i (hold hp) hlt (by rw [hself]; exact hpres)
    simp_all [trace_cons_of_present, linked_cons_of_absent]

theorem Pool.descend_spec [DecidableEq I] (pool : S.Pool P) {link : A → E} (hlink : S.Links link)
    {π : P} (hinv : pool.Inv D π mem tab) (hp : tab p = some t) (is : List I)
    (hlen : p.length + is.length ≤ D) :
    ∃ tab', pool.Descends link D mem tab p is t (pool.descend link is t π mem).1
      (pool.descend link is t π mem).2.1 (pool.descend link is t π mem).2.2 tab' := by
  induction is generalizing p t π mem tab with
  | nil =>
    refine ⟨tab, hinv.stay ?_⟩
    intro t' ht'
    cases ht'
    exact ⟨hp, [], fun f hf => absurd hf List.not_mem_nil, rfl⟩
  | cons i is ih =>
    rw [List.length_cons] at hlen
    have hlt : p.length < D := by omega
    cases hi : S.present (mem (S.slot t i)) with
    | true =>
      rw [descend_of_present hi]
      obtain ⟨tab', hd⟩ := ih hinv (hinv.tree.child_of_present hp hlt hi)
        (by rw [List.length_cons]; omega)
      exact ⟨tab', hd.through hp hlt hi⟩
    | false =>
      cases halloc : pool.alloc π mem with
      | none =>
        rw [descend_of_full hi halloc]
        refine ⟨tab, hinv.stay ?_⟩
        intro t' ht'
        cases ht'
      | some a =>
        rw [descend_of_alloc hi halloc]
        obtain ⟨tab', hd⟩ := ih (hinv.grow hlink hp hlt hi halloc) (update_self ..)
          (by rw [List.length_cons]; omega)
        exact ⟨tab', hd.grown hlink hinv hp hlt hi halloc⟩

/-! ## Operations on a tree -/

def Pool.Rooted (pool : S.Pool P) (D : ℕ) (root : A) (π : P) (mem : A → E) : Prop :=
  ∃ tab, pool.Inv D π mem tab ∧ tab [] = some root

namespace Pool

variable {pool : S.Pool P} {root : A} {π : P} {is : List I}

omit [DecidableEq A] in
theorem rooted_of_alloc [DecidableEq I] {π0 : P} {mem0 : A → E} (hok : pool.ok π0)
    (halloc : pool.alloc π0 mem0 = some (root, π, mem)) : pool.Rooted D root π mem := by
  have hblank := (pool.alloc_cleared hok halloc).blank
  have hroot : ∀ {q u}, update (fun _ => none) ([] : List I) (some root) q = some u →
      q = [] ∧ u = root := by grind
  refine ⟨update (fun _ => none) [] (some root), ⟨pool.alloc_ok hok halloc, ?_, ?_⟩, update_self ..⟩
  · constructor
    case short => grind
    case frame => grind [pool.alloc_frame]
    case inj => grind
    case closed => simp
    case child =>
      intro q u j hq _
      obtain ⟨rfl, rfl⟩ := hroot hq
      rw [hblank, S.blank_absent, if_neg Bool.false_ne_true, update_of_ne (List.cons_ne_nil j [])]
    grind [S.blank_absent]
  · intro q u hq hfree
    obtain ⟨rfl, rfl⟩ := hroot hq
    exact (pool.alloc_taken hok halloc u hfree).2 rfl

omit [DecidableEq A] in
theorem reverse_ne_cons {q : List I} {j : I} (hne : q ≠ is ++ [j]) :
    q.reverse ++ [] ≠ j :: (is.reverse ++ []) := by simp_all

theorem Rooted.descend_none [DecidableEq I] {link : A → E} (hlink : S.Links link) {π' : P}
    {mem' : A → E} (h : pool.Rooted D root π mem) (hlen : is.length = D)
    (hd : pool.descend link is root π mem = (none, π', mem')) : pool.Rooted D root π' mem' ∧
      ∀ q, q.length = D + 1 → S.trace mem' root q = S.trace mem root q := by
  obtain ⟨tab, hinv, hroot⟩ := h
  obtain ⟨tab', hspec⟩ := pool.descend_spec hlink hinv hroot is (by simp [hlen])
  rw [hd] at hspec
  refine ⟨⟨tab', hspec.inv, hspec.old hroot⟩, ?_⟩
  intro q hq
  exact hspec.found hroot (by simp [hq])

theorem Rooted.insert [DecidableEq I] {link : A → E} (hlink : S.Links link) {π' : P}
    {mem' : A → E} (h : pool.Rooted D root π mem) (hlen : is.length = D)
    (hd : pool.descend link is root π mem = (some t, π', mem')) (j : I) {e : E}
    (he : S.present e = true) : pool.Rooted D root π' (update mem' (S.slot t j) e) ∧
      (∃ fs : List A, (∀ f ∈ fs, S.Frame f) ∧
        S.trace (update mem' (S.slot t j) e) root (is ++ [j]) =
          some (S.linked mem root is ++ fs.map link ++ [e])) ∧
      ∀ q, q.length = D + 1 → q ≠ is ++ [j] →
        S.trace (update mem' (S.slot t j) e) root q = S.trace mem root q := by
  obtain ⟨tab, hinv, hroot⟩ := h
  obtain ⟨tab', hspec⟩ := pool.descend_spec hlink hinv hroot is (by simp [hlen])
  rw [hd] at hspec
  obtain ⟨hreach, fs, hfs, htrace⟩ := hspec.reached rfl
  have htree := hspec.inv.tree
  have hroot' := hspec.old hroot
  have hD : (is.reverse ++ []).length = D := by simp [hlen]
  refine ⟨⟨tab', ⟨hspec.inv.ok, htree.setLeaf hreach hD j e, hspec.inv.taken⟩, hroot'⟩,
    ⟨fs, hfs, ?_⟩, ?_⟩
  · rw [htree.trace_setLeaf hreach hD j e hroot' rfl, htrace, Option.bind_some, if_pos he]
  intro q hq hne
  rw [htree.trace_setLeaf_of_ne hreach hD j e hroot' (by simp [hq]) ?_,
    hspec.found hroot (by simp [hq])]
  exact reverse_ne_cons hne

theorem Rooted.erase (h : pool.Rooted D root π mem) (hlen : is.length = D)
    (ht : S.follow mem root is = some t) (j : I) :
    pool.Rooted D root π (update mem (S.slot t j) S.blank) ∧
      S.trace (update mem (S.slot t j) S.blank) root (is ++ [j]) = none ∧
      ∀ q, q.length = D + 1 → q ≠ is ++ [j] →
        S.trace (update mem (S.slot t j) S.blank) root q = S.trace mem root q := by
  obtain ⟨tab, hinv, hroot⟩ := h
  have htree := hinv.tree
  rw [htree.follow_eq hroot (by simp [hlen])] at ht
  have hD : (is.reverse ++ []).length = D := by simp [hlen]
  refine ⟨⟨tab, ⟨hinv.ok, htree.setLeaf ht hD j S.blank, hinv.taken⟩, hroot⟩, ?_, ?_⟩
  · simp [htree.trace_setLeaf ht hD j S.blank hroot rfl, S.blank_absent]
  · intro q hq hne
    apply htree.trace_setLeaf_of_ne ht hD j S.blank hroot (by simp [hq])
    exact reverse_ne_cons hne

end Pool

end Space

end RadixTable
