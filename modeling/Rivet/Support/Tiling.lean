import Mathlib

/-!
# Blocks that tile an interval

A list of blocks, each with a header of `h` bytes before its contents, laid out one after
the other.  A block is carved from a free one, given back, and free neighbours are merged
in one sweep from the left.
-/

namespace Tiling

open List

/-- The contents of a block, in bytes, and whether they are free. -/
structure Block where
  size : ℕ
  free : Bool
  deriving DecidableEq, Repr

variable {h p a sz : ℕ} {b x y : Block} {bs l r : List Block} {e e' : ℕ × Block}

/-! ## Layout -/

def span (h : ℕ) : List Block → ℕ
  | [] => 0
  | b :: bs => h + b.size + span h bs

def layout (h : ℕ) : ℕ → List Block → List (ℕ × Block)
  | _, [] => []
  | p, b :: bs => (p, b) :: layout h (p + (h + b.size)) bs

theorem span_append (h : ℕ) (l r : List Block) : span h (l ++ r) = span h l + span h r := by
  induction l with
  | nil => rw [nil_append, span, Nat.zero_add]
  | cons b l ih => rw [cons_append, span, span, ih, Nat.add_assoc (h + b.size)]

theorem length_le_span (hh : 0 < h) (bs : List Block) : bs.length ≤ span h bs := by
  induction bs with
  | nil => exact le_rfl
  | cons b bs ih =>
    rw [length_cons, span]
    omega

theorem layout_append (h p : ℕ) (l r : List Block) :
    layout h p (l ++ r) = layout h p l ++ layout h (p + span h l) r := by
  induction l generalizing p with
  | nil => rw [nil_append, layout, nil_append, span, Nat.add_zero]
  | cons b l ih => simp_all [layout, span, Nat.add_assoc]

theorem map_snd_layout (h p : ℕ) (bs : List Block) : (layout h p bs).map Prod.snd = bs := by
  induction bs generalizing p with
  | nil => rfl
  | cons b bs ih => rw [layout, map_cons, ih]

theorem mem_layout : e ∈ layout h p bs ↔ ∃ l r, bs = l ++ e.2 :: r ∧ e.1 = p + span h l := by
  constructor
  · intro he
    induction bs generalizing p with
    | nil => exact absurd he not_mem_nil
    | cons b bs ih =>
      rcases mem_cons.mp he with rfl | he
      · exact ⟨[], bs, rfl, rfl⟩
      grind [span, Nat.add_assoc]
  grind [layout_append, layout]

theorem layout_bounds (he : e ∈ layout h p bs) :
    p ≤ e.1 ∧ e.1 + h + e.2.size ≤ p + span h bs := by grind [span_append, span, mem_layout.mp]

theorem layout_sorted (h p : ℕ) (bs : List Block) :
    (layout h p bs).Pairwise fun e e' => e.1 + h + e.2.size ≤ e'.1 := by
  induction bs generalizing p with
  | nil => exact List.Pairwise.nil
  | cons b bs ih =>
    refine pairwise_cons.mpr ⟨fun e he => ?_, ih _⟩
    have hbound := (layout_bounds he).1
    show p + h + b.size ≤ e.1
    omega

def Apart (h : ℕ) (e e' : ℕ × Block) : Prop :=
  e.1 + h + e.2.size ≤ e'.1 ∨ e'.1 + h + e'.2.size ≤ e.1

instance (h : ℕ) : Std.Symm (Apart h) := ⟨fun _ _ => Or.symm⟩

theorem layout_apart (he : e ∈ layout h p bs) (he' : e' ∈ layout h p bs) (hne : e ≠ e') :
    Apart h e e' := by
  have hpair : (layout h p bs).Pairwise (Apart h) := (layout_sorted h p bs).imp Or.inl
  exact hpair.forall he he' hne

theorem layout_unique (hh : 0 < h) (he : e ∈ layout h p bs) (he' : e' ∈ layout h p bs)
    (haddr : e.1 = e'.1) : e = e' := by
  by_contra hne
  rcases layout_apart he he' hne with hle | hle <;> omega

/-! ## Used blocks -/

def used (h p : ℕ) (bs : List Block) : List (ℕ × Block) :=
  (layout h p bs).filter fun e => !e.2.free

theorem mem_used : e ∈ used h p bs ↔ e ∈ layout h p bs ∧ e.2.free = false := by
  rw [used, mem_filter, Bool.not_eq_true']

theorem used_append (h p : ℕ) (l r : List Block) :
    used h p (l ++ r) = used h p l ++ used h (p + span h l) r := by simp [used, layout_append]

theorem used_cons (h p : ℕ) (b : Block) (bs : List Block) : used h p (b :: bs) =
      if b.free then used h (p + (h + b.size)) bs
      else (p, b) :: used h (p + (h + b.size)) bs := by grind [used, layout]

theorem nodup_used (hh : 0 < h) : ((used h p bs).map Prod.fst).Nodup := by
  refine List.Nodup.map_on ?_ ?_
  · intro e he e' he' haddr
    exact layout_unique hh (mem_used.mp he).1 (mem_used.mp he').1 haddr
  · refine List.Nodup.filter _ ((layout_sorted h p bs).imp fun hle heq => ?_)
    rw [heq] at hle
    omega

/-! ## Carving -/

def Fits (sz : ℕ) (b : Block) : Prop := b.free = true ∧ sz ≤ b.size

instance (sz : ℕ) (b : Block) : Decidable (Fits sz b) := inferInstanceAs (Decidable (_ ∧ _))

theorem find_layout_eq_none (hall : ∀ x ∈ bs, ¬Fits sz x) (h p : ℕ) :
    (layout h p bs).find? (fun e => decide (Fits sz e.2)) = none := by
  grind [decide_eq_true_iff.not.mpr, mem_layout.mp]

theorem find_layout_eq_some (hpassed : ∀ x ∈ l, ¬Fits sz x) (hb : Fits sz b) (h p : ℕ)
    (r : List Block) :
    (layout h p (l ++ b :: r)).find? (fun e => decide (Fits sz e.2)) = some (p + span h l, b) := by
  simp [layout_append, find_layout_eq_none hpassed, layout, decide_eq_true hb]

/-- The pieces of a free block of which `sz` bytes are taken: the rest is a block of its own
if it has room for a header and `g` bytes. -/
def carve (h g sz : ℕ) (b : Block) : List Block :=
  if sz + h + g ≤ b.size then [⟨sz, false⟩, ⟨b.size - sz - h, true⟩] else [⟨b.size, false⟩]

def carved (h g sz : ℕ) (b : Block) : Block :=
  if sz + h + g ≤ b.size then ⟨sz, false⟩ else ⟨b.size, false⟩

theorem span_carve (h g sz : ℕ) (b : Block) : span h (carve h g sz b) = h + b.size := by
  rw [carve]
  split
  · simp only [span]
    omega
  · simp only [span, Nat.add_zero]

theorem le_carved (hle : sz ≤ b.size) (h g : ℕ) : sz ≤ (carved h g sz b).size := by
  rw [carved]
  split
  · exact le_rfl
  · exact hle

theorem carved_le (hle : sz ≤ b.size) (h g : ℕ) : (carved h g sz b).size ≤ b.size := by
  rw [carved]
  split
  · exact hle
  · exact le_rfl

theorem used_carve (h g sz : ℕ) (b : Block) (q : ℕ) :
    used h q (carve h g sz b) = [(q, carved h g sz b)] := by
  rw [carve, carved]
  split
  · rfl
  · rfl

theorem span_replace (hb : span h bs = h + b.size) (l r : List Block) :
    span h (l ++ bs ++ r) = span h (l ++ b :: r) := by simp [span_append, span, hb]

theorem used_carve_perm (hfree : b.free = true) (h g sz p : ℕ) (l r : List Block) :
    (used h p (l ++ carve h g sz b ++ r)).Perm
      ((p + span h l, carved h g sz b) :: used h p (l ++ b :: r)) := by
  simp_all [used_append, used_carve, used_cons, span_carve, Nat.add_assoc]

theorem mem_layout_carve {g : ℕ} (he : e ∈ layout h p (l ++ carve h g sz b ++ r)) :
    e.1 = p + span h l + (h + sz) ∨ ∃ e' ∈ layout h p (l ++ b :: r), e'.1 = e.1 := by
  rw [append_assoc, layout_append, layout_append, span_carve] at he
  rw [layout_append, layout]
  rcases mem_append.mp he with he | he
  · exact .inr ⟨e, mem_append_left _ he, rfl⟩
  rcases mem_append.mp he with he | he
  · rw [carve] at he
    split at he
    · rcases mem_cons.mp he with rfl | he
      · exact .inr ⟨_, mem_append_right _ mem_cons_self, rfl⟩
      · rw [mem_singleton.mp he]
        exact .inl rfl
    · rw [mem_singleton.mp he]
      exact .inr ⟨_, mem_append_right _ mem_cons_self, rfl⟩
  grind

/-! ## Giving back -/

def Block.release (b : Block) : Block := { b with free := true }

theorem span_release (h : ℕ) (l r : List Block) (b : Block) :
    span h (l ++ b.release :: r) = span h (l ++ b :: r) := by
  rw [span_append, span_append]
  rfl

theorem used_release_perm (hused : b.free = false) (h p : ℕ) (l r : List Block) :
    (used h p (l ++ b :: r)).Perm ((p + span h l, b) :: used h p (l ++ b.release :: r)) := by
  rw [used_append, used_append, used_cons, used_cons, hused]
  exact perm_middle

theorem mem_layout_release (he : e ∈ layout h p (l ++ b.release :: r)) :
    ∃ e' ∈ layout h p (l ++ b :: r), e'.1 = e.1 := by
  rw [layout_append] at he ⊢
  rcases mem_append.mp he with he | he
  · exact ⟨e, mem_append_left _ he, rfl⟩
  · rcases mem_cons.mp he with rfl | he
    · exact ⟨_, mem_append_right _ mem_cons_self, rfl⟩
    · exact ⟨e, mem_append_right _ (mem_cons_of_mem _ he), rfl⟩

/-! ## Merging -/

/-- One sweep from the left: two neighbours that are free become one, and the sweep goes on
behind them. -/
def sweep (h : ℕ) : List Block → List Block
  | [] => []
  | [b] => [b]
  | x :: y :: rest =>
    if x.free && y.free then ⟨x.size + (h + y.size), true⟩ :: sweep h rest
    else x :: sweep h (y :: rest)

def NoFreePair (bs : List Block) : Prop := bs.IsChain fun x y => ¬(x.free = true ∧ y.free = true)

theorem span_sweep (h : ℕ) (bs : List Block) : span h (sweep h bs) = span h bs := by
  induction bs using sweep.induct with
  | case1 => rfl
  | case2 b => rfl
  | case3 x y rest hfree ih => grind [sweep, span]
  | case4 x y rest hfree ih =>
    rw [sweep, if_neg hfree]
    simp only [span, ih]

theorem used_sweep (h p : ℕ) (bs : List Block) : used h p (sweep h bs) = used h p bs := by
  induction bs using sweep.induct generalizing p with
  | case1 => rfl
  | case2 b => rfl
  | case3 x y rest hfree ih =>
    grind [sweep, used_cons]
  | case4 x y rest hfree ih => grind [sweep, used_cons]

theorem mem_layout_sweep (he : e ∈ layout h p (sweep h bs)) : ∃ e' ∈ layout h p bs, e'.1 = e.1 := by
  induction bs using sweep.induct generalizing p with
  | case1 | case2 => exact ⟨e, he, rfl⟩
  | case3 x y rest hfree ih =>
    rw [sweep, if_pos hfree] at he
    rcases mem_cons.mp he with rfl | he
    · exact ⟨_, mem_cons_self, rfl⟩
    have hpos : p + (h + (x.size + (h + y.size))) = p + (h + x.size) + (h + y.size) := by omega
    rw [hpos] at he
    obtain ⟨e', he', haddr⟩ := ih he
    exact ⟨e', mem_cons_of_mem _ (mem_cons_of_mem _ he'), haddr⟩
  | case4 x y rest hfree ih =>
    rw [sweep, if_neg hfree] at he
    rcases mem_cons.mp he with rfl | he
    · exact ⟨_, mem_cons_self, rfl⟩
    · obtain ⟨e', he', haddr⟩ := ih he
      exact ⟨e', mem_cons_of_mem _ he', haddr⟩

theorem sweep_of_noFreePair (hbs : NoFreePair bs) : sweep h bs = bs := by
  induction bs using sweep.induct with
  | case1 => rfl
  | case2 b => rfl
  | case3 x y rest hfree ih =>
    exact absurd (Bool.and_eq_true_iff.mp hfree) (isChain_cons_cons.mp hbs).1
  | case4 x y rest hfree ih =>
    rw [sweep, if_neg hfree, ih (isChain_cons_cons.mp hbs).2]

theorem sweep_append (hl : NoFreePair (l ++ [x])) :
    sweep h (l ++ x :: r) = l ++ sweep h (x :: r) := by
  induction l with
  | nil => rfl
  | cons z l ih =>
    have hrest : NoFreePair (l ++ [x]) := hl.tail
    -- the block behind `z` is the first one of `l`, or `x`
    cases l with
    | nil =>
      have hpair := (isChain_cons_cons.mp hl).1
      simp [sweep, Bool.and_eq_true, hpair]
    | cons w l =>
      have hpair := (isChain_cons_cons.mp hl).1
      simp_all [sweep, Bool.and_eq_true]

section NoFreePair

theorem noFreePair_cons_used (hused : b.free = false) : NoFreePair (b :: r) ↔ NoFreePair r := by
  cases r with
  | nil => exact iff_of_true (.singleton b) .nil
  | cons y r => simp_all [NoFreePair]

theorem noFreePair_concat_used (hused : b.free = false) (hl : NoFreePair l) :
    NoFreePair (l ++ [b]) := by
  refine isChain_append.mpr ⟨hl, .singleton b, fun x _ y hy => ?_⟩
  simp_all

theorem NoFreePair.cons_congr (h : NoFreePair (x :: r)) (hfree : x.free = y.free) :
    NoFreePair (y :: r) := by
  cases r with
  | nil => exact .singleton y
  | cons z r => grind [NoFreePair]

theorem NoFreePair.concat_congr (h : NoFreePair (l ++ [x])) (hfree : x.free = y.free) :
    NoFreePair (l ++ [y]) := by
  obtain ⟨hl, -, hpair⟩ := isChain_append.mp h
  refine isChain_append.mpr ⟨hl, .singleton y, fun z hz y' hy' => ?_⟩
  cases hy'
  rw [← hfree]
  exact hpair z hz x rfl

theorem NoFreePair.carve (hfree : b.free = true) (hbs : NoFreePair (l ++ b :: r)) (h g sz : ℕ) :
    NoFreePair (l ++ carve h g sz b ++ r) := by
  obtain ⟨hleft, hright⟩ := isChain_split.mp hbs
  have hl : NoFreePair l := (isChain_append.mp hleft).1
  rw [append_assoc, Tiling.carve]
  split
  · refine isChain_split.mpr ⟨noFreePair_concat_used rfl hl, ?_⟩
    refine (noFreePair_cons_used rfl).mpr ?_
    exact NoFreePair.cons_congr hright hfree
  · refine isChain_split.mpr ⟨noFreePair_concat_used rfl hl, ?_⟩
    exact (noFreePair_cons_used rfl).mpr hright.tail

theorem noFreePair_sweep_release_iff (hbs : NoFreePair (l ++ b :: r)) :
    NoFreePair (sweep h (l ++ b.release :: r)) ↔
      ¬((∃ x ∈ l.getLast?, x.free = true) ∧ ∃ y ∈ r.head?, y.free = true) := by
  obtain ⟨hleft, hright⟩ := isChain_split.mp hbs
  have hl : NoFreePair l := (isChain_append.mp hleft).1
  have hr : NoFreePair r := hright.tail
  by_cases hlast : ∃ x ∈ l.getLast?, x.free = true
  · -- the block is merged with the one before it, and the sweep goes on behind it
    obtain ⟨x, hx, hxfree⟩ := hlast
    obtain ⟨l, rfl⟩ := List.getLast?_eq_some_iff.mp hx
    rw [append_assoc, singleton_append, sweep_append hl, sweep,
      if_pos (by rw [hxfree]; rfl), sweep_of_noFreePair hr]
    have hmerged : NoFreePair (l ++ [⟨x.size + (h + b.release.size), true⟩]) :=
      hl.concat_congr hxfree
    rw [NoFreePair, isChain_split]
    cases r with
    | nil => exact iff_of_true ⟨hmerged, .singleton _⟩ fun hboth => by simp at hboth
    | cons y r =>
      constructor
      · grind
      · intro hnot
        refine ⟨hmerged, isChain_cons_cons.mpr ⟨fun hpair => ?_, hr⟩⟩
        exact hnot ⟨⟨x, hx, hxfree⟩, y, rfl, hpair.2⟩
  · have hnew : NoFreePair (l ++ [b.release]) := by
      refine isChain_append.mpr ⟨hl, .singleton _, fun x hx _ _ hpair => ?_⟩
      exact hlast ⟨x, hx, hpair.1⟩
    refine iff_of_true ?_ fun hboth => hlast hboth.1
    rw [sweep_append hnew]
    cases r with
    | nil => exact hnew
    | cons y r =>
      by_cases hy : y.free = true
      · have hrest : NoFreePair r := hr.tail
        rw [sweep, if_pos (by rw [hy]; rfl), sweep_of_noFreePair hrest]
        refine isChain_split.mpr ⟨hnew.concat_congr (x := b.release) rfl, ?_⟩
        exact hr.cons_congr hy
      · rw [sweep, if_neg fun hpair => hy (Bool.and_eq_true_iff.mp hpair).2, sweep_of_noFreePair hr]
        refine isChain_split.mpr ⟨hnew, isChain_cons_cons.mpr ⟨?_, hr⟩⟩
        exact fun hpair => hy hpair.2

end NoFreePair

theorem between_free_iff (hh : 0 < h) :
    (∃ x e y, [x, e, y] <:+: layout h p (l ++ b :: r) ∧ e.1 = p + span h l ∧
        x.2.free = true ∧ y.2.free = true) ↔
      (∃ x ∈ l.getLast?, x.free = true) ∧ ∃ y ∈ r.head?, y.free = true := by
  rw [layout_append, layout]
  constructor
  · rintro ⟨x, e, y, ⟨s, t, hst⟩, haddr, hx, hy⟩
    -- the address tells where in the layout the block is
    have hmem : e ∈ layout h p (l ++ b :: r) := by
      rw [layout_append, layout, ← hst]
      simp
    obtain rfl : e = (p + span h l, b) :=
      layout_unique hh hmem (mem_layout.mpr ⟨l, r, rfl, rfl⟩) haddr
    have hleft : (p + span h l, b) ∉ layout h p l := by
      intro hmem
      have hbound := (layout_bounds hmem).2
      omega
    have hright : (p + span h l, b) ∉ layout h (p + span h l + (h + b.size)) r := by
      intro hmem
      have hbound := (layout_bounds hmem).1
      omega
    have hsplit : s ++ [x] ++ (p + span h l, b) :: y :: t = s ++ [x, (p + span h l, b), y] ++ t := by
      simp
    obtain ⟨hl, -, hr⟩ :=
      (append_cons_inj_of_notMem hleft hright).mp (hst.symm.trans hsplit.symm)
    grind [map_snd_layout]
  · rintro ⟨⟨x, hxl, hx⟩, y, hyr, hy⟩
    obtain ⟨l, rfl⟩ := List.getLast?_eq_some_iff.mp hxl
    obtain ⟨r, rfl⟩ := List.head?_eq_some_iff.mp hyr
    refine ⟨(p + span h l, x), (p + span h (l ++ [x]), b), (p + span h (l ++ [x]) + (h + b.size), y),
      ⟨layout h p l, layout h (p + span h (l ++ [x]) + (h + b.size) + (h + y.size)) r, ?_⟩, rfl, hx,
      hy⟩
    simp [layout_append, layout]

theorem eq_singleton_of_used_eq_nil (hbs : NoFreePair bs) (hne : bs ≠ [])
    (hused : used h p bs = []) : bs = [⟨span h bs - h, true⟩] := by
  have hfree : ∀ b ∈ bs, b.free = true := by
    intro b hb
    by_contra hno
    obtain ⟨l, r, hsplit⟩ := append_of_mem hb
    have hmem : (p + span h l, b) ∈ used h p bs :=
      mem_used.mpr ⟨mem_layout.mpr ⟨l, r, hsplit, rfl⟩, Bool.eq_false_iff.mpr hno⟩
    rw [hused] at hmem
    exact not_mem_nil hmem
  match bs, hne with
  | [x], _ =>
    have hx := hfree x mem_cons_self
    simp only [span, Nat.add_zero, Nat.add_sub_cancel_left, ← hx]
  | x :: y :: r, _ =>
    have hx := hfree x mem_cons_self
    have hy := hfree y (mem_cons_of_mem x mem_cons_self)
    exact absurd ⟨hx, hy⟩ (isChain_cons_cons.mp hbs).1

end Tiling
