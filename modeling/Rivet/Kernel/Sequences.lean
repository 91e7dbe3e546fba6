import Rivet.Kernel.Queues

/-!
# Intrusive lists as sequences

Any number of lists lie in one memory of nodes.  A node that is linked to itself is an
empty list: this is what `riv_list_init` makes, and what `riv_list_del` leaves behind.
Every call of `list.h` does to the links what its name says for the sequences, whatever
else is in the memory.
-/

namespace Rivet.Kernel

open Circles Function List

variable {N : Type} [DecidableEq N]

/-! ## Sequences -/

abbrev Seqs (N : Type) := N → Option (List N)

/-- The node is in no list: it is no element, and not the head of a list with elements. -/
structure Seqs.Off (lists : Seqs N) (n : N) : Prop where
  head : lists n = none ∨ lists n = some []
  element : ∀ h xs, lists h = some xs → n ∉ xs

inductive ListOp (N : Type) where
  | init (h : N)
  | add (h n : N)
  | addTail (h n : N)
  | del (n : N)
  | pop (h : N)
  | popTail (h : N)

def ListOp.args : ListOp N → List N
  | .init h | .pop h | .popTail h => [h]
  | .add h n | .addTail h n => [h, n]
  | .del n => [n]

/-- What a call returns and does to the sequences. -/
inductive SeqStep (lists : Seqs N) : ListOp N → Option N → Seqs N → Prop
  | init {h : N} (hoff : ∀ h' xs, lists h' = some xs → h ∉ xs) :
      SeqStep lists (.init h) none (update lists h (some []))
  | add {h n : N} {xs : List N} (hlist : lists h = some xs) (hne : n ≠ h) (hoff : lists.Off n) :
      SeqStep lists (.add h n) none (update (update lists n none) h (some (n :: xs)))
  | addTail {h n : N} {xs : List N} (hlist : lists h = some xs) (hne : n ≠ h)
      (hoff : lists.Off n) :
      SeqStep lists (.addTail h n) none (update (update lists n none) h (some (xs ++ [n])))
  | del {h n : N} {ys zs : List N} (hlist : lists h = some (ys ++ n :: zs)) :
      SeqStep lists (.del n) none (update (update lists h (some (ys ++ zs))) n (some []))
  | delSelf {n : N} (hself : lists n = some []) : SeqStep lists (.del n) none lists
  | popNull {h : N} (hlist : lists h = some []) : SeqStep lists (.pop h) none lists
  | pop {h x : N} {xs : List N} (hlist : lists h = some (x :: xs)) :
      SeqStep lists (.pop h) (some x) (update (update lists h (some xs)) x (some []))
  | popTailNull {h : N} (hlist : lists h = some []) : SeqStep lists (.popTail h) none lists
  | popTail {h x : N} {xs : List N} (hlist : lists h = some (xs ++ [x])) :
      SeqStep lists (.popTail h) (some x) (update (update lists h (some xs)) x (some []))

/-- A sequence of calls, with what each of them returns. -/
inductive SeqRun : Seqs N → List (ListOp N) → List (Option N) → Seqs N → Prop
  | nil (lists : Seqs N) : SeqRun lists [] [] lists
  | cons {lists lists₁ lists₂ : Seqs N} {op : ListOp N} {ops : List (ListOp N)} {out : Option N}
      {outs : List (Option N)} (hstep : SeqStep lists op out lists₁)
      (hrun : SeqRun lists₁ ops outs lists₂) : SeqRun lists (op :: ops) (out :: outs) lists₂

/-! ## Calls -/

/-- A call, with what it returns; none if it follows a null pointer. -/
def ListOp.run : ListOp N → Links N → Option (Option N × Links N)
  | .init h, m => some (none, rivListInit h m)
  | .add h n, m => (rivListAdd h n m).map fun m => (none, m)
  | .addTail h n, m => (rivListAddTail h n m).map fun m => (none, m)
  | .del n, m => (rivListDel n m).map fun m => (none, m)
  | .pop h, m => rivListPop h m
  | .popTail h, m => rivListPopTail h m

def runOps : List (ListOp N) → Links N → Option (List (Option N) × Links N)
  | [], m => some ([], m)
  | op :: ops, m => do
    let (out, m) ← op.run m
    let (outs, m) ← runOps ops m
    some (out :: outs, m)

/-- The nodes that one passes from `a` on before one comes to `h`, with `f` as the link;
with `next` and `a = h` this is `riv_list_for_each`. -/
def listForEach (f : N → Option N) (h : N) : ℕ → N → Option (List N)
  | 0, _ => none
  | n + 1, a =>
    match f a with
    | none => none
    | some x => if x = h then some [] else (listForEach f h n x).map (x :: ·)

/-- A circular list with head `h` and elements `xs`, forwards and backwards. -/
structure IsList (m : Links N) (h : N) (xs : List N) : Prop where
  circle : Circle (nextOf m) (prevOf m) h xs
  forward : ∀ n > xs.length, listForEach (nextOf m) h n h = some xs
  backward : ∀ n > xs.length, listForEach (prevOf m) h n h = some xs.reverse

/-! ## The links -/

/-- The lists are in memory, and have no node in common. -/
structure Represents (m : Links N) (lists : Seqs N) : Prop where
  circle : ∀ h xs, lists h = some xs → Circle (nextOf m) (prevOf m) h xs
  apart : ∀ h xs h' xs', lists h = some xs → lists h' = some xs' → h ≠ h' →
    (h :: xs).Disjoint (h' :: xs')

theorem listForEach_of_path {f : N → Option N} {a h : N} {xs : List N} (hpath : Path f a xs h)
    (hh : h ∉ xs) {n : ℕ} (hn : xs.length < n) : listForEach f h n a = some xs := by
  induction xs generalizing a n with
  | nil =>
    obtain ⟨n, rfl⟩ := Nat.exists_eq_add_one.mpr (Nat.zero_lt_of_lt hn)
    have hlast : f a = some h := hpath
    simp [Kernel.listForEach, hlast]
  | cons x xs ih =>
    obtain ⟨n, rfl⟩ := Nat.exists_eq_add_one.mpr (Nat.zero_lt_of_lt hn)
    have hne : x ≠ h := fun heq => hh (heq ▸ mem_cons_self)
    have hrest := ih hpath.2 (not_mem_of_not_mem_cons hh) (Nat.lt_of_succ_lt_succ hn)
    simp only [Kernel.listForEach, hpath.1, if_neg hne, hrest, Option.map_some]

section Represents

variable {m m' : Links N} {lists lists' : Seqs N} {h n : N} {xs ys zs : List N}

theorem Represents.isList (hr : Represents m lists) (hlist : lists h = some xs) :
    IsList m h xs := by
  have hc := hr.circle h xs hlist
  have hh := (nodup_cons.mp hc.nodup).1
  refine ⟨hc, fun n hn => listForEach_of_path hc.forth hh hn, fun n hn => ?_⟩
  refine listForEach_of_path hc.back ?_ ?_
  all_goals simp_all

/-- The links of nodes outside of `xs` are not changed. -/
def SameOff (xs : List N) (m m' : Links N) : Prop :=
  ∀ x ∉ xs, nextOf m' x = nextOf m x ∧ prevOf m' x = prevOf m x

omit [DecidableEq N] in
theorem Represents.rearrange (hr : Represents m lists) (touched : List N)
    (news : List (N × List N)) (hsame : SameOff touched m m') (hlists : ∀ h xs, lists' h = some xs →
      lists h = some xs ∧ (h :: xs).Disjoint touched ∨ (h, xs) ∈ news)
    (hcircle : ∀ p ∈ news, Circle (nextOf m') (prevOf m') p.1 p.2 ∧ p.1 :: p.2 ⊆ touched)
    (hapart : ∀ p ∈ news, ∀ q ∈ news, p.1 ≠ q.1 → (p.1 :: p.2).Disjoint (q.1 :: q.2)) :
    Represents m' lists' := by
  refine ⟨fun h xs hlist => ?_, fun h1 xs1 h2 xs2 hlist1 hlist2 hne => ?_⟩
  · rcases hlists h xs hlist with ⟨hold, hdisj⟩ | hmem
    · exact (hr.circle h xs hold).congr (fun x hx => (hsame x (hdisj hx)).1)
        fun x hx => (hsame x (hdisj hx)).2
    · exact (hcircle _ hmem).1
  · rcases hlists h1 xs1 hlist1 with ⟨hold1, hdisj1⟩ | hmem1
    · rcases hlists h2 xs2 hlist2 with ⟨hold2, -⟩ | hmem2
      · exact hr.apart h1 xs1 h2 xs2 hold1 hold2 hne
      · exact fun x hx1 hx2 => hdisj1 hx1 ((hcircle _ hmem2).2 hx2)
    · rcases hlists h2 xs2 hlist2 with ⟨-, hdisj2⟩ | hmem2
      · exact fun x hx1 hx2 => hdisj2 hx2 ((hcircle _ hmem1).2 hx1)
      · exact hapart _ hmem1 _ hmem2 hne

theorem Represents.init (hr : Represents m lists) (hoff : ∀ h' xs, lists h' = some xs → h ∉ xs) :
    Represents (rivListInit h m) (update lists h (some [])) := by
  refine hr.rearrange [h] [(h, [])] ?_ ?_ ?_ ?_
  · intro x hx
    simp_all [nextOf, prevOf, comp_apply, rivListInit, update_of_ne, and_self]
  · intro h' xs' hlist
    by_cases hh : h' = h
    · grind
    · rw [update_of_ne hh] at hlist
      refine .inl ⟨hlist, disjoint_singleton.mpr fun hmem => ?_⟩
      grind
  · intro p hp
    rw [mem_singleton.mp hp]
    exact ⟨circle_nil.mpr (by simp [nextOf, prevOf, rivListInit]), List.Subset.refl _⟩
  grind

theorem Represents.insert (hr : Represents m lists) (hlist : lists h = some xs) (hne : n ≠ h)
    (hoff : lists.Off n) (hsame : SameOff (n :: h :: xs) m m')
    (hc : Circle (nextOf m') (prevOf m') h ys) (hys : ys ⊆ n :: xs) :
    Represents m' (update (update lists n none) h (some ys)) := by
  refine hr.rearrange (n :: h :: xs) [(h, ys)] hsame ?_ ?_ ?_
  · intro h' xs' hlist'
    by_cases hh : h' = h
    · simp_all
    rw [update_of_ne hh] at hlist'
    by_cases hn : h' = n
    · simp_all
    rw [update_of_ne hn] at hlist'
    refine .inl ⟨hlist', disjoint_cons_right.mpr ⟨?_, ?_⟩⟩
    · exact not_mem_cons_of_ne_of_not_mem (Ne.symm hn) (hoff.element h' xs' hlist')
    · exact hr.apart h' xs' h xs hlist' hlist hh
  all_goals grind

theorem sameOff_insert {a b : N} (hins : nextOf m' = update (update (nextOf m) n (some b)) a (some n))
    (hins' : prevOf m' = update (update (prevOf m) n (some a)) b (some n))
    (ha : a ∈ h :: xs) (hb : b ∈ h :: xs) : SameOff (n :: h :: xs) m m' := by
  intro x hx
  obtain ⟨hxn, hxs⟩ : x ≠ n ∧ x ∉ h :: xs := not_or.mp (mt mem_cons.mpr hx)
  have hxa : x ≠ a := fun heq => hxs (heq ▸ ha)
  have hxb : x ≠ b := fun heq => hxs (heq ▸ hb)
  simp_all

theorem Represents.add (hr : Represents m lists) (hlist : lists h = some xs) (hne : n ≠ h)
    (hoff : lists.Off n) : ∃ m', rivListAdd h n m = some m' ∧
      Represents m' (update (update lists n none) h (some (n :: xs))) := by
  have hc := hr.circle h xs hlist
  have hn : n ∉ h :: xs := not_mem_cons_of_ne_of_not_mem hne (hoff.element h xs hlist)
  obtain ⟨m', hins, hnext, hprev⟩ := rivListInsert_eq h (xs.headD h) n m
  have hfirst : (m h).next = some (xs.headD h) := hc.next_head
  refine ⟨m', ?_, hr.insert hlist hne hoff ?_ ?_ (List.Subset.refl _)⟩
  · rw [rivListAdd, hfirst, hins]
  · exact sameOff_insert hnext hprev mem_cons_self (headD_mem xs h)
  · rw [hnext, hprev]
    exact hc.pushFront hn

theorem Represents.addTail (hr : Represents m lists) (hlist : lists h = some xs) (hne : n ≠ h)
    (hoff : lists.Off n) : ∃ m', rivListAddTail h n m = some m' ∧
      Represents m' (update (update lists n none) h (some (xs ++ [n]))) := by
  have hc := hr.circle h xs hlist
  have hn : n ∉ h :: xs := not_mem_cons_of_ne_of_not_mem hne (hoff.element h xs hlist)
  obtain ⟨m', hins, hnext, hprev⟩ := rivListInsert_eq (xs.getLastD h) h n m
  have hlast : (m h).prev = some (xs.getLastD h) := hc.prev_head
  refine ⟨m', ?_, hr.insert hlist hne hoff ?_ ?_ ?_⟩
  · rw [rivListAddTail, hlast, hins]
  · grind [sameOff_insert]
  · rw [hnext, hprev]
    exact hc.push hn
  simp

theorem Represents.del (hr : Represents m lists) (hlist : lists h = some (ys ++ n :: zs)) :
    ∃ m', rivListDel n m = some m' ∧
      Represents m' (update (update lists h (some (ys ++ zs))) n (some [])) := by
  have hc := hr.circle h _ hlist
  obtain ⟨hnextn, hprevn⟩ := hc.neighbours
  obtain ⟨m', hdel, hnext, hprev⟩ := rivListDel_eq hprevn hnextn
  have hsub : h :: (ys ++ zs) ⊆ h :: (ys ++ n :: zs) := by grind
  have hnot : n ∉ h :: (ys ++ zs) := by
    have hnodup := hc.nodup
    grind
  refine ⟨m', hdel, hr.rearrange (h :: (ys ++ n :: zs)) [(h, ys ++ zs), (n, [])] ?_ ?_ ?_ ?_⟩
  · intro x hx
    have hxa : x ≠ ys.getLastD h := by grind
    have hxb : x ≠ zs.headD h := by
      rintro rfl
      refine hx (hsub ?_)
      rcases mem_cons.mp (headD_mem zs h) with heq | hz
      all_goals grind
    simp_all
  · intro h' xs' hlist'
    by_cases hn : h' = n
    · grind
    rw [update_of_ne hn] at hlist'
    by_cases hh : h' = h
    · grind
    · rw [update_of_ne hh] at hlist'
      exact .inl ⟨hlist', hr.apart h' xs' h _ hlist' hlist hh⟩
  · simp only [forall_mem_cons, not_mem_nil, false_implies, implies_true, and_true]
    refine ⟨⟨?_, hsub⟩, ?_, ?_⟩
    · rw [hnext, hprev]
      exact hc.unlink
    all_goals simp [hnext, hprev, circle_nil.mpr]
  · simp only [forall_mem_cons, not_mem_nil, false_implies, implies_true, and_true]
    simp_all

theorem Represents.delSelf (hr : Represents m lists) (hself : lists n = some []) :
    ∃ m', rivListDel n m = some m' ∧ Represents m' lists := by
  obtain ⟨hnextn, hprevn⟩ := circle_nil.mp (hr.circle n [] hself)
  obtain ⟨m', hdel, hnext, hprev⟩ := rivListDel_eq hprevn hnextn
  rw [update_idem, update_eq_self_iff.mpr hnextn.symm] at hnext
  rw [update_idem, update_eq_self_iff.mpr hprevn.symm] at hprev
  refine ⟨m', hdel, fun h xs hlist => ?_, hr.apart⟩
  rw [hnext, hprev]
  exact hr.circle h xs hlist

theorem Represents.rivListEmpty (hr : Represents m lists) (hlist : lists h = some xs) :
    rivListEmpty h m = decide (xs = []) :=
  decide_eq_decide.mpr (hr.circle h xs hlist).next_head_iff

theorem Represents.pop {x : N} (hr : Represents m lists) (hlist : lists h = some (x :: xs)) :
    ∃ m', rivListPop h m = some (some x, m') ∧
      Represents m' (update (update lists h (some xs)) x (some [])) := by
  have hfirst : (m h).next = some x := (hr.circle h _ hlist).next_head
  have hempty := hr.rivListEmpty hlist
  have hmiddle : lists h = some ([] ++ x :: xs) := hlist
  obtain ⟨m', hdel, hr'⟩ := hr.del hmiddle
  grind [rivListPop]

theorem Represents.popTail {x : N} (hr : Represents m lists) (hlist : lists h = some (xs ++ [x])) :
    ∃ m', rivListPopTail h m = some (some x, m') ∧
      Represents m' (update (update lists h (some xs)) x (some [])) := by
  have hlast : (m h).prev = some x := by
    have hprev := (hr.circle h _ hlist).prev_head
    rwa [getLastD_concat] at hprev
  have hempty := hr.rivListEmpty hlist
  obtain ⟨m', hdel, hr'⟩ := hr.del hlist
  simp_all [rivListPopTail]

/-! ## Runs -/

theorem Represents.step {op : ListOp N} {out : Option N} (hr : Represents m lists)
    (hstep : SeqStep lists op out lists') :
    ∃ m', op.run m = some (out, m') ∧ Represents m' lists' := by
  cases hstep with
  | init hoff => exact ⟨_, rfl, hr.init hoff⟩
  | add hlist hne hoff =>
    obtain ⟨m', hadd, hr'⟩ := hr.add hlist hne hoff
    exact ⟨m', congrArg (Option.map _) hadd, hr'⟩
  | addTail hlist hne hoff =>
    obtain ⟨m', hadd, hr'⟩ := hr.addTail hlist hne hoff
    exact ⟨m', congrArg (Option.map _) hadd, hr'⟩
  | del hlist =>
    obtain ⟨m', hdel, hr'⟩ := hr.del hlist
    exact ⟨m', congrArg (Option.map _) hdel, hr'⟩
  | delSelf hself =>
    obtain ⟨m', hdel, hr'⟩ := hr.delSelf hself
    exact ⟨m', congrArg (Option.map _) hdel, hr'⟩
  | popNull hlist =>
    refine ⟨m, ?_, hr⟩
    simp [ListOp.run, rivListPop, hr.rivListEmpty hlist]
  | pop hlist => exact hr.pop hlist
  | popTailNull hlist =>
    refine ⟨m, ?_, hr⟩
    simp [ListOp.run, rivListPopTail, hr.rivListEmpty hlist]
  | popTail hlist => exact hr.popTail hlist

theorem Represents.frame {op : ListOp N} {out : Option N} (hr : Represents m lists)
    (hstep : SeqStep lists op out lists') (hlist : lists h = some xs)
    (hargs : op.args.Disjoint (h :: xs)) : lists' h = some xs := by
  have hother : ∀ {h'}, h' ∈ op.args → h ≠ h' :=
    fun hmem heq => hargs hmem (heq ▸ mem_cons_self)
  -- Where the call takes a node out of another list, the node is not in this one.
  have hout : ∀ {h' x xs'}, lists h' = some xs' → h ≠ h' → x ∈ xs' → h ≠ x := by
    rintro h' x xs' hlist' hne hx rfl
    exact hr.apart h xs h' xs' hlist hlist' hne mem_cons_self (mem_cons_of_mem h' hx)
  cases hstep with
  | init => rwa [update_of_ne (hother mem_cons_self)]
  | add | addTail =>
    rwa [update_of_ne (hother mem_cons_self),
      update_of_ne (hother (mem_cons_of_mem _ mem_cons_self))]
  | @del h' n ys zs hlist' =>
    have hne : h ≠ h' := by
      rintro rfl
      rw [hlist] at hlist'
      cases hlist'
      exact hargs mem_cons_self (by simp)
    grind
  | pop hlist' =>
    have hne := hother mem_cons_self
    grind
  | popTail hlist' =>
    have hne := hother mem_cons_self
    grind
  | delSelf | popNull | popTailNull => exact hlist

theorem Represents.run {ops : List (ListOp N)} {outs : List (Option N)} (hr : Represents m lists)
    (hrun : SeqRun lists ops outs lists') :
    ∃ m', runOps ops m = some (outs, m') ∧ Represents m' lists' := by
  induction hrun generalizing m with
  | nil lists => exact ⟨m, rfl, hr⟩
  | cons hstep _ ih =>
    obtain ⟨m1, hop, hr1⟩ := hr.step hstep
    obtain ⟨m2, hops, hr2⟩ := ih hr1
    exact ⟨m2, by simp [runOps, hop, hops], hr2⟩

theorem Represents.run_frame {ops : List (ListOp N)} {outs : List (Option N)}
    (hr : Represents m lists) (hrun : SeqRun lists ops outs lists') (hlist : lists h = some xs)
    (hargs : ∀ op ∈ ops, op.args.Disjoint (h :: xs)) : lists' h = some xs := by
  induction hrun generalizing m with
  | nil lists => exact hlist
  | cons hstep _ ih =>
    obtain ⟨hop, hops⟩ := forall_mem_cons.mp hargs
    obtain ⟨m1, -, hr1⟩ := hr.step hstep
    exact ih hr1 (hr.frame hstep hlist hop) hops

omit [DecidableEq N] in
theorem Represents.links_eq (hr : Represents m lists) (hr' : Represents m' lists')
    (hlist : lists h = some xs) (hlist' : lists' h = some xs) : ∀ x ∈ h :: xs, m' x = m x := by
  intro x hx
  obtain ⟨hnext, hprev⟩ := (hr.circle h xs hlist).agree (hr'.circle h xs hlist') x hx
  have hnext : (m' x).next = (m x).next := hnext
  have hprev : (m' x).prev = (m x).prev := hprev
  rw [show m' x = ⟨(m' x).prev, (m' x).next⟩ from rfl, hnext, hprev]

/-- Every sequence of calls keeps the lists well formed, returns what the sequences say, and
leaves a list alone of which it is given no node. -/
theorem intrusive_lists_are_sequences {ops : List (ListOp N)} {outs : List (Option N)}
    (hr : Represents m lists) (hrun : SeqRun lists ops outs lists') :
    ∃ m', runOps ops m = some (outs, m') ∧ (∀ h xs, lists' h = some xs → IsList m' h xs) ∧
      (∀ h xs h' xs', lists' h = some xs → lists' h' = some xs' → h ≠ h' →
        (h :: xs).Disjoint (h' :: xs')) ∧
      ∀ h xs, lists h = some xs → (∀ op ∈ ops, op.args.Disjoint (h :: xs)) →
        lists' h = some xs ∧ ∀ x ∈ h :: xs, m' x = m x := by
  obtain ⟨m', hops, hr'⟩ := hr.run hrun
  refine ⟨m', hops, fun h xs hlist => hr'.isList hlist, hr'.apart, fun h xs hlist hargs => ?_⟩
  have hlist' := hr.run_frame hrun hlist hargs
  exact ⟨hlist', hr.links_eq hr' hlist hlist'⟩

def noLists : Seqs N := fun _ => none

omit [DecidableEq N] in
theorem represents_noLists (m : Links N) : Represents m noLists where
  circle _ _ hlist := nomatch hlist
  apart _ _ _ _ hlist := nomatch hlist

theorem off_of_empty (hne : n ≠ h) : Seqs.Off (update noLists h (some [])) n where
  head := .inl (update_of_ne hne ..)
  element h' xs hlist := by
    by_cases hh : h' = h
    · simp_all
    · rw [update_of_ne hh] at hlist
      cases hlist

/-- A list is made, gets an element, and loses it; the next call finds it empty. -/
theorem intrusive_lists_pushPop :
    ∃ m', runOps [.init false, .add false true, .pop false, .pop false]
        (fun _ => (⟨none, none⟩ : Node Bool)) = some ([none, none, some true, none], m') ∧
      IsList m' false [] := by
  have hne : true ≠ false := by decide
  have hrun : SeqRun noLists [.init false, .add false true, .pop false, .pop false]
      [none, none, some true, none] _ :=
    .cons (.init fun _ _ hlist => nomatch hlist)
      (.cons (.add rfl hne (off_of_empty hne)) (.cons (.pop rfl) (.cons (.popNull rfl) (.nil _))))
  obtain ⟨m', hops, hlists, -⟩ := intrusive_lists_are_sequences (represents_noLists _) hrun
  exact ⟨m', hops, hlists false [] rfl⟩

end Represents

end Rivet.Kernel
