import Rivet.Kernel.Spin
import Rivet.Support.Circle

/-!
# The queues of processes in memory

The run queue and the wait queues are lists of processes, and a process is on at
most one of them.  The operations of `list.h` on the links in memory are those of
these lists, and none of them follows a null pointer.
-/

namespace Rivet.Kernel

open Circles Function List Option

variable {m : Links NodeId}

/-! ## List operations in memory -/

section Links

variable {N : Type} [DecidableEq N]

def nextOf (m : Links N) : N → Option N := Node.next ∘ m

def prevOf (m : Links N) : N → Option N := Node.prev ∘ m

theorem storeNext_eq (a : N) (x : Option N) (m : Links N) :
    ∃ m', storeNext (some a) x m = some m' ∧ nextOf m' = update (nextOf m) a x ∧
      prevOf m' = prevOf m := by
  refine ⟨_, rfl, comp_update .., ?_⟩
  exact (comp_update ..).trans (update_eq_self a (prevOf m))

theorem storePrev_eq (a : N) (x : Option N) (m : Links N) :
    ∃ m', storePrev (some a) x m = some m' ∧ nextOf m' = nextOf m ∧
      prevOf m' = update (prevOf m) a x := by
  refine ⟨_, rfl, ?_, comp_update ..⟩
  exact (comp_update ..).trans (update_eq_self a (nextOf m))

theorem rivListInsert_eq (a b n : N) (m : Links N) :
    ∃ m', rivListInsert (some a) (some b) n m = some m' ∧
      nextOf m' = update (update (nextOf m) n (some b)) a (some n) ∧
      prevOf m' = update (update (prevOf m) n (some a)) b (some n) := by
  obtain ⟨m1, h1, hnext1, hprev1⟩ := storeNext_eq a (some n) (update m n ⟨some a, some b⟩)
  obtain ⟨m2, h2, hnext2, hprev2⟩ := storePrev_eq b (some n) m1
  grind [rivListInsert, bind_eq_bind, nextOf, comp_update, prevOf]

theorem rivListDel_eq {m : Links N} {a b n : N} (hprev : prevOf m n = some a)
    (hnext : nextOf m n = some b) : ∃ m', rivListDel n m = some m' ∧
      nextOf m' = update (update (nextOf m) a (some b)) n (some n) ∧
      prevOf m' = update (update (prevOf m) b (some a)) n (some n) := by
  obtain ⟨m1, h1, hnext1, hprev1⟩ := storeNext_eq a (some b) m
  -- the links of `n` are read again, and are still the same
  have hprev' : (m1 n).prev = some a := (congrFun hprev1 n).trans hprev
  have hnext' : (m1 n).next = some b := by
    refine (congrFun hnext1 n).trans ?_
    grind
  obtain ⟨m2, h2, hnext2, hprev2⟩ := storePrev_eq b (some a) m1
  refine ⟨update m2 n ⟨some n, some n⟩, ?_, ?_, ?_⟩
  · have hprev0 : (m n).prev = some a := hprev
    have hnext0 : (m n).next = some b := hnext
    simp_all [rivListDel, bind_eq_bind, bind_some]
  all_goals grind [nextOf, comp_update, prevOf]

theorem rivListDel_null {m : Links N} {n : N} (hprev : (m n).prev = none) :
    rivListDel n m = none := by
  simp only [rivListDel, hprev, storeNext, map_none, bind_eq_bind, bind_none]

end Links

/-! ## The lists -/

abbrev ListId := Option QueueId

def ListId.head : ListId → NodeId
  | none => .runq
  | some q => .queue q

variable {h' : ListId}

theorem ListId.head_inj {h : ListId} (heq : h.head = h'.head) : h = h' := by
  cases h <;> cases h' <;> cases heq <;> rfl

theorem ListId.head_ne_proc (h : ListId) (p : Pid) : h.head ≠ .proc p := by cases h <;> exact nofun

/-- The links in memory are those of `lists`; a process on none of them is linked to
itself, or to nothing if it has not been `linked` yet. -/
structure LinksShow (next prev : NodeId → Option NodeId) (lists : ListId → List Pid)
    (linked : Pid → Bool) : Prop where
  circle : ∀ h, Circle next prev h.head ((lists h).map .proc)
  disjoint : ∀ p h h', p ∈ lists h → p ∈ lists h' → h = h'
  off : ∀ p, (∀ h, p ∉ lists h) →
    next (.proc p) = (if linked p then some (.proc p) else none) ∧
    prev (.proc p) = (if linked p then some (.proc p) else none)

section LinksShow

variable {next prev : NodeId → Option NodeId} {lists : ListId → List Pid} {linked : Pid → Bool}
  {h : ListId} {p : Pid}

theorem mem_map_proc {l : List Pid} : NodeId.proc p ∈ l.map NodeId.proc ↔ p ∈ l := by
  constructor
  all_goals simp

theorem mem_ring {l : List Pid} : NodeId.proc p ∈ h.head :: l.map NodeId.proc ↔ p ∈ l := by
  rw [mem_cons, mem_map_proc]
  exact or_iff_right (h.head_ne_proc p).symm

theorem LinksShow.nodup (hl : LinksShow next prev lists linked) (h : ListId) : (lists h).Nodup :=
  List.Nodup.of_map _ (nodup_cons.mp (hl.circle h).nodup).2

theorem LinksShow.apart (hl : LinksShow next prev lists linked) {h : ListId} (hne : h' ≠ h)
    {x y : NodeId} (hx : x ∈ h.head :: (lists h).map .proc)
    (hy : y ∈ h'.head :: (lists h').map .proc) : y ≠ x := by
  rintro rfl
  rcases mem_cons.mp hx with rfl | hx
  · rcases mem_cons.mp hy with heq | hy
    · exact hne (ListId.head_inj heq.symm)
    · obtain ⟨p, -, heq⟩ := mem_map.mp hy
      exact h.head_ne_proc p heq.symm
  · obtain ⟨p, hp, rfl⟩ := mem_map.mp hx
    exact hne (hl.disjoint p h' h (mem_ring.mp hy) hp)

def pushOn (lists : ListId → List Pid) (h : ListId) (p : Pid) : ListId → List Pid :=
  update lists h (lists h ++ [p])

def dropFrom (lists : ListId → List Pid) (p : Pid) : ListId → List Pid :=
  fun h => (lists h).erase p

theorem pushOn_self (lists : ListId → List Pid) (h : ListId) (p : Pid) :
    pushOn lists h p h = lists h ++ [p] :=
  update_self ..

theorem mem_pushOn {p' : Pid} : p' ∈ pushOn lists h p h' ↔ p' ∈ lists h' ∨ p' = p ∧ h' = h := by
  unfold pushOn
  grind

theorem LinksShow.addTail (hl : LinksShow (nextOf m) (prevOf m) lists linked)
    (hoff : ∀ h, p ∉ lists h) (h : ListId) : ∃ m', rivListAddTail h.head (.proc p) m = some m' ∧
      LinksShow (nextOf m') (prevOf m') (pushOn lists h p) (update linked p true) := by
  have hc := hl.circle h
  have hlast := getLastD_mem ((lists h).map NodeId.proc) h.head
  obtain ⟨m', hins, hnext, hprev⟩ := rivListInsert_eq
    (((lists h).map NodeId.proc).getLastD h.head) h.head (.proc p) m
  refine ⟨m', ?_, fun h' => ?_, fun p' h1 h2 hp1 hp2 => ?_, fun p' hp' => ?_⟩
  · have hprev0 : (m h.head).prev = _ := hc.prev_head
    rw [rivListAddTail, hprev0, hins]
  · have hring : ∀ h', NodeId.proc p ∉ h'.head :: (lists h').map NodeId.proc :=
      fun h' hmem => hoff h' (mem_ring.mp hmem)
    by_cases hh : h' = h
    · subst hh
      rw [pushOn, update_self, map_append, hnext, hprev]
      exact hc.push (hring h')
    · rw [pushOn, update_of_ne hh]
      refine (hl.circle h').congr (fun x hx => ?_) fun x hx => ?_
      · have hp : x ≠ .proc p := fun heq => hring h' (heq ▸ hx)
        rw [hnext, update_of_ne (hl.apart hh hlast hx), update_of_ne hp]
      · have hp : x ≠ .proc p := fun heq => hring h' (heq ▸ hx)
        rw [hprev, update_of_ne (hl.apart hh mem_cons_self hx), update_of_ne hp]
  · rcases mem_pushOn.mp hp1 with hold1 | ⟨rfl, rfl⟩
    · rcases mem_pushOn.mp hp2 with hold2 | ⟨rfl, -⟩
      · exact hl.disjoint p' h1 h2 hold1 hold2
      · exact absurd hold1 (hoff h1)
    · rcases mem_pushOn.mp hp2 with hold2 | ⟨-, rfl⟩
      · exact absurd hold2 (hoff h2)
      · rfl
  · have hoff' : ∀ h', p' ∉ lists h' := fun h' hmem => hp' h' (mem_pushOn.mpr (Or.inl hmem))
    have hne : p' ≠ p := fun heq => hp' h (mem_pushOn.mpr (Or.inr ⟨heq, rfl⟩))
    have hnep : NodeId.proc p' ≠ .proc p := fun heq => hne (NodeId.proc.inj heq)
    have hnelast : NodeId.proc p' ≠ ((lists h).map NodeId.proc).getLastD h.head :=
      fun heq => hoff' h (mem_ring.mp (heq ▸ hlast))
    rw [hnext, hprev, update_of_ne hnelast, update_of_ne hnep,
      update_of_ne (h.head_ne_proc p').symm, update_of_ne hnep, update_of_ne hne]
    exact hl.off p' hoff'

theorem dropFrom_of_off (hoff : ∀ h, p ∉ lists h) : dropFrom lists p = lists :=
  funext fun h => erase_of_not_mem (hoff h)

theorem headD_mem {N : Type} (xs : List N) (a : N) : xs.headD a ∈ a :: xs := by
  cases xs with
  | nil => exact mem_cons_self
  | cons x xs => exact mem_cons_of_mem a mem_cons_self

theorem LinksShow.del_of_mem (hl : LinksShow (nextOf m) (prevOf m) lists linked)
    (hp : p ∈ lists h) (hlinked : linked p = true) : ∃ m', rivListDel (.proc p) m = some m' ∧
      LinksShow (nextOf m') (prevOf m') (dropFrom lists p) linked := by
  obtain ⟨xs, ys, hsplit⟩ := append_of_mem hp
  have hpx : p ∉ xs := fun hmem => by
    have hnodup := hsplit ▸ hl.nodup h
    grind
  have hdrop : dropFrom lists p h = xs ++ ys := by grind [dropFrom]
  have hc := hl.circle h
  rw [hsplit, map_append, map_cons] at hc
  obtain ⟨hnextp, hprevp⟩ := hc.neighbours
  obtain ⟨m', hdel, hnext, hprev⟩ := rivListDel_eq hprevp hnextp
  -- both neighbours are on the circle of `h`
  have hmem : ∀ x ∈ h.head :: xs.map NodeId.proc, x ∈ h.head :: (lists h).map .proc := by grind
  have hlast := hmem _ (getLastD_mem (xs.map NodeId.proc) h.head)
  have hfirst : (ys.map NodeId.proc).headD h.head ∈ h.head :: (lists h).map .proc := by
    rcases mem_cons.mp (headD_mem (ys.map NodeId.proc) h.head) with heq | hy
    all_goals grind
  refine ⟨m', hdel, fun h' => ?_, fun p' h1 h2 hp1 hp2 => ?_, fun p' hp' => ?_⟩
  · by_cases hh : h' = h
    · subst hh
      rw [hdrop, map_append, hnext, hprev]
      exact hc.unlink
    · have hp' : p ∉ lists h' := fun hmem => hh (hl.disjoint p h' h hmem hp)
      rw [dropFrom, erase_of_not_mem hp']
      refine (hl.circle h').congr (fun x hx => ?_) fun x hx => ?_
      · have hxp : x ≠ .proc p := fun heq => hp' (mem_ring.mp (heq ▸ hx))
        rw [hnext, update_of_ne hxp, update_of_ne (hl.apart hh hlast hx)]
      · have hxp : x ≠ .proc p := fun heq => hp' (mem_ring.mp (heq ▸ hx))
        rw [hprev, update_of_ne hxp, update_of_ne (hl.apart hh hfirst hx)]
  · exact hl.disjoint p' h1 h2 (mem_of_mem_erase hp1) (mem_of_mem_erase hp2)
  · by_cases hne : p' = p
    · simp_all
    have hoff : ∀ h', p' ∉ lists h' :=
      fun h' hmem => hp' h' ((mem_erase_of_ne hne).mpr hmem)
    have hnep : NodeId.proc p' ≠ .proc p := fun heq => hne (NodeId.proc.inj heq)
    have hnode : ∀ x ∈ h.head :: (lists h).map .proc, NodeId.proc p' ≠ x :=
      fun x hx heq => hoff h (mem_ring.mp (heq ▸ hx))
    rw [hnext, hprev, update_of_ne hnep, update_of_ne hnep, update_of_ne (hnode _ hlast),
      update_of_ne (hnode _ hfirst)]
    exact hl.off p' hoff

theorem LinksShow.del_of_off (hl : LinksShow (nextOf m) (prevOf m) lists linked)
    (hoff : ∀ h, p ∉ lists h) (hlinked : linked p = true) : ∃ m', rivListDel (.proc p) m = some m' ∧
      LinksShow (nextOf m') (prevOf m') (dropFrom lists p) linked := by
  have hself := hl.off p hoff
  grind [update_idem, dropFrom_of_off, update_eq_self_iff.mpr, rivListDel_eq]

theorem LinksShow.del (hl : LinksShow (nextOf m) (prevOf m) lists linked)
    (hlinked : linked p = true) : ∃ m', rivListDel (.proc p) m = some m' ∧
      LinksShow (nextOf m') (prevOf m') (dropFrom lists p) linked := by
  by_cases hon : ∃ h, p ∈ lists h
  · obtain ⟨h, hp⟩ := hon
    exact hl.del_of_mem hp hlinked
  · exact hl.del_of_off (not_exists.mp hon) hlinked

theorem LinksShow.rivListEmpty_iff (hl : LinksShow (nextOf m) (prevOf m) lists linked)
    (h : ListId) : rivListEmpty h.head m = true ↔ lists h = [] := by
  rw [rivListEmpty, decide_eq_true_eq, ← map_eq_nil_iff (f := NodeId.proc)]
  exact (hl.circle h).next_head_iff

theorem LinksShow.pop (hl : LinksShow (nextOf m) (prevOf m) lists linked) {ps : List Pid}
    (hlist : lists h = p :: ps) (hlinked : linked p = true) :
    ∃ m', rivListPop h.head m = some (some (.proc p), m') ∧
      LinksShow (nextOf m') (prevOf m') (dropFrom lists p) linked := by
  have hnonempty : ¬rivListEmpty h.head m = true := by simp [hl.rivListEmpty_iff h, hlist]
  have hnext : (m h.head).next = some (.proc p) := by
    have hnext := (hl.circle h).next_head
    rw [hlist] at hnext
    exact hnext
  obtain ⟨m', hdel, hl'⟩ := hl.del hlinked
  grind [rivListPop, bind_eq_bind]

theorem LinksShow.not_mem_dropFrom (hl : LinksShow next prev lists linked) (p : Pid)
    (h : ListId) : p ∉ dropFrom lists p h :=
  (hl.nodup h).not_mem_erase

end LinksShow

end Rivet.Kernel
