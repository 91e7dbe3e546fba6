import Mathlib.Data.List.Rotate
import Rivet.Kernel.LockedSections
import Rivet.Kernel.Queues

/-!
# Round robin

A call of `riv_proc_yield` puts the current process behind those that are ready and
lets the first of them run.  The processes take turns: after as many calls as there
are processes, the kernel is in the state it started from.
-/

namespace Rivet.Kernel

open Circles Function List

variable {Dev : Type} {w : World Dev} {p q : Pid} {ps qs : List Pid}

/-! ## Runs of `riv_proc_yield` -/

/-- `n` calls of `riv_proc_yield`, each by the process then current: the states that the
processes are resumed in.  The context switch resumes the process it loads, and that
process finds the memory as it is. -/
def yieldRun : ℕ → World Dev → Except Stop (List (World Dev))
  | 0, _ => .ok []
  | n + 1, w => do
    let (_, w') ← (rivProcYield .idle).run w
    let ws ← yieldRun n w'
    pure (w' :: ws)

/-- A process runs, the others wait in the run queue in their order, and the scheduler is
not in use. -/
structure Turns (w : World Dev) (p : Pid) (ps : List Pid) : Prop where
  free : w.locks .sched = false
  current : w.current = some p
  queue : Circle (nextOf w.links) (prevOf w.links) .runq (ps.map .proc)
  running : (w.procs p).state = .running
  ready : ∀ q ∈ ps, (w.procs q).state = .ready

/-- Nothing but the run queue and the processes `xs` has changed, and of these nothing
but their links and their states. -/
structure SameBut (xs : List Pid) (w w' : World Dev) : Prop where
  rest : w' = { w with links := w'.links, procs := w'.procs, current := w'.current }
  links : ∀ n, n ≠ .runq → (∀ p ∈ xs, n ≠ .proc p) → w'.links n = w.links n
  procs : ∀ p, ∃ s, w'.procs p = { w.procs p with state := s } ∧
    (p ∉ xs → s = (w.procs p).state)

theorem Turns.not_mem (h : Turns w p ps) : p ∉ ps := by
  intro hmem
  have hready := h.ready p hmem
  rw [h.running] at hready
  cases hready

/-! ## The run queue -/

theorem node_eq {N : Type} {a b : Node N} (hnext : a.next = b.next) (hprev : a.prev = b.prev) :
    a = b := by
  cases a
  cases b
  cases hnext
  cases hprev
  rfl

theorem links_turn {m : Links NodeId}
    (hc : Circle (nextOf m) (prevOf m) .runq ((q :: qs).map .proc)) (hp : p ∉ q :: qs) :
    ∃ m1 m2, rivListAddTail .runq (.proc p) m = some m1 ∧
      rivListPop .runq m1 = some (some (.proc q), m2) ∧
      Circle (nextOf m2) (prevOf m2) .runq ((qs ++ [p]).map .proc) ∧
      m2 (.proc q) = ⟨some (.proc q), some (.proc q)⟩ ∧
      ∀ n, n ≠ .runq → (∀ r ∈ p :: q :: qs, n ≠ .proc r) → m2 n = m n := by
  have hnew : NodeId.proc p ∉ ListId.head none :: (q :: qs).map NodeId.proc :=
    fun hmem => hp (mem_ring.mp hmem)
  obtain ⟨m1, hins, hnext1, hprev1⟩ :=
    rivListInsert_eq (((q :: qs).map NodeId.proc).getLastD .runq) .runq (.proc p) m
  have hc1 : Circle (nextOf m1) (prevOf m1) .runq ([] ++ .proc q :: (qs ++ [p]).map .proc) := by
    rw [hnext1, hprev1, map_append]
    exact hc.push hnew
  obtain ⟨hnextq, hprevq⟩ := hc1.neighbours
  obtain ⟨m2, hdel, hnext2, hprev2⟩ := rivListDel_eq hprevq hnextq
  rw [getLastD_nil] at hnext2 hprev2
  refine ⟨m1, m2, ?_, ?_, ?_, ?_, ?_⟩
  · have hlast : (m .runq).prev = _ := hc.prev_head
    rw [rivListAddTail, hlast, hins]
  · have hfirst : (m1 .runq).next = some (.proc q) := hc1.next_head
    simp_all [rivListEmpty, rivListPop, Option.bind_eq_bind, Option.bind_some]
  · rw [hnext2, hprev2]
    exact hc1.unlink
  · exact node_eq ((congrFun hnext2 _).trans (update_self ..))
      ((congrFun hprev2 _).trans (update_self ..))
  · intro n hrunq hother
    have hp : n ≠ .proc p := hother p mem_cons_self
    have hq : n ≠ .proc q := hother q (mem_cons_of_mem p mem_cons_self)
    have hlast : n ≠ ((q :: qs).map NodeId.proc).getLastD .runq := by
      rintro rfl
      rcases mem_cons.mp (getLastD_mem ((q :: qs).map NodeId.proc) .runq) with heq | hmem
      · exact hrunq heq
      · obtain ⟨r, hr, heq⟩ := mem_map.mp hmem
        exact hother r (mem_cons_of_mem p hr) heq.symm
    have hfirst : n ≠ ((qs ++ [p]).map NodeId.proc).headD .runq := by
      rintro rfl
      rcases mem_cons.mp (headD_mem ((qs ++ [p]).map NodeId.proc) .runq) with heq | hmem
      · exact hrunq heq
      · grind
    refine node_eq ?_ ?_
    · refine (congrFun hnext2 n).trans ?_
      rw [update_of_ne hq, update_of_ne hrunq, hnext1, update_of_ne hlast, update_of_ne hp]
      rfl
    · refine (congrFun hprev2 n).trans ?_
      rw [update_of_ne hq, update_of_ne hfirst, hprev1, update_of_ne hrunq, update_of_ne hp]
      rfl

/-! ## A call -/

def World.turn (w : World Dev) (links : Links NodeId) (p q : Pid) : World Dev :=
  { w with
    links := links
    procs := update (update w.procs p { w.procs p with state := .ready }) q
      { w.procs q with state := .running }
    current := some q }

theorem World.release_turn {l : SpinId} (hfree : w.locks l = false) (links : Links NodeId)
    (p q : Pid) : ((w.acquire l).turn links p q).release l w.irqOn = w.turn links p q := by
  have hlocks : update (update w.locks l true) l false = w.locks := by
    rw [update_idem, update_eq_self_iff, hfree]
  have hirq : ((w.acquire l).turn links p q |>.release l w.irqOn).irqOn = w.irqOn := by
    grind [World.release, World.turn, World.acquire]
  calc ((w.acquire l).turn links p q).release l w.irqOn
      = { w.turn links p q with
          locks := update (update w.locks l true) l false
          irqOn := (((w.acquire l).turn links p q).release l w.irqOn).irqOn } := rfl
    _ = w.turn links p q := by
        rw [hlocks, hirq]
        rfl

theorem run_pickNext (h : Turns w p (q :: qs)) :
    ∃ links, pickNext.run w = .ok ((some p, some q), w.turn links p q) ∧
      Circle (nextOf links) (prevOf links) .runq ((qs ++ [p]).map .proc) ∧
      links (.proc q) = ⟨some (.proc q), some (.proc q)⟩ ∧
      ∀ n, n ≠ .runq → (∀ r ∈ p :: q :: qs, n ≠ .proc r) → links n = w.links n := by
  obtain ⟨m1, m2, hadd, hpop, hc, hself, hrest⟩ := links_turn h.queue h.not_mem
  refine ⟨m2, ?_, hc, hself, hrest⟩
  have hnonempty : ¬rivListEmpty .runq w.links = true := by
    rw [rivListEmpty, decide_eq_true_eq]
    exact fun hnil => cons_ne_nil _ _ (h.queue.next_head_iff.mp hnil)
  have hne : q ≠ p := fun heq => h.not_mem (heq ▸ mem_cons_self)
  have hcurrent : (w.acquire .sched).current = some p := h.current
  have hlinks : (w.acquire .sched).links = w.links := rfl
  have hrunning : ((w.acquire .sched).procs p).state = .running := h.running
  rw [pickNext, ← World.release_turn h.free]
  apply run_spinLocked_next h.free
  simp only [StateT.run_bind, StateT.run_get, pure_bind, hlinks, if_neg hnonempty, hcurrent,
    requeue, hrunning, if_true, setState, setProc, StateT.run_modify, onLinks, hadd, popProc,
    hpop, StateT.run_pure, update_of_ne hne]
  rfl

theorem SameBut.trans {xs ys : List Pid} {w1 w2 : World Dev} (h : SameBut xs w w1)
    (h' : SameBut ys w1 w2) (hsub : ∀ r ∈ ys, r ∈ xs) : SameBut xs w w2 where
  rest := by
    rw [h'.rest, h.rest]
  links n hrunq hother := by
    rw [h'.links n hrunq fun r hr => hother r (hsub r hr), h.links n hrunq hother]
  procs r := by
    obtain ⟨s1, h1, hout1⟩ := h.procs r
    obtain ⟨s2, h2, hout2⟩ := h'.procs r
    refine ⟨s2, by rw [h2, h1], fun hr => ?_⟩
    rw [hout2 fun hmem => hr (hsub r hmem), h1, hout1 hr]

theorem World.procs_turn (w : World Dev) (links : Links NodeId) {p q : Pid} (hne : q ≠ p)
    (r : Pid) :
    (w.turn links p q).procs r =
      { w.procs r with
        state := if r = q then .running else if r = p then .ready else (w.procs r).state } := by
  by_cases hq : r = q
  · subst hq
    simp [World.turn]
  · by_cases hp : r = p
    all_goals simp_all [World.turn]

theorem Turns.yield (h : Turns w p (q :: qs)) :
    ∃ w', (rivProcYield .idle).run w = .ok ((), w') ∧ Turns w' q (qs ++ [p]) ∧
      SameBut (p :: q :: qs) w w' ∧ w'.links (.proc q) = ⟨some (.proc q), some (.proc q)⟩ := by
  obtain ⟨links, hrun, hc, hself, hrest⟩ := run_pickNext h
  have hne : q ≠ p := fun heq => h.not_mem (heq ▸ mem_cons_self)
  have hnodup : q ∉ qs := by
    have hnodup := (nodup_cons.mp h.queue.nodup).2
    grind
  have hstate := w.procs_turn links hne
  refine ⟨w.turn links p q, ?_, ⟨h.free, rfl, hc, ?_, ?_⟩, ⟨rfl, hrest, ?_⟩, hself⟩
  · have hother : (some p : Option Pid) ≠ some q := fun heq => hne (Option.some.inj heq).symm
    rw [rivProcYield, StateT.run_bind, hrun]
    change StateT.run (if some p = some q then pure () else modify id) (w.turn links p q) = _
    rw [if_neg hother]
    rfl
  · rw [hstate q, if_pos rfl]
  · intro r hr
    rcases mem_append.mp hr with hr | hr
    · have hrq : r ≠ q := fun heq => hnodup (heq ▸ hr)
      have hrp : r ≠ p := fun heq => h.not_mem (heq ▸ mem_cons_of_mem q hr)
      rw [hstate r, if_neg hrq, if_neg hrp]
      exact h.ready r (mem_cons_of_mem q hr)
    grind
  grind

/-! ## Whole rounds -/

theorem Turns.yieldRun (h : Turns w p ps) (hne : ps ≠ []) (n : ℕ) :
    ∃ ws, Kernel.yieldRun n w = .ok ws ∧ ws.length = n ∧
      ∀ i w', ws[i]? = some w' → ∃ p' ps', (p :: ps).rotate (i + 1) = p' :: ps' ∧
        Turns w' p' ps' ∧ SameBut (p :: ps) w w' ∧
        w'.links (.proc p') = ⟨some (.proc p'), some (.proc p')⟩ := by
  induction n generalizing w p ps with
  | zero =>
    refine ⟨[], rfl, rfl, fun i w' hi => ?_⟩
    cases hi
  | succ n ih =>
    obtain ⟨q, qs, rfl⟩ := exists_cons_of_ne_nil hne
    obtain ⟨w1, hrun, h1, hsame1, hself1⟩ := h.yield
    obtain ⟨ws, hws, hlen, hall⟩ := ih h1 (by simp)
    refine ⟨w1 :: ws, ?_, by rw [length_cons, hlen], fun i w' hi => ?_⟩
    · rw [Kernel.yieldRun, hrun]
      change (Kernel.yieldRun n w1 >>= _) = _
      rw [hws]
      rfl
    · cases i with
      | zero =>
        cases hi
        exact ⟨q, qs ++ [p], by simp, h1, hsame1, hself1⟩
      | succ i =>
        obtain ⟨p', ps', hrot, h', hsame, hself⟩ := hall i w' hi
        refine ⟨p', ps', ?_, h', hsame1.trans hsame ?_, hself⟩
        · rw [rotate_cons_succ]
          exact hrot
        grind

theorem map_head?_rotate {α : Type} (xs : List α) :
    (List.range xs.length).map (fun i => (xs.rotate i).head?) = xs.map some := by
  refine ext_getElem? fun i => ?_
  by_cases hi : i < xs.length
  all_goals simp_all

theorem Turns.running_iff {w' : World Dev} {xs : List Pid} {p' : Pid} {ps' : List Pid}
    (h : Turns w' p' ps') (hperm : (p' :: ps').Perm xs) (hsame : SameBut xs w w') (r : Pid) :
    (w'.procs r).state = .running ↔
      w'.current = some r ∨ (r ∉ xs ∧ (w.procs r).state = .running) := by
  have hmem : r ∈ xs ↔ r = p' ∨ r ∈ ps' := by rw [← hperm.mem_iff, mem_cons]
  obtain ⟨s, hs, hout⟩ := hsame.procs r
  rw [h.current, Option.some_inj]
  constructor
  · intro hrun
    by_cases hr : r ∈ xs
    · rcases hmem.mp hr with rfl | hr
      · exact .inl rfl
      · rw [h.ready r hr] at hrun
        cases hrun
    grind
  · rintro (rfl | ⟨hr, hrun⟩)
    · exact h.running
    · rw [hs]
      exact (hout hr).trans hrun

theorem Turns.eq_of_sameBut {w' : World Dev} (h : Turns w p ps) (h' : Turns w' p ps)
    (hsame : SameBut (p :: ps) w w')
    (hself : w'.links (.proc p) = ⟨some (.proc p), some (.proc p)⟩) :
    w' = { w with links := update w.links (.proc p) ⟨some (.proc p), some (.proc p)⟩ } := by
  have hlinks : w'.links = update w.links (.proc p) ⟨some (.proc p), some (.proc p)⟩ := by
    funext n
    by_cases hn : n = .proc p
    · rw [hn, hself, update_self]
    rw [update_of_ne hn]
    by_cases hmem : n ∈ NodeId.runq :: ps.map NodeId.proc
    · obtain ⟨hnext, hprev⟩ := h.queue.agree h'.queue n hmem
      exact node_eq hnext hprev
    · rw [mem_cons, not_or] at hmem
      refine hsame.links n hmem.1 fun r hr heq => ?_
      grind
  have hprocs : w'.procs = w.procs := by
    funext r
    obtain ⟨s, hs, hout⟩ := hsame.procs r
    have hstate : (w'.procs r).state = (w.procs r).state := by
      by_cases hr : r ∈ p :: ps
      · rcases mem_cons.mp hr with rfl | hr
        · rw [h'.running, h.running]
        · rw [h'.ready r hr, h.ready r hr]
      · rw [hs]
        exact hout hr
    rw [hs] at hstate ⊢
    rw [show s = _ from hstate]
  calc w' = { w with links := w'.links, procs := w'.procs, current := w'.current } := hsame.rest
    _ = { w with links := update w.links (.proc p) ⟨some (.proc p), some (.proc p)⟩ } := by
        rw [hlinks, hprocs, h'.current, ← h.current]

/-- From every state in which the current process runs and others wait in the run queue,
they run in the order of the queue, then the process that was current runs again, and the
state is the one at the start.  All the while the current process is RUNNING and the others
wait READY in the run queue, and no other process changes. -/
theorem yield_round_robin (h : Turns w p ps) (hne : ps ≠ []) :
    ∃ ws, yieldRun (ps.length + 1) w = .ok ws ∧ ws.map World.current = (ps ++ [p]).map some ∧
      ws.getLast? =
        some { w with links := update w.links (.proc p) ⟨some (.proc p), some (.proc p)⟩ } ∧
      ∀ w' ∈ ws, ∃ p' ps', Turns w' p' ps' ∧ (p' :: ps').Perm (p :: ps) ∧
        ∀ r, (w'.procs r).state = .running ↔
          w'.current = some r ∨ (r ∉ p :: ps ∧ (w.procs r).state = .running) := by
  obtain ⟨ws, hws, hlen, hall⟩ := h.yieldRun hne (ps.length + 1)
  refine ⟨ws, hws, ?_, ?_, ?_⟩
  · rw [← map_head?_rotate, List.length_append, List.length_singleton]
    refine List.ext_getElem? fun i => ?_
    rw [List.getElem?_map, List.getElem?_map]
    by_cases hi : i < ws.length
    · obtain ⟨p', ps', hrot, h', -, -⟩ := hall i _ (List.getElem?_eq_getElem hi)
      rw [List.getElem?_range (hlen ▸ hi), List.getElem?_eq_getElem hi, Option.map_some,
        Option.map_some, h'.current, ← List.rotate_cons_succ, hrot]
      rfl
    · rw [List.getElem?_eq_none (Nat.le_of_not_lt hi), List.getElem?_eq_none]
      · rfl
      · rw [List.length_range, ← hlen]
        exact Nat.le_of_not_lt hi
  · rw [List.getLast?_eq_getElem?, hlen, Nat.add_sub_cancel]
    have hlast : ps.length < ws.length := by omega
    obtain ⟨p', ps', hrot, h', hsame, hself⟩ := hall _ _ (List.getElem?_eq_getElem hlast)
    rw [← List.length_cons (a := p), List.rotate_length] at hrot
    cases hrot
    rw [List.getElem?_eq_getElem hlast, h.eq_of_sameBut h' hsame hself]
  · intro w' hw'
    obtain ⟨i, hi⟩ := List.mem_iff_getElem?.mp hw'
    obtain ⟨p', ps', hrot, h', hsame, -⟩ := hall i w' hi
    have hperm : (p' :: ps').Perm (p :: ps) := hrot ▸ List.rotate_perm _ _
    exact ⟨p', ps', h', hperm, h'.running_iff hperm hsame⟩

def twoProcs : World Unit :=
  { bootWorld with
    procs := update (update bootWorld.procs 0 ⟨1, .running, 0, none, none⟩) 1
      ⟨2, .ready, 0, none, none⟩
    links := update (update bootWorld.links .runq ⟨some (.proc 1), some (.proc 1)⟩) (.proc 1)
      ⟨some .runq, some .runq⟩
    current := some 0 }

theorem yield_round_robin_twoProcs :
    ∃ ws, yieldRun 2 twoProcs = .ok ws ∧ ws.map World.current = [some 1, some 0] := by
  have hturns : Turns twoProcs 0 [1] := by
    refine ⟨rfl, rfl, ⟨⟨rfl, rfl⟩, ⟨rfl, rfl⟩, by decide⟩, rfl, fun q hq => ?_⟩
    rw [List.mem_singleton.mp hq]
    rfl
  obtain ⟨ws, hws, hcurrent, -⟩ := yield_round_robin hturns (List.cons_ne_nil 1 [])
  exact ⟨ws, hws, hcurrent⟩

end Rivet.Kernel
