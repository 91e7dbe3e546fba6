import Rivet.Kernel.Lifecycle

/-!
# Returning from `riv_waitq_sleep`

A process that goes to sleep is put on a wait queue and yields.  If the run queue is
empty at that moment `riv_proc_yield` returns at once, and so does the sleep, with
the process still on the queue.  In all other runs a process comes back only after it
has been woken, provided `riv_proc_ready` is not used on processes that are queued.
-/

namespace Rivet.Kernel

open Circles Function Runs

variable {Dev : Type}

/-- Every link is initialised by `riv_list_init`. -/
def initLinks (w : World Dev) : World Dev := { w with links := fun n => ⟨some n, some n⟩ }

def OnList (w : World Dev) (h : ListId) (p : Pid) : Prop :=
  ∃ ps : List Pid, Circle (nextOf w.links) (prevOf w.links) h.head (ps.map .proc) ∧ p ∈ ps

/-- When `riv_waitq_sleep` returns in the current process, a wake has taken it off the
queue since, it is on no list, and it is running. -/
def ReturnsWoken (s : SchedRun Dev) : Prop :=
  ∀ p q l, s.world.current = some p → s.pc p = .returning q l →
    s.woken p = true ∧ (∀ h, ¬OnList s.world h p) ∧ (s.world.procs p).state = .running

def SleepPc.isReturning : SleepPc → Bool
  | .returning _ _ => true
  | _ => false

/-- The yield of a process that still sleeps finds another process ready, and
`riv_proc_ready` is not called on the process that is about to return. -/
def SwitchesAway (s : SchedRun Dev) : SchedAction → Prop
  | .sleepYield =>
    match s.world.current with
    | some p => (s.world.procs p).state = .sleeping → rivListEmpty .runq s.world.links = false
    | none => True
  | .ready p => s.world.current = some p → (s.pc p).isReturning = false
  | _ => True

theorem switchesAway_of_none {s : SchedRun Dev} (hcurrent : s.world.current = none) :
    SwitchesAway s .sleepYield := by simp only [SwitchesAway, hcurrent]

theorem switchesAway_of_some {s : SchedRun Dev} {p : Pid} (hcurrent : s.world.current = some p) :
    (s.world.procs p).state ≠ .sleeping ∨ rivListEmpty .runq s.world.links = false ↔
      SwitchesAway s .sleepYield := by
  simp only [SwitchesAway, hcurrent]
  exact imp_iff_not_or.symm

instance (s : SchedRun Dev) : (a : SchedAction) → Decidable (SwitchesAway s a)
  | .sleepYield =>
    match hcurrent : s.world.current with
    | none => isTrue (switchesAway_of_none hcurrent)
    | some _ => decidable_of_iff _ (switchesAway_of_some hcurrent)
  | .ready p =>
    decidable_of_iff (s.world.current ≠ some p ∨ (s.pc p).isReturning = false)
      imp_iff_not_or.symm
  | .yield | .sleep _ _ | .sleepReturn | .wakeOne _ | .lock _ | .unlock _ => isTrue trivial

/-! ## Inside a sleep -/

/-- The queue that a process inside `riv_waitq_sleep` was put on. -/
def SleepPc.queue : SleepPc → Option QueueId
  | .idle => none
  | .enqueued q _ => some q
  | .returning q _ => some q

/-- A process inside `riv_waitq_sleep` is still on the queue, or it has been woken and
then waits to run or runs. -/
def Sleepers (a : Sched) (pc : Pid → SleepPc) (woken : Pid → Bool) : Prop :=
  ∀ p q, (pc p).queue = some q → p ∈ a.lists (some q) ∨
    woken p = true ∧ (p ∈ a.lists none ∨ a.state p = .running)

def Returner (a : Sched) (pc : Pid → SleepPc) : Prop :=
  ∀ p q l, a.current = some p → pc p = .returning q l → a.state p = .running

section Lists

variable {a : Sched} {pc : Pid → SleepPc} {woken : Pid → Bool} {p : Pid}

theorem Sleepers.of_others (h : Sleepers a pc woken) (p : Pid) {b : Sched}
    {pc' : Pid → SleepPc} {woken' : Pid → Bool}
    (hp : ∀ q, (pc' p).queue = some q → p ∈ b.lists (some q) ∨
      woken' p = true ∧ (p ∈ b.lists none ∨ b.state p = .running))
    (hothers : ∀ p', p' ≠ p → pc' p' = pc p' ∧ woken' p' = woken p' ∧ b.state p' = a.state p' ∧
      ∀ l, p' ∈ a.lists l → p' ∈ b.lists l) : Sleepers b pc' woken' := by
  intro p' q hq
  by_cases hne : p' = p
  · subst hne
    exact hp q hq
  obtain ⟨hpc, hwoken, hstate, hlists⟩ := hothers p' hne
  rw [hpc] at hq
  rw [hwoken, hstate]
  exact (h p' q hq).imp (hlists (some q)) (And.imp_right (Or.imp_left (hlists none)))

theorem Sleepers.ready (h : Sleepers a pc woken) (hoff : a.Off p) :
    Sleepers (a.ready p) pc woken := by
  refine h.of_others p (fun q hq => ?_) fun p' hne => ?_
  · rcases h p q hq with hmem | ⟨hwoken, -⟩
    · exact absurd hmem (hoff (some q))
    · exact Or.inr ⟨hwoken, Or.inl (Sched.mem_ready.mpr (Or.inr ⟨rfl, rfl⟩))⟩
  · exact ⟨rfl, rfl, update_of_ne hne .., fun l hmem => Sched.mem_ready.mpr (Or.inl hmem)⟩

theorem Returner.ready (h : Returner a pc)
    (hp : a.current = some p → (pc p).isReturning = false) : Returner (a.ready p) pc := by
  intro p' q l hcurrent hpc
  have hne : p' ≠ p := by
    rintro rfl
    have hno := hp hcurrent
    rw [hpc] at hno
    cases hno
  exact (update_of_ne hne ..).trans (h p' q l hcurrent hpc)

theorem Sleepers.requeue (h : Sleepers a pc woken) (hok : a.Ok) : Sleepers a.requeue pc woken := by
  unfold Sched.requeue
  split
  · exact h
  split
  · next hrunning =>
    refine h.ready (hok.off ?_ ?_) <;> rw [hrunning] <;> exact nofun
  · exact h

theorem Sleepers.dispatch (h : Sleepers a pc woken) (hok : a.Ok) :
    Sleepers a.dispatch pc woken := by
  unfold Sched.dispatch
  split
  · exact h
  next p ps hlist =>
  refine h.of_others p (fun q hq => ?_) fun p' hne => ?_
  · have hready := hok.ready p (hlist ▸ List.mem_cons_self)
    rcases h p q hq with hmem | ⟨hwoken, -⟩
    · cases hready.symm.trans (hok.sleeping q p hmem)
    · exact Or.inr ⟨hwoken, Or.inr (update_self ..)⟩
  · exact ⟨rfl, rfl, update_of_ne hne .., fun l => (Sched.mem_drop_of_ne hne l).mpr⟩

theorem returner_dispatch (hne : a.lists none ≠ []) : Returner a.dispatch pc := by
  intro p' q l hcurrent _
  unfold Sched.dispatch at hcurrent ⊢
  split at hcurrent
  · next hnil => exact absurd hnil hne
  · cases hcurrent
    exact update_self ..

theorem Sleepers.enqueue (h : Sleepers a pc woken) (q : QueueId) (l : Option GuardId) :
    Sleepers (a.enqueue q p) (update pc p (.enqueued q l)) (update woken p false) := by
  refine h.of_others p (fun q' hq' => ?_) fun p' hne => ?_
  · rw [update_self] at hq'
    cases hq'
    exact Or.inl (Sched.mem_enqueue.mpr (Or.inr ⟨rfl, rfl⟩))
  · refine ⟨update_of_ne hne .., update_of_ne hne .., update_of_ne hne .., fun l hmem => ?_⟩
    exact Sched.mem_enqueue.mpr (Or.inl ((Sched.mem_drop_of_ne hne l).mpr hmem))

theorem Sleepers.wake (h : Sleepers a pc woken) {q : QueueId} {ps : List Pid}
    (hlist : a.lists (some q) = p :: ps) : Sleepers (a.wake q) pc (update woken p true) := by
  have hwake : a.wake q = (a.drop p).ready p := by
    rw [Sched.wake, hlist]
  rw [hwake]
  refine h.of_others p (fun q' _ => ?_) fun p' hne => ?_
  · exact Or.inr ⟨update_self .., Or.inl (Sched.mem_ready.mpr (Or.inr ⟨rfl, rfl⟩))⟩
  · refine ⟨rfl, update_of_ne hne .., update_of_ne hne .., fun l hmem => ?_⟩
    exact Sched.mem_ready.mpr (Or.inl ((Sched.mem_drop_of_ne hne l).mpr hmem))

end Lists

/-! ## Runs -/

section Runs

variable {s s' : SchedRun Dev} {a a' : Sched} {b : SchedAction}

/-- The memory shows lists of processes, and the processes inside a sleep are where
they should be. -/
structure SleepsWell (s : SchedRun Dev) (a : Sched) : Prop where
  tracks : Tracks s.world a
  sleepers : Sleepers a s.pc s.woken
  returner : Returner a s.pc

theorem Tracks.onList_iff {w : World Dev} (h : Tracks w a) (l : ListId) (p : Pid) :
    OnList w l p ↔ p ∈ a.lists l := by
  constructor
  · rintro ⟨ps, hcircle, hmem⟩
    have heq := hcircle.unique (h.shows_.links.circle l)
    rw [← mem_map_proc, ← heq]
    exact mem_map_proc.mpr hmem
  · exact fun hmem => ⟨a.lists l, h.shows_.links.circle l, hmem⟩

theorem SleepsWell.returnsWoken (h : SleepsWell s a) : ReturnsWoken s := by
  intro p q l hcurrent hpc
  have hrunning := h.returner p q l (h.tracks.shows_.current.symm.trans hcurrent) hpc
  have hoff : a.Off p := by simp [hrunning, h.tracks.ok.off]
  refine ⟨?_, fun l hon => hoff l ((h.tracks.onList_iff l p).mp hon), ?_⟩
  · rcases h.sleepers p q (by rw [hpc]; rfl) with hmem | ⟨hwoken, -⟩
    · exact absurd hmem (hoff (some q))
    · exact hwoken
  · rw [h.tracks.shows_.state p, hrunning]

theorem sleepsWell_start (w : World Dev) : ∃ a, SleepsWell (SchedRun.start (initLinks w)) a := by
  refine ⟨⟨fun _ => [], fun _ => true, fun p => (w.procs p).state, w.current⟩,
    ⟨⟨⟨fun h => circle_nil.mpr ⟨rfl, rfl⟩, nofun, fun p _ => ⟨rfl, rfl⟩⟩, fun _ => rfl, rfl⟩,
      ⟨nofun, nofun, nofun, fun _ _ => rfl⟩⟩, nofun, nofun⟩

theorem Sleepers.of_queue {pc pc' : Pid → SleepPc} {woken : Pid → Bool}
    (h : Sleepers a pc woken) (hqueue : ∀ p, (pc' p).queue = (pc p).queue) : Sleepers a pc' woken :=
  fun p q hq => h p q ((hqueue p).symm.trans hq)

theorem SleepsWell.yield (h : SleepsWell s a) {pc : Pid → SleepPc}
    (hqueue : ∀ p, (pc p).queue = (s.pc p).queue) (hempty : a.lists none = [] → Returner a pc) :
    Sleepers a.yield pc s.woken ∧ Returner a.yield pc := by
  have hsleepers := h.sleepers.of_queue hqueue
  have hok := h.tracks.ok
  unfold Sched.yield
  by_cases hnil : a.lists none = []
  · simp_all
  · rw [if_neg hnil]
    exact ⟨(hsleepers.requeue hok).dispatch hok.requeue_step,
      returner_dispatch (Sched.requeue_ne_nil hnil)⟩

theorem SleepsWell.returner_switched (h : SleepsWell s a) {p : Pid} {q : QueueId}
    {l : Option GuardId} (hok : SwitchesAway s .sleepYield) (hcurrent : a.current = some p)
    (hpc : s.pc p = .enqueued q l) (hnil : a.lists none = []) :
    Returner a (update s.pc p (.returning q l)) := by
  intro p' q' l' hcurrent' _
  rcases h.sleepers p q (by rw [hpc]; rfl) with hmem | ⟨-, hmem | hrunning⟩
  · -- it still sleeps, and the run queue is empty
    have hsleeping := (h.tracks.shows_.state p).trans (h.tracks.ok.sleeping q p hmem)
    simp only [SwitchesAway, h.tracks.shows_.current, hcurrent] at hok
    have hempty : rivListEmpty .runq s.world.links = true :=
      (h.tracks.shows_.links.rivListEmpty_iff none).mpr hnil
    rw [hok hsleeping] at hempty
    cases hempty
  all_goals grind

theorem SleepsWell.woke (h : SleepsWell s a) (q : QueueId) :
    Sleepers (a.wake q) s.pc (s.wokenBy q) ∧ Returner (a.wake q) s.pc := by
  have hnext : (s.world.links (.queue q)).next =
      some (((a.lists (some q)).map NodeId.proc).headD (.queue q)) :=
    (h.tracks.shows_.links.circle (some q)).next_head
  cases hlist : a.lists (some q) with
  | nil =>
    have hwoken : s.wokenBy q = s.woken := by
      rw [SchedRun.wokenBy, hnext, hlist]
      rfl
    have hwake : a.wake q = a := by
      rw [Sched.wake, hlist]
    rw [hwoken, hwake]
    exact ⟨h.sleepers, h.returner⟩
  | cons p ps =>
    have hwoken : s.wokenBy q = update s.woken p true := by
      rw [SchedRun.wokenBy, hnext, hlist]
      rfl
    have hwake : a.wake q = (a.drop p).ready p := by
      rw [Sched.wake, hlist]
    refine ⟨hwoken ▸ h.sleepers.wake hlist, ?_⟩
    rw [hwake]
    intro p' q' l' hcurrent hpc
    have hrunning := h.returner p' q' l' hcurrent hpc
    have hne : p' ≠ p := by
      rintro rfl
      have hsleeping := h.tracks.ok.sleeping q p' (hlist ▸ List.mem_cons_self)
      cases hrunning.symm.trans hsleeping
    exact (update_of_ne hne ..).trans hrunning

theorem SleepsWell.effect (h : SleepsWell s a) (hok : SwitchesAway s b)
    (heffect : Effect s a b s' a') (htracks : Tracks s'.world a') : SleepsWell s' a' := by
  suffices hwell : Sleepers a' s'.pc s'.woken ∧ Returner a' s'.pc from
    ⟨htracks, hwell.1, hwell.2⟩
  cases heffect with
  | ready hoff =>
    refine ⟨h.sleepers.ready hoff, h.returner.ready fun hcurrent => hok ?_⟩
    exact h.tracks.shows_.current.trans hcurrent
  | yielded => exact h.yield (fun _ => rfl) fun _ => h.returner
  | nobody | guard => exact ⟨h.sleepers, h.returner⟩
  | @slept p q l w hcurrent =>
    refine ⟨h.sleepers.enqueue q l, fun p' q' l' hcurrent' hpc => ?_⟩
    obtain rfl : p = p' := Option.some.inj (hcurrent.symm.trans hcurrent')
    grind
  | @switched p q l w hcurrent hpc =>
    refine h.yield (fun p' => ?_) (h.returner_switched hok hcurrent hpc)
    dsimp only
    by_cases hne : p' = p
    · rw [hne, update_self, hpc]
      rfl
    · rw [update_of_ne hne]
  | @returned p w =>
    constructor
    · refine h.sleepers.of_others p (fun q hq => ?_) fun p' hne => ?_
      · dsimp only at hq
        rw [update_self] at hq
        cases hq
      simp_all
    · intro p' q l hcurrent hpc
      dsimp only at hpc
      by_cases hne : p' = p
      · rw [hne, update_self] at hpc
        cases hpc
      · rw [update_of_ne hne] at hpc
        exact h.returner p' q l hcurrent hpc
  | woke => exact h.woke _

theorem not_returnsWoken (h : SleepsWell s a) (hready : ReadyUnqueued s b)
    (hok : ¬SwitchesAway s b) (hstep : s.step b = some s') : ¬ReturnsWoken s' := by
  obtain ⟨a', heffect, htracks⟩ := SchedRun.step_effect h.tracks hready hstep
  intro hreturns
  have hrunning : ∀ p q l, a'.current = some p → s'.pc p = .returning q l →
      a'.state p = .running := by
    intro p q l hcurrent hpc
    rw [← htracks.shows_.state p]
    exact (hreturns p q l (htracks.shows_.current.trans hcurrent) hpc).2.2
  apply hok
  cases heffect with
  | @ready p w hoff =>
    intro hcurrent
    cases hpc : s.pc p with
    | idle => rfl
    | enqueued q l => rfl
    | returning q l =>
      have hstate : (a.ready p).state p = .running :=
        hrunning p q l (h.tracks.shows_.current.symm.trans hcurrent) hpc
      have hready : (a.ready p).state p = .ready := update_self ..
      rw [hready] at hstate
      cases hstate
  | @switched p q l w hcurrent hpc =>
    simp only [SwitchesAway, h.tracks.shows_.current, hcurrent]
    intro hsleeping
    by_contra hempty
    have hempty' : rivListEmpty (ListId.head none) s.world.links = true :=
      Bool.not_eq_false _ ▸ hempty
    have hnil := (h.tracks.shows_.links.rivListEmpty_iff none).mp hempty'
    have hyield : a.yield = a := if_pos hnil
    rw [hyield] at hrunning
    have hstate := hrunning p q l hcurrent (update_self ..)
    rw [h.tracks.shows_.state p, hstate] at hsleeping
    cases hsleeping
  | guard hready hsleep =>
    cases b with
    | ready p => exact absurd rfl (hready p)
    | sleepYield => exact absurd rfl hsleep
    | _ => trivial
  | _ => trivial

/-- Along a run of processes with initialised links in which `riv_proc_ready` is not
called on queued processes, a process returns from `riv_waitq_sleep` only after it has
been woken exactly when every yield of a sleeping process finds another one ready, and
the process that is about to return is not made ready. -/
theorem sleep_returnsWoken_iff (w : World Dev) {as : List SchedAction}
    (hready : Meets SchedRun.step ReadyUnqueued (SchedRun.start (initLinks w)) as)
    (hrun : exec SchedRun.step (SchedRun.start (initLinks w)) as = some s) :
    Always SchedRun.step ReturnsWoken (SchedRun.start (initLinks w)) as ↔
      Meets SchedRun.step SwitchesAway (SchedRun.start (initLinks w)) as := by
  have hstep : ∀ (s : SchedRun Dev) b s', (∃ a, SleepsWell s a) → ReadyUnqueued s b →
      SwitchesAway s b → s.step b = some s' → ∃ a, SleepsWell s' a := by
    rintro s b s' ⟨a, h⟩ hready hok hstep
    obtain ⟨a', heffect, htracks⟩ := SchedRun.step_effect h.tracks hready hstep
    exact ⟨a', h.effect hok heffect htracks⟩
  refine always_iff_meets_of_exec hstep ?_ ?_ (sleepsWell_start w) hready hrun
  · rintro s ⟨a, h⟩
    exact h.returnsWoken
  · rintro s b s' ⟨a, h⟩ hready hok hstep
    exact not_returnsWoken h hready hok hstep

end Runs

/-- A process sleeps while another one is ready, which wakes it and yields. -/
def wokenSleep : List SchedAction :=
  [.ready 0, .ready 1, .yield, .sleep (.other 0) none, .sleepYield, .wakeOne (.other 0), .yield]

theorem sleep_returnsWoken_iff_woken :
    ∃ s, exec SchedRun.step (SchedRun.start (initLinks bootWorld)) wokenSleep = some s ∧
      s.world.current = some 0 ∧ s.pc 0 = .returning (.other 0) none ∧
      Always SchedRun.step ReturnsWoken (SchedRun.start (initLinks bootWorld)) wokenSleep := by
  have hrun : (exec SchedRun.step (SchedRun.start (initLinks bootWorld)) wokenSleep).any
      (fun s => s.world.current = some 0 ∧ s.pc 0 = .returning (.other 0) none) = true := by
    decide
  have hready : Meets SchedRun.step ReadyUnqueued (SchedRun.start (initLinks bootWorld))
      wokenSleep := by decide
  have hok : Meets SchedRun.step SwitchesAway (SchedRun.start (initLinks bootWorld))
      wokenSleep := by decide
  obtain ⟨s, hs, hreturning⟩ := (Option.any_eq_true _ _).mp hrun
  obtain ⟨hcurrent, hpc⟩ := of_decide_eq_true hreturning
  exact ⟨s, hs, hcurrent, hpc, (sleep_returnsWoken_iff bootWorld hready hs).mpr hok⟩

/-- The only process goes to sleep, and is back at once: still sleeping, on the queue,
and not woken. -/
theorem sleep_returns_unwoken :
    Meets SchedRun.step ReadyUnqueued (SchedRun.start (initLinks bootWorld))
        [.ready 0, .yield, .sleep (.other 0) none, .sleepYield] ∧
      ∃ s, exec SchedRun.step (SchedRun.start (initLinks bootWorld))
        [.ready 0, .yield, .sleep (.other 0) none, .sleepYield] = some s ∧
        (s.world.current = some 0 ∧ s.pc 0 = .returning (.other 0) none ∧ s.woken 0 = false ∧
          (s.world.procs 0).state = .sleeping ∧
          (s.world.links (.queue (.other 0))).next = some (.proc 0)) ∧ ¬ReturnsWoken s := by
  have hrun : (exec SchedRun.step (SchedRun.start (initLinks bootWorld))
      [.ready 0, .yield, .sleep (.other 0) none, .sleepYield]).any (fun s =>
        s.world.current = some 0 ∧ s.pc 0 = .returning (.other 0) none ∧ s.woken 0 = false ∧
          (s.world.procs 0).state = .sleeping ∧
          (s.world.links (.queue (.other 0))).next = some (.proc 0)) = true := by decide
  obtain ⟨s, hs, hreturning⟩ := (Option.any_eq_true _ _).mp hrun
  have hfacts := of_decide_eq_true hreturning
  refine ⟨by decide, s, hs, hfacts, fun h => ?_⟩
  obtain ⟨hcurrent, hpc, hwoken, -⟩ := hfacts
  rw [(h 0 _ _ hcurrent hpc).1] at hwoken
  cases hwoken

end Rivet.Kernel
