import Rivet.Kernel.LockedSections
import Rivet.Kernel.Scheduler
import Rivet.Support.Runs

/-!
# The life of a process

Runs of the calls of `proc.h` and `waitq.h`, one step for each locked section.  The
current process alone executes; a call that an interrupt handler makes is a step as
well.  `RIV_PROC_DECLARE` leaves the links of the processes null and
`riv_proc_alloc` does not set them, so that the run queue stays well formed exactly
in the runs in which no process is freed that has never been queued.
-/

namespace Rivet.Kernel

open Circles Function Program Runs

variable {Dev α : Type}

/-! ## Runs -/

/-- Where a process stands in `riv_waitq_sleep`: it has been put on the queue, or
its call of `riv_proc_yield` has come to the switch. -/
inductive SleepPc where
  | idle
  | enqueued (q : QueueId) (condLock : Option GuardId)
  | returning (q : QueueId) (condLock : Option GuardId)
  deriving DecidableEq, Repr

structure SchedRun (Dev : Type) where
  world : World Dev
  -- a list operation has followed a null pointer
  faulted : Bool
  pc : Pid → SleepPc
  -- a wake has taken the process off its queue since it went to sleep
  woken : Pid → Bool

/-- `riv_waitq_wake_all` is one `wakeOne` after the other. -/
inductive SchedAction where
  | ready (p : Pid)
  | yield
  | sleep (q : QueueId) (condLock : Option GuardId)
  | sleepYield
  | sleepReturn
  | wakeOne (q : QueueId)
  | lock (g : GuardId)
  | unlock (g : GuardId)
  deriving DecidableEq, Repr

def SchedRun.call (s : SchedRun Dev) (m : KernelM Dev α) (next : α → World Dev → SchedRun Dev) :
    Option (SchedRun Dev) :=
  match m.run s.world with
  | .ok (r, w) => some (next r w)
  | .error .fault => some { s with faulted := true }
  | .error (.spins _) => none

def unlockCond : Option GuardId → KernelM Dev Unit
  | none => pure ()
  | some g => rivSpinUnlock (.guard g)

def lockCond : Option GuardId → KernelM Dev Unit
  | none => pure ()
  | some g => rivSpinLock (.guard g)

/-- The end of `riv_proc_yield`, after its locked section. -/
def switchTo (cs : CtxSwitch Dev) (r : Option Pid × Option Pid) : KernelM Dev Unit :=
  match r.2 with
  | some p => if r.1 = some p then pure () else modify (cs.run r.1 p)
  | none => pure ()

theorem rivWaitqSleep_eq_steps (cs : CtxSwitch Dev) (q : QueueId) (l : Option GuardId) :
    rivWaitqSleep cs q l = (do
      let w ← get
      match w.current with
      | none => pure ()
      | some p => do
        enqueue q p
        let r ← unlockCond l >>= fun _ => pickNext
        switchTo cs r
        lockCond l) := by
  refine congrArg _ (funext fun w => ?_)
  cases w.current with
  | none => rfl
  | some p =>
    have hyield : rivProcYield cs = (pickNext >>= switchTo cs : KernelM Dev Unit) := rfl
    cases l with
    | none => simp only [unlockCond, lockCond, hyield, pure_bind, bind_pure_unit]
    | some g => simp only [unlockCond, lockCond, hyield, bind_assoc]

/-- The process that `riv_waitq_wake_one` takes off the queue has been woken. -/
def SchedRun.wokenBy (s : SchedRun Dev) (q : QueueId) : Pid → Bool :=
  match (s.world.links (.queue q)).next with
  | some (.proc p) => update s.woken p true
  | _ => s.woken

/-- The steps of a process inside `riv_waitq_sleep`. -/
def SchedRun.stepSleeper (s : SchedRun Dev) (p : Pid) : SchedAction → Option (SchedRun Dev)
  | .sleep q l =>
    match s.pc p with
    | .idle => s.call (enqueue q p) fun _ w =>
      { s with
        world := w
        pc := update s.pc p (.enqueued q l)
        woken := update s.woken p false }
    | _ => none
  | .sleepYield =>
    match s.pc p with
    | .enqueued q l => s.call (unlockCond l >>= fun _ => pickNext) fun _ w =>
      { s with world := w, pc := update s.pc p (.returning q l) }
    | _ => none
  | .sleepReturn =>
    match s.pc p with
    | .returning _ l => s.call (lockCond l) fun _ w =>
      { s with world := w, pc := update s.pc p .idle }
    | _ => none
  | _ => none

def SchedRun.step (s : SchedRun Dev) (a : SchedAction) : Option (SchedRun Dev) :=
  if s.faulted then none
  else
    match a with
    | .ready p => s.call (rivProcReady p) fun _ w => { s with world := w }
    | .yield => s.call pickNext fun _ w => { s with world := w }
    | .wakeOne q => s.call (rivWaitqWakeOne q) fun _ w =>
      { s with world := w, woken := s.wokenBy q }
    | .lock g => s.call (rivSpinLock (.guard g)) fun _ w => { s with world := w }
    | .unlock g => s.call (rivSpinUnlock (.guard g)) fun _ w => { s with world := w }
    | a =>
      match s.world.current with
      | none => if a matches .sleep .. then some s else none
      | some p => s.stepSleeper p a

inductive LifeAction where
  | sched (a : SchedAction)
  | alloc
  | free (p : Pid)
  deriving DecidableEq, Repr

def SchedRun.lifeStep (s : SchedRun Dev) (a : LifeAction) : Option (SchedRun Dev) :=
  match a with
  | .sched a => s.step a
  | .alloc =>
    if s.faulted then none
    else s.call rivProcAlloc fun r w =>
      { s with world := w, pc := r.elim s.pc fun p => update s.pc p .idle }
  | .free p =>
    if s.faulted then none
    else s.call (rivProcFree p) fun _ w => { s with world := w }

/-- A run from the state `w`. -/
def SchedRun.start (w : World Dev) : SchedRun Dev where
  world := w
  faulted := false
  pc := fun _ => .idle
  woken := fun _ => false

/-- `RIV_PROC_DECLARE` and the initialisers of the wait queues. -/
def rivProcDeclare (w : World Dev) : World Dev :=
  { w with
    procs := fun _ => ⟨0, .unused, 0, none, none⟩
    links := fun n =>
      match n with
      | .proc _ => ⟨none, none⟩
      | h => ⟨some h, some h⟩
    current := none
    nextPid := 1
    locks := fun l =>
      match l with
      | .sched | .queue _ => false
      | l => w.locks l }

/-- The process is on no list: it is linked to itself or to nothing. -/
def Unqueued (w : World Dev) (p : Pid) : Prop :=
  (w.links (.proc p)).next = none ∨ (w.links (.proc p)).next = some (.proc p)

instance (w : World Dev) (p : Pid) : Decidable (Unqueued w p) :=
  inferInstanceAs (Decidable (_ ∨ _))

/-- `riv_proc_ready` is called on processes that are not queued. -/
def ReadyUnqueued (s : SchedRun Dev) : SchedAction → Prop
  | .ready p => Unqueued s.world p
  | _ => True

instance (s : SchedRun Dev) (a : SchedAction) : Decidable (ReadyUnqueued s a) := by
  unfold ReadyUnqueued
  split <;> infer_instance

/-! ## The property and its condition -/

/-- No list operation has followed a null pointer, and the run queue is a circle of
processes that are ready, each of them once. -/
structure RunqOk (s : SchedRun Dev) : Prop where
  follows : s.faulted = false
  runq : ∃ ps : List Pid,
    Circle (nextOf s.world.links) (prevOf s.world.links) .runq (ps.map .proc) ∧ ps.Nodup ∧
      ∀ p ∈ ps, (s.world.procs p).state = .ready ∧ (s.world.procs p).state ≠ .unused

/-- `riv_proc_ready` is called on processes that are not queued, `riv_proc_free` on
allocated ones other than the current one. -/
def LegalCall (s : SchedRun Dev) : LifeAction → Prop
  | .sched a => ReadyUnqueued s a
  | .free p => (s.world.procs p).state ≠ .unused ∧ s.world.current ≠ some p
  | _ => True

def FreesLinked (s : SchedRun Dev) : LifeAction → Prop
  | .free p => (s.world.links (.proc p)).prev ≠ none
  | _ => True

instance (s : SchedRun Dev) (a : LifeAction) : Decidable (LegalCall s a) := by
  unfold LegalCall
  split <;> infer_instance

instance (s : SchedRun Dev) (a : LifeAction) : Decidable (FreesLinked s a) := by
  unfold FreesLinked
  split <;> infer_instance

/-! ## The steps -/

section Steps

variable {s s' : SchedRun Dev}

theorem SchedRun.call_eq_some {m : KernelM Dev α} {next : α → World Dev → SchedRun Dev}
    {post : α → World Dev → Prop} (hends : Ends Spins m s.world post)
    (h : s.call m next = some s') : ∃ r w, post r w ∧ s' = next r w := by
  unfold Ends at hends
  unfold SchedRun.call at h
  cases hrun : m.run s.world with
  | ok r => grind
  | error e =>
    rw [hrun] at hends h
    obtain ⟨l, rfl⟩ := hends
    cases h

/-- What a step does to the lists, and to the processes inside
`riv_waitq_sleep`. -/
inductive Effect (s : SchedRun Dev) (a : Sched) : SchedAction → SchedRun Dev → Sched → Prop where
  | ready {p : Pid} {w : World Dev} (hoff : a.Off p) :
      Effect s a (.ready p) { s with world := w } (a.ready p)
  | yielded {w : World Dev} : Effect s a .yield { s with world := w } a.yield
  | nobody {q : QueueId} {l : Option GuardId} : Effect s a (.sleep q l) s a
  | slept {p : Pid} {q : QueueId} {l : Option GuardId} {w : World Dev}
      (hcurrent : a.current = some p) :
      Effect s a (.sleep q l)
        { s with
          world := w
          pc := update s.pc p (.enqueued q l)
          woken := update s.woken p false } (a.enqueue q p)
  | switched {p : Pid} {q : QueueId} {l : Option GuardId} {w : World Dev}
      (hcurrent : a.current = some p) (hpc : s.pc p = .enqueued q l) :
      Effect s a .sleepYield { s with world := w, pc := update s.pc p (.returning q l) } a.yield
  | returned {p : Pid} {w : World Dev} :
      Effect s a .sleepReturn { s with world := w, pc := update s.pc p .idle } a
  | woke {q : QueueId} {w : World Dev} :
      Effect s a (.wakeOne q) { s with world := w, woken := s.wokenBy q } (a.wake q)
  | guard {b : SchedAction} {w : World Dev} (hready : ∀ p, b ≠ .ready p) (hsleep : b ≠ .sleepYield) :
      Effect s a b { s with world := w } a

variable {a : Sched} {w : World Dev} {b : SchedAction}

theorem Tracks.off_of_unqueued (h : Tracks w a) {p : Pid} (hp : Unqueued w p) : a.Off p := by
  intro l hmem
  have hc := h.shows_.links.circle l
  obtain ⟨xs, ys, hsplit⟩ := List.append_of_mem hmem
  rw [hsplit, List.map_append, List.map_cons] at hc
  have hnext : (w.links (.proc p)).next = some ((ys.map NodeId.proc).headD l.head) :=
    hc.neighbours.1
  -- the next node on the circle is another one
  have hne : (ys.map NodeId.proc).headD l.head ≠ .proc p := by
    rcases List.mem_cons.mp (headD_mem (ys.map NodeId.proc) l.head) with heq | hy
    · rw [heq]
      exact l.head_ne_proc p
    · intro heq
      have hnodup := hsplit ▸ h.shows_.links.nodup l
      grind
  rcases hp with hnull | hself
  all_goals grind

theorem ends_lockCond (h : Tracks w a) (l : Option GuardId) :
    Ends Spins (lockCond l) w fun _ w' => Tracks w' a := by
  cases l with
  | none => exact ends_pure h
  | some g =>
    refine ends_get_bind ?_
    split
    · exact ⟨.guard g, rfl⟩
    · exact ends_modify (h.of_eq rfl rfl rfl)

theorem ends_unlockCond (h : Tracks w a) (l : Option GuardId) :
    Ends Spins (unlockCond l) w fun _ w' => Tracks w' a := by
  cases l with
  | none => exact ends_pure h
  | some g => exact ends_modify (h.of_eq rfl rfl rfl)

theorem stepSleeper_effect {p : Pid} (h : Tracks s.world a) (hcurrent : a.current = some p)
    (hstep : s.stepSleeper p b = some s') : ∃ a', Effect s a b s' a' ∧ Tracks s'.world a' := by
  cases b with
  | sleep q l =>
    simp only [SchedRun.stepSleeper] at hstep
    split at hstep
    · obtain ⟨r, w, hw, rfl⟩ :=
        SchedRun.call_eq_some (ends_enqueue h (h.ok.current p hcurrent) q) hstep
      exact ⟨_, .slept hcurrent, hw⟩
    · cases hstep
  | sleepYield =>
    simp only [SchedRun.stepSleeper] at hstep
    split at hstep
    · next q l hpc =>
      obtain ⟨r, w, hw, rfl⟩ := SchedRun.call_eq_some
        (Ends.bind (ends_unlockCond h l) fun _ _ h1 => ends_pickNext h1) hstep
      exact ⟨_, .switched hcurrent hpc, hw⟩
    · cases hstep
  | sleepReturn =>
    simp only [SchedRun.stepSleeper] at hstep
    split at hstep
    · next q l hpc =>
      obtain ⟨r, w, hw, rfl⟩ := SchedRun.call_eq_some (ends_lockCond h l) hstep
      exact ⟨_, .returned, hw⟩
    · cases hstep
  | _ => cases hstep

theorem SchedRun.step_effect (h : Tracks s.world a) (hready : ReadyUnqueued s b)
    (hstep : s.step b = some s') : ∃ a', Effect s a b s' a' ∧ Tracks s'.world a' := by
  unfold SchedRun.step at hstep
  split at hstep
  · cases hstep
  split at hstep
  · next p =>
    have hoff := h.off_of_unqueued hready
    obtain ⟨r, w, hw, rfl⟩ := SchedRun.call_eq_some (ends_rivProcReady h hoff) hstep
    exact ⟨_, .ready hoff, hw⟩
  · obtain ⟨r, w, hw, rfl⟩ := SchedRun.call_eq_some (ends_pickNext h) hstep
    exact ⟨_, .yielded, hw⟩
  · next q =>
    obtain ⟨r, w, hw, rfl⟩ := SchedRun.call_eq_some (ends_rivWaitqWakeOne h q) hstep
    exact ⟨_, .woke, hw⟩
  · next g =>
    obtain ⟨r, w, hw, rfl⟩ := SchedRun.call_eq_some (ends_lockCond h (some g)) hstep
    exact ⟨_, .guard nofun nofun, hw⟩
  · next g =>
    obtain ⟨r, w, hw, rfl⟩ := SchedRun.call_eq_some (ends_unlockCond h (some g)) hstep
    exact ⟨_, .guard nofun nofun, hw⟩
  · next b _ _ _ _ _ =>
    split at hstep
    · split at hstep
      · cases hstep
        exact ⟨_, .nobody, h⟩
      · cases hstep
    · next p hp => exact stepSleeper_effect h (h.shows_.current.symm.trans hp) hstep

theorem Effect.faulted_eq {a' : Sched} (h : Effect s a b s' a') : s'.faulted = s.faulted := by
  cases h <;> rfl

end Steps

/-! ## The run queue -/

section Lifecycle

variable {s s' : SchedRun Dev}

/-- Nothing has faulted, and the memory shows lists of processes. -/
def Lives (s : SchedRun Dev) : Prop := s.faulted = false ∧ ∃ a, Tracks s.world a

theorem lives_declare (w : World Dev) : Lives (SchedRun.start (rivProcDeclare w)) := by
  refine ⟨rfl, ⟨fun _ => [], fun _ => false, fun _ => .unused, none⟩, ⟨⟨?_, nofun, ?_⟩, ?_, rfl⟩,
    ⟨nofun, nofun, nofun, nofun⟩⟩
  · intro h
    refine circle_nil.mpr ?_
    cases h <;> exact ⟨rfl, rfl⟩
  · exact fun p _ => ⟨rfl, rfl⟩
  · exact fun p => rfl

theorem Lives.runqOk (h : Lives s) : RunqOk s := by
  obtain ⟨hfaulted, a, ha⟩ := h
  refine ⟨hfaulted, a.lists none, ha.shows_.links.circle none, ha.shows_.links.nodup none, ?_⟩
  intro p hp
  rw [ha.shows_.state p, ha.ok.ready p hp]
  exact ⟨rfl, nofun⟩

theorem Tracks.linked_of_prev {w : World Dev} {a : Sched} (h : Tracks w a) {p : Pid}
    (hp : (w.links (.proc p)).prev ≠ none) : a.linked p = true := by
  by_cases hon : ∃ l, p ∈ a.lists l
  · obtain ⟨l, hl⟩ := hon
    exact h.ok.linked l p hl
  by_contra hlinked
  have hoff := (h.shows_.links.off p (not_exists.mp hon)).2
  rw [if_neg hlinked] at hoff
  exact hp hoff

theorem Lives.step {b : LifeAction} (h : Lives s) (hlegal : LegalCall s b) (hok : FreesLinked s b)
    (hstep : s.lifeStep b = some s') : Lives s' := by
  obtain ⟨hfaulted, a, ha⟩ := h
  cases b with
  | sched b =>
    obtain ⟨a', heffect, ha'⟩ := SchedRun.step_effect ha hlegal hstep
    exact ⟨heffect.faulted_eq.trans hfaulted, a', ha'⟩
  | alloc =>
    simp only [SchedRun.lifeStep, hfaulted, Bool.false_eq_true, if_false] at hstep
    obtain ⟨r, w, hw, rfl⟩ := SchedRun.call_eq_some (ends_rivProcAlloc ha) hstep
    rcases hw with ⟨hw, -⟩ | ⟨p, -, -, hw⟩
    · exact ⟨rfl, a, hw⟩
    · exact ⟨rfl, _, hw⟩
  | free p =>
    simp only [SchedRun.lifeStep, hfaulted, Bool.false_eq_true, if_false] at hstep
    obtain ⟨r, w, hw, rfl⟩ :=
      SchedRun.call_eq_some (ends_rivProcFree ha (ha.linked_of_prev hok)) hstep
    exact ⟨rfl, _, hw⟩

theorem not_runqOk_of_free {b : LifeAction} (hok : ¬FreesLinked s b)
    (hstep : s.lifeStep b = some s') : ¬RunqOk s' := by
  intro h
  cases b with
  | free p =>
    have hnull : (s.world.links (.proc p)).prev = none := not_not.mp hok
    simp only [SchedRun.lifeStep] at hstep
    split at hstep
    · cases hstep
    cases hlock : s.world.locks .sched with
    | true => simp_all [SchedRun.call, rivProcFree, run_spinLocked_taken]
    | false =>
      rw [SchedRun.call, run_rivProcFree_null hlock hnull] at hstep
      cases hstep
      cases h.follows
  | sched b => exact hok trivial
  | alloc => exact hok trivial

/-- Along a run from `RIV_PROC_DECLARE`, the run queue stays well formed and no list
operation follows a null pointer exactly when every process that is freed has been
queued before. -/
theorem runq_wellFormed_iff (w : World Dev) {as : List LifeAction}
    (hlegal : Meets SchedRun.lifeStep LegalCall (SchedRun.start (rivProcDeclare w)) as)
    (hrun : exec SchedRun.lifeStep (SchedRun.start (rivProcDeclare w)) as = some s) :
    Always SchedRun.lifeStep RunqOk (SchedRun.start (rivProcDeclare w)) as ↔
      Meets SchedRun.lifeStep FreesLinked (SchedRun.start (rivProcDeclare w)) as :=
  always_iff_meets_of_exec (fun _ _ _ => Lives.step) (fun _ => Lives.runqOk)
    (fun _ _ _ _ _ => not_runqOk_of_free) (lives_declare w) hlegal hrun

end Lifecycle

/-- Two processes are made ready and run in turn, and the first one is freed. -/
def queuedLife : List LifeAction :=
  [.alloc, .sched (.ready 0), .alloc, .sched (.ready 1), .sched .yield, .sched .yield, .free 0]

theorem runq_wellFormed_iff_queued :
    ∃ s, exec SchedRun.lifeStep (SchedRun.start (rivProcDeclare bootWorld)) queuedLife = some s ∧
      s.world.current = some 1 ∧
      Always SchedRun.lifeStep RunqOk (SchedRun.start (rivProcDeclare bootWorld)) queuedLife := by
  have hrun : (exec SchedRun.lifeStep (SchedRun.start (rivProcDeclare bootWorld)) queuedLife).map
      (fun s => s.world.current) = some (some 1) := by decide
  have hlegal : Meets SchedRun.lifeStep LegalCall (SchedRun.start (rivProcDeclare bootWorld))
      queuedLife := by decide
  have hok : Meets SchedRun.lifeStep FreesLinked (SchedRun.start (rivProcDeclare bootWorld))
      queuedLife := by decide
  obtain ⟨s, hs, hcurrent⟩ := Option.map_eq_some_iff.mp hrun
  exact ⟨s, hs, hcurrent, (runq_wellFormed_iff bootWorld hlegal hs).mpr hok⟩

/-- A process that is allocated and freed again. -/
theorem free_follows_null :
    Meets SchedRun.lifeStep LegalCall (SchedRun.start (rivProcDeclare bootWorld))
        [.alloc, .free 0] ∧ ∃ s, exec SchedRun.lifeStep (SchedRun.start (rivProcDeclare bootWorld))
        [.alloc, .free 0] = some s ∧ s.faulted = true ∧ ¬RunqOk s := by
  have hrun : (exec SchedRun.lifeStep (SchedRun.start (rivProcDeclare bootWorld))
      [.alloc, .free 0]).map SchedRun.faulted = some true := by decide
  obtain ⟨s, hs, hfaulted⟩ := Option.map_eq_some_iff.mp hrun
  refine ⟨by decide, s, hs, hfaulted, fun h => ?_⟩
  rw [h.follows] at hfaulted
  cases hfaulted

end Rivet.Kernel
