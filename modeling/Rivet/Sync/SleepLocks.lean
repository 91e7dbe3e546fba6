import Mathlib
import Rivet.Support.Runs

/-!
# The sleeping mutex and the semaphore

Processes call the operations of `mutex.h` and `sem.h` on one mutex and one
semaphore.  Each access to shared data is one step, and the steps of the
processes interleave freely.  A process that calls `riv_waitq_sleep` goes on
when it has been woken, or at once if no other process is ready to run.

`riv_waitq_sleep` takes the guard again before it returns, and its callers loop
back to an acquisition of the same guard.
-/

namespace Rivet.Sync

open Runs Function

/-- The two objects, each with its guard and its wait queue. -/
inductive Obj where
  | mutex
  | sem
  deriving DecidableEq, Repr

/-- The operations: `acquire` is `riv_mutex_lock` and `riv_sem_wait`,
`tryAcquire` is `riv_mutex_trylock` and `riv_sem_trywait`, `release` is
`riv_mutex_unlock` and `riv_sem_post`. -/
inductive LockOp where
  | acquire
  | tryAcquire
  | release
  deriving DecidableEq, Repr

/-- Where a process stands in an operation on an object. -/
inductive LockPc where
  | idle
  -- the loop of `riv_mutex_lock` and `riv_sem_wait`
  | lock (o : Obj)
  | test (o : Obj)
  | unlock (o : Obj)
  -- `riv_waitq_sleep` with the guard as its condition lock
  | enqueue (o : Obj)
  | dropGuard (o : Obj)
  | yield (o : Obj)
  | regain (o : Obj)
  -- the `spin_locked` blocks of the other operations
  | tryLock (o : Obj)
  | tryTest (o : Obj)
  | tryUnlock (o : Obj)
  | putLock (o : Obj)
  | put (o : Obj)
  | putUnlock (o : Obj)
  | wake (o : Obj)
  deriving DecidableEq, Repr

/-- The shared state.  A guard is a spin lock, with the process that took it;
`schedLock` is the lock of the scheduler, which `riv_proc_yield` keeps when it
finds the run queue empty. -/
structure LockState (P : Type) where
  guard : Obj → Option P
  waiters : Obj → List P
  owner : Option P
  count : ℤ
  asleep : P → Bool
  schedLock : Bool
  pc : P → LockPc

inductive LockAction (P : Type) where
  | call (p : P) (op : LockOp) (o : Obj)
  | step (p : P)

variable {P : Type}

section Steps

variable [DecidableEq P] [Fintype P]

def LockState.goto (s : LockState P) (p : P) (pc : LockPc) : LockState P :=
  { s with pc := update s.pc p pc }

/-- `riv_spin_lock`: the process spins while the guard is taken. -/
def LockState.spinLock (s : LockState P) (p : P) (o : Obj) (pc : LockPc) :
    Option (LockState P) :=
  if s.guard o = none then
    some ({ s with guard := update s.guard o (some p) }.goto p pc)
  else none

/-- `riv_spin_unlock`. -/
def LockState.spinUnlock (s : LockState P) (p : P) (o : Obj) (pc : LockPc) :
    LockState P :=
  { s with guard := update s.guard o none }.goto p pc

/-- The test for a free mutex or a positive count, with its effect. -/
def LockState.take (s : LockState P) (p : P) : Obj → Option (LockState P)
  | .mutex => if s.owner = none then some { s with owner := some p } else none
  | .sem => if 0 < s.count then some { s with count := s.count - 1 } else none

/-- The body of `riv_mutex_unlock` and `riv_sem_post`. -/
def LockState.giveBack (s : LockState P) : Obj → LockState P
  | .mutex => { s with owner := none }
  | .sem => { s with count := s.count + 1 }

/-- `riv_waitq_wake_one`; making the process ready takes the lock of the
scheduler. -/
def LockState.wakeOne (s : LockState P) (o : Obj) : Option (LockState P) :=
  match s.waiters o with
  | [] => some s
  | q :: rest =>
    if s.schedLock then none
    else some { s with
      waiters := update s.waiters o rest
      asleep := update s.asleep q false }

/-- `riv_proc_yield` inside `riv_waitq_sleep`: the process is scheduled again
after a wake-up, or goes on at once, with the scheduler's lock kept, if every
other process sleeps. -/
def LockState.resume (s : LockState P) (p : P) : Option (LockState P) :=
  if s.schedLock then none
  else if s.asleep p = false then some s
  else if ∀ q, q ≠ p → s.asleep q = true then some { s with schedLock := true }
  else none

def LockState.stepProc (s : LockState P) (p : P) : Option (LockState P) :=
  match s.pc p with
  | .idle => none
  | .lock o => s.spinLock p o (.test o)
  | .test o =>
    match s.take p o with
    | some s' => some (s'.goto p (.unlock o))
    | none => some (s.goto p (.enqueue o))
  | .unlock o => some (s.spinUnlock p o .idle)
  | .enqueue o =>
    -- `riv_list_del` takes the process out of whatever queue it is in
    let others := fun o => (s.waiters o).erase p
    some ({ s with
      asleep := update s.asleep p true
      waiters := update others o (others o ++ [p]) }.goto p (.dropGuard o))
  | .dropGuard o => some (s.spinUnlock p o (.yield o))
  | .yield o => (s.resume p).map fun s' => s'.goto p (.regain o)
  | .regain o => s.spinLock p o (.lock o)
  | .tryLock o => s.spinLock p o (.tryTest o)
  | .tryTest o => some (((s.take p o).getD s).goto p (.tryUnlock o))
  | .tryUnlock o => some (s.spinUnlock p o .idle)
  | .putLock o => s.spinLock p o (.put o)
  | .put o => some ((s.giveBack o).goto p (.putUnlock o))
  | .putUnlock o => some (s.spinUnlock p o (.wake o))
  | .wake o => (s.wakeOne o).map fun s' => s'.goto p .idle

def LockOp.entry : LockOp → Obj → LockPc
  | .acquire, o => .lock o
  | .tryAcquire, o => .tryLock o
  | .release, o => .putLock o

def LockState.step (s : LockState P) : LockAction P → Option (LockState P)
  | .call p op o => if s.pc p = .idle then some (s.goto p (op.entry o)) else none
  | .step p => s.stepProc p

end Steps

/-- `riv_mutex_init` and `riv_sem_init`. -/
def LockState.start (initial : ℤ) : LockState P where
  guard := fun _ => none
  waiters := fun _ => []
  owner := none
  count := initial
  asleep := fun _ => false
  schedLock := false
  pc := fun _ => .idle

/-! ## Who holds a guard -/

/-- The guard a process is about to take with `riv_spin_lock`. -/
def LockPc.locking : LockPc → Option Obj
  | .lock o | .regain o | .tryLock o | .putLock o => some o
  | _ => none

def LockPc.holds : LockPc → Option Obj
  | .test o | .unlock o | .enqueue o | .dropGuard o | .tryTest o | .tryUnlock o
  | .put o | .putUnlock o => some o
  | _ => none

def NoSelfDeadlock (s : LockState P) : Prop :=
  ∀ p o, (s.pc p).locking = some o → s.guard o ≠ some p

def GuardsOk (s : LockState P) : Prop :=
  ∀ p o, s.guard o = some p ↔ (s.pc p).holds = some o

/-- The step is not the return of `riv_waitq_sleep`. -/
def NotRegain (s : LockState P) : LockAction P → Prop
  | .call _ _ _ => True
  | .step p => ∀ o, s.pc p ≠ .regain o

section Invariant

variable {s s' : LockState P} {p : P} {o : Obj} {pc : LockPc}

theorem GuardsOk.noSelfDeadlock (h : GuardsOk s) : NoSelfDeadlock s := by
  intro p o hpc hguard
  have hholds := (h p o).mp hguard
  cases hp : s.pc p <;> rw [hp] at hpc hholds <;> cases hpc <;> cases hholds

theorem LockState.take_eq_some (h : s.take p o = some s') : s'.guard = s.guard ∧ s'.pc = s.pc := by
  cases o with
  | mutex | sem => grind [LockState.take]

theorem LockState.giveBack_eq : (s.giveBack o).guard = s.guard ∧ (s.giveBack o).pc = s.pc := by
  cases o <;> exact ⟨rfl, rfl⟩

variable [DecidableEq P]

theorem GuardsOk.goto {t : LockState P} (h : GuardsOk s) (hguard : t.guard = s.guard)
    (hpcs : t.pc = s.pc) (hholds : pc.holds = (s.pc p).holds) : GuardsOk (t.goto p pc) := by
  intro q o
  change t.guard o = some q ↔ (update t.pc p pc q).holds = some o
  rw [hguard, hpcs, h q o]
  grind

theorem GuardsOk.spinLock (h : GuardsOk s) (hnone : (s.pc p).holds = none)
    (hpc : pc.holds = some o) (hstep : s.spinLock p o pc = some s') : GuardsOk s' := by
  unfold LockState.spinLock at hstep
  split at hstep
  · next hfree =>
    cases hstep
    intro q o'
    change update s.guard o (some p) o' = some q ↔
      (update s.pc p pc q).holds = some o'
    by_cases hq : q = p
    · subst hq
      by_cases ho : o' = o
      · grind
      · rw [update_of_ne ho, update_self, hpc, h q o', hnone]
        simp [Ne.symm ho]
    · rw [update_of_ne hq, ← h q o']
      grind
  · cases hstep

theorem GuardsOk.spinUnlock (h : GuardsOk s) (hholds : (s.pc p).holds = some o)
    (hpc : pc.holds = none) : GuardsOk (s.spinUnlock p o pc) := by
  have hmine := (h p o).mpr hholds
  intro q o'
  change update s.guard o none o' = some q ↔
    (update s.pc p pc q).holds = some o'
  by_cases hq : q = p
  · subst hq
    rw [update_self, hpc]
    by_cases ho : o' = o
    · rw [ho, update_self]
      simp
    · rw [update_of_ne ho, h q o', hholds]
      simp [Ne.symm ho]
  · rw [update_of_ne hq, ← h q o']
    grind

theorem LockState.wakeOne_eq_some (h : s.wakeOne o = some s') :
    s'.guard = s.guard ∧ s'.pc = s.pc := by
  unfold LockState.wakeOne at h
  grind

theorem LockState.resume_eq_some [Fintype P] (h : s.resume p = some s') :
    s'.guard = s.guard ∧ s'.pc = s.pc := by
  unfold LockState.resume at h
  grind

end Invariant

theorem guardsOk_start (initial : ℤ) : GuardsOk (LockState.start initial : LockState P) := by
  intro p o
  exact ⟨nofun, nofun⟩

section Execution

variable [DecidableEq P] [Fintype P]

theorem GuardsOk.step {s s' : LockState P} {a : LockAction P} (h : GuardsOk s)
    (hok : NotRegain s a) (hstep : s.step a = some s') : GuardsOk s' := by
  cases a with
  | call p op o =>
    simp only [LockState.step] at hstep
    split at hstep
    · next hidle =>
      cases hstep
      exact h.goto rfl rfl (by rw [hidle]; cases op <;> rfl)
    · cases hstep
  | step p =>
    simp only [LockState.step, LockState.stepProc] at hstep
    cases hpc : s.pc p with
    | idle =>
      rw [hpc] at hstep
      cases hstep
    | lock o | tryLock o | putLock o =>
      rw [hpc] at hstep
      exact h.spinLock (by rw [hpc]; rfl) rfl hstep
    | regain o => exact absurd hpc (hok o)
    | unlock o | dropGuard o | tryUnlock o | putUnlock o =>
      rw [hpc] at hstep
      cases hstep
      exact h.spinUnlock (by rw [hpc]; rfl) rfl
    | test o =>
      simp only [hpc] at hstep
      split at hstep
      · next s1 htake =>
        cases hstep
        obtain ⟨hguard, hpcs⟩ := LockState.take_eq_some htake
        exact h.goto hguard hpcs (by rw [hpc]; rfl)
      · cases hstep
        exact h.goto rfl rfl (by rw [hpc]; rfl)
    | enqueue o =>
      rw [hpc] at hstep
      cases hstep
      exact h.goto rfl rfl (by rw [hpc]; rfl)
    | yield o =>
      simp only [hpc, Option.map_eq_some_iff] at hstep
      obtain ⟨s1, hresume, rfl⟩ := hstep
      obtain ⟨hguard, hpcs⟩ := LockState.resume_eq_some hresume
      exact h.goto hguard hpcs (by rw [hpc]; rfl)
    | tryTest o =>
      rw [hpc] at hstep
      cases hstep
      cases htake : s.take p o with
      | none => exact h.goto rfl rfl (by rw [hpc]; rfl)
      | some s1 =>
        obtain ⟨hguard, hpcs⟩ := LockState.take_eq_some htake
        exact h.goto hguard hpcs (by rw [hpc]; rfl)
    | put o =>
      rw [hpc] at hstep
      cases hstep
      exact h.goto LockState.giveBack_eq.1 LockState.giveBack_eq.2 (by rw [hpc]; rfl)
    | wake o =>
      simp only [hpc, Option.map_eq_some_iff] at hstep
      obtain ⟨s1, hwake, rfl⟩ := hstep
      obtain ⟨hguard, hpcs⟩ := LockState.wakeOne_eq_some hwake
      exact h.goto hguard hpcs (by rw [hpc]; rfl)

theorem not_noSelfDeadlock_of_regain {s s' : LockState P} {a : LockAction P}
    (hbad : ¬NotRegain s a) (hstep : s.step a = some s') : ¬NoSelfDeadlock s' := by
  cases a with
  | call p op o => exact absurd trivial hbad
  | step p =>
    simp only [NotRegain, not_forall, not_not] at hbad
    obtain ⟨o, hpc⟩ := hbad
    simp only [LockState.step, LockState.stepProc, hpc, LockState.spinLock] at hstep
    split at hstep
    · cases hstep
      intro h
      refine h p o ?_ (update_self _ _ _)
      change (update s.pc p (.lock o) p).locking = some o
      rw [update_self]
      rfl
    · cases hstep

/-- Along a run, no process takes a guard that it holds, exactly when no process
returns from `riv_waitq_sleep`. -/
theorem noSelfDeadlock_iff (initial : ℤ) {as : List (LockAction P)} {s : LockState P}
    (hrun : exec LockState.step (LockState.start initial) as = some s) :
    Always LockState.step NoSelfDeadlock (LockState.start initial) as ↔
      Meets LockState.step NotRegain (LockState.start initial) as := by
  constructor
  · intro h
    exact meets_of_always (fun _ _ _ _ => not_noSelfDeadlock_of_regain) h hrun
  · intro h
    exact always_of_meets (fun _ _ _ => GuardsOk.step) (fun _ => GuardsOk.noSelfDeadlock)
      (guardsOk_start initial) h

end Execution

/-- The second process finds the mutex taken and sleeps, the first one unlocks
it: a run in which nobody returns from `riv_waitq_sleep`. -/
def handover : List (LockAction (Fin 2)) :=
  [.call 0 .acquire .mutex, .step 0, .step 0, .step 0,
    .call 1 .acquire .mutex, .step 1, .step 1, .step 1, .step 1,
    .call 0 .release .mutex, .step 0, .step 0, .step 0, .step 0]

theorem noSelfDeadlock_iff_handover :
    ∃ s, exec LockState.step (LockState.start 1) handover = some s ∧
      (Always LockState.step NoSelfDeadlock (LockState.start 1) handover ↔
        Meets LockState.step NotRegain (LockState.start 1) handover) := by
  have hrun : (exec LockState.step (LockState.start 1) handover).isSome = true := by decide
  obtain ⟨s, hs⟩ := Option.isSome_iff_exists.mp hrun
  exact ⟨s, hs, noSelfDeadlock_iff 1 hs⟩

/-- Once the second process has been woken and goes on, it holds the guard of
the mutex and is about to take it again. -/
theorem self_deadlock_after_sleep :
    ∃ s, exec LockState.step (LockState.start 1) (handover ++ [.step 1, .step 1]) = some s ∧
      s.guard .mutex = some 1 ∧ s.pc 1 = .lock .mutex ∧ ¬NoSelfDeadlock s := by
  have hrun : (exec LockState.step (LockState.start 1) (handover ++ [.step 1, .step 1])).map
      (fun s => (s.guard .mutex, s.pc 1)) = some (some 1, .lock .mutex) := by decide
  obtain ⟨s, hs, hview⟩ := Option.map_eq_some_iff.mp hrun
  obtain ⟨hguard, hpc⟩ := Prod.mk.inj hview
  exact ⟨s, hs, hguard, hpc, fun h => h 1 .mutex (by rw [hpc]; rfl) hguard⟩

end Rivet.Sync
