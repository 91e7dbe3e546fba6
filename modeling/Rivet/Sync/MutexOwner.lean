import Mathlib.Tactic
import Rivet.Support.Runs

/-!
# Who owns the sleeping mutex

Callers `C` (processes, the boot code, interrupt handlers) use one mutex, while
`riv_sched.current` changes at any time to any process or to NULL.
`riv_mutex_lock` reads it once, at its start; `riv_mutex_trylock` and
`riv_waitq_sleep` read it where they need it.  A caller that sleeps comes back
at any time.

The code marks a taken mutex by its owner, and NULL is both the mark of a free
mutex and the current process before the first one runs.
-/

namespace Rivet.Sync

open Runs

inductive MutexOp where
  | lock
  | trylock
  | unlock
  deriving DecidableEq, Repr

/-- Where a caller stands; `me` is the local of `riv_mutex_lock`. -/
inductive MutexPc (P : Type) where
  | idle
  -- the loop of `riv_mutex_lock`
  | lockTop (me : Option P)
  | lockTest (me : Option P)
  | lockDone
  -- `riv_waitq_sleep` with the guard as its condition lock
  | sleep (me : Option P)
  | away (me : Option P)
  | regain (me : Option P)
  -- the `spin_locked` blocks
  | tryTop
  | tryTest
  | tryDone
  | unlockTop
  | unlockClear
  | unlockDone
  | wake
  deriving DecidableEq, Repr

/-- The mutex and its callers.  `holders` records who has acquired the mutex and
not yet unlocked it, the last one first. -/
structure MutexState (C P : Type) where
  guard : Option C
  owner : Option P
  current : Option P
  pc : C → MutexPc P
  holders : List C

inductive MutexAction (C P : Type) where
  | call (c : C) (op : MutexOp)
  | step (c : C)
  | switch (current : Option P)

variable {C P : Type}

section Steps

variable [DecidableEq C] [DecidableEq P]

def MutexState.goto (s : MutexState C P) (c : C) (pc : MutexPc P) : MutexState C P :=
  { s with pc := Function.update s.pc c pc }

/-- `riv_spin_lock`: the caller spins while the guard is taken, also by itself. -/
def MutexState.spinLock (s : MutexState C P) (c : C) (pc : MutexPc P) :
    Option (MutexState C P) :=
  if s.guard = none then some ({ s with guard := some c }.goto c pc) else none

def MutexState.spinUnlock (s : MutexState C P) (c : C) (pc : MutexPc P) : MutexState C P :=
  { s with guard := none }.goto c pc

/-- `m->owner = me`, a successful acquisition. -/
def MutexState.acquire (s : MutexState C P) (c : C) (me : Option P) (pc : MutexPc P) :
    MutexState C P :=
  { s with owner := me, holders := c :: s.holders }.goto c pc

def MutexState.stepCaller (s : MutexState C P) (c : C) : Option (MutexState C P) :=
  match s.pc c with
  | .idle => none
  | .lockTop me => s.spinLock c (.lockTest me)
  | .lockTest me =>
    if s.owner = none then some (s.acquire c me .lockDone) else some (s.goto c (.sleep me))
  | .lockDone => some (s.spinUnlock c .idle)
  | .sleep me =>
    -- without a current process `riv_waitq_sleep` returns with the guard taken
    if s.current = none then some (s.goto c (.lockTop me))
    else some (s.spinUnlock c (.away me))
  | .away me => some (s.goto c (.regain me))
  | .regain me => s.spinLock c (.lockTop me)
  | .tryTop => s.spinLock c .tryTest
  | .tryTest =>
    if s.owner = none then some (s.acquire c s.current .tryDone) else some (s.goto c .tryDone)
  | .tryDone => some (s.spinUnlock c .idle)
  | .unlockTop => s.spinLock c .unlockClear
  | .unlockClear =>
    some ({ s with owner := none, holders := s.holders.erase c }.goto c .unlockDone)
  | .unlockDone => some (s.spinUnlock c .wake)
  | .wake => some (s.goto c .idle)

/-- A call; `riv_mutex_unlock` is called by the last successful acquirer only. -/
def MutexState.enter (s : MutexState C P) (c : C) : MutexOp → Option (MutexState C P)
  | .lock => some (s.goto c (.lockTop s.current))
  | .trylock => some (s.goto c .tryTop)
  | .unlock => if s.holders.head? = some c then some (s.goto c .unlockTop) else none

def MutexState.step (s : MutexState C P) : MutexAction C P → Option (MutexState C P)
  | .call c op => if s.pc c = .idle then s.enter c op else none
  | .step c => s.stepCaller c
  | .switch current => some { s with current := current }

end Steps

/-- `riv_mutex_init`. -/
def MutexState.start (current : Option P) : MutexState C P where
  guard := none
  owner := none
  current := current
  pc := fun _ => .idle
  holders := []

/-- The mutex is held once at most, and it has an owner all the time between an
acquisition and the matching unlock: no other acquisition can succeed. -/
def Excludes (s : MutexState C P) : Prop :=
  s.holders.length ≤ 1 ∧ (s.holders ≠ [] → s.owner ≠ none)

/-- The acquisition a caller is about to make is in the name of a process. -/
def AcquiresAsProcess (s : MutexState C P) : MutexAction C P → Prop
  | .step c =>
    match s.pc c with
    | .lockTest me => s.owner = none → me ≠ none
    | .tryTest => s.owner = none → s.current ≠ none
    | _ => True
  | _ => True

instance [DecidableEq P] (s : MutexState C P) (a : MutexAction C P) :
    Decidable (AcquiresAsProcess s a) := by
  unfold AcquiresAsProcess
  split
  · split <;> infer_instance
  · infer_instance

/-! ## The invariant -/

/-- A caller inside `riv_mutex_unlock` that has not yet cleared the owner. -/
def MutexPc.unlocking : MutexPc P → Bool
  | .unlockTop | .unlockClear => true
  | _ => false

/-- The mutex is free and nobody unlocks it, or one caller holds it and no other
unlocks it. -/
structure MutexOk (s : MutexState C P) : Prop where
  held : s.owner = none ∧ s.holders = [] ∨ s.owner ≠ none ∧ ∃ c, s.holders = [c]
  unlocking : ∀ c, (s.pc c).unlocking = true → s.holders = [c]

variable {s : MutexState C P}

theorem MutexOk.excludes (h : MutexOk s) : Excludes s := by
  rcases h.held with ⟨-, hnone⟩ | ⟨howner, c, hc⟩
  all_goals simp_all [Excludes]

theorem MutexOk.holders_of_free (h : MutexOk s) (hfree : s.owner = none) : s.holders = [] := by
  rcases h.held with ⟨-, hnone⟩ | ⟨howner, -⟩
  · exact hnone
  · exact absurd hfree howner

theorem mutexOk_start (current : Option P) : MutexOk (MutexState.start current : MutexState C P) :=
  ⟨Or.inl ⟨rfl, rfl⟩, nofun⟩

section Invariant

variable [DecidableEq C] {s s' : MutexState C P} {c : C}

@[simp] theorem MutexState.goto_pc_self (pc : MutexPc P) : (s.goto c pc).pc c = pc :=
  Function.update_self ..

theorem MutexState.goto_pc_of_ne {d : C} (hd : d ≠ c) (pc : MutexPc P) :
    (s.goto c pc).pc d = s.pc d :=
  Function.update_of_ne hd ..

variable {pc : MutexPc P} {a : MutexAction C P}

theorem MutexOk.move {t : MutexState C P} (h : MutexOk s) (howner : t.owner = s.owner)
    (hholders : t.holders = s.holders) (hpcs : t.pc = s.pc)
    (hpc : pc.unlocking = true → s.holders = [c]) : MutexOk (t.goto c pc) := by
  refine ⟨?_, fun d hd => ?_⟩
  · simpa only [MutexState.goto, howner, hholders] using h.held
  have hgoal : s.holders = [d] := by
    by_cases hdc : d = c
    · simp_all
    · rw [MutexState.goto_pc_of_ne hdc, hpcs] at hd
      exact h.unlocking d hd
  simpa only [MutexState.goto, hholders] using hgoal

theorem MutexOk.spinLock (h : MutexOk s) (hpc : pc.unlocking = true → s.holders = [c])
    (hstep : s.spinLock c pc = some s') : MutexOk s' := by
  unfold MutexState.spinLock at hstep
  split at hstep
  · cases hstep
    exact h.move rfl rfl rfl hpc
  · cases hstep

theorem MutexOk.acquire {me : Option P} (h : MutexOk s) (hfree : s.owner = none) (hme : me ≠ none)
    (hpc : pc.unlocking = false) : MutexOk (s.acquire c me pc) := by
  have hnone := h.holders_of_free hfree
  refine ⟨Or.inr ⟨hme, c, ?_⟩, fun d hd => ?_⟩
  · simp only [MutexState.acquire, MutexState.goto, hnone]
  by_cases hdc : d = c
  · grind [MutexState.acquire, MutexState.goto_pc_self]
  rw [MutexState.acquire, MutexState.goto_pc_of_ne hdc] at hd
  have := h.unlocking d hd
  rw [hnone] at this
  cases this

theorem MutexOk.clear (h : MutexOk s) (hc : s.holders = [c]) (hpc : pc.unlocking = false) :
    MutexOk ({ s with owner := none, holders := s.holders.erase c }.goto c pc) := by
  have hnone : s.holders.erase c = [] := by
    rw [hc]
    exact List.erase_cons_head c []
  refine ⟨Or.inl ⟨rfl, hnone⟩, fun d hd => ?_⟩
  by_cases hdc : d = c
  · simp_all
  · rw [MutexState.goto_pc_of_ne hdc] at hd
    have := h.unlocking d hd
    grind

theorem MutexOk.stepCaller (h : MutexOk s) (hok : AcquiresAsProcess s (.step c))
    (hstep : s.stepCaller c = some s') : MutexOk s' := by
  unfold MutexState.stepCaller at hstep
  simp only [AcquiresAsProcess] at hok
  have hunlocking := h.unlocking c
  cases hpc : s.pc c with
  | idle =>
    rw [hpc] at hstep
    cases hstep
  | lockTop me | tryTop =>
    simp only [hpc] at hstep
    refine h.spinLock ?_ hstep
    exact nofun
  | regain me =>
    simp only [hpc] at hstep
    refine h.spinLock ?_ hstep
    exact nofun
  | unlockTop =>
    simp only [hpc] at hstep hunlocking
    exact h.spinLock (fun _ => hunlocking rfl) hstep
  | lockTest | tryTest =>
    simp only [hpc] at hstep hok
    split at hstep
    · next hfree =>
      cases hstep
      exact h.acquire hfree (hok hfree) rfl
    · cases hstep
      exact h.move rfl rfl rfl nofun
  | sleep me =>
    simp only [hpc] at hstep
    split at hstep
    · cases hstep
      exact h.move rfl rfl rfl nofun
    · cases hstep
      exact h.move rfl rfl rfl nofun
  | unlockClear =>
    simp only [hpc] at hstep hunlocking
    cases hstep
    exact h.clear (hunlocking rfl) rfl
  | lockDone | tryDone | unlockDone | wake =>
    simp only [hpc] at hstep
    cases hstep
    exact h.move rfl rfl rfl nofun
  | away me =>
    simp only [hpc] at hstep
    cases hstep
    exact h.move rfl rfl rfl nofun

theorem MutexOk.enter {op : MutexOp} (h : MutexOk s) (hstep : s.enter c op = some s') :
    MutexOk s' := by
  cases op with
  | lock | trylock =>
    cases hstep
    exact h.move rfl rfl rfl nofun
  | unlock =>
    simp only [MutexState.enter] at hstep
    split at hstep
    · next hhead =>
      cases hstep
      refine h.move rfl rfl rfl fun _ => ?_
      rcases h.held with ⟨-, hnone⟩ | ⟨-, d, hd⟩
      all_goals grind
    · cases hstep

variable [DecidableEq P]

theorem MutexOk.step (h : MutexOk s) (hok : AcquiresAsProcess s a) (hstep : s.step a = some s') :
    MutexOk s' := by
  cases a with
  | call c op =>
    simp only [MutexState.step] at hstep
    split at hstep
    · exact h.enter hstep
    · cases hstep
  | step c => exact h.stepCaller hok hstep
  | switch current =>
    cases hstep
    exact ⟨h.held, h.unlocking⟩

omit [DecidableEq P] in
theorem not_excludes_acquire {me : Option P} (hme : ¬me ≠ none) :
    ¬Excludes (s.acquire c me pc) := by
  rintro ⟨-, howner⟩
  exact hme (howner (List.cons_ne_nil c s.holders))

theorem not_excludes_of_no_process (hok : ¬AcquiresAsProcess s a) (hstep : s.step a = some s') :
    ¬Excludes s' := by
  cases a with
  | call | switch => exact absurd trivial hok
  | step c =>
    simp only [MutexState.step, MutexState.stepCaller] at hstep
    simp only [AcquiresAsProcess] at hok
    split at hok
    · next me hpc =>
      grind [not_excludes_acquire]
    · next hpc =>
      grind [not_excludes_acquire]
    · exact absurd trivial hok

/-- Along a run, the mutex excludes all others from an acquisition to the matching
unlock exactly when every acquisition is in the name of a process. -/
theorem mutex_excludes_iff (current : Option P) {as : List (MutexAction C P)}
    (hrun : exec MutexState.step (MutexState.start current) as = some s) :
    Always MutexState.step Excludes (MutexState.start current) as ↔
      Meets MutexState.step AcquiresAsProcess (MutexState.start current) as := by
  constructor
  · intro h
    exact meets_of_always (fun _ _ _ _ => not_excludes_of_no_process) h hrun
  · intro h
    exact always_of_meets (fun _ _ _ => MutexOk.step) (fun _ => MutexOk.excludes)
      (mutexOk_start current) h

end Invariant

def lockThenTry : List (MutexAction Bool Unit) :=
  [.call false .lock, .step false, .step false, .step false,
    .call true .trylock, .step true, .step true, .step true]

/-- With a current process the second caller fails. -/
theorem mutex_excludes_iff_process :
    ∃ s, exec MutexState.step (MutexState.start (some ())) lockThenTry = some s ∧
      s.holders = [false] ∧
      Always MutexState.step Excludes (MutexState.start (some ())) lockThenTry := by
  have hrun : (exec MutexState.step (MutexState.start (some ())) lockThenTry).map
      MutexState.holders = some [false] := by decide
  have hok : Meets MutexState.step AcquiresAsProcess (MutexState.start (some ())) lockThenTry := by
    decide
  obtain ⟨s, hs, hholders⟩ := Option.map_eq_some_iff.mp hrun
  exact ⟨s, hs, hholders, (mutex_excludes_iff (some ()) hs).mpr hok⟩

/-- Before the first process runs both callers acquire the mutex. -/
theorem mutex_held_twice : ∃ s, exec MutexState.step (MutexState.start none) lockThenTry = some s ∧
      s.holders = [true, false] ∧ ¬Excludes s := by
  have hrun : (exec MutexState.step (MutexState.start none) lockThenTry).map
      MutexState.holders = some [true, false] := by decide
  obtain ⟨s, hs, hholders⟩ := Option.map_eq_some_iff.mp hrun
  refine ⟨s, hs, hholders, fun h => ?_⟩
  rw [Excludes, hholders] at h
  exact absurd h.1 (by decide)

end Rivet.Sync
