import Mathlib
import Rivet.Core
import Rivet.Support.Counter
import Rivet.Support.Runs

/-!
# Periodic tasks

The super-loop scheduler of `task.h` compares the 32-bit tick counter with the tick at
which a task is due next by the sign of their difference.  Between two rounds of the
loop a task that was not due is at most its period ahead, and one that is due at most
the ticks of one gap behind, so that the sign is the right one across any number of
wraps of the counter.
-/

namespace Rivet.Tasks

open Runs

variable {n : ℕ}

/-- `riv_task`; what its function does is not the scheduler's concern. -/
structure RivTask where
  periodTicks : RivU32
  nextTick : RivU32
  enabled : Bool

/-- `riv_scheduler`, of `n` tasks. -/
structure RivScheduler (n : ℕ) where
  tasks : Fin n → RivTask
  ticks : RivU32

/-- `riv_sched_init`. -/
def rivSchedInit (t : Fin n → RivTask) : RivScheduler n where
  tasks i := { t i with nextTick := (t i).periodTicks, enabled := true }
  ticks := 0

/-- `riv_sched_tick`. -/
def rivSchedTick (s : RivScheduler n) : RivScheduler n := { s with ticks := s.ticks + 1 }

/-- The test in the loop of `riv_sched_run`. -/
def RivTask.runs (now : RivU32) (t : RivTask) : Bool :=
  t.enabled && decide (0 ≤ (now - t.nextTick).toInt)

/-- `riv_sched_run`: a task that runs is due one period after the tick counter as it
was read at the start. -/
def rivSchedRun (s : RivScheduler n) : RivScheduler n :=
  { s with
    tasks := fun i =>
      if (s.tasks i).runs s.ticks then
        { s.tasks i with nextTick := s.ticks + (s.tasks i).periodTicks }
      else s.tasks i }

/-! ## Runs -/

/-- A scheduler with the ticks counted without bound: all of them, those at which each
task ran last, and those since the last round. -/
structure TaskRun (n : ℕ) where
  sched : RivScheduler n
  now : ℕ
  last : Fin n → ℕ
  gap : ℕ

inductive Call where
  | tick
  | run

/-- A round comes at most `2 ^ 31` ticks after the one before it. -/
def TaskRun.step (s : TaskRun n) : Call → Option (TaskRun n)
  | .tick => some { s with sched := rivSchedTick s.sched, now := s.now + 1, gap := s.gap + 1 }
  | .run =>
    if s.gap ≤ 2 ^ 31 then
      some
        { s with
          sched := rivSchedRun s.sched
          last := fun i => if (s.sched.tasks i).runs s.sched.ticks then s.now else s.last i
          gap := 0 }
    else none

def TaskRun.start (t : Fin n → RivTask) : TaskRun n := ⟨rivSchedInit t, 0, fun _ => 0, 0⟩

/-- A task is due one period after it ran last, and that was ahead at the end of the
last round. -/
structure Timely (s : TaskRun n) (period : RivU32) (last : ℕ) (task : RivTask) : Prop where
  enabled : task.enabled = true
  period_eq : task.periodTicks = period
  next_eq : task.nextTick = BitVec.ofNat 32 (last + period.toNat)
  last_le : last ≤ s.now
  ahead : s.now - s.gap < last + period.toNat

structure TaskRun.Inv (t : Fin n → RivTask) (s : TaskRun n) : Prop where
  ticks_eq : s.sched.ticks = BitVec.ofNat 32 s.now
  gap_le : s.gap ≤ s.now
  timely : ∀ i, Timely s (t i).periodTicks (s.last i) (s.sched.tasks i)

variable {t : Fin n → RivTask} {s s' : TaskRun n}

theorem TaskRun.inv_start (hpos : ∀ i, 1 ≤ (t i).periodTicks.toNat) :
    (TaskRun.start t).Inv t where
  ticks_eq := rfl
  gap_le := le_rfl
  timely i := ⟨rfl, rfl, by simp [TaskRun.start, rivSchedInit], le_rfl,
    (hpos i).trans_eq (Nat.zero_add _).symm⟩

theorem TaskRun.Inv.runs_iff (h : s.Inv t) (hperiod : ∀ i, (t i).periodTicks.toNat < 2 ^ 31)
    (hgap : s.gap ≤ 2 ^ 31) (i : Fin n) : (s.sched.tasks i).runs s.sched.ticks = true ↔
      (t i).periodTicks.toNat ≤ s.now - s.last i := by
  obtain ⟨henabled, -, hnext, hlast, hahead⟩ := h.timely i
  have hlt := hperiod i
  have hsub : (s.sched.ticks - (s.sched.tasks i).nextTick).toInt =
      s.now - (s.last i + (t i).periodTicks.toNat : ℕ) := by
    rw [h.ticks_eq, hnext]
    exact Counter.toInt_sub (by omega) (by omega)
  rw [RivTask.runs, henabled, hsub, Bool.true_and, decide_eq_true_iff]
  omega

theorem TaskRun.Inv.step (h : s.Inv t)
    (hperiod : ∀ i, 1 ≤ (t i).periodTicks.toNat ∧ (t i).periodTicks.toNat < 2 ^ 31) {a : Call}
    (hstep : s.step a = some s') : s'.Inv t := by
  cases a with
  | tick =>
    cases hstep
    refine ⟨?_, Nat.succ_le_succ h.gap_le, fun i => ?_⟩
    · rw [BitVec.ofNat_add, ← h.ticks_eq]
      rfl
    · obtain ⟨henabled, heq, hnext, hlast, hahead⟩ := h.timely i
      exact ⟨henabled, heq, hnext, Nat.le_succ_of_le hlast, by simpa using hahead⟩
  | run =>
    rw [TaskRun.step] at hstep
    split at hstep
    · next hgap =>
      cases hstep
      refine ⟨h.ticks_eq, Nat.zero_le _, fun i => ?_⟩
      obtain ⟨henabled, heq, hnext, hlast, -⟩ := h.timely i
      have hruns := h.runs_iff (fun i => (hperiod i).2) hgap i
      by_cases hdue : (s.sched.tasks i).runs s.sched.ticks = true
      · have hlater := (hperiod i).1
        simp only [rivSchedRun, if_pos hdue]
        refine ⟨henabled, heq, ?_, le_rfl, Nat.lt_add_of_pos_right hlater⟩
        simp only [h.ticks_eq, heq, BitVec.ofNat_add, BitVec.ofNat_toNat, BitVec.setWidth_eq]
      · simp only [rivSchedRun, if_neg hdue]
        refine ⟨henabled, heq, hnext, hlast, ?_⟩
        grind
    · cases hstep

/-- A task runs in a round exactly if its period has passed since it ran last, whatever
the number of ticks. -/
theorem tasks_fire_on_time (hperiod : ∀ i, 1 ≤ (t i).periodTicks.toNat ∧
      (t i).periodTicks.toNat < 2 ^ 31) {as : List Call}
    (h : exec TaskRun.step (TaskRun.start t) as = some s) (hgap : s.gap ≤ 2 ^ 31) (i : Fin n) :
    (s.sched.tasks i).runs s.sched.ticks = true ↔ (t i).periodTicks.toNat ≤ s.now - s.last i := by
  have hinv : s.Inv t :=
    inv_of_exec (fun _ _ _ hs hstep => hs.step hperiod hstep)
      (TaskRun.inv_start fun i => (hperiod i).1) h
  exact hinv.runs_iff (fun i => (hperiod i).2) hgap i

/-- One task that is due at every other tick, for three ticks and two rounds. -/
theorem tasks_fire_on_time_twice : (exec TaskRun.step (TaskRun.start fun _ : Fin 1 => ⟨2, 0, false⟩)
        [.tick, .tick, .run, .tick]).any (fun s => s.last 0 = 2 ∧ s.now = 3) = true ∧
      ∀ s, exec TaskRun.step (TaskRun.start fun _ : Fin 1 => ⟨2, 0, false⟩)
          [.tick, .tick, .run, .tick] = some s → s.gap ≤ 2 ^ 31 →
        ((s.sched.tasks 0).runs s.sched.ticks = true ↔ 2 ≤ s.now - s.last 0) := by
  refine ⟨by decide +kernel, fun s h hgap => ?_⟩
  exact tasks_fire_on_time (fun _ => by decide) h hgap 0

end Rivet.Tasks
