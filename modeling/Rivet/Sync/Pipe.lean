import Mathlib.Data.Fintype.Basic
import Rivet.Sync.RingCalls

/-!
# The blocking pipe

Processes call `riv_pipe_read`, `riv_pipe_write` and `riv_pipe_close` on one
pipe.  Taking and releasing the guard, the transfer to or from the ring, each
wake-up and the entry into a wait queue are one step each, and the steps of the
processes interleave freely: a process may be preempted between any two.

`riv_waitq_sleep` is called without a condition lock, after the guard has been
released, so a process that has found the ring empty or full enters its wait queue
in a later step.
-/

namespace Rivet.Sync

open Runs

def rivPipeCap : RivU32 := 256

/-- The two ends of a pipe, each with its wait queue `readers` or `writers`. -/
inductive PipeEnd where
  | reader
  | writer
  deriving DecidableEq, Repr

def PipeEnd.other : PipeEnd → PipeEnd
  | .reader => .writer
  | .writer => .reader

inductive PipeOp where
  | write (src : List RivU8)
  | read (n : ℕ)
  | close
  deriving DecidableEq, Repr

/-- What a call returns; a read returns the number of bytes it has stored. -/
inductive PipeRet where
  | write (rc : RivI32)
  | read (bytes : List RivU8)
  | close
  deriving DecidableEq, Repr

/-- Where a process stands in a call, with the locals of the call. -/
inductive PipePc where
  | idle (ret : Option PipeRet)
  -- the loop of `riv_pipe_write`
  | writeTop (src : List RivU8) (done : ℕ)
  | writeLocked (src : List RivU8) (done : ℕ)
  | writeRefused
  | writeUnlock (src : List RivU8) (done w : ℕ)
  | writeWake (src : List RivU8) (done w : ℕ)
  | writeSleep (src : List RivU8) (done : ℕ)
  | writeYield (src : List RivU8) (done : ℕ)
  -- the loop of `riv_pipe_read`
  | readTop (n : ℕ)
  | readLocked (n : ℕ)
  | readUnlock (n : ℕ) (bytes : List RivU8) (closed : Bool)
  | readDone (n : ℕ) (bytes : List RivU8) (closed : Bool)
  | readSleep (n : ℕ)
  | readYield (n : ℕ)
  -- `riv_pipe_close`
  | closeTop
  | closeLocked
  | closeUnlock
  | closeWake (e : PipeEnd)
  deriving DecidableEq, Repr

/-- The pipe and its processes.  `asleep` is the state `RIV_PROC_SLEEPING`;
`schedLock` is the lock of the scheduler, which `riv_proc_yield` keeps when it
finds the run queue empty. -/
structure PipeState (P : Type) where
  ring : Ring
  guard : Option P
  queue : PipeEnd → List P
  closed : Bool
  asleep : P → Bool
  schedLock : Bool
  pc : P → PipePc

inductive PipeAction (P : Type) where
  | call (p : P) (op : PipeOp)
  | step (p : P)

/-- `riv_pipe_init`, before any call. -/
def rivPipeInit {P : Type} (buf : ℕ → RivU8) : PipeState P where
  -- the result of `riv_ring_init` is ignored; it cannot fail on 256
  ring := (rivRingInit buf rivPipeCap).getD ⟨buf, 0, 0, 0⟩
  guard := none
  queue := fun _ => []
  closed := false
  asleep := fun _ => false
  schedLock := false
  pc := fun _ => .idle none

variable {P : Type}

section Steps

variable [DecidableEq P] [Fintype P]

def PipeState.goto (s : PipeState P) (p : P) (pc : PipePc) : PipeState P :=
  { s with pc := Function.update s.pc p pc }

/-- `riv_spin_lock` on the guard: the process spins while it is taken. -/
def PipeState.spinLock (s : PipeState P) (p : P) (pc : PipePc) : Option (PipeState P) :=
  if s.guard = none then some ({ s with guard := some p }.goto p pc) else none

/-- `riv_spin_unlock` on the guard. -/
def PipeState.spinUnlock (s : PipeState P) (p : P) (pc : PipePc) : PipeState P :=
  { s with guard := none }.goto p pc

def PipeState.wake (s : PipeState P) (e : PipeEnd) (q : P) (rest : List P) : PipeState P :=
  { s with
    queue := Function.update s.queue e rest
    asleep := Function.update s.asleep q false }

/-- `riv_waitq_wake_one`; making a process ready takes the lock of the
scheduler. -/
def PipeState.wakeOne (s : PipeState P) (e : PipeEnd) : Option (PipeState P) :=
  match s.queue e with
  | [] => some s
  | q :: rest => if s.schedLock then none else some (s.wake e q rest)

/-- The locked part of `riv_waitq_sleep`; `riv_list_del` takes the process out of
whatever queue it is in. -/
def PipeState.enqueue (s : PipeState P) (p : P) (e : PipeEnd) : PipeState P :=
  { s with
    asleep := Function.update s.asleep p true
    queue := Function.update (fun e => (s.queue e).erase p) e ((s.queue e).erase p ++ [p]) }

/-- `riv_proc_yield` inside `riv_waitq_sleep`: the process is scheduled again
after a wake-up, or goes on at once, with the scheduler's lock kept, if no other
process is ready to run. -/
def PipeState.resume (s : PipeState P) (p : P) : Option (PipeState P) :=
  if s.schedLock then none
  else if s.asleep p = false then some s
  else if ∀ q, q ≠ p → s.asleep q = true then some { s with schedLock := true }
  else none

def PipeState.stepProc (s : PipeState P) (p : P) : Option (PipeState P) :=
  match s.pc p with
  | .idle _ => none
  | .writeTop src done =>
    if done < src.length then s.spinLock p (.writeLocked src done)
    else some (s.goto p (.idle (some (.write (BitVec.ofNat 32 done)))))
  | .writeLocked src done =>
    if s.closed then some (s.goto p .writeRefused)
    else
      match rivRingWrite s.ring (src.drop done) with
      | (w, ring) => some ({ s with ring := ring }.goto p (.writeUnlock src done w))
  | .writeRefused => some (s.spinUnlock p (.idle (some (.write (-1)))))
  | .writeUnlock src done w => some (s.spinUnlock p (.writeWake src (done + w) w))
  | .writeWake src done w =>
    -- `if (w > 0) wake_one(readers)`, and the two tests of `done < n`
    (if 0 < w then s.wakeOne .reader else some s).map fun s' =>
      s'.goto p (if done < src.length then .writeSleep src done
        else .idle (some (.write (BitVec.ofNat 32 done))))
  | .writeSleep src done => some ((s.enqueue p .writer).goto p (.writeYield src done))
  | .writeYield src done => (s.resume p).map fun s' => s'.goto p (.writeTop src done)
  | .readTop n => s.spinLock p (.readLocked n)
  | .readLocked n =>
    match rivRingRead s.ring n with
    | (bytes, ring) =>
      some ({ s with ring := ring }.goto p (.readUnlock n bytes s.closed))
  | .readUnlock n bytes closed => some (s.spinUnlock p (.readDone n bytes closed))
  | .readDone n bytes closed =>
    if bytes ≠ [] then
      (s.wakeOne .writer).map fun s' => s'.goto p (.idle (some (.read bytes)))
    else if closed then some (s.goto p (.idle (some (.read []))))
    else some (s.goto p (.readSleep n))
  | .readSleep n => some ((s.enqueue p .reader).goto p (.readYield n))
  | .readYield n => (s.resume p).map fun s' => s'.goto p (.readTop n)
  | .closeTop => s.spinLock p .closeLocked
  | .closeLocked => some ({ s with closed := true }.goto p .closeUnlock)
  | .closeUnlock => some (s.spinUnlock p (.closeWake .reader))
  | .closeWake e =>
    -- `riv_waitq_wake_all` stops when `riv_waitq_wake_one` finds nobody
    if s.queue e = [] then
      some (s.goto p (match e with
        | .reader => .closeWake .writer
        | .writer => .idle (some .close)))
    else (s.wakeOne e).map fun s' => s'.goto p (.closeWake e)

def PipeOp.entry : PipeOp → PipePc
  | .write src => .writeTop src 0
  | .read n => .readTop n
  | .close => .closeTop

def PipeState.step (s : PipeState P) : PipeAction P → Option (PipeState P)
  | .call p op =>
    match s.pc p with
    | .idle _ => some (s.goto p op.entry)
    | _ => none
  | .step p => s.stepProc p

end Steps

/-! ## The ring under the guard -/

/-- The end that can make progress: a reader if there are bytes, a writer if there
is room. -/
def Ring.ready (r : Ring) : PipeEnd → Bool
  | .reader => !rivRingEmpty r
  | .writer => !rivRingFull r

def Ring.Sound (r : Ring) : Prop := ∃ pushed popped, RingOk 8 r pushed popped

theorem sound_rivPipeInit (buf : ℕ → RivU8) : (rivPipeInit buf : PipeState P).ring.Sound := by
  obtain ⟨k, hk, hok⟩ := exists_cap_of_init (rfl : rivRingInit buf rivPipeCap = some _)
  have hk : k = 8 := Nat.pow_right_injective le_rfl (hk.symm.trans (rfl : _ = 2 ^ 8))
  exact ⟨[], [], hk ▸ hok.ring⟩

section Transfers

variable {r : Ring} {src : List RivU8} {n : ℕ}

theorem rivRingWrite_full (h : r.ready .writer = false) : rivRingWrite r src = (0, r) := by
  cases src with
  | nil => rfl
  | cons b src => simp_all [Ring.ready, rivRingWrite, rivRingPush, rivRingFull_eq_true_iff.mp]

theorem rivRingRead_empty (h : r.ready .reader = false) : rivRingRead r n = ([], r) := by
  cases n with
  | zero => rfl
  | succ n => simp_all [Ring.ready, rivRingRead, rivRingPop, rivRingEmpty_eq_true_iff.mp]

theorem rivRingWrite_zero (h : (rivRingWrite r src).1 = 0) : (rivRingWrite r src).2 = r := by
  cases src with
  | nil => rfl
  | cons b src => grind [rivRingWrite]

theorem rivRingRead_nil (h : (rivRingRead r n).1 = []) : (rivRingRead r n).2 = r := by
  cases n with
  | zero => rfl
  | succ n => grind [rivRingRead]

theorem Ring.Sound.write (h : r.Sound) (src : List RivU8) : (rivRingWrite r src).2.Sound := by
  obtain ⟨pushed, popped, hok⟩ := h
  obtain ⟨placed, -, hok', -⟩ := hok.ringWrite src
  exact ⟨pushed ++ placed, popped, hok'⟩

theorem Ring.Sound.read (h : r.Sound) (n : ℕ) : (rivRingRead r n).2.Sound := by
  obtain ⟨pushed, popped, hok⟩ := h
  exact ⟨pushed, _, (hok.ringRead n).1⟩

theorem Ring.Sound.ready_of_write (h : r.Sound) (hw : 0 < (rivRingWrite r src).1) :
    (rivRingWrite r src).2.ready .reader = true := by
  obtain ⟨pushed, popped, hok⟩ := h
  obtain ⟨placed, hplaced, hok', hle, -⟩ := hok.ringWrite src
  have hlen : placed.length = (rivRingWrite r src).1 := by
    rw [← List.length_map Prod.snd, hplaced, List.length_take, Nat.min_eq_left hle]
  have hold := hok.popped_le
  rw [Ring.ready, Bool.not_eq_true', ← Bool.not_eq_true, hok'.rivRingEmpty_iff, List.length_append]
  omega

theorem Ring.Sound.full_of_write (h : r.Sound) (hw : (rivRingWrite r src).1 < src.length) :
    (rivRingWrite r src).2.ready .writer = false := by
  obtain ⟨pushed, popped, hok⟩ := h
  obtain ⟨placed, -, -, -, hfull⟩ := hok.ringWrite src
  rw [Ring.ready, hfull hw]
  rfl

theorem Ring.Sound.ready_of_read (h : r.Sound) (hr : (rivRingRead r n).1 ≠ []) :
    (rivRingRead r n).2.ready .writer = true := by
  obtain ⟨pushed, popped, hok⟩ := h
  have hlen := List.length_pos_iff.mpr hr
  have hok' := (hok.ringRead n).1
  have hold := hok.pushed_le
  rw [Ring.ready, Bool.not_eq_true', ← Bool.not_eq_true, hok'.rivRingFull_iff, List.length_append]
  omega

end Transfers

end Rivet.Sync
