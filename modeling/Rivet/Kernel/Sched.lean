import Rivet.Kernel.Spin

/-!
# Processes, wait queues and the locks built on them

The functions of `proc.h`, `waitq.h`, `mutex.h` and `sem.h` whose body is a
`spin_locked` block.  The context switch is the architecture's own: while the
process is away the kernel state may change, but it comes back with the locks
that were free still free and with its own interrupt state.
-/

namespace Rivet.Kernel

variable {Dev : Type}

def procMax : ℕ := 64

/-- `riv_ctx_switch(save, load)`, up to the return in the process that called
it. -/
structure CtxSwitch (Dev : Type) where
  run : Option Pid → Pid → World Dev → World Dev
  locks_free : ∀ save load w l, w.locks l = false → (run save load w).locks l = false
  irqOn_eq : ∀ save load w, (run save load w).irqOn = w.irqOn
  irqArch_eq : ∀ save load w, (run save load w).irqArch = w.irqArch

/-! ## Access to the shared structures -/

def onLinks (f : Links NodeId → Option (Links NodeId)) : KernelM Dev Unit := do
  let w ← get
  match f w.links with
  | none => throw .fault
  | some links => modify fun w => { w with links := links }

/-- `riv_list_pop` and `riv_list_entry`: the process whose link is taken out. -/
def popProc (h : NodeId) : KernelM Dev Pid := do
  let w ← get
  match rivListPop h w.links with
  | some (some (.proc p), links) => do
    modify fun w => { w with links := links }
    pure p
  | _ => throw .fault

def setProc (p : Pid) (f : Proc → Proc) : KernelM Dev Unit :=
  modify fun w => { w with procs := Function.update w.procs p (f (w.procs p)) }

def setState (p : Pid) (state : ProcState) : KernelM Dev Unit :=
  setProc p fun r => { r with state := state }

/-! ## `proc.h` -/

def rivProcAlloc : KernelM Dev (Option Pid) :=
  spinLocked .sched do
    let w ← get
    match firstIdx procMax fun i => (w.procs i).state = .unused with
    | none => pure (.next, none)
    | some i => do
      setProc i fun _ => ⟨w.nextPid, .ready, 0, w.current, none⟩
      modify fun w => { w with nextPid := w.nextPid + 1 }
      pure (.next, some i)

def rivProcFree (p : Pid) : KernelM Dev Unit :=
  spinLocked .sched do
    onLinks (rivListDel (.proc p))
    setState p .unused
    pure (.next, ())

def rivProcReady (p : Pid) : KernelM Dev Unit :=
  spinLocked .sched do
    setState p .ready
    onLinks (rivListAddTail .runq (.proc p))
    pure (.next, ())

def requeue (cur : Option Pid) : KernelM Dev Unit := do
  let w ← get
  match cur with
  | none => pure ()
  | some p =>
    if (w.procs p).state = .running then do
      setState p .ready
      onLinks (rivListAddTail .runq (.proc p))
    else pure ()

/-- The locked part of `riv_proc_yield`: `cur` and `next`. -/
def pickNext : KernelM Dev (Option Pid × Option Pid) :=
  spinLocked .sched do
    let w ← get
    if rivListEmpty .runq w.links then pure (.brk, w.current, w.current)
    else do
      requeue w.current
      let next ← popProc .runq
      setState next .running
      modify fun w => { w with current := some next }
      pure (.next, w.current, some next)

def rivProcYield (cs : CtxSwitch Dev) : KernelM Dev Unit := do
  let (cur, next) ← pickNext
  match next with
  | some p => if cur = some p then pure () else modify (cs.run cur p)
  | none => pure ()

/-! ## `waitq.h` -/

/-- The locked part of `riv_waitq_sleep`. -/
def enqueue (q : QueueId) (cur : Pid) : KernelM Dev Unit :=
  spinLocked (.queue q) do
    setState cur .sleeping
    onLinks (rivListDel (.proc cur))
    onLinks (rivListAddTail (.queue q) (.proc cur))
    pure (.next, ())

def rivWaitqSleep (cs : CtxSwitch Dev) (q : QueueId) (condLock : Option GuardId) :
    KernelM Dev Unit := do
  let w ← get
  match w.current with
  | none => pure ()
  | some cur => do
    enqueue q cur
    match condLock with
    | none => rivProcYield cs
    | some g => do
      rivSpinUnlock (.guard g)
      rivProcYield cs
      rivSpinLock (.guard g)

def rivWaitqWakeOne (q : QueueId) : KernelM Dev Bool :=
  spinLocked (.queue q) do
    let w ← get
    if rivListEmpty (.queue q) w.links then pure (.next, false)
    else do
      let p ← popProc (.queue q)
      rivProcReady p
      pure (.next, true)

/-! ## `mutex.h` and `sem.h` -/

def rivMutexTrylock : KernelM Dev Bool :=
  spinLocked (.guard .mutex) do
    let w ← get
    if w.mutexOwner = none then do
      modify fun w => { w with mutexOwner := w.current }
      pure (.next, true)
    else pure (.next, false)

def rivMutexUnlock : KernelM Dev Unit := do
  spinLocked (.guard .mutex) do
    modify fun w => { w with mutexOwner := none }
    pure (.next, ())
  let _ ← rivWaitqWakeOne .mutexWaiters

def rivSemTrywait : KernelM Dev Bool :=
  spinLocked (.guard .sem) do
    let w ← get
    if 0 < w.semCount then do
      modify fun w => { w with semCount := w.semCount - 1 }
      pure (.next, true)
    else pure (.next, false)

def rivSemPost : KernelM Dev Unit := do
  let wake ← spinLocked (.guard .sem) do
    modify fun w => { w with semCount := w.semCount + 1 }
    pure (.next, true)
  if wake then do
    let _ ← rivWaitqWakeOne .semWaiters
  else pure ()

end Rivet.Kernel
