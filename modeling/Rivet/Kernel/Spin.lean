import Rivet.Core
import Rivet.Kernel.Links
import Rivet.Support.CLib
import Rivet.Support.Program

/-!
# The kernel's memory and its spin locks

The objects of the kernel headers, as one state, and the operations of `spin.h`
and `irq.h` on it.  A kernel function is a program on this state; it does not
return if it spins on a lock that nobody releases or follows a null pointer.

`spin_locked` is a loop whose increment releases the lock, so a `break` that
leaves its body leaves the lock taken and interrupts off.
-/

namespace Rivet.Kernel

open CLib StateT

abbrev Pid := ℕ

/-- The wait queues of the mutex and the semaphore, and any others. -/
inductive QueueId where
  | mutexWaiters
  | semWaiters
  | other (n : ℕ)
  deriving DecidableEq, Repr

/-- The spin locks `guard` of the mutex and the semaphore. -/
inductive GuardId where
  | mutex
  | sem
  deriving DecidableEq, Repr

inductive SpinId where
  | sched
  | vfs
  | buf
  | ramfs
  | queue (q : QueueId)
  | guard (g : GuardId)
  deriving DecidableEq, Repr

/-- The list nodes: the head of the run queue, the head of a wait queue, and the
link of a process. -/
inductive NodeId where
  | runq
  | queue (q : QueueId)
  | proc (p : Pid)
  deriving DecidableEq, Repr

/-- `riv_proc_state`. -/
inductive ProcState where
  | unused
  | ready
  | running
  | sleeping
  | zombie
  deriving DecidableEq, Repr

/-- `riv_proc`, without the fields that only the context switch uses. -/
structure Proc where
  pid : RivI32
  state : ProcState
  exitCode : RivI32
  parent : Option Pid
  files : Option ℕ

/-- `riv_disk_ops`: a driver changes its device and, on a read, the buffer it was
given, whether it succeeds or not. -/
structure DiskOps (Dev : Type) where
  read : Option (Dev → RivU64 → RivU32 → List RivU8 → RivI32 × List RivU8 × Dev)
  write : Option (Dev → RivU64 → RivU32 → List RivU8 → RivI32 × Dev)

/-- `riv_buf_block`. -/
structure BufBlock where
  lba : RivU64
  data : List RivU8
  refs : RivU32
  valid : Bool
  dirty : Bool
  lastUse : RivU32

/-- `riv_buf_cache`, without its lock. -/
structure BufCache (Dev : Type) where
  disk : Option (DiskOps Dev)
  blocks : ℕ → BufBlock
  clock : RivU32

/-- `riv_mount`; a file system is known by a number. -/
structure Mount where
  mountPoint : CStr
  fs : ℕ

/-- `ramfs_entry`, with the fields of its inode. -/
structure RamfsEntry where
  name : CStr
  size : RivU32
  mode : RivU32
  data : ℕ → RivU8
  used : Bool

/-- How `riv_irq_restore` works: it writes the saved flags back, or it only
enables interrupts if they were enabled. -/
inductive IrqArch where
  | x86
  | aarch64
  | arm
  | riscv
  deriving DecidableEq, Repr

structure World (Dev : Type) where
  irqArch : IrqArch
  irqOn : Bool
  locks : SpinId → Bool
  links : Links NodeId
  procs : Pid → Proc
  current : Option Pid
  nextPid : RivI32
  mutexOwner : Option Pid
  semCount : ℤ
  dev : Dev
  cache : BufCache Dev
  mounts : ℕ → Mount
  nmount : ℕ
  ramfs : ℕ → RamfsEntry

/-- Why a kernel function does not return. -/
inductive Stop where
  | spins (l : SpinId)
  | fault
  deriving DecidableEq, Repr

abbrev KernelM (Dev : Type) := StateT (World Dev) (Except Stop)

variable {Dev : Type} {α : Type}

/-! ## `irq.h` and `spin.h` -/

def rivIrqSave : KernelM Dev Bool := do
  let w ← get
  modify fun w => { w with irqOn := false }
  pure w.irqOn

def rivIrqRestore (st : Bool) : KernelM Dev Unit :=
  modify fun w =>
    match w.irqArch with
    | .x86 | .aarch64 => { w with irqOn := st }
    | .arm | .riscv => if st then { w with irqOn := true } else w

def rivSpinLock (l : SpinId) : KernelM Dev Unit := do
  let w ← get
  if w.locks l then throw (.spins l)
  else modify fun w => { w with locks := Function.update w.locks l true }

def rivSpinUnlock (l : SpinId) : KernelM Dev Unit :=
  modify fun w => { w with locks := Function.update w.locks l false }

def rivSpinLockIrqsave (l : SpinId) : KernelM Dev Bool := do
  let st ← rivIrqSave
  rivSpinLock l
  pure st

def rivSpinUnlockIrqrestore (l : SpinId) (st : Bool) : KernelM Dev Unit := do
  rivSpinUnlock l
  rivIrqRestore st

/-- How the body of a `spin_locked` block ends: at its end, or by a `break`. -/
inductive Flow where
  | next
  | brk
  deriving DecidableEq, Repr

/-- `spin_locked(l) { body }`; the body returns the locals it sets. -/
def spinLocked (l : SpinId) (body : KernelM Dev (Flow × α)) : KernelM Dev α := do
  let st ← rivSpinLockIrqsave l
  let (flow, a) ← body
  match flow with
  | .next => do
    rivSpinUnlockIrqrestore l st
    pure a
  | .brk => pure a

/-- Where a loop over the indices below `n` stops: the first one that
satisfies `p`. -/
def firstIdx (n : ℕ) (p : ℕ → Bool) : Option ℕ := (List.range n).find? p

theorem firstIdx_eq_some {n : ℕ} {p : ℕ → Bool} {i : ℕ} (h : firstIdx n p = some i) :
    i < n ∧ p i = true :=
  ⟨List.mem_range.mp (List.mem_of_find?_eq_some h), List.find?_some h⟩

/-! ## Running a locked section -/

/-- The state in which the body of a `spin_locked` block starts. -/
def World.acquire (w : World Dev) (l : SpinId) : World Dev :=
  { w with irqOn := false, locks := Function.update w.locks l true }

def World.release (w : World Dev) (l : SpinId) (st : Bool) : World Dev :=
  { w with
    locks := Function.update w.locks l false
    irqOn :=
      match w.irqArch with
      | .x86 | .aarch64 => st
      | .arm | .riscv => if st then true else w.irqOn }

theorem run_rivSpinUnlockIrqrestore (l : SpinId) (st : Bool) (w : World Dev) :
    (rivSpinUnlockIrqrestore l st).run w = .ok ((), w.release l st) := by
  obtain ⟨arch⟩ := w
  cases arch <;> cases st <;> rfl

variable {l : SpinId} {w w₁ : World Dev} {body : KernelM Dev (Flow × α)}

theorem run_rivSpinLockIrqsave (h : w.locks l = false) :
    (rivSpinLockIrqsave l).run w = .ok (w.irqOn, w.acquire l) := by
  simp only [rivSpinLockIrqsave, rivIrqSave, rivSpinLock, run_bind, run_get,
    run_modify, run_pure, pure_bind, h, Bool.false_eq_true, if_false]
  rfl

theorem run_spinLocked_eq_ok {w' : World Dev} {a : α} (h : (spinLocked l body).run w = .ok (a, w'))
    :
    w.locks l = false ∧ ∃ flow w₁, body.run (w.acquire l) = .ok ((flow, a), w₁) ∧
      w' = match flow with
        | .next => w₁.release l w.irqOn
        | .brk => w₁ := by
  obtain ⟨st, w₀, hlock, h⟩ := Program.run_bind_eq_ok h
  have hfree : w.locks l = false := by
    by_contra htaken
    have htaken : w.locks l = true := by simpa using htaken
    simp only [rivSpinLockIrqsave, rivIrqSave, rivSpinLock, run_bind, run_get,
      run_modify, run_pure, pure_bind, htaken, if_true] at hlock
    cases hlock
  rw [run_rivSpinLockIrqsave hfree] at hlock
  cases hlock
  obtain ⟨⟨flow, b⟩, w₁, hbody, h⟩ := Program.run_bind_eq_ok h
  refine ⟨hfree, flow, w₁, ?_⟩
  cases flow with
  | next => simp_all [run_rivSpinUnlockIrqrestore]
  | brk =>
    cases h
    exact ⟨hbody, rfl⟩

theorem run_spinLocked_taken (htaken : w.locks l = true) (body : KernelM Dev (Flow × α)) :
    (spinLocked l body).run w = .error (.spins l) := by
  simp only [spinLocked, rivSpinLockIrqsave, rivIrqSave, rivSpinLock, run_bind,
    run_get, run_modify, run_pure, pure_bind, htaken, if_true]
  rfl

theorem run_spinLocked_error {e : Stop} (hfree : w.locks l = false)
    (hbody : body.run (w.acquire l) = .error e) : (spinLocked l body).run w = .error e := by
  rw [spinLocked, run_bind, run_rivSpinLockIrqsave hfree]
  change (body.run (w.acquire l) >>= _) = _
  rw [hbody]
  rfl

theorem run_spinLocked_brk {a : α} (hfree : w.locks l = false)
    (hbody : body.run (w.acquire l) = .ok ((.brk, a), w₁)) :
    (spinLocked l body).run w = .ok (a, w₁) := by
  rw [spinLocked, run_bind, run_rivSpinLockIrqsave hfree]
  change (body.run (w.acquire l) >>= _) = _
  rw [hbody]
  rfl

theorem run_spinLocked_next {a : α} (hfree : w.locks l = false)
    (hbody : body.run (w.acquire l) = .ok ((.next, a), w₁)) :
    (spinLocked l body).run w = .ok (a, w₁.release l w.irqOn) := by
  rw [spinLocked, run_bind, run_rivSpinLockIrqsave hfree]
  change (body.run (w.acquire l) >>= _) = _
  rw [hbody]
  change (rivSpinUnlockIrqrestore l w.irqOn >>= fun _ => pure a).run w₁ = _
  rw [run_bind, run_rivSpinUnlockIrqrestore]
  rfl

end Rivet.Kernel
