import Rivet.Kernel.Sched
import Rivet.Kernel.Storage

/-!
# Which locked sections give their lock back

Every operation whose body is a `spin_locked` block, from any state in which its
lock is free.  Most of them leave every free lock free and the interrupt state as
they found it.  The three whose body can be left by a `break` keep the lock and
leave interrupts off on that path, and so does `riv_waitq_sleep` through
`riv_proc_yield`.
-/

namespace Rivet.Kernel

open CLib Program Function StateT

variable {l : SpinId} {q : QueueId}

variable {Dev α β : Type}

/-! ## Sections that are left at their end -/

/-- The locks that were free are free, and the interrupt state is the same. -/
structure NoLeak (w w' : World Dev) : Prop where
  free : ∀ l, w.locks l = false → w'.locks l = false
  irqOn : w'.irqOn = w.irqOn
  irqArch : w'.irqArch = w.irqArch

theorem NoLeak.refl (w : World Dev) : NoLeak w w := ⟨fun _ h => h, rfl, rfl⟩

theorem NoLeak.trans {w1 w2 w3 : World Dev} (h : NoLeak w1 w2) (h' : NoLeak w2 w3) : NoLeak w1 w3 :=
  ⟨fun l hl => h'.free l (h.free l hl), h'.irqOn.trans h.irqOn, h'.irqArch.trans h.irqArch⟩

instance : Std.Refl (@NoLeak Dev) := ⟨NoLeak.refl⟩

instance : IsTrans (World Dev) NoLeak := ⟨fun _ _ _ => NoLeak.trans⟩

/-- A body that leaks nothing and runs to its end. -/
structure Safe (body : KernelM Dev (Flow × α)) : Prop where
  keeps : Keeps NoLeak body
  next : ∀ w r w', body.run w = .ok (r, w') → r.1 = .next

theorem safe_pure (a : α) : Safe (pure (.next, a) : KernelM Dev (Flow × α)) where
  keeps := keeps_pure _
  next w r w' h := by
    cases h
    rfl

theorem Safe.bind {m : KernelM Dev β} {f : β → KernelM Dev (Flow × α)}
    (hm : Keeps NoLeak m) (hf : ∀ b, Safe (f b)) : Safe (m >>= f) where
  keeps := Keeps.bind hm fun b => (hf b).keeps
  next w r w' h := by
    obtain ⟨b, w1, -, h⟩ := run_bind_eq_ok h
    exact (hf b).next w1 r w' h

theorem safe_get {f : World Dev → KernelM Dev (Flow × α)} (hf : ∀ w, Safe (f w)) :
    Safe (get >>= f) :=
  Safe.bind (fun w _ _ h => by cases h; exact NoLeak.refl w) hf

theorem noLeak_release {w w1 : World Dev} (h : NoLeak (w.acquire l) w1) :
    NoLeak w (w1.release l w.irqOn) where
  free l' hl' := by
    change update w1.locks l false l' = false
    by_cases hl : l' = l
    · rw [hl, update_self]
    rw [update_of_ne hl]
    refine h.free l' ?_
    change update w.locks l true l' = false
    rw [update_of_ne hl]
    exact hl'
  irqOn := by
    -- where restoring only enables, interrupts are still off after the body
    have hoff : w1.irqOn = false := h.irqOn
    simp only [World.release]
    cases w1.irqArch <;> cases hw : w.irqOn <;> simp [hoff]
  irqArch := h.irqArch

theorem keeps_spinLocked {body : KernelM Dev (Flow × α)} (h : Safe body) :
    Keeps NoLeak (spinLocked l body) := by
  intro w a w' hrun
  obtain ⟨-, flow, w1, hbody, rfl⟩ := run_spinLocked_eq_ok hrun
  cases flow with
  | next => exact noLeak_release (h.keeps _ _ _ hbody)
  | brk => exact absurd (h.next _ _ _ hbody) (by simp)

/-! ## The helpers -/

theorem keeps_setProc (p : Pid) (f : Proc → Proc) : Keeps NoLeak (setProc p f : KernelM Dev Unit) :=
  keeps_modify fun _ => ⟨fun _ h => h, rfl, rfl⟩

theorem keeps_setState (p : Pid) (state : ProcState) :
    Keeps NoLeak (setState p state : KernelM Dev Unit) :=
  keeps_setProc p _

theorem keeps_onLinks (f : Links NodeId → Option (Links NodeId)) :
    Keeps NoLeak (onLinks f : KernelM Dev Unit) := by
  refine keeps_get_bind fun w => ?_
  split
  · exact keeps_throw _
  · exact keeps_modify fun _ => ⟨fun _ h => h, rfl, rfl⟩

theorem keeps_popProc (h : NodeId) : Keeps NoLeak (popProc h : KernelM Dev Pid) := by
  refine keeps_get_bind fun w => ?_
  split
  · exact Keeps.bind (keeps_modify fun _ => ⟨fun _ h => h, rfl, rfl⟩)
      fun _ => keeps_pure _
  · exact keeps_throw _

theorem keeps_requeue (cur : Option Pid) : Keeps NoLeak (requeue cur : KernelM Dev Unit) := by
  refine keeps_get_bind fun w => ?_
  split
  · exact keeps_pure _
  · split
    · exact Keeps.bind (keeps_setState _ _) fun _ => keeps_onLinks _
    · exact keeps_pure _

theorem keeps_setBlock (i : ℕ) (f : BufBlock → BufBlock) :
    Keeps NoLeak (setBlock i f : KernelM Dev Unit) :=
  keeps_modify fun _ => ⟨fun _ h => h, rfl, rfl⟩

theorem keeps_setEntry (i : ℕ) (f : RamfsEntry → RamfsEntry) :
    Keeps NoLeak (setEntry i f : KernelM Dev Unit) :=
  keeps_modify fun _ => ⟨fun _ h => h, rfl, rfl⟩

theorem keeps_tickClock : Keeps NoLeak (tickClock : KernelM Dev RivU32) :=
  Keeps.bind (keeps_modify fun _ => ⟨fun _ h => h, rfl, rfl⟩) fun _ =>
    keeps_get_bind fun _ => keeps_pure _

theorem keeps_rivDiskRead (lba : RivU64) (n : RivU32) (out : List RivU8) :
    Keeps NoLeak (rivDiskRead lba n out : KernelM Dev (RivI32 × List RivU8)) := by
  refine keeps_get_bind fun w => ?_
  split
  · exact keeps_pure _
  · exact Keeps.bind (keeps_modify fun _ => ⟨fun _ h => h, rfl, rfl⟩)
      fun _ => keeps_pure _

theorem keeps_rivDiskWrite (lba : RivU64) (n : RivU32) (data : List RivU8) :
    Keeps NoLeak (rivDiskWrite lba n data : KernelM Dev RivI32) := by
  refine keeps_get_bind fun w => ?_
  split
  · exact keeps_pure _
  · exact Keeps.bind (keeps_modify fun _ => ⟨fun _ h => h, rfl, rfl⟩)
      fun _ => keeps_pure _

theorem keeps_syncBlocks (is : List ℕ) : Keeps NoLeak (syncBlocks is : KernelM Dev RivI32) := by
  induction is with
  | nil => exact keeps_pure _
  | cons i is ih =>
    refine keeps_get_bind fun w => ?_
    dsimp only
    split
    · exact ih
    refine Keeps.bind (keeps_rivDiskWrite _ _ _) fun rc => ?_
    split
    · exact keeps_pure _
    · exact Keeps.bind (keeps_setBlock _ _) fun _ => ih

/-! ## Operations without a `break` out of the section -/

theorem keeps_rivProcAlloc : Keeps NoLeak (rivProcAlloc : KernelM Dev (Option Pid)) := by
  refine keeps_spinLocked (safe_get fun w => ?_)
  split
  · exact safe_pure _
  · exact Safe.bind (keeps_setProc _ _) fun _ =>
      Safe.bind (keeps_modify fun _ => ⟨fun _ h => h, rfl, rfl⟩) fun _ => safe_pure _

theorem keeps_rivProcFree (p : Pid) : Keeps NoLeak (rivProcFree p : KernelM Dev Unit) :=
  keeps_spinLocked (Safe.bind (keeps_onLinks _) fun _ =>
    Safe.bind (keeps_setState _ _) fun _ => safe_pure _)

theorem keeps_rivProcReady (p : Pid) : Keeps NoLeak (rivProcReady p : KernelM Dev Unit) :=
  keeps_spinLocked (Safe.bind (keeps_setState _ _) fun _ =>
    Safe.bind (keeps_onLinks _) fun _ => safe_pure _)

theorem keeps_enqueue (q : QueueId) (cur : Pid) : Keeps NoLeak (enqueue q cur : KernelM Dev Unit) :=
  keeps_spinLocked (Safe.bind (keeps_setState _ _) fun _ =>
    Safe.bind (keeps_onLinks _) fun _ => Safe.bind (keeps_onLinks _) fun _ => safe_pure _)

theorem keeps_rivWaitqWakeOne (q : QueueId) :
    Keeps NoLeak (rivWaitqWakeOne q : KernelM Dev Bool) := by
  refine keeps_spinLocked (safe_get fun w => ?_)
  split
  · exact safe_pure _
  · exact Safe.bind (keeps_popProc _) fun p =>
      Safe.bind (keeps_rivProcReady p) fun _ => safe_pure _

theorem keeps_rivMutexTrylock : Keeps NoLeak (rivMutexTrylock : KernelM Dev Bool) := by
  refine keeps_spinLocked (safe_get fun w => ?_)
  split
  · exact Safe.bind (keeps_modify fun _ => ⟨fun _ h => h, rfl, rfl⟩) fun _ => safe_pure _
  · exact safe_pure _

theorem keeps_rivMutexUnlock : Keeps NoLeak (rivMutexUnlock : KernelM Dev Unit) := by
  refine Keeps.bind (keeps_spinLocked ?_) fun _ =>
    Keeps.bind (keeps_rivWaitqWakeOne _) fun _ => keeps_pure _
  exact Safe.bind (keeps_modify fun _ => ⟨fun _ h => h, rfl, rfl⟩) fun _ => safe_pure _

theorem keeps_rivSemTrywait : Keeps NoLeak (rivSemTrywait : KernelM Dev Bool) := by
  refine keeps_spinLocked (safe_get fun w => ?_)
  split
  · exact Safe.bind (keeps_modify fun _ => ⟨fun _ h => h, rfl, rfl⟩) fun _ => safe_pure _
  · exact safe_pure _

theorem keeps_rivSemPost : Keeps NoLeak (rivSemPost : KernelM Dev Unit) := by
  refine Keeps.bind (keeps_spinLocked ?_) fun wake => ?_
  · exact Safe.bind (keeps_modify fun _ => ⟨fun _ h => h, rfl, rfl⟩) fun _ => safe_pure _
  · split
    · exact Keeps.bind (keeps_rivWaitqWakeOne _) fun _ => keeps_pure _
    · exact keeps_pure _

theorem keeps_rivBufRelease (i : ℕ) : Keeps NoLeak (rivBufRelease i : KernelM Dev Unit) :=
  keeps_spinLocked (Safe.bind (keeps_setBlock _ _) fun _ => safe_pure _)

theorem keeps_rivBufSync : Keeps NoLeak (rivBufSync : KernelM Dev RivI32) :=
  keeps_spinLocked (Safe.bind (keeps_syncBlocks _) fun _ => safe_pure _)

theorem keeps_ramfsLookup (path : CStr) :
    Keeps NoLeak (ramfsLookup path : KernelM Dev (Option ℕ)) :=
  keeps_spinLocked (safe_get fun _ => safe_pure _)

theorem keeps_ramfsCreate (path : CStr) (mode : RivU32) :
    Keeps NoLeak (ramfsCreate path mode : KernelM Dev (Option ℕ)) := by
  refine keeps_spinLocked (safe_get fun w => ?_)
  split
  · exact safe_pure _
  · exact Safe.bind (keeps_setEntry _ _) fun _ => safe_pure _

theorem keeps_ramfsUnlink (path : CStr) : Keeps NoLeak (ramfsUnlink path : KernelM Dev RivI32) := by
  refine keeps_spinLocked (safe_get fun w => ?_)
  split
  · exact safe_pure _
  · exact Safe.bind (keeps_setEntry _ _) fun _ => safe_pure _

/-! ## Operations with one -/

theorem noLeak_of_spinLocked {f : World Dev → KernelM Dev (Flow × α)} {w w' : World Dev} {a : α}
    (h : (spinLocked l (get >>= f)).run w = .ok (a, w')) (hf : Safe (f (w.acquire l))) :
    NoLeak w w' := by
  obtain ⟨-, flow, w1, hbody, rfl⟩ := run_spinLocked_eq_ok h
  cases flow with
  | next => exact noLeak_release (hf.keeps _ _ _ hbody)
  | brk => exact absurd (hf.next _ _ _ hbody) (by simp)

theorem noLeak_rivBufGet {lba : RivU64} {w w' : World Dev} {r : Option ℕ}
    (hmiss : cacheHit w.cache lba = none)
    (h : (rivBufGet lba).run w = .ok (r, w')) : NoLeak w w' := by
  have hmiss : cacheHit (w.acquire .buf).cache lba = none := hmiss
  refine noLeak_of_spinLocked h ?_
  rw [hmiss]
  dsimp only
  split
  · exact safe_pure _
  refine Safe.bind (keeps_rivDiskRead _ _ _) fun r =>
    Safe.bind (keeps_setBlock _ _) fun _ => ?_
  split
  · exact safe_pure _
  · exact Safe.bind keeps_tickClock fun _ =>
      Safe.bind (keeps_setBlock _ _) fun _ => safe_pure _

theorem noLeak_rivMountFs {path : CStr} {fs : ℕ} {w w' : World Dev} {rc : RivI32}
    (hroom : ¬mountsMax ≤ w.nmount) (h : (rivMountFs path fs).run w = .ok (rc, w')) :
    NoLeak w w' := by
  have hroom : ¬mountsMax ≤ (w.acquire .vfs).nmount := hroom
  refine noLeak_of_spinLocked h ?_
  rw [if_neg hroom]
  exact Safe.bind (keeps_modify fun _ => ⟨fun _ h => h, rfl, rfl⟩) fun _ => safe_pure _

theorem noLeak_pickNext {w w' : World Dev} {r : Option Pid × Option Pid}
    (hsome : rivListEmpty .runq w.links = false) (h : pickNext.run w = .ok (r, w')) :
    NoLeak w w' := by
  have hsome : rivListEmpty .runq (w.acquire .sched).links = false := hsome
  refine noLeak_of_spinLocked h ?_
  rw [if_neg (Bool.eq_false_iff.mp hsome)]
  exact Safe.bind (keeps_requeue _) fun _ => Safe.bind (keeps_popProc _) fun _ =>
    Safe.bind (keeps_setState _ _) fun _ =>
      Safe.bind (keeps_modify fun _ => ⟨fun _ h => h, rfl, rfl⟩) fun _ => safe_pure _

theorem noLeak_rivProcYield {cs : CtxSwitch Dev} {w w' : World Dev}
    (hsome : rivListEmpty .runq w.links = false)
    (h : (rivProcYield cs).run w = .ok ((), w')) : NoLeak w w' := by
  obtain ⟨⟨cur, next⟩, w1, hpick, h⟩ := run_bind_eq_ok h
  refine (noLeak_pickNext hsome hpick).trans ?_
  have hswitch (p : Pid) : NoLeak w1 (cs.run cur p w1) :=
    ⟨cs.locks_free _ _ _, cs.irqOn_eq _ _ _, cs.irqArch_eq _ _ _⟩
  cases next with
  | none =>
    cases h
    exact NoLeak.refl _
  | some p =>
    dsimp only at h
    split at h
    · cases h
      exact NoLeak.refl _
    · cases h
      exact hswitch p

/-- `riv_list_del` and `riv_list_add_tail` in `riv_waitq_sleep`: the process moves
from its list to the end of `q`. -/
def relink (q : QueueId) (cur : Pid) (links : Links NodeId) : Option (Links NodeId) :=
  (rivListDel (.proc cur) links).bind (rivListAddTail (.queue q) (.proc cur))

def World.sleepOn (w : World Dev) (cur : Pid) (links : Links NodeId) : World Dev :=
  { w with
    procs := update w.procs cur { w.procs cur with state := .sleeping }
    links := links }

theorem run_enqueue_body (q : QueueId) (cur : Pid) (w : World Dev) :
    (do
      setState cur .sleeping
      onLinks (rivListDel (.proc cur))
      onLinks (rivListAddTail (.queue q) (.proc cur))
      pure (.next, ()) : KernelM Dev (Flow × Unit)).run w =
      match relink q cur w.links with
      | none => .error .fault
      | some links => .ok ((.next, ()), w.sleepOn cur links) := by
  simp only [setState, setProc, onLinks, run_bind, run_modify, run_get,
    pure_bind, relink]
  cases hdel : rivListDel (.proc cur) w.links with
  | none => rfl
  | some links =>
    simp only [run_modify, pure_bind, Option.bind_some]
    cases hadd : rivListAddTail (.queue q) (.proc cur) links with
    | none => rfl
    | some links' => rfl

theorem run_enqueue_eq_ok {cur : Pid} {w w' : World Dev}
    (h : (enqueue q cur).run w = .ok ((), w')) :
    ∃ links, relink q cur w.links = some links ∧ w'.links = links := by
  obtain ⟨-, flow, w1, hbody, rfl⟩ := run_spinLocked_eq_ok h
  rw [run_enqueue_body] at hbody
  split at hbody
  · cases hbody
  · next links hlinks =>
    cases hbody
    exact ⟨links, hlinks, rfl⟩

theorem run_enqueue {cur : Pid} {w : World Dev} {links : Links NodeId}
    (hfree : w.locks (.queue q) = false) (hlinks : relink q cur w.links = some links) :
    (enqueue q cur).run w =
      .ok ((), ((w.acquire (.queue q)).sleepOn cur links).release (.queue q) w.irqOn) := by
  refine run_spinLocked_next hfree ?_
  rw [run_enqueue_body, show (w.acquire (.queue q)).links = w.links from rfl, hlinks]

theorem run_rivProcYield_empty {cs : CtxSwitch Dev} {w : World Dev}
    (hfree : w.locks .sched = false) (hempty : rivListEmpty .runq w.links = true) :
    (rivProcYield cs).run w = .ok ((), w.acquire .sched) := by
  have hpick : pickNext.run w = .ok ((w.current, w.current), w.acquire .sched) := by
    refine run_spinLocked_brk hfree ?_
    have hempty : rivListEmpty .runq (w.acquire .sched).links = true := hempty
    rw [run_bind, run_get, pure_bind]
    rw [if_pos hempty]
    rfl
  rw [rivProcYield, run_bind, hpick]
  cases w.current with
  | none => rfl
  | some p =>
    change (if some p = some p then pure () else modify (cs.run (some p) p) :
      KernelM Dev Unit).run (w.acquire .sched) = _
    rw [if_pos rfl]
    rfl

/-! ## All operations -/

/-- The operations whose body is a `spin_locked` block, with their arguments. -/
inductive LockedOp where
  | bufGet (lba : RivU64)
  | bufRelease (i : ℕ)
  | bufSync
  | mountFs (path : CStr) (fs : ℕ)
  | procAlloc
  | procFree (p : Pid)
  | procReady (p : Pid)
  | procYield
  | waitqSleep (q : QueueId) (condLock : Option GuardId)
  | waitqWakeOne (q : QueueId)
  | mutexTrylock
  | mutexUnlock
  | semTrywait
  | semPost
  | fsLookup (path : CStr)
  | fsCreate (path : CStr) (mode : RivU32)
  | fsUnlink (path : CStr)

def LockedOp.run (cs : CtxSwitch Dev) : LockedOp → KernelM Dev Unit
  | .bufGet lba => rivBufGet lba >>= fun _ => pure ()
  | .bufRelease i => rivBufRelease i
  | .bufSync => rivBufSync >>= fun _ => pure ()
  | .mountFs path fs => rivMountFs path fs >>= fun _ => pure ()
  | .procAlloc => rivProcAlloc >>= fun _ => pure ()
  | .procFree p => rivProcFree p
  | .procReady p => rivProcReady p
  | .procYield => rivProcYield cs
  | .waitqSleep q condLock => rivWaitqSleep cs q condLock
  | .waitqWakeOne q => rivWaitqWakeOne q >>= fun _ => pure ()
  | .mutexTrylock => rivMutexTrylock >>= fun _ => pure ()
  | .mutexUnlock => rivMutexUnlock
  | .semTrywait => rivSemTrywait >>= fun _ => pure ()
  | .semPost => rivSemPost
  | .fsLookup path => ramfsLookup path >>= fun _ => pure ()
  | .fsCreate path mode => ramfsCreate path mode >>= fun _ => pure ()
  | .fsUnlink path => ramfsUnlink path >>= fun _ => pure ()

/-- The lock of the operation's own `spin_locked` block. -/
def LockedOp.lock : LockedOp → SpinId
  | .bufGet _ | .bufRelease _ | .bufSync => .buf
  | .mountFs _ _ => .vfs
  | .procAlloc | .procFree _ | .procReady _ | .procYield => .sched
  | .waitqSleep q _ | .waitqWakeOne q => .queue q
  | .mutexTrylock | .mutexUnlock => .guard .mutex
  | .semTrywait | .semPost => .guard .sem
  | .fsLookup _ | .fsCreate _ _ | .fsUnlink _ => .ramfs

/-- The condition lock that `riv_waitq_sleep` holds when it returns. -/
def LockedOp.condLock : LockedOp → Option GuardId
  | .waitqSleep _ condLock => condLock
  | _ => none

/-- Every lock that was free is free again, the condition lock apart, and the
interrupt state is restored. -/
structure Releases (condLock : Option GuardId) (w w' : World Dev) : Prop where
  free : ∀ l, (∀ g, condLock = some g → l ≠ .guard g) → w.locks l = false →
    w'.locks l = false
  irqOn : w'.irqOn = w.irqOn

/-- The entry states from which an operation keeps a lock: a cached block, a full
mount table, an empty run queue. -/
def LockedOp.Leaks (w : World Dev) : LockedOp → Prop
  | .bufGet lba => cacheHit w.cache lba ≠ none
  | .mountFs _ _ => mountsMax ≤ w.nmount
  | .procYield => rivListEmpty .runq w.links = true
  | .waitqSleep q _ =>
    w.locks .sched = false ∧ ∃ cur links, w.current = some cur ∧
      relink q cur w.links = some links ∧ rivListEmpty .runq links = true
  | _ => False

theorem NoLeak.releases {w w' : World Dev} (h : NoLeak w w') (condLock : Option GuardId) :
    Releases condLock w w' :=
  ⟨fun l _ hl => h.free l hl, h.irqOn⟩

theorem run_of_drop {m : KernelM Dev α} {w w' : World Dev}
    (h : (m >>= fun _ => pure ()).run w = .ok ((), w')) : ∃ a, m.run w = .ok (a, w') := by
  obtain ⟨a, w1, hm, h⟩ := run_bind_eq_ok h
  cases h
  exact ⟨a, hm⟩

theorem run_drop {m : KernelM Dev α} {w w' : World Dev} {a : α}
    (h : m.run w = .ok (a, w')) : (m >>= fun _ => pure ()).run w = .ok ((), w') := by
  rw [run_bind, h]
  rfl

theorem run_rivSpinLock_eq_ok {w w' : World Dev} (h : (rivSpinLock l).run w = .ok ((), w')) :
    w' = { w with locks := update w.locks l true } := by
  simp only [rivSpinLock, run_bind, run_get, pure_bind] at h
  split at h
  · cases h
  · cases h
    rfl

theorem World.locks_acquire (w : World Dev) (l : SpinId) : (w.acquire l).locks l = true := by
  change update w.locks l true l = true
  rw [update_self]

def World.unlock (w : World Dev) (l : SpinId) : World Dev :=
  { w with locks := update w.locks l false }

theorem run_rivSpinUnlock (l : SpinId) (w : World Dev) :
    (rivSpinUnlock l).run w = .ok ((), w.unlock l) := rfl

theorem run_rivSpinLock {w : World Dev} (h : w.locks l = false) :
    (rivSpinLock l).run w = .ok ((), { w with locks := update w.locks l true }) := by
  simp only [rivSpinLock, run_bind, run_get, pure_bind, h, Bool.false_eq_true, if_false]
  rfl

theorem sched_free_of_yield {cs : CtxSwitch Dev} {w w' : World Dev}
    (h : (rivProcYield cs).run w = .ok ((), w')) : w.locks .sched = false := by
  obtain ⟨r, w1, hpick, -⟩ := run_bind_eq_ok h
  exact (run_spinLocked_eq_ok hpick).1

theorem releases_rivWaitqSleep {cs : CtxSwitch Dev} {condLock : Option GuardId} {w w' : World Dev}
    (hfree : w.locks (.queue q) = false) (hok : ¬(LockedOp.waitqSleep q condLock).Leaks w)
    (h : (rivWaitqSleep cs q condLock).run w = .ok ((), w')) : Releases condLock w w' := by
  unfold rivWaitqSleep at h
  rw [run_bind, run_get, pure_bind] at h
  cases hcur : w.current with
  | none =>
    rw [hcur] at h
    cases h
    exact (NoLeak.refl w).releases condLock
  | some cur =>
    rw [hcur] at h
    obtain ⟨u, w1, henq, h⟩ := run_bind_eq_ok h
    obtain ⟨links, hrelink, hlinks⟩ := run_enqueue_eq_ok henq
    have hsame : w1.locks .sched = w.locks .sched := by
      rw [run_enqueue hfree hrelink] at henq
      cases henq
      rfl
    -- a yield that returns found the lock of the scheduler free
    have hsome (hsched : w1.locks .sched = false) : rivListEmpty .runq w1.links = false := by
      by_contra hempty
      rw [Bool.not_eq_false, hlinks] at hempty
      exact hok ⟨hsame ▸ hsched, cur, links, hcur, hrelink, hempty⟩
    have hleak1 := keeps_enqueue q cur w () w1 henq
    cases condLock with
    | none =>
      have hsched := sched_free_of_yield h
      exact (hleak1.trans (noLeak_rivProcYield (hsome hsched) h)).releases none
    | some g =>
      obtain ⟨u, w2, hunlock, h⟩ := run_bind_eq_ok h
      cases hunlock
      obtain ⟨u, w3, hyield, hlock⟩ := run_bind_eq_ok h
      have hsched : (w1.unlock (.guard g)).locks .sched = false := sched_free_of_yield hyield
      have hready : rivListEmpty .runq (w1.unlock (.guard g)).links = false := hsome hsched
      have hleak3 := noLeak_rivProcYield hready hyield
      rw [run_rivSpinLock_eq_ok hlock]
      refine ⟨fun l hne hl => ?_, hleak3.irqOn.trans hleak1.irqOn⟩
      have hne : l ≠ .guard g := hne g rfl
      change update w3.locks (.guard g) true l = false
      rw [update_of_ne hne]
      refine hleak3.free l ?_
      change update w1.locks (.guard g) false l = false
      rw [update_of_ne hne]
      exact hleak1.free l hl

theorem sched_locked_of_sleep (cs : CtxSwitch Dev) {condLock : Option GuardId} {w : World Dev}
    (hfree : w.locks (.queue q) = false) (hleak : (LockedOp.waitqSleep q condLock).Leaks w) :
    ∃ w', (rivWaitqSleep cs q condLock).run w = .ok ((), w') ∧ w'.locks .sched = true := by
  obtain ⟨hsched, cur, links, hcur, hrelink, hempty⟩ := hleak
  have henq := run_enqueue hfree hrelink
  generalize hw1 : ((w.acquire (.queue q)).sleepOn cur links).release (.queue q) w.irqOn = w1
    at henq
  have hsched1 : w1.locks .sched = false := by
    rw [← hw1]
    exact hsched
  have hempty1 : rivListEmpty .runq w1.links = true := by
    rw [← hw1]
    exact hempty
  unfold rivWaitqSleep
  rw [run_bind, run_get, pure_bind]
  rw [hcur]
  rw [run_bind, henq]
  cases condLock with
  | none => exact ⟨_, run_rivProcYield_empty hsched1 hempty1, w1.locks_acquire .sched⟩
  | some g =>
    have hyield : (rivProcYield cs).run (w1.unlock (.guard g)) =
        .ok ((), (w1.unlock (.guard g)).acquire .sched) :=
      run_rivProcYield_empty hsched1 hempty1
    have hguard : ((w1.unlock (.guard g)).acquire .sched).locks (.guard g) = false := by
      change update (update w1.locks (.guard g) false) .sched true
        (.guard g) = false
      rw [update_of_ne (by simp), update_self]
    refine ⟨?w', ?hrun, ?hlock⟩
    case hrun =>
      change (rivSpinUnlock (.guard g) >>= fun _ =>
        rivProcYield cs >>= fun _ => rivSpinLock (.guard g)).run w1 = _
      rw [run_bind, run_rivSpinUnlock]
      change (rivProcYield cs >>= fun _ => rivSpinLock (.guard g)).run _ = _
      rw [run_bind, hyield]
      exact run_rivSpinLock hguard
    case hlock => rfl

theorem buf_locked_of_hit {lba : RivU64} {w : World Dev} (hfree : w.locks .buf = false)
    (hhit : cacheHit w.cache lba ≠ none) :
    ∃ r w', (rivBufGet lba).run w = .ok (r, w') ∧ w'.locks .buf = true := by
  obtain ⟨i, hi⟩ := Option.ne_none_iff_exists'.mp hhit
  have hi : cacheHit (w.acquire .buf).cache lba = some i := hi
  refine ⟨some i, ?w', ?hrun, ?hlock⟩
  case hrun =>
    refine run_spinLocked_brk hfree ?_
    rw [run_bind, run_get, pure_bind]
    rw [hi]
    rfl
  case hlock => exact w.locks_acquire .buf

theorem vfs_locked_of_full (path : CStr) (fs : ℕ) {w : World Dev}
    (hfree : w.locks .vfs = false) (hfull : mountsMax ≤ w.nmount) :
    ∃ rc w', (rivMountFs path fs).run w = .ok (rc, w') ∧ w'.locks .vfs = true := by
  refine ⟨-1, w.acquire .vfs, run_spinLocked_brk hfree ?_, w.locks_acquire .vfs⟩
  have hfull : mountsMax ≤ (w.acquire .vfs).nmount := hfull
  rw [run_bind, run_get, pure_bind]
  rw [if_pos hfull]
  rfl

theorem releases_of_keeps {m : KernelM Dev α} {w w' : World Dev}
    {condLock : Option GuardId} (hm : Keeps NoLeak m)
    (h : (m >>= fun _ => pure ()).run w = .ok ((), w')) : Releases condLock w w' := by
  obtain ⟨a, h⟩ := run_of_drop h
  exact (hm _ _ _ h).releases condLock

theorem releases_of_not_leaks {cs : CtxSwitch Dev} {op : LockedOp} {w w' : World Dev}
    (hfree : w.locks op.lock = false) (hok : ¬op.Leaks w)
    (h : (op.run cs).run w = .ok ((), w')) : Releases op.condLock w w' := by
  cases op with
  | bufGet lba =>
    obtain ⟨r, h⟩ := run_of_drop h
    exact (noLeak_rivBufGet (not_not.mp hok) h).releases _
  | bufRelease i => exact (keeps_rivBufRelease i _ _ _ h).releases _
  | bufSync => exact releases_of_keeps keeps_rivBufSync h
  | mountFs path fs =>
    obtain ⟨rc, h⟩ := run_of_drop h
    exact (noLeak_rivMountFs hok h).releases _
  | procAlloc => exact releases_of_keeps keeps_rivProcAlloc h
  | procFree p => exact (keeps_rivProcFree p _ _ _ h).releases _
  | procReady p => exact (keeps_rivProcReady p _ _ _ h).releases _
  | procYield => exact (noLeak_rivProcYield (Bool.not_eq_true _ ▸ hok) h).releases _
  | waitqSleep q condLock => exact releases_rivWaitqSleep hfree hok h
  | waitqWakeOne q => exact releases_of_keeps (keeps_rivWaitqWakeOne q) h
  | mutexTrylock => exact releases_of_keeps keeps_rivMutexTrylock h
  | mutexUnlock => exact (keeps_rivMutexUnlock _ _ _ h).releases _
  | semTrywait => exact releases_of_keeps keeps_rivSemTrywait h
  | semPost => exact (keeps_rivSemPost _ _ _ h).releases _
  | fsLookup path => exact releases_of_keeps (keeps_ramfsLookup path) h
  | fsCreate path mode => exact releases_of_keeps (keeps_ramfsCreate path mode) h
  | fsUnlink path => exact releases_of_keeps (keeps_ramfsUnlink path) h

theorem locked_of_leaks (cs : CtxSwitch Dev) {op : LockedOp} {w : World Dev}
    (hfree : w.locks op.lock = false) (hleak : op.Leaks w) :
    ∃ w' l, (op.run cs).run w = .ok ((), w') ∧ (∀ g, l ≠ .guard g) ∧
      w.locks l = false ∧ w'.locks l = true := by
  cases op with
  | bufGet lba =>
    obtain ⟨r, w', hrun, hlock⟩ := buf_locked_of_hit hfree hleak
    exact ⟨w', .buf, run_drop hrun, by simp, hfree, hlock⟩
  | mountFs path fs =>
    obtain ⟨rc, w', hrun, hlock⟩ := vfs_locked_of_full path fs hfree hleak
    exact ⟨w', .vfs, run_drop hrun, by simp, hfree, hlock⟩
  | procYield =>
    exact ⟨w.acquire .sched, .sched, run_rivProcYield_empty hfree hleak, by simp, hfree,
      w.locks_acquire .sched⟩
  | waitqSleep q condLock =>
    obtain ⟨w', hrun, hlock⟩ := sched_locked_of_sleep cs hfree hleak
    exact ⟨w', .sched, hrun, by simp, hleak.1, hlock⟩
  | bufRelease _ | bufSync | procAlloc | procFree _ | procReady _ | waitqWakeOne _
  | mutexTrylock | mutexUnlock | semTrywait | semPost | fsLookup _ | fsCreate _ _
  | fsUnlink _ => exact hleak.elim

/-- Entered with its lock free, an operation that returns has released every lock
it took and restored the interrupt state, on every exit, if and only if it does
not leave a `spin_locked` block by a `break`. -/
theorem locked_releases_iff (cs : CtxSwitch Dev) (op : LockedOp) (w : World Dev)
    (hfree : w.locks op.lock = false) :
    (∀ w', (op.run cs).run w = .ok ((), w') → Releases op.condLock w w') ↔ ¬op.Leaks w := by
  constructor
  · intro hrel hleak
    obtain ⟨w', l, hrun, hl, hwas, hnow⟩ := locked_of_leaks cs hfree hleak
    have hfree' := (hrel w' hrun).free l (fun g _ => hl g) hwas
    rw [hnow] at hfree'
    cases hfree'
  · intro hok w' hrun
    exact releases_of_not_leaks hfree hok hrun

def CtxSwitch.idle : CtxSwitch Dev where
  run _ _ w := w
  locks_free _ _ _ _ h := h
  irqOn_eq _ _ _ := rfl
  irqArch_eq _ _ _ := rfl

/-- The kernel at its start, with an empty cache over a disk whose reads
succeed. -/
def bootWorld : World Unit where
  irqArch := .riscv
  irqOn := true
  locks _ := false
  links n := ⟨some n, some n⟩
  procs _ := ⟨0, .unused, 0, none, none⟩
  current := none
  nextPid := 1
  mutexOwner := none
  semCount := 0
  dev := ()
  cache :=
    { disk := some
        { read := some fun dev _ _ data => (0, data, dev)
          write := some fun dev _ _ _ => (0, dev) }
      blocks := fun _ => ⟨0, List.replicate 512 0, 0, false, false, 0⟩
      clock := 0 }
  mounts _ := ⟨[], 0⟩
  nmount := 0
  ramfs _ := ⟨[], 0, 0, fun _ => 0, false⟩

theorem locked_releases_iff_boot : bootWorld.locks .buf = false ∧
      ∀ w', ((LockedOp.bufGet 0).run CtxSwitch.idle).run bootWorld = .ok ((), w') →
        Releases none bootWorld w' :=
  ⟨rfl, (locked_releases_iff CtxSwitch.idle (.bufGet 0) bootWorld rfl).mpr
    (not_not.mpr (by decide))⟩

/-- The second read of a block finds it in the cache and keeps the lock, with
interrupts off. -/
theorem buf_lock_kept_on_second_get :
    ∃ w w', ((LockedOp.bufGet 0).run CtxSwitch.idle).run bootWorld = .ok ((), w) ∧
      w.locks .buf = false ∧ w.irqOn = true ∧
      ((LockedOp.bufGet 0).run CtxSwitch.idle).run w = .ok ((), w') ∧
      w'.locks .buf = true ∧ w'.irqOn = false :=
  ⟨_, _, rfl, rfl, rfl, rfl, rfl, rfl⟩

end Rivet.Kernel
