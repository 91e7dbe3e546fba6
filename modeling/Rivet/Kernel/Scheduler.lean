import Rivet.Kernel.Queues
import Rivet.Kernel.Sched

/-!
# The scheduler on lists of processes

What `proc.h` and `waitq.h` are for, stated on lists: a process that is ready waits
in the run queue, one that sleeps in a wait queue, and the first of the run queue is
the next to run.  Each function of the kernel is shown to do its step to the links
in memory, unless it spins on a lock, and never to follow a null pointer.
-/

namespace Rivet.Kernel

open Circles Function Program

/-- The processes as the scheduler and the wait queues see them.  A process that has
never been on a list is not `linked`. -/
structure Sched where
  lists : ListId → List Pid
  linked : Pid → Bool
  state : Pid → ProcState
  current : Option Pid

namespace Sched

def setState (a : Sched) (p : Pid) (state : ProcState) : Sched :=
  { a with state := update a.state p state }

def push (a : Sched) (h : ListId) (p : Pid) : Sched :=
  { a with lists := pushOn a.lists h p, linked := update a.linked p true }

def drop (a : Sched) (p : Pid) : Sched := { a with lists := dropFrom a.lists p }

def ready (a : Sched) (p : Pid) : Sched := (a.setState p .ready).push none p

def free (a : Sched) (p : Pid) : Sched := (a.drop p).setState p .unused

def enqueue (a : Sched) (q : QueueId) (p : Pid) : Sched :=
  ((a.setState p .sleeping).drop p).push (some q) p

def requeue (a : Sched) : Sched :=
  match a.current with
  | none => a
  | some p => if a.state p = .running then a.ready p else a

def dispatch (a : Sched) : Sched :=
  match a.lists none with
  | [] => a
  | p :: _ => { (a.drop p).setState p .running with current := some p }

/-- `riv_proc_yield`. -/
def yield (a : Sched) : Sched := if a.lists none = [] then a else a.requeue.dispatch

def wake (a : Sched) (q : QueueId) : Sched :=
  match a.lists (some q) with
  | [] => a
  | p :: _ => (a.drop p).ready p

def Off (a : Sched) (p : Pid) : Prop := ∀ h, p ∉ a.lists h

/-- Processes on the run queue are ready and those on a wait queue sleep; they and
the current one have been linked. -/
structure Ok (a : Sched) : Prop where
  ready : ∀ p ∈ a.lists none, a.state p = .ready
  sleeping : ∀ q, ∀ p ∈ a.lists (some q), a.state p = .sleeping
  linked : ∀ h, ∀ p ∈ a.lists h, a.linked p = true
  current : ∀ p, a.current = some p → a.linked p = true

end Sched

/-- The memory of the kernel shows the state of the scheduler. -/
structure Shows {Dev : Type} (w : World Dev) (a : Sched) : Prop where
  links : LinksShow (nextOf w.links) (prevOf w.links) a.lists a.linked
  state : ∀ p, (w.procs p).state = a.state p
  current : w.current = a.current


section Shows

variable {Dev : Type} {w w' : World Dev} {a : Sched} {p : Pid} {h : ListId}

theorem Shows.of_eq (hs : Shows w a) (hlinks : w'.links = w.links) (hprocs : w'.procs = w.procs)
    (hcurrent : w'.current = w.current) : Shows w' a :=
  ⟨hlinks ▸ hs.links, hprocs ▸ hs.state, hcurrent ▸ hs.current⟩

theorem Shows.off_drop (hs : Shows w a) (p : Pid) : (a.drop p).Off p :=
  hs.links.not_mem_dropFrom p

end Shows

/-! ## Steps keep the states of the processes right -/

namespace Sched

variable {a : Sched} {p : Pid}

theorem mem_ready {p' : Pid} {l : ListId} :
    p' ∈ (a.ready p).lists l ↔ p' ∈ a.lists l ∨ p' = p ∧ l = none :=
  (mem_pushOn : p' ∈ pushOn a.lists none p l ↔ _)

theorem mem_enqueue {p' : Pid} {l : ListId} {q : QueueId} :
    p' ∈ (a.enqueue q p).lists l ↔ p' ∈ (a.drop p).lists l ∨ p' = p ∧ l = some q :=
  (mem_pushOn : p' ∈ pushOn (a.drop p).lists (some q) p l ↔ _)

theorem mem_drop_of_ne {p' : Pid} (hne : p' ≠ p) (l : ListId) :
    p' ∈ (a.drop p).lists l ↔ p' ∈ a.lists l :=
  List.mem_erase_of_ne hne

theorem Ok.off (h : a.Ok) (hready : a.state p ≠ .ready) (hsleeping : a.state p ≠ .sleeping) :
    a.Off p := by
  intro l hmem
  cases l with
  | none => exact hready (h.ready p hmem)
  | some q => exact hsleeping (h.sleeping q p hmem)

theorem Ok.drop (h : a.Ok) (p : Pid) : (a.drop p).Ok where
  ready p' hmem := h.ready p' (List.mem_of_mem_erase hmem)
  sleeping q p' hmem := h.sleeping q p' (List.mem_of_mem_erase hmem)
  linked l p' hmem := h.linked l p' (List.mem_of_mem_erase hmem)
  current := h.current

theorem Ok.setState (h : a.Ok) (hoff : a.Off p) (state : ProcState) : (a.setState p state).Ok := by
  have hne : ∀ l, ∀ p' ∈ a.lists l, (a.setState p state).state p' = a.state p' := by
    intro l p' hmem
    exact update_of_ne (fun heq : p' = p => hoff l (heq ▸ hmem)) ..
  refine ⟨fun p' hmem => ?_, fun q p' hmem => ?_, h.linked, h.current⟩
  · exact (hne none p' hmem).trans (h.ready p' hmem)
  · exact (hne (some q) p' hmem).trans (h.sleeping q p' hmem)

def waitState : ListId → ProcState
  | none => .ready
  | some _ => .sleeping

theorem Ok.push (h : a.Ok) {l : ListId} (hstate : a.state p = waitState l) : (a.push l p).Ok := by
  have hlinked : ∀ p', a.linked p' = true → (a.push l p).linked p' = true := by
    intro p' hp'
    by_cases hne : p' = p
    · rw [hne]
      exact update_self ..
    · exact (update_of_ne hne ..).trans hp'
  refine ⟨fun p' hmem => ?_, fun q p' hmem => ?_, fun l' p' hmem => ?_,
    fun p' hp' => hlinked p' (h.current p' hp')⟩
  · rcases mem_pushOn.mp hmem with hold | ⟨rfl, rfl⟩
    · exact h.ready p' hold
    · exact hstate
  · rcases mem_pushOn.mp hmem with hold | ⟨rfl, rfl⟩
    · exact h.sleeping q p' hold
    · exact hstate
  · rcases mem_pushOn.mp hmem with hold | ⟨rfl, rfl⟩
    · exact hlinked p' (h.linked l' p' hold)
    · exact update_self ..

theorem Ok.ready_step (h : a.Ok) (hoff : a.Off p) : (a.ready p).Ok :=
  (h.setState hoff .ready).push (update_self ..)

theorem Ok.free_step (h : a.Ok) (hoff : (a.drop p).Off p) : (a.free p).Ok :=
  (h.drop p).setState hoff .unused

theorem Ok.enqueue_step (h : a.Ok) (hoff : (a.drop p).Off p) (q : QueueId) : (a.enqueue q p).Ok :=
  ((h.drop p).setState hoff .sleeping).push (update_self ..)

theorem Ok.requeue_step (h : a.Ok) : a.requeue.Ok := by
  unfold requeue
  split
  · exact h
  next p _ =>
  split
  · next hrunning =>
    refine h.ready_step (h.off ?_ ?_) <;> rw [hrunning] <;> exact nofun
  · exact h

theorem Ok.dispatch_step (h : a.Ok) (hoff : ∀ p, (a.drop p).Off p) : a.dispatch.Ok := by
  unfold dispatch
  split
  · exact h
  next p ps hlist =>
  have hrunning := (h.drop p).setState (hoff p) .running
  refine ⟨hrunning.ready, hrunning.sleeping, hrunning.linked, fun p' hp' => ?_⟩
  cases hp'
  exact h.linked none p (hlist ▸ List.mem_cons_self)

end Sched

/-! ## The functions of the kernel -/

def Spins (e : Stop) : Prop := ∃ l, e = .spins l

/-- The memory shows a state of the scheduler in which the states of the processes
are right. -/
structure Tracks {Dev : Type} (w : World Dev) (a : Sched) : Prop where
  shows_ : Shows w a
  ok : a.Ok

section Kernel

variable {Dev α : Type} {w : World Dev} {a : Sched} {p : Pid}

theorem Tracks.of_eq {w' : World Dev} (h : Tracks w a) (hlinks : w'.links = w.links)
    (hprocs : w'.procs = w.procs) (hcurrent : w'.current = w.current) : Tracks w' a :=
  ⟨h.shows_.of_eq hlinks hprocs hcurrent, h.ok⟩

theorem Tracks.acquire (h : Tracks w a) (l : SpinId) : Tracks (w.acquire l) a :=
  h.of_eq rfl rfl rfl

theorem ends_spinLocked {l : SpinId} {body : KernelM Dev (Flow × α)} {post : α → World Dev → Prop}
    (hrelease : ∀ b w st, post b w → post b (World.release w l st))
    (hbody : Ends Spins body (w.acquire l) fun r w' => post r.2 w') :
    Ends Spins (spinLocked l body) w post := by
  unfold Ends at hbody ⊢
  cases hlock : w.locks l with
  | true =>
    rw [run_spinLocked_taken hlock]
    exact ⟨l, rfl⟩
  | false =>
    cases hrun : body.run (w.acquire l) with
    | error e => grind [run_spinLocked_error]
    | ok r =>
      obtain ⟨⟨flow, b⟩, w1⟩ := r
      rw [hrun] at hbody
      cases flow with
      | next =>
        rw [run_spinLocked_next hlock hrun]
        exact hrelease b w1 w.irqOn hbody
      | brk =>
        rw [run_spinLocked_brk hlock hrun]
        exact hbody

theorem ends_setState (hs : Shows w a) (p : Pid) (state : ProcState) :
    Ends Spins (setState p state) w fun _ w' => Shows w' (a.setState p state) := by
  refine ends_modify ⟨hs.links, fun p' => ?_, hs.current⟩
  by_cases hp : p' = p
  · subst hp
    simp only [Sched.setState, update_self]
  · simp only [Sched.setState, update_of_ne hp]
    exact hs.state p'

theorem ends_onLinks {f : Links NodeId → Option (Links NodeId)} {links : Links NodeId} {b : Sched}
    (hs : Shows w a) (hf : f w.links = some links)
    (hlinks : LinksShow (nextOf links) (prevOf links) b.lists b.linked)
    (hstate : b.state = a.state) (hcurrent : b.current = a.current) :
    Ends Spins (onLinks f) w fun _ w' => Shows w' b := by
  refine ends_get_bind ?_
  rw [hf]
  exact ends_modify ⟨hlinks, fun p => (hs.state p).trans (congrFun hstate p).symm,
    hs.current.trans hcurrent.symm⟩

theorem ends_addTail (hs : Shows w a) (hoff : a.Off p) (l : ListId) :
    Ends Spins (onLinks (rivListAddTail l.head (.proc p))) w fun _ w' => Shows w' (a.push l p) := by
  obtain ⟨links, hadd, hlinks⟩ := hs.links.addTail hoff l
  exact ends_onLinks hs hadd hlinks rfl rfl

theorem ends_del (hs : Shows w a) (hlinked : a.linked p = true) :
    Ends Spins (onLinks (rivListDel (.proc p))) w fun _ w' => Shows w' (a.drop p) := by
  obtain ⟨links, hdel, hlinks⟩ := hs.links.del hlinked
  exact ends_onLinks hs hdel hlinks rfl rfl

theorem ends_popProc (hs : Shows w a) {l : ListId} {ps : List Pid} (hlist : a.lists l = p :: ps)
    (hlinked : a.linked p = true) :
    Ends Spins (popProc l.head) w fun n w' => n = p ∧ Shows w' (a.drop p) := by
  obtain ⟨links, hpop, hlinks⟩ := hs.links.pop hlist hlinked
  refine ends_get_bind ?_
  rw [hpop]
  exact Ends.bind (ends_modify ⟨hlinks, hs.state, hs.current⟩) fun _ _ hs' =>
    ends_pure ⟨rfl, hs'⟩

theorem ends_rivProcReady (h : Tracks w a) (hoff : a.Off p) :
    Ends Spins (rivProcReady p) w fun _ w' => Tracks w' (a.ready p) := by
  refine ends_spinLocked (fun _ _ _ h => h.of_eq rfl rfl rfl) ?_
  refine Ends.bind (ends_setState (h.acquire .sched).shows_ p .ready) fun _ w1 h1 => ?_
  refine Ends.bind (ends_addTail h1 hoff none) fun _ w2 h2 => ?_
  exact ends_pure ⟨h2, h.ok.ready_step hoff⟩

theorem ends_rivProcFree (h : Tracks w a) (hlinked : a.linked p = true) :
    Ends Spins (rivProcFree p) w fun _ w' => Tracks w' (a.free p) := by
  refine ends_spinLocked (fun _ _ _ h => h.of_eq rfl rfl rfl) ?_
  refine Ends.bind (ends_del (h.acquire .sched).shows_ hlinked) fun _ w1 h1 => ?_
  refine Ends.bind (ends_setState h1 p .unused) fun _ w2 h2 => ?_
  exact ends_pure ⟨h2, h.ok.free_step (h.shows_.off_drop p)⟩

theorem run_rivProcFree_null (hfree : w.locks .sched = false)
    (hnull : (w.links (.proc p)).prev = none) : (rivProcFree p).run w = .error .fault := by
  refine run_spinLocked_error hfree ?_
  have hdel : rivListDel (.proc p) (w.acquire .sched).links = none := rivListDel_null hnull
  simp only [onLinks, StateT.run_bind, StateT.run_get, pure_bind, hdel]
  rfl

theorem ends_rivProcAlloc (h : Tracks w a) :
    Ends Spins rivProcAlloc w fun r w' => Tracks w' a ∧ r = none ∨
      ∃ p, r = some p ∧ a.state p = .unused ∧ Tracks w' (a.setState p .ready) := by
  refine ends_spinLocked ?_ ?_
  · rintro r w' st (⟨h, hr⟩ | ⟨p, hr, hp, h⟩)
    · exact Or.inl ⟨h.of_eq rfl rfl rfl, hr⟩
    · exact Or.inr ⟨p, hr, hp, h.of_eq rfl rfl rfl⟩
  · refine ends_get_bind ?_
    split
    · exact ends_pure (Or.inl ⟨h.acquire .sched, rfl⟩)
    next p hfirst =>
    have hunused : a.state p = .unused := by
      rw [← h.shows_.state p]
      exact of_decide_eq_true (firstIdx_eq_some hfirst).2
    have hoff : a.Off p := by
      refine h.ok.off ?_ ?_ <;> rw [hunused] <;> exact nofun
    refine Or.inr ⟨p, rfl, hunused, ⟨h.shows_.links, fun p' => ?_, h.shows_.current⟩,
      h.ok.setState hoff .ready⟩
    by_cases hp : p' = p
    · subst hp
      simp only [Sched.setState, update_self]
    · simp only [Sched.setState, update_of_ne hp]
      exact h.shows_.state p'

theorem ends_requeue (h : Tracks w a) :
    Ends Spins (requeue a.current) w fun _ w' => Tracks w' a.requeue := by
  refine ends_get_bind ?_
  unfold Sched.requeue
  cases a.current with
  | none => exact ends_pure h
  | some p =>
    dsimp only
    rw [h.shows_.state p]
    by_cases hrunning : a.state p = .running
    · rw [if_pos hrunning, if_pos hrunning]
      have hoff : a.Off p := by
        refine h.ok.off ?_ ?_ <;> rw [hrunning] <;> exact nofun
      refine Ends.bind (ends_setState h.shows_ p .ready) fun _ w1 h1 => ?_
      exact (ends_addTail h1 hoff none).mono fun _ w2 h2 => ⟨h2, h.ok.ready_step hoff⟩
    · rw [if_neg hrunning, if_neg hrunning]
      exact ends_pure h

theorem Sched.requeue_ne_nil (hne : a.lists none ≠ []) : a.requeue.lists none ≠ [] := by
  unfold Sched.requeue
  split
  · exact hne
  split
  · next p _ _ =>
    have hready : (a.ready p).lists none = a.lists none ++ [p] :=
      pushOn_self a.lists none p
    simp_all
  · exact hne

theorem ends_pickNext (h : Tracks w a) : Ends Spins pickNext w fun _ w' => Tracks w' a.yield := by
  refine ends_spinLocked (fun _ _ _ h => h.of_eq rfl rfl rfl) (ends_get_bind ?_)
  have hacq := h.acquire .sched
  have hempty : rivListEmpty .runq (w.acquire .sched).links = true ↔ a.lists none = [] :=
    hacq.shows_.links.rivListEmpty_iff none
  unfold Sched.yield
  by_cases hnil : a.lists none = []
  · simp_all [ends_pure]
  rw [if_neg hnil, if_neg fun hrunq => hnil (hempty.mp hrunq), hacq.shows_.current]
  refine Ends.bind (ends_requeue hacq) fun _ w1 h1 => ?_
  obtain ⟨p, ps, hlist⟩ := List.exists_cons_of_ne_nil (Sched.requeue_ne_nil hnil)
  have hlinked : a.requeue.linked p = true :=
    h1.ok.linked none p (hlist ▸ List.mem_cons_self)
  refine Ends.bind (ends_popProc h1.shows_ hlist hlinked) fun n w2 h2 => ?_
  obtain ⟨rfl, h2⟩ := h2
  refine Ends.bind (ends_setState h2 n .running) fun _ w3 h3 => ?_
  have hdispatch : a.requeue.dispatch =
      { (a.requeue.drop n).setState n .running with current := some n } := by
    rw [Sched.dispatch, hlist]
  refine Ends.bind (ends_modify ?_) fun _ w4 h4 => ends_pure h4
  rw [hdispatch]
  exact ⟨⟨h3.links, h3.state, rfl⟩, hdispatch ▸ h1.ok.dispatch_step h1.shows_.off_drop⟩

theorem ends_enqueue (h : Tracks w a) (hlinked : a.linked p = true) (q : QueueId) :
    Ends Spins (enqueue q p) w fun _ w' => Tracks w' (a.enqueue q p) := by
  refine ends_spinLocked (fun _ _ _ h => h.of_eq rfl rfl rfl) ?_
  refine Ends.bind (ends_setState (h.acquire (.queue q)).shows_ p .sleeping) fun _ w1 h1 => ?_
  refine Ends.bind (ends_del h1 hlinked) fun _ w2 h2 => ?_
  refine Ends.bind (ends_addTail h2 (h1.off_drop p) (some q)) fun _ w3 h3 => ?_
  exact ends_pure ⟨h3, h.ok.enqueue_step (h.shows_.off_drop p) q⟩

theorem ends_rivWaitqWakeOne (h : Tracks w a) (q : QueueId) :
    Ends Spins (rivWaitqWakeOne q) w fun _ w' => Tracks w' (a.wake q) := by
  refine ends_spinLocked (fun _ _ _ h => h.of_eq rfl rfl rfl) (ends_get_bind ?_)
  have hacq := h.acquire (.queue q)
  have hempty : rivListEmpty (.queue q) (w.acquire (.queue q)).links = true ↔
      a.lists (some q) = [] := hacq.shows_.links.rivListEmpty_iff (some q)
  unfold Sched.wake
  cases hlist : a.lists (some q) with
  | nil =>
    rw [if_pos (hempty.mpr hlist)]
    exact ends_pure hacq
  | cons p ps =>
    have hnil : a.lists (some q) ≠ [] := hlist ▸ List.cons_ne_nil p ps
    rw [if_neg fun hqueue => hnil (hempty.mp hqueue)]
    have hlinked : a.linked p = true := h.ok.linked (some q) p (hlist ▸ List.mem_cons_self)
    refine Ends.bind (ends_popProc hacq.shows_ hlist hlinked) fun n w1 h1 => ?_
    obtain ⟨rfl, h1⟩ := h1
    have htracks : Tracks w1 (a.drop n) := ⟨h1, h.ok.drop n⟩
    exact Ends.bind (ends_rivProcReady htracks (h.shows_.off_drop n)) fun _ w2 h2 =>
      ends_pure h2

end Kernel

end Rivet.Kernel
