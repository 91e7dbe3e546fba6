import Rivet.Sync.PipeWakeups

/-!
# Delivery through the pipe

A run of the pipe is recorded next to it: the bytes that writers have put into
the ring, each with its writer, the bytes that readers have taken out, and the
calls of `riv_pipe_write` of every process with what they have inserted so far.
A process may come back from `riv_waitq_sleep` at any time, so that the results
do not depend on the scheduler.
-/

namespace Rivet.Sync

open Runs

variable {P : Type}

/-- A call of `riv_pipe_write`: its bytes, those it has inserted, and what it has
returned. -/
structure WriteCall where
  src : List RivU8
  sent : List RivU8
  ret : Option RivI32

structure PipeLog (P : Type) where
  pipe : PipeState P
  inserted : List (P × RivU8)
  removed : List RivU8
  -- the latest call comes first
  writes : P → List WriteCall

inductive LogAction (P : Type) where
  | act (a : PipeAction P)
  | back (p : P)

def PipeLog.start (buf : ℕ → RivU8) : PipeLog P := ⟨rivPipeInit buf, [], [], fun _ => []⟩

def PipePc.writeRet : PipePc → Option RivI32
  | .idle (some (.write rc)) => some rc
  | _ => none

/-- The top of the loop around a call of `riv_waitq_sleep`. -/
def PipePc.back : PipePc → Option PipePc
  | .writeSleep src done | .writeYield src done => some (.writeTop src done)
  | .readSleep n | .readYield n => some (.readTop n)
  | _ => none

def PipeState.inserts (s : PipeState P) (p : P) : List RivU8 :=
  match s.pc p with
  | .writeLocked src done =>
    if s.closed then [] else (src.drop done).take (rivRingWrite s.ring (src.drop done)).1
  | _ => []

def PipeState.removes (s : PipeState P) (p : P) : List RivU8 :=
  match s.pc p with
  | .readLocked n => (rivRingRead s.ring n).1
  | _ => []

def addSent (bytes : List RivU8) (ret : Option RivI32) : List WriteCall → List WriteCall
  | [] => []
  | c :: calls => ⟨c.src, c.sent ++ bytes, ret.or c.ret⟩ :: calls

def PipeOp.newWrite : PipeOp → List WriteCall
  | .write src => [⟨src, [], none⟩]
  | _ => []

section Steps

variable [DecidableEq P] [Fintype P]

def PipeLog.step (l : PipeLog P) : LogAction P → Option (PipeLog P)
  | .act (.call p op) =>
    (l.pipe.step (.call p op)).map fun s =>
      { l with pipe := s, writes := Function.update l.writes p (op.newWrite ++ l.writes p) }
  | .act (.step p) =>
    (l.pipe.step (.step p)).map fun s =>
      { pipe := s
        inserted := l.inserted ++ (l.pipe.inserts p).map fun b => (p, b)
        removed := l.removed ++ l.pipe.removes p
        writes := Function.update l.writes p
          (addSent (l.pipe.inserts p) (s.pc p).writeRet (l.writes p)) }
  | .back p =>
    ((l.pipe.pc p).back).map fun pc => { l with pipe := l.pipe.goto p pc }

end Steps

def PipeLog.insertedBy [DecidableEq P] (l : PipeLog P) (p : P) : List RivU8 :=
  (l.inserted.filter fun x => x.1 = p).map Prod.snd

/-- What has been removed is a first part of what has been inserted; each writer's
bytes are those of its calls, one after the other, and of each call a first part;
a call that has returned the number of its bytes has inserted all of them. -/
structure Delivered [DecidableEq P] (l : PipeLog P) : Prop where
  fifo : l.removed <+: l.inserted.map Prod.snd
  order : ∀ p, l.insertedBy p = ((l.writes p).reverse.map WriteCall.sent).flatten
  source : ∀ p, ∀ c ∈ l.writes p, c.sent <+: c.src
  complete : ∀ p, ∀ c ∈ l.writes p, ∀ rc, c.ret = some rc → rc.toInt = c.src.length →
    c.sent = c.src

/-! ## The invariant -/

/-- The write that a process is in, and how many bytes it has inserted. -/
def PipePc.progress : PipePc → Option (List RivU8 × ℕ)
  | .writeTop src done | .writeLocked src done | .writeSleep src done
  | .writeYield src done | .writeWake src done _ => some (src, done)
  | .writeUnlock src done w => some (src, done + w)
  | _ => none

/-- A finished or unfinished call: its bytes are a first part of its source, and
all of it when it has returned something else than -1. -/
structure WriteCall.Ok (c : WriteCall) : Prop where
  source : c.sent <+: c.src
  ret : ∀ rc, c.ret = some rc → rc = -1 ∨ c.sent = c.src

def Tracks (pc : PipePc) (calls : List WriteCall) : Prop :=
  ∀ src k, pc.progress = some (src, k) →
    k ≤ src.length ∧ ∃ rest, calls = ⟨src, src.take k, none⟩ :: rest

structure LogOk [DecidableEq P] (l : PipeLog P) : Prop where
  ring : ∃ pushed, pushed.map Prod.snd = l.inserted.map Prod.snd ∧
    RingOk 8 l.pipe.ring pushed l.removed
  order : ∀ p, l.insertedBy p = ((l.writes p).reverse.map WriteCall.sent).flatten
  calls : ∀ p, ∀ c ∈ l.writes p, c.Ok
  tracks : ∀ p, Tracks (l.pipe.pc p) (l.writes p)

theorem WriteCall.Ok.complete {c : WriteCall} (h : c.Ok) {rc : RivI32} (hret : c.ret = some rc)
    (hn : rc.toInt = c.src.length) : c.sent = c.src := by
  rcases h.ret rc hret with rfl | hsent
  all_goals simp_all

theorem LogOk.delivered [DecidableEq P] {l : PipeLog P} (h : LogOk l) : Delivered l := by
  obtain ⟨pushed, hpushed, hring⟩ := h.ring
  exact ⟨hpushed ▸ hring.fifo, h.order, fun p c hc => (h.calls p c hc).source,
    fun p c hc _ hret hn => (h.calls p c hc).complete hret hn⟩

theorem logOk_start [DecidableEq P] (buf : ℕ → RivU8) : LogOk (PipeLog.start buf : PipeLog P) := by
  obtain ⟨k, hk, hok⟩ := exists_cap_of_init (rfl : rivRingInit buf rivPipeCap = some _)
  have hk : k = 8 := Nat.pow_right_injective le_rfl (hk.symm.trans (rfl : _ = 2 ^ 8))
  exact ⟨⟨[], rfl, hk ▸ hok.ring⟩, fun _ => rfl, nofun, nofun⟩

/-! ## What a step does to the ring and to the calls -/

/-- Where a process may stand after a step that transfers nothing. -/
inductive GoesOn : PipePc → PipePc → Prop where
  | on {pc pc' : PipePc} (h : ∀ w, pc'.progress = some w → pc.progress = some w)
      (hret : pc'.writeRet = none) : GoesOn pc pc'
  | finished {pc : PipePc} {src : List RivU8} {done : ℕ} (h : pc.progress = some (src, done))
      (hdone : ¬done < src.length) :
      GoesOn pc (.idle (some (.write (BitVec.ofNat 32 done))))
  | refused : GoesOn .writeRefused (.idle (some (.write (-1))))

def PipePc.transfers : PipePc → Bool
  | .writeLocked _ _ | .readLocked _ => true
  | _ => false

/-- A step of a process: a transfer under the guard, or one that leaves the ring
as it is. -/
inductive ProcStep [DecidableEq P] (s : PipeState P) (p : P) (s' : PipeState P) : Prop where
  | write {src : List RivU8} {done : ℕ} (hpc : s.pc p = .writeLocked src done)
      (hopen : s.closed = false) (hring : s'.ring = (rivRingWrite s.ring (src.drop done)).2)
      (hpc' : s'.pc = Function.update s.pc p
        (.writeUnlock src done (rivRingWrite s.ring (src.drop done)).1))
  | read {n : ℕ} (hpc : s.pc p = .readLocked n) (hring : s'.ring = (rivRingRead s.ring n).2)
      (hpc' : s'.pc = Function.update s.pc p (.readUnlock n (rivRingRead s.ring n).1 s.closed))
  | other {pc' : PipePc} (hinserts : s.inserts p = []) (hremoves : s.removes p = [])
      (hring : s'.ring = s.ring) (hpc' : s'.pc = Function.update s.pc p pc')
      (hgo : GoesOn (s.pc p) pc')

section Steps

variable [DecidableEq P] {s s' : PipeState P} {p : P}

theorem wakeOne_ring_pc {e : PipeEnd} (h : s.wakeOne e = some s') :
    s'.ring = s.ring ∧ s'.pc = s.pc := by
  unfold PipeState.wakeOne at h
  split at h
  · cases h
    exact ⟨rfl, rfl⟩
  split at h
  · cases h
  · cases h
    exact ⟨rfl, rfl⟩

theorem ProcStep.quiet {pc pc' : PipePc} {t : PipeState P} (hpc : s.pc p = pc)
    (hquiet : pc.transfers = false) (hring : t.ring = s.ring) (hpcs : t.pc = s.pc)
    (hgo : GoesOn pc pc') : ProcStep s p (t.goto p pc') := by
  refine .other ?_ ?_ hring (by rw [← hpcs]; rfl) (hpc ▸ hgo)
  · rw [PipeState.inserts, hpc]
    cases pc <;> first | rfl | cases hquiet
  · rw [PipeState.removes, hpc]
    cases pc <;> first | rfl | cases hquiet

variable [Fintype P]

theorem resume_ring_pc (h : s.resume p = some s') : s'.ring = s.ring ∧ s'.pc = s.pc := by
  obtain ⟨-, ⟨-, rfl⟩ | ⟨-, rfl⟩⟩ := PipeState.resume_eq_some h <;> exact ⟨rfl, rfl⟩

theorem procStep_of_stepProc (h : s.stepProc p = some s') : ProcStep s p s' := by
  unfold PipeState.stepProc at h
  cases hpc : s.pc p with
  | idle ret =>
    rw [hpc] at h
    cases h
  | writeTop src done =>
    simp only [hpc] at h
    split at h
    · rw [PipeState.spinLock_eq_some h]
      exact .quiet hpc rfl rfl rfl (.on (fun _ h => h) rfl)
    · next hdone =>
      cases h
      exact .quiet hpc rfl rfl rfl (.finished rfl hdone)
  | writeLocked src done =>
    simp only [hpc] at h
    split at h
    · next hclosed =>
      cases h
      refine .other ?_ ?_ rfl rfl (hpc ▸ .on nofun rfl)
      all_goals simp_all [PipeState.inserts, PipeState.removes]
    · next hopen =>
      cases h
      exact .write hpc (by simpa using hopen) rfl rfl
  | writeRefused =>
    simp only [hpc] at h
    cases h
    exact .quiet hpc rfl rfl rfl .refused
  | writeUnlock | writeSleep =>
    simp only [hpc] at h
    cases h
    exact .quiet hpc rfl rfl rfl (.on (fun _ h => h) rfl)
  | writeWake src done w =>
    simp only [hpc] at h
    obtain ⟨t, ht, rfl⟩ := Option.map_eq_some_iff.mp h
    have hsame : t.ring = s.ring ∧ t.pc = s.pc := by grind [wakeOne_ring_pc]
    refine .quiet hpc rfl hsame.1 hsame.2 ?_
    split
    · exact .on (fun _ h => h) rfl
    · next hdone => exact .finished rfl hdone
  | writeYield src done =>
    simp only [hpc] at h
    obtain ⟨t, ht, rfl⟩ := Option.map_eq_some_iff.mp h
    obtain ⟨hring, hpcs⟩ := resume_ring_pc ht
    exact .quiet hpc rfl hring hpcs (.on (fun _ h => h) rfl)
  | readTop | closeTop =>
    simp only [hpc] at h
    rw [PipeState.spinLock_eq_some h]
    exact .quiet hpc rfl rfl rfl (.on nofun rfl)
  | readLocked n =>
    simp only [hpc] at h
    cases h
    exact .read hpc rfl rfl
  | readUnlock | readSleep | closeLocked | closeUnlock =>
    simp only [hpc] at h
    cases h
    exact .quiet hpc rfl rfl rfl (.on nofun rfl)
  | readDone n bytes closed =>
    simp only [hpc] at h
    split at h
    · obtain ⟨t, ht, rfl⟩ := Option.map_eq_some_iff.mp h
      obtain ⟨hring, hpcs⟩ := wakeOne_ring_pc ht
      exact .quiet hpc rfl hring hpcs (.on nofun rfl)
    · split at h
      · cases h
        exact .quiet hpc rfl rfl rfl (.on nofun rfl)
      · cases h
        exact .quiet hpc rfl rfl rfl (.on nofun rfl)
  | readYield n =>
    simp only [hpc] at h
    obtain ⟨t, ht, rfl⟩ := Option.map_eq_some_iff.mp h
    obtain ⟨hring, hpcs⟩ := resume_ring_pc ht
    exact .quiet hpc rfl hring hpcs (.on nofun rfl)
  | closeWake e =>
    simp only [hpc] at h
    split at h
    · cases h
      cases e <;> exact .quiet hpc rfl rfl rfl (.on nofun rfl)
    · obtain ⟨t, ht, rfl⟩ := Option.map_eq_some_iff.mp h
      obtain ⟨hring, hpcs⟩ := wakeOne_ring_pc ht
      exact .quiet hpc rfl hring hpcs (.on nofun rfl)

end Steps

/-! ## The invariant along a run -/

theorem addSent_nil (calls : List WriteCall) : addSent [] none calls = calls := by
  cases calls with
  | nil => rfl
  | cons c calls => rw [addSent, List.append_nil, Option.none_or]

theorem map_sent_addSent (ret : Option RivI32) (calls : List WriteCall) :
    (addSent [] ret calls).map WriteCall.sent = calls.map WriteCall.sent := by
  cases calls with
  | nil => rfl
  | cons c calls => rw [addSent, List.append_nil, List.map_cons, List.map_cons]

theorem GoesOn.calls {pc pc' : PipePc} {calls : List WriteCall} (hgo : GoesOn pc pc')
    (htracks : Tracks pc calls) (hcalls : ∀ c ∈ calls, c.Ok) :
    Tracks pc' (addSent [] pc'.writeRet calls) ∧ ∀ c ∈ addSent [] pc'.writeRet calls, c.Ok := by
  cases hgo with
  | on h hret =>
    rw [hret, addSent_nil]
    exact ⟨fun src k hk => htracks src k (h _ hk), hcalls⟩
  | finished h hdone =>
    obtain ⟨-, rest, rfl⟩ := htracks _ _ h
    obtain ⟨hc, hrest⟩ := List.forall_mem_cons.mp hcalls
    refine ⟨nofun, List.forall_mem_cons.mpr ⟨⟨?_, fun _ _ => Or.inr ?_⟩, hrest⟩⟩
    · simpa using hc.source
    · simpa using Nat.not_lt.mp hdone
  | refused =>
    refine ⟨nofun, ?_⟩
    cases calls with
    | nil => exact nofun
    | cons c calls =>
      obtain ⟨hc, hrest⟩ := List.forall_mem_cons.mp hcalls
      refine List.forall_mem_cons.mpr ⟨⟨?_, fun rc hrc => Or.inl ?_⟩, hrest⟩
      · simpa using hc.source
      · simpa [PipePc.writeRet] using hrc.symm

section Runs

variable [DecidableEq P] {l : PipeLog P} {p : P}

theorem insertedBy_append (bytes : List RivU8) (q : P) :
    ((l.inserted ++ bytes.map fun b => (p, b)).filter fun x => x.1 = q).map Prod.snd =
      l.insertedBy q ++ if q = p then bytes else [] := by
  rw [List.filter_append, List.map_append, PipeLog.insertedBy]
  congr 1
  by_cases hq : q = p
  · subst hq
    rw [if_pos rfl, List.filter_eq_self.mpr (by simp), List.map_map]
    exact List.map_id _
  · rw [if_neg hq, List.filter_eq_nil_iff.mpr (by simpa using fun _ _ => Ne.symm hq)]
    rfl

theorem LogOk.update {s : PipeState P} {bytes removed : List RivU8} {calls : List WriteCall}
    {pc : PipePc} (h : LogOk l) (hpc : s.pc = Function.update l.pipe.pc p pc)
    (hring : ∃ pushed, pushed.map Prod.snd = l.inserted.map Prod.snd ++ bytes ∧
      RingOk 8 s.ring pushed removed) (horder : (calls.reverse.map WriteCall.sent).flatten =
      ((l.writes p).reverse.map WriteCall.sent).flatten ++ bytes)
    (hcalls : ∀ c ∈ calls, c.Ok) (htracks : Tracks pc calls) :
    LogOk ⟨s, l.inserted ++ bytes.map fun b => (p, b), removed,
      Function.update l.writes p calls⟩ := by
  constructor
  · simp_all
  · intro q
    refine (insertedBy_append bytes q).trans ?_
    by_cases hq : q = p
    · subst hq
      simp only [if_pos, Function.update_self]
      rw [horder, h.order]
    simp [hq, h.order]
  · intro q
    by_cases hq : q = p
    · grind
    · simpa only [Function.update_of_ne hq] using h.calls q
  · intro q
    by_cases hq : q = p
    · simp_all
    · simpa only [hpc, Function.update_of_ne hq] using h.tracks q

theorem LogOk.procStep {s : PipeState P} (h : LogOk l) (hstep : ProcStep l.pipe p s) :
    LogOk ⟨s, l.inserted ++ (l.pipe.inserts p).map fun b => (p, b),
      l.removed ++ l.pipe.removes p, Function.update l.writes p
        (addSent (l.pipe.inserts p) (s.pc p).writeRet (l.writes p))⟩ := by
  obtain ⟨pushed, hpushed, hring⟩ := h.ring
  cases hstep with
  | write hpc hopen hr hpc' =>
    next src done =>
    have hinserts : l.pipe.inserts p =
        (src.drop done).take (rivRingWrite l.pipe.ring (src.drop done)).1 := by
      simp_all [PipeState.inserts]
    have hremoves : l.pipe.removes p = [] := by rw [PipeState.removes, hpc]
    obtain ⟨placed, hplaced, hok, hle, -⟩ := hring.ringWrite (src.drop done)
    obtain ⟨hdone, rest, hcalls⟩ := h.tracks p src done (by rw [hpc]; rfl)
    have hrest := (List.forall_mem_cons.mp (hcalls ▸ h.calls p)).2
    rw [List.length_drop] at hle
    rw [hremoves, List.append_nil]
    -- the bytes of the call so far and those of the transfer are adjacent
    have hsent := List.take_add (l := src) (i := done)
      (j := (rivRingWrite l.pipe.ring (src.drop done)).1)
    have hret : (s.pc p).writeRet = none := by
      rw [hpc', Function.update_self]
      rfl
    have hnew : addSent (l.pipe.inserts p) (s.pc p).writeRet (l.writes p) =
        ⟨src, src.take (done + (rivRingWrite l.pipe.ring (src.drop done)).1), none⟩ ::
          rest := by
      rw [hcalls, hret, hinserts, addSent, hsent]
      rfl
    rw [hnew]
    refine h.update hpc' ⟨pushed ++ placed, ?_, hr ▸ hok⟩ ?_ ?_ ?_
    · rw [List.map_append, hpushed, hplaced, hinserts]
    · grind
    · exact List.forall_mem_cons.mpr ⟨⟨List.take_prefix .., nofun⟩, hrest⟩
    · rintro src' k hk
      cases hk
      exact ⟨by omega, rest, rfl⟩
  | read hpc hr hpc' =>
    next n =>
    have hinserts : l.pipe.inserts p = [] := by rw [PipeState.inserts, hpc]
    have hremoves : l.pipe.removes p = (rivRingRead l.pipe.ring n).1 := by
      rw [PipeState.removes, hpc]
    have hret : (s.pc p).writeRet = none := by
      rw [hpc', Function.update_self]
      rfl
    rw [hinserts, hremoves, hret, addSent_nil]
    refine h.update hpc' ⟨pushed, ?_, hr ▸ (hring.ringRead n).1⟩ ?_ (h.calls p) nofun
    all_goals simp [hpushed]
  | other hinserts hremoves hr hpc' hgo =>
    next pc' =>
    have hpc : s.pc p = pc' := by rw [hpc', Function.update_self]
    obtain ⟨htracks, hcalls⟩ := hgo.calls (h.tracks p) (h.calls p)
    rw [hinserts, hremoves, hpc]
    refine h.update hpc' ⟨pushed, ?_, ?_⟩ ?_ hcalls htracks
    all_goals simp_all [map_sent_addSent]

theorem LogOk.call (h : LogOk l) (op : PipeOp) :
    LogOk { l with
      pipe := l.pipe.goto p op.entry
      writes := Function.update l.writes p (op.newWrite ++ l.writes p) } := by
  have hcalls : ∀ c ∈ op.newWrite ++ l.writes p, c.Ok := by
    intro c hc
    rcases List.mem_append.mp hc with hnew | hold
    · cases op with
      | write src =>
        rw [List.mem_singleton.mp hnew]
        exact ⟨List.nil_prefix, nofun⟩
      | read n => cases hnew
      | close => cases hnew
    · exact h.calls p c hold
  have htracks : Tracks op.entry (op.newWrite ++ l.writes p) := by
    intro src k hk
    cases op with
    | write src =>
      cases hk
      exact ⟨Nat.zero_le _, l.writes p, rfl⟩
    | read n => cases hk
    | close => cases hk
  have hring : ∃ pushed, pushed.map Prod.snd = l.inserted.map Prod.snd ++ [] ∧
      RingOk 8 (l.pipe.goto p op.entry).ring pushed l.removed := by
    rw [List.append_nil]
    exact h.ring
  have horder : ((op.newWrite ++ l.writes p).reverse.map WriteCall.sent).flatten =
      ((l.writes p).reverse.map WriteCall.sent).flatten ++ [] := by
    cases op <;> simp [PipeOp.newWrite]
  simpa using h.update rfl hring horder hcalls htracks

theorem LogOk.back {pc : PipePc} (h : LogOk l) (hpc : (l.pipe.pc p).back = some pc) :
    LogOk { l with pipe := l.pipe.goto p pc } := by
  refine ⟨h.ring, h.order, h.calls, fun q => ?_⟩
  by_cases hq : q = p
  · subst hq
    have htracks := h.tracks q
    simp only [PipeState.goto, Function.update_self]
    cases hold : l.pipe.pc q <;> rw [hold] at hpc htracks <;> cases hpc <;> exact htracks
  · simpa only [PipeState.goto, Function.update_of_ne hq] using h.tracks q

variable [Fintype P]

theorem LogOk.step {l' : PipeLog P} {a : LogAction P} (h : LogOk l) (hstep : l.step a = some l') :
    LogOk l' := by
  cases a with
  | act a =>
    cases a with
    | call p op =>
      obtain ⟨s, hs, rfl⟩ := Option.map_eq_some_iff.mp hstep
      simp only [PipeState.step] at hs
      split at hs
      · cases hs
        exact h.call op
      · cases hs
    | step p =>
      obtain ⟨s, hs, rfl⟩ := Option.map_eq_some_iff.mp hstep
      exact h.procStep (procStep_of_stepProc hs)
  | back p =>
    obtain ⟨pc, hpc, rfl⟩ := Option.map_eq_some_iff.mp hstep
    exact h.back hpc

/-- Along every run of any number of readers and writers, the bytes are delivered
exactly once and in order. -/
theorem pipe_delivered (buf : ℕ → RivU8) (as : List (LogAction P)) :
    Always PipeLog.step Delivered (PipeLog.start buf) as :=
  always_of_meets (fun _ _ _ h _ hstep => LogOk.step h hstep) (fun _ => LogOk.delivered)
    (logOk_start buf) (meets_of_forall (fun _ _ => trivial) _ _)

end Runs

example : (exec PipeLog.step (PipeLog.start fun _ => 0) (handByte.map .act)).map
    (fun l => (l.inserted, l.removed)) = some ([(true, 7)], [7]) := by decide

end Rivet.Sync
