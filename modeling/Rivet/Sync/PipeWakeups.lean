import Rivet.Sync.Pipe

/-!
# Wake-ups of the pipe

Between its look at the ring and its entry into a wait queue a process holds no
lock, and a wake-up in between finds it in no queue.  If every process that goes
to sleep still has reason to, no wake-up is lost: whenever the waiters of one end
could make progress, some process is awake and will wake one of them, or is about
to look at the ring itself.
-/

namespace Rivet.Sync

open Runs Function List

variable {e : PipeEnd}

variable {P : Type}

/-- If every process sleeps, the ring is empty if a reader waits, full if a
writer waits, and the pipe is open if anybody waits. -/
def NoLostWakeup (s : PipeState P) : Prop :=
  (∀ p, s.asleep p = true) →
    (∀ p ∈ s.queue .reader, rivRingEmpty s.ring = true ∧ s.closed = false) ∧
      ∀ p ∈ s.queue .writer, rivRingFull s.ring = true ∧ s.closed = false

theorem noLostWakeup_of_not_ready {s : PipeState P} (h : (∀ p, s.asleep p = true) →
      s.closed = false ∧ ∀ e, s.queue e ≠ [] → s.ring.ready e = false) : NoLostWakeup s := by
  intro hall
  grind [Ring.ready]

def PipePc.staysBlocked (s : PipeState P) : PipePc → Bool
  | .readSleep _ => rivRingEmpty s.ring && !s.closed
  | .writeSleep _ _ => rivRingFull s.ring && !s.closed
  | _ => true

/-- A process that enters a wait queue does so while it has reason to wait. -/
def SleepsInTime (s : PipeState P) : PipeAction P → Prop
  | .call _ _ => True
  | .step p => (s.pc p).staysBlocked s = true

instance (s : PipeState P) : (a : PipeAction P) → Decidable (SleepsInTime s a)
  | .call _ _ => isTrue trivial
  | .step _ => inferInstanceAs (Decidable (_ = true))

/-! ## While the scheduler works -/

def PipePc.waitsOn : PipePc → Option PipeEnd
  | .readYield _ => some .reader
  | .writeYield _ _ => some .writer
  | _ => none

def PipePc.Ok (closed : Bool) : PipePc → Prop
  | .writeLocked src done | .writeSleep src done | .writeYield src done => done < src.length
  | .readUnlock _ _ seen | .readDone _ _ seen => seen = true → closed = true
  | _ => True

/-- An awake process at this place will wake a waiter of the end `e`, or is one
that will look at the ring again. -/
def PipePc.serves : PipeEnd → PipePc → Bool
  | .reader, .writeUnlock _ _ w | .reader, .writeWake _ _ w => 0 < w
  | .reader, .readUnlock _ bytes _ | .reader, .readDone _ bytes _ => bytes = []
  | .reader, .readTop _ | .reader, .readLocked _ | .reader, .readSleep _
  | .reader, .readYield _ => true
  | .writer, .readUnlock _ bytes _ | .writer, .readDone _ bytes _ => bytes ≠ []
  | .writer, .writeTop src done => done < src.length
  | .writer, .writeLocked _ _ | .writer, .writeYield _ _ => true
  | _, _ => false

/-- The invariant as long as nobody keeps the lock of the scheduler.  If an end
could make progress and has waiters, some process is awake, and either it serves
that end or the other end could make progress too, so that it will not sleep. -/
structure PipeOk (s : PipeState P) : Prop where
  ring : s.ring.Sound
  pc : ∀ p, (s.pc p).Ok s.closed
  nodup : ∀ e, (s.queue e).Nodup
  queued : ∀ e, ∀ p ∈ s.queue e, s.asleep p = true ∧ (s.pc p).waitsOn = some e
  asleep : ∀ p, s.asleep p = true → ∃ e, p ∈ s.queue e
  served : ∀ e, s.closed = false → s.ring.ready e = true → s.queue e ≠ [] →
    ∃ p, s.asleep p = false ∧ ((s.pc p).serves e = true ∨ s.ring.ready e.other = true)
  awake : s.closed = true → ∃ p, s.asleep p = false

section Running

variable {s : PipeState P} {p : P} {pc : PipePc}

theorem PipeOk.awake_of_waitsOn (h : PipeOk s) (hpc : (s.pc p).waitsOn = none) :
    s.asleep p = false := by
  by_contra hsleep
  obtain ⟨e, hmem⟩ := h.asleep p (by simpa using hsleep)
  rw [(h.queued e p hmem).2] at hpc
  cases hpc

theorem PipeOk.not_ready (h : PipeOk s) (hall : ∀ p, s.asleep p = true) :
    s.closed = false ∧ ∀ e, s.queue e ≠ [] → s.ring.ready e = false := by
  have hnone : ¬∃ p, s.asleep p = false := by
    rintro ⟨p, hp⟩
    rw [hall p] at hp
    cases hp
  have hopen : s.closed = false := by
    rw [← Bool.not_eq_true]
    exact fun hclosed => hnone (h.awake hclosed)
  refine ⟨hopen, fun e hne => ?_⟩
  rw [← Bool.not_eq_true]
  intro hready
  obtain ⟨p, hp, -⟩ := h.served e hopen hready hne
  exact hnone ⟨p, hp⟩

theorem PipeOk.noLostWakeup (h : PipeOk s) : NoLostWakeup s :=
  noLostWakeup_of_not_ready h.not_ready

theorem PipeOk.withGuard (h : PipeOk s) (g : Option P) : PipeOk { s with guard := g } :=
  ⟨h.ring, h.pc, h.nodup, h.queued, h.asleep, h.served, h.awake⟩

variable [DecidableEq P]

theorem PipeOk.pc_goto (h : PipeOk s) (hpc : pc.Ok s.closed) (q : P) :
    (update s.pc p pc q).Ok s.closed :=
  (forall_update_iff s.pc fun _ pc => pc.Ok s.closed).mpr
    ⟨hpc, fun q _ => h.pc q⟩ q

theorem PipeOk.queued_goto (h : PipeOk s) (hp : s.asleep p = false) (e : PipeEnd) (q : P)
    (hq : q ∈ s.queue e) : s.asleep q = true ∧ (update s.pc p pc q).waitsOn = some e := by
  obtain ⟨hsleep, hwaits⟩ := h.queued e q hq
  grind

theorem PipeOk.move (h : PipeOk s) (hp : s.asleep p = false) (hpc : pc.Ok s.closed)
    (hserves : ∀ e, s.queue e ≠ [] → s.closed = false → s.ring.ready e = true →
      (s.pc p).serves e = true →
        pc.serves e = true ∨ ∃ q, q ≠ p ∧ s.asleep q = false ∧ (s.pc q).serves e = true) :
    PipeOk (s.goto p pc) where
  ring := h.ring
  pc := h.pc_goto hpc
  nodup := h.nodup
  queued := h.queued_goto hp
  asleep := h.asleep
  served e hopen hready hne := by
    have hother : ∀ q, q ≠ p → (s.pc q).serves e = true →
        (update s.pc p pc q).serves e = true := by
      intro q hq hs
      rwa [update_of_ne hq]
    obtain ⟨q, hq, hserve | hready'⟩ := h.served e hopen hready hne
    · by_cases hqp : q = p
      · rw [hqp] at hserve
        obtain hpc | ⟨q', hne', hq', hserve'⟩ := hserves e hne hopen hready hserve
        · refine ⟨p, hp, .inl ?_⟩
          change (update s.pc p pc p).serves e = true
          rwa [update_self]
        · exact ⟨q', hq', .inl (hother q' hne' hserve')⟩
      · exact ⟨q, hq, .inl (hother q hqp hserve)⟩
    · exact ⟨q, hq, .inr hready'⟩
  awake := h.awake

theorem PipePc.serves_of_not {old : PipePc} {Q : Prop} (h : old.serves e = false) :
    Q → old.serves e = true → pc.serves e = true := by
  intro _ hserve
  rw [h] at hserve
  cases hserve

theorem PipeOk.goto {old : PipePc} (h : PipeOk s) (hold : s.pc p = old) (pc : PipePc)
    (hwaits : old.waitsOn = none) (hpc : pc.Ok s.closed)
    (hreader : s.closed = false → old.serves .reader = true → pc.serves .reader = true)
    (hwriter : s.closed = false → old.serves .writer = true → pc.serves .writer = true)
    (g : Option P) : PipeOk ({ s with guard := g }.goto p pc) := by
  refine (h.withGuard g).move (h.awake_of_waitsOn (by rw [hold, hwaits])) hpc ?_
  intro e _ hopen _ hserve
  rw [hold] at hserve
  cases e with
  | reader => exact .inl (hreader hopen hserve)
  | writer => exact .inl (hwriter hopen hserve)

theorem PipeOk.transfer {r : Ring} (h : PipeOk s) (hr : r.Sound) (hp : s.asleep p = false)
    (hpc : pc.Ok s.closed)
    (hserves : ∀ e, pc.serves e = true ∨ r.ready e.other = true) :
    PipeOk ({ s with ring := r }.goto p pc) where
  ring := hr
  pc := h.pc_goto hpc
  nodup := h.nodup
  queued := h.queued_goto hp
  asleep := h.asleep
  served e _ _ _ := by
    refine ⟨p, hp, ?_⟩
    change (update s.pc p pc p).serves e = true ∨ _
    rw [update_self]
    exact hserves e
  awake _ := ⟨p, hp⟩

theorem PipeOk.write {src : List RivU8} {done : ℕ} (h : PipeOk s)
    (hpc : s.pc p = .writeLocked src done) :
    PipeOk ({ s with ring := (rivRingWrite s.ring (src.drop done)).2 }.goto p
      (.writeUnlock src done (rivRingWrite s.ring (src.drop done)).1)) := by
  have hp : s.asleep p = false := h.awake_of_waitsOn (by rw [hpc]; rfl)
  have hlt : done < src.length := by
    have hlocals := h.pc p
    rwa [hpc] at hlocals
  rcases Nat.eq_zero_or_pos (rivRingWrite s.ring (src.drop done)).1 with hzero | hpos
  · -- nothing was written: the ring is full and stays as it is
    have hfull : s.ring.ready .writer = false := by
      rw [← rivRingWrite_zero hzero]
      refine h.ring.full_of_write ?_
      rw [hzero, length_drop]
      omega
    rw [rivRingWrite_zero hzero, hzero]
    refine h.move hp trivial ?_
    intro e _ _ hready hserve
    rw [hpc] at hserve
    cases e with
    | reader => cases hserve
    | writer =>
      rw [hfull] at hready
      cases hready
  · refine h.transfer (h.ring.write _) hp trivial ?_
    intro e
    cases e with
    | reader => exact .inl (decide_eq_true hpos)
    | writer => exact .inr (h.ring.ready_of_write hpos)

theorem PipeOk.read {n : ℕ} (h : PipeOk s) (hpc : s.pc p = .readLocked n) :
    PipeOk ({ s with ring := (rivRingRead s.ring n).2 }.goto p
      (.readUnlock n (rivRingRead s.ring n).1 s.closed)) := by
  have hp : s.asleep p = false := h.awake_of_waitsOn (by rw [hpc]; rfl)
  by_cases hnil : (rivRingRead s.ring n).1 = []
  · rw [rivRingRead_nil hnil, hnil]
    refine h.move hp id ?_
    intro e _ _ _ hserve
    rw [hpc] at hserve
    cases e with
    | reader => exact .inl rfl
    | writer => cases hserve
  · refine h.transfer (h.ring.read _) hp id ?_
    intro e
    cases e with
    | reader => exact .inr (h.ring.ready_of_read hnil)
    | writer => exact .inl (decide_eq_true hnil)

theorem PipePc.Ok.close {closed : Bool} (h : pc.Ok closed) : pc.Ok true := by
  cases pc <;> first | exact h | exact fun _ => rfl

theorem PipeOk.close (h : PipeOk s) (hp : s.asleep p = false) (hpc : pc.Ok true) :
    PipeOk ({ s with closed := true }.goto p pc) where
  ring := h.ring
  pc := (forall_update_iff s.pc fun _ pc => pc.Ok true).mpr
    ⟨hpc, fun q _ => (h.pc q).close⟩
  nodup := h.nodup
  queued := h.queued_goto hp
  asleep := h.asleep
  served _ hopen := nomatch hopen
  awake _ := ⟨p, hp⟩

theorem serves_of_waitsOn (h : pc.waitsOn = some e) : pc.serves e = true := by
  cases pc <;> cases h <;> rfl

theorem PipeOk.wake {q : P} {rest : List P} (h : PipeOk s) (hqueue : s.queue e = q :: rest) :
    PipeOk (s.wake e q rest) := by
  have hmem : q ∈ s.queue e := hqueue ▸ mem_cons_self
  have hwaits := (h.queued e q hmem).2
  have hnotin : q ∉ rest := (nodup_cons.mp (hqueue ▸ h.nodup e)).1
  -- the woken process is in no other queue, since it waits on `e`
  have hkept : ∀ e' q', q' ∈ (s.wake e q rest).queue e' → q' ∈ s.queue e' ∧ q' ≠ q := by
    intro e' q' hq'
    change q' ∈ update s.queue e rest e' at hq'
    by_cases he : e' = e
    · grind
    rw [update_of_ne he] at hq'
    refine ⟨hq', ?_⟩
    rintro rfl
    have hwaits' := (h.queued e' q' hq').2
    grind
  have hawake : (s.wake e q rest).asleep q = false := update_self _ _ _
  refine { ring := h.ring, pc := h.pc, nodup := ?_, queued := ?_, asleep := ?_,
           served := ?_, awake := fun _ => ⟨q, hawake⟩ }
  · exact (forall_update_iff s.queue fun _ queue => queue.Nodup).mpr
      ⟨(nodup_cons.mp (hqueue ▸ h.nodup e)).2, fun e' _ => h.nodup e'⟩
  · intro e' q' hq'
    obtain ⟨hq', hne⟩ := hkept e' q' hq'
    obtain ⟨hsleep, hwaits'⟩ := h.queued e' q' hq'
    refine ⟨?_, hwaits'⟩
    change update s.asleep q false q' = true
    rwa [update_of_ne hne]
  · intro q' hq'
    change update s.asleep q false q' = true at hq'
    by_cases hne : q' = q
    · rw [hne, update_self] at hq'
      cases hq'
    rw [update_of_ne hne] at hq'
    obtain ⟨e', hmem'⟩ := h.asleep q' hq'
    refine ⟨e', ?_⟩
    change q' ∈ update s.queue e rest e'
    grind
  · intro e' hopen hready hne
    by_cases he : e' = e
    · rw [he]
      exact ⟨q, hawake, .inl (serves_of_waitsOn hwaits)⟩
    change update s.queue e rest e' ≠ [] at hne
    rw [update_of_ne he] at hne
    obtain ⟨q', hq', hserve⟩ := h.served e' hopen hready hne
    refine ⟨q', ?_, hserve⟩
    change update s.asleep q false q' = false
    grind

theorem PipeOk.wakeOne {s' : PipeState P} (h : PipeOk s) (pc : PipePc)
    (hwake : s.wakeOne e = some s') (hp : s.asleep p = false) (hpc : pc.Ok s.closed)
    (hserves : ∀ e', e' ≠ e → (s.pc p).serves e' = true → pc.serves e' = true) :
    PipeOk (s'.goto p pc) ∧ s'.schedLock = s.schedLock := by
  unfold PipeState.wakeOne at hwake
  cases hqueue : s.queue e with
  | nil =>
    rw [hqueue] at hwake
    cases hwake
    refine ⟨h.move hp hpc fun e' hne _ _ hserve => .inl (hserves e' ?_ hserve), rfl⟩
    rintro rfl
    exact hne hqueue
  | cons q rest =>
    simp only [hqueue] at hwake
    split at hwake
    · cases hwake
    cases hwake
    obtain ⟨hsleep, hwaits⟩ := h.queued e q (hqueue ▸ mem_cons_self)
    have hqp : q ≠ p := by grind
    have hawake : (s.wake e q rest).asleep q = false := update_self _ _ _
    have hp' : (s.wake e q rest).asleep p = false :=
      (update_of_ne hqp.symm _ _).trans hp
    refine ⟨(h.wake hqueue).move hp' hpc fun e' _ _ _ hserve => ?_, rfl⟩
    by_cases he : e' = e
    · rw [he]
      exact .inr ⟨q, hqp, hawake, serves_of_waitsOn hwaits⟩
    · exact .inl (hserves e' he hserve)

theorem PipeOk.sleep (h : PipeOk s) (hp : s.asleep p = false) (hopen : s.closed = false)
    (hready : s.ring.ready e = false) (hnot : (s.pc p).serves e.other = false)
    (hpc : pc.Ok s.closed) (hwaits : pc.waitsOn = some e) :
    PipeOk ((s.enqueue p e).goto p pc) := by
  have hnotin : ∀ e', p ∉ s.queue e' := by
    intro e' hmem
    have hsleep := (h.queued e' p hmem).1
    rw [hp] at hsleep
    cases hsleep
  have hqueue : (s.enqueue p e).queue = update s.queue e (s.queue e ++ [p]) := by
    unfold PipeState.enqueue
    simp only [erase_of_not_mem (hnotin _)]
  have hmem : ∀ e' q, q ∈ update s.queue e (s.queue e ++ [p]) e' →
      q ∈ s.queue e' ∨ q = p ∧ e' = e := by grind
  refine { ring := h.ring, pc := h.pc_goto hpc, nodup := ?_, queued := ?_, asleep := ?_,
           served := ?_, awake := fun hclosed => ?_ }
  · change ∀ e', ((s.enqueue p e).queue e').Nodup
    rw [hqueue]
    refine (forall_update_iff s.queue fun _ queue => queue.Nodup).mpr
      ⟨?_, fun e' _ => h.nodup e'⟩
    rw [← concat_eq_append]
    exact (h.nodup e).concat (hnotin e)
  · intro e' q hq
    change q ∈ (s.enqueue p e).queue e' at hq
    rw [hqueue] at hq
    change update s.asleep p true q = true ∧
      (update s.pc p pc q).waitsOn = some e'
    obtain hq | ⟨rfl, rfl⟩ := hmem e' q hq
    · have hold : s.asleep q = true ∧ (update s.pc p pc q).waitsOn = some e' :=
        h.queued_goto hp e' q hq
      grind
    grind
  · intro q hq
    change update s.asleep p true q = true at hq
    change ∃ e', q ∈ (s.enqueue p e).queue e'
    rw [hqueue]
    by_cases hqp : q = p
    · exact ⟨e, by rw [update_self, hqp]; exact mem_concat_self⟩
    · rw [update_of_ne hqp] at hq
      obtain ⟨e', hq⟩ := h.asleep q hq
      grind
  · intro e' _ hready' hne
    change s.ring.ready e' = true at hready'
    have he : e' ≠ e := by grind
    change (s.enqueue p e).queue e' ≠ [] at hne
    rw [hqueue, update_of_ne he] at hne
    have hother : e'.other = e := by cases e' <;> cases e <;> first | rfl | exact absurd rfl he
    have hother' : e.other = e' := by cases e' <;> cases e <;> first | rfl | exact absurd rfl he
    obtain ⟨q, hq, hserve⟩ := h.served e' hopen hready' hne
    rw [hother, hready] at hserve
    have hserve := hserve.resolve_right Bool.false_ne_true
    have hqp : q ≠ p := by grind
    refine ⟨q, ?_, .inl ?_⟩
    · change update s.asleep p true q = false
      rwa [update_of_ne hqp]
    · change (update s.pc p pc q).serves e' = true
      rwa [update_of_ne hqp]
  · change s.closed = true at hclosed
    rw [hopen] at hclosed
    cases hclosed

end Running

/-! ## After a yield that found nobody to run -/

/-- A process whose next look at the ring will send it back to sleep. -/
def PipePc.Blocked (r : Ring) : PipePc → Prop
  | .readTop _ | .readLocked _ | .readUnlock _ [] false | .readDone _ [] false
  | .readSleep _ | .readYield _ => r.ready .reader = false
  | .writeTop src done | .writeLocked src done | .writeUnlock src done 0
  | .writeWake src done 0 | .writeSleep src done | .writeYield src done =>
    done < src.length ∧ r.ready .writer = false
  | _ => False

/-- Everybody sleeps, but the last one to go to sleep has found no other process
to switch to and goes round its loop, with the lock of the scheduler taken. -/
structure PipeStuck (s : PipeState P) : Prop where
  schedLock : s.schedLock = true
  closed : s.closed = false
  asleep : ∀ p, s.asleep p = true
  blocked : ∀ p, (s.pc p).Blocked s.ring
  queued : ∀ e, s.queue e ≠ [] → s.ring.ready e = false

section Stuck

variable {s : PipeState P} {p : P} {pc : PipePc}

theorem PipeStuck.noLostWakeup (h : PipeStuck s) : NoLostWakeup s :=
  noLostWakeup_of_not_ready fun _ => ⟨h.closed, h.queued⟩

theorem PipeOk.blocked_of_waitsOn (h : PipeOk s) (hwaits : (s.pc p).waitsOn = some e)
    (hready : s.ring.ready e = false) : (s.pc p).Blocked s.ring := by
  have hok := h.pc p
  cases hpc : s.pc p <;> rw [hpc] at hwaits hok <;> cases hwaits
  · exact ⟨hok, hready⟩
  · exact hready

variable [DecidableEq P]

theorem PipeStuck.move (h : PipeStuck s) (pc : PipePc) (hpc : pc.Blocked s.ring)
    (g : Option P) :
    PipeStuck ({ s with guard := g }.goto p pc) where
  schedLock := h.schedLock
  closed := h.closed
  asleep := h.asleep
  blocked := (forall_update_iff s.pc fun _ pc => pc.Blocked s.ring).mpr
    ⟨hpc, fun q _ => h.blocked q⟩
  queued := h.queued

theorem PipeStuck.sleep (h : PipeStuck s) (pc : PipePc) (hpc : pc.Blocked s.ring)
    (hready : s.ring.ready e = false) : PipeStuck ((s.enqueue p e).goto p pc) where
  schedLock := h.schedLock
  closed := h.closed
  asleep := (forall_update_iff s.asleep fun _ asleep => asleep = true).mpr
    ⟨rfl, fun q _ => h.asleep q⟩
  blocked := (h.move pc hpc none).blocked
  queued e' hne := by
    by_cases he : e' = e
    · rw [he]
      exact hready
    refine h.queued e' fun hnil => hne ?_
    change update (fun e => (s.queue e).erase p) e _ e' = []
    rw [update_of_ne he, hnil]
    rfl

theorem PipeOk.stuck (h : PipeOk s) (hall : ∀ q, s.asleep q = true)
    (hpc : ∀ e, (s.pc p).waitsOn = some e → s.ring.ready e = false → pc.Blocked s.ring) :
    PipeStuck ({ s with schedLock := true }.goto p pc) := by
  obtain ⟨hopen, hready⟩ := h.not_ready hall
  have hwaits : ∀ q, ∃ e, (s.pc q).waitsOn = some e ∧ s.ring.ready e = false := by
    intro q
    obtain ⟨e, hmem⟩ := h.asleep q (hall q)
    exact ⟨e, (h.queued e q hmem).2, hready e (ne_nil_of_mem hmem)⟩
  refine ⟨rfl, hopen, hall, ?_, hready⟩
  refine (forall_update_iff s.pc fun _ pc => pc.Blocked s.ring).mpr ⟨?_, ?_⟩
  · obtain ⟨e, hwait, hready⟩ := hwaits p
    exact hpc e hwait hready
  · intro q _
    obtain ⟨e, hwait, hready⟩ := hwaits q
    exact h.blocked_of_waitsOn hwait hready

end Stuck

/-! ## Steps -/

def PipeInv (s : PipeState P) : Prop := (PipeOk s ∧ s.schedLock = false) ∨ PipeStuck s

theorem PipeInv.noLostWakeup {s : PipeState P} (h : PipeInv s) : NoLostWakeup s :=
  h.elim (fun h => h.1.noLostWakeup) PipeStuck.noLostWakeup

theorem pipeInv_rivPipeInit (buf : ℕ → RivU8) : PipeInv (rivPipeInit buf : PipeState P) :=
  .inl ⟨⟨sound_rivPipeInit buf, fun _ => trivial, fun _ => nodup_nil, fun _ _ => nofun,
    fun _ => nofun, fun _ _ _ hne => absurd rfl hne, nofun⟩, rfl⟩

section Execution

variable [DecidableEq P] {s s' : PipeState P} {p : P} {pc : PipePc}

theorem PipeState.spinLock_eq_some (h : s.spinLock p pc = some s') :
    s' = { s with guard := some p }.goto p pc := by
  unfold PipeState.spinLock at h
  grind

variable [Fintype P]

theorem PipeState.resume_eq_some (h : s.resume p = some s') :
    s.schedLock = false ∧ (s.asleep p = false ∧ s' = s ∨
      (∀ q, s.asleep q = true) ∧ s' = { s with schedLock := true }) := by
  unfold PipeState.resume at h
  split at h
  all_goals grind

theorem PipeOk.resume (h : PipeOk s)
    (hstep : (s.resume p).map (fun s' => s'.goto p pc) = some s') (hpc : pc.Ok s.closed)
    (hserves : ∀ e, (s.pc p).serves e = true → pc.serves e = true)
    (hblocked : ∀ e, (s.pc p).waitsOn = some e → s.ring.ready e = false →
      pc.Blocked s.ring) : PipeInv s' := by
  obtain ⟨s1, hresume, rfl⟩ := Option.map_eq_some_iff.mp hstep
  obtain ⟨hsched, ⟨hawake, rfl⟩ | ⟨hall, rfl⟩⟩ := PipeState.resume_eq_some hresume
  · exact .inl ⟨h.move hawake hpc fun e _ _ _ hs => .inl (hserves e hs), hsched⟩
  · exact .inr (h.stuck hall hblocked)

theorem PipeOk.stepProc (h : PipeOk s) (hsched : s.schedLock = false)
    (hok : (s.pc p).staysBlocked s = true) (hstep : s.stepProc p = some s') : PipeInv s' := by
  have hlocals := h.pc p
  unfold PipeState.stepProc at hstep
  cases hpc : s.pc p with
  | idle ret =>
    rw [hpc] at hstep
    cases hstep
  | writeTop src done =>
    simp only [hpc] at hstep
    split at hstep
    · next hlt =>
      rw [PipeState.spinLock_eq_some hstep]
      exact .inl ⟨h.goto hpc (.writeLocked src done) rfl hlt (PipePc.serves_of_not rfl) (fun _ _ => rfl) _, hsched⟩
    · next hge =>
      cases hstep
      exact .inl ⟨h.goto hpc (.idle _) rfl trivial (PipePc.serves_of_not rfl)
        (fun _ hserve => absurd (of_decide_eq_true hserve) hge) _, hsched⟩
  | writeLocked src done =>
    simp only [hpc] at hstep
    split at hstep
    · next hclosed =>
      cases hstep
      exact .inl ⟨h.goto hpc .writeRefused rfl trivial (PipePc.serves_of_not rfl)
        (fun hopen => absurd hclosed (Bool.not_eq_true _ ▸ hopen)) _, hsched⟩
    · cases hstep
      exact .inl ⟨h.write hpc, hsched⟩
  | writeRefused =>
    rw [hpc] at hstep
    cases hstep
    exact .inl ⟨h.goto hpc (.idle _) rfl trivial (PipePc.serves_of_not rfl) (PipePc.serves_of_not rfl) _, hsched⟩
  | writeUnlock src done w =>
    rw [hpc] at hstep
    cases hstep
    exact .inl ⟨h.goto hpc (.writeWake src (done + w) w) rfl trivial (fun _ => id) (PipePc.serves_of_not rfl) _, hsched⟩
  | writeWake src done w =>
    simp only [hpc] at hstep
    obtain ⟨s1, hwake, rfl⟩ := Option.map_eq_some_iff.mp hstep
    have hnext : (if done < src.length then PipePc.writeSleep src done
        else .idle (some (.write (BitVec.ofNat 32 done)))).Ok s.closed := by
      split
      · next hlt => exact hlt
      · exact trivial
    split at hwake
    · have hp := h.awake_of_waitsOn (by rw [hpc]; rfl)
      obtain ⟨hok, hlock⟩ := h.wakeOne _ hwake hp hnext fun e he hserve => by
        rw [hpc] at hserve
        cases e with
        | reader => exact absurd rfl he
        | writer => cases hserve
      exact .inl ⟨hok, hlock.trans hsched⟩
    · next hzero =>
      cases hwake
      exact .inl ⟨h.goto hpc _ rfl hnext
        (fun _ hserve => absurd (of_decide_eq_true hserve) hzero) (PipePc.serves_of_not rfl) _, hsched⟩
  | writeSleep src done =>
    rw [hpc] at hstep hok hlocals
    cases hstep
    rw [PipePc.staysBlocked, Bool.and_eq_true, Bool.not_eq_true'] at hok
    have hp := h.awake_of_waitsOn (by rw [hpc]; rfl)
    refine .inl ⟨h.sleep hp hok.2 ?_ (by rw [hpc]; rfl) hlocals rfl, hsched⟩
    rw [Ring.ready, hok.1]
    rfl
  | writeYield src done =>
    rw [hpc] at hstep hlocals
    refine h.resume hstep trivial ?_ ?_
    · intro e hserve
      rw [hpc] at hserve
      cases e with
      | reader => cases hserve
      | writer => exact decide_eq_true hlocals
    · intro e hwaits hready
      rw [hpc] at hwaits
      cases hwaits
      exact ⟨hlocals, hready⟩
  | readTop n =>
    rw [hpc] at hstep
    rw [PipeState.spinLock_eq_some hstep]
    exact .inl ⟨h.goto hpc (.readLocked n) rfl trivial (fun _ => id) (PipePc.serves_of_not rfl) _, hsched⟩
  | readLocked n =>
    rw [hpc] at hstep
    cases hstep
    exact .inl ⟨h.read hpc, hsched⟩
  | readUnlock n bytes seen =>
    rw [hpc] at hstep hlocals
    cases hstep
    exact .inl ⟨h.goto hpc (.readDone n bytes seen) rfl hlocals (fun _ => id) (fun _ => id) _, hsched⟩
  | readDone n bytes seen =>
    simp only [hpc] at hstep hlocals
    split at hstep
    · next hsome =>
      obtain ⟨s1, hwake, rfl⟩ := Option.map_eq_some_iff.mp hstep
      have hp := h.awake_of_waitsOn (by rw [hpc]; rfl)
      obtain ⟨hok, hlock⟩ := h.wakeOne (.idle (some (.read bytes))) hwake hp trivial
        fun e he hserve => by
          rw [hpc] at hserve
          cases e with
          | reader => exact absurd (of_decide_eq_true hserve) hsome
          | writer => exact absurd rfl he
      exact .inl ⟨hok, hlock.trans hsched⟩
    · next hnil =>
      split at hstep
      · next hseen =>
        -- the pipe was closed when the process looked, and is closed still
        cases hstep
        exact .inl ⟨h.goto hpc (.idle _) rfl trivial
          (fun hopen => absurd (hlocals hseen) (Bool.not_eq_true _ ▸ hopen))
          (fun _ hserve => absurd (of_decide_eq_true hserve) hnil) _, hsched⟩
      · cases hstep
        exact .inl ⟨h.goto hpc (.readSleep n) rfl trivial (fun _ _ => rfl)
          (fun _ hserve => absurd (of_decide_eq_true hserve) hnil) _, hsched⟩
  | readSleep n =>
    rw [hpc] at hstep hok
    cases hstep
    rw [PipePc.staysBlocked, Bool.and_eq_true, Bool.not_eq_true'] at hok
    have hp := h.awake_of_waitsOn (by rw [hpc]; rfl)
    refine .inl ⟨h.sleep hp hok.2 ?_ (by rw [hpc]; rfl) trivial rfl, hsched⟩
    rw [Ring.ready, hok.1]
    rfl
  | readYield n =>
    rw [hpc] at hstep
    refine h.resume hstep trivial ?_ ?_
    · intro e hserve
      rw [hpc] at hserve
      cases e with
      | reader => rfl
      | writer => cases hserve
    · intro e hwaits hready
      rw [hpc] at hwaits
      cases hwaits
      exact hready
  | closeTop =>
    rw [hpc] at hstep
    rw [PipeState.spinLock_eq_some hstep]
    exact .inl ⟨h.goto hpc .closeLocked rfl trivial (PipePc.serves_of_not rfl) (PipePc.serves_of_not rfl) _, hsched⟩
  | closeLocked =>
    rw [hpc] at hstep
    cases hstep
    exact .inl ⟨h.close (h.awake_of_waitsOn (by rw [hpc]; rfl)) trivial, hsched⟩
  | closeUnlock =>
    rw [hpc] at hstep
    cases hstep
    exact .inl ⟨h.goto hpc (.closeWake .reader) rfl trivial (PipePc.serves_of_not rfl) (PipePc.serves_of_not rfl) _, hsched⟩
  | closeWake e =>
    simp only [hpc] at hstep
    split at hstep
    · cases hstep
      cases e with
      | reader =>
        exact .inl ⟨h.goto hpc (.closeWake .writer) rfl trivial (PipePc.serves_of_not rfl)
          (PipePc.serves_of_not rfl) _, hsched⟩
      | writer =>
        exact .inl ⟨h.goto hpc (.idle _) rfl trivial (PipePc.serves_of_not rfl)
          (PipePc.serves_of_not rfl) _, hsched⟩
    · obtain ⟨s1, hwake, rfl⟩ := Option.map_eq_some_iff.mp hstep
      have hp := h.awake_of_waitsOn (by rw [hpc]; rfl)
      obtain ⟨hok, hlock⟩ := h.wakeOne (.closeWake e) hwake hp trivial
        fun e' _ hserve => by
          rw [hpc] at hserve
          cases e' <;> cases hserve
      exact .inl ⟨hok, hlock.trans hsched⟩

theorem PipeStuck.stepProc (h : PipeStuck s) (hstep : s.stepProc p = some s') :
    PipeStuck s' := by
  have hblocked := h.blocked p
  unfold PipeState.stepProc at hstep
  cases hpc : s.pc p with
  | idle _ | writeRefused | closeTop | closeLocked | closeUnlock | closeWake _ =>
    rw [hpc] at hblocked
    cases hblocked
  | writeTop src done =>
    simp only [hpc] at hstep hblocked
    rw [if_pos hblocked.1] at hstep
    rw [PipeState.spinLock_eq_some hstep]
    exact h.move (.writeLocked src done) hblocked _
  | writeLocked src done =>
    rw [hpc] at hblocked
    simp only [hpc, rivRingWrite_full hblocked.2] at hstep
    rw [if_neg (Bool.not_eq_true _ ▸ h.closed)] at hstep
    cases hstep
    exact h.move (.writeUnlock src done 0) hblocked _
  | writeUnlock src done w =>
    rw [hpc] at hstep hblocked
    cases hstep
    cases w with
    | zero => exact h.move (.writeWake src done 0) hblocked _
    | succ w => cases hblocked
  | writeWake src done w =>
    rw [hpc] at hstep hblocked
    cases w with
    | zero =>
      simp only [lt_irrefl, if_false, Option.map_some, if_pos hblocked.1] at hstep
      cases hstep
      exact h.move (.writeSleep src done) hblocked _
    | succ w => cases hblocked
  | writeSleep src done =>
    rw [hpc] at hstep hblocked
    cases hstep
    exact h.sleep (.writeYield src done) hblocked hblocked.2
  | readTop n =>
    rw [hpc] at hstep hblocked
    rw [PipeState.spinLock_eq_some hstep]
    exact h.move (.readLocked n) hblocked _
  | readLocked n =>
    rw [hpc] at hblocked
    simp only [hpc, rivRingRead_empty hblocked] at hstep
    cases hstep
    refine h.move (.readUnlock n [] s.closed) ?_ _
    rw [h.closed]
    exact hblocked
  | readUnlock n bytes seen =>
    rw [hpc] at hstep hblocked
    cases hstep
    match bytes, seen, hblocked with
    | [], false, hblocked => exact h.move (.readDone n [] false) hblocked _
  | readDone n bytes seen =>
    rw [hpc] at hstep hblocked
    match bytes, seen, hblocked with
    | [], false, hblocked =>
      cases hstep
      exact h.move (.readSleep n) hblocked _
  | readSleep n =>
    rw [hpc] at hstep hblocked
    cases hstep
    exact h.sleep (.readYield n) hblocked hblocked
  | writeYield _ _ | readYield _ =>
    -- the lock of the scheduler is never released
    simp only [hpc, PipeState.resume, h.schedLock] at hstep
    cases hstep

theorem PipeInv.step {a : PipeAction P} (h : PipeInv s) (hok : SleepsInTime s a)
    (hstep : s.step a = some s') : PipeInv s' := by
  cases a with
  | call p op =>
    simp only [PipeState.step] at hstep
    split at hstep
    · next ret hpc =>
      cases hstep
      obtain ⟨h, hsched⟩ | h := h
      · exact .inl ⟨h.goto hpc op.entry rfl (by cases op <;> exact trivial)
          (PipePc.serves_of_not rfl) (PipePc.serves_of_not rfl) _, hsched⟩
      · have hblocked := h.blocked p
        rw [hpc] at hblocked
        cases hblocked
    · cases hstep
  | step p =>
    obtain ⟨h, hsched⟩ | h := h
    · exact h.stepProc hsched hok hstep
    · exact .inr (h.stepProc hstep)

/-- No wake-up is lost along a run in which every process that enters a wait queue
does so while the ring is still empty, or still full, and the pipe open. -/
theorem pipe_noLostWakeup (buf : ℕ → RivU8) {as : List (PipeAction P)}
    (hok : Meets PipeState.step SleepsInTime (rivPipeInit buf) as) :
    Always PipeState.step NoLostWakeup (rivPipeInit buf) as :=
  always_of_meets (fun _ _ _ => PipeInv.step) (fun _ => PipeInv.noLostWakeup)
    (pipeInv_rivPipeInit buf) hok

end Execution

/-- A reader finds the ring empty and sleeps; a writer hands it a byte. -/
def handByte : List (PipeAction Bool) :=
  [.call false (.read 1), .step false, .step false, .step false, .step false, .step false,
    .call true (.write [7]), .step true, .step true, .step true, .step true,
    .step false, .step false, .step false, .step false, .step false]

theorem pipe_noLostWakeup_handByte :
    Meets PipeState.step SleepsInTime (rivPipeInit fun _ => 0) handByte ∧
      Always PipeState.step NoLostWakeup (rivPipeInit fun _ => 0) handByte := by
  have hok : Meets PipeState.step SleepsInTime (rivPipeInit fun _ => 0) handByte := by
    decide
  exact ⟨hok, pipe_noLostWakeup (fun _ => 0) hok⟩

/-- A reader finds the ring empty and releases the guard.  Before it enters the
queue, a writer fills the ring, finds nobody to wake and goes to sleep. -/
def lateSleep : List (PipeAction Bool) :=
  [.call false (.read 1), .step false, .step false, .step false, .step false,
    .call true (.write (List.replicate 257 0)), .step true, .step true, .step true,
    .step true, .step true, .step false]

/-- Both processes sleep, the reader in front of a full ring. -/
theorem wakeup_lost_after_lateSleep :
    ∃ s, exec PipeState.step (rivPipeInit fun _ => 0) lateSleep = some s ∧
      (∀ p, s.asleep p = true) ∧ s.queue .reader = [false] ∧ rivRingFull s.ring = true ∧
      ¬NoLostWakeup s := by
  have hrun : (exec PipeState.step (rivPipeInit fun _ => 0) lateSleep).map
      (fun s => (s.asleep false, s.asleep true, s.queue .reader, rivRingFull s.ring,
        rivRingEmpty s.ring)) = some (true, true, [false], true, false) := by
    decide +kernel
  obtain ⟨s, hs, hview⟩ := Option.map_eq_some_iff.mp hrun
  simp only [Prod.mk.injEq] at hview
  obtain ⟨hreader, hwriter, hqueue, hfull, hempty⟩ := hview
  have hall : ∀ p, s.asleep p = true := by
    intro p
    cases p with
    | false => exact hreader
    | true => exact hwriter
  refine ⟨s, hs, hall, hqueue, hfull, fun h => ?_⟩
  have hlost := ((h hall).1 false (by rw [hqueue]; exact List.mem_singleton_self _)).1
  rw [hempty] at hlost
  cases hlost

end Rivet.Sync
