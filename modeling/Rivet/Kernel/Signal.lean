import Mathlib
import Rivet.Core
import Rivet.Support.Runs

/-!
# Signals

The pending word and the dispatch loop of `signal.h`.  What the handlers raise
is left open: a dispatch is given the signals raised by each handler it calls.
Raises and deliveries are logged beside the state, and the pending word is read
as the signals that were raised since their last delivery.
-/

namespace Rivet.Signal

open List Runs

/-! ## State and calls -/

/-- `RIV_SIG_DFL`, `RIV_SIG_IGN` or a function. -/
inductive Handler where
  | dfl
  | ign
  | fn

/-- `riv_sig_state`. -/
structure SigState where
  handlers : ℕ → Handler
  pending : RivU32
  mask : RivU32

def nsig : ℕ := 32
def sigAbrt : ℕ := 6
def sigBus : ℕ := 7
def sigKill : ℕ := 9
def sigSegv : ℕ := 11

def rivSigInit : SigState := ⟨fun _ => .dfl, 0, 0⟩

def rivSigSet (s : SigState) (sig : ℤ) (h : Handler) : SigState :=
  if 0 < sig ∧ sig < nsig ∧ sig ≠ sigKill then
    { s with handlers := Function.update s.handlers sig.toNat h }
  else s

def rivSigRaise (s : SigState) (sig : ℤ) : SigState :=
  if 0 < sig ∧ sig < nsig then { s with pending := s.pending ||| 1#32 <<< sig.toNat } else s

/-- What happens to signals: `riv_sig_raise`, or a round of the dispatch. -/
inductive Event where
  | raised (sig : ℤ)
  | delivered (sig : ℕ)
  deriving DecidableEq

/-- The state and the events up to now. -/
structure World where
  sig : SigState
  log : List Event

def World.raise (w : World) (sig : ℤ) : World := ⟨rivSigRaise w.sig sig, w.log ++ [.raised sig]⟩

/-- `s->pending &= ~(1u << i)`. -/
def World.take (w : World) (i : ℕ) : World :=
  ⟨{ w.sig with pending := w.sig.pending &&& ~~~(1#32 <<< i) }, w.log ++ [.delivered i]⟩

/-- A round of the loop for a signal that is deliverable, whose handler, if it is
called, raises `raises`.  `riv_proc_exit` does not return. -/
def deliver (raises : List ℤ) (w : World) (i : ℕ) : Option World :=
  let w := w.take i
  if i = sigKill then none
  else
    match w.sig.handlers i with
    | .dfl => if i = sigSegv ∨ i = sigAbrt ∨ i = sigBus then none else some w
    | .ign => some w
    | .fn => some (raises.foldl World.raise w)

/-- The loop, with the value of `ran`. -/
def dispatchLoop (raises : ℕ → List ℤ) (deliverable : RivU32) :
    List ℕ → World × Bool → Option (World × Bool)
  | [], r => some r
  | i :: is, (w, ran) =>
    if deliverable &&& 1#32 <<< i = 0 then dispatchLoop raises deliverable is (w, ran)
    else (deliver (raises i) w i).bind fun w => dispatchLoop raises deliverable is (w, true)

/-- `riv_signal_dispatch_pending`, with its result; nothing when the process exits. -/
def rivSignalDispatchPending (raises : ℕ → List ℤ) (w : World) : Option (World × Bool) :=
  let deliverable := w.sig.pending &&& ~~~w.sig.mask
  if deliverable = 0 then some (w, false)
  else dispatchLoop raises deliverable (range' 1 (nsig - 1)) (w, false)

/-- The calls of a run. -/
inductive Action where
  | raise (sig : ℤ)
  | setMask (mask : RivU32)
  | setHandler (sig : ℤ) (h : Handler)
  | dispatch (raises : ℕ → List ℤ)

def step (w : World) : Action → Option World
  | .raise sig => some (w.raise sig)
  | .setMask mask => some { w with sig := { w.sig with mask := mask } }
  | .setHandler sig h => some { w with sig := rivSigSet w.sig sig h }
  | .dispatch raises => (rivSignalDispatchPending raises w).map Prod.fst

def initial : World := ⟨rivSigInit, []⟩

/-! ## Events -/

section Events

variable {i : ℕ} {log : List Event}

def RaisedSince (i : ℕ) (log : List Event) : Prop :=
  ∃ a b, log = a ++ .raised i :: b ∧ .delivered i ∉ b

/-- Every delivery answers a raise that came after the delivery before. -/
def Justified (log : List Event) : Prop :=
  ∀ a i b, log = a ++ .delivered i :: b → RaisedSince i a

def deliveries (log : List Event) : List ℕ :=
  log.filterMap fun
    | .delivered i => some i
    | .raised _ => none

theorem raisedSince_nil : ¬RaisedSince i [] := by
  rintro ⟨a, b, h, -⟩
  simp at h

theorem raisedSince_concat (e : Event) :
    RaisedSince i (log ++ [e]) ↔ e = .raised i ∨ RaisedSince i log ∧ e ≠ .delivered i := by
  constructor
  · rintro ⟨a, b, h, hb⟩
    rcases b.eq_nil_or_concat with rfl | ⟨b, e', rfl⟩
    · exact .inl (by simpa using (append_inj' h rfl).2)
    rw [concat_eq_append, ← cons_append, ← append_assoc] at h
    obtain ⟨hlog, he⟩ := append_inj' h rfl
    cases he
    simp only [concat_eq_append, mem_append, mem_singleton, not_or] at hb
    exact .inr ⟨⟨a, b, hlog, hb.1⟩, Ne.symm hb.2⟩
  · rintro (rfl | ⟨⟨a, b, rfl, hb⟩, he⟩)
    · exact ⟨log, [], rfl, not_mem_nil⟩
    · refine ⟨a, b ++ [e], by simp, ?_⟩
      simpa [hb] using Ne.symm he

theorem RaisedSince.append {new : List Event} (h : RaisedSince i log)
    (hnew : i ∉ deliveries new) : RaisedSince i (log ++ new) := by
  obtain ⟨a, b, rfl, hb⟩ := h
  refine ⟨a, b ++ new, by simp, ?_⟩
  rw [mem_append, not_or]
  exact ⟨hb, fun hmem => hnew (mem_filterMap.mpr ⟨_, hmem, rfl⟩)⟩

theorem Justified.concat {e : Event} (h : Justified log)
    (he : ∀ i, e = .delivered i → RaisedSince i log) : Justified (log ++ [e]) := by
  intro a i b heq
  rcases b.eq_nil_or_concat with rfl | ⟨b, e', rfl⟩
  · simp_all
  · rw [concat_eq_append, ← cons_append, ← append_assoc] at heq
    exact h a i b (append_inj' heq rfl).1

end Events

/-! ## The pending word -/

section Words

variable {i j : ℕ}

theorem getLsbD_bit (i : ℕ) (hj : j < nsig) : (1#32 <<< i).getLsbD j = decide (i = j) := by
  have hj : j < 32 := hj
  grind

theorem and_bit_eq_zero_iff (p : RivU32) (hi : i < nsig) :
    p &&& 1#32 <<< i = 0 ↔ p.getLsbD i = false := by
  constructor
  · intro h
    have hbit := congrArg (BitVec.getLsbD · i) h
    simpa [getLsbD_bit i hi] using hbit
  grind

theorem getLsbD_raise (s : SigState) (sig : ℤ) (hj : 0 < j ∧ j < nsig) :
    (rivSigRaise s sig).pending.getLsbD j = (s.pending.getLsbD j || decide (sig = j)) := by
  unfold rivSigRaise
  grind [getLsbD_bit]

end Words

/-! ## Dispatch -/

section Dispatch

variable {w w' : World} {i : ℕ} {raises : ℕ → List ℤ} {deliverable : RivU32}

/-- The pending signals are those raised since their last delivery, and every
delivery was of such a signal. -/
structure Inv (w : World) : Prop where
  pending_iff : ∀ i, 0 < i ∧ i < nsig → (w.sig.pending.getLsbD i = true ↔ RaisedSince i w.log)
  justified : Justified w.log

theorem inv_initial : Inv initial where
  pending_iff i _ := by simp [initial, rivSigInit, raisedSince_nil]
  justified a i b h := by simp [initial] at h

theorem Inv.raise (h : Inv w) (sig : ℤ) : Inv (w.raise sig) where
  pending_iff i hi := by
    simp only [World.raise, raisedSince_concat, getLsbD_raise _ _ hi, Bool.or_eq_true,
      h.pending_iff i hi]
    simp [or_comm]
  justified := h.justified.concat nofun

theorem Inv.take (h : Inv w) (hi : 0 < i ∧ i < nsig) (hp : w.sig.pending.getLsbD i = true) :
    Inv (w.take i) where
  pending_iff j hj := by
    have hj' : j < 32 := hj.2
    simp only [World.take, raisedSince_concat, BitVec.getLsbD_and, BitVec.getLsbD_not,
      getLsbD_bit _ hj.2, Bool.and_eq_true, h.pending_iff j hj]
    simp [hj']
  justified := by
    refine h.justified.concat fun j hj => ?_
    cases hj
    exact (h.pending_iff i hi).mp hp

theorem Inv.foldl_raise (h : Inv w) (rs : List ℤ) : Inv (rs.foldl World.raise w) := by
  induction rs generalizing w with
  | nil => exact h
  | cons r rs ih => exact ih (h.raise r)

theorem log_foldl_raise (rs : List ℤ) : (rs.foldl World.raise w).log = w.log ++ rs.map .raised := by
  induction rs generalizing w with
  | nil => simp
  | cons r rs ih => simp [ih, World.raise]

theorem deliver_eq_some {rs : List ℤ} (h : deliver rs w i = some w') :
    ∃ rs : List ℤ, w' = rs.foldl World.raise (w.take i) := by
  unfold deliver at h
  dsimp only at h
  split at h
  · cases h
  split at h
  · split at h
    · cases h
    · exact ⟨[], (Option.some.inj h).symm⟩
  · exact ⟨[], (Option.some.inj h).symm⟩
  · exact ⟨rs, (Option.some.inj h).symm⟩

theorem deliveries_round (i : ℕ) (rs : List ℤ) (new : List Event) :
    deliveries (.delivered i :: rs.map .raised ++ new) = i :: deliveries new := by simp [deliveries]

theorem dispatchLoop_spec {is : List ℕ} {ran : Bool} {r : World × Bool}
    (his : ∀ i ∈ is, 0 < i ∧ i < nsig) (hnodup : is.Nodup) (h : Inv w)
    (hp : ∀ i ∈ is, deliverable.getLsbD i = true → w.sig.pending.getLsbD i = true)
    (hr : dispatchLoop raises deliverable is (w, ran) = some r) :
    Inv r.1 ∧ ∃ new, r.1.log = w.log ++ new ∧
      deliveries new = is.filter fun i => deliverable.getLsbD i := by
  induction is generalizing w ran with
  | nil =>
    cases hr
    exact ⟨h, [], by simp, rfl⟩
  | cons i is ih =>
    obtain ⟨hi, his⟩ := forall_mem_cons.mp his
    obtain ⟨hpi, hp⟩ := forall_mem_cons.mp hp
    obtain ⟨hmem, hnodup⟩ := nodup_cons.mp hnodup
    unfold dispatchLoop at hr
    by_cases hd : deliverable.getLsbD i = true
    · have hne : ¬deliverable &&& 1#32 <<< i = 0 := by
        rw [and_bit_eq_zero_iff _ hi.2, hd]
        exact Bool.true_eq_false.mp
      rw [if_neg hne, Option.bind_eq_some_iff] at hr
      obtain ⟨w1, hw1, hr⟩ := hr
      obtain ⟨rs, rfl⟩ := deliver_eq_some hw1
      have h1 : Inv (rs.foldl World.raise (w.take i)) := (h.take hi (hpi hd)).foldl_raise rs
      have hlog : (rs.foldl World.raise (w.take i)).log =
          w.log ++ (.delivered i :: rs.map .raised) := by
        rw [log_foldl_raise, World.take, append_assoc, singleton_append]
      -- the signals that are still to come stay pending: none of them was delivered
      have hp1 : ∀ j ∈ is, deliverable.getLsbD j = true →
          (rs.foldl World.raise (w.take i)).sig.pending.getLsbD j = true := by
        intro j hj hdj
        rw [h1.pending_iff j (his j hj), hlog]
        apply ((h.pending_iff j (his j hj)).mp (hp j hj hdj)).append
        have hround := deliveries_round i rs []
        rw [append_nil] at hround
        rw [hround]
        rintro hji
        exact hmem (mem_singleton.mp hji ▸ hj)
      grind [append_assoc, deliveries_round, filter_cons_of_pos]
    grind

def deliverableSignals (s : SigState) : List ℕ :=
  (range' 1 (nsig - 1)).filter fun i => s.pending.getLsbD i && !s.mask.getLsbD i

theorem dispatch_spec {r : World × Bool} (h : Inv w)
    (hr : rivSignalDispatchPending raises w = some r) :
    Inv r.1 ∧ ∃ new, r.1.log = w.log ++ new ∧ deliveries new = deliverableSignals w.sig := by
  have hrange : ∀ i ∈ range' 1 (nsig - 1), 0 < i ∧ i < nsig := by decide
  have hbits : ((range' 1 (nsig - 1)).filter fun i =>
      (w.sig.pending &&& ~~~w.sig.mask).getLsbD i) = deliverableSignals w.sig := by
    refine filter_congr fun i hi => ?_
    have hi' : i < 32 := (hrange i hi).2
    simp [hi']
  unfold rivSignalDispatchPending at hr
  by_cases hzero : w.sig.pending &&& ~~~w.sig.mask = 0
  · rw [if_pos hzero] at hr
    cases hr
    refine ⟨h, [], by simp, ?_⟩
    rw [← hbits, hzero]
    simp [deliveries]
  · rw [if_neg hzero] at hr
    rw [← hbits]
    refine dispatchLoop_spec hrange nodup_range' h (fun i _ hd => ?_) hr
    simp_all

theorem Inv.step {a : Action} (h : Inv w) (hw : step w a = some w') : Inv w' := by
  cases a with
  | raise sig =>
    cases hw
    exact h.raise sig
  | setMask mask =>
    cases hw
    exact ⟨h.pending_iff, h.justified⟩
  | setHandler sig f =>
    cases hw
    refine ⟨fun i hi => ?_, h.justified⟩
    have hpending : (rivSigSet w.sig sig f).pending = w.sig.pending := by
      unfold rivSigSet
      split <;> rfl
    rw [hpending]
    exact h.pending_iff i hi
  | dispatch raises =>
    obtain ⟨r, hr, rfl⟩ := Option.map_eq_some_iff.mp hw
    exact (dispatch_spec h hr).1

end Dispatch

/-! ## No signal is lost or delivered twice -/

/-- What a dispatch does with the signals: it delivers those it found deliverable
once and in order, keeps the masked ones, and leaves pending what was raised after
its delivery. -/
structure Dispatched (w w' : World) (new : List Event) : Prop where
  log_eq : w'.log = w.log ++ new
  deliveries_eq : deliveries new = deliverableSignals w.sig
  masked : ∀ i, 0 < i ∧ i < nsig → w.sig.pending.getLsbD i = true → w.sig.mask.getLsbD i = true →
    w'.sig.pending.getLsbD i = true
  raised : ∀ i, 0 < i ∧ i < nsig → RaisedSince i new → w'.sig.pending.getLsbD i = true

/-- In every run each dispatch delivers the signals that are pending and not
masked, each once and in increasing order; masked signals, and signals raised
during the dispatch and not delivered later in it, are pending afterwards; and a
signal is delivered only if it was raised since its previous delivery. -/
theorem signals_delivered_once (as : List Action) {w : World} (h : exec step initial as = some w) :
    Justified w.log ∧ ∀ raises r, rivSignalDispatchPending raises w = some r →
      ∃ new, Dispatched w r.1 new := by
  have hw : Inv w := inv_of_exec (fun _ _ _ h hw => h.step hw) inv_initial h
  refine ⟨hw.justified, fun raises r hr => ?_⟩
  obtain ⟨hinv, new, hlog, hdel⟩ := dispatch_spec hw hr
  refine ⟨new, hlog, hdel, fun i hi hp hm => ?_, fun i hi hraised => ?_⟩
  · rw [hinv.pending_iff i hi, hlog]
    apply ((hw.pending_iff i hi).mp hp).append
    rw [hdel]
    simp [deliverableSignals, hm]
  · obtain ⟨a, b, rfl, hb⟩ := hraised
    rw [hinv.pending_iff i hi, hlog]
    exact ⟨w.log ++ a, b, by simp, hb⟩

/-- A run with a masked signal. -/
theorem signals_delivered_once_masked :
    ∃ w, exec step initial [.setHandler 2 .fn, .raise 2, .raise 3, .setMask 8] = some w ∧
      Justified w.log ∧ ∀ raises r, rivSignalDispatchPending raises w = some r →
        ∃ new, Dispatched w r.1 new :=
  ⟨_, rfl, signals_delivered_once [.setHandler 2 .fn, .raise 2, .raise 3, .setMask 8] rfl⟩

/-- The handler of signal 1 raises signal 2, which is deliverable already: both
raises of signal 2 are answered by one delivery. -/
theorem raised_during_dispatch_not_pending : ¬∀ as w raises r new, exec step initial as = some w →
      rivSignalDispatchPending raises w = some r → r.1.log = w.log ++ new →
      ∀ i : ℕ, 0 < i ∧ i < nsig → .raised i ∈ new → r.1.sig.pending.getLsbD i = true := by
  intro h
  have hpending := h [.setHandler 1 .fn, .raise 1, .raise 2] _ (fun i => if i = 1 then [2] else [])
    _ [.delivered 1, .raised 2, .delivered 2] rfl rfl rfl 2 (by decide) (by decide)
  exact absurd hpending (by decide)

end Rivet.Signal
