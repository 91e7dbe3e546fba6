import Mathlib.Tactic
import Rivet.Core
import Rivet.Support.Counter
import Rivet.Support.Runs

/-!
# The single-producer single-consumer ring

`ring.h` keeps two free-running 32-bit counters, `head` of the producer and
`tail` of the consumer, and finds the slot of a byte by masking.  The two sides
run concurrently: a push and a pop are sequences of steps, one for each load,
buffer access and store, and the steps of both sides interleave freely.
-/

namespace Rivet.Sync

open Runs List

/-- `riv_ring`, with the buffer it points to. -/
structure Ring where
  buf : ℕ → RivU8
  mask : RivU32
  head : RivU32
  tail : RivU32

def rivRingInit (buf : ℕ → RivU8) (capPow2 : RivU32) : Option Ring :=
  if capPow2 = 0 ∨ capPow2 &&& (capPow2 - 1) ≠ 0 then none
  else some ⟨buf, capPow2 - 1, 0, 0⟩

def rivRingCount (r : Ring) : RivU32 := r.head - r.tail

def rivRingEmpty (r : Ring) : Bool := rivRingCount r = 0

def rivRingFull (r : Ring) : Bool := r.mask < rivRingCount r

def Ring.slot (r : Ring) (i : RivU32) : ℕ := (i &&& r.mask).toNat

/-! ## The steps of the two sides -/

/-- Where a call of `riv_ring_push` stands, with the locals it has read. -/
inductive PushPc where
  | idle
  | loadHead (b : RivU8)
  | loadTail (b : RivU8) (h : RivU32)
  | test (b : RivU8) (h t : RivU32)
  | write (b : RivU8) (h : RivU32)
  | publish (b : RivU8) (h : RivU32)
  deriving DecidableEq, Repr

/-- Where a call of `riv_ring_pop` stands. -/
inductive PopPc where
  | idle
  | loadTail
  | loadHead (t : RivU32)
  | test (t h : RivU32)
  | read (t : RivU32)
  | publish (t : RivU32) (b : RivU8)
  deriving DecidableEq, Repr

/-- The ring with its two sides.  The history keeps the bytes of the successful
pushes with the slots they were stored in, and the bytes of the successful
pops. -/
structure Spsc where
  ring : Ring
  producer : PushPc
  consumer : PopPc
  pushed : List (ℕ × RivU8)
  popped : List RivU8

/-- A call by either side, or one step of its call. -/
inductive RingAction where
  | callPush (b : RivU8)
  | callPop
  | producer
  | consumer
  deriving DecidableEq, Repr

def Spsc.stepProducer (s : Spsc) : Option Spsc :=
  match s.producer with
  | .idle => none
  | .loadHead b => some { s with producer := .loadTail b s.ring.head }
  | .loadTail b h => some { s with producer := .test b h s.ring.tail }
  | .test b h t =>
    if s.ring.mask < h - t then some { s with producer := .idle }
    else some { s with producer := .write b h }
  | .write b h =>
    some { s with
      ring := { s.ring with buf := Function.update s.ring.buf (s.ring.slot h) b }
      producer := .publish b h }
  | .publish b h =>
    some { s with
      ring := { s.ring with head := h + 1 }
      producer := .idle
      pushed := s.pushed ++ [(s.ring.slot h, b)] }

def Spsc.stepConsumer (s : Spsc) : Option Spsc :=
  match s.consumer with
  | .idle => none
  | .loadTail => some { s with consumer := .loadHead s.ring.tail }
  | .loadHead t => some { s with consumer := .test t s.ring.head }
  | .test t h =>
    if h = t then some { s with consumer := .idle }
    else some { s with consumer := .read t }
  | .read t => some { s with consumer := .publish t (s.ring.buf (s.ring.slot t)) }
  | .publish t b =>
    some { s with
      ring := { s.ring with tail := t + 1 }
      consumer := .idle
      popped := s.popped ++ [b] }

def Spsc.step (s : Spsc) : RingAction → Option Spsc
  | .callPush b =>
    if s.producer = .idle then some { s with producer := .loadHead b } else none
  | .callPop => if s.consumer = .idle then some { s with consumer := .loadTail } else none
  | .producer => s.stepProducer
  | .consumer => s.stepConsumer

def Spsc.start (r : Ring) : Spsc := ⟨r, .idle, .idle, [], []⟩

/-! ## The invariant -/

/-- The ring of capacity `2 ^ k` agrees with its history: the counters are the
numbers of pushes and pops, and every unread byte is still in its slot. -/
structure RingOk (k : ℕ) (r : Ring) (pushed : List (ℕ × RivU8)) (popped : List RivU8) :
    Prop where
  k_lt : k < 32
  mask : r.mask.toNat = 2 ^ k - 1
  head : r.head = BitVec.ofNat 32 pushed.length
  tail : r.tail = BitVec.ofNat 32 popped.length
  popped_le : popped.length ≤ pushed.length
  pushed_le : pushed.length ≤ popped.length + 2 ^ k
  fifo : popped <+: pushed.map Prod.snd
  slots : pushed.map Prod.fst = (List.range pushed.length).map (· % 2 ^ k)
  data : ∀ i b, popped.length ≤ i → (pushed.map Prod.snd)[i]? = some b →
    r.buf (i % 2 ^ k) = b

/-- What the producer knows: its own counter, and that a stale copy of `tail` is
a count the consumer has passed. -/
def ProducerOk (k : ℕ) (r : Ring) (pushes pops : ℕ) : PushPc → Prop
  | .idle | .loadHead _ => True
  | .loadTail _ h => h = r.head
  | .test _ h t => h = r.head ∧
      ∃ old ≤ pops, t = BitVec.ofNat 32 old ∧ old ≤ pushes ∧ pushes ≤ old + 2 ^ k
  | .write _ h => h = r.head ∧ pushes < pops + 2 ^ k
  | .publish b h => h = r.head ∧ pushes < pops + 2 ^ k ∧ r.buf (pushes % 2 ^ k) = b

def ConsumerOk (k : ℕ) (r : Ring) (pushed : List (ℕ × RivU8)) (pops : ℕ) : PopPc → Prop
  | .idle | .loadTail => True
  | .loadHead t => t = r.tail
  | .test t h => t = r.tail ∧
      ∃ old ≤ pushed.length, h = BitVec.ofNat 32 old ∧ pops ≤ old ∧ old ≤ pops + 2 ^ k
  | .read t => t = r.tail ∧ pops < pushed.length
  | .publish t b => t = r.tail ∧ (pushed.map Prod.snd)[pops]? = some b

structure SpscOk (k : ℕ) (s : Spsc) : Prop where
  ring : RingOk k s.ring s.pushed s.popped
  producer : ProducerOk k s.ring s.pushed.length s.popped.length s.producer
  consumer : ConsumerOk k s.ring s.pushed s.popped.length s.consumer

section Invariant

variable {k : ℕ} {r : Ring} {pushed : List (ℕ × RivU8)} {popped : List RivU8}

theorem RingOk.slot_ofNat (h : RingOk k r pushed popped) (n : ℕ) :
    r.slot (BitVec.ofNat 32 n) = n % 2 ^ k :=
  Counter.toNat_and_mask h.k_lt.le h.mask n

theorem RingOk.cap_lt (h : RingOk k r pushed popped) : 2 ^ k < 2 ^ 32 :=
  Nat.pow_lt_pow_right (by decide) h.k_lt

theorem RingOk.full_iff (h : RingOk k r pushed popped) {old : ℕ}
    (hle : old ≤ pushed.length) (hcap : pushed.length ≤ old + 2 ^ k) :
    r.mask < r.head - BitVec.ofNat 32 old ↔ pushed.length = old + 2 ^ k := by
  have hcap32 := h.cap_lt
  have hpos : 0 < 2 ^ k := Nat.two_pow_pos k
  rw [BitVec.lt_def, h.mask, h.head, Counter.toNat_sub hle (by omega)]
  omega

theorem RingOk.empty_iff (h : RingOk k r pushed popped) {old : ℕ}
    (hle : popped.length ≤ old) (hcap : old ≤ popped.length + 2 ^ k) :
    BitVec.ofNat 32 old = r.tail ↔ old = popped.length := by
  have hcap32 := h.cap_lt
  rw [h.tail, Counter.ofNat_inj hle (by omega)]

theorem RingOk.write (h : RingOk k r pushed popped)
    (hroom : pushed.length < popped.length + 2 ^ k) (b : RivU8) :
    RingOk k { r with buf := Function.update r.buf (r.slot r.head) b } pushed popped := by
  refine { h with data := ?_ }
  intro i c hlo hi
  have hhi : i < pushed.length := by
    have hlt := (List.getElem?_eq_some_iff.mp hi).1
    rwa [length_map] at hlt
  have hne : i % 2 ^ k ≠ r.slot r.head := by
    rw [h.head, h.slot_ofNat]
    exact Counter.mod_ne_mod hhi (by omega)
  rw [show ({ r with buf := Function.update r.buf (r.slot r.head) b } : Ring).buf =
    Function.update r.buf (r.slot r.head) b from rfl, Function.update_of_ne hne]
  exact h.data i c hlo hi

theorem RingOk.publishPush (h : RingOk k r pushed popped)
    (hroom : pushed.length < popped.length + 2 ^ k) {b : RivU8}
    (hb : r.buf (pushed.length % 2 ^ k) = b) :
    RingOk k { r with head := r.head + 1 } (pushed ++ [(r.slot r.head, b)]) popped where
  k_lt := h.k_lt
  mask := h.mask
  head := by
    rw [h.head, length_append, length_singleton, BitVec.ofNat_add]
    rfl
  tail := h.tail
  popped_le := by
    rw [length_append]
    exact Nat.le_add_right_of_le h.popped_le
  pushed_le := by
    rw [length_append, length_singleton]
    omega
  fifo := by
    rw [map_append]
    exact h.fifo.trans (prefix_append _ _)
  slots := by
    rw [map_append, h.slots, length_append, length_singleton,
      range_succ, map_append, h.head, h.slot_ofNat]
    rfl
  data i c hlo hi := by
    rw [map_append, List.getElem?_append] at hi
    split at hi
    · exact h.data i c hlo hi
    next hge =>
    rw [length_map] at hge hi
    have hlast : i = pushed.length := by
      have hlt := (List.getElem?_eq_some_iff.mp hi).1
      simp only [map_cons, map_nil, length_singleton] at hlt
      omega
    rw [hlast, Nat.sub_self] at hi
    cases hi
    rw [hlast]
    exact hb

theorem RingOk.publishPop (h : RingOk k r pushed popped) {b : RivU8}
    (hb : (pushed.map Prod.snd)[popped.length]? = some b) :
    RingOk k { r with tail := r.tail + 1 } pushed (popped ++ [b]) where
  k_lt := h.k_lt
  mask := h.mask
  head := h.head
  tail := by
    rw [h.tail, length_append, length_singleton, BitVec.ofNat_add]
    rfl
  popped_le := by
    have hlt := (List.getElem?_eq_some_iff.mp hb).1
    rw [length_map] at hlt
    rw [length_append, length_singleton]
    exact hlt
  pushed_le := by
    have := h.pushed_le
    rw [length_append]
    omega
  fifo := by
    obtain ⟨rest, hrest⟩ := h.fifo
    rw [← hrest, List.getElem?_append_right le_rfl, Nat.sub_self] at hb
    cases rest with
    | nil => cases hb
    | cons c rest =>
      cases hb
      exact ⟨rest, by rw [← hrest, append_assoc, singleton_append]⟩
  slots := h.slots
  data i c hlo hi := h.data i c (by rw [length_append] at hlo; omega) hi

theorem ProducerOk.mono {r' : Ring} {pushes pops pops' : ℕ} {pc : PushPc}
    (h : ProducerOk k r pushes pops pc) (hhead : r'.head = r.head) (hbuf : r'.buf = r.buf)
    (hle : pops ≤ pops') : ProducerOk k r' pushes pops' pc := by
  cases pc with
  | idle | loadHead b => exact trivial
  | loadTail b h' => exact h.trans hhead.symm
  | test b h' t =>
    obtain ⟨hh, old, hold, ht⟩ := h
    exact ⟨hh.trans hhead.symm, old, hold.trans hle, ht⟩
  | write b h' => exact ⟨h.1.trans hhead.symm, by have := h.2; omega⟩
  | publish b h' =>
    exact ⟨h.1.trans hhead.symm, by have := h.2.1; omega, hbuf ▸ h.2.2⟩

theorem ConsumerOk.mono {r' : Ring} {pops : ℕ} {pc : PopPc}
    {pushed' : List (ℕ × RivU8)} (h : ConsumerOk k r pushed pops pc)
    (htail : r'.tail = r.tail) (hmore : pushed <+: pushed') : ConsumerOk k r' pushed' pops pc := by
  obtain ⟨more, rfl⟩ := hmore
  cases pc with
  | idle | loadTail => exact trivial
  | loadHead t => exact h.trans htail.symm
  | test t h' =>
    obtain ⟨ht, old, hold, hh⟩ := h
    refine ⟨ht.trans htail.symm, old, hold.trans ?_, hh⟩
    rw [length_append]
    exact Nat.le_add_right _ _
  | read t =>
    refine ⟨h.1.trans htail.symm, h.2.trans_le ?_⟩
    rw [length_append]
    exact Nat.le_add_right _ _
  | publish t b =>
    refine ⟨h.1.trans htail.symm, ?_⟩
    rw [map_append]
    rw [List.getElem?_append_left (List.getElem?_eq_some_iff.mp h.2).1]
    exact h.2

end Invariant

theorem SpscOk.stepProducer {k : ℕ} {s s' : Spsc} (h : SpscOk k s)
    (hstep : s.stepProducer = some s') : SpscOk k s' := by
  obtain ⟨hring, hprod, hcons⟩ := h
  unfold Spsc.stepProducer at hstep
  split at hstep
  · cases hstep
  · cases hstep
    exact ⟨hring, rfl, hcons⟩
  · next b h0 hpc =>
    cases hstep
    rw [hpc] at hprod
    exact ⟨hring, ⟨hprod, s.popped.length, le_rfl, hring.tail, hring.popped_le,
      hring.pushed_le⟩, hcons⟩
  · next b h0 t hpc =>
    rw [hpc] at hprod
    obtain ⟨rfl, old, hold, rfl, hle, hcap⟩ := hprod
    split at hstep
    · cases hstep
      exact ⟨hring, trivial, hcons⟩
    next hroom =>
    -- the copy of `tail` is old, but the consumer only makes room
    cases hstep
    rw [hring.full_iff hle hcap] at hroom
    exact ⟨hring, ⟨rfl, show s.pushed.length < s.popped.length + 2 ^ k by omega⟩, hcons⟩
  · next b h0 hpc =>
    cases hstep
    rw [hpc] at hprod
    obtain ⟨rfl, hroom⟩ := hprod
    refine ⟨hring.write hroom b, ⟨rfl, hroom, ?_⟩, ?_⟩
    all_goals simp [hring.slot_ofNat, hring.head, Function.update_self, hcons.mono]
  · next b h0 hpc =>
    cases hstep
    rw [hpc] at hprod
    obtain ⟨rfl, hroom, hb⟩ := hprod
    exact ⟨hring.publishPush hroom hb, trivial, hcons.mono rfl (prefix_append _ _)⟩

theorem SpscOk.stepConsumer {k : ℕ} {s s' : Spsc} (h : SpscOk k s)
    (hstep : s.stepConsumer = some s') : SpscOk k s' := by
  obtain ⟨hring, hprod, hcons⟩ := h
  unfold Spsc.stepConsumer at hstep
  split at hstep
  · cases hstep
  · cases hstep
    exact ⟨hring, hprod, rfl⟩
  · next t hpc =>
    cases hstep
    rw [hpc] at hcons
    exact ⟨hring, hprod, hcons, s.pushed.length, le_rfl, hring.head, hring.popped_le,
      hring.pushed_le⟩
  · next t h0 hpc =>
    rw [hpc] at hcons
    obtain ⟨rfl, old, hold, rfl, hle, hcap⟩ := hcons
    split at hstep
    · cases hstep
      exact ⟨hring, hprod, trivial⟩
    next hsome =>
    -- the copy of `head` is old, but the producer only adds bytes
    cases hstep
    rw [hring.empty_iff hle hcap] at hsome
    exact ⟨hring, hprod, rfl, show s.popped.length < s.pushed.length by omega⟩
  · next t hpc =>
    cases hstep
    rw [hpc] at hcons
    obtain ⟨rfl, hsome⟩ := hcons
    refine ⟨hring, hprod, rfl, ?_⟩
    have hlt : s.popped.length < (s.pushed.map Prod.snd).length := by
      rwa [length_map]
    have hget := List.getElem?_eq_getElem hlt
    rw [hring.tail, hring.slot_ofNat, hring.data _ _ le_rfl hget]
    exact hget
  · next t b hpc =>
    cases hstep
    rw [hpc] at hcons
    obtain ⟨rfl, hb⟩ := hcons
    refine ⟨hring.publishPop hb, hprod.mono rfl rfl ?_, trivial⟩
    rw [length_append]
    exact Nat.le_add_right _ _

theorem SpscOk.step {k : ℕ} {s s' : Spsc} {a : RingAction} (h : SpscOk k s)
    (hstep : s.step a = some s') : SpscOk k s' := by
  cases a with
  | callPush b =>
    simp only [Spsc.step] at hstep
    split at hstep
    · cases hstep
      exact ⟨h.ring, trivial, h.consumer⟩
    · cases hstep
  | callPop =>
    simp only [Spsc.step] at hstep
    split at hstep
    · cases hstep
      exact ⟨h.ring, h.producer, trivial⟩
    · cases hstep
  | producer => exact h.stepProducer hstep
  | consumer => exact h.stepConsumer hstep


theorem exists_cap_of_init {buf : ℕ → RivU8} {cap : RivU32} {r : Ring}
    (h : rivRingInit buf cap = some r) : ∃ k, cap.toNat = 2 ^ k ∧ SpscOk k (Spsc.start r) := by
  unfold rivRingInit at h
  split at h
  · cases h
  next hcap =>
  cases h
  rw [not_or, not_not] at hcap
  obtain ⟨hpos, hand⟩ := hcap
  have hne : cap.toNat ≠ 0 := fun h0 => hpos (BitVec.eq_of_toNat_eq h0)
  have hpred : (cap - 1).toNat = cap.toNat - 1 := by
    change (2 ^ 32 - 1 + cap.toNat) % 2 ^ 32 = _
    omega
  have hnat : cap.toNat &&& (cap.toNat - 1) = 0 := by
    have h0 := congrArg BitVec.toNat hand
    rwa [BitVec.toNat_and, hpred] at h0
  obtain ⟨k, hk⟩ := Counter.exists_eq_two_pow hne hnat
  have hk32 : k < 32 := by
    have hlt := cap.isLt
    rw [hk] at hlt
    exact (Nat.pow_lt_pow_iff_right (by decide)).mp hlt
  refine ⟨k, hk, ⟨hk32, hpred.trans (by rw [hk]), rfl, rfl, le_rfl, Nat.zero_le _,
    prefix_rfl, rfl, ?_⟩, trivial, trivial⟩
  intro i b _ hi
  cases hi

/-- The ring is a FIFO of bounded size: along every interleaving, the popped
bytes are the first of the pushed ones, at most `cap` bytes are unread, and the
slot the producer is about to write holds no unread byte. -/
theorem spsc_fifo {buf : ℕ → RivU8} {cap : RivU32} {r : Ring}
    (hinit : rivRingInit buf cap = some r) {as : List RingAction} {s : Spsc}
    (hrun : exec Spsc.step (Spsc.start r) as = some s) : s.popped <+: s.pushed.map Prod.snd ∧
      (rivRingCount s.ring).toNat = s.pushed.length - s.popped.length ∧
      (rivRingCount s.ring).toNat ≤ cap.toNat ∧ ∀ b h, s.producer = .write b h →
        s.ring.slot h ∉ (s.pushed.map Prod.fst).drop s.popped.length := by
  obtain ⟨k, hcap, hstart⟩ := exists_cap_of_init hinit
  obtain ⟨hring, hprod, -⟩ := inv_of_exec (fun _ _ _ hs h => SpscOk.step hs h) hstart hrun
  have hcount : (rivRingCount s.ring).toNat = s.pushed.length - s.popped.length := by
    have hpushed := hring.pushed_le
    have hcap32 := hring.cap_lt
    rw [rivRingCount, hring.head, hring.tail]
    exact Counter.toNat_sub hring.popped_le (by omega)
  refine ⟨hring.fifo, hcount, ?_, ?_⟩
  · have hpushed := hring.pushed_le
    rw [hcount, hcap]
    omega
  · intro b h hpc hmem
    rw [hpc] at hprod
    obtain ⟨rfl, hroom⟩ := hprod
    rw [hring.slots, hring.head, hring.slot_ofNat, ← List.map_drop, List.mem_map] at hmem
    obtain ⟨i, hi, hmod⟩ := hmem
    obtain ⟨j, hj, rfl⟩ := List.mem_drop_iff_getElem.mp hi
    rw [List.length_range] at hj
    rw [List.getElem_range] at hmod
    exact Counter.mod_ne_mod (by omega) (by omega) hmod

/-- A ring of one slot: a push, a full ring, and a pop that overtakes the next
push. -/
theorem spsc_fifo_one_slot : ∃ r s, rivRingInit (fun _ => 0) 1 = some r ∧
      exec Spsc.step (Spsc.start r)
        [.callPush 7, .producer, .producer, .producer, .producer, .producer,
          .callPush 8, .callPop, .producer, .consumer, .consumer, .consumer, .consumer,
          .consumer, .producer, .producer, .producer] = some s ∧
      s.popped = [7] ∧ s.producer = .publish 8 1 ∧
      s.popped <+: s.pushed.map Prod.snd ∧ (rivRingCount s.ring).toNat ≤ 1 := by
  have hinit : rivRingInit (fun _ => 0) 1 = some ⟨fun _ => 0, 0, 0, 0⟩ := rfl
  have hrun := (rfl : exec Spsc.step (Spsc.start ⟨fun _ => 0, 0, 0, 0⟩)
    [.callPush 7, .producer, .producer, .producer, .producer, .producer,
      .callPush 8, .callPop, .producer, .consumer, .consumer, .consumer, .consumer,
      .consumer, .producer, .producer, .producer] = _)
  obtain ⟨hpre, -, hcount, -⟩ := spsc_fifo hinit hrun
  exact ⟨_, _, hinit, hrun, rfl, rfl, hpre, hcount⟩

end Rivet.Sync
