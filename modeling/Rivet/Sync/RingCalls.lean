import Rivet.Sync.Ring

/-!
# Ring operations under a lock

Users of the ring that hold a lock around each call see whole calls of `ring.h`.
`riv_ring_push` and `riv_ring_pop` are what the steps of one side amount to when
the other side does nothing, so a call keeps what the steps keep.
-/

namespace Rivet.Sync

open Runs

def rivRingPush (r : Ring) (b : RivU8) : Option Ring :=
  if r.mask < r.head - r.tail then none
  else some { r with
    buf := Function.update r.buf (r.slot r.head) b
    head := r.head + 1 }

def rivRingPop (r : Ring) : Option (RivU8 × Ring) :=
  if r.head = r.tail then none
  else some (r.buf (r.slot r.tail), { r with tail := r.tail + 1 })

/-- `riv_ring_write`: the number of bytes written. -/
def rivRingWrite (r : Ring) : List RivU8 → ℕ × Ring
  | [] => (0, r)
  | b :: src =>
    match rivRingPush r b with
    | none => (0, r)
    | some r' =>
      match rivRingWrite r' src with
      | (i, r'') => (i + 1, r'')

/-- `riv_ring_read`: the bytes read, at most `n`. -/
def rivRingRead (r : Ring) : ℕ → List RivU8 × Ring
  | 0 => ([], r)
  | n + 1 =>
    match rivRingPop r with
    | none => ([], r)
    | some (b, r') =>
      match rivRingRead r' n with
      | (bytes, r'') => (b :: bytes, r'')

/-! ## A call and its steps -/

theorem exec_push {s : Spsc} {b : RivU8} {r : Ring} (hidle : s.producer = .idle)
    (h : rivRingPush s.ring b = some r) : exec Spsc.step s
        [.callPush b, .producer, .producer, .producer, .producer, .producer] =
      some { s with ring := r, pushed := s.pushed ++ [(s.ring.slot s.ring.head, b)] } := by
  obtain ⟨ring, producer, consumer, pushed, popped⟩ := s
  cases hidle
  unfold rivRingPush at h
  split at h
  · cases h
  · next hroom =>
    cases h
    simp [exec, Spsc.step, Spsc.stepProducer, hroom, Ring.slot]

theorem exec_pop {s : Spsc} {b : RivU8} {r : Ring} (hidle : s.consumer = .idle)
    (h : rivRingPop s.ring = some (b, r)) : exec Spsc.step s
        [.callPop, .consumer, .consumer, .consumer, .consumer, .consumer] =
      some { s with ring := r, popped := s.popped ++ [b] } := by
  obtain ⟨ring, producer, consumer, pushed, popped⟩ := s
  cases hidle
  unfold rivRingPop at h
  split at h
  · cases h
  · next hsome =>
    cases h
    simp [exec, Spsc.step, Spsc.stepConsumer, hsome]

section Calls

variable {k : ℕ} {r r' : Ring} {pushed : List (ℕ × RivU8)} {popped : List RivU8}

theorem RingOk.spscOk (h : RingOk k r pushed popped) : SpscOk k ⟨r, .idle, .idle, pushed, popped⟩ :=
  ⟨h, trivial, trivial⟩

theorem RingOk.push {b : RivU8} (h : RingOk k r pushed popped) (hpush : rivRingPush r b = some r') :
    RingOk k r' (pushed ++ [(r.slot r.head, b)]) popped :=
  (inv_of_exec (fun _ _ _ => SpscOk.step) h.spscOk (exec_push rfl hpush)).ring

theorem RingOk.pop {b : RivU8} (h : RingOk k r pushed popped)
    (hpop : rivRingPop r = some (b, r')) : RingOk k r' pushed (popped ++ [b]) :=
  (inv_of_exec (fun _ _ _ => SpscOk.step) h.spscOk (exec_pop rfl hpop)).ring

theorem rivRingFull_eq_true_iff : rivRingFull r = true ↔ r.mask < r.head - r.tail :=
  decide_eq_true_iff

theorem RingOk.rivRingFull_iff (h : RingOk k r pushed popped) :
    rivRingFull r = true ↔ pushed.length = popped.length + 2 ^ k := by
  rw [← h.full_iff h.popped_le h.pushed_le, ← h.tail, rivRingFull_eq_true_iff]

theorem rivRingEmpty_eq_true_iff : rivRingEmpty r = true ↔ r.head = r.tail := by
  rw [rivRingEmpty, decide_eq_true_iff, rivRingCount]
  constructor
  · intro h
    grind
  · intro h
    rw [h]
    exact BitVec.sub_self _

theorem RingOk.rivRingEmpty_iff (h : RingOk k r pushed popped) :
    rivRingEmpty r = true ↔ pushed.length = popped.length := by
  rw [← h.empty_iff h.popped_le h.pushed_le, ← h.head, rivRingEmpty_eq_true_iff]

theorem rivRingFull_of_push {b : RivU8} (h : rivRingPush r b = none) : rivRingFull r = true := by
  simp_all [rivRingPush, rivRingFull_eq_true_iff.mpr]

theorem rivRingEmpty_of_pop (h : rivRingPop r = none) : rivRingEmpty r = true := by
  simp_all [rivRingPop, rivRingEmpty_eq_true_iff.mpr]

theorem RingOk.ringWrite (h : RingOk k r pushed popped) (src : List RivU8) :
    ∃ placed, placed.map Prod.snd = src.take (rivRingWrite r src).1 ∧
      RingOk k (rivRingWrite r src).2 (pushed ++ placed) popped ∧
      (rivRingWrite r src).1 ≤ src.length ∧
      ((rivRingWrite r src).1 < src.length → rivRingFull (rivRingWrite r src).2 = true) := by
  induction src generalizing r pushed with
  | nil =>
    refine ⟨[], rfl, ?_, le_rfl, fun hlt => absurd hlt (lt_irrefl 0)⟩
    rwa [List.append_nil]
  | cons b src ih =>
    unfold rivRingWrite
    cases hpush : rivRingPush r b with
    | none =>
      refine ⟨[], rfl, ?_, Nat.zero_le _, fun _ => rivRingFull_of_push hpush⟩
      rwa [List.append_nil]
    | some r' =>
      obtain ⟨placed, hplaced, hok, hle, hfull⟩ := ih (h.push hpush)
      refine ⟨(r.slot r.head, b) :: placed, ?_, ?_, Nat.succ_le_succ hle,
        fun hlt => hfull (Nat.lt_of_succ_lt_succ hlt)⟩
      · rw [List.map_cons, hplaced]
        rfl
      · rwa [List.append_assoc, List.singleton_append] at hok

theorem RingOk.ringRead (h : RingOk k r pushed popped) (n : ℕ) :
    RingOk k (rivRingRead r n).2 pushed (popped ++ (rivRingRead r n).1) ∧
      (rivRingRead r n).1.length ≤ n ∧
      ((rivRingRead r n).1.length < n → rivRingEmpty (rivRingRead r n).2 = true) := by
  induction n generalizing r popped with
  | zero => simp_all [rivRingRead]
  | succ n ih =>
    unfold rivRingRead
    cases hpop : rivRingPop r with
    | none =>
      refine ⟨?_, Nat.zero_le _, fun _ => rivRingEmpty_of_pop hpop⟩
      rwa [List.append_nil]
    | some br =>
      obtain ⟨hok, hle, hempty⟩ := ih (h.pop hpop)
      refine ⟨?_, Nat.succ_le_succ hle, fun hlt => hempty (Nat.lt_of_succ_lt_succ hlt)⟩
      rwa [List.append_assoc, List.singleton_append] at hok

end Calls

end Rivet.Sync
