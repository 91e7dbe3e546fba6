import Rivet.Sync.RingCalls

/-!
# The line discipline of the terminal

`tty.h` collects the characters of a line and hands the line to the reader
through a ring of 256 bytes when it ends.  The bytes are pushed one by one and
the result of the push is not looked at, so a line is handed over whole when the
ring has room for all of it, and lost whole when the ring is full.
-/

namespace Rivet.Sync

open List Runs

/-! ## The terminal -/

/-- `RIV_TTY_RAW` and `RIV_TTY_COOKED`. -/
inductive TtyMode where
  | raw
  | cooked
  deriving DecidableEq

/-- `riv_tty`: the characters sent to the device, if there is one, the line up to
`line_len`, and the ring. -/
structure Tty where
  uart : Option (List RivU8)
  mode : TtyMode
  echo : Bool
  line : List RivU8
  ring : Ring

def rivTtyBufSz : ℕ := 128

def rivTtyInit (uart : Option (List RivU8)) (mode : TtyMode) (buf : ℕ → RivU8) : Tty where
  uart := uart
  mode := mode
  echo := mode = .cooked
  line := []
  ring := (rivRingInit buf 256).getD ⟨buf, 0, 0, 0⟩

def Tty.echoed (t : Tty) (cs : List RivU8) : Tty :=
  if t.echo then { t with uart := t.uart.map (· ++ cs) } else t

@[simp] theorem Tty.echoed_line (t : Tty) (cs : List RivU8) : (t.echoed cs).line = t.line := by
  unfold Tty.echoed
  split <;> rfl

@[simp] theorem Tty.echoed_mode (t : Tty) (cs : List RivU8) : (t.echoed cs).mode = t.mode := by
  unfold Tty.echoed
  split <;> rfl

@[simp] theorem Tty.echoed_ring (t : Tty) (cs : List RivU8) : (t.echoed cs).ring = t.ring := by
  unfold Tty.echoed
  split <;> rfl

def pushOrDrop (r : Ring) (b : RivU8) : Ring := (rivRingPush r b).getD r

def rivTtyPush (t : Tty) (c : ℤ) : Tty :=
  if t.mode = .raw then
    { t with ring := pushOrDrop t.ring (BitVec.ofInt 8 c) }.echoed [BitVec.ofInt 8 c]
  else if c = 8 ∨ c = 0x7F then
    if t.line.length > 0 then { t with line := t.line.dropLast }.echoed [8, 32, 8] else t
  else if c = 13 ∨ c = 10 then
    let t := t.echoed [13, 10]
    { t with ring := pushOrDrop (t.line.foldl pushOrDrop t.ring) 10, line := [] }
  else if t.line.length + 1 < rivTtyBufSz then
    { t with line := t.line ++ [BitVec.ofInt 8 c] }.echoed [BitVec.ofInt 8 c]
  else t

def rivTtyRead (t : Tty) (n : RivU32) : List RivU8 × Tty :=
  match rivRingRead t.ring n.toNat with
  | (bytes, ring) => (bytes, { t with ring := ring })

/-- The terminal, the characters typed and the bytes delivered so far. -/
structure Session where
  tty : Tty
  typed : List ℤ
  delivered : List RivU8

inductive TtyCall where
  | push (c : ℤ)
  | read (n : RivU32)

def Session.step (s : Session) : TtyCall → Option Session
  | .push c => some { s with tty := rivTtyPush s.tty c, typed := s.typed ++ [c] }
  | .read n =>
    match rivTtyRead s.tty n with
    | (bytes, tty) => some { s with tty := tty, delivered := s.delivered ++ bytes }

def Session.start (uart : Option (List RivU8)) (buf : ℕ → RivU8) : Session :=
  ⟨rivTtyInit uart .cooked buf, [], []⟩

/-! ## Lines -/

/-- The line that is being typed and the lines completed, after one more
character. -/
def editStep (s : List RivU8 × List (List RivU8)) (c : ℤ) : List RivU8 × List (List RivU8) :=
  if c = 8 ∨ c = 0x7F then (s.1.dropLast, s.2)
  else if c = 13 ∨ c = 10 then ([], s.2 ++ [s.1 ++ [10]])
  else if s.1.length < 127 then (s.1 ++ [BitVec.ofInt 8 c], s.2)
  else s

def edited (typed : List ℤ) : List RivU8 × List (List RivU8) := typed.foldl editStep ([], [])

/-- What was delivered is the start of some of the completed lines, in order. -/
def WholeLines (s : Session) : Prop :=
  ∃ kept, kept <+ (edited s.typed).2 ∧ s.delivered <+: kept.flatten

/-- A line ends when the ring is full or has room for all of it. -/
def RoomForLine (s : Session) : TtyCall → Prop
  | .push c => c = 13 ∨ c = 10 → (rivRingCount s.tty.ring).toNat = 256 ∨
      (rivRingCount s.tty.ring).toNat + s.tty.line.length + 1 ≤ 256
  | .read _ => True

/-! ## The terminal as a queue of bytes -/

/-- What the ring is for: a queue of at most 256 bytes. -/
structure LineQueue where
  line : List RivU8
  queue : List RivU8
  typed : List ℤ
  delivered : List RivU8

def LineQueue.step (q : LineQueue) : TtyCall → LineQueue
  | .push c =>
    let q := { q with typed := q.typed ++ [c] }
    if c = 8 ∨ c = 0x7F then { q with line := q.line.dropLast }
    else if c = 13 ∨ c = 10 then
      { q with line := [], queue := q.queue ++ (q.line ++ [10]).take (256 - q.queue.length) }
    else if q.line.length < 127 then { q with line := q.line ++ [BitVec.ofInt 8 c] }
    else q
  | .read n =>
    { q with queue := q.queue.drop n.toNat, delivered := q.delivered ++ q.queue.take n.toNat }

/-- The terminal in cooked mode does what the queue does. -/
structure Refines (s : Session) (q : LineQueue) : Prop where
  mode : s.tty.mode = .cooked
  line : s.tty.line = q.line
  typed : s.typed = q.typed
  delivered : s.delivered = q.delivered
  ring : ∃ pushed, RingOk 8 s.tty.ring pushed s.delivered ∧
    pushed.map Prod.snd = q.delivered ++ q.queue

section Pushes

variable {k : ℕ} {r : Ring} {pushed : List (ℕ × RivU8)} {popped : List RivU8}

theorem RingOk.foldl_pushOrDrop (h : RingOk k r pushed popped) (bs : List RivU8) :
    ∃ placed, placed.map Prod.snd = bs.take (popped.length + 2 ^ k - pushed.length) ∧
      RingOk k (bs.foldl pushOrDrop r) (pushed ++ placed) popped := by
  induction bs generalizing r pushed with
  | nil => exact ⟨[], by simp, by rwa [append_nil]⟩
  | cons b bs ih =>
    cases hpush : rivRingPush r b with
    | none =>
      have hfull := h.rivRingFull_iff.mp (rivRingFull_of_push hpush)
      obtain ⟨placed, hplaced, hok⟩ := ih h
      rw [foldl_cons, pushOrDrop, hpush]
      simp_all
    | some r' =>
      have hok' := h.push hpush
      have hroom := hok'.pushed_le
      obtain ⟨placed, hplaced, hok⟩ := ih hok'
      rw [length_append, length_singleton] at hplaced hroom
      refine ⟨(r.slot r.head, b) :: placed, ?_, ?_⟩
      · rw [map_cons, hplaced, ← take_succ_cons]
        congr 1
        omega
      grind [pushOrDrop, append_assoc, singleton_append]

theorem RingOk.read_eq (h : RingOk k r pushed popped) {queue : List RivU8}
    (hqueue : pushed.map Prod.snd = popped ++ queue) (n : ℕ) :
    (rivRingRead r n).1 = queue.take n := by
  obtain ⟨hok, hle, hempty⟩ := h.ringRead n
  have hfifo := hok.fifo
  rw [hqueue, prefix_append_right_inj] at hfifo
  have hlen := congrArg length hqueue
  rw [length_map, length_append] at hlen
  have htake : (rivRingRead r n).1.length = min n queue.length := by
    have hle' := hfifo.length_le
    by_cases hlt : (rivRingRead r n).1.length < n
    · have heq := hok.rivRingEmpty_iff.mp (hempty hlt)
      rw [length_append] at heq
      omega
    · omega
  rw [prefix_iff_eq_take.mp hfifo, htake, take_eq_take_iff]
  omega

end Pushes

theorem refines_start (uart : Option (List RivU8)) (buf : ℕ → RivU8) :
    Refines (.start uart buf) ⟨[], [], [], []⟩ := by
  obtain ⟨k, hk, hok⟩ := exists_cap_of_init (rfl : rivRingInit buf 256 = some _)
  have hk : k = 8 := Nat.pow_right_injective le_rfl (hk.symm.trans (rfl : _ = 2 ^ 8))
  exact ⟨rfl, rfl, rfl, rfl, [], hk ▸ hok.ring, rfl⟩

variable {s : Session} {q : LineQueue}

theorem Refines.length_queue (h : Refines s q) :
    (rivRingCount s.tty.ring).toNat = q.queue.length := by
  obtain ⟨pushed, hok, hpushed⟩ := h.ring
  have hlen := congrArg length hpushed
  have hle := hok.pushed_le
  rw [length_map, length_append, ← h.delivered] at hlen
  rw [rivRingCount, hok.head, hok.tail, Counter.toNat_sub hok.popped_le (by omega)]
  omega

theorem Refines.push (h : Refines s q) (c : ℤ) :
    Refines { s with tty := rivTtyPush s.tty c, typed := s.typed ++ [c] } (q.step (.push c)) := by
  have hcooked : ¬s.tty.mode = .raw := by
    rw [h.mode]
    exact nofun
  have htyped : s.typed ++ [c] = q.typed ++ [c] := by rw [h.typed]
  simp only [rivTtyPush, LineQueue.step, hcooked, if_false]
  by_cases hback : c = 8 ∨ c = 0x7F
  · simp only [if_pos hback]
    by_cases hpos : s.tty.line.length > 0
    · rw [if_pos hpos]
      exact ⟨by simp [h.mode], by simp [h.line], htyped, h.delivered, by simpa using h.ring⟩
    · have hnil : s.tty.line = [] := length_eq_zero_iff.mp (Nat.eq_zero_of_not_pos hpos)
      rw [if_neg hpos]
      exact ⟨h.mode, by simp [← h.line, hnil], htyped, h.delivered, h.ring⟩
  · by_cases hend : c = 13 ∨ c = 10
    · obtain ⟨pushed, hok, hpushed⟩ := h.ring
      obtain ⟨placed, hplaced, hok'⟩ := hok.foldl_pushOrDrop (s.tty.line ++ [10])
      have hlen := congrArg length hpushed
      rw [length_map, length_append, ← h.delivered] at hlen
      simp only [if_neg hback, if_pos hend]
      refine ⟨by simp [h.mode], rfl, htyped, h.delivered, pushed ++ placed, ?_, ?_⟩
      · simpa using hok'
      · rw [map_append, hpushed, hplaced, h.line, append_assoc, hlen]
        congr 3
        omega
    · simp only [if_neg hback, if_neg hend]
      by_cases hlen : s.tty.line.length + 1 < rivTtyBufSz
      · have hlen' : q.line.length < 127 := h.line ▸ Nat.lt_of_succ_lt_succ hlen
        rw [if_pos hlen, if_pos hlen']
        exact ⟨by simp [h.mode], by simp [h.line], htyped, h.delivered, by simpa using h.ring⟩
      · have hlen' : ¬q.line.length < 127 := fun hlt => hlen (h.line ▸ Nat.succ_lt_succ hlt)
        rw [if_neg hlen, if_neg hlen']
        exact ⟨h.mode, h.line, htyped, h.delivered, h.ring⟩

theorem Refines.step {s' : Session} {a : TtyCall} (h : Refines s q) (hs : s.step a = some s') :
    Refines s' (q.step a) := by
  cases a with
  | push c =>
    cases hs
    exact h.push c
  | read n =>
    cases hs
    obtain ⟨pushed, hok, hpushed⟩ := h.ring
    have hread := hok.read_eq (h.delivered ▸ hpushed) n.toNat
    refine ⟨h.mode, h.line, h.typed, ?_, pushed, (hok.ringRead n.toNat).1, ?_⟩
    all_goals simp [hread, h.delivered, LineQueue.step, hpushed]

theorem Refines.exec (h : Refines s q) (calls : List TtyCall) :
    ∃ s', exec Session.step s calls = some s' ∧ Refines s' (calls.foldl LineQueue.step q) := by
  induction calls generalizing s q with
  | nil => exact ⟨s, rfl, h⟩
  | cons a calls ih =>
    obtain ⟨s1, hs1⟩ : ∃ s1, s.step a = some s1 := by cases a <;> exact ⟨_, rfl⟩
    obtain ⟨s', hs', h'⟩ := ih (h.step hs1)
    simp_all [exec_cons, Option.bind_some]

/-! ## Whole lines -/

/-- The queue has taken some of the completed lines, whole and in order. -/
structure QueueOk (q : LineQueue) : Prop where
  line : q.line = (edited q.typed).1
  lines : ∃ kept, kept <+ (edited q.typed).2 ∧ q.delivered ++ q.queue = kept.flatten

theorem QueueOk.push (h : QueueOk q) {c : ℤ}
    (hroom : c = 13 ∨ c = 10 → q.queue.length = 256 ∨ q.queue.length + q.line.length + 1 ≤ 256) :
    QueueOk (q.step (.push c)) := by
  have hedit : edited (q.typed ++ [c]) = editStep (edited q.typed) c := by simp [edited]
  obtain ⟨kept, hkept, hflat⟩ := h.lines
  unfold LineQueue.step
  by_cases hback : c = 8 ∨ c = 0x7F
  · simp only [editStep, if_pos hback] at hedit ⊢
    exact ⟨by rw [hedit, h.line], kept, by rwa [hedit], hflat⟩
  by_cases hend : c = 13 ∨ c = 10
  · simp only [editStep, if_neg hback, if_pos hend] at hedit ⊢
    refine ⟨by rw [hedit], ?_⟩
    rw [hedit]
    obtain hfull | hfits := hroom hend
    · refine ⟨kept, hkept.trans (sublist_append_left ..), ?_⟩
      simp_all
    · refine ⟨kept ++ [q.line ++ [10]], h.line ▸ hkept.append (.refl _), ?_⟩
      rw [take_of_length_le (by simp; omega), ← append_assoc, hflat, flatten_append,
        flatten_singleton]
  · simp only [editStep, if_neg hback, if_neg hend, ← h.line] at hedit ⊢
    by_cases hlen : q.line.length < 127
    · simp only [if_pos hlen] at hedit ⊢
      exact ⟨by rw [hedit], kept, by rwa [hedit], hflat⟩
    · simp only [if_neg hlen] at hedit ⊢
      exact ⟨by rw [hedit, h.line], kept, by rwa [hedit], hflat⟩

theorem QueueOk.read (h : QueueOk q) (n : RivU32) : QueueOk (q.step (.read n)) := by
  obtain ⟨kept, hkept, hflat⟩ := h.lines
  refine ⟨h.line, kept, hkept, ?_⟩
  rw [← hflat]
  simp [LineQueue.step]

/-- In every session in which each line ends with the ring full or with room for all
of it, the bytes delivered are, at every moment, the start of some of the completed
lines, in order. -/
theorem delivered_in_whole_lines (uart : Option (List RivU8)) (buf : ℕ → RivU8)
    (calls : List TtyCall) (h : Meets Session.step RoomForLine (.start uart buf) calls) :
    Always Session.step WholeLines (.start uart buf) calls := by
  have hstart : Refines (.start uart buf) ⟨[], [], [], []⟩ ∧ QueueOk ⟨[], [], [], []⟩ :=
    ⟨refines_start uart buf, rfl, [], .slnil, rfl⟩
  refine @always_of_meets _ _ _ (fun s => ∃ q, Refines s q ∧ QueueOk q) _ _ _ _ ?_ ?_ ⟨_, hstart⟩ h
  · rintro s a s' ⟨q, hs, hq⟩ hroom hstep
    refine ⟨q.step a, hs.step hstep, ?_⟩
    cases a with
    | push c =>
      rw [RoomForLine, hs.length_queue, hs.line] at hroom
      exact hq.push hroom
    | read n => exact hq.read n
  · rintro s ⟨q, hs, hq⟩
    obtain ⟨kept, hkept, hflat⟩ := hq.lines
    exact ⟨kept, hs.typed ▸ hkept, hs.delivered ▸ hflat ▸ prefix_append ..⟩

instance RoomForLine.decidable (s : Session) : (a : TtyCall) → Decidable (RoomForLine s a)
  | .push _ => inferInstanceAs (Decidable (_ → _))
  | .read _ => inferInstanceAs (Decidable True)

/-- Two characters, one taken back, and a line read in two parts. -/
theorem delivered_in_whole_lines_hi : Always Session.step WholeLines (.start none fun _ => 0)
      [.push 104, .push 120, .push 8, .push 105, .push 13, .read 1, .read 5] :=
  delivered_in_whole_lines none _ _ (by decide)

/-- Two long lines leave room for one byte, and then two short ones are typed. -/
def fourLines : List TtyCall :=
  (replicate 127 97 ++ 10 :: replicate 126 98 ++ [10, 99, 99, 10]).map .push ++
    [.read 256, .push 100, .push 10, .read 2]

/-- The first letter of the third line is delivered in front of the fourth. -/
theorem lines_merged :
    ∃ s, exec Session.step (.start none fun _ => 0) fourLines = some s ∧ ¬WholeLines s := by
  obtain ⟨s, hs, href⟩ := (refines_start none fun _ => 0).exec fourLines
  refine ⟨s, hs, ?_⟩
  rintro ⟨kept, hkept, hprefix⟩
  rw [href.typed, ← mem_sublists] at hkept
  rw [href.delivered] at hprefix
  have hnone : ∀ kept ∈ (edited (fourLines.foldl LineQueue.step ⟨[], [], [], []⟩).typed).2.sublists,
      ¬(fourLines.foldl LineQueue.step ⟨[], [], [], []⟩).delivered <+: kept.flatten := by
    decide +kernel
  exact hnone kept hkept hprefix

end Rivet.Sync
