import Mathlib
import Rivet.Core

/-!
# Time from the tick counter

`riv_now_ms` and `riv_now_us` of `time.h` multiply the 64-bit tick count by the number
of units in a second before they divide it by the tick rate.  They are exact as long as
the product fits in 64 bits; past that the time runs backwards, and a deadline that has
expired is open again.
-/

namespace Rivet.Time

/-- The globals of `time.h`. -/
structure Clock where
  rivTicks : RivU64
  rivTicksPerSec : RivU32
  deriving DecidableEq

variable {c : Clock}

/-- The conversion to a unit of which a second has `perSec`. -/
def nowIn (perSec : RivU64) (c : Clock) : RivU64 :=
  c.rivTicks * perSec / c.rivTicksPerSec.setWidth 64

/-- `riv_now_ms`. -/
def rivNowMs (c : Clock) : RivU64 := nowIn 1000 c

/-- `riv_now_us`. -/
def rivNowUs (c : Clock) : RivU64 := nowIn 1000000 c

/-- `riv_tick`. -/
def rivTick (c : Clock) : Clock := { c with rivTicks := c.rivTicks + 1 }

/-- `riv_deadline`. -/
structure RivDeadline where
  deadline : RivU64

/-- `riv_deadline_ms`. -/
def rivDeadlineMs (c : Clock) (ms : RivU32) : RivDeadline := ⟨rivNowMs c + ms.setWidth 64⟩

/-- `riv_deadline_expired`. -/
def rivDeadlineExpired (c : Clock) (d : RivDeadline) : Bool := d.deadline ≤ rivNowMs c

def Clock.at (c : Clock) (ticks : RivU64) : Clock := { c with rivTicks := ticks }

/-- A conversion is exact, and has not decreased since any earlier tick. -/
structure Converts (perSec : ℕ) (now : Clock → RivU64) (c : Clock) : Prop where
  exact_ : (now c).toNat = c.rivTicks.toNat * perSec / c.rivTicksPerSec.toNat
  monotone : ∀ ticks ≤ c.rivTicks, now (c.at ticks) ≤ now c

def StaysExpired (c : Clock) : Prop :=
  ∀ d, ∀ ticks ≤ c.rivTicks, rivDeadlineExpired (c.at ticks) d = true →
    rivDeadlineExpired c d = true

theorem toNat_nowIn (perSec : RivU64) (c : Clock) : (nowIn perSec c).toNat =
      c.rivTicks.toNat * perSec.toNat % 2 ^ 64 / c.rivTicksPerSec.toNat := by
  have hhz : c.rivTicksPerSec.toNat < 2 ^ 64 := by
    omega
  rw [nowIn, BitVec.toNat_udiv, BitVec.toNat_mul, BitVec.toNat_setWidth, Nat.mod_eq_of_lt hhz]

theorem mod_div_eq_iff {x m hz : ℕ} (hpos : 0 < hz) (hlt : hz ≤ m) :
    x % m / hz = x / hz ↔ x < m := by
  constructor
  · intro heq
    by_contra hge
    have hle : m ≤ x := Nat.le_of_not_lt hge
    have hmod : x % m ≤ x - hz := by
      rw [Nat.mod_eq_sub_mod hle]
      exact (Nat.mod_le _ _).trans (by omega)
    have hdiv : x % m / hz ≤ x / hz - 1 := by
      rw [← Nat.sub_mul_div_of_le x hz 1 (by omega), Nat.mul_one]
      exact Nat.div_le_div_right hmod
    have hone : 1 ≤ x / hz := (Nat.one_le_div_iff hpos).mpr (hlt.trans hle)
    omega
  · intro hx
    rw [Nat.mod_eq_of_lt hx]

theorem nowIn_converts_iff (hhz : c.rivTicksPerSec ≠ 0) (perSec : RivU64) :
    Converts perSec.toNat (nowIn perSec) c ↔ c.rivTicks.toNat * perSec.toNat < 2 ^ 64 := by
  have hpos : 0 < c.rivTicksPerSec.toNat := by
    by_contra hzero
    exact hhz (BitVec.eq_of_toNat_eq (by simpa using hzero))
  have hle : c.rivTicksPerSec.toNat ≤ 2 ^ 64 := by
    have := c.rivTicksPerSec.isLt
    omega
  constructor
  · intro h
    have hexact := h.exact_
    simp_all [toNat_nowIn, mod_div_eq_iff]
  · intro hlt
    refine ⟨?_, ?_⟩
    · rw [toNat_nowIn]
      exact (mod_div_eq_iff hpos hle).mpr hlt
    intro ticks hticks
    have hmul : ticks.toNat * perSec.toNat ≤ c.rivTicks.toNat * perSec.toNat :=
      Nat.mul_le_mul_right _ hticks
    rw [BitVec.le_def, toNat_nowIn, toNat_nowIn, Nat.mod_eq_of_lt hlt]
    exact Nat.div_le_div_right ((Nat.mod_le _ _).trans hmul)

theorem Converts.staysExpired (h : Converts 1000 rivNowMs c) : StaysExpired c := by
  intro d ticks hticks hexpired
  have hle : d.deadline ≤ rivNowMs (c.at ticks) := of_decide_eq_true hexpired
  exact decide_eq_true (BitVec.le_trans hle (h.monotone ticks hticks))

/-- Where the quotient fits in 64 bits, the time is exact and monotone, and expired
deadlines stay expired, exactly if the product of the ticks with the units of a second
fits as well. -/
theorem time_converts_iff (hhz : c.rivTicksPerSec ≠ 0) :
    (c.rivTicks.toNat * 1000 / c.rivTicksPerSec.toNat < 2 ^ 64 →
      (Converts 1000 rivNowMs c ∧ StaysExpired c ↔ c.rivTicks.toNat * 1000 < 2 ^ 64)) ∧
      (c.rivTicks.toNat * 1000000 / c.rivTicksPerSec.toNat < 2 ^ 64 →
        (Converts 1000000 rivNowUs c ↔ c.rivTicks.toNat * 1000000 < 2 ^ 64)) := by
  refine ⟨fun _ => ?_, fun _ => nowIn_converts_iff hhz 1000000⟩
  have hms : Converts 1000 rivNowMs c ↔ c.rivTicks.toNat * 1000 < 2 ^ 64 :=
    nowIn_converts_iff hhz 1000
  rw [and_iff_left_of_imp Converts.staysExpired, hms]

theorem time_converts_kilohertz :
    Converts 1000 rivNowMs ⟨12345, 1000⟩ ∧ StaysExpired ⟨12345, 1000⟩ :=
  ((@time_converts_iff ⟨12345, 1000⟩ (by decide)).1 (by decide)).mpr (by decide)

/-- The last tick at which the milliseconds of a clock at 1 GHz fit. -/
def beforeWrap : Clock := ⟨18446744073709551, 1000000000⟩

/-- One tick later 18446744073 milliseconds become none, and a deadline that has
expired is open again. -/
theorem time_runs_backwards : rivNowMs beforeWrap = 18446744073 ∧
      (rivTick beforeWrap).rivTicks.toNat * 1000 / 1000000000 = 18446744073 ∧
      rivNowMs (rivTick beforeWrap) = 0 ∧
      rivDeadlineExpired beforeWrap (rivDeadlineMs (beforeWrap.at 0) 1) = true ∧
      rivDeadlineExpired (rivTick beforeWrap) (rivDeadlineMs (beforeWrap.at 0) 1) = false := by
  decide

end Rivet.Time
