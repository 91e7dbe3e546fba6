import Rivet.Support.AlignUp
import Rivet.Support.Runs

/-!
# The bump allocator

`riv_bump` of `heap.h` on addresses of `w` bits, and runs of `riv_bump_alloc` and
`riv_bump_reset`.

The limit check adds the size to the aligned address modulo `2 ^ w`.  A size that makes
the sum wrap to a value that is not above the end is granted.
-/

namespace Rivet.Alloc

open AlignUp Runs BitVec

variable {w : ℕ}

/-! ## `riv_bump` -/

structure RivBump (w : ℕ) where
  base : BitVec w
  cur : BitVec w
  end_ : BitVec w
  deriving DecidableEq

def rivBumpInit (mem n : BitVec w) : RivBump w := ⟨mem, mem, mem + n⟩

/-- `riv_bump_alloc`; a null pointer is 0. -/
def rivBumpAlloc (b : RivBump w) (size align : BitVec w) : BitVec w × RivBump w :=
  let p := b.cur
  let a := (p + align - 1) &&& ~~~(align - 1)
  if b.end_ < a + size then (0, b) else (a, { b with cur := a + size })

def rivBumpReset (b : RivBump w) : RivBump w := { b with cur := b.base }

/-! ## Runs -/

/-- Memory that a program hands to an allocator: the pointer behind it is an address. -/
structure Arena (w : ℕ) where
  base : BitVec w
  size : BitVec w
  fits : base.toNat + size.toNat < 2 ^ w

def Arena.stop (A : Arena w) : ℕ := A.base.toNat + A.size.toNat

/-- The bytes that a call has returned. -/
structure Piece (w : ℕ) where
  addr : BitVec w
  size : BitVec w

def Piece.Holds (q : Piece w) (x : ℕ) : Prop :=
  q.addr.toNat ≤ x ∧ x < q.addr.toNat + q.size.toNat

/-- The allocator with what it has returned since the last reset. -/
structure BumpRun (w : ℕ) where
  bump : RivBump w
  pieces : List (Piece w)

/-- A call of `riv_bump_alloc` is given a power of two. -/
inductive BumpAction (w : ℕ) where
  | alloc (size : BitVec w) (k : Fin w)
  | reset

def BumpRun.step (s : BumpRun w) : BumpAction w → Option (BumpRun w)
  | .alloc size k =>
    let (p, b) := rivBumpAlloc s.bump size (BitVec.twoPow w k)
    some ⟨b, if p = 0 then s.pieces else ⟨p, size⟩ :: s.pieces⟩
  | .reset => some ⟨rivBumpReset s.bump, []⟩

def BumpRun.start (A : Arena w) : BumpRun w := ⟨rivBumpInit A.base A.size, []⟩

/-- What a call returns is aligned, inside the arena and apart from what has been returned
before; the cursor stays in the arena and does not move back. -/
structure AllocOk (A : Arena w) (s : BumpRun w) (size : BitVec w) (k : Fin w) : Prop where
  aligned : (rivBumpAlloc s.bump size (BitVec.twoPow w k)).1 ≠ 0 →
    2 ^ (k : ℕ) ∣ (rivBumpAlloc s.bump size (BitVec.twoPow w k)).1.toNat
  inside : (rivBumpAlloc s.bump size (BitVec.twoPow w k)).1 ≠ 0 →
    A.base.toNat ≤ (rivBumpAlloc s.bump size (BitVec.twoPow w k)).1.toNat ∧
      (rivBumpAlloc s.bump size (BitVec.twoPow w k)).1.toNat + size.toNat ≤ A.stop
  apart : (rivBumpAlloc s.bump size (BitVec.twoPow w k)).1 ≠ 0 →
    ∀ q ∈ s.pieces, ∀ x, q.Holds x →
      ¬Piece.Holds ⟨(rivBumpAlloc s.bump size (BitVec.twoPow w k)).1, size⟩ x
  cur : A.base.toNat ≤ (rivBumpAlloc s.bump size (BitVec.twoPow w k)).2.cur.toNat ∧
    (rivBumpAlloc s.bump size (BitVec.twoPow w k)).2.cur.toNat ≤ A.stop
  forward : s.bump.cur ≤ (rivBumpAlloc s.bump size (BitVec.twoPow w k)).2.cur

def CallOk (A : Arena w) (s : BumpRun w) : BumpAction w → Prop
  | .alloc size k => AllocOk A s size k
  | .reset => True

/-- The sum of the aligned cursor and the size is an address, or it is beyond the end even
modulo `2 ^ w`; or nothing is aligned behind the cursor and the size happens to be an
address between the cursor and the end. -/
def SumFits (s : BumpRun w) : BumpAction w → Prop
  | .alloc size k =>
    alignUp s.bump.cur.toNat (2 ^ (k : ℕ)) + size.toNat < 2 ^ w ∨
      s.bump.end_.toNat < (alignUp s.bump.cur.toNat (2 ^ (k : ℕ)) + size.toNat) % 2 ^ w ∨
      (alignUp s.bump.cur.toNat (2 ^ (k : ℕ)) = 2 ^ w ∧ s.bump.cur.toNat ≤ size.toNat)
  | .reset => True

/-- The cursor is in the arena, behind what has been returned. -/
structure BumpRun.Inv (A : Arena w) (s : BumpRun w) : Prop where
  base : s.bump.base = A.base
  end_ : s.bump.end_.toNat = A.stop
  low : A.base.toNat ≤ s.bump.cur.toNat
  high : s.bump.cur.toNat ≤ A.stop
  behind : ∀ q ∈ s.pieces, q.addr.toNat + q.size.toNat ≤ s.bump.cur.toNat

theorem BumpRun.inv_start (A : Arena w) : (BumpRun.start A).Inv A where
  base := rfl
  end_ := toNat_add_of_lt A.fits
  low := le_rfl
  high := Nat.le_add_right _ _
  behind q hq := absurd hq List.not_mem_nil

theorem rivBumpAlloc_cases (b : RivBump w) (size : BitVec w) (k : Fin w) :
    (b.end_.toNat < (alignUp b.cur.toNat (2 ^ (k : ℕ)) + size.toNat) % 2 ^ w ∧
        rivBumpAlloc b size (BitVec.twoPow w k) = (0, b)) ∨
      ((alignUp b.cur.toNat (2 ^ (k : ℕ)) + size.toNat) % 2 ^ w ≤ b.end_.toNat ∧
        ∃ a c, rivBumpAlloc b size (BitVec.twoPow w k) = (a, { b with cur := c }) ∧
          a.toNat = alignUp b.cur.toNat (2 ^ (k : ℕ)) % 2 ^ w ∧
          c.toNat = (alignUp b.cur.toNat (2 ^ (k : ℕ)) + size.toNat) % 2 ^ w) := by
  have ha := toNat_alignUp k.2 b.cur
  have hsum : (((b.cur + BitVec.twoPow w k - 1) &&& ~~~(BitVec.twoPow w k - 1)) + size).toNat =
      (alignUp b.cur.toNat (2 ^ (k : ℕ)) + size.toNat) % 2 ^ w := by
    rw [toNat_add, ha, Nat.mod_add_mod]
  rw [rivBumpAlloc]
  by_cases hlt : b.end_.toNat < (alignUp b.cur.toNat (2 ^ (k : ℕ)) + size.toNat) % 2 ^ w
  · rw [if_pos (lt_def.mpr (hsum ▸ hlt))]
    exact .inl ⟨hlt, rfl⟩
  · rw [if_neg fun h => hlt (hsum ▸ lt_def.mp h)]
    exact .inr ⟨Nat.le_of_not_lt hlt, _, _, rfl, ha, hsum⟩

theorem alignUp_le_two_pow (x : BitVec w) (k : Fin w) :
    x.toNat ≤ alignUp x.toNat (2 ^ (k : ℕ)) ∧ alignUp x.toNat (2 ^ (k : ℕ)) ≤ 2 ^ w :=
  ⟨le_alignUp (Nat.two_pow_pos k),
    alignUp_le (Nat.two_pow_pos k) x.isLt.le (Nat.pow_dvd_pow 2 k.2.le)⟩

section Calls

variable {A : Arena w} {s : BumpRun w} {size : BitVec w} {k : Fin w}

theorem BumpRun.Inv.allocOk_refused (hs : s.Inv A)
    (h : rivBumpAlloc s.bump size (BitVec.twoPow w k) = (0, s.bump)) : AllocOk A s size k where
  aligned hne := absurd (congrArg Prod.fst h) hne
  inside hne := absurd (congrArg Prod.fst h) hne
  apart hne := absurd (congrArg Prod.fst h) hne
  cur := by
    rw [h]
    exact ⟨hs.low, hs.high⟩
  forward := by
    rw [h]
    exact BitVec.le_refl _

theorem BumpRun.Inv.allocOk_granted (hs : s.Inv A) {a c : BitVec w}
    (h : rivBumpAlloc s.bump size (BitVec.twoPow w k) = (a, { s.bump with cur := c }))
    (ha : a.toNat = alignUp s.bump.cur.toNat (2 ^ (k : ℕ)))
    (hc : c.toNat = a.toNat + size.toNat) (hle : c.toNat ≤ A.stop) : AllocOk A s size k := by
  have hcur : s.bump.cur.toNat ≤ a.toNat := ha ▸ (alignUp_le_two_pow s.bump.cur k).1
  have hlow := hs.low
  refine ⟨?_, ?_, ?_, ?_, ?_⟩
  · simp [h, ha, dvd_alignUp]
  · rw [h]
    exact fun _ => ⟨hlow.trans hcur, hc ▸ hle⟩
  · rw [h]
    intro _ q hq x hx hx'
    have hbehind := hs.behind q hq
    have hbelow : x < _ := hx.2
    have habove : a.toNat ≤ x := hx'.1
    omega
  · grind
  · rw [h, le_def]
    show s.bump.cur.toNat ≤ c.toNat
    omega

theorem BumpRun.Inv.allocOk_iff (hs : s.Inv A) (size : BitVec w) (k : Fin w) :
    AllocOk A s size k ↔ SumFits s (.alloc size k) := by
  obtain ⟨hcur, hle⟩ := alignUp_le_two_pow s.bump.cur k
  have hsize := size.isLt
  have hend := hs.end_
  rcases rivBumpAlloc_cases s.bump size k with ⟨hlt, h⟩ | ⟨hge, a, c, h, ha, hc⟩
  · exact iff_of_true (hs.allocOk_refused h) (.inr (.inl hlt))
  have hnot : ¬s.bump.end_.toNat <
      (alignUp s.bump.cur.toNat (2 ^ (k : ℕ)) + size.toNat) % 2 ^ w := Nat.not_lt.mpr hge
  rcases hle.lt_or_eq with hlt | htop
  · rw [Nat.mod_eq_of_lt hlt] at ha
    by_cases hsum : alignUp s.bump.cur.toNat (2 ^ (k : ℕ)) + size.toNat < 2 ^ w
    · rw [Nat.mod_eq_of_lt hsum] at hc hge
      exact iff_of_true (hs.allocOk_granted h ha (ha ▸ hc) (by omega)) (.inl hsum)
    refine iff_of_false ?_ ?_
    · -- the sum wraps, so what is returned reaches beyond the arena
      intro hok
      have hne : a ≠ 0 := by
        rintro rfl
        have hzero : (0 : BitVec w).toNat = 0 := toNat_zero
        omega
      have hinside := hok.inside
      rw [h] at hinside
      have hreach : a.toNat + size.toNat ≤ A.stop := (hinside hne).2
      omega
    · rintro (hno | hno | ⟨hno, -⟩)
      all_goals omega
  · rw [htop, Nat.mod_self] at ha
    rw [htop, Nat.add_mod_left, Nat.mod_eq_of_lt hsize] at hc hge
    have hzero : a = 0 := eq_of_toNat_eq (ha.trans toNat_zero.symm)
    have hnull : (rivBumpAlloc s.bump size (BitVec.twoPow w k)).1 = 0 := by rw [h, hzero]
    have hlow := hs.low
    constructor
    · intro hok
      have hforward := hok.forward
      rw [h, le_def] at hforward
      have hforward' : s.bump.cur.toNat ≤ c.toNat := hforward
      exact .inr (.inr ⟨htop, hc ▸ hforward'⟩)
    · intro hfits
      have hforward : s.bump.cur.toNat ≤ size.toNat := by
        rcases hfits with hno | hno | ⟨-, hcase⟩
        all_goals omega
      refine ⟨fun hne => absurd hnull hne, fun hne => absurd hnull hne,
        fun hne => absurd hnull hne, ?_, ?_⟩
      · rw [h]
        show A.base.toNat ≤ c.toNat ∧ c.toNat ≤ A.stop
        omega
      simp_all [le_def]

theorem BumpRun.Inv.step {s' : BumpRun w} {a : BumpAction w} (hs : s.Inv A) (hok : CallOk A s a)
    (h : s.step a = some s') : s'.Inv A := by
  cases a with
  | reset =>
    cases h
    refine ⟨hs.base, hs.end_, ?_, ?_, fun q hq => absurd hq List.not_mem_nil⟩
    · show A.base.toNat ≤ s.bump.base.toNat
      rw [hs.base]
    · show s.bump.base.toNat ≤ A.stop
      rw [hs.base]
      exact Nat.le_add_right _ _
  | alloc size k =>
    have hforward := hok.forward
    have hinside := hok.inside
    have hcur := hok.cur
    rw [BumpRun.step] at h
    rcases rivBumpAlloc_cases s.bump size k with ⟨-, hcall⟩ | ⟨-, a, c, hcall, ha, hc⟩
    · rw [hcall] at h
      cases h
      exact hs
    · rw [hcall, le_def] at hforward
      rw [hcall] at h hinside hcur
      cases h
      refine ⟨hs.base, hs.end_, hcur.1, hcur.2, fun q hq => ?_⟩
      have hold (hq : q ∈ s.pieces) : q.addr.toNat + q.size.toNat ≤ c.toNat :=
        (hs.behind q hq).trans hforward
      split at hq
      · exact hold hq
      next hne =>
      rcases List.mem_cons.mp hq with rfl | hq
      · have hreach : a.toNat + size.toNat < 2 ^ w := (hinside hne).2.trans_lt A.fits
        rw [← Nat.mod_add_mod, ← ha, Nat.mod_eq_of_lt hreach] at hc
        exact hc.ge
      · exact hold hq

end Calls

/-- In every run, every call is as it should be if and only if the sums of all of them
fit. -/
theorem bump_ok_iff (A : Arena w) (as : List (BumpAction w)) :
    Meets BumpRun.step (CallOk A) (BumpRun.start A) as ↔
      Meets BumpRun.step SumFits (BumpRun.start A) as := by
  refine meets_iff_meets (BumpRun.Inv A) ?_ (fun _ _ _ hs hok h => hs.step hok h)
    (BumpRun.inv_start A)
  intro s a hs
  cases a with
  | alloc size k => exact hs.allocOk_iff size k
  | reset => exact Iff.rfl

def onePage : Arena 32 := ⟨0x1000, 0x1000, by decide⟩

/-- A request for almost the whole address space is granted, and moves the cursor back to
the start. -/
theorem bump_grants_wrapping : rivBumpAlloc (rivBumpInit onePage.base onePage.size) 0xfffff008 8 =
        (0x1000, ⟨0x1000, 8, 0x2000⟩) ∧
      ¬Meets BumpRun.step (CallOk onePage) (BumpRun.start onePage) [.alloc 0xfffff008 3] := by
  have hcall : rivBumpAlloc (rivBumpInit onePage.base onePage.size) 0xfffff008 8 =
      (0x1000, ⟨0x1000, 8, 0x2000⟩) := by decide
  refine ⟨hcall, fun hmeets => ?_⟩
  have hok : AllocOk onePage (BumpRun.start onePage) 0xfffff008 3 := hmeets.1
  exact absurd (hok.inside (by decide)).2 (by decide)

end Rivet.Alloc
