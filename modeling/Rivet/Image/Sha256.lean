import Rivet.Core
import Rivet.Support.Fips180

/-!
# Streaming SHA-256

`sha256.h`: the hash of a message that arrives in pieces.  The buffer is not
cleared by `riv_sha256_init`, so its bytes behind `buf_len` are arbitrary
throughout; only the first `buf_len` of them belong to the message.
-/

namespace Rivet.Image

/-- The working variables, and the words `h`. -/
abbrev ShaWords := Fips180.State

/-- `riv_sha256`. -/
structure RivSha256 where
  h : ShaWords
  buf : Vector RivU8 64
  bytesTotal : RivU64
  bufLen : RivU32
  deriving DecidableEq, Repr

/-! ## The block function -/

def rivRotr32 (v : RivU32) (n : ℕ) : RivU32 := (v >>> n) ||| (v <<< (32 - n))

theorem rivRotr32_eq (v : RivU32) {n : ℕ} (hn : n < 32) : rivRotr32 v n = v.rotateRight n := by
  rw [rivRotr32, BitVec.rotateRight_def, Nat.mod_eq_of_lt hn]

def sha256H0 : ShaWords :=
  ⟨0x6a09e667, 0xbb67ae85, 0x3c6ef372, 0xa54ff53a,
   0x510e527f, 0x9b05688c, 0x1f83d9ab, 0x5be0cd19⟩

def sha256K : List RivU32 :=
  [0x428a2f98, 0x71374491, 0xb5c0fbcf, 0xe9b5dba5, 0x3956c25b, 0x59f111f1, 0x923f82a4, 0xab1c5ed5,
   0xd807aa98, 0x12835b01, 0x243185be, 0x550c7dc3, 0x72be5d74, 0x80deb1fe, 0x9bdc06a7, 0xc19bf174,
   0xe49b69c1, 0xefbe4786, 0x0fc19dc6, 0x240ca1cc, 0x2de92c6f, 0x4a7484aa, 0x5cb0a9dc, 0x76f988da,
   0x983e5152, 0xa831c66d, 0xb00327c8, 0xbf597fc7, 0xc6e00bf3, 0xd5a79147, 0x06ca6351, 0x14292967,
   0x27b70a85, 0x2e1b2138, 0x4d2c6dfc, 0x53380d13, 0x650a7354, 0x766a0abb, 0x81c2c92e, 0x92722c85,
   0xa2bfe8a1, 0xa81a664b, 0xc24b8b70, 0xc76c51a3, 0xd192e819, 0xd6990624, 0xf40e3585, 0x106aa070,
   0x19a4c116, 0x1e376c08, 0x2748774c, 0x34b0bcb5, 0x391c0cb3, 0x4ed8aa4a, 0x5b9cca4f, 0x682e6ff3,
   0x748f82ee, 0x78a5636f, 0x84c87814, 0x8cc70208, 0x90befffa, 0xa4506ceb, 0xbef9a3f7, 0xc67178f2]

/-- `w[i]` for `i` below 16. -/
def shaWord (blk : Vector RivU8 64) (i : ℕ) : RivU32 :=
  let byte (j : ℕ) : RivU32 := (blk.toList.getD j 0).setWidth 32
  (byte (i * 4) <<< 24) ||| (byte (i * 4 + 1) <<< 16) ||| (byte (i * 4 + 2) <<< 8)
    ||| byte (i * 4 + 3)

/-- The words `w[0], …, w[i - 1]`, extended by `w[i]`. -/
def shaExtend (w : List RivU32) (i : ℕ) : List RivU32 :=
  let at' (j : ℕ) := w.getD j 0
  let s0 := rivRotr32 (at' (i - 15)) 7 ^^^ rivRotr32 (at' (i - 15)) 18 ^^^ (at' (i - 15) >>> 3)
  let s1 := rivRotr32 (at' (i - 2)) 17 ^^^ rivRotr32 (at' (i - 2)) 19 ^^^ (at' (i - 2) >>> 10)
  w ++ [at' (i - 16) + s0 + at' (i - 7) + s1]

/-- The array `w` after both loops that fill it. -/
def shaSchedule (blk : Vector RivU8 64) : List RivU32 :=
  (List.range' 16 48).foldl shaExtend ((List.range 16).map (shaWord blk))

def shaRound (w : List RivU32) (v : ShaWords) (i : ℕ) : ShaWords :=
  let s1 := rivRotr32 v.e 6 ^^^ rivRotr32 v.e 11 ^^^ rivRotr32 v.e 25
  let ch := (v.e &&& v.f) ^^^ (~~~v.e &&& v.g)
  let t1 := v.h + s1 + ch + sha256K.getD i 0 + w.getD i 0
  let s0 := rivRotr32 v.a 2 ^^^ rivRotr32 v.a 13 ^^^ rivRotr32 v.a 22
  let mj := (v.a &&& v.b) ^^^ (v.a &&& v.c) ^^^ (v.b &&& v.c)
  let t2 := s0 + mj
  ⟨t1 + t2, v.a, v.b, v.c, v.d + t1, v.e, v.f, v.g⟩

/-- The words `h` after a block. -/
def shaCompress (h : ShaWords) (blk : Vector RivU8 64) : ShaWords :=
  let w := shaSchedule blk
  let v := (List.range 64).foldl (shaRound w) h
  ⟨h.a + v.a, h.b + v.b, h.c + v.c, h.d + v.d, h.e + v.e, h.f + v.f, h.g + v.g, h.h + v.h⟩

/-- `_riv_sha256_block`. -/
def rivSha256Block (s : RivSha256) (blk : Vector RivU8 64) : RivSha256 :=
  { s with h := shaCompress s.h blk }

/-! ## The streaming calls -/

/-- `riv_sha256_init`. -/
def rivSha256Init (s : RivSha256) : RivSha256 :=
  { s with h := sha256H0, bytesTotal := 0, bufLen := 0 }

/-- `riv_memcpy` into the buffer; `none` for a store outside it. -/
def copyIn (buf : Vector RivU8 64) (at' : ℕ) : List RivU8 → Option (Vector RivU8 64)
  | [] => some buf
  | b :: bs => if h : at' < 64 then copyIn (buf.set at' b h) (at' + 1) bs else none

/-- Bytes stored at `buf_len`, which moves past them. -/
def shaStore (s : RivSha256) (bs : List RivU8) : Option RivSha256 := do
  let buf ← copyIn s.buf s.bufLen.toNat bs
  some { s with buf := buf, bufLen := s.bufLen + BitVec.ofNat 32 bs.length }

def shaFlush (s : RivSha256) : RivSha256 :=
  { rivSha256Block s s.buf with bufLen := 0 }

/-- The number of bytes one round of `riv_sha256_update` copies. -/
def shaCopy (s : RivSha256) (n : ℕ) : ℕ := min (64 - s.bufLen).toNat n

/-- One round of `riv_sha256_update`. -/
def shaUpdateRound (s : RivSha256) (p : List RivU8) : Option RivSha256 := do
  let s' ← shaStore s (p.take (shaCopy s p.length))
  some (if s'.bufLen = 64 then shaFlush s' else s')

theorem shaUpdateRound_progress {s s' : RivSha256} {p : List RivU8} (hp : p ≠ [])
    (h : shaUpdateRound s p = some s') :
    Prod.Lex (· < ·) (· < ·) ((p.drop (shaCopy s p.length)).length, s'.bufLen.toNat)
      (p.length, s.bufLen.toNat) := by
  have hlen : 0 < p.length := List.length_pos_iff.mpr hp
  by_cases hcopy : shaCopy s p.length = 0
  · have hfull : s.bufLen = 64 := by
      have hsub : (64 - s.bufLen).toNat = 0 := by
        simp only [shaCopy] at hcopy
        omega
      have hzero : 64 - s.bufLen = 0 := BitVec.eq_of_toNat_eq (by simpa using hsub)
      exact (sub_eq_zero.mp hzero).symm
    have hstore : shaStore s [] = some s := by simp [shaStore, copyIn]
    have hround : shaUpdateRound s p = some (shaFlush s) := by
      simp_all [shaUpdateRound, Option.bind_eq_bind, Option.bind_some]
    obtain rfl : shaFlush s = s' := Option.some.inj (hround.symm.trans h)
    rw [hcopy, List.drop_zero]
    apply Prod.Lex.right
    rw [hfull]
    exact Nat.zero_lt_succ 63
  grind

/-- The loop of `riv_sha256_update`. -/
def shaUpdateLoop (s : RivSha256) (p : List RivU8) : Option RivSha256 :=
  if hp : p = [] then some s
  else
    match h : shaUpdateRound s p with
    | none => none
    | some s' => shaUpdateLoop s' (p.drop (shaCopy s p.length))
termination_by (p.length, s.bufLen.toNat)
decreasing_by exact shaUpdateRound_progress hp h

/-- `riv_sha256_update`. -/
def rivSha256Update (s : RivSha256) (data : List RivU8) : Option RivSha256 :=
  shaUpdateLoop { s with bytesTotal := s.bytesTotal + BitVec.ofNat 64 data.length } data

/-- `while (s->buf_len < n) s->buf[s->buf_len++] = 0`. -/
def shaZerosTo (n : RivU32) (s : RivSha256) : Option RivSha256 :=
  (List.replicate (n.toNat - s.bufLen.toNat) 0).foldlM (fun s b => shaStore s [b]) s

/-- `riv_sha256_final`: the 32 bytes of `out`. -/
def rivSha256Final (s : RivSha256) : Option (List RivU8) := do
  let bits := s.bytesTotal * 8
  let s ← shaStore s [0x80]
  let s ← (if 56 < s.bufLen then do
      let s ← shaZerosTo 64 s
      some (shaFlush s)
    else some s)
  let s ← shaZerosTo 56 s
  let s ← [7, 6, 5, 4, 3, 2, 1, 0].foldlM
    (fun s i => shaStore s [(bits >>> (i * 8)).setWidth 8]) s
  let s := rivSha256Block s s.buf
  some ([s.h.a, s.h.b, s.h.c, s.h.d, s.h.e, s.h.f, s.h.g, s.h.h].flatMap fun x : RivU32 =>
    [(x >>> 24).setWidth 8, (x >>> 16).setWidth 8, (x >>> 8).setWidth 8, x.setWidth 8])

/-! ## The block function is the standard's compression -/

theorem sha256K_eq {i : ℕ} (hi : i < 64) : sha256K.getD i 0 = Fips180.k i := by
  have htable : (List.range 64).all (fun i =>
      sha256K.getD i 0 = Fips180.rootBits 3 (Fips180.primes.getD i 0)) = true := by
    decide +kernel
  rw [Fips180.k, Fips180.nth_prime hi]
  simp_all

theorem sha256H0_eq : sha256H0 = Fips180.initial := by
  have htable :
      let word (i : ℕ) := Fips180.rootBits 2 (Fips180.primes.getD i 0)
      sha256H0 = ⟨word 0, word 1, word 2, word 3, word 4, word 5, word 6, word 7⟩ := by
    decide +kernel
  rw [htable, Fips180.initial]
  simp (disch := decide) only [Fips180.nth_prime]

theorem shaWord_eq (blk : Vector RivU8 64) (i : ℕ) :
    shaWord blk i = Fips180.messageWord blk.toList i := by
  simp only [shaWord, Fips180.messageWord, Nat.mul_comm i 4, Nat.add_zero]

theorem shaExtend_schedule (m : ℕ → RivU32) {i : ℕ} (hi : 16 ≤ i) :
    shaExtend ((List.range i).map (Fips180.schedule m)) i =
      (List.range (i + 1)).map (Fips180.schedule m) := by
  have hat (j : ℕ) (hj : j < i) :
      ((List.range i).map (Fips180.schedule m)).getD j 0 = Fips180.schedule m j := by simp [hj]
  have hnext : Fips180.schedule m i =
      Fips180.schedule m (i - 16) + Fips180.sigma0 (Fips180.schedule m (i - 15)) +
        Fips180.schedule m (i - 7) + Fips180.sigma1 (Fips180.schedule m (i - 2)) := by
    rw [Fips180.schedule, if_neg (Nat.not_lt.mpr hi)]
    ring
  rw [List.range_succ, List.map_append, List.map_singleton, hnext, shaExtend]
  simp (disch := decide) only [hat (i - 16) (by omega), hat (i - 15) (by omega),
    hat (i - 7) (by omega), hat (i - 2) (by omega), rivRotr32_eq]
  rfl

theorem shaSchedule_eq (blk : Vector RivU8 64) :
    shaSchedule blk =
      (List.range 64).map (Fips180.schedule (Fips180.messageWord blk.toList)) := by
  set m := Fips180.messageWord blk.toList with hm
  have hstart : (List.range 16).map (shaWord blk) = (List.range 16).map (Fips180.schedule m) := by
    simp_all [shaWord_eq, Fips180.schedule]
  have hloop (n : ℕ) : (List.range' 16 n).foldl shaExtend
      ((List.range 16).map (Fips180.schedule m)) =
        (List.range (16 + n)).map (Fips180.schedule m) := by
    induction n with
    | zero => rfl
    | succ n ih =>
      rw [List.range'_1_concat, List.foldl_append, ih, List.foldl_cons, List.foldl_nil,
        shaExtend_schedule m (Nat.le_add_right 16 n)]
      rfl
  rw [shaSchedule, hstart, hloop 48]

theorem shaRound_eq (m : ℕ → RivU32) (v : ShaWords) {i : ℕ} (hi : i < 64) :
    shaRound ((List.range 64).map (Fips180.schedule m)) v i =
      Fips180.round (Fips180.k i) (Fips180.schedule m i) v := by
  have hw : ((List.range 64).map (Fips180.schedule m)).getD i 0 = Fips180.schedule m i := by
    simp_all
  simp (disch := decide) only [shaRound, hw, sha256K_eq hi, rivRotr32_eq]
  rfl

theorem shaCompress_eq (h : ShaWords) (blk : Vector RivU8 64) :
    shaCompress h blk = Fips180.compress h blk.toList := by
  have hrounds : (List.range 64).foldl (shaRound (shaSchedule blk)) h =
      (List.range 64).foldl (fun v t => Fips180.round (Fips180.k t)
        (Fips180.schedule (Fips180.messageWord blk.toList) t) v) h := by
    rw [shaSchedule_eq]
    apply List.foldl_ext
    simp_all [shaRound_eq]
  rw [shaCompress, Fips180.compress, ← hrounds]
  rfl

-- Each field is read off after unfolding: a comparison of the whole states would
-- evaluate the rounds.
@[simp] theorem shaFlush_bufLen (s : RivSha256) : (shaFlush s).bufLen = 0 := by
  unfold shaFlush
  rfl

@[simp] theorem shaFlush_bytesTotal (s : RivSha256) :
    (shaFlush s).bytesTotal = s.bytesTotal := by
  unfold shaFlush rivSha256Block
  rfl

theorem shaFlush_h (s : RivSha256) :
    (shaFlush s).h = Fips180.compress s.h s.buf.toList := by
  unfold shaFlush rivSha256Block
  exact shaCompress_eq s.h s.buf

/-! ## The buffer -/

theorem copyIn_spec (buf : Vector RivU8 64) {at' : ℕ} {bs : List RivU8}
    (h : at' + bs.length ≤ 64) :
    ∃ buf', copyIn buf at' bs = some buf' ∧
      buf'.toList.take (at' + bs.length) = buf.toList.take at' ++ bs := by
  induction bs generalizing buf at' with
  | nil => exact ⟨buf, rfl, (List.append_nil _).symm⟩
  | cons b bs ih =>
    rw [List.length_cons] at h
    have hat : at' < 64 := by omega
    obtain ⟨buf', hbuf', htake⟩ := ih (buf.set at' b hat) (show at' + 1 + bs.length ≤ 64 by omega)
    refine ⟨buf', by rw [copyIn, dif_pos hat, hbuf'], ?_⟩
    have hlen : at' < (buf.toList.set at' b).length := by simpa using hat
    have hset : (buf.set at' b hat).toList.take (at' + 1) = buf.toList.take at' ++ [b] := by
      rw [Vector.toList_set, List.take_succ_eq_append_getElem hlen, List.getElem_set_self,
        List.take_set, List.set_eq_of_length_le (List.length_take_le _ _)]
    rw [List.length_cons, show at' + (bs.length + 1) = at' + 1 + bs.length by omega, htake,
      hset, List.append_assoc, List.singleton_append]

/-- The first `buf_len` bytes of the buffer are those that wait behind the
completed blocks of `msg`. -/
structure Buffered (msg : List RivU8) (s : RivSha256) : Prop where
  fits : s.bufLen.toNat ≤ 64
  absorbed : BlockHash.Absorbed Fips180.compress 64 Fips180.initial msg s.h
    (s.buf.toList.take s.bufLen.toNat)

section Buffered

variable {msg : List RivU8} {s : RivSha256}

theorem rivSha256Init_buffered (s : RivSha256) : Buffered [] (rivSha256Init s) where
  fits := Nat.zero_le 64
  absorbed := by
    rw [← sha256H0_eq]
    exact BlockHash.Absorbed.nil sha256H0

theorem shaStore_spec (h : Buffered msg s) (bs : List RivU8)
    (hfits : s.bufLen.toNat + bs.length ≤ 64) :
    ∃ s', shaStore s bs = some s' ∧ Buffered (msg ++ bs) s' ∧
      s'.bufLen.toNat = s.bufLen.toNat + bs.length ∧ s'.bytesTotal = s.bytesTotal := by
  obtain ⟨buf, hbuf, htake⟩ := copyIn_spec s.buf hfits
  have hlen : (s.bufLen + BitVec.ofNat 32 bs.length).toNat = s.bufLen.toNat + bs.length := by
    rw [BitVec.toNat_add, BitVec.toNat_ofNat]
    omega
  refine ⟨{ s with buf := buf, bufLen := s.bufLen + BitVec.ofNat 32 bs.length },
    by simp [shaStore, hbuf], ⟨?_, ?_⟩, hlen, rfl⟩
  · rw [hlen]
    exact hfits
  · show BlockHash.Absorbed _ _ _ _ s.h
      (buf.toList.take (s.bufLen + BitVec.ofNat 32 bs.length).toNat)
    rw [hlen, htake]
    apply h.absorbed.append
    rw [List.length_take, Vector.length_toList]
    omega

theorem shaFlush_buffered (h : Buffered msg s) (hfull : s.bufLen.toNat = 64) :
    Buffered msg (shaFlush s) where
  fits := by simp
  absorbed := by
    have htake : s.buf.toList.take s.bufLen.toNat = s.buf.toList := by simp_all
    have habs := h.absorbed
    rw [htake] at habs
    have hzero : (0 : RivU32).toNat = 0 := rfl
    simp [shaFlush_h, shaFlush_bufLen, Vector.length_toList, habs.flush]

theorem shaStore_each (h : Buffered msg s) (bs : List RivU8)
    (hfits : s.bufLen.toNat + bs.length ≤ 64) :
    ∃ s', bs.foldlM (fun s b => shaStore s [b]) s = some s' ∧ Buffered (msg ++ bs) s' ∧
      s'.bufLen.toNat = s.bufLen.toNat + bs.length ∧ s'.bytesTotal = s.bytesTotal := by
  induction bs generalizing msg s with
  | nil => exact ⟨s, rfl, by rwa [List.append_nil], rfl, rfl⟩
  | cons b bs ih =>
    rw [List.length_cons] at hfits
    obtain ⟨s₁, hs₁, hbuf₁, hlen₁, htotal₁⟩ := shaStore_spec h [b]
      (by rw [List.length_singleton]; omega)
    grind

theorem shaZerosTo_spec (h : Buffered msg s) {n : RivU32} (hn : n.toNat ≤ 64)
    (hle : s.bufLen.toNat ≤ n.toNat) :
    ∃ s', shaZerosTo n s = some s' ∧
      Buffered (msg ++ List.replicate (n.toNat - s.bufLen.toNat) 0) s' ∧
      s'.bufLen.toNat = n.toNat := by
  obtain ⟨s', hs', hbuf, hlen, -⟩ := shaStore_each h
    (List.replicate (n.toNat - s.bufLen.toNat) 0) (by rw [List.length_replicate]; omega)
  rw [List.length_replicate] at hlen
  exact ⟨s', hs', hbuf, by omega⟩

/-! ## Updates -/

theorem toNat_bufLen_sub (hlt : s.bufLen.toNat < 64) :
    (64 - s.bufLen).toNat = 64 - s.bufLen.toNat := by
  rw [BitVec.toNat_sub_of_le (by rw [BitVec.le_def]; exact hlt.le)]
  rfl

theorem shaCopy_pos (hlt : s.bufLen.toNat < 64) {p : List RivU8} (hp : p ≠ []) :
    0 < shaCopy s p.length := by
  have hlen := List.length_pos_iff.mpr hp
  rw [shaCopy, toNat_bufLen_sub hlt]
  omega

theorem shaUpdateRound_spec (h : Buffered msg s) (hlt : s.bufLen.toNat < 64)
    (p : List RivU8) :
    ∃ s', shaUpdateRound s p = some s' ∧ s'.bufLen.toNat < 64 ∧
      Buffered (msg ++ p.take (shaCopy s p.length)) s' ∧ s'.bytesTotal = s.bytesTotal := by
  have hcopy : (p.take (shaCopy s p.length)).length ≤ 64 - s.bufLen.toNat := by
    rw [List.length_take, shaCopy, toNat_bufLen_sub hlt]
    omega
  obtain ⟨s₁, hs₁, hbuf₁, hlen₁, htotal₁⟩ := shaStore_spec h
    (p.take (shaCopy s p.length)) (by omega)
  have hround : shaUpdateRound s p = some (if s₁.bufLen = 64 then shaFlush s₁ else s₁) := by
    rw [shaUpdateRound, hs₁, Option.bind_eq_bind, Option.bind_some]
  by_cases hfull : s₁.bufLen = 64
  · refine ⟨shaFlush s₁, by rw [hround, if_pos hfull], by simp, ?_, ?_⟩
    · exact shaFlush_buffered hbuf₁ (by rw [hfull]; rfl)
    · rw [shaFlush_bytesTotal, htotal₁]
  · refine ⟨s₁, by rw [hround, if_neg hfull], ?_, hbuf₁, htotal₁⟩
    have hne : s₁.bufLen.toNat ≠ 64 := fun heq => hfull (BitVec.eq_of_toNat_eq heq)
    have := hbuf₁.fits
    omega

theorem shaUpdateLoop_spec (h : Buffered msg s) (hlt : s.bufLen.toNat < 64)
    (p : List RivU8) :
    ∃ s', shaUpdateLoop s p = some s' ∧ s'.bufLen.toNat < 64 ∧ Buffered (msg ++ p) s' ∧
      s'.bytesTotal = s.bytesTotal := by
  induction hn : p.length using Nat.strong_induction_on generalizing msg s p with
  | h n ih =>
    rw [shaUpdateLoop]
    split
    · grind
    · next hp =>
      obtain ⟨s₁, hs₁, hlt₁, hbuf₁, htotal₁⟩ := shaUpdateRound_spec h hlt p
      have hcopy : 0 < shaCopy s p.length := shaCopy_pos hlt hp
      obtain ⟨s₂, hs₂, hlt₂, hbuf₂, htotal₂⟩ :=
        ih (p.drop (shaCopy s p.length)).length
          (by rw [← hn, List.length_drop]; have := List.length_pos_iff.mpr hp; omega)
          hbuf₁ hlt₁ _ rfl
      rw [List.append_assoc, List.take_append_drop] at hbuf₂
      grind

/-- Between two calls the buffer is not full and the length is counted. -/
structure Streaming (msg : List RivU8) (s : RivSha256) : Prop extends Buffered msg s where
  room : s.bufLen.toNat < 64
  total : s.bytesTotal = BitVec.ofNat 64 msg.length

theorem rivSha256Init_streaming (s : RivSha256) : Streaming [] (rivSha256Init s) where
  toBuffered := rivSha256Init_buffered s
  room := Nat.zero_lt_succ 63
  total := rfl

theorem rivSha256Update_spec (h : Streaming msg s) (data : List RivU8) :
    ∃ s', rivSha256Update s data = some s' ∧ Streaming (msg ++ data) s' := by
  obtain ⟨s', hs', hlt, hbuf, htotal⟩ := shaUpdateLoop_spec
    (s := { s with bytesTotal := s.bytesTotal + BitVec.ofNat 64 data.length })
    ⟨h.fits, h.absorbed⟩ h.room data
  refine ⟨s', hs', hbuf, hlt, ?_⟩
  rw [htotal, List.length_append, BitVec.ofNat_add, ← h.total]

theorem rivSha256Updates_spec (h : Streaming msg s) (pieces : List (List RivU8)) :
    ∃ s', pieces.foldlM rivSha256Update s = some s' ∧
      Streaming (msg ++ pieces.flatten) s' := by
  induction pieces generalizing msg s with
  | nil => exact ⟨s, rfl, by rwa [List.flatten_nil, List.append_nil]⟩
  | cons piece pieces ih =>
    obtain ⟨s₁, hs₁, h₁⟩ := rivSha256Update_spec h piece
    grind

/-! ## Padding -/

theorem Buffered.length_eq (h : Buffered msg s) :
    ∃ n, msg.length = n * 64 + s.bufLen.toNat := by
  obtain ⟨n, full, hfull, hmsg, -⟩ := h.absorbed.completed
  have hfits := h.fits
  grind

/-- `riv_sha256_final` up to byte 56 of the last block: the marker and zeros,
with one more block if the marker ends behind byte 56. -/
def shaPad (s : RivSha256) : Option RivSha256 := do
  let s ← shaStore s [0x80]
  let s ← (if 56 < s.bufLen then do
      let s ← shaZerosTo 64 s
      some (shaFlush s)
    else some s)
  shaZerosTo 56 s

theorem shaPad_spec (h : Streaming msg s) :
    ∃ s', shaPad s = some s' ∧ s'.bufLen.toNat = 56 ∧
      Buffered (msg ++ 0x80 :: List.replicate (Fips180.padZeros msg.length) 0) s' := by
  have hroom := h.room
  obtain ⟨n, hn⟩ := h.length_eq
  obtain ⟨s₁, hs₁, hbuf₁, hlen₁, -⟩ := shaStore_spec h.toBuffered [0x80]
    (by rw [List.length_singleton]; omega)
  rw [List.length_singleton] at hlen₁
  have hpad : shaPad s = (if 56 < s₁.bufLen then do
      let s ← shaZerosTo 64 s₁
      some (shaFlush s)
    else some s₁) >>= shaZerosTo 56 := by
    rw [shaPad, hs₁, Option.bind_eq_bind, Option.bind_some]
  have h56 : (56 : RivU32).toNat = 56 := rfl
  have h64 : (64 : RivU32).toNat = 64 := rfl
  by_cases hlong : 56 < s₁.bufLen
  · have hlt : 56 < s₁.bufLen.toNat := BitVec.lt_def.mp hlong
    obtain ⟨s₂, hs₂, hbuf₂, hlen₂⟩ := shaZerosTo_spec hbuf₁ (n := 64) h64.le (by omega)
    have hbuf₃ := shaFlush_buffered hbuf₂ hlen₂
    have hlen₃ : (shaFlush s₂).bufLen.toNat = 0 := by rw [shaFlush_bufLen]; rfl
    obtain ⟨s₄, hs₄, hbuf₄, hlen₄⟩ :=
      shaZerosTo_spec hbuf₃ (n := 56) (by omega) (by omega)
    refine ⟨s₄, ?_, hlen₄, ?_⟩
    · rw [hpad, if_pos hlong, hs₂, Option.bind_eq_bind, Option.bind_some, Option.bind_some,
        hs₄]
    · have hzeros : 64 - s₁.bufLen.toNat + 56 = Fips180.padZeros msg.length := by
        rw [Fips180.padZeros, hn]
        omega
      rw [hlen₃, h64, h56, Nat.sub_zero, List.append_assoc, List.append_assoc,
        List.replicate_append_replicate, hzeros, List.singleton_append] at hbuf₄
      exact hbuf₄
  · have hle : s₁.bufLen.toNat ≤ 56 := by
      rw [BitVec.lt_def] at hlong
      omega
    obtain ⟨s₂, hs₂, hbuf₂, hlen₂⟩ := shaZerosTo_spec hbuf₁ (n := 56) (by omega) (by omega)
    refine ⟨s₂, ?_, hlen₂, ?_⟩
    · rw [hpad, if_neg hlong, Option.bind_eq_bind, Option.bind_some, hs₂]
    · have hzeros : 56 - s₁.bufLen.toNat = Fips180.padZeros msg.length := by
        rw [Fips180.padZeros, hn]
        omega
      simp_all

theorem rivSha256Final_eq (s : RivSha256) :
    rivSha256Final s = (do
      let s₁ ← shaPad s
      let s₂ ← (Fips180.lengthBytes (s.bytesTotal * 8)).foldlM (fun s b => shaStore s [b]) s₁
      some (shaFlush s₂).h.bytes) := by
  simp only [rivSha256Final, shaPad, Fips180.lengthBytes, List.foldlM_map, bind_assoc]
  rfl

theorem rivSha256Final_spec (h : Streaming msg s) :
    rivSha256Final s = some (Fips180.sha256 msg) := by
  obtain ⟨s₁, hs₁, hlen₁, hbuf₁⟩ := shaPad_spec h
  have hbits : s.bytesTotal * 8 = BitVec.ofNat 64 (8 * msg.length) := by
    rw [h.total, Nat.mul_comm, BitVec.ofNat_mul]
    rfl
  obtain ⟨s₂, hs₂, hbuf₂, hlen₂, -⟩ := shaStore_each hbuf₁
    (Fips180.lengthBytes (s.bytesTotal * 8)) (by rw [hlen₁]; rfl)
  have hfull : s₂.bufLen.toNat = 64 := by
    rw [hlen₂, hlen₁]
    rfl
  have habs := (shaFlush_buffered hbuf₂ hfull).absorbed
  have hzero : (0 : RivU32).toNat = 0 := rfl
  rw [shaFlush_bufLen, hzero, List.take_zero, hbits] at habs
  rw [rivSha256Final_eq, hs₁, Option.bind_eq_bind, Option.bind_some, hs₂,
    Option.bind_some, Fips180.sha256, Fips180.pad,
    habs.run_eq (Nat.zero_lt_succ 63)]

end Buffered

/-- Whatever is in the object before `riv_sha256_init`, and however a message is
cut into pieces, the calls store inside the buffer only and the digest is the
standard's.  From `2 ^ 61` bytes on both count the bits modulo `2 ^ 64`. -/
theorem sha256_streaming (object : RivSha256) (pieces : List (List RivU8)) :
    (pieces.foldlM rivSha256Update (rivSha256Init object) >>= rivSha256Final) =
      some (Fips180.sha256 pieces.flatten) := by
  obtain ⟨s, hs, hstream⟩ := rivSha256Updates_spec (rivSha256Init_streaming object) pieces
  rw [hs, Option.bind_eq_bind, Option.bind_some, rivSha256Final_spec hstream, List.nil_append]

end Rivet.Image
