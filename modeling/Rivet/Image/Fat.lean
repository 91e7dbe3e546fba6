import Mathlib.Tactic
import Rivet.Disassembler.Basic

/-!
# Mounting a FAT volume

`riv_fat_mount` and `riv_fat_cluster_lba` of `fat.h`.  The mount works on the boot sector
that `riv_disk_read` has delivered, `none` if it failed, and a division by zero ends the
model.  Nothing is checked: neither the two divisors nor the order of the areas.
-/

namespace Rivet.Fat

open Disassembler

/-! ## The source -/

abbrev Sector := Fin 512 → RivU8

def le16 (sec : Sector) (i : Fin 512) : RivU16 := sec (i + 1) ++ sec i

def le32 (sec : Sector) (i : Fin 512) : RivU32 :=
  joinU32 (sec i) (sec (i + 1)) (sec (i + 2)) (sec (i + 3))

/-- `riv_fat_bpb`, without the fields that nothing reads. -/
structure RivFatBpb where
  bps : RivU16
  spc : RivU8
  reserved : RivU16
  nfats : RivU8
  rootEntries : RivU16
  smallSectors : RivU16
  spf16 : RivU16
  largeSectors : RivU32

def bpb (sec : Sector) : RivFatBpb where
  bps := le16 sec 11
  spc := sec 13
  reserved := le16 sec 14
  nfats := sec 16
  rootEntries := le16 sec 17
  smallSectors := le16 sec 19
  spf16 := le16 sec 22
  largeSectors := le32 sec 32

/-- `riv_fat`, without the disk. -/
structure RivFat where
  type : RivU32
  bytesPerSector : RivU32
  sectorsPerCluster : RivU32
  reservedSectors : RivU32
  numFats : RivU32
  rootEntries : RivU32
  sectorsPerFat : RivU32
  firstDataSector : RivU32
  firstFatSector : RivU32
  rootDirSector : RivU32
  rootCluster : RivU32

def sectorsPerFat (sec : Sector) : RivU32 :=
  if (bpb sec).spf16 ≠ 0 then (bpb sec).spf16.setWidth 32 else le32 sec 36

def totalSectors (sec : Sector) : RivU32 :=
  if (bpb sec).smallSectors ≠ 0 then (bpb sec).smallSectors.setWidth 32
  else (bpb sec).largeSectors

def rootDirSecs (sec : Sector) : RivU32 :=
  ((bpb sec).rootEntries.setWidth 32 * 32 + (bpb sec).bps.setWidth 32 - 1) /
    (bpb sec).bps.setWidth 32

def rootDirSector (sec : Sector) : RivU32 :=
  (bpb sec).reserved.setWidth 32 + (bpb sec).nfats.setWidth 32 * sectorsPerFat sec

def firstDataSector (sec : Sector) : RivU32 := rootDirSector sec + rootDirSecs sec

def clusters (sec : Sector) : RivU32 :=
  (totalSectors sec - firstDataSector sec) / (bpb sec).spc.setWidth 32

/-- `riv_fat_mount`. -/
def rivFatMount (f : RivFat) (read : Option Sector) : Option (RivI32 × RivFat) :=
  match read with
  | none => some (-1, f)
  | some sec =>
    if (bpb sec).bps = 0 ∨ (bpb sec).spc = 0 then none
    else
      some (0,
        { type := if clusters sec < 4085 then 12 else if clusters sec < 65525 then 16 else 32
          bytesPerSector := (bpb sec).bps.setWidth 32
          sectorsPerCluster := (bpb sec).spc.setWidth 32
          reservedSectors := (bpb sec).reserved.setWidth 32
          numFats := (bpb sec).nfats.setWidth 32
          rootEntries := (bpb sec).rootEntries.setWidth 32
          sectorsPerFat := sectorsPerFat sec
          firstDataSector := firstDataSector sec
          firstFatSector := (bpb sec).reserved.setWidth 32
          rootDirSector := rootDirSector sec
          rootCluster := if clusters sec < 65525 then f.rootCluster else le32 sec 44 })

/-- `riv_fat_cluster_lba`. -/
def rivFatClusterLba (f : RivFat) (cl : RivU32) : RivU32 :=
  f.firstDataSector + (cl - 2) * f.sectorsPerCluster

/-! ## Layouts -/

/-- The clusters of a volume of `total` sectors lie behind one another in its data area,
at the addresses without a wrap. -/
structure Consistent (f : RivFat) (total count : ℕ) : Prop where
  data : f.firstDataSector.toNat ≤ total
  inside : ∀ cl : RivU32, 2 ≤ cl.toNat → cl.toNat < count + 2 →
    (rivFatClusterLba f cl).toNat =
        f.firstDataSector.toNat + (cl.toNat - 2) * f.sectorsPerCluster.toNat ∧
      (rivFatClusterLba f cl).toNat + f.sectorsPerCluster.toNat ≤ total
  disjoint : ∀ cl cl' : RivU32, 2 ≤ cl.toNat → cl.toNat < cl'.toNat → cl'.toNat < count + 2 →
    (rivFatClusterLba f cl).toNat + f.sectorsPerCluster.toNat ≤ (rivFatClusterLba f cl').toNat

/-- The mount returns, with `-1` or with a consistent layout. -/
def MountsSafely (f : RivFat) (read : Option Sector) : Prop :=
  ∃ rc f', rivFatMount f read = some (rc, f') ∧
    (rc = -1 ∨ ∃ sec, read = some sec ∧ Consistent f' (totalSectors sec).toNat (clusters sec).toNat)

/-- The divisors are not zero, and the areas in front of the data, added up in 32 bits, are
not larger than the volume. -/
def LayoutFits (sec : Sector) : Prop :=
  (bpb sec).bps ≠ 0 ∧ (bpb sec).spc ≠ 0 ∧
    ((bpb sec).reserved.toNat + (bpb sec).nfats.toNat * (sectorsPerFat sec).toNat +
      ((bpb sec).rootEntries.toNat * 32 + (bpb sec).bps.toNat - 1) / (bpb sec).bps.toNat) % 2 ^ 32 ≤
      (totalSectors sec).toNat

variable {sec : Sector}

theorem toNat_firstDataSector (hbps : (bpb sec).bps ≠ 0) : (firstDataSector sec).toNat =
      ((bpb sec).reserved.toNat + (bpb sec).nfats.toNat * (sectorsPerFat sec).toNat +
        ((bpb sec).rootEntries.toNat * 32 + (bpb sec).bps.toNat - 1) / (bpb sec).bps.toNat) %
        2 ^ 32 := by
  have hpos : (bpb sec).bps.toNat ≠ 0 := fun h => hbps (BitVec.eq_of_toNat_eq h)
  have hone : BitVec.toNat (1 : RivU32) = 1 := rfl
  have hwide : BitVec.toNat (32 : RivU32) = 32 := rfl
  have hsecs : (rootDirSecs sec).toNat =
      ((bpb sec).rootEntries.toNat * 32 + (bpb sec).bps.toNat - 1) / (bpb sec).bps.toNat := by
    rw [rootDirSecs, BitVec.toNat_udiv, BitVec.toNat_sub, BitVec.toNat_add, BitVec.toNat_mul,
      BitVec.toNat_setWidth, BitVec.toNat_setWidth, hone, hwide]
    congr 1
    · omega
    · omega
  simp_all [firstDataSector, rootDirSector, BitVec.toNat_add, BitVec.toNat_mul,
    BitVec.toNat_setWidth, Nat.add_mod, Nat.mul_mod]

theorem consistent_of_fits {f : RivFat} {total count : ℕ} (htotal : total < 2 ^ 32)
    (hfits : f.firstDataSector.toNat + count * f.sectorsPerCluster.toNat ≤ total) :
    Consistent f total count := by
  have hlba (cl : RivU32) (hlow : 2 ≤ cl.toNat) (hhigh : cl.toNat < count + 2) :
      (rivFatClusterLba f cl).toNat =
          f.firstDataSector.toNat + (cl.toNat - 2) * f.sectorsPerCluster.toNat ∧
        f.firstDataSector.toNat + (cl.toNat - 2) * f.sectorsPerCluster.toNat +
          f.sectorsPerCluster.toNat ≤ total := by
    have hend : f.firstDataSector.toNat + (cl.toNat - 2) * f.sectorsPerCluster.toNat +
        f.sectorsPerCluster.toNat ≤ total := by
      refine le_trans ?_ hfits
      rw [Nat.add_assoc, ← Nat.succ_mul]
      gcongr
      omega
    have htwo : BitVec.toNat (2 : RivU32) = 2 := rfl
    have hle : (2 : RivU32) ≤ cl := BitVec.le_def.mpr (htwo.trans_le hlow)
    refine ⟨?_, hend⟩
    rw [rivFatClusterLba, BitVec.toNat_add, BitVec.toNat_mul,
      BitVec.toNat_sub_of_le hle, htwo, Nat.add_mod_mod]
    exact Nat.mod_eq_of_lt (by omega)
  refine ⟨le_trans (Nat.le_add_right ..) hfits, fun cl hlow hhigh => ?_, ?_⟩
  · simp_all
  intro cl cl' hlow hlt hhigh
  rw [(hlba cl hlow (by omega)).1, (hlba cl' (by omega) hhigh).1, Nat.add_assoc, ← Nat.succ_mul]
  gcongr
  omega

/-- A mount is safe exactly when the read fails or the layout in the sector fits. -/
theorem fat_mount_safe_iff (f : RivFat) (read : Option Sector) :
    MountsSafely f read ↔ ∀ sec, read = some sec → LayoutFits sec := by
  cases read with
  | none => exact ⟨fun _ => nofun, fun _ => ⟨-1, f, rfl, .inl rfl⟩⟩
  | some sec =>
    constructor
    · rintro ⟨rc, f', hmount, hsafe⟩ sec hread
      cases hread
      rw [rivFatMount] at hmount
      split at hmount
      · cases hmount
      next hzero =>
      rw [not_or] at hzero
      cases hmount
      rcases hsafe with hrc | ⟨sec', hsec, hlayout⟩
      · cases hrc
      · cases hsec
        exact ⟨hzero.1, hzero.2, (toNat_firstDataSector hzero.1).symm.trans_le hlayout.data⟩
    · intro hfits
      obtain ⟨hbps, hspc, hdata⟩ := hfits sec rfl
      rw [← toNat_firstDataSector hbps] at hdata
      rw [MountsSafely, rivFatMount, if_neg (not_or.mpr ⟨hbps, hspc⟩)]
      refine ⟨_, _, rfl, .inr ⟨sec, rfl, consistent_of_fits (totalSectors sec).isLt ?_⟩⟩
      have hcount : (clusters sec).toNat * ((bpb sec).spc.setWidth 32).toNat ≤
          (totalSectors sec).toNat - (firstDataSector sec).toNat := by
        rw [clusters, BitVec.toNat_udiv, BitVec.toNat_sub_of_le (BitVec.le_def.mpr hdata)]
        exact Nat.div_mul_le_self ..
      dsimp only
      omega

/-- A sector of zeros divides by zero. -/
theorem zero_sector_divides_by_zero : ¬∃ f : RivFat, MountsSafely f (some fun _ => 0) := by
  rintro ⟨f, rc, f', hmount, -⟩
  cases hmount

end Rivet.Fat
