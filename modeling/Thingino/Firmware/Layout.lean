import Thingino.Lib.Overlay

/-! The flash layout that the Makefile computes.

Boot loader, environment and configuration have partitions of a fixed size; kernel and root file system get
as many erase blocks as their images need, and the extras get the rest of the flash. Offsets are sums of
partition sizes in bytes; `mtdparts` has the sizes in KB, and an offset only with the extras and with the two
aliases behind them. -/
namespace Thingino.Firmware
open Lib

/-- The images that go into the full one. -/
structure Components where
  uBoot : List Byte
  config : List Byte
  kernel : List Byte
  rootfs : List Byte
  extras : List Byte

/-- `ALIGN_BLOCK`. -/
def alignBlock : Nat := 32768

/-- A size in whole blocks, as in `KERNEL_BIN_SIZE_ALIGNED`. -/
def aligned (size : Nat) : Nat := (size + alignBlock - 1) / alignBlock * alignBlock

def flashSizeKb (flashSizeMb : Nat) : Nat := flashSizeMb * 1024

def flashSize (flashSizeMb : Nat) : Nat := flashSizeKb flashSizeMb * 1024

def uBootSizeKb : Nat := 256

def ubEnvSizeKb : Nat := 32

def configSizeKb : Nat := 224

def uBootPartitionSize : Nat := uBootSizeKb * 1024

def ubEnvPartitionSize : Nat := ubEnvSizeKb * 1024

def configPartitionSize : Nat := configSizeKb * 1024

def kernelPartitionSize (c : Components) : Nat := aligned c.kernel.length

def rootfsPartitionSize (c : Components) : Nat := aligned c.rootfs.length

def uBootOffset : Nat := 0

def ubEnvOffset : Nat := uBootOffset + uBootPartitionSize

def configOffset : Nat := ubEnvOffset + ubEnvPartitionSize

def kernelOffset : Nat := configOffset + configPartitionSize

def rootfsOffset (c : Components) : Nat := kernelOffset + kernelPartitionSize c

def extrasOffset (c : Components) : Nat := rootfsOffset c + rootfsPartitionSize c

def kernelSizeKb (c : Components) : Nat := kernelPartitionSize c / 1024

def rootfsSizeKb (c : Components) : Nat := rootfsPartitionSize c / 1024

/-- The shell computes with negative numbers too. -/
def extrasSizeKb (flashSizeMb : Nat) (c : Components) : Int :=
  flashSizeKb flashSizeMb - (rootfsOffset c / 1024 : Nat) - rootfsSizeKb c

def upgradeSizeKb (flashSizeMb : Nat) : Int := flashSizeKb flashSizeMb - uBootSizeKb - ubEnvSizeKb - configSizeKb

def extrasPartitionSize (flashSizeMb : Nat) (c : Components) : Int := flashSize flashSizeMb - extrasOffset c

/-- `EXTRAS_LLIMIT`. -/
def extrasLlimit : Int := alignBlock * 5

/-- `kern_addr`. -/
def kernAddr : Nat := kernelOffset

/-- `kern_size`. -/
def kernSize (c : Components) : Nat := kernelPartitionSize c

/-! ### The partition table -/

inductive PartName
  | boot
  | env
  | config
  | kernel
  | rootfs
  | extras
  | upgrade
  | all
deriving DecidableEq

/-- An entry `<size>k@<offset>(<name>)` of `mtdparts`, mostly without an offset. -/
structure Entry where
  sizeKb : Int
  offset : Option Nat
  name : PartName

def mtdparts (flashSizeMb : Nat) (c : Components) : List Entry :=
  [⟨uBootSizeKb, none, .boot⟩, ⟨ubEnvSizeKb, none, .env⟩, ⟨configSizeKb, none, .config⟩,
    ⟨kernelSizeKb c, none, .kernel⟩, ⟨rootfsSizeKb c, none, .rootfs⟩,
    ⟨extrasSizeKb flashSizeMb c, some (extrasOffset c), .extras⟩,
    ⟨upgradeSizeKb flashSizeMb, some kernelOffset, .upgrade⟩, ⟨flashSizeKb flashSizeMb, some 0, .all⟩]

structure Partition where
  name : PartName
  offset : Nat
  size : Nat

/-- An entry without an offset begins where the one before it ends. -/
def place : Nat → List Entry → List Partition
  | _, [] => []
  | start, e :: es =>
    let offset := e.offset.getD start
    let size := e.sizeKb.toNat * 1024
    ⟨e.name, offset, size⟩ :: place (offset + size) es

def partitions (flashSizeMb : Nat) (c : Components) : List Partition := place 0 (mtdparts flashSizeMb c)

/-- The entries that are no aliases of others. -/
def PartName.isReal : PartName → Bool
  | .upgrade | .all => false
  | _ => true

/-- Partitions that lie one behind the other from `lo` up to `hi`. -/
def Tiles (lo hi : Nat) : List Partition → Prop
  | [] => lo = hi
  | p :: ps => p.offset = lo ∧ Tiles (lo + p.size) hi ps

/-- Partitions without a common byte, the earlier one first. -/
def Partition.before (p q : Partition) : Prop := p.offset + p.size ≤ q.offset

theorem before_of_tiles {lo hi : Nat} {ps : List Partition} (h : Tiles lo hi ps) : ∀ p ∈ ps, lo ≤ p.offset := by
  induction ps generalizing lo with
  | nil => exact fun p hp => absurd hp List.not_mem_nil
  | cons q ps ih =>
    intro p hp
    rcases List.mem_cons.mp hp with rfl | hp
    · exact Nat.le_of_eq h.1.symm
    · have hle := ih h.2 p hp
      omega

/-- Tiles do not meet. -/
theorem pairwise_of_tiles {lo hi : Nat} {ps : List Partition} (h : Tiles lo hi ps) : ps.Pairwise Partition.before := by
  induction ps generalizing lo with
  | nil => exact List.Pairwise.nil
  | cons q ps ih =>
    refine List.pairwise_cons.mpr ⟨fun p hp => ?_, ih h.2⟩
    have hle := before_of_tiles h.2 p hp
    rw [Partition.before, h.1]
    exact hle

/-! ### Sizes -/

theorem le_aligned (n : Nat) : n ≤ aligned n := by
  simp only [aligned, alignBlock]
  omega

/-- Whole blocks are whole KB. -/
theorem aligned_kb (n : Nat) : aligned n / 1024 * 1024 = aligned n := by
  simp only [aligned, alignBlock]
  omega

theorem kernelOffset_eq : kernelOffset = 512 * 1024 := by
  decide

theorem kernelSizeKb_mul (c : Components) : kernelSizeKb c * 1024 = kernelPartitionSize c := aligned_kb _

theorem rootfsSizeKb_mul (c : Components) : rootfsSizeKb c * 1024 = rootfsPartitionSize c := aligned_kb _

/-- What is left in KB is what is left in bytes. -/
theorem extrasSizeKb_mul (flashSizeMb : Nat) (c : Components) :
    extrasSizeKb flashSizeMb c * 1024 = extrasPartitionSize flashSizeMb c := by
  rw [extrasSizeKb, extrasPartitionSize, extrasOffset, rootfsOffset, kernelOffset_eq, flashSize, ← kernelSizeKb_mul,
    ← rootfsSizeKb_mul]
  generalize kernelSizeKb c = kernel
  generalize rootfsSizeKb c = rootfs
  generalize flashSizeKb flashSizeMb = flash
  omega

/-- Entries without an offset in a row, and then the ones with an offset. -/
theorem place_row (boot env config kernel rootfs extrasOffset upgradeOffset flashOffset : Nat)
    (extras upgrade flash : Int) :
    place 0 [⟨boot, none, .boot⟩, ⟨env, none, .env⟩, ⟨config, none, .config⟩, ⟨kernel, none, .kernel⟩,
        ⟨rootfs, none, .rootfs⟩, ⟨extras, some extrasOffset, .extras⟩, ⟨upgrade, some upgradeOffset, .upgrade⟩,
        ⟨flash, some flashOffset, .all⟩] =
      [⟨.boot, 0, boot * 1024⟩, ⟨.env, 0 + boot * 1024, env * 1024⟩,
        ⟨.config, 0 + boot * 1024 + env * 1024, config * 1024⟩,
        ⟨.kernel, 0 + boot * 1024 + env * 1024 + config * 1024, kernel * 1024⟩,
        ⟨.rootfs, 0 + boot * 1024 + env * 1024 + config * 1024 + kernel * 1024, rootfs * 1024⟩,
        ⟨.extras, extrasOffset, extras.toNat * 1024⟩, ⟨.upgrade, upgradeOffset, upgrade.toNat * 1024⟩,
        ⟨.all, flashOffset, flash.toNat * 1024⟩] := rfl

/-- The partitions, when there is room for the extras. -/
theorem partitions_eq {flashSizeMb : Nat} {c : Components} (h : 0 ≤ extrasPartitionSize flashSizeMb c) :
    partitions flashSizeMb c =
      [⟨.boot, uBootOffset, uBootPartitionSize⟩, ⟨.env, ubEnvOffset, ubEnvPartitionSize⟩,
        ⟨.config, configOffset, configPartitionSize⟩, ⟨.kernel, kernelOffset, kernelPartitionSize c⟩,
        ⟨.rootfs, rootfsOffset c, rootfsPartitionSize c⟩,
        ⟨.extras, extrasOffset c, flashSize flashSizeMb - extrasOffset c⟩,
        ⟨.upgrade, kernelOffset, (upgradeSizeKb flashSizeMb).toNat * 1024⟩, ⟨.all, 0, flashSize flashSizeMb⟩] := by
  have hextras : (extrasSizeKb flashSizeMb c).toNat * 1024 = flashSize flashSizeMb - extrasOffset c := by
    have hmul := extrasSizeKb_mul flashSizeMb c
    simp only [extrasPartitionSize] at h hmul
    omega
  rw [partitions, mtdparts, place_row, kernelSizeKb_mul, rootfsSizeKb_mul, hextras]
  rfl

/-- The real partitions fill the flash. -/
theorem tiles_partitions {flashSizeMb : Nat} {c : Components} (h : 0 ≤ extrasPartitionSize flashSizeMb c) :
    Tiles 0 (flashSize flashSizeMb) ((partitions flashSizeMb c).filter (·.name.isReal)) := by
  rw [partitions_eq h]
  refine ⟨rfl, rfl, rfl, rfl, rfl, rfl, ?_⟩
  show extrasOffset c + (flashSize flashSizeMb - extrasOffset c) = flashSize flashSizeMb
  simp only [extrasPartitionSize] at h
  omega

end Thingino.Firmware
