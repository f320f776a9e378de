import Thingino.Firmware.Image
import Thingino.Lib.Lines

/-! `sysupgrade`: what comes to the flash.

The first stage gets an image, from a file or by download, and looks at its first bytes and its size. All its ways out
but two leave the flash alone. The second stage erases the partition and writes it, four times at most, and reboots
when that succeeded. With `-b` the first stage itself writes the boot loader, once.

The programs that are called may fail at any time; what they leave behind then is free. The script that
runs is the one below: with `-x` it does not replace itself before. -/
namespace Thingino.Firmware
open Lib

namespace Sysupgrade

def uBootMagic : List Byte := [0x06, 0x05, 0x04, 0x03]
def kernelMagic : List Byte := [0x27, 0x05, 0x19, 0x56]

def maxTries : Nat := 3

/-- Where the image comes from: `-b` and `-f` take it from the releases. -/
inductive Source
  | boot
  | full
  | file
  | url
  deriving DecidableEq

/-- What the first stage finds: the partitions of `/proc/mtd`, the file given or left from before, the profile, the
length that the server announces, the room there is in `/tmp` and on a card, what the downloads bring, and the other
files that a list of checksums may name. -/
structure Env where
  mtd : List Partition
  workdirReady : Bool
  dlDirReady : Bool
  found : Option (List Byte)
  profile : List Byte
  contentLength : Option Nat
  free : Nat
  cardFree : Option Nat
  urlFile : Option (List Byte)
  shaFile : Option (List Byte)
  binFile : Option (List Byte)
  otherFile : List Byte → Option (List Byte)
  sha256 : List Byte → List Byte
  moved : Bool
  prepared : Bool

inductive Plan
  | bootloader (image : List Byte) (p : Partition)
  | stage2 (image : List Byte) (p : Partition)

section Stage1
variable (e : Env)

def Env.partition (name : PartName) : Option Partition := e.mtd.find? (·.name = name)

/-- `full_upgrade_partition_size` and `partial_upgrade_partition_size`. -/
def Env.partitionSize (name : PartName) : Nat := (e.partition name).elim 0 Partition.size

def checkFreeSpace : Bool :=
  e.contentLength.any fun size =>
    0 < size && size ≤ e.partitionSize .all && (size ≤ e.free || e.cardFree.any (size ≤ ·))

/-- What stands before and behind the first place of a separator. -/
def cutAt (sep : List Byte) : List Byte → Option (List Byte × List Byte)
  | [] => none
  | b :: s => if sep <+: b :: s then some ([], (b :: s).drop sep.length) else (cutAt sep s).map fun (a, c) => (b :: a, c)

/-- A line of checksums: the sum and the name, after two blanks or a blank and an asterisk. -/
def sumLine (line : List Byte) : Option (List Byte × List Byte) :=
  match cutAt [32, 32] line with
  | some cut => some cut
  | none => cutAt [32, 42] line

/-- The lines of the file of checksums that are no comments. -/
def sumLines (text : List Byte) : List (List Byte) :=
  (if (text.splitOn 10).getLast? = some [] then (text.splitOn 10).dropLast else text.splitOn 10).filter
    fun line => line.head? ≠ some 35

def Env.binName : List Byte := ascii "thingino-" ++ e.profile ++ ascii ".bin"

def Env.lookup (name : List Byte) : Option (List Byte) := if name = e.binName then e.binFile else e.otherFile name

/-- `sha256sum -c`. -/
def verify (text : List Byte) : Bool :=
  sumLines text ≠ [] &&
    (sumLines text).all fun line => (sumLine line).any fun (sum, name) => (e.lookup name).any fun s => e.sha256 s = sum

/-- `handle_payload`: the image that is at `$fw_file` behind it. -/
def handlePayload : Source → Option (List Byte)
  | .file => if e.dlDirReady then e.found else none
  | .url => if e.dlDirReady && checkFreeSpace e then e.urlFile else none
  | .boot | .full =>
    if e.dlDirReady && e.profile ≠ [] && checkFreeSpace e then
      e.shaFile.bind fun text => e.binFile.bind fun image => if verify e text && e.moved then some image else none
    else none

/-- `truncate -s`, which fills up a file that is shorter. -/
def truncate (size : Nat) (s : List Byte) : List Byte := s.take size ++ zeros (size - s.length)

/-- The first stage; without a plan the script has ended. -/
def stage1 (source : Source) : Option Plan :=
  if !(e.mtd.any (·.name = .all) && e.workdirReady) then none
  else
    (handlePayload e source).bind fun image =>
      if source = .boot then
        if image.take 4 = uBootMagic then e.mtd.head?.map (.bootloader (truncate (256 * 1024) image)) else none
      else
        let target :=
          if image.take 4 = uBootMagic then some PartName.all
          else if image.take 4 = kernelMagic then some .upgrade
          else none
        target.bind fun name =>
          if e.partitionSize name < image.length then none
          else if e.prepared then (e.partition name).map (.stage2 image) else none

end Stage1

/-- How a try goes: whether the partition is erased, whether `flashcp` succeeds, and what it leaves if not. -/
structure Attempt where
  erased : Bool
  written : Bool
  left : List Byte

def erase (p : Partition) (chip : List Byte) : List Byte := overlay chip p.offset (List.replicate p.size 0xFF)

/-- An image that is larger than the partition is not written. -/
def Attempt.succeeds (a : Attempt) (image : List Byte) (p : Partition) : Bool := a.written && image.length ≤ p.size

/-- `flash_firmware`. -/
def flashFirmware (image : List Byte) (p : Partition) (chip : List Byte) (a : Attempt) : List Byte :=
  let chip := if a.erased then erase p chip else chip
  overlay chip p.offset (if a.succeeds image p then image else a.left.take p.size)

structure Outcome where
  chip : List Byte
  rebooted : Bool
  tries : Nat

/-- The loop of `detach_and_flash`, for as many turns as it is given. -/
def detachAndFlash (image : List Byte) (p : Partition) (attempts : Nat → Attempt) : Nat → Nat → List Byte → Option Outcome
  | 0, _, _ => none
  | turns + 1, x, chip =>
    let chip := flashFirmware image p chip (attempts (x + 1))
    if (attempts (x + 1)).succeeds image p then some ⟨chip, true, x + 1⟩
    else if maxTries < x + 1 then some ⟨chip, false, x + 1⟩
    else detachAndFlash image p attempts turns (x + 1) chip

/-- Both stages. -/
def sysupgrade (e : Env) (source : Source) (attempts : Nat → Attempt) (chip : List Byte) : Option Outcome :=
  match stage1 e source with
  | none => some ⟨chip, false, 0⟩
  | some (.bootloader image p) => some ⟨flashFirmware image p chip (attempts 1), false, 1⟩
  | some (.stage2 image p) => detachAndFlash image p attempts (maxTries + 1) 0 chip

/-! ### The plan -/

section Plan
variable {e : Env} {source : Source} {image : List Byte} {p : Partition}

/-- An image from the releases has its sum in the list, if it is named there. -/
def Verified (e : Env) (image : List Byte) : Prop :=
  e.binFile = some image ∧ ∃ text, e.shaFile = some text ∧ sumLines text ≠ [] ∧
    ∀ line ∈ sumLines text, ∀ sum, sumLine line = some (sum, e.binName) → e.sha256 image = sum

theorem verified_of_payload (hsource : source = .boot ∨ source = .full) (h : handlePayload e source = some image) :
    Verified e image := by
  have hpayload : e.shaFile.bind (fun text => e.binFile.bind fun image =>
      if verify e text && e.moved then some image else none) = some image := by
    obtain rfl | rfl := hsource <;> exact (Option.ite_none_right_eq_some.mp h).2
  obtain ⟨text, htext, hpayload⟩ := Option.bind_eq_some_iff.mp hpayload
  obtain ⟨image', himage', hpayload⟩ := Option.bind_eq_some_iff.mp hpayload
  obtain ⟨hverify, heq⟩ := Option.ite_none_right_eq_some.mp hpayload
  obtain rfl := Option.some.inj heq
  obtain ⟨hne, hall⟩ := Bool.and_eq_true_iff.mp (Bool.and_eq_true_iff.mp hverify).1
  refine ⟨himage', text, htext, of_decide_eq_true hne, fun line hline sum hsum => ?_⟩
  have hchecked := List.all_eq_true.mp hall line hline
  have hlookup : e.lookup e.binName = some image' := (if_pos rfl).trans himage'
  rw [hsum, Option.any_some] at hchecked
  dsimp only at hchecked
  rw [hlookup, Option.any_some] at hchecked
  exact of_decide_eq_true hchecked

/-- What a plan has passed. -/
inductive Planned (e : Env) (source : Source) : Plan → Prop
  | bootloader {image : List Byte} {p : Partition} (hsource : source = .boot) (hverified : Verified e image)
    (hmagic : image.take 4 = uBootMagic) (hp : e.mtd.head? = some p) :
    Planned e source (.bootloader (truncate (256 * 1024) image) p)
  | stage2 {image : List Byte} {p : Partition} (hsource : source ≠ .boot)
    (hverified : source = .full → Verified e image) (hpayload : handlePayload e source = some image)
    (hp : p ∈ e.mtd) (hsize : image.length ≤ p.size)
    (hmagic : p.name = .all ∧ image.take 4 = uBootMagic ∨ p.name = .upgrade ∧ image.take 4 = kernelMagic) :
    Planned e source (.stage2 image p)

theorem stage1_planned {plan : Plan} (h : stage1 e source = some plan) : Planned e source plan := by
  unfold stage1 at h
  rw [Option.ite_none_left_eq_some] at h
  obtain ⟨image, himage, h⟩ := Option.bind_eq_some_iff.mp h.2
  split at h
  · rename_i hboot
    obtain ⟨hmagic, h⟩ := Option.ite_none_right_eq_some.mp h
    obtain ⟨p, hp, rfl⟩ := Option.map_eq_some_iff.mp h
    exact .bootloader hboot (verified_of_payload (.inl hboot) himage) hmagic hp
  · rename_i hboot
    obtain ⟨name, hname, h⟩ := Option.bind_eq_some_iff.mp h
    obtain ⟨hsize, h⟩ := Option.ite_none_left_eq_some.mp h
    obtain ⟨-, h⟩ := Option.ite_none_right_eq_some.mp h
    obtain ⟨p, hp, rfl⟩ := Option.map_eq_some_iff.mp h
    have hpname : p.name = name := by simpa using List.find?_some (show e.mtd.find? (·.name = name) = some p from hp)
    have hpsize : e.partitionSize name = p.size := by rw [Env.partitionSize, hp, Option.elim_some]
    refine .stage2 hboot (fun hfull => verified_of_payload (.inr hfull) himage) himage (List.mem_of_find?_eq_some hp)
      (by omega) ?_
    rw [hpname]
    split at hname
    · rename_i hmagic
      exact .inl ⟨(Option.some.inj hname).symm, hmagic⟩
    · obtain ⟨hmagic, hname⟩ := Option.ite_none_right_eq_some.mp hname
      exact .inr ⟨(Option.some.inj hname).symm, hmagic⟩

end Plan

/-! ### The flash -/

section Flash
variable {image chip : List Byte} {p : Partition} {attempts : Nat → Attempt} {a : Attempt} {o : Outcome}

/-- Outside of the partition nothing has changed, and the flash is as large as it was. -/
def SameOutside (p : Partition) (chip chip' : List Byte) : Prop :=
  chip'.length = chip.length ∧ ∀ i, i < p.offset ∨ p.offset + p.size ≤ i → chip'[i]? = chip[i]?

theorem sameOutside_overlay {data : List Byte} (hp : p.offset + p.size ≤ chip.length) (hdata : data.length ≤ p.size) :
    SameOutside p chip (overlay chip p.offset data) := by
  refine ⟨by rw [length_overlay]; omega, fun i hi => ?_⟩
  obtain hi | hi := hi
  · exact getElem?_overlay_below hi (by omega)
  · exact getElem?_overlay_behind (by omega)

theorem SameOutside.trans {chip' chip'' : List Byte} (h : SameOutside p chip chip') (h' : SameOutside p chip' chip'') :
    SameOutside p chip chip'' :=
  ⟨h'.1.trans h.1, fun i hi => (h'.2 i hi).trans (h.2 i hi)⟩

theorem sameOutside_flashFirmware (hp : p.offset + p.size ≤ chip.length) (a : Attempt) :
    SameOutside p chip (flashFirmware image p chip a) := by
  have herase : SameOutside p chip (if a.erased then erase p chip else chip) := by
    split
    · exact sameOutside_overlay hp (by rw [List.length_replicate])
    · exact ⟨rfl, fun _ _ => rfl⟩
  refine herase.trans (sameOutside_overlay (herase.1 ▸ hp) ?_)
  split
  · rename_i hok
    exact of_decide_eq_true (Bool.and_eq_true_iff.mp hok).2
  · exact List.length_take_le _ _

theorem stored_flashFirmware (h : a.succeeds image p = true) :
    Stored (flashFirmware image p chip a) p.offset image := by
  unfold flashFirmware
  rw [if_pos h]
  exact stored_overlay _ _ _

/-- What the loop comes to, from a number of tries on. -/
structure Flashed (image : List Byte) (p : Partition) (attempts : Nat → Attempt) (x : Nat) (chip : List Byte)
    (o : Outcome) : Prop where
  outside : SameOutside p chip o.chip
  tries : x < o.tries ∧ o.tries ≤ maxTries + 1
  failed : ∀ y, x < y → y < o.tries → (attempts y).succeeds image p = false
  rebooted : o.rebooted = (attempts o.tries).succeeds image p
  stored : o.rebooted = true → Stored o.chip p.offset image
  gaveUp : o.rebooted = false → o.tries = maxTries + 1

/-- The loop ends, with as many turns as there are tries left. -/
theorem detachAndFlash_flashed {turns x : Nat} (hturns : turns + x = maxTries + 1) (hpos : 0 < turns)
    (hp : p.offset + p.size ≤ chip.length) :
    ∃ o, detachAndFlash image p attempts turns x chip = some o ∧ Flashed image p attempts x chip o := by
  induction turns generalizing x chip with
  | zero => exact absurd hpos (Nat.lt_irrefl 0)
  | succ turns ih =>
    have houtside : SameOutside p chip (flashFirmware image p chip (attempts (x + 1))) :=
      sameOutside_flashFirmware hp (attempts (x + 1))
    rw [detachAndFlash]
    split
    · rename_i hok
      refine ⟨_, rfl, houtside, ⟨Nat.lt_succ_self x, by change x + 1 ≤ _; omega⟩, ?_, hok.symm, ?_, nofun⟩
      · intro y hy hlt
        have hlt : y < x + 1 := hlt
        omega
      · intro _
        exact stored_flashFirmware hok
    · rename_i hfail
      have hfail := Bool.not_eq_true _ ▸ hfail
      split
      · rename_i hlast
        refine ⟨_, rfl, houtside, ⟨Nat.lt_succ_self x, by change x + 1 ≤ _; omega⟩, ?_, hfail.symm, nofun, ?_⟩
        · intro y hy hlt
          have hlt : y < x + 1 := hlt
          omega
        · intro _
          change x + 1 = maxTries + 1
          omega
      · rename_i hmore
        obtain ⟨o, ho, hflashed⟩ := @ih (flashFirmware image p chip (attempts (x + 1))) (x + 1) (by omega) (by omega) (houtside.1 ▸ hp)
        refine ⟨o, ho, houtside.trans hflashed.outside, ⟨by have := hflashed.tries.1; omega, hflashed.tries.2⟩, ?_,
          hflashed.rebooted, hflashed.stored, hflashed.gaveUp⟩
        intro y hy hlt
        obtain rfl | hy := Nat.eq_or_lt_of_le hy
        · exact hfail
        · exact hflashed.failed y hy hlt

end Flash

/-! ### Both stages -/

section Run
variable {e : Env} {source : Source} {attempts : Nat → Attempt} {chip : List Byte} {o : Outcome}

def Result (attempts : Nat → Attempt) (chip : List Byte) (o : Outcome) : Plan → Prop
  | .bootloader _ p => SameOutside p chip o.chip ∧ o.rebooted = false
  | .stage2 image p => Flashed image p attempts 0 chip o

/-- **The property** of an upgrade. Without a plan the flash is as it was; with one the image has passed its checks,
only its partition has changed, and the camera reboots exactly behind a try that succeeded, the first of four. -/
structure Safe (e : Env) (source : Source) (attempts : Nat → Attempt) (chip : List Byte) (o : Outcome) : Prop where
  untouched : stage1 e source = none → o = ⟨chip, false, 0⟩
  planned : ∀ plan, stage1 e source = some plan → Planned e source plan ∧ Result attempts chip o plan

end Run

/-! ### A packed image -/

section Packed
variable {flashSizeMb : Nat} {running packed : Components} {image chip : List Byte} {e : Env}
  {attempts : Nat → Attempt}

theorem prefix_extract {file file' : List Byte} (h : file <+: file') (off n : Nat) :
    extract file off n <+: extract file' off n := by
  obtain ⟨rest, rfl⟩ := h
  exact (List.IsPrefix.drop (List.prefix_append file rest) off).take n

theorem preserved_of_prefix (h : Preserved flashSizeMb packed image) (hbegins : image <+: chip) :
    Preserved flashSizeMb packed chip :=
  ⟨fun p hp file hfile => (h.component p hp file hfile).trans (prefix_extract hbegins _ _), h.tiles, h.apart, h.kernel⟩

/-- The files of the two partitions with a fixed size must fit; for the others the layout makes room. -/
theorem preserved_of_fits (himage : firmwareBinFull packed = some image) (hsize : image.length ≤ flashSize flashSizeMb)
    (hroom : 0 ≤ extrasPartitionSize flashSizeMb packed) (huBoot : packed.uBoot.length ≤ uBootPartitionSize)
    (hconfig : packed.config.length ≤ configPartitionSize) : Preserved flashSizeMb packed image := by
  have htable := partitions_eq hroom
  have htiles := tiles_partitions hroom
  have hkernelExtras : kernelOffset ≤ extrasOffset packed :=
    Nat.le_trans (kernelOffset_le packed) (rootfsOffset_le packed)
  refine ⟨?_, htiles, pairwise_of_tiles htiles, ?_⟩
  · rw [htable]
    intro p hp file hfile
    rw [prefix_extract_iff]
    simp only [List.mem_cons, List.not_mem_nil, or_false] at hp
    rcases hp with rfl | rfl | rfl | rfl | rfl | rfl | rfl | rfl <;> cases hfile
    · have hconfigKernel : configOffset ≤ kernelOffset := by decide
      have hend := Nat.le_trans (uBoot_end_le huBoot) (hconfigKernel.trans hkernelExtras)
      exact ⟨stored_before_extras himage (stored_uBoot huBoot) hend, huBoot⟩
    · have hend := Nat.le_trans (config_end_le hconfig) hkernelExtras
      exact ⟨stored_before_extras himage (stored_config hconfig) hend, hconfig⟩
    · have hend := Nat.le_trans (kernel_end_le packed) (rootfsOffset_le packed)
      exact ⟨stored_before_extras himage (stored_kernel packed) hend, le_aligned _⟩
    · exact ⟨stored_before_extras himage (stored_overlay _ _ _) (rootfs_end_le packed), le_aligned _⟩
    · exact ⟨stored_extras himage, extras_length_le himage hsize⟩
  · rw [htable]
    intro p hp hname
    simp only [List.mem_cons, List.not_mem_nil, or_false] at hp
    rcases hp with rfl | rfl | rfl | rfl | rfl | rfl | rfl | rfl <;> cases hname
    exact ⟨rfl, rfl⟩

/-- The image begins with the boot loader. -/
theorem uBoot_isPrefix (himage : firmwareBinFull packed = some image)
    (huBoot : packed.uBoot.length ≤ uBootPartitionSize) : packed.uBoot <+: image := by
  have hend : uBootOffset + packed.uBoot.length ≤ extrasOffset packed := by
    have hconfigKernel : configOffset ≤ kernelOffset := by decide
    have hkernelExtras := Nat.le_trans (kernelOffset_le packed) (rootfsOffset_le packed)
    exact Nat.le_trans (uBoot_end_le huBoot) (hconfigKernel.trans hkernelExtras)
  exact stored_before_extras himage (stored_uBoot huBoot) hend

/-- **What was packed is on the flash.** The running camera has the layout of its own components. An image that was
packed without a warning is taken from a file, and when a try succeeds the flash has the packed components where the
new layout looks for them. -/
theorem upgrade_preserved (hmtd : e.mtd = partitions flashSizeMb running)
    (hrunning : 0 ≤ extrasPartitionSize flashSizeMb running) (hchip : chip.length = flashSize flashSizeMb)
    (hready : e.workdirReady = true ∧ e.dlDirReady = true ∧ e.prepared = true) (hfound : e.found = some image)
    (himage : firmwareBinFull packed = some image) (hpack : pack flashSizeMb packed = some [])
    (huBoot : packed.uBoot.length ≤ uBootPartitionSize) (hconfig : packed.config.length ≤ configPartitionSize)
    (hmagic : uBootMagic <+: packed.uBoot)
    (hattempt : ∃ x, 0 < x ∧ x ≤ maxTries + 1 ∧ (attempts x).written = true) :
    ∃ o, sysupgrade e .file attempts chip = some o ∧ o.rebooted = true ∧ Preserved flashSizeMb packed o.chip := by
  obtain ⟨image', himage', hsize, hroom⟩ := pack_eq_nil hpack
  obtain rfl := Option.some.inj (himage.symm.trans himage')
  have hpreserved := preserved_of_fits himage hsize hroom huBoot hconfig
  have htake : image.take 4 = uBootMagic :=
    (List.prefix_iff_eq_take.mp (hmagic.trans (uBoot_isPrefix himage huBoot))).symm
  have htable := hmtd.trans (partitions_eq hrunning)
  have hpartition : e.partition .all = some ⟨.all, 0, flashSize flashSizeMb⟩ := by
    rw [Env.partition, htable]
    rfl
  have hany : e.mtd.any (·.name = .all) = true := by
    rw [htable]
    rfl
  have hpayload : handlePayload e .file = some image := by
    rw [handlePayload, if_pos hready.2.1, hfound]
  have hplan : stage1 e .file = some (.stage2 image ⟨.all, 0, flashSize flashSizeMb⟩) := by
    have hsizeall : ¬e.partitionSize .all < image.length := by
      rw [Env.partitionSize, hpartition, Option.elim_some]
      exact Nat.not_lt.mpr hsize
    rw [stage1, hany, hready.1, hpayload, Option.bind_some, if_neg (by decide), if_neg (by decide), htake, if_pos rfl,
      Option.bind_some, if_neg hsizeall, if_pos hready.2.2, hpartition]
    rfl
  have hloop : ∃ o, detachAndFlash image ⟨.all, 0, flashSize flashSizeMb⟩ attempts (maxTries + 1) 0 chip = some o ∧
      Flashed image ⟨.all, 0, flashSize flashSizeMb⟩ attempts 0 chip o :=
    detachAndFlash_flashed rfl (Nat.succ_pos maxTries) (by rw [hchip, Nat.zero_add])
  obtain ⟨o, ho, hflashed⟩ := hloop
  have hrebooted : o.rebooted = true := by
    by_contra hnot
    obtain ⟨x, hpos, hle, hwritten⟩ := hattempt
    have hnot := Bool.not_eq_true _ ▸ hnot
    have htries := hflashed.gaveUp hnot
    have hsucceeds : (attempts x).succeeds image ⟨.all, 0, flashSize flashSizeMb⟩ = true :=
      Bool.and_eq_true_iff.mpr ⟨hwritten, decide_eq_true hsize⟩
    have hlast := hflashed.rebooted
    obtain hlt | rfl : x < o.tries ∨ x = o.tries := by omega
    · rw [hflashed.failed x hpos hlt] at hsucceeds
      cases hsucceeds
    · rw [hnot, hsucceeds] at hlast
      cases hlast
  refine ⟨o, by rw [sysupgrade, hplan]; exact ho, hrebooted, ?_⟩
  exact preserved_of_prefix hpreserved (hflashed.stored hrebooted)

/-- Components of a few bytes, with a boot loader that can be told by its first ones. -/
def small : Components := ⟨uBootMagic, [0], [0], [0], []⟩

theorem pack_small : pack 8 small = some [] := by
  have hrootfs : rootfsOffset small = 557056 := by
    change kernelOffset + aligned 1 = 557056
    decide
  have hextras : extrasOffset small = 589824 := by
    rw [extrasOffset, hrootfs]
    change 557056 + aligned 1 = 589824
    decide
  refine pack_of_fits rfl (List.cons_ne_nil _ _) (List.cons_ne_nil _ _) (List.cons_ne_nil _ _) (List.cons_ne_nil _ _)
    ?_ ?_
  · rw [length_bodyOf, hrootfs]
    change max (max (max (max (8 * 1024 * 1024) (uBootOffset + 4)) (configOffset + 1)) (kernelOffset + 1)) (557056 + 1) ≤
      flashSize 8
    decide
  · rw [extrasPartitionSize, hextras]
    decide

/-- A camera that finds the image beside it, and nothing else. -/
def offline (mtd : List Partition) (image : List Byte) : Env :=
  ⟨mtd, true, true, some image, [], none, 0, none, none, none, none, fun _ => none, id, false, true⟩

/-- The second try succeeds. -/
theorem upgrade_preserved_small :
    ∃ image o, firmwareBinFull small = some image ∧
      sysupgrade (offline (partitions 8 small) image) .file (fun x => ⟨true, x = 2, []⟩)
        (List.replicate (flashSize 8) 0) = some o ∧ o.rebooted = true ∧ Preserved 8 small o.chip := by
  obtain ⟨image, himage, -, hroom⟩ := pack_eq_nil pack_small
  obtain ⟨o, ho, hrebooted, hpreserved⟩ := @upgrade_preserved 8 small small image (List.replicate (flashSize 8) 0)
    (offline (partitions 8 small) image) (fun x => ⟨true, x = 2, []⟩) rfl hroom List.length_replicate ⟨rfl, rfl, rfl⟩ rfl
    himage pack_small (by decide) (by decide) (List.prefix_refl _) ⟨2, by decide, by decide, rfl⟩
  exact ⟨image, o, himage, ho, hrebooted, hpreserved⟩

end Packed

end Sysupgrade

end Thingino.Firmware
