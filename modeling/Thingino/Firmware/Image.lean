import Thingino.Firmware.Layout

/-! The full firmware image, put together by one `dd` for each component.

Each `dd` writes a whole file at the offset of its partition, however long the file is; what comes later goes
over what was there. `pack` compares the size of the whole image with the flash and the room for the extras
with a limit, and nothing else: the files of the partitions with a fixed size are not measured. -/
namespace Thingino.Firmware
open Lib

/-- `dd if=FILE bs=SIZE seek=OFFSETB count=1 conv=notrunc`: a block size of 0 is refused. -/
def dd (image : List Byte) (offset : Nat) (file : List Byte) : Option (List Byte) :=
  if file = [] then none else some (overlay image offset file)

/-- 8 MiB of ones. -/
def blankSlab : List Byte := List.replicate (8 * 1024 * 1024) 0xFF#8

/-- `FIRMWARE_BIN_FULL`. -/
def firmwareBinFull (c : Components) : Option (List Byte) := do
  let image ← dd blankSlab uBootOffset c.uBoot
  let image ← dd image configOffset c.config
  let image ← dd image kernelOffset c.kernel
  let image ← dd image (rootfsOffset c) c.rootfs
  if c.extras.length > 0 then dd image (extrasOffset c) c.extras else some image

inductive Warning
  | extrasTooSmall
  | oversize
deriving DecidableEq

/-- What `pack` prints in red about the image. -/
def pack (flashSizeMb : Nat) (c : Components) : Option (List Warning) :=
  (firmwareBinFull c).map fun image =>
    (if extrasPartitionSize flashSizeMb c < extrasLlimit then [.extrasTooSmall] else []) ++
      if image.length > flashSize flashSizeMb then [.oversize] else []

/-- The file of a partition; the environment is not written. -/
def Components.file (c : Components) : PartName → Option (List Byte)
  | .boot => some c.uBoot
  | .config => some c.config
  | .kernel => some c.kernel
  | .rootfs => some c.rootfs
  | .extras => some c.extras
  | .env | .upgrade | .all => none

/-- **The property** of an image. Each partition begins with its file; the partitions lie one behind the
other up to the end of the flash; `kern_addr` and `kern_size` are the kernel's. -/
structure Preserved (flashSizeMb : Nat) (c : Components) (image : List Byte) : Prop where
  component : ∀ p ∈ partitions flashSizeMb c, ∀ file, c.file p.name = some file →
    file <+: extract image p.offset p.size
  tiles : Tiles 0 (flashSize flashSizeMb) ((partitions flashSizeMb c).filter (·.name.isReal))
  apart : ((partitions flashSizeMb c).filter (·.name.isReal)).Pairwise Partition.before
  kernel : ∀ p ∈ partitions flashSizeMb c, p.name = .kernel → p.offset = kernAddr ∧ p.size = kernSize c

variable {flashSizeMb : Nat} {c : Components} {image : List Byte}

/-! ### Writing the components -/

/-- The image before the extras. -/
def bodyOf (c : Components) : List Byte :=
  overlay (overlay (overlay (overlay blankSlab uBootOffset c.uBoot) configOffset c.config) kernelOffset c.kernel)
    (rootfsOffset c) c.rootfs

theorem dd_eq_some {file image' : List Byte} {offset : Nat} (h : dd image offset file = some image') :
    image' = overlay image offset file := by
  rw [dd, Option.ite_none_left_eq_some] at h
  exact (Option.some.inj h.2).symm

theorem firmwareBinFull_eq (h : firmwareBinFull c = some image) :
    image = if c.extras = [] then bodyOf c else overlay (bodyOf c) (extrasOffset c) c.extras := by
  simp only [firmwareBinFull, Option.bind_eq_bind, Option.bind_eq_some_iff] at h
  obtain ⟨boot, hboot, config, hconfig, kernel, hkernel, rootfs, hrootfs, hextras⟩ := h
  have hbody : bodyOf c = rootfs := by
    rw [bodyOf, ← dd_eq_some hboot, ← dd_eq_some hconfig, ← dd_eq_some hkernel, ← dd_eq_some hrootfs]
  rw [hbody]
  by_cases hnil : c.extras = []
  · rw [if_neg (by rw [hnil]; decide)] at hextras
    rw [if_pos hnil]
    exact (Option.some.inj hextras).symm
  · rw [if_pos (List.length_pos_iff.mpr hnil)] at hextras
    rw [if_neg hnil]
    exact dd_eq_some hextras

/-- What lies before the extras is not changed by them. -/
theorem stored_before_extras (h : firmwareBinFull c = some image) {off : Nat} {file : List Byte}
    (hbody : Stored (bodyOf c) off file) (hend : off + file.length ≤ extrasOffset c) : Stored image off file := by
  rw [firmwareBinFull_eq h]
  split
  · exact hbody
  · exact hbody.overlay (.inl hend)

theorem stored_extras (h : firmwareBinFull c = some image) : Stored image (extrasOffset c) c.extras := by
  rw [firmwareBinFull_eq h]
  split
  · rename_i hnil
    rw [hnil]
    exact List.nil_prefix
  · exact stored_overlay _ _ _

theorem uBoot_end_le (h : c.uBoot.length ≤ uBootPartitionSize) : uBootOffset + c.uBoot.length ≤ configOffset := by
  rw [uBootOffset, Nat.zero_add]
  exact Nat.le_trans h (by decide)

theorem config_end_le (h : c.config.length ≤ configPartitionSize) : configOffset + c.config.length ≤ kernelOffset :=
  Nat.add_le_add_left h configOffset

theorem kernel_end_le (c : Components) : kernelOffset + c.kernel.length ≤ rootfsOffset c :=
  Nat.add_le_add_left (le_aligned c.kernel.length) kernelOffset

theorem rootfs_end_le (c : Components) : rootfsOffset c + c.rootfs.length ≤ extrasOffset c :=
  Nat.add_le_add_left (le_aligned c.rootfs.length) (rootfsOffset c)

theorem kernelOffset_le (c : Components) : kernelOffset ≤ rootfsOffset c := Nat.le_add_right ..

theorem rootfsOffset_le (c : Components) : rootfsOffset c ≤ extrasOffset c := Nat.le_add_right ..

theorem stored_uBoot (huBoot : c.uBoot.length ≤ uBootPartitionSize) : Stored (bodyOf c) uBootOffset c.uBoot := by
  have hconfig := uBoot_end_le huBoot
  have hkernel : uBootOffset + c.uBoot.length ≤ kernelOffset := Nat.le_trans hconfig (by decide)
  have hrootfs := Nat.le_trans hkernel (kernelOffset_le c)
  exact (((stored_overlay _ _ _).overlay (.inl hconfig)).overlay (.inl hkernel)).overlay (.inl hrootfs)

theorem stored_config (hconfig : c.config.length ≤ configPartitionSize) : Stored (bodyOf c) configOffset c.config := by
  have hkernel := config_end_le hconfig
  have hrootfs := Nat.le_trans hkernel (kernelOffset_le c)
  exact ((stored_overlay _ _ _).overlay (.inl hkernel)).overlay (.inl hrootfs)

theorem stored_kernel (c : Components) : Stored (bodyOf c) kernelOffset c.kernel :=
  (stored_overlay _ _ _).overlay (.inl (kernel_end_le c))

/-- An image that `pack` says nothing about fits the flash and leaves room for the extras. -/
theorem pack_eq_nil (h : pack flashSizeMb c = some []) :
    ∃ image, firmwareBinFull c = some image ∧ image.length ≤ flashSize flashSizeMb ∧
      0 ≤ extrasPartitionSize flashSizeMb c := by
  obtain ⟨image, himage, hnil⟩ := Option.map_eq_some_iff.mp h
  obtain ⟨hextras, hsize⟩ := List.append_eq_nil_iff.mp hnil
  refine ⟨image, himage, ?_, ?_⟩
  · split at hsize
    · cases hsize
    · rename_i hle
      exact Nat.le_of_not_lt hle
  · split at hextras
    · cases hextras
    · rename_i hle
      exact Int.le_trans (by decide) (Int.not_lt.mp hle)

/-- The extras end with the image. -/
theorem extras_length_le (h : firmwareBinFull c = some image) (hsize : image.length ≤ flashSize flashSizeMb) :
    c.extras.length ≤ flashSize flashSizeMb - extrasOffset c := by
  by_cases hnil : c.extras = []
  · rw [hnil]
    exact Nat.zero_le _
  · have hend := (stored_extras h).end_le hnil
    omega

/-- **Exactly when the image preserves its components**, where `pack` warns of nothing. -/
theorem preserved_iff (h : pack flashSizeMb c = some []) :
    (∀ image, firmwareBinFull c = some image → Preserved flashSizeMb c image) ↔
      c.uBoot.length ≤ uBootPartitionSize ∧ c.config.length ≤ configPartitionSize := by
  obtain ⟨image, himage, hsize, hroom⟩ := pack_eq_nil h
  have htable := partitions_eq hroom
  constructor
  · intro hall
    have hcomponent := (hall image himage).component
    rw [htable] at hcomponent
    constructor
    · have hboot := hcomponent ⟨.boot, uBootOffset, uBootPartitionSize⟩ (by simp) c.uBoot rfl
      exact (prefix_extract_iff.mp hboot).2
    · have hconfig := hcomponent ⟨.config, configOffset, configPartitionSize⟩ (by simp) c.config rfl
      exact (prefix_extract_iff.mp hconfig).2
  · rintro ⟨huBoot, hconfig⟩ image' himage'
    obtain rfl := Option.some.inj (himage.symm.trans himage')
    have hkernelExtras : kernelOffset ≤ extrasOffset c := Nat.le_trans (kernelOffset_le c) (rootfsOffset_le c)
    have hconfigExtras : configOffset ≤ extrasOffset c := Nat.le_trans (by decide) hkernelExtras
    have htiles := tiles_partitions hroom
    refine ⟨?_, htiles, pairwise_of_tiles htiles, ?_⟩
    · rw [htable]
      intro p hp file hfile
      rw [prefix_extract_iff]
      simp only [List.mem_cons, List.not_mem_nil, or_false] at hp
      rcases hp with rfl | rfl | rfl | rfl | rfl | rfl | rfl | rfl <;> cases hfile
      · have hend := Nat.le_trans (uBoot_end_le huBoot) hconfigExtras
        exact ⟨stored_before_extras himage (stored_uBoot huBoot) hend, huBoot⟩
      · have hend := Nat.le_trans (config_end_le hconfig) hkernelExtras
        exact ⟨stored_before_extras himage (stored_config hconfig) hend, hconfig⟩
      · exact ⟨stored_before_extras himage (stored_kernel c) (Nat.le_trans (kernel_end_le c) (rootfsOffset_le c)),
          le_aligned _⟩
      · exact ⟨stored_before_extras himage (stored_overlay _ _ _) (rootfs_end_le c), le_aligned _⟩
      · exact ⟨stored_extras himage, extras_length_le himage hsize⟩
    · rw [htable]
      intro p hp hname
      simp only [List.mem_cons, List.not_mem_nil, or_false] at hp
      rcases hp with rfl | rfl | rfl | rfl | rfl | rfl | rfl | rfl <;> cases hname
      exact ⟨rfl, rfl⟩

/-! ### Images -/

theorem length_bodyOf (c : Components) :
    (bodyOf c).length = max (max (max (max (8 * 1024 * 1024) (uBootOffset + c.uBoot.length))
      (configOffset + c.config.length)) (kernelOffset + c.kernel.length)) (rootfsOffset c + c.rootfs.length) := by
  rw [bodyOf, length_overlay, length_overlay, length_overlay, length_overlay, blankSlab, List.length_replicate]

/-- `pack` says nothing about an image without extras that fits. -/
theorem pack_of_fits (hextras : c.extras = []) (huBoot : c.uBoot ≠ []) (hconfig : c.config ≠ [])
    (hkernel : c.kernel ≠ []) (hrootfs : c.rootfs ≠ []) (hsize : (bodyOf c).length ≤ flashSize flashSizeMb)
    (hroom : extrasLlimit ≤ extrasPartitionSize flashSizeMb c) : pack flashSizeMb c = some [] := by
  have hmade : firmwareBinFull c = some (bodyOf c) := by
    simp only [firmwareBinFull, dd, if_neg huBoot, if_neg hconfig, if_neg hkernel, if_neg hrootfs, hextras,
      List.length_nil, Option.bind_eq_bind, Option.bind_some]
    exact if_neg (Nat.lt_irrefl 0)
  rw [pack, hmade, Option.map_some, if_neg (Int.not_lt.mpr hroom), if_neg (Nat.not_lt.mpr hsize)]
  rfl

/-- Images with a boot loader of a given size, the other ones of a byte each. -/
def withUBoot (size : Nat) : Components where
  uBoot := List.replicate size 0
  config := [0]
  kernel := [0]
  rootfs := [0]
  extras := []

theorem pack_withUBoot (size : Nat) (hpos : 0 < size) (hle : size ≤ 8 * 1024 * 1024) :
    pack 8 (withUBoot size) = some [] := by
  have hrootfs : rootfsOffset (withUBoot size) = 557056 := by
    show kernelOffset + aligned 1 = 557056
    decide
  have hextras : extrasOffset (withUBoot size) = 589824 := by
    rw [extrasOffset, hrootfs]
    show 557056 + aligned 1 = 589824
    decide
  refine pack_of_fits rfl ?_ (List.cons_ne_nil _ _) (List.cons_ne_nil _ _) (List.cons_ne_nil _ _) ?_ ?_
  · exact List.ne_nil_of_length_pos (Nat.lt_of_lt_of_eq hpos List.length_replicate.symm)
  · rw [length_bodyOf, show (withUBoot size).uBoot.length = size from List.length_replicate, uBootOffset, Nat.zero_add,
      Nat.max_eq_left hle, hrootfs]
    show max (max (max (8 * 1024 * 1024) (configOffset + 1)) (kernelOffset + 1)) (557056 + 1) ≤ flashSize 8
    decide
  · rw [extrasPartitionSize, hextras]
    decide

/-- A boot loader that fills its partition. -/
theorem preserved_full_uBoot :
    pack 8 (withUBoot 262144) = some [] ∧
      ∀ image, firmwareBinFull (withUBoot 262144) = some image → Preserved 8 (withUBoot 262144) image := by
  have hpack := pack_withUBoot 262144 (by decide) (by decide)
  refine ⟨hpack, (preserved_iff hpack).mpr ⟨?_, by decide⟩⟩
  rw [show (withUBoot 262144).uBoot.length = 262144 from List.length_replicate]
  decide

/-- A boot loader of one byte more: `pack` says nothing, and its partition does not hold it. -/
theorem uBoot_cut_off :
    pack 8 (withUBoot 262145) = some [] ∧
      ∃ image, firmwareBinFull (withUBoot 262145) = some image ∧ ¬Preserved 8 (withUBoot 262145) image := by
  have hpack := pack_withUBoot 262145 (by decide) (by decide)
  obtain ⟨image, himage, -, hroom⟩ := pack_eq_nil hpack
  refine ⟨hpack, image, himage, fun h => ?_⟩
  have hcomponent := h.component
  rw [partitions_eq hroom] at hcomponent
  have hboot := hcomponent ⟨.boot, uBootOffset, uBootPartitionSize⟩ List.mem_cons_self (withUBoot 262145).uBoot rfl
  have hle := (prefix_extract_iff.mp hboot).2
  rw [show (withUBoot 262145).uBoot.length = 262145 from List.length_replicate] at hle
  revert hle
  decide

end Thingino.Firmware
