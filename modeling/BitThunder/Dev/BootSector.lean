import BitThunder.Dev.PartitionSpec

/-!
# Boot sectors and partition tables

Block 0 of a device may hold a partition table, a filesystem, or neither. The counters of
`os/src/volumes` take it for a table when one of the two bytes of the signature is there, and
look for a filesystem only when none is; for a filesystem they then count one partition.

* `partitionCount_unsigned`, `lt_partitionCount_iff`: what they count;
* `classified_iff`: the blocks that are read for what they are.

What block 0 describes is stated by its signature and by the test for a filesystem, both in the
source, and what is enumerated is compared with that. The counters take one byte of the signature
for the whole, so that a block with one of the two bytes is read as a table, and a filesystem with
the signature at the end, as they usually have it, is read as a table as well. Whether partitions
come out of it depends on the first entry alone, since the count stops at the first one that is not
used.
-/

namespace BitThunder

open Memory

/-- The boot sector of a filesystem: a jump, and a media byte. -/
def FsBootSector (block : Memory) : Prop := block 0 = 0xEB ∧ block 2 = 0x90 ∧ 0xF0 ≤ block 21

/-- The complete signature `55 AA`. -/
def Signed (block : Memory) : Prop :=
  block ibmMbrSignature = 0x55 ∧ block (ibmMbrSignature + 1) = 0xAA

/-- The volumes `vs` are the ones block 0 describes. -/
structure Classified (dev : BlockDevice) (block : Memory) (vs : List VolumeShape) : Prop where
  /-- the two counters of partitions count the same -/
  agree : partitionCount block = btPartitionCount block
  /-- partitions come from a block that holds a partition table and no filesystem -/
  table : (∃ v ∈ vs, v.eType ≠ .normal) → Signed block ∧ ¬ FsBootSector block
  /-- a filesystem fills the device -/
  boot : FsBootSector block → vs = [wholeDisk dev]
  /-- a partition is an entry with a type, and has the numbers of that entry -/
  entry : ∀ v ∈ vs, ∀ start part, v.eType = .partition start part →
    part < 4 ∧ block (entryOffset part + ibmMbrPtblId) ≠ 0 ∧
      start = block.load (entryOffset part + ibmMbrPtblLba) ∧
      v.ulTotalBlocks = block.load (entryOffset part + ibmMbrPtblSectors)
  /-- `BT_PartitionInfo` reports the same numbers -/
  info : ∀ v ∈ vs, ∀ start part, v.eType = .partition start part →
    (btPartitionInfo block part).ulStartLBA = start ∧
    (btPartitionInfo block part).ulSectorCount = v.ulTotalBlocks

/-- The first enumeration of a device with this block 0, if it works, makes the volumes that
the block describes. -/
def EnumeratesRight (dev : BlockDevice) (block : Memory) : Prop :=
  ∀ w s, w.block = block → Works dev w → FirstState s →
    ∃ s', btEnumerateVolumes dev w s = some (0, s') ∧
    Classified dev block (s'.volumes.map Volume.shape)

/-- The counters read the block for what it is. Without either byte of the signature it
must not be a filesystem. With one of them its first entry is not used; or both are there, it is no
filesystem, and the entries up to the first one that is not used have a type. -/
def CountersSuit (block : Memory) : Prop :=
  block ibmMbrSignature ≠ 0x55 ∧ block (ibmMbrSignature + 1) ≠ 0xAA ∧ ¬ FsBootSector block ∨
    (block ibmMbrSignature = 0x55 ∨ block (ibmMbrSignature + 1) = 0xAA) ∧
    ¬ entryUsed block 0 = true ∨
    Signed block ∧ ¬ FsBootSector block ∧
      ∀ i < 4, (∀ j ≤ i, entryUsed block j = true) → block (entryOffset i + ibmMbrPtblId) ≠ 0

/-! ## What is counted

The count stops at the first entry that is not used, so that how far it gets is said of the entries
before. -/

section Count

variable {block : Memory} {i : ℕ}

/-- The test of the media byte. -/
theorem media_iff (b : UInt8) : b &&& 0xF0 = 0xF0 ↔ 0xF0 ≤ b := by
  have hall : ∀ n : Fin 256, UInt8.ofNat n.val &&& 0xF0 = 0xF0 ↔ 0xF0 ≤ UInt8.ofNat n.val := by
    decide +kernel
  have hb := hall ⟨b.toNat, b.toNat_lt⟩
  rwa [UInt8.ofNat_toNat] at hb

/-- Without either byte of the signature, a filesystem counts for one partition. -/
theorem partitionCount_unsigned (h : block ibmMbrSignature ≠ 0x55 ∧
    block (ibmMbrSignature + 1) ≠ 0xAA) :
    (FsBootSector block → partitionCount block = 1) ∧
    (¬ FsBootSector block → partitionCount block = 0) := by
  have hiff : (block 0 = 0xEB ∧ block 2 = 0x90 ∧ block 21 &&& 0xF0 = 0xF0) ↔
      FsBootSector block := by
    rw [media_iff]
    exact Iff.rfl
  unfold partitionCount
  rw [if_pos h]
  exact ⟨fun hb => if_pos (hiff.mpr hb), fun hb => if_neg fun h => hb (hiff.mp h)⟩

/-- A count over the slots gets past those before which all count. -/
theorem lt_takeWhile_range_iff {f : ℕ → Bool} {k : ℕ} :
    i < ((List.range k).takeWhile f).length ↔ i < k ∧ ∀ j ≤ i, f j = true := by
  constructor
  · intro hi
    have hle := (List.takeWhile_prefix f (l := List.range k)).length_le
    rw [List.length_range] at hle
    exact ⟨by omega, fun j hj => takeWhile_range_of_lt (hj.trans_lt hi)⟩
  · rintro ⟨hk, hall⟩
    have hsplit : List.range k = List.range (i + 1) ++ (List.range (k - (i + 1))).map
        (i + 1 + ·) := by
      rw [← List.range_add, Nat.add_sub_cancel' hk]
    rw [hsplit, List.takeWhile_append_of_pos fun j hj => hall j
      (by have := List.mem_range.mp hj; omega), List.length_append, List.length_range]
    omega

/-- With a byte of the signature, the entries up to the first one that is not used count. -/
theorem lt_partitionCount_iff (h : block ibmMbrSignature = 0x55 ∨
    block (ibmMbrSignature + 1) = 0xAA) :
    i < partitionCount block ↔ i < 4 ∧ ∀ j ≤ i, entryUsed block j = true := by
  unfold partitionCount
  rw [if_neg (by tauto)]
  exact lt_takeWhile_range_iff

end Count

/-! ## What is enumerated

The volumes of a block are read off the count and the entries, and compared with what the signature
and the test for a filesystem say. -/

section Volumes

variable {dev : BlockDevice} {block : Memory}

/-- A partition of the device is an entry that was counted. -/
theorem mem_tableVolumes_partition {v : VolumeShape} {start part : ℕ}
    (hv : v ∈ tableVolumes dev block) (ht : v.eType = .partition start part) :
    part < partitionCount block ∧ v = entryVolume dev block part := by
  unfold tableVolumes at hv
  split_ifs at hv
  · obtain rfl := List.mem_singleton.mp hv
    simp [wholeDisk] at ht
  · obtain ⟨i, hi, rfl⟩ := List.mem_map.mp hv
    obtain ⟨-, rfl⟩ := VolumeType.partition.inj ht
    exact ⟨List.mem_range.mp hi, rfl⟩

/-- There is a partition if and only if something was counted. -/
theorem exists_partition_iff :
    (∃ v ∈ tableVolumes dev block, v.eType ≠ .normal) ↔ partitionCount block ≠ 0 := by
  constructor
  · rintro ⟨v, hv, ht⟩ hzero
    unfold tableVolumes btPartitionCount at hv
    rw [if_pos hzero] at hv
    obtain rfl := List.mem_singleton.mp hv
    exact ht rfl
  · intro hne
    unfold tableVolumes btPartitionCount
    rw [if_neg hne]
    refine ⟨entryVolume dev block 0, List.mem_map_of_mem
      (List.mem_range.mpr (Nat.pos_of_ne_zero hne)), ?_⟩
    simp [entryVolume]

/-- Being what the block describes does not depend on the order. -/
theorem classified_reverse {vs : List VolumeShape} :
    Classified dev block vs.reverse ↔ Classified dev block vs := by
  have key : ∀ {us : List VolumeShape}, Classified dev block us →
      Classified dev block us.reverse := by
    intro us h
    refine ⟨h.agree, ?_, fun hb => ?_, ?_, ?_⟩
    · simpa using h.table
    · rw [h.boot hb, List.reverse_singleton]
    · simpa using h.entry
    · simpa using h.info
  refine ⟨fun h => ?_, key⟩
  have := key h
  rwa [List.reverse_reverse] at this

/-- The volumes of a block are the ones it describes, by the number of partitions counted. -/
theorem classified_tableVolumes_iff :
    Classified dev block (tableVolumes dev block) ↔
      partitionCount block ≠ 0 → Signed block ∧ ¬ FsBootSector block ∧
        ∀ i < partitionCount block, i < 4 ∧ block (entryOffset i + ibmMbrPtblId) ≠ 0 := by
  constructor
  · intro h hne
    obtain ⟨hs, hb⟩ := h.table (exists_partition_iff.mpr hne)
    refine ⟨hs, hb, fun i hi => ?_⟩
    have hv : entryVolume dev block i ∈ tableVolumes dev block := by
      unfold tableVolumes btPartitionCount
      rw [if_neg hne]
      exact List.mem_map_of_mem (List.mem_range.mpr hi)
    obtain ⟨h₁, h₂, -⟩ := h.entry _ hv _ i rfl
    exact ⟨h₁, h₂⟩
  · intro h
    refine ⟨rfl, fun hex => ?_, fun hb => ?_, fun v hv start part ht => ?_,
      fun v hv start part ht => ?_⟩
    · obtain ⟨hs, hb, -⟩ := h (exists_partition_iff.mp hex)
      exact ⟨hs, hb⟩
    · have hzero : partitionCount block = 0 := not_not.mp fun hne => (h hne).2.1 hb
      unfold tableVolumes btPartitionCount
      rw [if_pos hzero]
    · obtain ⟨hlt, rfl⟩ := mem_tableVolumes_partition hv ht
      obtain ⟨h₁, h₂⟩ := (h (by omega)).2.2 part hlt
      obtain ⟨rfl, -⟩ := VolumeType.partition.inj ht
      exact ⟨h₁, h₂, rfl, rfl⟩
    · obtain ⟨-, rfl⟩ := mem_tableVolumes_partition hv ht
      obtain ⟨rfl, -⟩ := VolumeType.partition.inj ht
      exact ⟨rfl, rfl⟩

/-- The volumes of a sector are classified by its counters alone. -/
theorem classified_iff_countersSuit : Classified dev block (tableVolumes dev block) ↔
    CountersSuit block := by
  rw [classified_tableVolumes_iff]
  unfold CountersSuit
  by_cases hsig : block ibmMbrSignature ≠ 0x55 ∧ block (ibmMbrSignature + 1) ≠ 0xAA
  · obtain ⟨h₁, h₂⟩ := hsig
    obtain ⟨hboot, hno⟩ := partitionCount_unsigned ⟨h₁, h₂⟩
    have hs : ¬ Signed block := fun hs => h₁ hs.1
    constructor
    · exact fun h => .inl ⟨h₁, h₂, fun hb => hs (h (by rw [hboot hb]; decide)).1⟩
    · rintro (⟨-, -, hb⟩ | ⟨hor, -⟩ | ⟨hs', -⟩)
      · exact fun hne => absurd (hno hb) hne
      · tauto
      · exact absurd hs' hs
  · have hor : block ibmMbrSignature = 0x55 ∨ block (ibmMbrSignature + 1) = 0xAA := by tauto
    have hlt (i : ℕ) := lt_partitionCount_iff (i := i) hor
    have hzero : partitionCount block ≠ 0 ↔ entryUsed block 0 = true := by
      rw [← Nat.pos_iff_ne_zero, hlt 0]
      simp
    constructor
    · intro h
      by_cases hu : entryUsed block 0 = true
      · obtain ⟨hs, hb, hall⟩ := h (hzero.mpr hu)
        exact .inr (.inr ⟨hs, hb, fun i hi hj => (hall i ((hlt i).mpr ⟨hi, hj⟩)).2⟩)
      · exact .inr (.inl ⟨hor, hu⟩)
    · rintro (⟨h₁, h₂, -⟩ | ⟨-, hu⟩ | ⟨hs, hb, hall⟩)
      · tauto
      · exact fun hne => absurd (hzero.mp hne) hu
      · refine fun _ => ⟨hs, hb, fun i hi => ?_⟩
        obtain ⟨hi', hj⟩ := (hlt i).mp hi
        exact ⟨hi', hall i hi' hj⟩

/-- What a first enumeration that works leaves is what the table says. -/
theorem enumeratesRight_iff : EnumeratesRight dev block ↔
    Classified dev block (tableVolumes dev block) := by
  have hshapes : ∀ w s, w.block = block → Works dev w → FirstState s →
      ∃ s', btEnumerateVolumes dev w s = some (0, s') ∧
        s'.volumes.map Volume.shape = (tableVolumes dev block).reverse := by
    rintro w s rfl hw h₀
    obtain ⟨s', hcall, hext⟩ := enumerate_first h₀ hw
    obtain ⟨new, hv, -, hshape, -⟩ := hext.added
    rw [h₀.volumes, List.append_nil] at hv
    exact ⟨s', hcall, by rw [hv, hshape]⟩
  rw [← classified_reverse]
  constructor
  · intro h
    have hw : Works dev { blankWorld with block := block } := ⟨rfl, rfl, fun _ _ => ⟨rfl, rfl⟩⟩
    have h₀ : FirstState ⟨1, [], [], []⟩ := ⟨rfl, rfl⟩
    obtain ⟨s', hcall, hs'⟩ := hshapes _ _ rfl hw h₀
    obtain ⟨s'', hcall', hcl⟩ := h _ _ rfl hw h₀
    obtain ⟨-, rfl⟩ := Prod.mk.inj (Option.some.inj (hcall.symm.trans hcall'))
    rwa [hs'] at hcl
  · intro h w s hb hw h₀
    obtain ⟨s', hcall, hs'⟩ := hshapes w s hb hw h₀
    exact ⟨s', hcall, by rwa [hs']⟩

/-- **Which blocks are read for what they are.** For every device and every block 0. -/
theorem classified_iff (dev : BlockDevice) (block : Memory) :
    EnumeratesRight dev block ↔ CountersSuit block :=
  enumeratesRight_iff.trans classified_iff_countersSuit

end Volumes

/-- A filesystem whose code has the byte `80` where the table would begin. -/
def codeSector : Memory := fun x =>
  if x = 0 then 0xEB else if x = 2 then 0x90 else if x = 21 then 0xF8 else if x = 0x1BE then 0x80
  else if x = 0x1FE then 0x55 else if x = 0x1FF then 0xAA else 0

/-- It is enumerated as a partition of no sectors. -/
theorem filesystem_as_partition :
    FsBootSector codeSector ∧ Signed codeSector ∧
      tableVolumes flashDisk codeSector = [⟨.partition 0 0, 0, "mtdblock00"⟩] ∧
      ¬ EnumeratesRight flashDisk codeSector := by
  have hvolumes : tableVolumes flashDisk codeSector = [⟨.partition 0 0, 0, "mtdblock00"⟩] := by
    decide +kernel
  have hboot : FsBootSector codeSector := by
    unfold FsBootSector
    decide
  refine ⟨hboot, by unfold Signed; decide, hvolumes, fun h => ?_⟩
  rcases classified_iff_countersSuit.mp (enumeratesRight_iff.mp h) with
    ⟨hno, -⟩ | ⟨-, hu⟩ | ⟨-, hb, -⟩
  · exact hno (by decide)
  · exact hu (by decide)
  · exact hb hboot

end BitThunder
