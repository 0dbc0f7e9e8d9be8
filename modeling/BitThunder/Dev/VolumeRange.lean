import BitThunder.Dev.BlockOnce
import BitThunder.Dev.VolumeSpec

/-!
# Volumes: who reaches which blocks

`BT_VolumeRead` and `BT_VolumeWrite` of `os/src/volumes/bt_volume.c`, over the volumes that
`BT_EnumerateVolumes` makes from a partition table and under the block layer, with
`BT_CONFIG_BLOCK_SCHEDULER` or without it. Neither compares the address with `ulTotalBlocks`, and
the sum of address and base is a word.

* `volumeCallSafe_iff`: when a call stays where it belongs;
* `volumes_isolated_iff`: the same of every request that the driver executes;
* `volume_reaches_next`: the block behind the first partition is the first one of the second.

Nothing is checked between a caller and the driver, so that what the driver is asked for is the
request with the base of the volume added, as a word. Isolation is therefore a matter of the numbers
of the call and of the entries of the table: they may overlap, and an entry may begin at block 0,
where the table is.

With the block scheduler the request that is executed is one that was made, with its own data, by
the theorem about the scheduler; without it, it is the request itself. What holds over runs follows
from the statement about one call.
-/

namespace BitThunder

/-! ## The calls

A call becomes a request for the block layer by adding the base of its volume, in 32 bits. -/

/-- `ulBaseAddress`; the volume for the whole disk has none. -/
def VolumeShape.base (v : VolumeShape) : ℕ :=
  match v.eType with
  | .normal => 0
  | .partition ulBaseAddress _ => ulBaseAddress

/-- What a call asks of the block layer, which asks it of the driver: there is no other check than
that of the handle, which is that of a registered device. -/
def volumeRequest (v : VolumeShape) (blkdev : ℕ) (writeNRead : Bool)
    (ulAddress ulBlocks pBuffer : ℕ) : BlockRequest :=
  match v.eType with
  | .normal => ⟨blkdev, writeNRead, ulAddress, ulBlocks, pBuffer⟩
  | .partition ulBaseAddress _ => ⟨blkdev, writeNRead, wordAdd ulAddress ulBaseAddress, ulBlocks,
    pBuffer⟩

/-- `BT_VolumeRead` -/
def btVolumeRead (v : VolumeShape) (blkdev ulAddress ulBlocks pBuffer : ℕ) : BlockRequest :=
  volumeRequest v blkdev false ulAddress ulBlocks pBuffer

/-- `BT_VolumeWrite` -/
def btVolumeWrite (v : VolumeShape) (blkdev ulAddress ulBlocks pBuffer : ℕ) : BlockRequest :=
  volumeRequest v blkdev true ulAddress ulBlocks pBuffer

/-! ## What is asked of them

A request belongs to its caller if its blocks are the ones that were meant and all lie in the
volume. -/

/-- The request is about the block. -/
def BlockRequest.Accesses (r : BlockRequest) (b : ℕ) : Prop :=
  r.ulAddress ≤ b ∧ b < r.ulAddress + r.ulBlocks

/-- The block belongs to the volume. -/
def VolumeShape.Owns (v : VolumeShape) (b : ℕ) : Prop := v.base ≤ b ∧ b < v.base + v.ulTotalBlocks

/-- A call through the volume `v`, one of `volumes` that were made from the table in `block`, stays
where it belongs. -/
structure VolumeCallSafe (volumes : List Volume) (block : Memory) (v : Volume) (ulAddress : ℕ)
    (r : BlockRequest) :
    Prop where
  /-- The blocks are those of the volume, and the address is one in the volume. -/
  inside : ∀ i < r.ulBlocks, r.ulAddress + i = v.shape.base + (ulAddress + i) ∧
    v.shape.Owns (r.ulAddress + i)
  /-- A write changes no block of another volume. -/
  others : r.writeNRead = true → ∀ w ∈ volumes, w ≠ v → ∀ b, r.Accesses b → ¬w.shape.Owns b
  /-- Nor does it change the partition table, if there is one. -/
  table : r.writeNRead = true → btPartitionCount block ≠ 0 → ¬r.Accesses 0

/-! ## When they do that

Both sides are about the same blocks, so that what is left is arithmetic of intervals. -/

/-- Two ranges of blocks that are not empty do not meet. -/
def RangesApart (a n b m : ℕ) : Prop := a + n ≤ b ∨ b + m ≤ a

/-- The blocks asked for lie in the volume, as numbers; and for a write the table does not give them
to another volume too, nor the block where it is itself. -/
def VolumeCallFits (volumes : List Volume) (block : Memory) (v : Volume) (writeNRead : Bool)
    (ulAddress ulBlocks : ℕ) :
    Prop :=
  ulBlocks = 0 ∨ ulAddress + ulBlocks ≤ v.shape.ulTotalBlocks ∧ v.shape.base + ulAddress < 2 ^ 32 ∧
    (writeNRead = true →
      (∀ w ∈ volumes, w ≠ v → w.shape.ulTotalBlocks = 0 ∨
        RangesApart (v.shape.base + ulAddress) ulBlocks w.shape.base w.shape.ulTotalBlocks) ∧
      (btPartitionCount block ≠ 0 → v.shape.base + ulAddress ≠ 0))

variable {volumes : List Volume} {block : Memory} {v : Volume}
  {blkdev ulAddress ulBlocks pBuffer : ℕ} {writeNRead : Bool}

@[simp] theorem volumeRequest_writeNRead (v : VolumeShape) :
    (volumeRequest v blkdev writeNRead ulAddress ulBlocks pBuffer).writeNRead = writeNRead := by
  unfold volumeRequest
  split <;> rfl

@[simp] theorem volumeRequest_ulBlocks (v : VolumeShape) :
    (volumeRequest v blkdev writeNRead ulAddress ulBlocks pBuffer).ulBlocks = ulBlocks := by
  unfold volumeRequest
  split <;> rfl

/-- It goes to the device that the volume is on. -/
@[simp] theorem volumeRequest_hBlock (v : VolumeShape) :
    (volumeRequest v blkdev writeNRead ulAddress ulBlocks pBuffer).hBlock = blkdev := by
  unfold volumeRequest
  split <;> rfl

/-- The address on the device is the sum, as a word. -/
theorem volumeRequest_ulAddress (v : VolumeShape) (haddr : ulAddress < 2 ^ 32) :
    (volumeRequest v blkdev writeNRead ulAddress ulBlocks pBuffer).ulAddress =
    (v.base + ulAddress) % 2 ^ 32 := by
  unfold volumeRequest VolumeShape.base wordAdd
  split
  · rw [Nat.zero_add, Nat.mod_eq_of_lt haddr]
  · rw [Nat.add_comm]

/-- A request without blocks does nothing. -/
theorem volumeCallSafe_nothing (r : BlockRequest) (h : r.ulBlocks = 0) :
    VolumeCallSafe volumes block v ulAddress r := by
  have hnone : ∀ b, ¬r.Accesses b := fun b hb => by
    unfold BlockRequest.Accesses at hb
    omega
  exact ⟨fun i hi => absurd hi
    (by omega), fun _ _ _ _ b hb => absurd hb (hnone b), fun _ _ => hnone 0⟩

/-- **When a call through a volume stays where it belongs** -/
theorem volumeCallSafe_iff (haddr : ulAddress < 2 ^ 32) :
    VolumeCallSafe volumes block v ulAddress
        (volumeRequest v.shape blkdev writeNRead ulAddress ulBlocks pBuffer) ↔
      VolumeCallFits volumes block v writeNRead ulAddress ulBlocks := by
  by_cases hzero : ulBlocks = 0
  · exact iff_of_true (volumeCallSafe_nothing _ (by simpa using hzero)) (.inl hzero)
  have hstart : (volumeRequest v.shape blkdev writeNRead ulAddress ulBlocks pBuffer).ulAddress =
      (v.shape.base + ulAddress) % 2 ^ 32 := volumeRequest_ulAddress v.shape haddr
  rw [VolumeCallFits, or_iff_right hzero]
  constructor
  · rintro ⟨hinside, hothers, htable⟩
    simp only [volumeRequest_ulBlocks, volumeRequest_writeNRead, hstart,
      BlockRequest.Accesses] at hinside hothers htable
    obtain ⟨hfirst, -⟩ := hinside 0 (by omega)
    obtain ⟨-, -, hlast⟩ := hinside (ulBlocks - 1) (by omega)
    refine ⟨by omega, by omega, fun hw => ⟨fun w hmem hne => ?_, fun hcount h0 => ?_⟩⟩
    · have hnot := hothers hw w hmem hne
      unfold VolumeShape.Owns at hnot
      unfold RangesApart
      -- the first block that both have
      have hmeet := hnot (max (v.shape.base + ulAddress) w.shape.base)
      omega
    · exact htable hw hcount ⟨by omega, by omega⟩
  · rintro ⟨hend, hword, hrest⟩
    rw [Nat.mod_eq_of_lt hword] at hstart
    refine ⟨fun i hi => ?_, fun hw w hmem hne b hb hown => ?_, fun hw hcount hb => ?_⟩
    · rw [volumeRequest_ulBlocks] at hi
      rw [hstart]
      exact ⟨by omega, by omega, by omega⟩
    · rw [volumeRequest_writeNRead] at hw
      rw [BlockRequest.Accesses, hstart, volumeRequest_ulBlocks] at hb
      have happart := (hrest hw).1 w hmem hne
      unfold RangesApart at happart
      unfold VolumeShape.Owns at hown
      omega
    · rw [volumeRequest_writeNRead] at hw
      rw [BlockRequest.Accesses, hstart] at hb
      have := (hrest hw).2 hcount
      omega

/-! ## Under the block layer

The block scheduler executes what was asked for, so that nothing new can happen to a request on its
way. -/

variable {dev : BlockDevice} {w : EnumWorld} {s₀ s : VolumeState} {e : ℕ} {ι : Type} [DecidableEq ι]
  {b₀ b : BlockState ι}

/-- A volume that was not there before comes from the table. -/
theorem mem_tableVolumes (h : btEnumerateVolumes dev w s₀ = some (e, s)) (hv : v ∈ s.volumes)
    (hnew : v ∉ s₀.volumes) : v.shape ∈ tableVolumes dev w.block := by
  obtain ⟨s₁, k, h₁, -, hext, -⟩ := btEnumerateVolumes_spec h
  obtain ⟨new, hvolumes, -, hshapes, -⟩ := hext.added
  rw [(unregisterAll_spec h₁).1] at hvolumes
  rw [hvolumes] at hv
  have hmem : v.shape ∈ new.map Volume.shape :=
    List.mem_map_of_mem ((List.mem_append.mp hv).resolve_right hnew)
  rw [hshapes, List.mem_reverse] at hmem
  exact List.mem_of_mem_take hmem

/-- **When volumes are isolated from one another.** For every table, every volume enumerated from
it, every address and count, and in every run of the block layer: what the driver is asked to do for
a call is what the call asked for, of the device of the volume, and it stays where it belongs if and
only if the blocks lie in the volume, as numbers that do not wrap, and for a write the table gives
them to no other volume and not to itself. -/
theorem volumes_isolated_iff (h : btEnumerateVolumes dev w s₀ = some (e, s)) (hv : v ∈ s.volumes)
    (haddr : ulAddress < 2 ^ 32) (hb₀ : b₀.Initial) (hb : b₀.Reachable b) {x : Execution ι}
    (hx : x ∈ b.log)
    (hcall : b.issued x.client x.ticket =
      volumeRequest v.shape blkdev writeNRead ulAddress ulBlocks pBuffer) :
    (v ∉ s₀.volumes → v.shape ∈ tableVolumes dev w.block) ∧ x.device = blkdev ∧
      x.req.pBuffer = pBuffer ∧
      (VolumeCallSafe s.volumes w.block v ulAddress x.req ↔
        VolumeCallFits s.volumes w.block v writeNRead ulAddress ulBlocks) := by
  obtain ⟨hreq, hdevice⟩ := (hb.recorded hb₀).data x hx
  rw [hcall] at hreq
  rw [hreq] at hdevice ⊢
  refine ⟨mem_tableVolumes h hv, hdevice.trans (volumeRequest_hBlock _), ?_,
    volumeCallSafe_iff haddr⟩
  unfold volumeRequest
  split <;> rfl

/-- A table with two partitions, of four blocks each -/
def twoEntries : Memory := fun x =>
  if x = 0x1BE ∨ x = 0x1CE then 0x80
  else if x = 0x1C6 then 1
  else if x = 0x1CA ∨ x = 0x1DA then 4
  else if x = 0x1D6 then 5
  else if x = 0x1FE then 0x55
  else 0

def twoEntriesWorld : EnumWorld := { blankWorld with block := twoEntries }

/-- The volumes for them -/
def firstEntry : Volume := ⟨1, .partition 1 0, 4, "mtdblock00"⟩

def secondEntry : Volume := ⟨2, .partition 5 1, 4, "mtdblock01"⟩

/-- Both entries of the table become volumes, the second before the first. -/
theorem twoEntries_enumerated : btEnumerateVolumes flashDisk twoEntriesWorld ⟨1, [], [], []⟩ =
    some (0, ⟨3, [secondEntry, firstEntry], [2, 1], []⟩) := by decide

/-- Two blocks in the middle of the second volume are written, by way of the scheduler. -/
theorem volumes_isolated_second : ∃ (b : BlockState Bool) (x : Execution Bool), x ∈ b.log ∧
    VolumeCallSafe [secondEntry, firstEntry] twoEntries secondEntry 1 x.req := by
  have hrun : ∃ b, (BlockState.booted : BlockState Bool).run
      [.start false (btVolumeWrite secondEntry.shape 3 1 2 64), .client false, .client false,
        .client false, .client false, .sched 0, .sched 0, .sched 0, .sched 2] = some b ∧
      b.log = [⟨false, 1, 3, ⟨3, true, 6, 2, 64⟩, 2⟩] ∧
      b.issued false 1 = btVolumeWrite secondEntry.shape 3 1 2 64 := ⟨_, rfl, rfl, rfl⟩
  obtain ⟨b, hb, hlog, hissued⟩ := hrun
  have hmem : ⟨false, 1, 3, ⟨3, true, 6, 2, 64⟩, 2⟩ ∈ b.log := by simp [hlog]
  have hiff := volumes_isolated_iff twoEntries_enumerated List.mem_cons_self (by decide)
    BlockState.initial_booted (BlockState.Reachable.init.run hb) hmem hissued
  refine ⟨b, _, hmem, hiff.2.2.2.mpr
    (.inr ⟨by decide, by decide, fun _ => ⟨fun w hw hne => .inr ?_, fun _ => by decide⟩⟩)⟩
  rcases List.mem_pair.mp hw with rfl | rfl
  · exact absurd rfl hne
  · exact .inr (by decide)

/-- The block behind the end of the first volume is the first one of the second. -/
theorem volume_reaches_next : FirstState ⟨1, [], [], []⟩ ∧
    btEnumerateVolumes flashDisk twoEntriesWorld ⟨1, [], [], []⟩ =
      some (0, ⟨3, [secondEntry, firstEntry], [2, 1], []⟩) ∧
    ¬VolumeCallSafe [secondEntry, firstEntry] twoEntries firstEntry 4
      (btVolumeWrite firstEntry.shape 3 4 1 64) := by
  refine ⟨⟨rfl, rfl⟩, twoEntries_enumerated, fun hsafe => ?_⟩
  rcases (volumeCallSafe_iff (by decide)).mp hsafe with h | h
  · exact absurd h (by decide)
  · exact absurd h.1 (by decide)

end BitThunder
