import BitThunder.Lib.Memory

/-!
# The RAM disk

`drivers/block/ramdisk.c`. A disk of `ulTotalBlocks` blocks is kept in memory. It should be a
store of blocks: a read gives what the last write that covered a block has put there. The
write computes the address of its first block, and then copies to the start of the disk.

* `IsStore`: what the disk should be after a history of requests;
* `Ramdisk.store_of_aligned`: it is that, as long as all writes begin at the first block;
* `Ramdisk.write_destroys_first`: and not if one does not.

The reference `expected` walks back through the history to the last write that covers a block. With
writes that begin at the first block, the address that the driver computes and the one that it
copies to are the same, and each request keeps the agreement; a write that begins elsewhere goes to
the wrong blocks, and a read of either gives it away.
-/

namespace BitThunder

open Memory

/-- What `ramdisk_probe` has set up. The disk lies in memory, which has `2 ^ 32` bytes. -/
structure Ramdisk : Type where
  ulBlockSize : ℕ
  ulTotalBlocks : ℕ
  size_lt : ulBlockSize * ulTotalBlocks < 2 ^ 32

namespace Ramdisk

variable (d : Ramdisk)

/-- `ramdisk_blockread`, with the memory from `hBlock->buffer` on and that from `pBuffer` on -/
def ramdiskBlockread (disk : Memory) (ulBlock ulCount : ℕ) (pBuffer : Memory) : ℕ × Memory :=
  let p := disk.advance (d.ulBlockSize * ulBlock % 2 ^ 32)
  (ulCount, pBuffer.overlay 0 (d.ulBlockSize * ulCount % 2 ^ 32) p)

/-- `ramdisk_blockwrite`; the address `p` of the first block is not used -/
def ramdiskBlockwrite (disk : Memory) (_ulBlock ulCount : ℕ) (pBuffer : Memory) : ℕ × Memory :=
  (ulCount, disk.overlay 0 (d.ulBlockSize * ulCount % 2 ^ 32) pBuffer)

/-! ## Histories

A history is a list of requests, the last one in front, and what should be on the disk after it is
computed from the list. -/

/-- A request to the disk. -/
inductive Request : Type where
  | read (ulBlock ulCount : ℕ) (pBuffer : Memory)
  | write (ulBlock ulCount : ℕ) (pBuffer : Memory)

/-- The blocks of the request are on the disk. -/
def Request.Within : Request → Prop
  | .read ulBlock ulCount _ | .write ulBlock ulCount _ => ulBlock + ulCount ≤ d.ulTotalBlocks

/-- The disk after a history of requests, the last one first. -/
def after (disk : Memory) : List Request → Memory
  | [] => disk
  | .read _ _ _ :: reqs => after disk reqs
  | .write ulBlock ulCount pBuffer :: reqs =>
    (d.ramdiskBlockwrite (after disk reqs) ulBlock ulCount pBuffer).2

/-- Byte `j` of block `b` as the last write that covered the block has put it there, or as it
was at the beginning. -/
def expected (disk : Memory) : List Request → ℕ → ℕ → UInt8
  | [], b, j => disk (d.ulBlockSize * b + j)
  | .read _ _ _ :: reqs, b, j => expected disk reqs b j
  | .write ulBlock ulCount pBuffer :: reqs, b, j =>
    if ulBlock ≤ b ∧ b < ulBlock + ulCount then pBuffer (d.ulBlockSize * (b - ulBlock) + j)
    else expected disk reqs b j

/-- After the history the disk is a store of blocks. -/
structure IsStore (disk : Memory) (reqs : List Request) : Prop where
  /-- every block is as it should be -/
  blocks : ∀ b < d.ulTotalBlocks, ∀ j < d.ulBlockSize,
    d.after disk reqs (d.ulBlockSize * b + j) = d.expected disk reqs b j
  /-- a read gives the blocks it is asked for -/
  reads : ∀ ulBlock ulCount pBuffer, ulBlock + ulCount ≤ d.ulTotalBlocks →
    (d.ramdiskBlockread (d.after disk reqs) ulBlock ulCount pBuffer).1 = ulCount ∧
    ∀ i < ulCount, ∀ j < d.ulBlockSize,
      (d.ramdiskBlockread (d.after disk reqs) ulBlock ulCount pBuffer).2 (d.ulBlockSize * i + j) =
        d.expected disk reqs (ulBlock + i) j
  /-- the last request, if it was a write, has changed no block beside its own -/
  beside : ∀ ulBlock ulCount pBuffer reqs', reqs = .write ulBlock ulCount pBuffer :: reqs' →
    ∀ b < d.ulTotalBlocks, b < ulBlock ∨ ulBlock + ulCount ≤ b → ∀ j < d.ulBlockSize,
      d.after disk reqs (d.ulBlockSize * b + j) = d.after disk reqs' (d.ulBlockSize * b + j)

/-- A write begins at the first block, or has no blocks. -/
def Request.AtStart : Request → Prop
  | .read _ _ _ => True
  | .write ulBlock ulCount _ => ulBlock = 0 ∨ ulCount = 0

variable {d} {disk pBuffer : Memory} {reqs : List Request} {ulBlock ulCount b j : ℕ}

/-- A byte of a block of the disk, in bytes. -/
theorem byte_lt (hb : b < ulCount) (hj : j < d.ulBlockSize) :
    d.ulBlockSize * b + j < d.ulBlockSize * ulCount := by
  calc d.ulBlockSize * b + j < d.ulBlockSize * b + d.ulBlockSize := by omega
    _ = d.ulBlockSize * (b + 1) := by ring
    _ ≤ d.ulBlockSize * ulCount := Nat.mul_le_mul_left _ hb

/-- A byte of a later block lies behind those of the blocks before. -/
theorem byte_ge (hb : ulCount ≤ b) : d.ulBlockSize * ulCount ≤ d.ulBlockSize * b + j :=
  (Nat.mul_le_mul_left _ hb).trans (Nat.le_add_right _ _)

/-- The products of the driver do not wrap for blocks on the disk. -/
theorem mul_mod (h : ulCount ≤ d.ulTotalBlocks) :
    d.ulBlockSize * ulCount % 2 ^ 32 = d.ulBlockSize * ulCount :=
  Nat.mod_eq_of_lt ((Nat.mul_le_mul_left _ h).trans_lt d.size_lt)

/-- Each byte that is read is the disk's at the same place. -/
theorem read_spec (h : ulBlock + ulCount ≤ d.ulTotalBlocks) {i : ℕ} (hi : i < ulCount)
    (hj : j < d.ulBlockSize) :
    (d.ramdiskBlockread disk ulBlock ulCount pBuffer).2 (d.ulBlockSize * i + j) =
      disk (d.ulBlockSize * (ulBlock + i) + j) := by
  have hlt := byte_lt hi hj
  have hin : pBuffer.overlay 0 (d.ulBlockSize * ulCount) (disk.advance (d.ulBlockSize * ulBlock))
      (0 + (d.ulBlockSize * i + j)) = disk.advance (d.ulBlockSize * ulBlock)
        (d.ulBlockSize * i + j) :=
    overlay_of_in hlt
  unfold ramdiskBlockread
  rw [mul_mod
    (by omega : ulCount ≤ d.ulTotalBlocks), mul_mod (by omega : ulBlock ≤ d.ulTotalBlocks)]
  rw [Nat.zero_add] at hin
  refine hin.trans ?_
  unfold advance
  congr 1
  ring

/-- A write from the first block on. -/
theorem write_spec (h : ulCount ≤ d.ulTotalBlocks) (hj : j < d.ulBlockSize) :
    (d.ramdiskBlockwrite disk ulBlock ulCount pBuffer).2 (d.ulBlockSize * b + j) =
      if b < ulCount then pBuffer (d.ulBlockSize * b + j) else disk (d.ulBlockSize * b + j) := by
  unfold ramdiskBlockwrite
  rw [mul_mod h]
  split_ifs with hb
  · have hin : disk.overlay 0 (d.ulBlockSize * ulCount) pBuffer (0 + (d.ulBlockSize * b + j)) =
        pBuffer (d.ulBlockSize * b + j) := overlay_of_in (byte_lt hb hj)
    rwa [Nat.zero_add] at hin
  · refine overlay_of_out (.inr ?_)
    rw [Nat.zero_add]
    exact byte_ge (not_lt.mp hb)

/-- What the next request leaves right, if it is a write from the first block on. -/
theorem after_eq_expected (hall : ∀ req ∈ reqs, req.Within d ∧ req.AtStart)
    (hj : j < d.ulBlockSize) :
    d.after disk reqs (d.ulBlockSize * b + j) = d.expected disk reqs b j := by
  induction reqs with
  | nil => rfl
  | cons req reqs ih =>
    have hrest := ih fun r hr => hall r (List.mem_cons_of_mem _ hr)
    obtain ⟨hwithin, hstart⟩ := hall req (List.mem_cons_self ..)
    cases req with
    | read ulBlock ulCount pBuffer => exact hrest
    | write ulBlock ulCount pBuffer =>
      have hcount : ulCount ≤ d.ulTotalBlocks := (Nat.le_add_left _ _).trans hwithin
      rw [after, write_spec hcount hj, expected]
      obtain rfl | rfl := hstart
      · simp only [Nat.zero_le, true_and, Nat.zero_add, Nat.sub_zero]
        rw [hrest]
      · rw [if_neg (Nat.not_lt_zero b), if_neg (by omega), hrest]

/-- **When the RAM disk is a store of blocks**: in every history of requests on the disk all of
whose writes begin at the first block. -/
theorem store_of_aligned (d : Ramdisk) (disk : Memory) (reqs : List Request)
    (hall : ∀ req ∈ reqs, req.Within d ∧ req.AtStart) : d.IsStore disk reqs where
  blocks b _ j hj := after_eq_expected hall hj
  reads ulBlock ulCount pBuffer h := by
    refine ⟨rfl, fun i hi j hj => ?_⟩
    rw [read_spec h hi hj]
    exact after_eq_expected hall hj
  beside ulBlock ulCount pBuffer reqs' hreqs b _ hout j hj := by
    subst hreqs
    obtain ⟨hwithin, hstart⟩ := hall _ (List.mem_cons_self ..)
    have hcount : ulCount ≤ d.ulTotalBlocks := (Nat.le_add_left _ _).trans hwithin
    rw [after, write_spec hcount hj, if_neg]
    obtain rfl | rfl := hstart
    · omega
    · exact Nat.not_lt_zero b

/-- Four kibibytes in blocks of 512 bytes. -/
def eightBlocks : Ramdisk := ⟨512, 8, by decide⟩

/-- A memory of the same byte everywhere. -/
def filled (v : UInt8) : Memory := fun _ => v

/-- Two writes and a read at the start of an eight-block disk. -/
theorem store_of_aligned_eight :
    (∀ req ∈ [Request.write 0 2 (filled 7), .read 1 1 (filled 0), .write 0 1 (filled 9)],
      req.Within eightBlocks ∧ req.AtStart) ∧
    eightBlocks.IsStore (filled 0) [.write 0 2 (filled 7), .read 1 1 (filled 0),
      .write 0 1 (filled 9)] := by
  have hall : ∀ req ∈ [Request.write 0 2 (filled 7), .read 1 1 (filled 0), .write 0 1 (filled 9)],
      req.Within eightBlocks ∧ req.AtStart := by
    intro req hreq
    simp only [List.mem_cons, List.not_mem_nil, or_false] at hreq
    obtain rfl | rfl | rfl := hreq
    · exact ⟨by unfold Request.Within; decide, .inl rfl⟩
    · exact ⟨by unfold Request.Within; decide, trivial⟩
    · exact ⟨by unfold Request.Within; decide, .inl rfl⟩
  exact ⟨hall, store_of_aligned _ _ _ hall⟩

/-- A write to block 3 goes to block 0. -/
theorem write_destroys_first :
    (Request.write 3 1 (filled 7)).Within eightBlocks ∧
    ¬ eightBlocks.IsStore (filled 0) [.write 3 1 (filled 7)] := by
  refine ⟨by unfold Request.Within; decide, fun h => ?_⟩
  have hblock := h.blocks 0 (by decide) 0 (by decide)
  revert hblock
  decide

end Ramdisk

end BitThunder
