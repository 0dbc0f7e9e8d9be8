import Mathlib.Data.List.TakeWhile
import BitThunder.Dev.Partition
import BitThunder.Dev.VolumeSpec

/-!
# Partition tables, written and read

What `BT_Partition` writes is read back by `BT_PartitionInfo` and by the enumeration of the
volumes, unless the request has holes, asks for extended partitions or does not fit: then a
table is written that is not the one asked for, or none.

* `tableBlock_holds`: what is in the block that is written;
* `partitionCount_of_holds`: how far the readers get;
* `fillParts_eq_place`: without a hole, the sizes are those of the rule;
* `partition_agrees_iff`: the exact condition.

Writing and reading meet in `HoldsTable`: the signature and the four fields of the four entries,
wherever in the block. That the block has this is shown once for the writer, entry by entry, each
leaving the others alone; the two readers are then computed from it, and what they find is the
entries up to the first one that is not used.

For the condition, every way to go wrong has its witness in a field. Extended partitions are laid
out and never written. A hole makes the second loop miss a size. Without memory for the block, or
when the write fails, there is no error and the medium holds what it held, which is then chosen so
that it is not the table.
-/

namespace BitThunder

open Memory

/-! ## What is in the block

The entries lie one behind the other, and each field of an entry is in its own bytes. So a field is
read back if the later writes leave it alone. -/

section Block

variable {m : Memory} {a b x v : ℕ} {c : UInt8} {p : PartEntry} {parts : List PartEntry}

theorem btPut8_at : btPut8 m a c a = c := by
  unfold btPut8 overlay
  rw [if_pos (by omega)]

theorem btPut8_of_ne (h : x ≠ a) : btPut8 m a c x = m x := overlay_of_out (by omega)

theorem btPut16LE_of_out (h : x < a ∨ a + 2 ≤ x) : btPut16LE m a v x = m x := overlay_of_out h

theorem putEntry_of_out (h : x < a ∨ a + 16 ≤ x) : putEntry m a p x = m x := by
  unfold putEntry ibmMbrPtblId ibmMbrPtblLba ibmMbrPtblSectors
  rw [store_of_out (by omega), store_of_out (by omega)]
  rw [btPut16LE_of_out
    (by omega), btPut8_of_ne (by omega), btPut8_of_ne (by omega), btPut8_of_ne (by omega),
    btPut8_of_ne (by omega), btPut8_of_ne (by omega)]

/-- The first byte of the entry tells whether it is used. -/
theorem putEntry_active : putEntry m a p a = p.ucActive := by
  unfold putEntry ibmMbrPtblId ibmMbrPtblLba ibmMbrPtblSectors
  rw [store_of_out (by omega), store_of_out (by omega)]
  rw [btPut16LE_of_out
    (by omega), btPut8_of_ne (by omega), btPut8_of_ne (by omega), btPut8_of_ne (by omega),
    btPut8_of_ne (by omega), btPut8_at]

theorem putEntry_id : putEntry m a p (a + ibmMbrPtblId) = p.ucPartitionID := by
  unfold putEntry ibmMbrPtblId ibmMbrPtblLba ibmMbrPtblSectors
  rw [store_of_out (by omega), store_of_out (by omega)]
  rw [btPut16LE_of_out (by omega), btPut8_of_ne (by omega), btPut8_at]

/-- The start of a partition is read back as it was written. -/
theorem putEntry_lba (h : p.ulStartLBA < 2 ^ 32) :
    (putEntry m a p).load (a + ibmMbrPtblLba) = p.ulStartLBA := by
  unfold putEntry
  dsimp only
  rw [load_store_of_out (by unfold ibmMbrPtblLba ibmMbrPtblSectors; omega), load_store h]

theorem putEntry_sectors (h : p.ulSectorCount < 2 ^ 32) :
    (putEntry m a p).load (a + ibmMbrPtblSectors) = p.ulSectorCount := by
  unfold putEntry
  dsimp only
  rw [load_store h]

theorem entryOffset_succ (i : ℕ) : entryOffset (i + 1) = entryOffset i + 16 := by
  unfold entryOffset
  omega

theorem entryOffset_mono {i j : ℕ} (h : i < j) : entryOffset i + 16 ≤ entryOffset j := by
  unfold entryOffset
  omega

/-- The entries are written into the table's four slots only. -/
theorem putEntries_of_out (n i : ℕ) (h : x < entryOffset i ∨ entryOffset (i + n) ≤ x) :
    putEntries parts n i m x = m x := by
  induction n generalizing i m with
  | zero => rfl
  | succ n ih =>
    have hoff : entryOffset i + 16 ≤ entryOffset (i + (n + 1)) := entryOffset_mono (by omega)
    unfold putEntries
    rw [ih, putEntry_of_out (by omega)]
    rw [entryOffset_succ, show i + 1 + n = i + (n + 1) by omega]
    omega

/-- Each entry is there as it was put. -/
theorem putEntries_at (m : Memory) (parts : List PartEntry) (n i j : ℕ) (hij : i ≤ j)
    (hj : j < i + n) :
    ∃ m', ∀ x, entryOffset j ≤ x → x < entryOffset j + 16 →
      putEntries parts n i m x = putEntry m' (entryOffset j) (parts.getD j PartEntry.zero) x := by
  induction n generalizing i m with
  | zero => omega
  | succ n ih =>
    unfold putEntries
    by_cases h : i = j
    · subst h
      refine ⟨m, fun x _ hx => putEntries_of_out n (i + 1) (.inl ?_)⟩
      rw [entryOffset_succ]
      exact hx
    · exact ih _ (i + 1) (by omega) (by omega)

/-- The signature, and for each of the four entries its four fields. -/
structure HoldsTable (m : Memory) (parts : List PartEntry) : Prop where
  /-- the block has the signature -/
  signature : m ibmMbrSignature = 0x55
  /-- and the fields of four entries, which are zero behind the last partition -/
  active : ∀ j < 4, m (entryOffset j) = (parts.getD j PartEntry.zero).ucActive
  id : ∀ j < 4, m (entryOffset j + ibmMbrPtblId) = (parts.getD j PartEntry.zero).ucPartitionID
  lba : ∀ j < 4, m.load (entryOffset j + ibmMbrPtblLba) = (parts.getD j PartEntry.zero).ulStartLBA
  sectors : ∀ j < 4, m.load (entryOffset j + ibmMbrPtblSectors) =
    (parts.getD j PartEntry.zero).ulSectorCount

/-- An entry whose numbers are words. -/
def PartEntry.Fits (p : PartEntry) : Prop := p.ulStartLBA < 2 ^ 32 ∧ p.ulSectorCount < 2 ^ 32

/-- A medium with the block written to it holds the table. -/
theorem tableBlock_holds {medium : Memory} {size : ℕ} (hsize : 512 ≤ size)
    (hfits : ∀ j, (parts.getD j PartEntry.zero).Fits) :
    HoldsTable (medium.overlay 0 size (tableBlock parts)) parts := by
  have hbyte : ∀ x < 512, medium.overlay 0 size (tableBlock parts) x = tableBlock parts x := by
    intro x hx
    have hin : medium.overlay 0 size (tableBlock parts) (0 + x) = tableBlock parts x :=
      overlay_of_in (by omega)
    rwa [Nat.zero_add] at hin
  have hentry : ∀ j < 4, ∃ m', ∀ x, entryOffset j ≤ x → x < entryOffset j + 16 →
      medium.overlay 0 size (tableBlock parts) x =
        putEntry m' (entryOffset j) (parts.getD j PartEntry.zero) x := by
    intro j hj
    have hoff : entryOffset j + 16 ≤ 510 := by
      unfold entryOffset ibmMbrPtbl
      omega
    obtain ⟨m', hm'⟩ := putEntries_at bootBlock parts 4 0 j (Nat.zero_le j) (by omega)
    refine ⟨m', fun x hx hx' => ?_⟩
    rw [hbyte x (by omega), ← hm' x hx hx']
    unfold tableBlock
    rw [btPut8_of_ne (by omega), btPut8_of_ne (by omega)]
  refine ⟨?_, fun j hj => ?_, fun j hj => ?_, fun j hj => ?_, fun j hj => ?_⟩
  · rw [hbyte _ (by decide)]
    unfold tableBlock
    rw [btPut8_of_ne (by decide)]
    exact btPut8_at
  · obtain ⟨m', hm'⟩ := hentry j hj
    rw [hm' _ le_rfl (by omega), putEntry_active]
  · obtain ⟨m', hm'⟩ := hentry j hj
    rw [hm' _ (by omega) (by unfold ibmMbrPtblId; omega), putEntry_id]
  · obtain ⟨m', hm'⟩ := hentry j hj
    refine Eq.trans (load_congr fun x hx hx' => ?_)
      (putEntry_lba (m := m') (a := entryOffset j) (hfits j).1)
    unfold ibmMbrPtblLba at hx hx'
    exact hm' x (by omega) (by omega)
  · obtain ⟨m', hm'⟩ := hentry j hj
    refine Eq.trans (load_congr fun x hx hx' => ?_)
      (putEntry_sectors (m := m') (a := entryOffset j) (hfits j).2)
    unfold ibmMbrPtblSectors at hx hx'
    exact hm' x (by omega) (by omega)

end Block

/-! ## How far the readers get

Both readers stop at the first slot that is not used. The slots that the writer has filled come
first exactly if the request has no hole. -/

/-- The prefix depends on the test at the list's elements only. -/
theorem takeWhile_congr {α : Type} {f g : α → Bool} {l : List α} (h : ∀ a ∈ l, f a = g a) :
    l.takeWhile f = l.takeWhile g := by
  induction l with
  | nil => rfl
  | cons a l ih =>
    rw [List.takeWhile_cons, List.takeWhile_cons, h a List.mem_cons_self,
      ih fun b hb => h b (List.mem_cons_of_mem a hb)]

section Readers

variable {m : Memory} {geom : BlockGeometry} {params : PartitionParams} {n i rem lba j : ℕ}

/-- A slot that gets a partition. -/
def Taken (geom : BlockGeometry) (params : PartitionParams) (j : ℕ) : Prop :=
  j < partCount params ∧ 0 < normalSizes geom params j

instance : Decidable (Taken geom params j) := inferInstanceAs (Decidable (_ ∧ _))

/-- A slot with a size is filled, and marked. -/
theorem fillParts_of_taken (hj : j < n) (hpos : 0 < normalSizes geom params (i + j)) :
    ((fillParts geom params n i rem lba).getD j PartEntry.zero).ucActive = 0x80 := by
  induction n generalizing i rem lba j with
  | zero => omega
  | succ n ih =>
    unfold fillParts
    dsimp only
    cases j with
    | zero =>
      rw [Nat.add_zero] at hpos
      rw [if_pos hpos]
      rfl
    | succ j =>
      have hpos' : 0 < normalSizes geom params (i + 1 + j) := by
        rwa [Nat.add_assoc, Nat.add_comm 1 j]
      split_ifs
      · exact ih (by omega) hpos'
      · exact ih (by omega) hpos'

theorem fillParts_of_not_taken (h : ¬ (j < n ∧ 0 < normalSizes geom params (i + j))) :
    (fillParts geom params n i rem lba).getD j PartEntry.zero = PartEntry.zero := by
  induction n generalizing i rem lba j with
  | zero => rfl
  | succ n ih =>
    unfold fillParts
    dsimp only
    cases j with
    | zero =>
      have hzero : ¬ 0 < normalSizes geom params i := fun hpos => h ⟨Nat.succ_pos n, hpos⟩
      rw [if_neg hzero]
      rfl
    | succ j =>
      have h' : ¬ (j < n ∧ 0 < normalSizes geom params (i + 1 + j)) := by
        rw [Nat.add_assoc, Nat.add_comm 1 j]
        omega
      split_ifs
      · exact ih h'
      · exact ih h'

theorem PartEntry.zero_fits : PartEntry.zero.Fits := ⟨by decide, by decide⟩

theorem fillParts_fits (hrem : rem < 2 ^ 32) (hlba : lba < 2 ^ 32) (j : ℕ) :
    ((fillParts geom params n i rem lba).getD j PartEntry.zero).Fits := by
  induction n generalizing i rem lba j with
  | zero => exact PartEntry.zero_fits
  | succ n ih =>
    unfold fillParts
    dsimp only
    split_ifs
    · cases j with
      | zero => exact ⟨hlba, (min_le_right _ _).trans_lt hrem⟩
      | succ j => exact ih ((Nat.sub_le _ _).trans_lt hrem) (wordAdd_lt _ _) j
    · cases j with
      | zero => exact PartEntry.zero_fits
      | succ j => exact ih hrem hlba j

theorem hiddenSectors_lt (params : PartitionParams) : hiddenSectors params < 2 ^ 32 := by
  have := params.hidden_lt
  unfold hiddenSectors
  split_ifs
  · decide
  · exact this

theorem oParts_fits (geom : BlockGeometry) (params : PartitionParams) (j : ℕ) :
    ((oParts geom params).getD j PartEntry.zero).Fits :=
  fillParts_fits (wordSub_lt _ _) (hiddenSectors_lt params) j

/-- The readers stop at the first slot without a partition. -/
theorem partitionCount_of_holds (h : HoldsTable m (oParts geom params)) :
    partitionCount m = ((List.range 4).takeWhile fun j => Taken geom params j).length := by
  have hused : ∀ j ∈ List.range 4, entryUsed m j = decide (Taken geom params j) := by
    intro j hj
    rw [List.mem_range] at hj
    have hactive := h.active j hj
    have hid := h.id j hj
    unfold entryUsed
    by_cases ht : Taken geom params j
    · have hset : ((oParts geom params).getD j PartEntry.zero).ucActive = 0x80 :=
        fillParts_of_taken ht.1 (by rw [Nat.zero_add]; exact ht.2)
      rw [hactive, hset]
      simp [ht]
    · have hzero : (oParts geom params).getD j PartEntry.zero = PartEntry.zero :=
        fillParts_of_not_taken (by rw [Nat.zero_add]; exact ht)
      rw [hactive, hid, hzero]
      simp [ht, PartEntry.zero]
  unfold partitionCount
  rw [if_neg (by simp [h.signature])]
  congr 1
  exact takeWhile_congr hused

end Readers

/-! ## The rule for the sizes

The rule speaks of shares of what is available and knows no slots. With a request that can be
written the loop follows it. -/

/-- The sectors kept back for extended partitions. -/
def reservedBlocks (params : PartitionParams) : ℕ :=
  (if params.ulInterSpace = 0 then 2048 else params.ulInterSpace) *
    ((requests params.ulSizes).length - params.ulPrimaryCount)

/-- The sectors that are divided among the partitions. -/
def freeBlocks (geom : BlockGeometry) (params : PartitionParams) : ℕ :=
  geom.ulTotalBlocks - hiddenSectors params - reservedBlocks params

/-- The length of a partition: the size itself, or its share of the free sectors. -/
def sizeRule (geom : BlockGeometry) (params : PartitionParams) (size : ℕ) : ℕ :=
  match params.eSizeType with
  | .sectors => size
  | .percent => size * freeBlocks geom params / 100
  | .quota => size * freeBlocks geom params / (requests params.ulSizes).sum

/-- One partition after the other: where each starts, and its length. -/
def place : ℕ → List ℕ → List (ℕ × ℕ)
  | _, [] => []
  | lba, size :: sizes => (lba, size) :: place (lba + size) sizes

/-- The partitions of a request. There are none if the hidden and the reserved sectors are
more than the device has, or if the sizes add up to more than a word. -/
def prescribed (geom : BlockGeometry) (params : PartitionParams) : Option (List (ℕ × ℕ)) :=
  if hiddenSectors params + reservedBlocks params ≤ geom.ulTotalBlocks ∧
      (requests params.ulSizes).sum < 2 ^ 32 then
    some (place (hiddenSectors params) ((requests params.ulSizes).map (sizeRule geom params)))
  else none

/-- The volumes of such partitions. -/
def layoutVolumes (dev : BlockDevice) (layout : List (ℕ × ℕ)) : List VolumeShape :=
  if layout = [] then [wholeDisk dev]
  else layout.zipIdx.map fun e => ⟨.partition e.1.1 e.2, e.1.2, dev.szpName ++ toString e.2⟩

/-- Both readers find the partitions of the request. -/
def ReadsBack (dev : BlockDevice) (geom : BlockGeometry) (params : PartitionParams) (m : Memory) :
    Prop :=
  ∃ layout, prescribed geom params = some layout ∧ partitionCount m = layout.length ∧
    (List.range layout.length).map
    (fun i => ((btPartitionInfo m i).ulStartLBA, (btPartitionInfo m i).ulSectorCount)) =
      layout ∧
    tableVolumes dev m = layoutVolumes dev layout

/-- Whatever was on the medium, and whatever a write that fails leaves there: if `BT_Partition`
returns without an error, its request is read back. -/
def PartitionAgrees (dev : BlockDevice) (geom : BlockGeometry) (params : PartitionParams)
    (granted written : Bool) : Prop :=
  ∀ medium left, ∃ e m,
    btPartition geom params ⟨granted, if written then none else some left⟩ medium = some (e, m) ∧
      (e = 0 → ReadsBack dev geom params m)

/-- A request that is written as it stands: partitions without a hole in the first slots, all
of them primary, behind hidden sectors that the device has. -/
structure Writable (geom : BlockGeometry) (params : PartitionParams) : Prop where
  /-- there is a partition to be made -/
  requested : requests params.ulSizes ≠ []
  /-- no slot before the last size is empty -/
  filled : ∀ i < (requests params.ulSizes).length, 0 < params.ulSizes i
  /-- all are primary partitions -/
  primary : (requests params.ulSizes).length ≤ params.ulPrimaryCount
  /-- the hidden sectors do not exceed the device -/
  room : hiddenSectors params ≤ geom.ulTotalBlocks
  /-- the sizes add up to a word -/
  sum : (requests params.ulSizes).sum < 2 ^ 32

section Rule

variable {geom : BlockGeometry} {params : PartitionParams} {sizes : ℕ → ℕ}

theorem length_place (lba : ℕ) (l : List ℕ) : (place lba l).length = l.length := by
  induction l generalizing lba with
  | nil => rfl
  | cons z l ih =>
    unfold place
    rw [List.length_cons, List.length_cons, ih]

theorem length_requests_le (sizes : ℕ → ℕ) : (requests sizes).length ≤ 4 := by
  unfold requests
  refine (List.length_filter_le _ _).trans ?_
  rw [List.length_map, List.length_range]
  exact le_rfl

/-- Without a hole the request is made of the first slots. -/
theorem requests_of_filled (h : ∀ i < (requests sizes).length, 0 < sizes i) :
    requests sizes = (List.range' 0 (requests sizes).length).map sizes := by
  have hall : requests sizes = ([sizes 0, sizes 1, sizes 2, sizes 3]).filter fun z => 0 < z := rfl
  by_cases h₀ : 0 < sizes 0
  · by_cases h₁ : 0 < sizes 1
    · by_cases h₂ : 0 < sizes 2
      · by_cases h₃ : 0 < sizes 3
        · rw [hall]
          simp [h₀, h₁, h₂, h₃, List.range']
        · rw [hall]
          simp [h₀, h₁, h₂, h₃, List.range']
      · by_cases h₃ : 0 < sizes 3
        · exact absurd (h 2 (by rw [hall]; simp [h₀, h₁, h₂, h₃])) h₂
        · rw [hall]
          simp [h₀, h₁, h₂, h₃, List.range']
    · by_cases h₂ : 0 < sizes 2
      · exact absurd (h 1 (by rw [hall]; simp [h₀, h₁, h₂])) h₁
      · by_cases h₃ : 0 < sizes 3
        · exact absurd (h 1 (by rw [hall]; simp [h₀, h₁, h₂, h₃])) h₁
        · rw [hall]
          simp [h₀, h₁, h₂, h₃]
  · have hnil : requests sizes = [] := by
      by_contra hne
      exact h₀ (h 0 (List.length_pos_of_ne_nil hne))
    rw [hnil]
    rfl

/-- In 32 bits the sizes add up to their sum, if that is a word. -/
theorem summedSizes_eq (h : (requests sizes).sum < 2 ^ 32) :
    summedSizes sizes = (requests sizes).sum := by
  have key : ∀ (l : List ℕ) (a : ℕ), a + l.sum < 2 ^ 32 → l.foldl wordAdd a = a + l.sum := by
    intro l
    induction l with
    | nil => exact fun a _ => rfl
    | cons z l ih =>
      intro a ha
      rw [List.sum_cons] at ha
      rw [List.foldl_cons,
        wordAdd_of_lt (by omega), ih (a + z) (by omega), List.sum_cons, Nat.add_assoc]
  unfold summedSizes
  rw [key _ 0 (by omega), Nat.zero_add]

/-- If something is requested the sum of the requests is not zero. -/
theorem sum_pos_of_requested (h : requests sizes ≠ []) : 0 < (requests sizes).sum := by
  obtain ⟨z, l, hl⟩ := List.exists_cons_of_ne_nil h
  have hz : z ∈ requests sizes := hl ▸ List.mem_cons_self
  have hpos : 0 < z := by
    unfold requests at hz
    simpa using (List.mem_filter.mp hz).2
  rw [hl, List.sum_cons]
  omega

theorem partCount_eq (h : requests params.ulSizes ≠ []) :
    partCount params = (requests params.ulSizes).length := if_neg h

theorem partCount_le (params : PartitionParams) : partCount params ≤ 4 := by
  unfold partCount
  split_ifs
  · decide
  · exact length_requests_le params.ulSizes

/-- Extended partitions are asked for by allowing too few primary ones. -/
theorem isExtended_iff (params : PartitionParams) :
    isExtended params = true ↔ params.ulPrimaryCount < partCount params := by
  have hle := partCount_le params
  have hmost : (if 4 < partCount params then 3 else partCount params) = partCount params :=
    if_neg (by omega)
  unfold isExtended primaryCount
  rw [decide_eq_true_iff, hmost]
  dsimp only
  split_ifs
  · omega
  · exact Iff.rfl

/-- Shares of a whole do not add up to more than it. -/
theorem sum_shares_le (l : List ℕ) (A D : ℕ) : (l.map fun z => z * A / D).sum ≤ l.sum * A / D := by
  induction l with
  | nil => simp
  | cons z l ih =>
    rw [List.map_cons, List.sum_cons, List.sum_cons, Nat.add_mul]
    exact (Nat.add_le_add_left ih _).trans Nat.div_add_div_le_add_div

theorem hiddenSectors_ge (params : PartitionParams) : 4096 ≤ hiddenSectors params := by
  unfold hiddenSectors
  split_ifs
  · exact le_rfl
  · omega

/-- Without a hole and without overflow, the loop places one partition after the other. -/
theorem fillParts_eq_place (n i rem lba : ℕ) (hpos : ∀ j ∈ List.range' i n,
    0 < normalSizes geom params j)
    (hrem : ((List.range' i n).map fun j => sizeOf geom params (normalSizes geom params j)).sum ≤
      rem)
    (hlba : lba + rem < 2 ^ 32) :
    fillParts geom params n i rem lba =
      (place lba ((List.range' i n).map fun j => sizeOf geom params
      (normalSizes geom params j))).map
        fun e => ⟨e.1, e.2, 0x80, 0x0B⟩ := by
  induction n generalizing i rem lba with
  | zero => rfl
  | succ n ih =>
    rw [List.range'_succ] at hpos hrem ⊢
    rw [List.map_cons, List.sum_cons] at hrem
    have hmin : min (sizeOf geom params (normalSizes geom params i)) rem =
        sizeOf geom params (normalSizes geom params i) := min_eq_left (by omega)
    unfold fillParts
    dsimp only
    rw [if_pos (hpos i List.mem_cons_self), hmin, wordAdd_of_lt (by omega),
      ih _ _ _ (fun j hj => hpos j (List.mem_cons_of_mem i hj)) (by omega) (by omega)]
    rfl

end Rule

/-! ## A request that can be written

The numbers of the function are computed for such a request, from the sum of the sizes to the
table. -/

section Write

variable {dev : BlockDevice} {geom : BlockGeometry} {params : PartitionParams} {m : Memory}

/-- A size that is given is taken as it is. -/
theorem normalSizes_eq (h : requests params.ulSizes ≠ []) (i : ℕ) :
    normalSizes geom params i = params.ulSizes i := if_neg fun hi => h hi.1

namespace Writable

variable (h : Writable geom params)

include h

theorem not_extended : ¬ isExtended params = true := by
  rw [isExtended_iff, partCount_eq h.requested]
  exact not_lt.mpr h.primary

theorem reservedBlocks_eq : reservedBlocks params = 0 := by
  unfold reservedBlocks
  rw [Nat.sub_eq_zero_of_le h.primary, Nat.mul_zero]

theorem freeBlocks_eq : freeBlocks geom params = geom.ulTotalBlocks - hiddenSectors params := by
  unfold freeBlocks
  rw [h.reservedBlocks_eq, Nat.sub_zero]

/-- All that lies behind the hidden sectors is available. -/
theorem availableBlocks_eq : availableBlocks geom params = freeBlocks geom params := by
  have hlt := geom.total_lt
  have hreserved : reservedSpace params = 0 := if_neg h.not_extended
  unfold availableBlocks
  rw [hreserved, wordSub_of_le h.room hlt, wordSub_of_le (Nat.zero_le _)
    (by omega), Nat.sub_zero, h.freeBlocks_eq]

/-- The sum that the shares are taken of is that of the requests. -/
theorem partSum_eq : partSum geom params = (requests params.ulSizes).sum := by
  unfold partSum
  rw [if_neg h.requested, summedSizes_eq h.sum]

theorem divisor_pos : 0 < divisor geom params := by
  unfold divisor
  rw [h.partSum_eq]
  split_ifs
  · decide
  · exact sum_pos_of_requested h.requested

/-- The sizes add up to no more than what they are divided by. -/
theorem sum_le_divisor (hvalid : sizesValid geom params = true) :
    (requests params.ulSizes).sum ≤ divisor geom params := by
  unfold divisor
  unfold sizesValid at hvalid
  rw [h.partSum_eq] at hvalid ⊢
  split_ifs with ht
  · rw [ht] at hvalid
    simpa using hvalid
  · exact le_rfl

/-- Each share is a part of what is available, so nothing is lost in 32 bits. -/
theorem sizeOf_eq (hvalid : sizesValid geom params = true) {z : ℕ}
    (hz : z ∈ requests params.ulSizes) :
    sizeOf geom params z = sizeRule geom params z := by
  have hlt := geom.total_lt
  have hle : z ≤ divisor geom params :=
    (List.single_le_sum (by simp) z hz).trans (h.sum_le_divisor hvalid)
  have hshare : z * freeBlocks geom params / divisor geom params < 2 ^ 32 := by
    refine lt_of_le_of_lt ?_ (show freeBlocks geom params < 2 ^ 32 by rw [h.freeBlocks_eq]; omega)
    exact Nat.div_le_of_le_mul (Nat.mul_le_mul_right _ hle)
  unfold sizeOf sizeRule
  rw [h.availableBlocks_eq, Nat.mod_eq_of_lt hshare]
  unfold divisor
  rw [h.partSum_eq]
  cases params.eSizeType with
  | quota => rfl
  | percent => rfl
  | sectors => rfl

/-- The partitions fit into what is available. -/
theorem sum_sizeRule_le (hvalid : sizesValid geom params = true) :
    ((requests params.ulSizes).map (sizeRule geom params)).sum ≤ freeBlocks geom params := by
  have hdiv := h.sum_le_divisor hvalid
  have hpos := h.divisor_pos
  have hshares : ((requests params.ulSizes).map fun z =>
      z * freeBlocks geom params / divisor geom params).sum ≤ freeBlocks geom params :=
    (sum_shares_le _ _ _).trans (Nat.div_le_of_le_mul (Nat.mul_le_mul_right _ hdiv))
  unfold divisor at hshares
  rw [h.partSum_eq] at hshares
  unfold sizeRule
  unfold sizesValid at hvalid
  cases ht : params.eSizeType with
  | quota => simpa [ht] using hshares
  | percent => simpa [ht] using hshares
  | sectors =>
    rw [ht, h.partSum_eq, h.availableBlocks_eq] at hvalid
    simpa using hvalid

/-- What is written is what was asked for. -/
theorem oParts_eq (hvalid : sizesValid geom params = true) :
    oParts geom params =
      (place (hiddenSectors params) ((requests params.ulSizes).map (sizeRule geom params))).map
        fun e => ⟨e.1, e.2, 0x80, 0x0B⟩ := by
  have hlt := geom.total_lt
  have hreq := requests_of_filled h.filled
  have hrule : (List.range' 0 (requests params.ulSizes).length).map
      (fun j => sizeOf geom params (normalSizes geom params j)) =
      (requests params.ulSizes).map (sizeRule geom params) := by
    calc _ = ((List.range' 0 (requests params.ulSizes).length).map params.ulSizes).map
          (sizeOf geom params) := by
          rw [List.map_map]
          exact List.map_congr_left fun j _ => congrArg _ (normalSizes_eq h.requested j)
      _ = (requests params.ulSizes).map (sizeOf geom params) := by rw [← hreq]
      _ = _ := List.map_congr_left fun z hz => h.sizeOf_eq hvalid hz
  unfold oParts
  rw [partCount_eq h.requested, h.availableBlocks_eq, fillParts_eq_place, hrule]
  · intro j hj
    rw [normalSizes_eq h.requested]
    exact h.filled j (by simpa using hj)
  · rw [hrule]
    exact h.sum_sizeRule_le hvalid
  · have hroom := h.room
    rw [h.freeBlocks_eq]
    omega

/-- What a table for these requests is to be: each one behind the one before, in the share that the
rule gives it. -/
theorem prescribed_eq : prescribed geom params =
    some (place (hiddenSectors params) ((requests params.ulSizes).map (sizeRule geom params))) := by
  unfold prescribed
  rw [if_pos ⟨by rw [h.reservedBlocks_eq]; exact h.room, h.sum⟩]

end Writable

/-- A count over the slots reaches as far as the slots before it. -/
theorem takeWhile_range_of_lt {f : ℕ → Bool} {k i : ℕ}
    (hi : i < ((List.range k).takeWhile f).length) :
    f i = true := by
  have hpre := List.takeWhile_prefix f (l := List.range k)
  have hmem : ((List.range k).takeWhile f)[i] ∈ (List.range k).takeWhile f := List.getElem_mem hi
  have heq : ((List.range k).takeWhile f)[i] = i := by
    rw [hpre.getElem hi, List.getElem_range]
  rw [heq] at hmem
  exact List.mem_takeWhile_imp hmem

/-- The prefix of a range on which a test holds. -/
theorem takeWhile_range_length {f : ℕ → Bool} {k n : ℕ} (hn : n ≤ k) (hlt : ∀ i < n, f i = true)
    (hge : ∀ i, n ≤ i → f i = false) : ((List.range k).takeWhile f).length = n := by
  have hle : n ≤ ((List.range k).takeWhile f).length := by
    have hsplit : List.range k = List.range n ++ (List.range (k - n)).map (n + ·) := by
      rw [← List.range_add, Nat.add_sub_cancel' hn]
    rw [hsplit, List.takeWhile_append_of_pos fun i hi => hlt i (List.mem_range.mp hi),
      List.length_append, List.length_range]
    omega
  refine le_antisymm (not_lt.mp fun hlt' => ?_) hle
  have := takeWhile_range_of_lt hlt'
  rw [hge n le_rfl] at this
  simp at this

/-- A table of the partitions that were asked for is read back. -/
theorem readsBack_of_holds (h : Writable geom params) (hvalid : sizesValid geom params = true)
    (hm : HoldsTable m (oParts geom params)) : ReadsBack dev geom params m := by
  generalize hlayout : place (hiddenSectors params)
    ((requests params.ulSizes).map (sizeRule geom params)) = layout
  have hlen : layout.length = (requests params.ulSizes).length := by
    rw [← hlayout, length_place, List.length_map]
  have hle := length_requests_le params.ulSizes
  have hparts : oParts geom params = layout.map fun e => ⟨e.1, e.2, 0x80, 0x0B⟩ := by
    rw [h.oParts_eq hvalid, hlayout]
  have hcount : partitionCount m = layout.length := by
    rw [partitionCount_of_holds hm, hlen]
    refine takeWhile_range_length hle (fun i hi => ?_) fun i hi => ?_
    · rw [decide_eq_true_iff]
      refine ⟨by rwa [partCount_eq h.requested], ?_⟩
      rw [normalSizes_eq h.requested]
      exact h.filled i hi
    · rw [decide_eq_false_iff_not]
      rintro ⟨hlt, -⟩
      rw [partCount_eq h.requested] at hlt
      omega
  have hentry : ∀ i (hi : i < layout.length),
      m.load (entryOffset i + ibmMbrPtblLba) = layout[i].1 ∧
        m.load (entryOffset i + ibmMbrPtblSectors) = layout[i].2 := by
    intro i hi
    have hget : (oParts geom params).getD i PartEntry.zero =
        ⟨layout[i].1, layout[i].2, 0x80, 0x0B⟩ := by
      rw [hparts, List.getD_eq_getElem _ _ (by rwa [List.length_map]), List.getElem_map]
    rw [hm.lba i (by omega), hm.sectors i (by omega), hget]
    exact ⟨rfl, rfl⟩
  refine ⟨layout, by rw [h.prescribed_eq, hlayout], hcount, ?_, ?_⟩
  · refine List.ext_getElem (by simp) fun i hi hi' => ?_
    rw [List.getElem_map, List.getElem_range]
    exact Prod.ext (hentry i hi').1 (hentry i hi').2
  · have hne : layout ≠ [] := by
      intro hnil
      rw [hnil, List.length_nil] at hlen
      exact h.requested (List.length_eq_zero_iff.mp hlen.symm)
    unfold tableVolumes layoutVolumes btPartitionCount
    rw [hcount, if_neg (fun h => hne (List.length_eq_zero_iff.mp h)), if_neg hne]
    refine List.ext_getElem (by simp) fun i hi hi' => ?_
    have hi'' : i < layout.length := by simpa using hi'
    rw [List.getElem_map, List.getElem_range, List.getElem_map, List.getElem_zipIdx]
    unfold entryVolume
    rw [(hentry i hi'').1, (hentry i hi'').2, Nat.zero_add]

end Write

/-! ## The exact condition

Any other request is given a medium for which what is read back is wrong: one that is left as it
was, or one on which a slot is missing. -/

section Exact

variable {dev : BlockDevice} {geom : BlockGeometry} {params : PartitionParams} {m : Memory}

/-- A boot sector without a signature: the readers take it for one partition. -/
def bootSector : Memory := fun x => if x = 0 then 0xEB else if x = 2 then 0x90 else if x = 21
    then 0xF0 else 0

/-- What the medium holds after a request for extended partitions does not depend on it. -/
theorem not_agrees_of_unchanged (h : ∀ medium, ReadsBack dev geom params medium) : False := by
  obtain ⟨layout, hlayout, hcount, -⟩ := h fun _ => 0
  obtain ⟨layout', hlayout', hcount', -⟩ := h bootSector
  obtain rfl := Option.some.inj (hlayout.symm.trans hlayout')
  have h₀ : partitionCount (fun _ => 0) = 0 := by decide
  have h₁ : partitionCount bootSector = 1 := by decide
  rw [h₀] at hcount
  rw [h₁] at hcount'
  omega

/-- A table that reads back comes from a request that could be written. -/
theorem writable_of_readsBack (hext : ¬ isExtended params = true)
    (hm : HoldsTable m (oParts geom params)) (h : ReadsBack dev geom params m) :
    Writable geom params := by
  obtain ⟨layout, hlayout, hcount, -, -⟩ := h
  unfold prescribed at hlayout
  split_ifs at hlayout with hfit
  obtain rfl := Option.some.inj hlayout
  rw [length_place, List.length_map, partitionCount_of_holds hm] at hcount
  have htaken : ∀ i < (requests params.ulSizes).length, Taken geom params i := fun i hi =>
    of_decide_eq_true (takeWhile_range_of_lt (hcount.symm ▸ hi))
  have hreq : requests params.ulSizes ≠ [] := by
    -- the default partition of an empty request is one that was not asked for
    intro hnil
    rw [hnil, List.length_nil, List.length_eq_zero_iff] at hcount
    have hnot : ¬ Taken geom params 0 := by
      intro ht
      have : 0 < ((List.range 4).takeWhile fun j => decide (Taken geom params j)).length := by
        rw [show List.range 4 = [0, 1, 2, 3] from rfl,
          List.takeWhile_cons_of_pos (by simpa using ht)]
        exact Nat.succ_pos _
      rw [hcount] at this
      simp at this
    refine hnot ⟨?_, ?_⟩
    · unfold partCount
      rw [if_pos hnil]
      decide
    · have hge := hiddenSectors_ge params
      unfold normalSizes
      rw [if_pos ⟨hnil, rfl⟩]
      split_ifs
      · omega
      · decide
  rw [isExtended_iff, partCount_eq hreq, not_lt] at hext
  refine ⟨hreq, fun i hi => ?_, hext, by omega, hfit.2⟩
  rw [← normalSizes_eq hreq]
  exact (htaken i hi).2

/-- A request that passes the check of its sizes is read back exactly if it can be written, there is
memory for the block and the block is written. -/
theorem partition_agrees_iff (dev : BlockDevice) (geom : BlockGeometry) (params : PartitionParams)
    (granted written : Bool) : PartitionAgrees dev geom params granted written ↔
      (sizesValid geom params = true → Writable geom params ∧ granted = true ∧ written = true) := by
  constructor
  · intro h hvalid
    unfold PartitionAgrees btPartition at h
    simp only [hvalid, not_true_eq_false, if_false] at h
    by_cases hzero : dividesByZero geom params = true
    · obtain ⟨e, m, hrun, -⟩ := h (fun _ => 0) fun _ => 0
      rw [if_pos hzero] at hrun
      simp at hrun
    · simp only [if_neg hzero] at h
      by_cases hext : isExtended params = true
      · simp only [if_pos hext] at h
        have hall : ∀ medium, ReadsBack dev geom params medium := by
          intro medium
          obtain ⟨e, m, hrun, hread⟩ := h medium medium
          obtain ⟨rfl, rfl⟩ := Prod.mk.inj (Option.some.inj hrun)
          exact hread rfl
        exact (not_agrees_of_unchanged hall).elim
      · simp only [if_neg hext] at h
        cases granted with
        | false =>
          obtain ⟨e, m, hrun, -⟩ := h (fun _ => 0) fun _ => 0
          simp at hrun
        | true =>
          cases written with
          | false =>
            -- what a failed write leaves does not depend on the request
            have hall : ∀ left, ReadsBack dev geom params left := by
              intro left
              obtain ⟨e, m, hrun, hread⟩ := h (fun _ => 0) left
              obtain ⟨rfl, rfl⟩ := Prod.mk.inj (Option.some.inj hrun)
              exact hread rfl
            exact (not_agrees_of_unchanged hall).elim
          | true =>
            obtain ⟨e, m, hrun, hread⟩ := h (fun _ => 0) fun _ => 0
            obtain ⟨rfl, rfl⟩ := Prod.mk.inj (Option.some.inj hrun)
            refine ⟨writable_of_readsBack hext ?_ (hread rfl), rfl, rfl⟩
            exact tableBlock_holds geom.blockSize_ge (oParts_fits geom params)
  · intro h medium left
    unfold btPartition
    by_cases hvalid : sizesValid geom params = true
    · obtain ⟨hw, rfl, rfl⟩ := h hvalid
      have hzero : ¬ dividesByZero geom params = true := by
        have hpos := hw.divisor_pos
        unfold dividesByZero
        rw [decide_eq_true_iff]
        rintro ⟨-, hz, -⟩
        omega
      rw [if_neg (not_not.mpr hvalid), if_neg hzero, if_neg hw.not_extended]
      refine ⟨_, _, rfl, fun _ => ?_⟩
      exact readsBack_of_holds hw hvalid
        (tableBlock_holds geom.blockSize_ge (oParts_fits geom params))
    · rw [if_pos hvalid]
      exact ⟨_, _, rfl, fun he => absurd he (by decide)⟩

theorem nothing_hidden : 0 < 2 ^ 32 := by decide

/-- Half of the disk, in the second slot. -/
def secondSlot : PartitionParams where
  ulHiddenSectors := 0
  ulInterSpace := 0
  ulSizes i := if i = 1 then 50 else 0
  ulPrimaryCount := 4
  eSizeType := .percent
  sizes_lt i := by split_ifs <;> decide
  hidden_lt := nothing_hidden

def smallDisk : BlockGeometry := ⟨512, 104096, by decide, by decide⟩

/-- The writer only looks at the first slot, and writes a table without a partition. -/
theorem partition_hole_lost :
    ((btPartition smallDisk secondSlot ⟨true, none⟩ fun _ => 0).map
      fun r => (r.1, partitionCount r.2)) =
      some (0, 0) ∧
      prescribed smallDisk secondSlot = some [(4096, 50000)] ∧
      ¬ PartitionAgrees flashDisk smallDisk secondSlot true true := by
  have hrun : ((btPartition smallDisk secondSlot ⟨true, none⟩ fun _ => 0).map fun r =>
      (r.1, partitionCount r.2)) = some (0, 0) := by decide +kernel
  have hrule : prescribed smallDisk secondSlot = some [(4096, 50000)] := by decide +kernel
  refine ⟨hrun, hrule, fun h => ?_⟩
  obtain ⟨e, m, hm, hread⟩ := h (fun _ => 0) fun _ => 0
  rw [if_pos rfl] at hm
  rw [hm] at hrun
  obtain ⟨he, hcount⟩ := Prod.mk.inj (Option.some.inj hrun)
  obtain ⟨layout, hlayout, hlen, -⟩ := hread he
  obtain rfl := Option.some.inj (hrule.symm.trans hlayout)
  dsimp only at hcount
  rw [hcount] at hlen
  simp at hlen

end Exact

end BitThunder
