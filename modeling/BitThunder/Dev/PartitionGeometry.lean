import BitThunder.Dev.PartitionSpec

/-!
# Where the partitions lie

The arithmetic of `BT_Partition`. What is available is a difference of the size of the
device, the hidden sectors and the space between extended partitions; the sizes are added up
without a bound. Both are computed in 32 bits, and the loop that fills `oParts` trusts them.

* `NoWrap`: one condition for each operation of the function;
* `fillParts_covers`, `fillParts_apart`, `fillParts_count`: what the loop does with the
  numbers it is given;
* `partition_sound_iff`: the requests whose partitions lie where they should.

Soundness is stated in numbers without a bound, next to the words that the code computes, and
`NoWrap` has one field for each operation where the two could part. If the sizes add up to a word
and the hidden sectors and the space between are no more than the device has, none of them does:
shares of a whole are no more than the whole, and every product has its 64 bits.

The other direction goes through the same fields: where nothing wraps, the sums are words and the
reserved sectors fit. A slot behind a hole gets nothing, which is wrong if its share is at least one
sector and something is left of what is available; this is what `ReachesShares` is about.
-/

namespace BitThunder

/-! ## What should hold

The numbers as they would be without words, and the conditions under which the words are these
numbers. -/

/-- The sectors of a partition. -/
def PartEntry.Covers (p : PartEntry) (x : ℕ) : Prop :=
  p.ulStartLBA ≤ x ∧ x < p.ulStartLBA + p.ulSectorCount

/-- The partitions have no sector in common. -/
def PartEntry.Apart (p q : PartEntry) : Prop := ∀ x, ¬ (p.Covers x ∧ q.Covers x)

/-- The sectors of the first `i` partitions. -/
def sectorsBefore (parts : List PartEntry) (i : ℕ) : ℕ :=
  ((parts.take i).map PartEntry.ulSectorCount).sum

/-- `ulInterSpace`, the constant -/
def interSpace (params : PartitionParams) : ℕ := if params.ulInterSpace = 0 then 2048
    else params.ulInterSpace

/-- The space between extended partitions, as a number without a bound. -/
def spaceBetween (params : PartitionParams) : ℕ :=
  interSpace params * (partCount params - primaryCount params)

/-- What is available, as a number without a bound. -/
def exactAvailable (geom : BlockGeometry) (params : PartitionParams) : ℕ :=
  geom.ulTotalBlocks - (hiddenSectors params + spaceBetween params)

/-- What the sizes are parts of: a hundred, or all of them together. -/
def exactTotal (geom : BlockGeometry) (params : PartitionParams) : ℕ :=
  if params.eSizeType = .percent then 100
    else ((List.range btPartitionMax).map (normalSizes geom params)).sum

/-- No sum of the first loop leaves 32 bits. -/
def SumStays : ℕ → List ℕ → Prop
  | _, [] => True
  | sum, z :: zs => sum + z < 2 ^ 32 ∧ SumStays (wordAdd sum z) zs

/-- No operation of the loop that fills `oParts` leaves its type: the product has 64 bits,
its quotient is cast to 32. -/
def FillStays (geom : BlockGeometry) (params : PartitionParams) : ℕ → ℕ → ℕ → ℕ → Prop
  | 0, _, _, _ => True
  | n + 1, i, remaining, lba =>
    let size := normalSizes geom params i
    if 0 < size then
      let ulSize := min (sizeOf geom params size) remaining
      (params.eSizeType ≠ .sectors →
        size * availableBlocks geom params < 2 ^ 64 ∧
          size * availableBlocks geom params / divisor geom params < 2 ^ 32) ∧
        ulSize ≤ remaining ∧ lba + ulSize < 2 ^ 32 ∧
        FillStays geom params n (i + 1) (remaining - ulSize) (wordAdd lba ulSize)
    else FillStays geom params n (i + 1) remaining lba

/-- No sum, difference or product of `BT_Partition` wraps. -/
structure NoWrap (geom : BlockGeometry) (params : PartitionParams) : Prop where
  /-- the sizes add up in a word -/
  sum : SumStays 0 (requests params.ulSizes)
  /-- the difference of partitions and primary partitions is no negative number -/
  primary : primaryCount params ≤ partCount params
  /-- the space between extended partitions is a word -/
  between : isExtended params = true → spaceBetween params < 2 ^ 32
  /-- the hidden sectors are no more than there are -/
  hidden : hiddenSectors params ≤ geom.ulTotalBlocks
  /-- nor is the space between the partitions more than what is left then -/
  reserved : reservedSpace params ≤ wordSub geom.ulTotalBlocks (hiddenSectors params)
  /-- and in the loop no start and no size passes what is available -/
  fill : FillStays geom params (partCount params) 0 (availableBlocks geom params)
    (hiddenSectors params)

/-- The sectors of a slot: its part of what is available -/
def exactShare (geom : BlockGeometry) (params : PartitionParams) (i : ℕ) : ℕ :=
  normalSizes geom params i * exactAvailable geom params / exactTotal geom params

/-- The partitions are where they should be, and were computed without an accident. -/
structure GeometrySound (geom : BlockGeometry) (params : PartitionParams) : Prop where
  /-- no sum, difference or product wraps -/
  noWrap : NoWrap geom params
  /-- nothing is divided by zero -/
  divides : ¬ dividesByZero geom params = true
  /-- the partitions are disjoint -/
  apart : (oParts geom params).Pairwise PartEntry.Apart
  /-- they lie between the hidden sectors and the end of the device -/
  inside : ∀ p ∈ oParts geom params, ∀ x, p.Covers x → hiddenSectors params ≤ x ∧
    x < geom.ulTotalBlocks
  /-- the share of what is available, cut off at what remains of it, for each slot of the request -/
  share : params.eSizeType ≠ .sectors → ∀ i < btPartitionMax,
    ((oParts geom params).getD i PartEntry.zero).ulSectorCount =
      min (exactShare geom params i) (exactAvailable geom params - sectorsBefore
      (oParts geom params) i)

/-- Whatever is on the medium, and whatever memory and medium do: unless `BT_Partition` returns an
error, its partitions are sound. -/
def PartitionSound (geom : BlockGeometry) (params : PartitionParams) : Prop :=
  ∀ services medium, (∀ e m, btPartition geom params services medium = some (e, m) → e = 0) →
    GeometrySound geom params

/-- The sizes add up to a word, and the hidden sectors and the space between extended
partitions are no more than the device has. -/
structure FitsDevice (geom : BlockGeometry) (params : PartitionParams) : Prop where
  /-- the sizes add up to a word -/
  sum : (requests params.ulSizes).sum < 2 ^ 32
  /-- what is kept free fits on the device -/
  room : hiddenSectors params + spaceBetween params ≤ geom.ulTotalBlocks

/-- The loop leaves out no slot that is to have a sector: it goes through as many slots as there are
sizes that are not zero. -/
def ReachesShares (geom : BlockGeometry) (params : PartitionParams) : Prop :=
  params.eSizeType ≠ .sectors → ∀ i < btPartitionMax, partCount params ≤ i →
  exactShare geom params i = 0

/-! ## The loop

What the loop does is said of its own arguments: a beginning, a number of sectors, and a list of
sizes. Whether these came about without wrapping does not matter here. -/

section Loop

variable {geom : BlockGeometry} {params : PartitionParams} {n i rem lba j x : ℕ} {p : PartEntry}

theorem PartEntry.not_covers_zero : ¬ PartEntry.zero.Covers x := by
  rintro ⟨-, hx⟩
  exact Nat.not_lt_zero x hx

theorem PartEntry.apart_zero_left : PartEntry.zero.Apart p := fun _ h => not_covers_zero h.1

/-- The partitions lie in what the loop was given. -/
theorem fillParts_covers (hlba : lba + rem < 2 ^ 32) (hp : p ∈ fillParts geom params n i rem lba)
    (hx : p.Covers x) : lba ≤ x ∧ x < lba + rem := by
  induction n generalizing i rem lba with
  | zero => exact absurd hp List.not_mem_nil
  | succ n ih =>
    unfold fillParts at hp
    dsimp only at hp
    have hle := min_le_right (sizeOf geom params (normalSizes geom params i)) rem
    generalize hu : min (sizeOf geom params (normalSizes geom params i)) rem = ulSize at hp hle
    split_ifs at hp
    · rcases List.mem_cons.mp hp with rfl | hp
      · obtain ⟨h₁, h₂⟩ := hx
        dsimp only at h₁ h₂
        omega
      · rw [wordAdd_of_lt (by omega)] at hp
        have := ih (by omega) hp
        omega
    · rcases List.mem_cons.mp hp with rfl | hp
      · exact absurd hx PartEntry.not_covers_zero
      · exact ih hlba hp

/-- Each partition ends before the next begins. -/
theorem fillParts_apart (hlba : lba + rem < 2 ^ 32) :
    (fillParts geom params n i rem lba).Pairwise PartEntry.Apart := by
  induction n generalizing i rem lba with
  | zero => exact List.Pairwise.nil
  | succ n ih =>
    unfold fillParts
    dsimp only
    have hle := min_le_right (sizeOf geom params (normalSizes geom params i)) rem
    generalize hu : min (sizeOf geom params (normalSizes geom params i)) rem = ulSize at hle
    split_ifs
    · rw [wordAdd_of_lt (by omega)]
      refine List.pairwise_cons.mpr ⟨fun q hq x hx => ?_, ih (by omega)⟩
      have := fillParts_covers (by omega) hq hx.2
      obtain ⟨-, h₂⟩ := hx.1
      dsimp only at h₂
      omega
    · exact List.pairwise_cons.mpr ⟨fun q _ => PartEntry.apart_zero_left, ih hlba⟩

theorem sizeOf_zero (geom : BlockGeometry) (params : PartitionParams) :
    sizeOf geom params 0 = 0 := by
  unfold sizeOf
  cases params.eSizeType with
  | quota => simp
  | percent => simp
  | sectors => rfl

/-- What lies before a partition, counted from the first one on. -/
theorem sectorsBefore_cons (parts : List PartEntry) (i : ℕ) :
    sectorsBefore (p :: parts) (i + 1) = p.ulSectorCount + sectorsBefore parts i := by
  unfold sectorsBefore
  rw [List.take_succ_cons, List.map_cons, List.sum_cons]

/-- The length of a partition: its size, cut off at what the ones before it left. -/
theorem fillParts_count (geom : BlockGeometry) (params : PartitionParams) (i rem lba : ℕ)
    (hj : j < n) :
    ((fillParts geom params n i rem lba).getD j PartEntry.zero).ulSectorCount =
      min (sizeOf geom params (normalSizes geom params (i + j)))
        (rem - sectorsBefore (fillParts geom params n i rem lba) j) := by
  induction n generalizing i rem lba j with
  | zero => omega
  | succ n ih =>
    unfold fillParts
    dsimp only
    cases j with
    | zero =>
      split_ifs with hpos
      · simp [sectorsBefore]
      · have hzero : normalSizes geom params (i + 0) = 0 := Nat.eq_zero_of_not_pos hpos
        rw [hzero, sizeOf_zero, Nat.zero_min]
        rfl
    | succ j =>
      have hi : i + (j + 1) = i + 1 + j := by omega
      split_ifs
      · rw [sectorsBefore_cons, List.getD_cons_succ, ih _ _ _ (by omega), hi, Nat.sub_sub]
      · rw [sectorsBefore_cons, List.getD_cons_succ, ih _ _ _ (by omega), hi]
        simp [PartEntry.zero]

theorem length_fillParts : (fillParts geom params n i rem lba).length = n := by
  induction n generalizing i rem lba with
  | zero => rfl
  | succ n ih =>
    unfold fillParts
    dsimp only
    split_ifs <;> rw [List.length_cons, ih]

/-- The partitions are no longer than their sizes say. -/
theorem fillParts_sum_le (geom : BlockGeometry) (params : PartitionParams) (n i rem lba : ℕ) :
    ((fillParts geom params n i rem lba).map PartEntry.ulSectorCount).sum ≤
      ((List.range' i n).map fun j => sizeOf geom params (normalSizes geom params j)).sum := by
  induction n generalizing i rem lba with
  | zero => exact le_rfl
  | succ n ih =>
    unfold fillParts
    dsimp only
    rw [List.range'_succ, List.map_cons, List.sum_cons]
    split_ifs
    · rw [List.map_cons, List.sum_cons]
      exact Nat.add_le_add (min_le_left _ _) (ih _ _ _)
    · rw [List.map_cons, List.sum_cons]
      exact Nat.add_le_add (Nat.zero_le _) (ih _ _ _)

/-- Parts that are rounded down are together no more than the part of all. -/
theorem sum_div_le (l : List ℕ) (a t : ℕ) : (l.map fun z => z * a / t).sum ≤ l.sum * a / t := by
  induction l with
  | nil => simp
  | cons z l ih =>
    rw [List.map_cons, List.sum_cons, List.sum_cons, Nat.add_mul]
    exact (Nat.add_le_add_left ih _).trans (Nat.div_add_div_le_add_div)

/-- With shares that are words nothing wraps in the loop. -/
theorem fillStays (hlba : lba + rem < 2 ^ 32)
    (hshare : params.eSizeType ≠ .sectors → ∀ j, i ≤ j → j < i + n →
      normalSizes geom params j * availableBlocks geom params < 2 ^ 64 ∧
        normalSizes geom params j * availableBlocks geom params / divisor geom params < 2 ^ 32) :
    FillStays geom params n i rem lba := by
  induction n generalizing i rem lba with
  | zero => exact trivial
  | succ n ih =>
    have hrest : params.eSizeType ≠ .sectors → ∀ j, i + 1 ≤ j → j < i + 1 + n →
        normalSizes geom params j * availableBlocks geom params < 2 ^ 64 ∧
          normalSizes geom params j * availableBlocks geom params / divisor geom params < 2 ^ 32 :=
      fun ht j hj hj' => hshare ht j (by omega) (by omega)
    unfold FillStays
    dsimp only
    have hle := min_le_right (sizeOf geom params (normalSizes geom params i)) rem
    generalize hu : min (sizeOf geom params (normalSizes geom params i)) rem = ulSize at hle
    split_ifs
    · rw [wordAdd_of_lt (by omega)]
      exact ⟨fun ht => hshare ht i le_rfl (by omega), hle, by omega, ih (by omega) hrest⟩
    · exact ih hlba hrest

end Loop

/-! ## Requests that fit

For a request that fits the arguments of the loop are what they should be, and shares of what is
available add up to no more than that. -/

section Fit

variable {geom : BlockGeometry} {params : PartitionParams} {i : ℕ}

theorem primaryCount_le (params : PartitionParams) : primaryCount params ≤ partCount params := by
  have := partCount_le params
  unfold primaryCount
  dsimp only
  split_ifs <;> omega

theorem sum_filter_pos (l : List ℕ) : (l.filter fun z => decide (0 < z)).sum = l.sum := by
  induction l with
  | nil => rfl
  | cons z l ih =>
    by_cases hz : 0 < z
    · rw [List.filter_cons_of_pos (by simpa using hz), List.sum_cons, List.sum_cons, ih]
    · rw [List.filter_cons_of_neg (by simpa using hz), List.sum_cons, ih]
      omega

/-- The sizes, with the default, add up to `ulSummedSizes`, if the sizes do. -/
theorem partSum_eq_sum (h : (requests params.ulSizes).sum < 2 ^ 32) :
    partSum geom params = ((List.range btPartitionMax).map (normalSizes geom params)).sum := by
  unfold partSum
  by_cases hnil : requests params.ulSizes = []
  · have hzero : ∀ i < 4, params.ulSizes i = 0 := by
      intro i hi
      have hmem : params.ulSizes i ∈ (List.range btPartitionMax).map params.ulSizes :=
        List.mem_map_of_mem (List.mem_range.mpr hi)
      by_contra hne
      have : params.ulSizes i ∈ requests params.ulSizes :=
        List.mem_filter.mpr ⟨hmem, by simpa using Nat.pos_of_ne_zero hne⟩
      rw [hnil] at this
      exact List.not_mem_nil this
    have hrest : ∀ i < 4, i ≠ 0 → normalSizes geom params i = 0 := by
      intro i hi hne
      unfold normalSizes
      rw [if_neg fun h => hne h.2]
      exact hzero i hi
    rw [if_pos hnil, show List.range btPartitionMax = [0, 1, 2, 3] from rfl]
    simp [hrest]
  · have hmap : (List.range btPartitionMax).map (normalSizes geom params) =
        (List.range btPartitionMax).map params.ulSizes :=
      List.map_congr_left fun i _ => normalSizes_eq hnil i
    rw [if_neg hnil, summedSizes_eq h, hmap]
    exact sum_filter_pos _

/-- The slots that the loop does not reach stay empty. -/
theorem oParts_getD_zero (h : partCount params ≤ i) :
    (oParts geom params).getD i PartEntry.zero = PartEntry.zero := by
  refine List.getD_eq_default _ _ ?_
  unfold oParts
  rwa [length_fillParts]

/-- Every size is part of the sum that the shares are taken of. -/
theorem le_sum_normalSizes (geom : BlockGeometry) (hi : i < partCount params) :
    normalSizes geom params i ≤
    ((List.range btPartitionMax).map (normalSizes geom params)).sum := by
  have hle := partCount_le params
  exact List.single_le_sum (by simp) _
    (List.mem_map_of_mem (List.mem_range.mpr (show i < 4 by omega)))

namespace FitsDevice

variable (h : FitsDevice geom params)

include h

theorem between_lt : spaceBetween params < 2 ^ 32 := by
  have := h.room
  have := geom.total_lt
  omega

theorem reservedSpace_eq : reservedSpace params = spaceBetween params := by
  unfold reservedSpace
  by_cases hext : isExtended params = true
  · rw [if_pos hext]
    exact Nat.mod_eq_of_lt h.between_lt
  · have hall : partCount params - primaryCount params = 0 := by
      unfold isExtended at hext
      rw [decide_eq_true_iff] at hext
      omega
    rw [if_neg hext, spaceBetween, hall, Nat.mul_zero]

/-- Where nothing wraps the code's available blocks are the device's less what is reserved. -/
theorem availableBlocks_eq : availableBlocks geom params = exactAvailable geom params := by
  have hroom := h.room
  have hlt := geom.total_lt
  unfold availableBlocks exactAvailable
  rw [h.reservedSpace_eq, wordSub_of_le (by omega) hlt, wordSub_of_le (by omega) (by omega)]
  omega

/-- The hidden sectors and what is available are no more than the device has. -/
theorem hidden_add_available :
    hiddenSectors params + exactAvailable geom params ≤ geom.ulTotalBlocks := by
  have hroom := h.room
  unfold exactAvailable
  omega

/-- Where nothing wraps the code divides by the sum of the sizes. -/
theorem divisor_eq : divisor geom params = exactTotal geom params := by
  unfold divisor exactTotal
  rw [partSum_eq_sum h.sum]

/-- The sizes together are no more than what they are parts of. -/
theorem sum_le_total (hvalid : sizesValid geom params = true) (ht : params.eSizeType ≠ .sectors) :
    ((List.range btPartitionMax).map (normalSizes geom params)).sum ≤ exactTotal geom params := by
  unfold exactTotal
  unfold sizesValid at hvalid
  rw [partSum_eq_sum h.sum] at hvalid
  cases hsz : params.eSizeType with
  | quota => simp
  | percent =>
    rw [hsz, decide_eq_true_iff] at hvalid
    rw [if_pos rfl]
    exact hvalid
  | sectors => exact absurd hsz ht

/-- A size is no more than what it is a part of. -/
theorem size_le_total (hvalid : sizesValid geom params = true) (ht : params.eSizeType ≠ .sectors)
    (hi : i < partCount params) : normalSizes geom params i ≤ exactTotal geom params :=
  (le_sum_normalSizes geom hi).trans (h.sum_le_total hvalid ht)

/-- No share is more than all that is available. -/
theorem share_le (hvalid : sizesValid geom params = true) (ht : params.eSizeType ≠ .sectors)
    (hi : i < partCount params) : exactShare geom params i ≤ exactAvailable geom params :=
  Nat.div_le_of_le_mul (Nat.mul_le_mul_right _ (h.size_le_total hvalid ht hi))

theorem available_lt : exactAvailable geom params < 2 ^ 32 := by
  have := h.hidden_add_available
  have := geom.total_lt
  omega

/-- Where nothing wraps a size is the exact share. -/
theorem sizeOf_eq (hvalid : sizesValid geom params = true) (ht : params.eSizeType ≠ .sectors)
    (hi : i < partCount params) :
    sizeOf geom params (normalSizes geom params i) = exactShare geom params i := by
  have hlt := (h.share_le hvalid ht hi).trans_lt h.available_lt
  unfold exactShare at hlt ⊢
  unfold sizeOf
  rw [h.availableBlocks_eq, h.divisor_eq, Nat.mod_eq_of_lt hlt]
  cases hsz : params.eSizeType with
  | quota => rfl
  | percent => rfl
  | sectors => exact absurd hsz ht

/-- Sizes that passed the check have a sum to divide by. -/
theorem not_dividesByZero (hvalid : sizesValid geom params = true) :
    ¬ dividesByZero geom params = true := by
  unfold dividesByZero
  rw [decide_eq_true_iff]
  rintro ⟨ht, hz, hany⟩
  obtain ⟨i, hi, hpos⟩ := List.any_eq_true.mp hany
  have hle := h.size_le_total hvalid ht (List.mem_range.mp hi)
  rw [← h.divisor_eq, hz] at hle
  rw [decide_eq_true_iff] at hpos
  omega

/-- Nothing wraps for sizes that passed the check, on a device where the sizes are small enough. -/
theorem noWrap (hvalid : sizesValid geom params = true) : NoWrap geom params := by
  have hroom := h.room
  have hlt := geom.total_lt
  have hend := h.hidden_add_available
  refine ⟨?_, primaryCount_le params,
    fun _ => h.between_lt, by omega, ?_, fillStays ?_ fun ht i _ hi => ?_⟩
  · have key : ∀ (l : List ℕ) (a : ℕ), a + l.sum < 2 ^ 32 → SumStays a l := by
      intro l
      induction l with
      | nil => exact fun _ _ => trivial
      | cons z l ih =>
        intro a ha
        rw [List.sum_cons] at ha
        refine ⟨by omega, ?_⟩
        rw [wordAdd_of_lt (by omega)]
        exact ih (a + z) (by omega)
    have hsum := h.sum
    exact key _ 0 (by omega)
  · rw [h.reservedSpace_eq, wordSub_of_le (by omega) hlt]
    omega
  · rw [h.availableBlocks_eq]
    omega
  · rw [Nat.zero_add] at hi
    rw [h.availableBlocks_eq, h.divisor_eq]
    refine ⟨?_, (h.share_le hvalid ht hi).trans_lt h.available_lt⟩
    have hsize : normalSizes geom params i < 2 ^ 32 := by
      have := params.sizes_lt i
      unfold normalSizes
      split_ifs <;> omega
    calc _ < 2 ^ 32 * 2 ^ 32 := Nat.mul_lt_mul'' hsize h.available_lt
      _ = 2 ^ 64 := by norm_num

/-- What the loop gives to its slots leaves the share of any slot behind them. -/
theorem sectorsBefore_add_share_le (hvalid : sizesValid geom params = true)
    (ht : params.eSizeType ≠ .sectors) (hreach : partCount params ≤ i) (hi : i < btPartitionMax) :
    sectorsBefore (oParts geom params) i + exactShare geom params i ≤
      exactAvailable geom params := by
  have hlen : (oParts geom params).length ≤ i := by
    unfold oParts
    rw [length_fillParts]
    exact hreach
  have hbefore : sectorsBefore (oParts geom params) i ≤
      ((List.range (partCount params)).map fun j => exactShare geom params j).sum := by
    unfold sectorsBefore
    rw [List.take_of_length_le hlen]
    refine (fillParts_sum_le geom params _ _ _ _).trans (le_of_eq ?_)
    rw [← List.range_eq_range']
    refine congrArg List.sum (List.map_congr_left fun j hj => ?_)
    exact h.sizeOf_eq hvalid ht (List.mem_range.mp hj)
  obtain ⟨l, hl⟩ : ∃ l, l = (List.range (partCount params)).map (normalSizes geom params) ++
      [normalSizes geom params i] := ⟨_, rfl⟩
  have hsum : l.sum ≤ exactTotal geom params := by
    refine le_trans ?_ (h.sum_le_total hvalid ht)
    have hsplit : List.range btPartitionMax = List.range (partCount params) ++
        (List.range (btPartitionMax - partCount params)).map (partCount params + ·) := by
      rw [← List.range_add, Nat.add_sub_cancel' (hreach.trans hi.le)]
    have hmem : normalSizes geom params i ∈
        ((List.range (btPartitionMax - partCount params)).map (partCount params + ·)).map
          (normalSizes geom params) := by
      refine List.mem_map_of_mem
        (List.mem_map.mpr ⟨i - partCount params, ?_, Nat.add_sub_cancel' hreach⟩)
      exact List.mem_range.mpr (by omega)
    rw [hl, hsplit, List.map_append, List.sum_append, List.sum_append, List.sum_singleton]
    exact Nat.add_le_add_left (List.single_le_sum (by simp) _ hmem) _
  calc sectorsBefore (oParts geom params) i + exactShare geom params i
      ≤ (l.map fun z => z * exactAvailable geom params / exactTotal geom params).sum := by
        rw [hl, List.map_append, List.sum_append, List.map_map]
        exact Nat.add_le_add hbefore (by simp [exactShare])
    _ ≤ l.sum * exactAvailable geom params / exactTotal geom params := sum_div_le l _ _
    _ ≤ exactAvailable geom params := Nat.div_le_of_le_mul (Nat.mul_le_mul_right _ hsum)

/-- A request that fits, without a slot that is left out, has sound partitions. -/
theorem sound (hvalid : sizesValid geom params = true) (hreaches : ReachesShares geom params) :
    GeometrySound geom params := by
  have hlt := geom.total_lt
  have hend := h.hidden_add_available
  have hbound : hiddenSectors params + availableBlocks geom params < 2 ^ 32 := by
    rw [h.availableBlocks_eq]
    omega
  refine ⟨h.noWrap hvalid, h.not_dividesByZero hvalid, fillParts_apart hbound,
    fun p hp x hx => ?_, fun ht i hi => ?_⟩
  · have := fillParts_covers hbound hp hx
    rw [h.availableBlocks_eq] at this
    omega
  · by_cases hfilled : i < partCount params
    · have hcount := fillParts_count geom params 0 (availableBlocks geom params)
        (hiddenSectors params) hfilled
      rw [Nat.zero_add, h.sizeOf_eq hvalid ht hfilled] at hcount
      rw [h.availableBlocks_eq] at hcount
      unfold oParts
      rw [h.availableBlocks_eq]
      exact hcount
    · rw [hreaches ht i hi (not_lt.mp hfilled), Nat.zero_min, oParts_getD_zero (not_lt.mp hfilled)]
      rfl

end FitsDevice

/-- Sums that stay in 32 bits make a sum that does. -/
theorem SumStays.sum_lt {l : List ℕ} {a : ℕ} (ha : a < 2 ^ 32) (h : SumStays a l) :
    a + l.sum < 2 ^ 32 := by
  induction l generalizing a with
  | nil => exact ha
  | cons z l ih =>
    obtain ⟨hz, hrest⟩ := h
    rw [wordAdd_of_lt hz] at hrest
    rw [List.sum_cons, ← Nat.add_assoc]
    exact ih hz hrest

/-- Where nothing wraps the partitions fit on the device. -/
theorem NoWrap.fitsDevice (h : NoWrap geom params) : FitsDevice geom params := by
  have hsum := h.sum.sum_lt (by decide)
  have hhidden := h.hidden
  have hres := h.reserved
  rw [wordSub_of_le hhidden geom.total_lt] at hres
  refine ⟨by omega, ?_⟩
  by_cases hext : isExtended params = true
  · have heq : reservedSpace params = spaceBetween params := by
      unfold reservedSpace
      rw [if_pos hext]
      exact Nat.mod_eq_of_lt (h.between hext)
    omega
  · have hall : partCount params - primaryCount params = 0 := by
      unfold isExtended at hext
      rw [decide_eq_true_iff] at hext
      omega
    rw [spaceBetween, hall, Nat.mul_zero]
    omega

/-- **When the partitions are sound.** If and only if the request is refused by the check of
its sizes, or it fits the device and no slot behind a hole is to have a sector. -/
theorem partition_sound_iff (geom : BlockGeometry) (params : PartitionParams) :
    PartitionSound geom params ↔
      (sizesValid geom params = true → FitsDevice geom params ∧ ReachesShares geom params) := by
  constructor
  · intro h hvalid
    have hsound := h ⟨true, none⟩ (fun _ => 0) fun e m hrun => by
      unfold btPartition at hrun
      rw [if_neg (not_not.mpr hvalid)] at hrun
      split_ifs at hrun
      · exact (Prod.mk.inj (Option.some.inj hrun)).1.symm
      · exact (Prod.mk.inj (Option.some.inj hrun)).1.symm
    have hfits := hsound.noWrap.fitsDevice
    refine ⟨hfits, fun ht i hi hreach => ?_⟩
    have hshare := hsound.share ht i hi
    have hle := hfits.sectorsBefore_add_share_le hvalid ht hreach hi
    rw [oParts_getD_zero hreach, min_eq_left (by omega)] at hshare
    exact hshare.symm
  · intro h services medium hok
    by_cases hvalid : sizesValid geom params = true
    · exact (h hvalid).1.sound hvalid (h hvalid).2
    · have he := hok errInvalidValue medium (by rw [btPartition, if_pos hvalid])
      exact absurd he (by decide)

end Fit

theorem tinyDisk_block : 512 ≤ 512 := le_rfl

theorem tinyDisk_total : 2048 < 2 ^ 32 := by decide

/-- A disk of one megabyte. -/
def tinyDisk : BlockGeometry := ⟨512, 2048, tinyDisk_block, tinyDisk_total⟩

/-- The whole disk. -/
def wholeQuota : PartitionParams where
  ulHiddenSectors := 0
  ulInterSpace := 0
  ulSizes i := if i = 0 then 1 else 0
  ulPrimaryCount := 1
  eSizeType := .quota
  sizes_lt i := by split_ifs <;> decide
  hidden_lt := nothing_hidden

/-- On a disk that is smaller than the hidden sectors the partition starts behind the disk
and is almost as long as a word can say. -/
theorem partition_behind_the_disk :
    (btPartition tinyDisk wholeQuota ⟨true, none⟩ fun _ => 0).map Prod.fst = some 0 ∧
      oParts tinyDisk wholeQuota = [⟨4096, 2 ^ 32 - 2048, 0x80, 0x0B⟩] ∧
      ¬ PartitionSound tinyDisk wholeQuota := by
  have hrun : (btPartition tinyDisk wholeQuota ⟨true, none⟩ fun _ => 0).map Prod.fst = some 0 := by
    decide +kernel
  have hparts : oParts tinyDisk wholeQuota = [⟨4096, 2 ^ 32 - 2048, 0x80, 0x0B⟩] := by
    decide +kernel
  refine ⟨hrun, hparts, fun h => ?_⟩
  have hsound := h ⟨true, none⟩ (fun _ => 0) fun e m hm => by
    rw [hm] at hrun
    exact Option.some.inj hrun
  have hin := hsound.inside ⟨4096, 2 ^ 32 - 2048, 0x80, 0x0B⟩
    (by rw [hparts]; exact List.mem_singleton_self _)
    4096 ⟨le_rfl, by norm_num⟩
  exact absurd hin.2 (by decide)

end BitThunder
