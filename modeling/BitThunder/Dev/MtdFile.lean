import BitThunder.Dev.MtdSpec

/-!
# Flash devices as files

`mtd_file_read`, `mtd_file_write` and `mtd_file_seek` of `os/src/interfaces/bt_dev_if_mtd.c`. The
position in the file is a word of 32 bits, the size of the device has 64, and what is sought is a
signed number of 64 bits. From the end, the code seeks relative to the position instead of the
size.

* `Reach.offset_le`: the position is never behind the end of the device;
* `seekSet_right_iff`, `seekCur_right_iff`, `seekEnd_right_iff` and `transfer_right_iff`: when a
  call does to the position what it should;
* `position_right_iff`: for every state that can be reached.

The position is below the size after every call, so that it is known in which calls its 32 bits
matter: when the target of a seek is inside the device but not below 4 GB, and when a transfer ends
there. The other mistake is `BT_SEEK_END`, which adds to the position; that comes to the same only
at the end of the device, or when both sums are outside.
-/

namespace BitThunder

/-- `BT_ERR_UNSUPPORTED_FLAG` as a word -/
def errUnsupportedFlag : ℕ := 0x80000009

/-- `BT_SEEK_SET`, `BT_SEEK_CUR` and `BT_SEEK_END` -/
def btSeekSet : ℕ := 0

@[inherit_doc btSeekSet]
def btSeekCur : ℕ := 1

@[inherit_doc btSeekSet]
def btSeekEnd : ℕ := 2

/-- An open device: `offset` of its `BT_MTD_INFO`, and the state of the driver. -/
structure MtdFile (σ : Type) : Type where
  offset : ℕ
  driver : σ

namespace MtdFile

variable {σ : Type} (d : MtdDriver σ) (mtd : Mtd)

/-- `mtd_file_write`. A result with the highest bit is negative. -/
def mtdFileWrite (f : MtdFile σ) (ulSize : ℕ) (buf : Memory) : ℕ × MtdFile σ :=
  let w := btMtdWrite d mtd f.offset ulSize buf f.driver
  (w.1, ⟨if w.1 < 2 ^ 31 then wordAdd f.offset w.1 else f.offset, w.2⟩)

/-- `mtd_file_read` -/
def mtdFileRead (f : MtdFile σ) (ulSize : ℕ) (buf : Memory) : ℕ × Memory × MtdFile σ :=
  let r := btMtdRead d mtd f.offset ulSize buf f.driver
  (r.1, r.2.1, ⟨if r.1 < 2 ^ 31 then wordAdd f.offset r.1 else f.offset, r.2.2⟩)

/-- `mtd_file_seek`. The sum of the position and `ulOffset` has 64 bits, and is compared with the
size only if it is not negative; the new position has 32 bits. -/
def mtdFileSeek (f : MtdFile σ) (ulOffset : ℤ) (whence : ℕ) : ℕ × MtdFile σ :=
  if whence = btSeekSet then
    if ulOffset < 0 then (errInvalidValue, f)
    else if ulOffset > mtd.size then (errInvalidValue, f)
    else (0, { f with offset := (ulOffset % 2 ^ 32).toNat })
  else if whence = btSeekCur then
    if f.offset + ulOffset < 0 then (errInvalidValue, f)
    else if f.offset + ulOffset > mtd.size then (errInvalidValue, f)
    else (0, { f with offset := ((f.offset + ulOffset) % 2 ^ 32).toNat })
  else if whence = btSeekEnd then
    if ulOffset > 0 then (errInvalidValue, f)
    else if f.offset + ulOffset < 0 then (errInvalidValue, f)
    else (0, { f with offset := ((f.offset + ulOffset) % 2 ^ 32).toNat })
  else (errUnsupportedFlag, f)

/-- The file after any sequence of calls. -/
inductive Reach : MtdFile σ → Prop where
  | opened (s : σ) : Reach ⟨0, s⟩
  | write {f : MtdFile σ} (reach : Reach f) (ulSize : ℕ) (buf : Memory) : Reach
    (f.mtdFileWrite d mtd ulSize buf).2
  | read {f : MtdFile σ} (reach : Reach f) (ulSize : ℕ) (buf : Memory) : Reach
    (f.mtdFileRead d mtd ulSize buf).2.2
  | seek {f : MtdFile σ} (reach : Reach f) (ulOffset : ℤ) (whence : ℕ) : Reach
    (f.mtdFileSeek mtd ulOffset whence).2

/-- Where a seek should go. -/
def target (f : MtdFile σ) (ulOffset : ℤ) (whence : ℕ) : ℤ :=
  if whence = btSeekSet then ulOffset
  else if whence = btSeekCur then f.offset + ulOffset
  else mtd.size + ulOffset

/-- It goes there, if that is in the device, and else fails and stays. -/
def SeekRight (f : MtdFile σ) (ulOffset : ℤ) (whence : ℕ) : Prop :=
  let r := f.mtdFileSeek mtd ulOffset whence
  if 0 ≤ f.target mtd ulOffset whence ∧ f.target mtd ulOffset whence ≤ mtd.size then
    r.1 = 0 ∧ (r.2.offset : ℤ) = f.target mtd ulOffset whence
  else 2 ^ 31 ≤ r.1 ∧ r.2.offset = f.offset

/-- A seek from the start or the position has a target in the first 4 GB, or one outside the
device; from the end, the position is the end, or the target is outside the device. -/
def SeekCareful (f : MtdFile σ) (ulOffset : ℤ) (whence : ℕ) : Prop :=
  0 ≤ f.target mtd ulOffset whence → f.target mtd ulOffset whence ≤ mtd.size →
    if whence = btSeekEnd then f.offset = mtd.size else f.target mtd ulOffset whence < 2 ^ 32

/-- A transfer that succeeds, that is with a result that is not negative, moves the position by
the number of bytes, and one that fails leaves it. -/
def TransferRight (f : MtdFile σ) (ulSize ret : ℕ) (f' : MtdFile σ) : Prop :=
  f'.offset = if ret < 2 ^ 31 then f.offset + ulSize else f.offset

variable {d mtd} {contents : σ → Memory} {f : MtdFile σ} {ulSize : ℕ} {buf : Memory} {ulOffset : ℤ}
  {whence : ℕ}

/-! ## Transfers

A transfer moves the position by what it returns, cut off to a word. -/

/-- A result that is not negative is the size asked for, and the bytes were on the device. -/
theorem btMtdWrite_result (law : FlashLaw d contents) {dst : ℕ} {s : σ}
    (h : (btMtdWrite d mtd dst ulSize buf s).1 < 2 ^ 31) :
    (btMtdWrite d mtd dst ulSize buf s).1 = ulSize ∧ dst + ulSize ≤ mtd.size := by
  unfold btMtdWrite at h ⊢
  split_ifs at h ⊢ with hrange hwriteable hlen
  · have herror : ¬errInvalidValue < 2 ^ 31 := by decide
    exact absurd h herror
  · have herror : ¬errGeneric < 2 ^ 31 := by decide
    exact absurd h herror
  · exact ⟨hlen.symm, by omega⟩
  · refine ⟨?_, by omega⟩
    by_contra hne
    have herror := law.write_error _ _ _ _ hne
    omega

theorem btMtdRead_result (law : FlashLaw d contents) {src : ℕ} {s : σ}
    (h : (btMtdRead d mtd src ulSize buf s).1 < 2 ^ 31) :
    (btMtdRead d mtd src ulSize buf s).1 = ulSize ∧ src + ulSize ≤ mtd.size := by
  unfold btMtdRead at h ⊢
  split_ifs at h ⊢ with hrange hlen
  · have herror : ¬errInvalidValue < 2 ^ 31 := by decide
    exact absurd h herror
  · exact ⟨hlen.symm, by omega⟩
  · refine ⟨?_, by omega⟩
    by_contra hne
    have herror := law.read_error _ _ _ _ hne
    omega

/-- Both transfers move the position in the same way. -/
theorem transfer_right_iff {ret : ℕ} {f' : MtdFile σ} (hret : ret < 2 ^ 31 → ret = ulSize)
    (hf' : f'.offset = if ret < 2 ^ 31 then wordAdd f.offset ret else f.offset) :
    f.TransferRight ulSize ret f' ↔ (ret < 2 ^ 31 → f.offset + ulSize < 2 ^ 32) := by
  rw [TransferRight, hf']
  split_ifs with hok
  · have hsize := hret hok
    rw [hsize, wordAdd]
    constructor
    · intro h _
      omega
    · intro h
      exact Nat.mod_eq_of_lt (h (hsize ▸ hok))
  · exact iff_of_true rfl fun h => absurd h hok

/-! ## The position

It is at most the size of the device after every call, as the seek checks its target in 64 bits and
a transfer checks its end. -/

/-- A transfer leaves the position on the device, or where it was. -/
theorem transfer_offset_le {ret : ℕ} (hle : f.offset ≤ mtd.size) (hlt : f.offset < 2 ^ 32)
    (hret : ret < 2 ^ 31 → ret = ulSize ∧ f.offset + ulSize ≤ mtd.size) :
    (if ret < 2 ^ 31 then wordAdd f.offset ret else f.offset) ≤ mtd.size ∧
      (if ret < 2 ^ 31 then wordAdd f.offset ret else f.offset) < 2 ^ 32 := by
  split_ifs with hok
  · obtain ⟨rfl, hin⟩ := hret hok
    have hmod := Nat.mod_le (f.offset + ret) (2 ^ 32)
    exact ⟨hmod.trans hin, wordAdd_lt _ _⟩
  · exact ⟨hle, hlt⟩

/-- A seek leaves it there too: it goes nowhere if the target is outside. -/
theorem seek_offset_le (hle : f.offset ≤ mtd.size) (hlt : f.offset < 2 ^ 32) :
    (f.mtdFileSeek mtd ulOffset whence).2.offset ≤ mtd.size ∧
    (f.mtdFileSeek mtd ulOffset whence).2.offset < 2 ^ 32 := by
  unfold mtdFileSeek
  split_ifs <;> refine ⟨?_, ?_⟩ <;> dsimp only <;> omega

/-- The position is never behind the end of the device. -/
theorem Reach.offset_le (law : FlashLaw d contents) (reach : Reach d mtd f) :
    f.offset ≤ mtd.size ∧ f.offset < 2 ^ 32 := by
  induction reach with
  | opened s => exact ⟨Nat.zero_le _, Nat.two_pow_pos 32⟩
  | write _ ulSize buf ih => exact transfer_offset_le ih.1 ih.2 fun h => btMtdWrite_result law h
  | read _ ulSize buf ih => exact transfer_offset_le ih.1 ih.2 fun h => btMtdRead_result law h
  | seek _ ulOffset whence ih => exact seek_offset_le ih.1 ih.2

/-- A seek that fails is right if there was nowhere to go. -/
theorem seekRight_of_stay (h : f.mtdFileSeek mtd ulOffset whence = (errInvalidValue, f)) :
    f.SeekRight mtd ulOffset whence ↔
      ¬(0 ≤ f.target mtd ulOffset whence ∧ f.target mtd ulOffset whence ≤ mtd.size) := by
  simp only [SeekRight, h]
  split_ifs with hin
  · exact iff_of_false (fun h => absurd h.1 (by decide)) (fun h => h hin)
  · exact iff_of_true ⟨by decide, trivial⟩ hin

/-- A seek that succeeds is right if the word it stores is the target. -/
theorem seekRight_of_move {x : ℤ} (h : f.mtdFileSeek mtd ulOffset whence =
    (0, { f with offset := (x % 2 ^ 32).toNat }))
    (hin : 0 ≤ f.target mtd ulOffset whence ∧ f.target mtd ulOffset whence ≤ mtd.size) :
    f.SeekRight mtd ulOffset whence ↔ x % 2 ^ 32 = f.target mtd ulOffset whence := by
  simp only [SeekRight, h, if_pos hin, true_and]
  have hmod : 0 ≤ x % 2 ^ 32 := Int.emod_nonneg _ (by decide)
  rw [Int.toNat_of_nonneg hmod]

/-- From the start a seek does right under its condition. -/
theorem seekSet_right_iff :
    f.SeekRight mtd ulOffset btSeekSet ↔ f.SeekCareful mtd ulOffset btSeekSet := by
  have htarget : f.target mtd ulOffset btSeekSet = ulOffset := if_pos rfl
  rw [SeekCareful, if_neg (by decide), htarget]
  by_cases hin : 0 ≤ ulOffset ∧ ulOffset ≤ mtd.size
  · have hres : f.mtdFileSeek mtd ulOffset btSeekSet =
        (0, { f with offset := (ulOffset % 2 ^ 32).toNat }) := by
      rw [mtdFileSeek, if_pos rfl, if_neg (by omega), if_neg (by omega)]
    rw [seekRight_of_move hres (htarget.symm ▸ hin), htarget]
    omega
  · have hres : f.mtdFileSeek mtd ulOffset btSeekSet = (errInvalidValue, f) := by
      rw [mtdFileSeek, if_pos rfl]
      split_ifs
      · rfl
      · rfl
      · omega
    rw [seekRight_of_stay hres, htarget]
    exact iff_of_true hin fun h0 hsize => absurd ⟨h0, hsize⟩ hin

theorem seekCur_right_iff :
    f.SeekRight mtd ulOffset btSeekCur ↔ f.SeekCareful mtd ulOffset btSeekCur := by
  have htarget : f.target mtd ulOffset btSeekCur = f.offset + ulOffset := rfl
  rw [SeekCareful, if_neg (by decide), htarget]
  by_cases hin : 0 ≤ f.offset + ulOffset ∧ f.offset + ulOffset ≤ mtd.size
  · have hres : f.mtdFileSeek mtd ulOffset btSeekCur =
        (0, { f with offset := ((f.offset + ulOffset) % 2 ^ 32).toNat }) := by
      rw [mtdFileSeek, if_neg (by decide), if_pos rfl, if_neg (by omega), if_neg (by omega)]
    rw [seekRight_of_move hres (htarget.symm ▸ hin), htarget]
    omega
  · have hres : f.mtdFileSeek mtd ulOffset btSeekCur = (errInvalidValue, f) := by
      rw [mtdFileSeek, if_neg (by decide), if_pos rfl]
      split_ifs
      · rfl
      · rfl
      · omega
    rw [seekRight_of_stay hres, htarget]
    exact iff_of_true hin fun h0 hsize => absurd ⟨h0, hsize⟩ hin

/-- From the end, the position takes the place of the size. -/
theorem seekEnd_right_iff (hle : f.offset ≤ mtd.size) (hlt : f.offset < 2 ^ 32) :
    f.SeekRight mtd ulOffset btSeekEnd ↔ f.SeekCareful mtd ulOffset btSeekEnd := by
  have htarget : f.target mtd ulOffset btSeekEnd = mtd.size + ulOffset := rfl
  rw [SeekCareful, if_pos rfl, htarget]
  by_cases hmove : ulOffset ≤ 0 ∧ 0 ≤ f.offset + ulOffset
  · have hres : f.mtdFileSeek mtd ulOffset btSeekEnd =
        (0, { f with offset := ((f.offset + ulOffset) % 2 ^ 32).toNat }) := by
      rw [mtdFileSeek,
        if_neg (by decide), if_neg (by decide), if_pos rfl, if_neg (by omega), if_neg (by omega)]
    have hin : 0 ≤ f.target mtd ulOffset btSeekEnd ∧
        f.target mtd ulOffset btSeekEnd ≤ mtd.size := by
      rw [htarget]
      omega
    rw [seekRight_of_move hres hin, htarget]
    omega
  · have hres : f.mtdFileSeek mtd ulOffset btSeekEnd = (errInvalidValue, f) := by
      rw [mtdFileSeek, if_neg (by decide), if_neg (by decide), if_pos rfl]
      split_ifs
      · rfl
      · rfl
      · omega
    rw [seekRight_of_stay hres, htarget]
    omega

/-- **When the position is right.** After any sequence of calls it is in the device; a seek does
what it should exactly if it is careful, and a transfer exactly if it fails or ends below 4 GB. -/
theorem position_right_iff (law : FlashLaw d contents) (reach : Reach d mtd f) :
    f.offset ≤ mtd.size ∧
      (∀ ulOffset, ∀ whence ∈ [btSeekSet, btSeekCur, btSeekEnd],
        (f.SeekRight mtd ulOffset whence ↔ f.SeekCareful mtd ulOffset whence)) ∧
      ∀ ulSize buf,
        (f.TransferRight ulSize (f.mtdFileWrite d mtd ulSize buf).1
        (f.mtdFileWrite d mtd ulSize buf).2 ↔
          ((f.mtdFileWrite d mtd ulSize buf).1 < 2 ^ 31 → f.offset + ulSize < 2 ^ 32)) ∧
        (f.TransferRight ulSize (f.mtdFileRead d mtd ulSize buf).1
        (f.mtdFileRead d mtd ulSize buf).2.2 ↔
          ((f.mtdFileRead d mtd ulSize buf).1 < 2 ^ 31 → f.offset + ulSize < 2 ^ 32)) := by
  obtain ⟨hle, hlt⟩ := reach.offset_le law
  refine ⟨hle, ?_, ?_⟩
  · intro ulOffset whence hwhence
    simp only [List.mem_cons, List.not_mem_nil, or_false] at hwhence
    rcases hwhence with rfl | rfl | rfl
    · exact seekSet_right_iff
    · exact seekCur_right_iff
    · exact seekEnd_right_iff hle hlt
  · intro ulSize buf
    exact ⟨transfer_right_iff (fun h => (btMtdWrite_result law h).1) rfl,
      transfer_right_iff (fun h => (btMtdRead_result law h).1) rfl⟩

/-- Half of the partition is read. -/
def halfRead : MtdFile Memory :=
  ((⟨0, Memory.erased⟩ : MtdFile Memory).mtdFileRead norFlash fourSectors 2048 Memory.erased).2.2

/-- Half of the partition was read after it was opened. -/
theorem halfRead_reach : Reach norFlash fourSectors halfRead := .read (.opened _) 2048 _

theorem position_right_iff_half :
    halfRead.offset ≤ 4096 ∧ halfRead.SeekRight fourSectors (-1024) btSeekCur := by
  obtain ⟨hle, hseek, -⟩ := position_right_iff norFlash_law halfRead_reach
  refine ⟨hle, (hseek (-1024) btSeekCur (by decide)).mpr fun _ _ => ?_⟩
  exact (by decide : (1024 : ℤ) < 2 ^ 32)

/-- A seek to the end stays where it is. -/
theorem seek_end_stays :
    ∃ f : MtdFile Memory, Reach norFlash fourSectors f ∧ f.offset = 2048 ∧
      (f.mtdFileSeek fourSectors 0 btSeekEnd).1 = 0 ∧
      (f.mtdFileSeek fourSectors 0 btSeekEnd).2.offset = 2048 ∧
      ¬f.SeekRight fourSectors 0 btSeekEnd := by
  refine ⟨halfRead, halfRead_reach, rfl, rfl, rfl, ?_⟩
  rw [seekEnd_right_iff (by decide) (by decide)]
  intro hcareful
  exact absurd (hcareful (by decide) (by decide)) (by decide)

end MtdFile

end BitThunder
