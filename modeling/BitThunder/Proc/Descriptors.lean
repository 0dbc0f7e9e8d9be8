import BitThunder.Mm.Defs
import Mathlib.Data.Finset.Basic

/-!
# File descriptors

`os/src/process/bt_process.c`. A task has a bitmap of its descriptors, in the eight highest bits
of `flags`, and remembers in `free_fd` from where on it has to look for a free one. A new
process gets the `free_fd` of its parent, but not the bitmap.

* `taskAllocFd_spec`: the descriptor that is found;
* `Proc.Ok`, `Reach.ok`: bitmap and hint, over all trees of processes;
* `alloc_right_iff`: when the descriptor is the lowest one that is not in use.

The bitmap is a mask in the highest byte of a word, and the first lemmas say that setting and
clearing masks sets and clears one bit. The record beside the task says what is in use: what the
process has allocated itself, and what it has inherited from its parent. The bitmap knows of the
former alone, since a new process starts with a clear one; but the hint was copied, and may point
past descriptors that are free in the child or at those that it has inherited.

Whether a descriptor that was inherited and closed counts as in use can be read in two ways, and the
condition is given for both.
-/

namespace BitThunder

/-- The fields of `struct bt_task` that have to do with descriptors. -/
structure Task : Type where
  flags : BitVec 32
  freeFd : ℕ
  deriving DecidableEq

/-- The loop of `task_alloc_fd`, with `k` descriptors to go -/
def allocFdLoop (task : Task) : ℕ → ℕ → BitVec 32 → ℕ × Task
  | 0, _, _ => (errGeneric, task)
  | k + 1, i, mask =>
    if mask &&& task.flags = 0 then (i, ⟨task.flags ||| mask, i⟩)
    else allocFdLoop task k (i + 1) (mask >>> 1)

/-- `task_alloc_fd` -/
def taskAllocFd (task : Task) : ℕ × Task :=
  allocFdLoop task (8 - task.freeFd) task.freeFd (0x80000000#32 >>> task.freeFd)

/-- `task_free_fd` -/
def taskFreeFd (task : Task) (fd : ℤ) : ℕ × Task :=
  if fd < 0 then (errGeneric, task)
  else if fd < 8 then
    let flags := task.flags &&& ~~~(0x80000000#32 >>> fd.toNat)
    (0, ⟨flags, if fd < task.freeFd then fd.toNat else task.freeFd⟩)
  else (errGeneric, task)

/-! ## Trees of processes

A process carries a record of what is in use, which the code does not keep. -/

/-- A process, with a record of its descriptors. -/
structure Proc : Type where
  task : Task
  /-- those it has allocated and not freed -/
  own : Finset ℕ
  /-- those its parent had in use when it was created -/
  inherited : Finset ℕ
  /-- those of them that it has not freed -/
  kept : Finset ℕ

namespace Proc

/-- `BT_AllocFileDescriptor` -/
def btAllocFileDescriptor (p : Proc) : Proc :=
  let r := taskAllocFd p.task
  { p with task := r.2, own := if r.1 < 8 then insert r.1 p.own else p.own }

/-- `BT_FreeFileDescriptor` -/
def btFreeFileDescriptor (p : Proc) (fd : ℤ) : Proc :=
  { p with
    task := (taskFreeFd p.task fd).2
    own := if 0 ≤ fd then p.own.erase fd.toNat else p.own
    kept := if 0 ≤ fd then p.kept.erase fd.toNat else p.kept }

/-- `BT_CreateProcess`: the handle is cleared, and `free_fd` copied -/
def btCreateProcess (p : Proc) : Proc :=
  ⟨⟨0, p.task.freeFd⟩, ∅, p.own ∪ p.inherited, p.own ∪ p.kept⟩

/-- `bt_process_init`: the kernel, with its three descriptors -/
def btProcessInit : Proc :=
  (((⟨⟨0, 0⟩, ∅, ∅, ∅⟩ : Proc).btAllocFileDescriptor).btAllocFileDescriptor).btAllocFileDescriptor

/-- The descriptor that is returned is the lowest one that is not in use, or an error if all
are. -/
def AllocRight (p : Proc) (used : Finset ℕ) : Prop :=
  (∀ i < 8, i ∉ used → (∀ j < i, j ∈ used) → (taskAllocFd p.task).1 = i) ∧
    ((∀ i < 8, i ∈ used) → (taskAllocFd p.task).1 = errGeneric)

/-- From the hint on, no descriptor of the parent whose bit is clear comes before the first one
that is not in use. -/
def HintPassed (p : Proc) (inherited : Finset ℕ) : Prop :=
  ∀ i < 8, p.task.freeFd ≤ i → i ∈ inherited → i ∉ p.own →
    ∃ j, p.task.freeFd ≤ j ∧ j < i ∧ j ∉ p.own ∧ j ∉ inherited

end Proc

/-- The processes after a run. -/
inductive ProcReach : List Proc → Prop where
  | init : ProcReach [.btProcessInit]
  | create {procs : List Proc} {p : Proc} (h : ProcReach procs) (hp : p ∈ procs) :
      ProcReach (procs ++ [p.btCreateProcess])
  | alloc {as bs : List Proc} {p : Proc} (h : ProcReach (as ++ p :: bs)) :
      ProcReach (as ++ p.btAllocFileDescriptor :: bs)
  | free {as bs : List Proc} {p : Proc} (fd : ℤ) (h : ProcReach (as ++ p :: bs)) :
      ProcReach (as ++ p.btFreeFileDescriptor fd :: bs)

/-! ## The bitmap

The loop looks at one bit after the other, from the hint on. -/

section Bits

variable {flags : BitVec 32} {i j k : ℕ} {task : Task}

/-- The descriptor has its bit set. -/
def Task.Marked (task : Task) (i : ℕ) : Prop := task.flags.getLsbD (31 - i) = true

theorem mask_eq (hi : i < 8) : 0x80000000#32 >>> i = BitVec.twoPow 32 (31 - i) := by
  interval_cases i <;> rfl

/-- The mask of the next one is shifted by one. -/
theorem mask_succ (hi : i < 7) : (0x80000000#32 >>> i) >>> 1 = 0x80000000#32 >>> (i + 1) := by
  interval_cases i <;> rfl

/-- A descriptor is free exactly if its bit is clear. -/
theorem mask_and_eq_zero (hi : i < 8) :
    (0x80000000#32 >>> i) &&& flags = 0 ↔ flags.getLsbD (31 - i) = false := by
  rw [mask_eq hi, BitVec.and_comm, BitVec.and_twoPow]
  cases hbit : flags.getLsbD (31 - i) with
  | false => simp
  | true =>
    simp only [if_true, reduceCtorEq, iff_false]
    intro hzero
    have hget := congrArg (fun x => BitVec.getLsbD x (31 - i)) hzero
    simp [BitVec.getLsbD_twoPow] at hget
    omega

/-- To set a mask sets its bit and no other. -/
theorem getLsbD_or_mask (hi : i < 8) (hj : j < 8) :
    (flags ||| (0x80000000#32 >>> i)).getLsbD (31 - j) =
    (flags.getLsbD (31 - j) || decide (j = i)) := by
  have hbit : 31 - i = 31 - j ↔ j = i := by omega
  have hlt : 31 - i < 32 := by omega
  rw [mask_eq hi, BitVec.getLsbD_or, BitVec.getLsbD_twoPow]
  simp only [hbit, hlt, decide_true, Bool.true_and]

/-- To clear it clears its bit and no other. -/
theorem getLsbD_and_not_mask (hi : i < 8) (hj : j < 8) :
    (flags &&& ~~~(0x80000000#32 >>> i)).getLsbD (31 - j) =
    (flags.getLsbD (31 - j) && decide (j ≠ i)) := by
  have hbit : 31 - i = 31 - j ↔ j = i := by omega
  have hlt : 31 - i < 32 := by omega
  have hlt' : 31 - j < 32 := by omega
  rw [mask_eq hi, BitVec.getLsbD_and, BitVec.getLsbD_not, BitVec.getLsbD_twoPow]
  simp only [hbit, hlt, hlt', decide_true, Bool.true_and, decide_not]

/-- An allocated descriptor is marked, and the others are as before. -/
theorem Task.marked_alloc (hi : i < 8) (hj : j < 8) (fd : ℕ) :
    Task.Marked ⟨task.flags ||| (0x80000000#32 >>> i), fd⟩ j ↔ task.Marked j ∨ j = i := by
  unfold Task.Marked
  rw [getLsbD_or_mask hi hj]
  simp

theorem Task.marked_free (hi : i < 8) (hj : j < 8) (fd : ℕ) :
    Task.Marked ⟨task.flags &&& ~~~(0x80000000#32 >>> i), fd⟩ j ↔ task.Marked j ∧ j ≠ i := by
  unfold Task.Marked
  rw [getLsbD_and_not_mask hi hj]
  simp

/-- The loop finds the first descriptor from `i` on whose bit is clear. -/
theorem allocFdLoop_spec (hk : i + k = 8) :
    (∃ c < 8, i ≤ c ∧ ¬ task.Marked c ∧ (∀ j, i ≤ j → j < c → task.Marked j) ∧
      allocFdLoop task k i (0x80000000#32 >>> i) = (c, ⟨task.flags ||| (0x80000000#32 >>> c), c⟩)) ∨
    (∀ j < 8, i ≤ j → task.Marked j) ∧ allocFdLoop task k i
    (0x80000000#32 >>> i) = (errGeneric, task) := by
  induction k generalizing i with
  | zero => exact .inr ⟨fun j hj hij => by omega, rfl⟩
  | succ k ih =>
    have hi : i < 8 := by omega
    rw [allocFdLoop]
    by_cases hbit : (0x80000000#32 >>> i) &&& task.flags = 0
    · rw [if_pos hbit]
      rw [mask_and_eq_zero hi] at hbit
      exact .inl ⟨i, hi, le_refl i, by simp [Task.Marked, hbit], fun j hij hji => by omega, rfl⟩
    · have hmark : task.Marked i := by
        rw [mask_and_eq_zero hi] at hbit
        simpa [Task.Marked] using hbit
      rw [if_neg hbit]
      obtain rfl | hlast : k = 0 ∨ i < 7 := by omega
      · refine .inr ⟨fun j hj hij => ?_, rfl⟩
        obtain rfl : j = i := by omega
        exact hmark
      · rw [mask_succ hlast]
        have hfrom : ∀ j, i ≤ j → j = i ∨ i + 1 ≤ j := fun j hij => by omega
        obtain ⟨c, hc, hic, hclear, hall, hrun⟩ | ⟨hall, hrun⟩ := ih (i := i + 1) (by omega)
        · refine .inl ⟨c, hc, by omega, hclear, fun j hij hjc => ?_, hrun⟩
          obtain rfl | hij := hfrom j hij
          · exact hmark
          · exact hall j hij hjc
        · refine .inr ⟨fun j hj hij => ?_, hrun⟩
          obtain rfl | hij := hfrom j hij
          · exact hmark
          · exact hall j hj hij

/-- `task_alloc_fd` -/
theorem taskAllocFd_spec (h : task.freeFd < 8) :
    (∃ c < 8, task.freeFd ≤ c ∧ ¬ task.Marked c ∧ (∀ j, task.freeFd ≤ j → j < c → task.Marked j) ∧
      taskAllocFd task = (c, ⟨task.flags ||| (0x80000000#32 >>> c), c⟩)) ∨
    (∀ j < 8, task.freeFd ≤ j → task.Marked j) ∧ taskAllocFd task = (errGeneric, task) :=
  allocFdLoop_spec (by omega)

end Bits

/-! ## Bitmap and hint

The bitmap holds what the process has allocated itself. Below the hint every descriptor is in use,
as its own or as one that was inherited and not freed. -/

/-- The bitmap has the descriptors of the process itself; those below the hint are in use. -/
structure Proc.Ok (p : Proc) : Prop where
  /-- the hint is a descriptor -/
  hint : p.task.freeFd < 8
  /-- what is marked as used is what the process has allocated -/
  marked : ∀ i < 8, p.task.Marked i ↔ i ∈ p.own
  /-- all below the hint are used, or are left from the parent -/
  below : ∀ i < p.task.freeFd, i ∈ p.own ∨ i ∈ p.kept
  /-- what is left was inherited -/
  kept : p.kept ⊆ p.inherited

namespace Proc.Ok

variable {p : Proc}

theorem alloc (h : p.Ok) : p.btAllocFileDescriptor.Ok := by
  obtain ⟨c, hc, hfrom, hclear, hall, hrun⟩ | ⟨-, hrun⟩ := taskAllocFd_spec h.hint
  · have heq : p.btAllocFileDescriptor =
        { p with task := ⟨p.task.flags ||| (0x80000000#32 >>> c), c⟩, own := insert c p.own } := by
      unfold btAllocFileDescriptor
      rw [hrun]
      simp [hc]
    rw [heq]
    refine ⟨hc, fun i hi => ?_, fun i hi => ?_, h.kept⟩
    · rw [Task.marked_alloc hc hi, h.marked i hi, Finset.mem_insert, or_comm]
    · by_cases hlow : i < p.task.freeFd
      · exact (h.below i hlow).imp_left fun hmem => Finset.mem_insert_of_mem hmem
      · have hi' : i < c := hi
        have hmark := hall i (not_lt.mp hlow) hi'
        exact .inl (Finset.mem_insert_of_mem ((h.marked i (by omega)).mp hmark))
  · have heq : p.btAllocFileDescriptor = p := by
      unfold btAllocFileDescriptor
      rw [hrun]
      simp [errGeneric]
    rw [heq]
    exact h

theorem free (h : p.Ok) (fd : ℤ) : (p.btFreeFileDescriptor fd).Ok := by
  unfold btFreeFileDescriptor taskFreeFd
  by_cases hneg : fd < 0
  · rw [if_pos hneg, if_neg (by omega), if_neg (by omega)]
    exact h
  · obtain ⟨n, rfl⟩ := Int.eq_ofNat_of_zero_le (not_lt.mp hneg)
    have hnn : (0 : ℤ) ≤ n := Int.natCast_nonneg n
    rw [if_neg hneg, if_pos hnn, if_pos hnn, Int.toNat_natCast]
    by_cases hfd : (n : ℤ) < 8
    · have hn : n < 8 := by omega
      rw [if_pos hfd]
      refine ⟨?_, fun i hi => ?_, fun i hi => ?_, (Finset.erase_subset _ _).trans h.kept⟩
      · dsimp only
        have := h.hint
        split_ifs
        · exact hn
        · exact this
      · dsimp only
        rw [Task.marked_free hn hi, h.marked i hi, Finset.mem_erase, and_comm]
      · dsimp only at hi ⊢
        have hlow : i < p.task.freeFd ∧ i ≠ n := by
          split_ifs at hi with hlt
          · exact ⟨by omega, by omega⟩
          · exact ⟨hi, by omega⟩
        rw [Finset.mem_erase, Finset.mem_erase]
        exact (h.below i hlow.1).imp (fun hm => ⟨hlow.2, hm⟩) fun hm => ⟨hlow.2, hm⟩
    · rw [if_neg hfd]
      refine ⟨h.hint, fun i hi => ?_, fun i hi => ?_, (Finset.erase_subset _ _).trans h.kept⟩
      · rw [Finset.mem_erase, h.marked i hi]
        exact ⟨fun hm => ⟨by omega, hm⟩, fun hm => hm.2⟩
      · have hlt : i < p.task.freeFd := hi
        have hhint := h.hint
        rw [Finset.mem_erase, Finset.mem_erase]
        exact (h.below i hlt).imp (fun hm => ⟨by omega, hm⟩) fun hm => ⟨by omega, hm⟩

theorem create (h : p.Ok) : p.btCreateProcess.Ok := by
  refine ⟨h.hint, fun i hi => ?_, fun i hi => .inr ?_, Finset.union_subset_union_right h.kept⟩
  · simp [Task.Marked, btCreateProcess]
  · exact Finset.mem_union.mpr (h.below i hi)

theorem init : Proc.btProcessInit.Ok := by
  refine alloc
    (alloc (alloc ⟨by decide, fun i hi => ?_, fun i hi => absurd hi (Nat.not_lt_zero i),
    le_refl _⟩))
  simp [Task.Marked]

end Proc.Ok

theorem ProcReach.ok {procs : List Proc} (h : ProcReach procs) : ∀ p ∈ procs, p.Ok := by
  induction h with
  | init =>
    intro p hp
    rw [List.mem_singleton.mp hp]
    exact Proc.Ok.init
  | create h hp ih =>
    intro q hq
    rcases List.mem_append.mp hq with hq | hq
    · exact ih q hq
    · rw [List.mem_singleton.mp hq]
      exact (ih _ hp).create
  | @alloc as bs p h ih =>
    intro q hq
    rcases List.mem_append.mp hq with hq | hq
    · exact ih q (List.mem_append_left _ hq)
    · rcases List.mem_cons.mp hq with rfl | hq
      · exact (ih p (by simp)).alloc
      · exact ih q (List.mem_append_right _ (List.mem_cons_of_mem _ hq))
  | @free as bs p fd h ih =>
    intro q hq
    rcases List.mem_append.mp hq with hq | hq
    · exact ih q (List.mem_append_left _ hq)
    · rcases List.mem_cons.mp hq with rfl | hq
      · exact (ih p (by simp)).free fd
      · exact ih q (List.mem_append_right _ (List.mem_cons_of_mem _ hq))

/-! ## The lowest descriptor

The descriptor that is found is the lowest one that is clear from the hint on; the condition
compares this with the record. -/

/-- For either reading of what is inherited. -/
theorem Proc.Ok.right_iff {p : Proc} (h : p.Ok) {inherited : Finset ℕ}
    (hkept : p.kept ⊆ inherited) :
    p.AllocRight (p.own ∪ inherited) ↔ p.HintPassed inherited := by
  have hbelow : ∀ i < p.task.freeFd, i ∈ p.own ∪ inherited := fun i hi =>
    Finset.mem_union.mpr ((h.below i hi).imp_right fun hm => hkept hm)
  obtain ⟨c, hc, hfrom, hclear, hall, hrun⟩ | ⟨hall, hrun⟩ := taskAllocFd_spec h.hint
  · have hnot : c ∉ p.own := fun hm => hclear ((h.marked c hc).mpr hm)
    have hown : ∀ j, p.task.freeFd ≤ j → j < c → j ∈ p.own := fun j hj hjc =>
      (h.marked j (by omega)).mp (hall j hj hjc)
    have hused : ∀ j < c, j ∈ p.own ∪ inherited := by
      intro j hj
      by_cases hlow : j < p.task.freeFd
      · exact hbelow j hlow
      · exact Finset.mem_union_left _ (hown j (not_lt.mp hlow) hj)
    unfold AllocRight
    rw [hrun]
    constructor
    · rintro ⟨hfirst, hfull⟩ i hi hhint hinh hiown
      -- `c` itself is the one that is not in use
      have hci : c ≤ i := not_lt.mp fun hlt => hiown (hown i hhint hlt)
      have hcinh : c ∉ inherited := by
        intro hmem
        have hcused : c ∈ p.own ∪ inherited := Finset.mem_union_right _ hmem
        by_cases hex : ∃ i < 8, i ∉ p.own ∪ inherited
        · have hmin := Nat.find_spec hex
          have hlow : ∀ j < Nat.find hex, j ∈ p.own ∪ inherited := by
            intro j hj
            by_contra hj'
            exact Nat.find_min hex hj ⟨by omega, hj'⟩
          have hceq := hfirst _ hmin.1 hmin.2 hlow
          dsimp only at hceq
          exact hmin.2 (hceq ▸ hcused)
        · have herr := hfull fun i hi => by
            by_contra hi'
            exact hex ⟨i, hi, hi'⟩
          simp only [errGeneric] at herr
          omega
      exact ⟨c, hfrom, lt_of_le_of_ne hci fun he => hcinh (he ▸ hinh), hnot, hcinh⟩
    · intro hpassed
      have hcinh : c ∉ inherited := by
        intro hmem
        obtain ⟨j, hj, hjc, hjown, -⟩ := hpassed c hc hfrom hmem hnot
        exact hjown (hown j hj hjc)
      have hcfree : c ∉ p.own ∪ inherited := by
        rw [Finset.mem_union]
        exact not_or.mpr ⟨hnot, hcinh⟩
      refine ⟨fun i hi hfree hlow => ?_, fun hfull => absurd (hfull c hc) hcfree⟩
      obtain hlt | heq | hgt := lt_trichotomy c i
      · exact absurd (hlow c hlt) hcfree
      · exact heq
      · exact absurd (hused i hgt) hfree
  · have hfull : ∀ i < 8, i ∈ p.own ∪ inherited := by
      intro i hi
      by_cases hlow : i < p.task.freeFd
      · exact hbelow i hlow
      · exact Finset.mem_union_left _ ((h.marked i hi).mp (hall i hi (not_lt.mp hlow)))
    refine iff_of_true ⟨fun i hi hfree => absurd (hfull i hi) hfree, fun _ => by rw [hrun]⟩ ?_
    intro i hi hhint _ hown
    exact absurd ((h.marked i hi).mp (hall i hi hhint)) hown

/-- **When a descriptor is allocated right**, for every process of every tree and after any
sequence of calls; whether or not a descriptor of the parent that has been freed is in use. -/
theorem alloc_right_iff {procs : List Proc} (h : ProcReach procs) {p : Proc} (hp : p ∈ procs) :
    (p.AllocRight (p.own ∪ p.inherited) ↔ p.HintPassed p.inherited) ∧
      (p.AllocRight (p.own ∪ p.kept) ↔ p.HintPassed p.kept) :=
  ⟨(h.ok p hp).right_iff (h.ok p hp).kept, (h.ok p hp).right_iff (subset_refl _)⟩

/-- The kernel and a process that it has created. -/
def kernelAndChild : List Proc := [.btProcessInit, Proc.btProcessInit.btCreateProcess]

theorem kernelAndChild_reach : ProcReach kernelAndChild := .create .init (List.mem_singleton_self _)

theorem alloc_right_iff_kernel :
    Proc.btProcessInit.AllocRight (Proc.btProcessInit.own ∪ Proc.btProcessInit.inherited) := by
  have hmem : Proc.btProcessInit ∈ kernelAndChild := List.mem_cons_self ..
  refine (alloc_right_iff kernelAndChild_reach hmem).1.mpr fun i _ _ hinh => ?_
  have hnone : Proc.btProcessInit.inherited = ∅ := rfl
  rw [hnone] at hinh
  exact absurd hinh (Finset.notMem_empty i)

/-- The child is given descriptor 2, which it has inherited and not freed; the lowest one that
is not in use is 3. -/
theorem child_gets_inherited :
    ProcReach kernelAndChild ∧ Proc.btProcessInit.btCreateProcess ∈ kernelAndChild ∧
    (taskAllocFd Proc.btProcessInit.btCreateProcess.task).1 = 2 ∧
    ¬ Proc.btProcessInit.btCreateProcess.AllocRight
      (Proc.btProcessInit.btCreateProcess.own ∪ Proc.btProcessInit.btCreateProcess.inherited) ∧
    ¬ Proc.btProcessInit.btCreateProcess.AllocRight
      (Proc.btProcessInit.btCreateProcess.own ∪ Proc.btProcessInit.btCreateProcess.kept) := by
  refine ⟨kernelAndChild_reach, by simp [kernelAndChild], by decide, fun h => ?_, fun h => ?_⟩
  · have hthree := h.1 3 (by decide) (by decide) (by decide)
    revert hthree
    decide
  · have hthree := h.1 3 (by decide) (by decide) (by decide)
    revert hthree
    decide

end BitThunder
