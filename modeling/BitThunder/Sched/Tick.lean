import BitThunder.Sched.TasksSpec

/-!
# The tick

A tick counts, changes the two lists of delayed tasks over when the count begins again, and makes
the tasks ready whose time it is. The loop over the delayed tasks stops at the first that is later,
and it is not begun before `xNextTaskUnblockTime`; neither of them leaves out a task whose time it
is.

* `unblockTasks_spec`: the loop;
* `countTick_spec`: one tick;
* `catchUp_spec`: the ticks that were held back.

Two shortcuts have to be justified. The list is not looked at before a noted time, which is right if
no task in it is due earlier; and the loop stops at the first task that is not due, which is right
if the list is sorted. Both are in the invariant, and the loop re-establishes the first with the
task it stops at.

A tick is one step, so that a time that comes is equal to the count and never below it. `Ticked`
says so: the tasks that are woken are those whose time is the new count, in the list that is current
after it.
-/

namespace BitThunder

namespace Tasks

variable {T E : Type} {idle : T} {k k' : Tasks T E} {t : T}

/-- The time of a task in the current list has come. -/
def Due (k : Tasks T E) (t : T) : Prop :=
  k.generic.container t = some (.delayed k.pxDelayedTaskList) ∧ k.generic.value t ≤ k.xTickCount

/-- The tasks whose time has come are ready. -/
structure Woken (k k' : Tasks T E) : Prop extends Kept k k' where
  value : k'.generic.value = k.generic.value
  xYieldPending : k'.xYieldPending = k.xYieldPending
  /-- a task whose time has come is ready and waits for nothing -/
  due : ∀ t, k.Due t → k'.generic.container t = some (.ready (k.uxPriority t)) ∧
    k'.event.container t = none
  /-- the others are where they were -/
  other : ∀ t, ¬k.Due t →
    k'.generic.container t = k.generic.container t ∧ k'.event.container t = k.event.container t
  /-- no task has become pending -/
  pending : (k'.event.list .pendingReady).items.Sublist (k.event.list .pendingReady).items

/-- The tasks of the current delayed list are those whose container it is. -/
theorem mem_delayedTasks : t ∈ k.delayedTasks ↔
    k.generic.container t = some (.delayed k.pxDelayedTaskList) :=
  k.generic.mem _ _

/-- If no time has come, nothing is woken. -/
theorem Woken.of_none (hdue : ∀ t, ¬k.Due t) (hkept : Kept k k') (hgeneric : k'.generic = k.generic)
    (hevent : k'.event = k.event) (hyield : k'.xYieldPending = k.xYieldPending) : Woken k k' :=
  ⟨hkept, by rw [hgeneric], hyield, fun t ht => absurd ht (hdue t),
  fun t _ => by rw [hgeneric, hevent]; exact ⟨rfl, rfl⟩,
    by rw [hevent]⟩

theorem word_lt_of_lt_of_le {x y z : BitVec 32} (h : x < y) (h' : y ≤ z) : x < z :=
  Nat.lt_of_lt_of_le h h'

/-- The first of the delayed tasks is the first to be woken. -/
theorem Base.first_le {rest : List T} (h : k.Base idle) (hlist : k.delayedTasks = t :: rest) {u : T}
    (hu : k.generic.container u = some (.delayed k.pxDelayedTaskList)) :
    k.generic.value t ≤ k.generic.value u := by
  have hsorted := h.sorted k.pxDelayedTaskList
  change ItemList.Sorted _ k.delayedTasks at hsorted
  rw [hlist] at hsorted
  rcases List.mem_cons.mp (hlist ▸ mem_delayedTasks.mpr hu) with rfl | hmem
  · exact BitVec.le_refl _
  · exact (List.pairwise_cons.mp hsorted).1 u hmem

/-- No time is missed: when the tick count comes to its end, nobody waits for a time before the end.
-/
theorem Ahead.none_delayed (hahead : k.Ahead) (hmax : k.xTickCount + 1 = 0) :
    k.delayedTasks = [] := by
  refine List.eq_nil_iff_forall_not_mem.mpr fun t ht => ?_
  have hlt := hahead.later t (mem_delayedTasks.mp ht)
  have hle : k.xTickCount.toNat + 1 = 2 ^ 32 := by
    have htoNat := congrArg BitVec.toNat hmax
    have hbound := k.xTickCount.isLt
    rw [BitVec.toNat_add] at htoNat
    change (k.xTickCount.toNat + 1) % 2 ^ 32 = 0 at htoNat
    omega
  have hbound := (k.generic.value t).isLt
  have hlt' : k.xTickCount.toNat < (k.generic.value t).toNat := hlt
  omega

/-- The tick count is one more unless it wraps. -/
theorem toNat_succ {x : BitVec 32} (hx : x + 1 ≠ 0) : (x + 1).toNat = x.toNat + 1 := by
  have hbound := x.isLt
  have hne : (x.toNat + 1) % 2 ^ 32 ≠ 0 := by
    intro hzero
    refine hx (BitVec.eq_of_toNat_eq ?_)
    rw [BitVec.toNat_add]
    exact hzero
  rw [BitVec.toNat_add]
  change (x.toNat + 1) % 2 ^ 32 = x.toNat + 1
  omega

/-- The time of the first of the delayed tasks -/
theorem prvResetNextTaskUnblockTime_spec (h : k.Base idle) :
    Kept k k.prvResetNextTaskUnblockTime ∧ k.prvResetNextTaskUnblockTime.generic = k.generic ∧
      k.prvResetNextTaskUnblockTime.event = k.event ∧
      k.prvResetNextTaskUnblockTime.uxTopReadyPriority = k.uxTopReadyPriority ∧
      k.prvResetNextTaskUnblockTime.xYieldPending = k.xYieldPending ∧
      ∀ t, k.generic.container t = some (.delayed k.pxDelayedTaskList) →
        k.prvResetNextTaskUnblockTime.xNextTaskUnblockTime ≤ k.generic.value t := by
  unfold prvResetNextTaskUnblockTime
  split
  · rename_i hlist
    refine ⟨⟨rfl, rfl, rfl, rfl, rfl, rfl, rfl, rfl, rfl, rfl⟩, rfl, rfl, rfl, rfl, fun t ht => ?_⟩
    rw [← mem_delayedTasks, hlist] at ht
    cases ht
  · rename_i u rest hlist
    exact ⟨⟨rfl, rfl, rfl, rfl, rfl, rfl, rfl, rfl, rfl, rfl⟩, rfl, rfl, rfl, rfl,
      fun t ht => h.first_le hlist ht⟩

/-- What a tick does: the count, the other list at its end, and the tasks whose time it is. -/
structure Ticked (k k' : Tasks T E) : Prop where
  uxPriority : k'.uxPriority = k.uxPriority
  uxBasePriority : k'.uxBasePriority = k.uxBasePriority
  uxMutexesHeld : k'.uxMutexesHeld = k.uxMutexesHeld
  pxCurrentTCB : k'.pxCurrentTCB = k.pxCurrentTCB
  uxCurrentNumberOfTasks : k'.uxCurrentNumberOfTasks = k.uxCurrentNumberOfTasks
  uxPendedTicks : k'.uxPendedTicks = k.uxPendedTicks
  uxSchedulerSuspended : k'.uxSchedulerSuspended = k.uxSchedulerSuspended
  xYieldPending : k'.xYieldPending = k.xYieldPending
  value : k'.generic.value = k.generic.value
  /-- the tick is counted -/
  xTickCount : k'.xTickCount = k.xTickCount + 1
  /-- if the count begins again the lists change over -/
  lists : (k.xTickCount + 1 ≠ 0 ∧ k'.pxDelayedTaskList = k.pxDelayedTaskList ∧
    k'.xNumOfOverflows = k.xNumOfOverflows) ∨
    (k.xTickCount + 1 = 0 ∧ k'.pxDelayedTaskList = !k.pxDelayedTaskList ∧
    k'.xNumOfOverflows = k.xNumOfOverflows + 1)
  /-- a task whose time is now is ready and waits for nothing -/
  due : ∀ t, k.generic.container t = some (.delayed k'.pxDelayedTaskList) →
    k.generic.value t = k'.xTickCount →
    k'.generic.container t = some (.ready (k.uxPriority t)) ∧ k'.event.container t = none
  /-- the others are where they were -/
  other : ∀ t, ¬(k.generic.container t = some (.delayed k'.pxDelayedTaskList) ∧
    k.generic.value t = k'.xTickCount) →
    k'.generic.container t = k.generic.container t ∧ k'.event.container t = k.event.container t
  /-- no task has become pending -/
  pending : (k'.event.list .pendingReady).items.Sublist (k.event.list .pendingReady).items

/-- A tick is a look at the delayed tasks, after the count and perhaps the lists have changed. -/
theorem Woken.ticked {k₁ : Tasks T E} (hw : Woken k₁ k') (hge : ∀ t,
    k₁.generic.container t = some (.delayed k₁.pxDelayedTaskList) →
      k₁.xTickCount ≤ k₁.generic.value t)
    (hgeneric : k₁.generic = k.generic) (hevent : k₁.event = k.event)
    (huxPriority : k₁.uxPriority = k.uxPriority)
    (huxBasePriority : k₁.uxBasePriority = k.uxBasePriority)
    (huxMutexesHeld : k₁.uxMutexesHeld = k.uxMutexesHeld)
    (hcurrent : k₁.pxCurrentTCB = k.pxCurrentTCB)
    (hnumber : k₁.uxCurrentNumberOfTasks = k.uxCurrentNumberOfTasks)
    (hpended : k₁.uxPendedTicks = k.uxPendedTicks)
    (hsuspended : k₁.uxSchedulerSuspended = k.uxSchedulerSuspended)
    (hyield : k₁.xYieldPending = k.xYieldPending) (htick : k₁.xTickCount = k.xTickCount + 1)
    (hlists : (k.xTickCount + 1 ≠ 0 ∧ k₁.pxDelayedTaskList = k.pxDelayedTaskList ∧
        k₁.xNumOfOverflows = k.xNumOfOverflows) ∨
      (k.xTickCount + 1 = 0 ∧ k₁.pxDelayedTaskList = !k.pxDelayedTaskList ∧
        k₁.xNumOfOverflows = k.xNumOfOverflows + 1)) : Ticked k k' := by
  have hdue : ∀ t, k₁.Due t ↔
      k.generic.container t = some (.delayed k'.pxDelayedTaskList) ∧
      k.generic.value t = k'.xTickCount := by
    intro t
    rw [Due, hw.pxDelayedTaskList, hw.xTickCount, ← hgeneric]
    refine and_congr_right fun hin => ⟨fun hle => BitVec.le_antisymm hle (hge t hin), fun he => ?_⟩
    rw [he]
    exact BitVec.le_refl _
  refine ⟨hw.uxPriority.trans huxPriority, hw.uxBasePriority.trans huxBasePriority,
    hw.uxMutexesHeld.trans huxMutexesHeld, hw.pxCurrentTCB.trans hcurrent,
    hw.uxCurrentNumberOfTasks.trans hnumber,
    hw.uxPendedTicks.trans hpended, hw.uxSchedulerSuspended.trans hsuspended,
    hw.xYieldPending.trans hyield,
    hw.value.trans
    (by rw [hgeneric]), hw.xTickCount.trans htick, ?_, fun t hin htime => ?_, fun t hnot => ?_, ?_⟩
  · rw [hw.pxDelayedTaskList, hw.xNumOfOverflows]
    exact hlists
  · rw [← huxPriority]
    exact hw.due t ((hdue t).mpr ⟨hin, htime⟩)
  · have hother := hw.other t fun hd => hnot ((hdue t).mp hd)
    rwa [hgeneric, hevent] at hother
  · rw [← hevent]
    exact hw.pending

variable [DecidableEq T] [DecidableEq E]

/-- The loop of the tick wakes all tasks whose time has come. -/
theorem unblockTasks_spec {rounds : ℕ} (h : k.Base idle) (hrounds : k.delayedTasks.length < rounds)
    (sw : Bool) :
    ∃ sw' k', unblockTasks rounds k sw = some (sw', k') ∧ Woken k k' ∧ k'.Base idle ∧ k'.Ahead ∧
      (sw' = true ↔ sw = true ∨ ∃ t, k.Due t ∧ k.uxPriority k.pxCurrentTCB ≤ k.uxPriority t) := by
  induction rounds generalizing k sw with
  | zero => exact absurd hrounds (Nat.not_lt_zero _)
  | succ rounds ih =>
    rw [unblockTasks]
    cases hlist : k.delayedTasks with
    | nil =>
      have hnone : ∀ t, k.generic.container t ≠ some (.delayed k.pxDelayedTaskList) := by
        intro t ht
        rw [← mem_delayedTasks, hlist] at ht
        cases ht
      have hdue : ∀ t, ¬k.Due t := fun t ht => hnone t ht.1
      refine ⟨sw, _, rfl, .of_none hdue ⟨rfl, rfl, rfl, rfl, rfl, rfl, rfl, rfl, rfl, rfl⟩ rfl rfl
        rfl, ⟨h.ready, h.top, h.idle, h.blocked, h.sorted, h.wrapped⟩,
          ⟨fun t ht => absurd ht (hnone t),
          fun t ht => absurd ht (hnone t)⟩, ?_⟩
      exact ⟨.inl, fun hor => hor.resolve_right fun ⟨t, ht, _⟩ => hdue t ht⟩
    | cons t rest =>
      have hin : k.generic.container t = some (.delayed k.pxDelayedTaskList) := by
        rw [← mem_delayedTasks, hlist]
        exact List.mem_cons_self
      by_cases htime : k.xTickCount < k.generic.value t
      · -- the others are later still
        have hdue : ∀ u, ¬k.Due u := fun u hu =>
          absurd (word_lt_of_lt_of_le htime (BitVec.le_trans (h.first_le hlist hu.1) hu.2))
            (BitVec.lt_irrefl _)
        simp only [if_pos htime]
        refine ⟨sw, _, rfl, .of_none hdue ⟨rfl, rfl, rfl, rfl, rfl, rfl, rfl, rfl, rfl, rfl⟩ rfl rfl
          rfl, ⟨h.ready, h.top, h.idle, h.blocked, h.sorted, h.wrapped⟩,
          ⟨fun u hu => word_lt_of_lt_of_le htime (h.first_le hlist hu),
          fun u hu => h.first_le hlist hu⟩, ?_⟩
        exact ⟨.inl, fun hor => hor.resolve_right fun ⟨u, hu, _⟩ => hdue u hu⟩
      · have hdue : k.Due t := ⟨hin, BitVec.not_lt.mp htime⟩
        obtain ⟨k₁, h₁, hmoved, htop, hyield, -, hdelayed⟩ := wake_spec hin
        have hbase := h.ready_moved hmoved htop
        have hrest : k₁.delayedTasks = rest := by
          rw [delayedTasks, hmoved.pxDelayedTaskList, hdelayed]
          change k.delayedTasks.erase t = rest
          rw [hlist, List.erase_cons_head]
        have hshort : k₁.delayedTasks.length < rounds := by
          rw [hrest]
          rw [hlist] at hrounds
          exact Nat.lt_of_succ_lt_succ hrounds
        obtain ⟨sw', k', hloop, hwoken, hbase', hahead, hsw⟩ :=
          ih hbase hshort (sw || decide (k₁.uxPriority t ≥ k₁.uxPriority k₁.pxCurrentTCB))
        -- which of the others are due does not change
        have hother : ∀ u, u ≠ t → (k₁.Due u ↔ k.Due u) := by
          intro u hu
          rw [Due, Due, hmoved.container, Function.update_of_ne hu, hmoved.pxDelayedTaskList,
            hmoved.value, hmoved.xTickCount]
        have hnot : ¬k₁.Due t := by
          rw [Due, hmoved.container, Function.update_self]
          rintro ⟨he, -⟩
          cases he
        simp only [if_neg htime]
        refine ⟨sw', k', ?_, ⟨hmoved.toKept.trans hwoken.toKept, hwoken.value.trans hmoved.value,
          hwoken.xYieldPending.trans hyield, fun u hu => ?_, fun u hu => ?_, ?_⟩, hbase', hahead,
          ?_⟩
        · obtain ⟨ka, ha, hb⟩ := Option.bind_eq_some_iff.mp h₁
          obtain ⟨kb, hb, hc⟩ := Option.bind_eq_some_iff.mp hb
          rw [ha]
          change (ka.leaveEvent t >>= _) = _
          rw [hb]
          change (kb.prvAddTaskToReadyList t >>= _) = _
          rw [hc]
          exact hloop
        · by_cases hut : u = t
          · subst hut
            obtain ⟨hgeneric, hevent⟩ := hwoken.other u hnot
            rw [hgeneric, hevent, hmoved.container, hmoved.event, Function.update_self,
              Function.update_self]
            exact ⟨rfl, rfl⟩
          · rw [← hmoved.uxPriority]
            exact hwoken.due u ((hother u hut).mpr hu)
        · have hut : u ≠ t := by
            rintro rfl
            exact hu hdue
          obtain ⟨hgeneric, hevent⟩ := hwoken.other u fun hd => hu ((hother u hut).mp hd)
          rw [hgeneric, hevent, hmoved.container, hmoved.event, Function.update_of_ne hut,
            Function.update_of_ne hut]
          exact ⟨rfl, rfl⟩
        · refine hwoken.pending.trans ?_
          rw [hmoved.pending (by simp)]
          exact List.erase_sublist
        · rw [hsw, hmoved.uxPriority, hmoved.pxCurrentTCB, Bool.or_eq_true, decide_eq_true_iff,
            or_assoc]
          refine or_congr_right ⟨?_, ?_⟩
          · rintro (hge | ⟨u, hu, hle⟩)
            · exact ⟨t, hdue, hge⟩
            · have hut : u ≠ t := by
                rintro rfl
                exact hnot hu
              exact ⟨u, (hother u hut).mp hu, hle⟩
          · rintro ⟨u, hu, hle⟩
            by_cases hut : u = t
            · exact .inl (hut ▸ hle)
            · exact .inr ⟨u, (hother u hut).mpr hu, hle⟩

/-- The look at the delayed tasks, which is only taken if the first of them may be due -/
theorem scanDelayed_spec (h : k.Base idle) (hnext : ∀ t,
    k.generic.container t = some (.delayed k.pxDelayedTaskList) →
    k.xNextTaskUnblockTime ≤ k.generic.value t) :
    ∃ sw k', k.scanDelayed = some (sw, k') ∧ Woken k k' ∧ k'.Base idle ∧ k'.Ahead ∧
      (sw = true ↔ ∃ t, k.Due t ∧ k.uxPriority k.pxCurrentTCB ≤ k.uxPriority t) := by
  by_cases htime : k.xTickCount ≥ k.xNextTaskUnblockTime
  · obtain ⟨sw, k', hloop, hwoken, hbase, hahead, hsw⟩ :=
      unblockTasks_spec h (Nat.lt_succ_self _) false
    refine ⟨sw, k', by rw [scanDelayed, if_pos htime]; exact hloop, hwoken, hbase, hahead, ?_⟩
    rw [hsw]
    exact or_iff_right Bool.false_ne_true
  · have hlater : ∀ t, k.generic.container t = some (.delayed k.pxDelayedTaskList) →
        k.xTickCount < k.generic.value t :=
      fun t ht => word_lt_of_lt_of_le (BitVec.not_le.mp htime) (hnext t ht)
    have hdue : ∀ t, ¬k.Due t := fun t ht => BitVec.not_le.mpr (hlater t ht.1) ht.2
    refine ⟨false,
      k, by
      rw [scanDelayed, if_neg htime], .of_none hdue (Kept.refl k) rfl rfl rfl, h, ⟨hlater, hnext⟩,
      ?_⟩
    exact iff_of_false Bool.false_ne_true fun ⟨t, ht, _⟩ => hdue t ht

/-- One tick while the scheduler is not suspended -/
theorem countTick_spec (h : k.Base idle) (hahead : k.Ahead) :
    ∃ sw k', k.countTick = some (sw, k') ∧ Ticked k k' ∧ k'.Base idle ∧ k'.Ahead ∧
      (sw = true ↔ ∃ t, k.generic.container t = some (.delayed k'.pxDelayedTaskList) ∧
        k.generic.value t = k'.xTickCount ∧ k.uxPriority k.pxCurrentTCB ≤ k.uxPriority t) := by
  -- the state in which the delayed tasks are looked at
  obtain ⟨k₁, hk₁, hbase, hnext, hge, hticked⟩ : ∃ k₁, k.advanceTick = some k₁ ∧ k₁.Base idle ∧
      (∀ t, k₁.generic.container t = some (.delayed k₁.pxDelayedTaskList) →
        k₁.xNextTaskUnblockTime ≤ k₁.generic.value t) ∧
      (∀ t, k₁.generic.container t = some (.delayed k₁.pxDelayedTaskList) →
      k₁.xTickCount ≤ k₁.generic.value t) ∧
      k₁.uxPriority = k.uxPriority ∧ k₁.pxCurrentTCB = k.pxCurrentTCB ∧ k₁.generic = k.generic ∧
      ∀ k', Woken k₁ k' → Ticked k k' := by
    by_cases hzero : k.xTickCount + 1 = 0
    · -- the lists change places, and the new overflow list is empty
      have hempty := hahead.none_delayed hzero
      have hnone : ∀ t, k.generic.container t ≠ some (.delayed k.pxDelayedTaskList) := by
        intro t ht
        rw [← mem_delayedTasks, hempty] at ht
        cases ht
      obtain ⟨k₂, hk₂⟩ : ∃ k₂ : Tasks T E, k₂ = { k with
        xTickCount := k.xTickCount + 1
        pxDelayedTaskList := !k.pxDelayedTaskList
        xNumOfOverflows := k.xNumOfOverflows + 1 } := ⟨_, rfl⟩
      have hbase₂ : k₂.Base idle := by
        rw [hk₂]
        refine ⟨h.ready, h.top, h.idle, h.blocked, h.sorted, fun t ht => ?_⟩
        change k.generic.container t = some (.delayed !!k.pxDelayedTaskList) at ht
        rw [Bool.not_not] at ht
        exact absurd ht (hnone t)
      obtain ⟨hkept, hgeneric, hevent, htop, hyield, hnext⟩ :=
        prvResetNextTaskUnblockTime_spec hbase₂
      have hge : ∀ t, k₂.prvResetNextTaskUnblockTime.xTickCount ≤
          k₂.prvResetNextTaskUnblockTime.generic.value t := by
        intro t
        rw [hkept.xTickCount, hk₂]
        change k.xTickCount + 1 ≤ _
        rw [hzero]
        exact Nat.zero_le _
      refine ⟨k₂.prvResetNextTaskUnblockTime, ?_, hbase₂.kept hkept hgeneric hevent htop, ?_,
        fun t _ => hge t, ?_, ?_, ?_, fun k' hw => ?_⟩
      · rw [advanceTick, if_pos hzero, taskSwitchDelayedLists, hk₂]
        exact if_pos hempty
      · rw [hgeneric, hkept.pxDelayedTaskList]
        exact hnext
      · rw [hkept.uxPriority, hk₂]
      · rw [hkept.pxCurrentTCB, hk₂]
      · rw [hgeneric, hk₂]
      · refine hw.ticked (fun t _ => hge t) (hgeneric.trans ?_) (hevent.trans ?_)
          (hkept.uxPriority.trans ?_)
          (hkept.uxBasePriority.trans ?_) (hkept.uxMutexesHeld.trans ?_)
            (hkept.pxCurrentTCB.trans ?_)
          (hkept.uxCurrentNumberOfTasks.trans ?_) (hkept.uxPendedTicks.trans ?_)
            (hkept.uxSchedulerSuspended.trans ?_)
          (hyield.trans ?_) (hkept.xTickCount.trans ?_)
            (.inr ⟨hzero, hkept.pxDelayedTaskList.trans ?_,
            hkept.xNumOfOverflows.trans ?_⟩)
        all_goals rw [hk₂]
    · have htoNat := toNat_succ hzero
      refine ⟨{ k with xTickCount := k.xTickCount + 1 }, if_neg hzero,
        ⟨h.ready, h.top, h.idle, h.blocked, h.sorted, fun t ht => ?_⟩,
        hahead.next, fun t ht => ?_, rfl, rfl, rfl, fun k' hw => ?_⟩
      · have hlt : (k.generic.value t).toNat < k.xTickCount.toNat := h.wrapped t ht
        change (k.generic.value t).toNat < (k.xTickCount + 1).toNat
        omega
      · have hlt : k.xTickCount.toNat < (k.generic.value t).toNat := hahead.later t ht
        change (k.xTickCount + 1).toNat ≤ (k.generic.value t).toNat
        omega
      · refine hw.ticked (fun t ht => ?_) rfl rfl rfl rfl rfl rfl rfl rfl rfl rfl rfl
          (.inl ⟨hzero, rfl, rfl⟩)
        have hlt : k.xTickCount.toNat < (k.generic.value t).toNat := hahead.later t ht
        change (k.xTickCount + 1).toNat ≤ (k.generic.value t).toNat
        omega
  obtain ⟨hpriority, hcurrent, hgeneric, hticked⟩ := hticked
  obtain ⟨sw, k', hscan, hwoken, hbase', hahead', hsw⟩ := scanDelayed_spec hbase hnext
  have hticked' := hticked k' hwoken
  refine ⟨sw, k', ?_, hticked', hbase', hahead', ?_⟩
  · rw [countTick, hk₁]
    exact hscan
  · rw [hsw, hpriority, hcurrent]
    refine exists_congr fun t => ?_
    rw [Due, ← and_assoc, ← hgeneric, hwoken.pxDelayedTaskList, hwoken.xTickCount]
    refine and_congr_left fun _ => and_congr_right fun hin =>
      ⟨fun hle => BitVec.le_antisymm hle (hge t hin), fun he => ?_⟩
    rw [he]
    exact BitVec.le_refl _

end Tasks

end BitThunder
