import BitThunder.Sched.Clock

/-!
# Switching

A switch chooses a task of the highest priority that has ready tasks, unless the scheduler is
suspended: then it is put off. `Settled` is what the calls keep between switches: no ready task is
above the running one, or a switch is pending.

* `vTaskSwitchContext_spec`: a switch;
* `switch_next`: a call that ends with a switch.

The highest priority is found by counting down from a bound. The bound is kept above all ready tasks
by everything that makes a task ready, and is only lowered here. That the count stops is due to the
idle task, which is always ready.

While the scheduler is suspended a switch is noted and nothing else. So `Settled` is a disjunction,
and a call that raises a task above the running one has to leave the note.
-/

namespace BitThunder

namespace Tasks

variable {T E : Type}

/-- No ready task is above the running one, or a switch is pending. -/
def Settled (k : Tasks T E) : Prop :=
  k.xYieldPending = true ∨ ∀ t p, k.generic.container t = some (.ready p) →
  p ≤ k.uxPriority k.pxCurrentTCB

/-- The running task exists. -/
def CurrentLives (k : Tasks T E) : Prop :=
  ∃ l, k.generic.container k.pxCurrentTCB = some l ∧ l ≠ .waitingTermination

/-- What a switch does: the index of a list of ready tasks goes on, or the switch is put off. -/
structure Switched (k k' : Tasks T E) : Prop where
  /-- all tasks are in the lists that they were in -/
  container : k'.generic.container = k.generic.container
  value : k'.generic.value = k.generic.value
  items : ∀ l, (k'.generic.list l).items = (k.generic.list l).items
  event : k'.event = k.event
  uxPriority : k'.uxPriority = k.uxPriority
  uxBasePriority : k'.uxBasePriority = k.uxBasePriority
  uxMutexesHeld : k'.uxMutexesHeld = k.uxMutexesHeld
  pxDelayedTaskList : k'.pxDelayedTaskList = k.pxDelayedTaskList
  uxCurrentNumberOfTasks : k'.uxCurrentNumberOfTasks = k.uxCurrentNumberOfTasks
  xTickCount : k'.xTickCount = k.xTickCount
  uxPendedTicks : k'.uxPendedTicks = k.uxPendedTicks
  xNumOfOverflows : k'.xNumOfOverflows = k.xNumOfOverflows
  xNextTaskUnblockTime : k'.xNextTaskUnblockTime = k.xNextTaskUnblockTime
  uxSchedulerSuspended : k'.uxSchedulerSuspended = k.uxSchedulerSuspended
  /-- the switch is put off and noted, or the running task is one of the highest priority -/
  choice : (k.uxSchedulerSuspended ≠ 0 ∧ k'.xYieldPending = true ∧
    k'.pxCurrentTCB = k.pxCurrentTCB ∧
      k'.uxTopReadyPriority = k.uxTopReadyPriority) ∨
    (k.uxSchedulerSuspended = 0 ∧ k'.xYieldPending = false ∧
      k.generic.container k'.pxCurrentTCB = some (.ready k'.uxTopReadyPriority) ∧
      ∀ t p, k.generic.container t = some (.ready p) → p ≤ k'.uxTopReadyPriority)

variable {idle t : T} {k k' : Tasks T E}

/-- The tasks of a ready list are those whose container it is. -/
theorem mem_readyTasks {p : ℕ} : t ∈ k.readyTasks p ↔ k.generic.container t = some (.ready p) :=
  k.generic.mem _ _

theorem Base.switched (h : k.Base idle) (hs : Switched k k') : k'.Base idle where
  ready := by
    rw [hs.container, hs.uxPriority]
    exact h.ready
  top := by
    rw [hs.container]
    rcases hs.choice with ⟨-, -, -, htop⟩ | ⟨-, -, -, htop⟩
    · rw [htop]
      exact h.top
    · exact htop
  idle := by
    rw [hs.container, hs.uxPriority]
    exact h.idle
  blocked := by
    rw [hs.container, hs.event]
    exact h.blocked
  sorted := by
    intro b
    rw [hs.value, hs.items]
    exact h.sorted b
  wrapped := by
    rw [hs.container, hs.value, hs.pxDelayedTaskList, hs.xTickCount]
    exact h.wrapped

/-- The lists are as they should be after a switch. -/
theorem Steady.switched (h : k.Steady idle) (hs : Switched k k') : k'.Steady idle where
  toBase := h.toBase.switched hs
  later := by
    rw [hs.container, hs.value, hs.pxDelayedTaskList, hs.xTickCount]
    exact h.later
  next := by
    rw [hs.container, hs.value, hs.pxDelayedTaskList, hs.xNextTaskUnblockTime]
    exact h.next
  tasks := by
    rw [hs.uxCurrentNumberOfTasks]
    exact h.tasks
  pending := by
    rw [hs.uxSchedulerSuspended, hs.event]
    exact h.pending
  ticks := by
    rw [hs.uxSchedulerSuspended, hs.uxPendedTicks]
    exact h.ticks

/-- After a switch no ready task is above the running one, unless the switch was put off. -/
theorem Base.settled (h : k.Base idle) (hs : Switched k k') : k'.Settled := by
  rcases hs.choice with ⟨-, hyield, -, -⟩ | ⟨-, -, hcurrent, htop⟩
  · exact .inl hyield
  · refine .inr fun t p ht => ?_
    rw [hs.container] at ht
    rw [hs.uxPriority, h.ready _ _ hcurrent]
    exact htop t p ht

/-- The highest priority that has a ready task -/
theorem highestReady_spec {n q : ℕ} (hready : k.readyTasks q ≠ [])
    (hle : ∀ q, k.readyTasks q ≠ [] → q ≤ n) :
    ∃ p, k.highestReady n = some p ∧ k.readyTasks p ≠ [] ∧ ∀ q, k.readyTasks q ≠ [] → q ≤ p := by
  induction n with
  | zero =>
    obtain rfl := Nat.le_zero.mp (hle q hready)
    exact ⟨0, if_neg hready, hready, hle⟩
  | succ n ih =>
    rw [highestReady]
    by_cases hnone : k.readyTasks (n + 1) = []
    · rw [if_pos hnone]
      refine ih fun q hq => Nat.le_of_lt_succ (lt_of_le_of_ne (hle q hq) ?_)
      rintro rfl
      exact hq hnone
    · rw [if_neg hnone]
      exact ⟨n + 1, rfl, hnone, hle⟩

/-- A switch -/
theorem vTaskSwitchContext_spec (h : k.Base idle) :
    ∃ k', k.vTaskSwitchContext = some k' ∧ Switched k k' := by
  by_cases hsuspended : k.uxSchedulerSuspended ≠ 0
  · rw [vTaskSwitchContext, if_pos hsuspended]
    exact ⟨_, rfl, rfl, rfl, fun _ => rfl, rfl, rfl, rfl, rfl, rfl, rfl, rfl, rfl, rfl, rfl, rfl,
      .inl ⟨hsuspended, rfl, rfl, rfl⟩⟩
  · have hmem : ∀ q, k.readyTasks q ≠ [] ↔ ∃ t, k.generic.container t = some (.ready q) := by
      intro q
      rw [Ne, List.eq_nil_iff_forall_not_mem, not_forall]
      exact exists_congr fun t => by rw [not_not, mem_readyTasks]
    obtain ⟨p, hp, hne, htop⟩ := highestReady_spec ((hmem _).mpr ⟨idle, h.idle⟩) fun q hq => by
      obtain ⟨t, ht⟩ := (hmem q).mp hq
      exact h.top t q ht
    obtain ⟨⟨t, xs⟩, hnext⟩ : ∃ r, (k.generic.list (.ready p)).next = some r :=
      ItemList.next_isSome hne
    have hin : k.generic.container t = some (.ready p) := by
      rw [← mem_readyTasks]
      exact ItemList.next_mem hnext
    rw [vTaskSwitchContext, if_neg hsuspended, hp]
    refine ⟨{ k with
      xYieldPending := false
      uxTopReadyPriority := p
      generic := k.generic.walk (.ready p) xs (ItemList.items_next hnext)
      pxCurrentTCB := t }, ?_, rfl, rfl, fun l => ?_, rfl, rfl, rfl, rfl, rfl, rfl, rfl, rfl, rfl,
        rfl, rfl,
      .inr ⟨not_not.mp hsuspended, rfl, hin, fun u q hu => htop q ((hmem q).mpr ⟨u, hu⟩)⟩⟩
    · change (k.generic.next (.ready p) >>= _) = _
      rw [ItemLists.next_eq_some hnext]
      rfl
    · rw [ItemLists.walk_list]
      by_cases hl : l = .ready p
      · rw [hl, Function.update_self, ItemList.items_next hnext]
      · rw [Function.update_of_ne hl]

/-- Where the running task exists after a switch -/
theorem Good.of_switched (h : k.Steady idle) (hlives : k.uxSchedulerSuspended ≠ 0 → k.CurrentLives)
    (hs : Switched k k') : k'.Good idle where
  toSteady := h.switched hs
  current := by
    rw [hs.container]
    rcases hs.choice with ⟨hsuspended, -, hcurrent, -⟩ | ⟨-, -, hcurrent, -⟩
    · rw [hcurrent]
      exact hlives hsuspended
    · exact ⟨_, hcurrent, by simp⟩

variable [DecidableEq E] {c : Clock T}

theorem Keeps.switched (h : k.Keeps c) (hs : Switched k k') : k'.Keeps c where
  tick := hs.xTickCount.trans h.tick
  overflows := hs.xNumOfOverflows.trans h.overflows
  held := hs.uxPendedTicks.trans h.held
  suspended := hs.uxSchedulerSuspended.trans h.suspended
  deadline := fun u => (deadline_congr (by rw [hs.container]) (by rw [hs.event]) (by rw [hs.value])
    hs.pxDelayedTaskList).trans (h.deadline u)

/-- A call ends with a switch. -/
theorem switch_next (h : k.Steady idle) (hlives : k.uxSchedulerSuspended ≠ 0 → k.CurrentLives)
    (hk : k.Keeps c) :
    ∃ k', k.vTaskSwitchContext = some k' ∧ k'.Good idle ∧ k'.Keeps c ∧ k'.Settled ∧
      k'.generic.container = k.generic.container ∧ k'.uxPriority = k.uxPriority := by
  obtain ⟨k', hk', hs⟩ := vTaskSwitchContext_spec h.toBase
  exact ⟨k', hk', .of_switched h hlives hs, hk.switched hs, h.toBase.settled hs, hs.container,
    hs.uxPriority⟩

end Tasks

end BitThunder
