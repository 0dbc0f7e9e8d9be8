import BitThunder.Sched.Calls

/-!
# Priorities

A ready task whose priority changes goes to the list of the new one. `vTaskPrioritySet` changes the
base priority, and the priority only of a task that has not inherited one; a task that holds a mutex
for which a task of higher priority comes inherits that one's, until it has given back all its
mutexes.

* `Requeued`: what all changes of a priority have in common;
* `prioritySet_next`, `inherit_next`: the calls;
* `giveMutex_next`: a mutex is given back. A switch may be missing then.

A change of priority is a move between ready lists if the task is ready, and otherwise only a write
to its record. The source tests for this by asking whether the item is in the list of the old
priority, which is the right question as long as a ready task is in the list of its priority; that
is part of the invariant, and the write and the move have to be seen as one.

To lower the running task asks for a switch, and not all calls do. `xTaskPriorityDisinherit` returns
whether one is needed, and the queue that gives a mutex back does not look at this if it wakes a
task that waits: it goes by the priority of that task alone.
-/

namespace BitThunder

namespace Tasks

variable {T E : Type} [DecidableEq T] {idle t : T} {k k₁ k' : Tasks T E} {q : ℕ}

/-- A task has another priority, and is not in another list yet. -/
structure Retasked (k k' : Tasks T E) (t : T) (q : ℕ) : Prop where
  generic : k'.generic = k.generic
  container : k'.event.container = k.event.container
  list : k'.event.list = k.event.list
  uxPriority : k'.uxPriority = Function.update k.uxPriority t q
  pxCurrentTCB : k'.pxCurrentTCB = k.pxCurrentTCB
  pxDelayedTaskList : k'.pxDelayedTaskList = k.pxDelayedTaskList
  uxCurrentNumberOfTasks : k'.uxCurrentNumberOfTasks = k.uxCurrentNumberOfTasks
  xTickCount : k'.xTickCount = k.xTickCount
  uxTopReadyPriority : k'.uxTopReadyPriority = k.uxTopReadyPriority
  uxPendedTicks : k'.uxPendedTicks = k.uxPendedTicks
  xYieldPending : k'.xYieldPending = k.xYieldPending
  xNumOfOverflows : k'.xNumOfOverflows = k.xNumOfOverflows
  xNextTaskUnblockTime : k'.xNextTaskUnblockTime = k.xNextTaskUnblockTime
  uxSchedulerSuspended : k'.uxSchedulerSuspended = k.uxSchedulerSuspended

/-- A task has another priority, and if it is ready it is in the list of that one. -/
structure Requeued (k k' : Tasks T E) (t : T) (q : ℕ) : Prop where
  /-- a ready task is in the list of its new priority, another one where it was -/
  self : (∃ p, k.generic.container t = some (.ready p)) ∧ k'.generic.container t = some (.ready q) ∧
      q ≤ k'.uxTopReadyPriority ∨
    (∀ p, k.generic.container t ≠ some (.ready p)) ∧ k'.generic.container t = k.generic.container t
  /-- and all others are where they were -/
  other : ∀ u, u ≠ t → k'.generic.container u = k.generic.container u
  value : k'.generic.value = k.generic.value
  /-- so that no task has come to a delayed list -/
  delayed : ∀ b, (k'.generic.list (.delayed b)).items.Sublist (k.generic.list (.delayed b)).items
  container : k'.event.container = k.event.container
  list : k'.event.list = k.event.list
  uxPriority : k'.uxPriority = Function.update k.uxPriority t q
  pxCurrentTCB : k'.pxCurrentTCB = k.pxCurrentTCB
  pxDelayedTaskList : k'.pxDelayedTaskList = k.pxDelayedTaskList
  uxCurrentNumberOfTasks : k'.uxCurrentNumberOfTasks = k.uxCurrentNumberOfTasks
  xTickCount : k'.xTickCount = k.xTickCount
  uxTopReadyPriority : k.uxTopReadyPriority ≤ k'.uxTopReadyPriority
  uxPendedTicks : k'.uxPendedTicks = k.uxPendedTicks
  xYieldPending : k'.xYieldPending = k.xYieldPending
  xNumOfOverflows : k'.xNumOfOverflows = k.xNumOfOverflows
  xNextTaskUnblockTime : k'.xNextTaskUnblockTime = k.xNextTaskUnblockTime
  uxSchedulerSuspended : k'.uxSchedulerSuspended = k.uxSchedulerSuspended

/-- A change of the priority and `requeue` -/
theorem requeue_spec (h : k.Base idle) (hr : Retasked k k₁ t q) :
    ∃ k', k₁.requeue t (k.uxPriority t) = some k' ∧ Requeued k k' t q := by
  rw [requeue]
  by_cases hready : k₁.generic.container t = some (.ready (k.uxPriority t))
  · have hready' : k.generic.container t = some (.ready (k.uxPriority t)) := hr.generic ▸ hready
    have hevent : k₁.event.container t = none := by
      rw [hr.container]
      exact h.event_none hready'
    obtain ⟨k', hk', hm, honly, htop⟩ := ready_spec hready hevent
    have hq : k₁.uxPriority t = q := by
      rw [hr.uxPriority, Function.update_self]
    rw [hq] at hm htop
    rw [if_pos hready]
    refine ⟨k', hk', .inl ⟨⟨_, hready'⟩, ?_, htop ▸ le_max_right _ _⟩, fun u hu => ?_, ?_,
      fun b => ?_, ?_, ?_, hm.uxPriority.trans hr.uxPriority, hm.pxCurrentTCB.trans hr.pxCurrentTCB,
      hm.pxDelayedTaskList.trans hr.pxDelayedTaskList,
      hm.uxCurrentNumberOfTasks.trans hr.uxCurrentNumberOfTasks,
      hm.xTickCount.trans hr.xTickCount, ?_, hm.uxPendedTicks.trans hr.uxPendedTicks,
      honly.xYieldPending.trans hr.xYieldPending, hm.xNumOfOverflows.trans hr.xNumOfOverflows,
      honly.xNextTaskUnblockTime.trans hr.xNextTaskUnblockTime,
      hm.uxSchedulerSuspended.trans hr.uxSchedulerSuspended⟩
    · rw [hm.container, Function.update_self]
    · rw [hm.container, Function.update_of_ne hu, hr.generic]
    · rw [hm.value, hr.generic]
    · rw [← hr.generic]
      exact hm.delayed b (by simp)
    · rw [honly.event, hr.container]
    · rw [honly.event, hr.list]
    · rw [htop, hr.uxTopReadyPriority]
      exact le_max_left _ _
  · rw [if_neg hready]
    refine ⟨k₁, rfl,
      .inr ⟨fun p hp => hready ?_, by rw [hr.generic]⟩, fun u _ => by rw [hr.generic], by
      rw [hr.generic], fun b => by
        rw [hr.generic], hr.container, hr.list, hr.uxPriority, hr.pxCurrentTCB,
        hr.pxDelayedTaskList,
      hr.uxCurrentNumberOfTasks, hr.xTickCount, hr.uxTopReadyPriority.ge, hr.uxPendedTicks,
      hr.xYieldPending,
      hr.xNumOfOverflows, hr.xNextTaskUnblockTime, hr.uxSchedulerSuspended⟩
    rw [hr.generic, hp, h.ready t p hp]

/-! ## The invariant

A task that was ready is in the list of its new priority, and the noted highest priority has been
raised with it. Another task is where it was, with a priority that only matters when it becomes
ready. -/

/-- A task that is in another list than one of ready tasks is where it was. -/
theorem Requeued.container_of_not_ready (hr : Requeued k k' t q) {u : T} {l : GenericList}
    (hl : ∀ p, l ≠ .ready p) :
    k'.generic.container u = some l ↔ k.generic.container u = some l := by
  by_cases hu : u = t
  · subst hu
    rcases hr.self with ⟨⟨p, hp⟩, hq, -⟩ | ⟨-, hsame⟩
    · rw [hq, hp]
      exact iff_of_false (fun he => hl q (Option.some.inj he).symm) fun he => hl p
        (Option.some.inj he).symm
    · rw [hsame]
  · rw [hr.other u hu]

/-- A task that was moved to the ready list of its new priority keeps the lists as they should be.
-/
theorem Steady.requeued (h : k.Steady idle) (hr : Requeued k k' t q) : k'.Steady idle where
  ready := by
    intro u p hu
    rw [hr.uxPriority]
    by_cases hut : u = t
    · subst hut
      rw [Function.update_self]
      rcases hr.self with ⟨-, hq, -⟩ | ⟨hnot, hsame⟩
      · rw [hq] at hu
        exact GenericList.ready.inj (Option.some.inj hu)
      · exact absurd (hsame ▸ hu) (hnot p)
    · rw [Function.update_of_ne hut]
      exact h.ready u p (hr.other u hut ▸ hu)
  top := by
    intro u p hu
    by_cases hut : u = t
    · subst hut
      rcases hr.self with ⟨-, hq, hle⟩ | ⟨hnot, hsame⟩
      · rw [hq] at hu
        rw [← GenericList.ready.inj (Option.some.inj hu)]
        exact hle
      · exact absurd (hsame ▸ hu) (hnot p)
    · exact (h.top u p (hr.other u hut ▸ hu)).trans hr.uxTopReadyPriority
  idle := by
    rw [hr.uxPriority]
    by_cases ht : idle = t
    · subst ht
      rw [Function.update_self]
      rcases hr.self with ⟨-, hq, -⟩ | ⟨hnot, -⟩
      · exact hq
      · exact absurd h.idle (hnot _)
    · rw [Function.update_of_ne ht, hr.other idle ht]
      exact h.idle
  blocked := by
    intro u l hu
    rw [hr.container] at hu
    rcases h.blocked u l hu with hs | ⟨b, hb⟩
    · exact .inl ((hr.container_of_not_ready (by simp)).mpr hs)
    · exact .inr ⟨b, (hr.container_of_not_ready (by simp)).mpr hb⟩
  sorted := by
    intro b
    rw [hr.value]
    exact (h.sorted b).sublist (hr.delayed b)
  wrapped := by
    intro u hu
    rw [hr.pxDelayedTaskList] at hu
    rw [hr.value, hr.xTickCount]
    exact h.wrapped u ((hr.container_of_not_ready (by simp)).mp hu)
  later := by
    intro u hu
    rw [hr.pxDelayedTaskList] at hu
    rw [hr.value, hr.xTickCount]
    exact h.later u ((hr.container_of_not_ready (by simp)).mp hu)
  next := by
    intro u hu
    rw [hr.pxDelayedTaskList] at hu
    rw [hr.value, hr.xNextTaskUnblockTime]
    exact h.next u ((hr.container_of_not_ready (by simp)).mp hu)
  tasks := by
    rw [hr.uxCurrentNumberOfTasks]
    exact h.tasks
  pending := by
    rw [hr.uxSchedulerSuspended, hr.list]
    exact h.pending
  ticks := by
    rw [hr.uxSchedulerSuspended, hr.uxPendedTicks]
    exact h.ticks

/-- A change of its priority does not end the running task. -/
theorem CurrentLives.requeued (h : k.CurrentLives) (hr : Requeued k k' t q) : k'.CurrentLives := by
  obtain ⟨l, hl, hne⟩ := h
  rw [CurrentLives, hr.pxCurrentTCB]
  by_cases ht : k.pxCurrentTCB = t
  · rcases hr.self with ⟨-, hq, -⟩ | ⟨-, hsame⟩
    · exact ⟨_, ht ▸ hq, by simp⟩
    · exact ⟨l, by rw [ht, hsame, ← ht, hl], hne⟩
  · exact ⟨l, (hr.other _ ht).trans hl, hne⟩

/-- The running task is not lowered, and another task is not raised above it. -/
theorem Settled.requeued (h : k.Settled) (hr : Requeued k k' t q)
    (hself : t = k.pxCurrentTCB → k.uxPriority t ≤ q) (hother : t ≠ k.pxCurrentTCB →
      ∀ p, k.generic.container t = some (.ready p) → p ≤ k.uxPriority k.pxCurrentTCB →
        q ≤ k.uxPriority k.pxCurrentTCB) :
    k'.Settled := by
  refine h.imp (fun hyield => hr.xYieldPending.trans hyield) fun htop u p hu => ?_
  rw [hr.uxPriority, hr.pxCurrentTCB]
  have hcurrent : k.uxPriority k.pxCurrentTCB ≤
      Function.update k.uxPriority t q k.pxCurrentTCB := by
    by_cases ht : k.pxCurrentTCB = t
    · rw [ht, Function.update_self]
      exact hself ht.symm
    · rw [Function.update_of_ne ht]
  by_cases hut : u = t
  · subst hut
    rcases hr.self with ⟨⟨p', hready⟩, hq, -⟩ | ⟨hnot, hsame⟩
    · rw [hq] at hu
      rw [← GenericList.ready.inj (Option.some.inj hu)]
      by_cases hself' : u = k.pxCurrentTCB
      · rw [← hself', Function.update_self]
      · exact (hother hself' p' hready (htop u p' hready)).trans hcurrent
    · exact absurd (hsame ▸ hu) (hnot p)
  · exact (htop u p (hr.other u hut ▸ hu)).trans hcurrent

/-! ## The functions

Three functions change a priority. They differ in whose it is, in which of the two priorities, and
in when they ask for a switch. -/

/-- The event item is reset without a change of its list. -/
theorem Retasked.resetEventValue (h : Retasked k k₁ t q) (u : T) (p : ℕ) :
    Retasked k (k₁.resetEventValue u p) t q := by
  unfold Tasks.resetEventValue
  split_ifs
  · exact ⟨h.1, h.2, h.3, h.4, h.5, h.6, h.7, h.8, h.9, h.10, h.11, h.12, h.13, h.14⟩
  · exact h

/-- The priority that a task has after `vTaskPrioritySet` -/
def priorityAfterSet (k : Tasks T E) (t : T) (uxNewPriority : ℕ) : ℕ :=
  if k.uxBasePriority t = k.uxPriority t then uxNewPriority else k.uxPriority t

/-- What `vTaskPrioritySet` does for another priority than the task has: the task goes to the ready
list of it, if it was ready, and a switch follows if one is required. -/
theorem vTaskPrioritySet_spec {uxNewPriority : ℕ} (h : k.Base idle)
    (hpriority : uxNewPriority < configMaxPriorities)
    (hchange : k.uxBasePriority t ≠ uxNewPriority) :
    ∃ k', Requeued k k' t (k.priorityAfterSet t uxNewPriority) ∧
      k.vTaskPrioritySet t uxNewPriority = switchIf (k.yieldRequired t uxNewPriority) k' := by
  have hupdate : (if k.uxBasePriority t = k.uxPriority t
      then Function.update k.uxPriority t uxNewPriority
      else k.uxPriority) = Function.update k.uxPriority t (k.priorityAfterSet t uxNewPriority) := by
    rw [priorityAfterSet]
    split_ifs
    · rfl
    · rw [Function.update_eq_self]
  have hretasked : Retasked k { k with
      uxPriority :=
        if k.uxBasePriority t = k.uxPriority t then Function.update k.uxPriority t uxNewPriority
          else k.uxPriority
      uxBasePriority := Function.update k.uxBasePriority t uxNewPriority } t
        (k.priorityAfterSet t uxNewPriority) :=
    ⟨rfl, rfl, rfl, hupdate, rfl, rfl, rfl, rfl, rfl, rfl, rfl, rfl, rfl, rfl⟩
  obtain ⟨k', hk', hr⟩ := requeue_spec h (hretasked.resetEventValue t uxNewPriority)
  refine ⟨k', hr, ?_⟩
  rw [vTaskPrioritySet, if_pos hpriority, if_pos hchange]
  exact congrArg (· >>= _) hk'

/-- A ready task that is taken out of its list, gets another priority and is put into the list of
that one, is requeued. -/
theorem requeue_eq {f : Tasks T E → Tasks T E}
    (hf : ∀ k : Tasks T E, ∀ s, f { k with generic := s } = { f k with generic := s })
    (hgeneric : (f k).generic = k.generic)
      (hready : k.generic.container t = some (.ready (k.uxPriority t))) :
    (do
        let k ← k.removeGeneric t
        (f k).prvAddTaskToReadyList t) = (f k).requeue t (k.uxPriority t) := by
  have hready' : (f k).generic.container t = some (.ready (k.uxPriority t)) := by
    rw [hgeneric]
    exact hready
  rw [requeue, if_pos hready', removeGeneric, removeGeneric, hgeneric,
    ItemLists.remove_eq_some hready]
  change (f { k with generic := _ }).prvAddTaskToReadyList t = _
  rw [hf]
  rfl

/-- A mutex holder of lower priority gets the priority of the running task. -/
theorem vTaskPriorityInherit_spec (h : k.Base idle)
    (hlower : k.uxPriority t < k.uxPriority k.pxCurrentTCB) :
    ∃ k', Requeued k k' t (k.uxPriority k.pxCurrentTCB) ∧ k.vTaskPriorityInherit t = some k' := by
  obtain ⟨q, hq⟩ : ∃ q, q = k.uxPriority k.pxCurrentTCB := ⟨_, rfl⟩
  obtain ⟨k₁, hk₁⟩ : ∃ k₁, k₁ = k.resetEventValue t q := ⟨_, rfl⟩
  have hsame : Retasked k k₁ t (k.uxPriority t) := by
    have hrefl : Retasked k k t (k.uxPriority t) :=
      ⟨rfl, rfl, rfl, (Function.update_eq_self t _).symm, rfl, rfl, rfl, rfl, rfl, rfl, rfl, rfl,
      rfl, rfl⟩
    rw [hk₁]
    exact hrefl.resetEventValue t q
  have hpriority : k₁.uxPriority = k.uxPriority := by
    rw [hsame.uxPriority, Function.update_eq_self]
  have hretasked : Retasked k { k₁ with uxPriority := Function.update k₁.uxPriority t q } t q := by
    rw [hpriority]
    exact ⟨hsame.1, hsame.2, hsame.3, rfl, hsame.5, hsame.6, hsame.7, hsame.8, hsame.9, hsame.10,
      hsame.11, hsame.12, hsame.13, hsame.14⟩
  obtain ⟨k', hk', hr⟩ := requeue_spec h hretasked
  refine ⟨k', hq ▸ hr, ?_⟩
  rw [vTaskPriorityInherit]
  simp only [if_pos hlower]
  rw [← hq, ← hk₁, ← hpriority] at *
  split_ifs with hready
  · have heq := requeue_eq (k := k₁) (t := t)
      (f := fun k : Tasks T E => { k with uxPriority := Function.update k.uxPriority t q })
        (fun _ _ => rfl) rfl hready
    exact heq.trans hk'
  · rw [requeue, if_neg hready] at hk'
    exact hk'

/-- The running task gives back its last mutex, and has the priority of another one. -/
def lowers (k : Tasks T E) : Bool :=
  decide (k.uxPriority k.pxCurrentTCB ≠ k.uxBasePriority k.pxCurrentTCB) && decide
    (k.uxMutexesHeld k.pxCurrentTCB = 1)

/-- The running task gives back a mutex that it holds. -/
theorem xTaskPriorityDisinherit_spec (h : k.Base idle) (ht : t = k.pxCurrentTCB)
    (hready : k.generic.container t = some (.ready (k.uxPriority t)))
    (hheld : k.uxMutexesHeld t ≠ 0) :
    ∃ k' q, k.xTaskPriorityDisinherit t = some (k.lowers, k') ∧ Requeued k k' t q ∧
      (k.lowers = false → q = k.uxPriority t) := by
  obtain ⟨k₁, hk₁⟩ : ∃ k₁ : Tasks T E,
      k₁ = { k with uxMutexesHeld := Function.update k.uxMutexesHeld t (k.uxMutexesHeld t - 1) } :=
      ⟨_, rfl⟩
  have hlowers : k.lowers = true ↔ k.uxPriority t ≠ k.uxBasePriority t ∧
      Function.update k.uxMutexesHeld t (k.uxMutexesHeld t - 1) t = 0 := by
    rw [lowers, Bool.and_eq_true, decide_eq_true_iff, decide_eq_true_iff, ← ht,
      Function.update_self]
    refine and_congr_right fun _ => ⟨fun hone => by rw [hone], fun hzero => ?_⟩
    omega
  have hcond : t = k.pxCurrentTCB ∧ k.uxMutexesHeld t ≠ 0 := ⟨ht, hheld⟩
  unfold xTaskPriorityDisinherit
  simp only [if_pos hcond]
  rw [← hk₁]
  by_cases hlower : k.uxPriority t ≠ k.uxBasePriority t ∧
      Function.update k.uxMutexesHeld t (k.uxMutexesHeld t - 1) t = 0
  · obtain ⟨f, hf⟩ : ∃ f : Tasks T E → Tasks T E, f = fun k₂ => { k₂ with
      uxPriority := Function.update k₂.uxPriority t (k₂.uxBasePriority t)
      event :=
        k₂.event.setValue t (BitVec.ofNat 32 configMaxPriorities - BitVec.ofNat 32
        (k₂.uxBasePriority t)) } :=
      ⟨_, rfl⟩
    have hretasked : Retasked k (f k₁) t (k.uxBasePriority t) := by
      rw [hf, hk₁]
      exact ⟨rfl, rfl, rfl, rfl, rfl, rfl, rfl, rfl, rfl, rfl, rfl, rfl, rfl, rfl⟩
    have hready₁ : k₁.generic.container t = some (.ready (k₁.uxPriority t)) := by
      rw [hk₁]
      exact hready
    have hsame : k₁.uxPriority t = k.uxPriority t := by rw [hk₁]
    obtain ⟨k', hk', hr⟩ := requeue_spec h hretasked
    have heq := requeue_eq (f := f) (k := k₁) (t := t)
      (by rw [hf]; exact fun _ _ => rfl) (by rw [hf]) hready₁
    rw [hsame, hk'] at heq
    obtain ⟨k₂, h₂, h₃⟩ := Option.bind_eq_some_iff.mp heq
    refine ⟨k', k.uxBasePriority t, ?_, hr, fun hfalse => ?_⟩
    · rw [if_pos hlower, hlowers.mpr hlower, h₂]
      rw [hf] at h₃
      exact congrArg (· >>= _) h₃
    · rw [hlowers.mpr hlower] at hfalse
      cases hfalse
  · have hfalse : k.lowers = false := Bool.eq_false_iff.mpr fun htrue => hlower (hlowers.mp htrue)
    rw [if_neg hlower, hfalse]
    refine ⟨k₁, k.uxPriority t, rfl, ?_, fun _ => rfl⟩
    rw [hk₁]
    exact ⟨.inl ⟨⟨_, hready⟩, hready, h.top _ _ hready⟩, fun _ _ => rfl, rfl, fun _ => .refl _, rfl,
      rfl, (Function.update_eq_self t _).symm, rfl, rfl, rfl, rfl, le_rfl, rfl, rfl, rfl, rfl, rfl⟩

variable [DecidableEq E] {c : Clock T}

/-- A change of priority does not change any deadline. -/
theorem Keeps.requeued (hk : k.Keeps c) (hr : Requeued k k' t q) : k'.Keeps c where
  tick := hr.xTickCount.trans hk.tick
  overflows := hr.xNumOfOverflows.trans hk.overflows
  held := hr.uxPendedTicks.trans hk.held
  suspended := hr.uxSchedulerSuspended.trans hk.suspended
  deadline := by
    intro u
    rw [← hk.deadline u]
    by_cases hut : u = t
    · subst hut
      rcases hr.self with ⟨⟨p, hp⟩, hq, -⟩ | ⟨-, hsame⟩
      · rw [deadline_none fun b hb => ?_, deadline_none fun b hb => ?_]
        · rw [hp] at hb
          cases hb
        · rw [hq] at hb
          cases hb
      · exact deadline_congr hsame (by rw [hr.container]) (by rw [hr.value]) hr.pxDelayedTaskList
    · exact deadline_congr (hr.other u hut)
        (by rw [hr.container]) (by rw [hr.value]) hr.pxDelayedTaskList

/-! ## The calls

A change of priority takes no time, so that the clock stands still; what is left is to see whether a
switch follows where one is needed. -/

/-- `vTaskPrioritySet` -/
theorem prioritySet_next {uxNewPriority : ℕ} (t : T) (h : k.Good idle) (hk : k.Keeps c)
    (hpriority : uxNewPriority < configMaxPriorities) :
    ∃ k', k.step (.prioritySet t uxNewPriority) = some k' ∧ k'.Good idle ∧ k'.Keeps c ∧
    (k.Settled → k'.Settled) := by
  rw [step]
  by_cases hchange : k.uxBasePriority t ≠ uxNewPriority
  · obtain ⟨k₁, hr, heq⟩ := vTaskPrioritySet_spec h.toBase hpriority hchange
    obtain ⟨k', hk', hgood, hkeeps, hset⟩ := switchIf_next (b := k.yieldRequired t uxNewPriority)
      (h.toSteady.requeued hr) (CurrentLives.requeued h.current hr) (hk.requeued hr)
    refine ⟨k', heq.trans hk', hgood, hkeeps, fun hs => hset ?_⟩
    by_cases hyield : k.yieldRequired t uxNewPriority = true
    · exact .inl hyield
    · refine .inr (hs.requeued hr (fun hself => ?_) fun hother p hready hle => ?_)
      · -- the running task is not lowered without a switch
        rw [priorityAfterSet]
        split_ifs with hbase
        · rw [← hbase]
          refine (not_le.mp fun hle => hyield ?_).le
          rw [yieldRequired, if_neg (not_lt.mpr hle)]
          exact decide_eq_true hself
        · exact le_rfl
      · -- another task is not raised to the running one without a switch
        obtain rfl := h.ready t p hready
        rw [priorityAfterSet]
        split_ifs with hbase
        · by_cases hraise : uxNewPriority > k.uxBasePriority t
          · refine (not_le.mp fun hge => hyield ?_).le
            rw [yieldRequired, if_pos hraise, decide_eq_true hother, decide_eq_true hge]
            rfl
          · exact (not_lt.mp hraise).trans (hbase ▸ hle)
        · exact hle
  · refine ⟨k, ?_, h, hk, id⟩
    rw [vTaskPrioritySet, if_pos hpriority, if_neg hchange]

/-- `vTaskPriorityInherit` -/
theorem inherit_next (t : T) (h : k.Good idle) (hk : k.Keeps c) :
    ∃ k', k.step (.inherit t) = some k' ∧ k'.Good idle ∧ k'.Keeps c ∧ (k.Settled → k'.Settled) := by
  by_cases hlower : k.uxPriority t < k.uxPriority k.pxCurrentTCB
  · obtain ⟨k', hr, hk'⟩ := vTaskPriorityInherit_spec h.toBase hlower
    refine ⟨k', hk', ⟨h.toSteady.requeued hr, CurrentLives.requeued h.current hr⟩, hk.requeued hr,
      fun hs =>
      hs.requeued hr (fun hself => ?_) fun _ _ _ _ => le_rfl⟩
    exact hlower.le
  · refine ⟨k, ?_, h, hk, id⟩
    rw [step, vTaskPriorityInherit, if_neg hlower]

/-- What the clock does when the first task that waits for an event is woken -/
def wakeClock (k : Tasks T E) (c : Clock T) (e : E) : Clock T :=
  (k.event.list (.event e)).items.head?.elim c c.clear

/-- A mutex is given back. If somebody waits for it, then only he decides if there is a switch: the
one that the running task needs because it is lowered is forgotten. -/
theorem giveMutex_next {e : E} (h : k.Good idle) (hk : k.Keeps c) (hrunning : k.Running)
    (hheld : k.uxMutexesHeld k.pxCurrentTCB ≠ 0) :
    ∃ k', k.step (.giveMutex e) = some k' ∧ k'.Good idle ∧ k'.Keeps (k.wakeClock c e) ∧
      (k.lowers = false ∨ (k.event.list (.event e)).items = [] → k.Settled → k'.Settled) := by
  obtain ⟨p, hready⟩ := hrunning
  obtain rfl := h.ready _ p hready
  obtain ⟨k₁, q, h₁, hr, hq⟩ := xTaskPriorityDisinherit_spec h.toBase rfl hready hheld
  have hgood : k₁.Good idle := ⟨h.toSteady.requeued hr, CurrentLives.requeued h.current hr⟩
  have hkeeps := hk.requeued hr
  have hset : k.lowers = false → k.Settled → k₁.Settled := by
    intro hlowers hs
    have hsame := hq hlowers
    exact hs.requeued hr (fun _ => hsame.ge) fun hne => absurd rfl hne
  rw [step, giveMutex, h₁]
  change ∃ k', (if (k₁.event.list (.event e)).items ≠ [] then _ else _) = some k' ∧ _
  rw [hr.list, wakeClock]
  cases hlist : (k.event.list (.event e)).items with
  | nil =>
    obtain ⟨k', hk', hgood', hkeeps', hset'⟩ :=
      switchIf_next (b := k.lowers) hgood.toSteady hgood.current hkeeps
    rw [if_neg (not_not.mpr rfl)]
    refine ⟨k', hk', hgood', hkeeps', fun _ hs => hset' ?_⟩
    cases hlowers : k.lowers with
    | true => exact .inl rfl
    | false => exact .inr (hset hlowers hs)
  | cons t rest =>
    rw [← hr.list] at hlist
    obtain ⟨higher, k₂, h₂, hsteady, hlives, hkeeps₂, hset₂⟩ :=
      xTaskRemoveFromEventList_spec hgood hkeeps hlist
    obtain ⟨k', hk', hgood', hkeeps', hset'⟩ := switchIf_next (b := higher) hsteady hlives hkeeps₂
    rw [if_pos (List.cons_ne_nil t rest), h₂]
    refine ⟨k', hk', hgood', hkeeps', fun hcond hs => hset' ?_⟩
    have hlowers := hcond.resolve_right (List.cons_ne_nil t rest)
    exact .inr (hset₂ (.inr (hset hlowers hs)))

/-- `xTaskGenericCreate` -/
theorem create_next {uxPriority : ℕ} (h : k.Good idle) (hk : k.Keeps c)
    (hgeneric : k.generic.container t = none) (hevent : k.event.container t = none)
    (hpriority : uxPriority < configMaxPriorities) :
    ∃ k', k.step (.create t uxPriority) = some k' ∧ k'.Good idle ∧ k'.Keeps c ∧
    (k.Settled → k'.Settled) := by
  have hne : ∀ u l, k.generic.container u = some l → u ≠ t := by
    rintro u l hu rfl
    rw [hgeneric] at hu
    cases hu
  obtain ⟨l, hlives, hl⟩ := h.current
  have hcurrent := hne _ l hlives
  obtain ⟨k₁, hk₁⟩ : ∃ k₁ : Tasks T E, k₁ = { k with
      uxPriority := Function.update k.uxPriority t uxPriority
      uxBasePriority := Function.update k.uxBasePriority t uxPriority
      uxMutexesHeld := Function.update k.uxMutexesHeld t 0
      event := k.event.setValue t (BitVec.ofNat 32 configMaxPriorities - BitVec.ofNat 32 uxPriority)
      uxCurrentNumberOfTasks := k.uxCurrentNumberOfTasks + 1 } := ⟨_, rfl⟩
  have hsteady : k₁.Steady idle := by
    rw [hk₁]
    refine ⟨⟨fun u p hu => ?_, h.top, ?_, h.blocked, h.sorted, h.wrapped⟩, ⟨h.later, h.next⟩,
      Nat.succ_pos _, h.pending, h.ticks⟩
    · change Function.update k.uxPriority t uxPriority u = p
      rw [Function.update_of_ne (hne u _ hu)]
      exact h.ready u p hu
    · change k.generic.container idle =
          some (.ready (Function.update k.uxPriority t uxPriority idle))
      rw [Function.update_of_ne (hne idle _ h.idle)]
      exact h.idle
  have hkeeps : k₁.Keeps c := by
    rw [hk₁]
    exact ⟨hk.tick, hk.overflows, hk.held, hk.suspended, hk.deadline⟩
  have hset : k.Settled → k₁.Settled := by
    intro hs
    rw [hk₁]
    refine hs.imp id fun htop u p hu => ?_
    change p ≤ Function.update k.uxPriority t uxPriority k.pxCurrentTCB
    rw [Function.update_of_ne hcurrent]
    exact htop u p hu
  have hgeneric₁ : k₁.generic.container t = none := by
    rw [hk₁]
    exact hgeneric
  have hevent₁ : k₁.event.container t = none := by
    rw [hk₁]
    exact hevent
  have hclock : c.clear t = c := by
    refine Clock.clear_of_none ?_
    rw [← hkeeps.deadline]
    refine deadline_none fun b hb => ?_
    rw [hgeneric₁] at hb
    cases hb
  have hlives₁ : k₁.CurrentLives := by
    rw [hk₁]
    exact h.current
  obtain ⟨k₂, h₂, hm, honly, htop⟩ := added_spec hgeneric₁ hevent₁
  have hkeeps₂ := hkeeps.moved hm (by simp)
  rw [hclock] at hkeeps₂
  obtain ⟨k', hk', hgood, hkeeps', hset'⟩ :=
    switchIf_next (b := decide (k₂.uxPriority k₂.pxCurrentTCB < uxPriority))
      (hsteady.ready_moved hm htop honly.xNextTaskUnblockTime) (hlives₁.moved hm (by simp)) hkeeps₂
  refine ⟨k', ?_, hgood, hkeeps', fun hs => hset' ?_⟩
  · rw [step, xTaskGenericCreate, if_pos hpriority]
    rw [hk₁] at h₂
    refine (congrArg (· >>= _) h₂).trans ?_
    change (if k₂.uxPriority k₂.pxCurrentTCB < uxPriority then k₂.vTaskSwitchContext else some k₂) =
        some k'
    rw [switchIf] at hk'
    simpa only [decide_eq_true_iff] using hk'
  · by_cases hlow : k₂.uxPriority k₂.pxCurrentTCB < uxPriority
    · exact .inl (decide_eq_true hlow)
    · refine .inr ((hset hs).ready_moved hm (fun hp => honly.xYieldPending.trans hp) (.inr ?_))
      have hq : k₁.uxPriority t = uxPriority := by
        rw [hk₁]
        change Function.update k.uxPriority t uxPriority t = uxPriority
        rw [Function.update_self]
      rw [hm.uxPriority, hm.pxCurrentTCB] at hlow
      rw [hq]
      exact not_lt.mp hlow

end Tasks

end BitThunder
