import BitThunder.Sched.Block

/-!
# Waking, suspending and deleting

The calls that move another task than the running one, and those after which the running task is
gone.

* `removeFromEventList_next`: the first task that waits for an event, also while the scheduler is
  suspended;
* `retire_next`: `vTaskSuspend` and `vTaskDelete`;
* `resume_next`, `resumeFromISR_next`: `vTaskResume` and `xTaskResumeFromISR`.

While the scheduler is suspended a task whose event has come cannot be made ready, because the ready
lists may be looked at. It stays in its list of delayed tasks, and only its event item moves. For
the clock it is awake from then on: a tick could find it in the delayed list, but no tick is counted
before the pending list has been emptied.

A task that is suspended or deleted leaves two lists. If it is the running one the call ends with a
switch, and the assertion that the scheduler is not suspended is about this case alone.
-/

namespace BitThunder

namespace Tasks

variable {T E : Type} {idle t : T} {k k' : Tasks T E}

/-! ## The end of a call

A call that has done its work may have to switch, and there is no more to it. -/

theorem Steady.yielding (h : k.Steady idle) :
    ({ k with xYieldPending := true } : Tasks T E).Steady idle :=
  ⟨⟨h.ready, h.top, h.idle, h.blocked, h.sorted, h.wrapped⟩, ⟨h.later, h.next⟩, h.tasks, h.pending,
  h.ticks⟩

section Ends

variable [DecidableEq E] {c : Clock T}

theorem Keeps.yielding (hk : k.Keeps c) : ({ k with xYieldPending := true } : Tasks T E).Keeps c :=
  ⟨hk.tick, hk.overflows, hk.held, hk.suspended, hk.deadline⟩

/-- A call ends with a switch if it is asked for. -/
theorem switchIf_next {b : Bool} (h : k.Steady idle) (hlives : k.CurrentLives) (hk : k.Keeps c) :
    ∃ k', switchIf b k = some k' ∧ k'.Good idle ∧ k'.Keeps c ∧
    (b = true ∨ k.Settled → k'.Settled) := by
  cases b with
  | true =>
    obtain ⟨k', hk', hgood, hkeeps, hsettled, -⟩ := switch_next h (fun _ => hlives) hk
    exact ⟨k', hk', hgood, hkeeps, fun _ => hsettled⟩
  | false => exact ⟨k, rfl, ⟨h, hlives⟩, hk, fun hs => hs.resolve_left Bool.false_ne_true⟩

end Ends

/-! ## Events

With the scheduler running the task becomes ready at once. With the scheduler suspended only the
event item moves, and the rest is left to `xTaskResumeAll`. -/

variable [DecidableEq T]

/-- A task that waits has its event item in `xPendingReadyList` now. -/
structure Pended (k k' : Tasks T E) (t : T) : Prop extends Kept k k' where
  /-- nothing happens to its place among the tasks -/
  generic : k'.generic = k.generic
  /-- its event item is in the pending list -/
  container : k'.event.container = Function.update k.event.container t (some .pendingReady)
  uxTopReadyPriority : k'.uxTopReadyPriority = k.uxTopReadyPriority
  xYieldPending : k'.xYieldPending = k.xYieldPending
  xNextTaskUnblockTime : k'.xNextTaskUnblockTime = k.xNextTaskUnblockTime

/-- While the scheduler is suspended a waiting task is only put to the pending list, so that its
place in the delayed list is still the one its value says. -/
theorem Steady.pended (h : k.Steady idle) (hp : Pended k k' t)
    (hsuspended : k.uxSchedulerSuspended ≠ 0) (hwaits : k.generic.container t = some .suspended ∨
      ∃ b, k.generic.container t = some (.delayed b)) :
    k'.Steady idle where
  ready := by
    rw [hp.generic, hp.uxPriority]
    exact h.ready
  top := by
    rw [hp.generic, hp.uxTopReadyPriority]
    exact h.top
  idle := by
    rw [hp.generic, hp.uxPriority]
    exact h.idle
  blocked := by
    intro u l hu
    rw [hp.container] at hu
    rw [hp.generic]
    by_cases hut : u = t
    · rw [hut]
      exact hwaits
    · rw [Function.update_of_ne hut] at hu
      exact h.blocked u l hu
  sorted := by
    rw [hp.generic]
    exact h.sorted
  wrapped := by
    rw [hp.generic, hp.pxDelayedTaskList, hp.xTickCount]
    exact h.wrapped
  later := by
    rw [hp.generic, hp.pxDelayedTaskList, hp.xTickCount]
    exact h.later
  next := by
    rw [hp.generic, hp.pxDelayedTaskList, hp.xNextTaskUnblockTime]
    exact h.next
  tasks := by
    rw [hp.uxCurrentNumberOfTasks]
    exact h.tasks
  pending := by
    rw [hp.uxSchedulerSuspended]
    exact fun hzero => absurd hzero hsuspended
  ticks := by
    rw [hp.uxSchedulerSuspended]
    exact fun hzero => absurd hzero hsuspended

/-- The running task still exists when a task is made pending. -/
theorem CurrentLives.pended (h : k.CurrentLives) (hp : Pended k k' t) : k'.CurrentLives := by
  rw [CurrentLives, hp.generic, hp.pxCurrentTCB]
  exact h

/-- A pending task is in no ready list yet, and above nobody. -/
theorem Settled.pended (h : k.Settled) (hp : Pended k k' t) : k'.Settled := by
  rw [Settled, hp.generic, hp.uxPriority, hp.pxCurrentTCB, hp.xYieldPending]
  exact h

variable [DecidableEq E] {c : Clock T}

/-- A tick does not wake the task any more. -/
theorem Keeps.pended (hk : k.Keeps c) (hp : Pended k k' t) : k'.Keeps (c.clear t) where
  tick := hp.xTickCount.trans hk.tick
  overflows := hp.xNumOfOverflows.trans hk.overflows
  held := hp.uxPendedTicks.trans hk.held
  suspended := hp.uxSchedulerSuspended.trans hk.suspended
  deadline := by
    intro u
    change k'.deadline c.now u = Function.update c.deadline t none u
    by_cases hut : u = t
    · rw [hut, Function.update_self]
      refine deadline_pending ?_
      rw [hp.container, Function.update_self]
    · rw [Function.update_of_ne hut, ← hk.deadline u]
      refine deadline_congr (by rw [hp.generic]) ?_ (by rw [hp.generic]) hp.pxDelayedTaskList
      rw [hp.container, Function.update_of_ne hut]

/-- What is done for a task that is woken while the scheduler is suspended. -/
theorem pended_spec (hfree : k.event.container t = none) :
    ∃ s, k.event.insertEnd .pendingReady t = some s ∧ Pended k { k with event := s } t :=
  ⟨_, ItemLists.insertEnd_eq_some hfree, ⟨rfl, rfl, rfl, rfl, rfl, rfl, rfl, rfl, rfl, rfl⟩, rfl,
  rfl, rfl, rfl, rfl⟩

/-- A task whose event has come is ready, or it is put off until the scheduler is resumed. -/
theorem readyOrPending_spec {e : EventList E} (h : k.Good idle) (hk : k.Keeps c)
    (hevent : k.event.container t = some e) :
    ∃ k₁ k', k.removeEvent t = some k₁ ∧ k₁.readyOrPending t = some k' ∧ Kept k k' ∧
      k'.Steady idle ∧
      k'.CurrentLives ∧ k'.Keeps (c.clear t) ∧
      (k.uxPriority t ≤ k.uxPriority k.pxCurrentTCB → k.Settled → k'.Settled) := by
  have hwaits := h.blocked t e hevent
  by_cases hzero : k.uxSchedulerSuspended = 0
  · obtain ⟨l, hin⟩ : ∃ l, k.generic.container t = some l :=
      hwaits.elim (fun hl => ⟨_, hl⟩) fun ⟨b, hb⟩ => ⟨_, hb⟩
    obtain ⟨k₁, k', h₁, h₂, honly, hmoved, htop, hyield, hnext, -⟩ := event_spec hin hevent
    refine ⟨k₁, k', h₁, ?_, hmoved.toKept, h.toSteady.ready_moved hmoved htop hnext,
      CurrentLives.moved h.current hmoved (by simp), hk.moved hmoved (by simp), fun hle hs =>
        hs.ready_moved hmoved (fun hp => hyield.trans hp) (.inr hle)⟩
    rw [readyOrPending, if_pos (honly.uxSchedulerSuspended.trans hzero)]
    exact h₂
  · obtain ⟨k₁, h₁, honly, hevent₁⟩ := removeEvent_spec hevent
    have hfree : k₁.event.container t = none := by
      rw [hevent₁, ItemLists.drop_container, Function.update_self]
    obtain ⟨s, hs, hp₁⟩ := pended_spec hfree
    have hp : Pended k { k₁ with event := s } t := by
      refine ⟨honly.toKept.trans hp₁.toKept, hp₁.generic.trans honly.generic, ?_,
        hp₁.uxTopReadyPriority.trans honly.uxTopReadyPriority,
        hp₁.xYieldPending.trans honly.xYieldPending,
        hp₁.xNextTaskUnblockTime.trans honly.xNextTaskUnblockTime⟩
      rw [hp₁.container, hevent₁, ItemLists.drop_container, Function.update_idem]
    refine ⟨k₁, _, h₁, ?_, hp.toKept, h.toSteady.pended hp hzero hwaits,
      CurrentLives.pended h.current hp, hk.pended hp,
      fun _ hs => hs.pended hp⟩
    have hne : ¬k₁.uxSchedulerSuspended = 0 :=
      fun hz => hzero (honly.uxSchedulerSuspended.symm.trans hz)
    rw [readyOrPending, if_neg hne, hs]
    rfl

/-- `xTaskRemoveFromEventList`, for a list that is not empty -/
theorem xTaskRemoveFromEventList_spec {e : E} {rest : List T} (h : k.Good idle) (hk : k.Keeps c)
    (hlist : (k.event.list (.event e)).items = t :: rest) :
    ∃ higher k', k.xTaskRemoveFromEventList e = some (higher, k') ∧ k'.Steady idle ∧
      k'.CurrentLives ∧
      k'.Keeps (c.clear t) ∧ (higher = true ∨ k.Settled → k'.Settled) := by
  have hevent : k.event.container t = some (.event e) := by
    rw [← k.event.mem, hlist]
    exact List.mem_cons_self
  obtain ⟨k₁, k₂, h₁, h₂, hkept, hsteady, hlives, hkeeps, hset⟩ := readyOrPending_spec h hk hevent
  rw [xTaskRemoveFromEventList, hlist]
  change ∃ higher k', (k.removeEvent t >>= _) = some (higher, k') ∧ _
  rw [h₁]
  change ∃ higher k', (k₁.readyOrPending t >>= _) = some (higher, k') ∧ _
  rw [h₂]
  change ∃ higher k', (if k₂.uxPriority t > k₂.uxPriority k₂.pxCurrentTCB then _ else _) =
      some (higher, k') ∧ _
  by_cases hgt : k₂.uxPriority t > k₂.uxPriority k₂.pxCurrentTCB
  · rw [if_pos hgt]
    exact ⟨_, _, rfl, hsteady.yielding, hlives, hkeeps.yielding, fun _ => .inl rfl⟩
  · rw [if_neg hgt]
    refine ⟨_, _, rfl, hsteady, hlives, hkeeps,
      fun hs => hset ?_ (hs.resolve_left Bool.false_ne_true)⟩
    rw [hkept.uxPriority, hkept.pxCurrentTCB] at hgt
    exact not_lt.mp hgt

/-- An event has come, for a list that is not empty. -/
theorem removeFromEventList_next {e : E} {rest : List T} (yields : Bool) (h : k.Good idle)
    (hk : k.Keeps c) (hlist : (k.event.list (.event e)).items = t :: rest) :
    ∃ k', k.step (.removeFromEventList e yields) = some k' ∧ k'.Good idle ∧ k'.Keeps (c.clear t) ∧
      (k.Settled → k'.Settled) := by
  obtain ⟨higher, k₁, h₁, hsteady, hlives, hkeeps, hset⟩ := xTaskRemoveFromEventList_spec h hk hlist
  obtain ⟨k', hk', hgood, hkeeps', hset'⟩ :=
    switchIf_next (b := higher && yields) hsteady hlives hkeeps
  rw [step, h₁]
  exact ⟨k', hk', hgood, hkeeps', fun hs => hset' (.inr (hset (.inr hs)))⟩

/-! ## Suspending and deleting

Both take a task out of all lists. What is left of the invariant is about the others, except that
the running task has to be replaced if it is the one. -/

/-- A task leaves all lists, and then it depends on the running task what follows. -/
theorem retire_spec {l₀ : GenericList} (hin : k.generic.container t = some l₀) (l : GenericList) :
    ∃ k', Moved k k' t l none ∧ k'.uxTopReadyPriority = k.uxTopReadyPriority ∧
      k'.xYieldPending = k.xYieldPending ∧
      k'.xNextTaskUnblockTime = k.xNextTaskUnblockTime ∧ k.retire t l =
        if t = k'.pxCurrentTCB then if k'.uxSchedulerSuspended = 0 then k'.vTaskSwitchContext
          else none
        else some k'.prvResetNextTaskUnblockTime := by
  obtain ⟨k₁, h₁, honly₁, hgeneric₁, htop₁⟩ := removeGeneric_spec hin
  obtain ⟨k₂, h₂, honly₂, hevent₂, hitems₂⟩ := k₁.leaveEvent_spec t
  have hevent : k₂.event.container = Function.update k.event.container t none := by
    rw [hevent₂, honly₁.event]
  have hpending : (k₂.event.list .pendingReady).items =
      (k.event.list .pendingReady).items.erase t := by
    rw [hitems₂, honly₁.event]
  obtain ⟨s, hs, hm⟩ := insertEnd_spec hin honly₁ hgeneric₁ honly₂ hevent (fun _ => hpending) l
  refine ⟨_, hm, honly₂.uxTopReadyPriority.trans htop₁,
    honly₂.xYieldPending.trans honly₁.xYieldPending,
    honly₂.xNextTaskUnblockTime.trans honly₁.xNextTaskUnblockTime, ?_⟩
  rw [retire, h₁]
  change (k₁.leaveEvent t >>= _) = _
  rw [h₂]
  change (k₂.generic.insertEnd l t >>= _) = _
  rw [hs]
  rfl

/-- `vTaskSuspend` and `vTaskDelete`. Their assertion is about a running task that does it to
itself. -/
theorem retire_next {l : GenericList} (h : k.Good idle) (hk : k.Keeps c)
    (hl : l = .suspended ∨ l = .waitingTermination)
    (hexists : k.generic.container t ≠ none) (hidle : t ≠ idle)
    (hsuspended : t = k.pxCurrentTCB → k.uxSchedulerSuspended = 0) :
    ∃ k', k.retire t l = some k' ∧ k'.Good idle ∧ k'.Keeps (c.clear t) ∧
    (k.Settled → k'.Settled) := by
  obtain ⟨l₀, hin⟩ := Option.ne_none_iff_exists'.mp hexists
  obtain ⟨k₁, hm, htop, hyield, hnext, h₁⟩ := retire_spec hin l
  have hready : ∀ p, l ≠ .ready p := by
    rintro p rfl
    exact hl.elim (by simp) (by simp)
  have hdelayed : ∀ b, l ≠ .delayed b := by
    rintro b rfl
    exact hl.elim (by simp) (by simp)
  have hsteady : k₁.Steady idle :=
    h.toSteady.retired_moved hl (fun hne => absurd rfl hne) (by simp) hidle hm htop
    (h.toAhead.moved hm hdelayed hnext)
  have hkeeps := hk.moved hm hdelayed
  rw [h₁, hm.pxCurrentTCB, hm.uxSchedulerSuspended]
  by_cases hself : t = k.pxCurrentTCB
  · -- another task runs now
    have hzero := hsuspended hself
    rw [if_pos hself, if_pos hzero]
    obtain ⟨k', hk', hgood, hkeeps', hsettled, -⟩ :=
      switch_next hsteady (fun hne => absurd (hm.uxSchedulerSuspended.trans hzero) hne) hkeeps
    exact ⟨k', hk', hgood, hkeeps', fun _ => hsettled⟩
  · rw [if_neg hself]
    obtain ⟨hkept, hgeneric, hevent, htop', hyield', hnext'⟩ :=
      prvResetNextTaskUnblockTime_spec hsteady.toBase
    have hlives : k₁.CurrentLives := by
      rw [CurrentLives, hm.pxCurrentTCB, hm.container, Function.update_of_ne (Ne.symm hself)]
      exact h.current
    refine ⟨_, rfl, ⟨⟨hsteady.toBase.kept hkept hgeneric hevent htop', ⟨?_, ?_⟩, ?_, ?_, ?_⟩, ?_⟩,
      ?_, fun hs => ?_⟩
    · rw [hgeneric, hkept.pxDelayedTaskList, hkept.xTickCount]
      exact hsteady.later
    · rw [hgeneric, hkept.pxDelayedTaskList]
      exact hnext'
    · rw [hkept.uxCurrentNumberOfTasks]
      exact hsteady.tasks
    · rw [hkept.uxSchedulerSuspended, hevent]
      exact hsteady.pending
    · rw [hkept.uxSchedulerSuspended, hkept.uxPendedTicks]
      exact hsteady.ticks
    · rw [hgeneric, hkept.pxCurrentTCB]
      exact hlives
    · exact hkeeps.of_same hkept (by rw [hgeneric]) (by rw [hgeneric]) (by rw [hevent])
    · rw [Settled, hgeneric, hkept.uxPriority, hkept.pxCurrentTCB, hyield']
      exact hs.retired_moved hm hready hyield

/-! ## Resuming a task

Only a task that is suspended is resumed. The list of suspended tasks also has those that wait for
an event without a limit, and a pending task may still be in it, so that the test looks at the event
item as well. -/

omit [DecidableEq T] in
/-- What `prvTaskIsTaskSuspended` looks for -/
theorem prvTaskIsTaskSuspended_iff : k.prvTaskIsTaskSuspended t = true ↔
    k.generic.container t = some .suspended ∧ k.event.container t = none := by
  unfold prvTaskIsTaskSuspended
  rw [Bool.and_eq_true, Bool.and_eq_true, decide_eq_true_iff, decide_eq_true_iff,
    decide_eq_true_iff]
  constructor
  · rintro ⟨⟨hs, -⟩, hnone⟩
    exact ⟨hs, hnone⟩
  · rintro ⟨hs, hnone⟩
    refine ⟨⟨hs, ?_⟩, hnone⟩
    rw [hnone]
    exact (Option.some_ne_none _).symm

/-- A suspended task is not to be woken by a tick. -/
theorem Keeps.clear_suspended (hk : k.Keeps c) (hs : k.generic.container t = some .suspended) :
    c.clear t = c := by
  refine Clock.clear_of_none ?_
  rw [← hk.deadline]
  refine deadline_none fun b hb => ?_
  rw [hs] at hb
  cases hb

/-- A suspended task is ready again, and if it is not below the running one there is a switch. -/
theorem resumed_next (h : k.Good idle) (hk : k.Keeps c)
    (hs : k.generic.container t = some .suspended)
    (hnone : k.event.container t = none) :
    ∃ k₁ k', (k.removeGeneric t >>= fun k => k.prvAddTaskToReadyList t) = some k₁ ∧
      switchIf (decide (k₁.uxPriority t ≥ k₁.uxPriority k₁.pxCurrentTCB)) k₁ = some k' ∧
        k'.Good idle ∧ k'.Keeps c ∧
      (k.Settled → k'.Settled) := by
  obtain ⟨k₁, h₁, hm, honly, htop⟩ := ready_spec hs hnone
  have hsteady := h.toSteady.ready_moved hm htop honly.xNextTaskUnblockTime
  have hkeeps : k₁.Keeps c := by
    have hclear := hk.moved hm (by simp)
    rwa [hk.clear_suspended hs] at hclear
  obtain ⟨k', hk', hgood, hkeeps', hset⟩ :=
    switchIf_next (b := decide (k₁.uxPriority t ≥ k₁.uxPriority k₁.pxCurrentTCB)) hsteady
      (CurrentLives.moved h.current hm (by simp)) hkeeps
  refine ⟨k₁, k', h₁, hk', hgood, hkeeps', fun hsettled => hset ?_⟩
  by_cases hge : k₁.uxPriority t ≥ k₁.uxPriority k₁.pxCurrentTCB
  · exact .inl (decide_eq_true hge)
  · refine .inr (hsettled.ready_moved hm (fun hp => honly.xYieldPending.trans hp) (.inr ?_))
    rw [hm.uxPriority, hm.pxCurrentTCB] at hge
    exact (not_le.mp hge).le

/-- `vTaskResume` -/
theorem resume_next (t : T) (h : k.Good idle) (hk : k.Keeps c) :
    ∃ k', k.step (.resume t) = some k' ∧ k'.Good idle ∧ k'.Keeps c ∧ (k.Settled → k'.Settled) := by
  rw [step, vTaskResume]
  by_cases hcond : t ≠ k.pxCurrentTCB ∧ k.prvTaskIsTaskSuspended t
  · obtain ⟨hs, hnone⟩ := prvTaskIsTaskSuspended_iff.mp hcond.2
    obtain ⟨k₁, k', h₁, h₂, hnext⟩ := resumed_next h hk hs hnone
    obtain ⟨ka, ha, hb⟩ := Option.bind_eq_some_iff.mp h₁
    refine ⟨k', ?_, hnext⟩
    rw [if_pos hcond, ha]
    change (ka.prvAddTaskToReadyList t >>= _) = _
    rw [hb]
    change (if k₁.uxPriority t ≥ k₁.uxPriority k₁.pxCurrentTCB then k₁.vTaskSwitchContext
        else some k₁) = _
    rw [switchIf] at h₂
    simpa only [decide_eq_true_iff] using h₂
  · rw [if_neg hcond]
    exact ⟨k, rfl, h, hk, id⟩

/-- `xTaskResumeFromISR` -/
theorem resumeFromISR_next (t : T) (h : k.Good idle) (hk : k.Keeps c) :
    ∃ k', k.step (.resumeFromISR t) = some k' ∧ k'.Good idle ∧ k'.Keeps c ∧
    (k.Settled → k'.Settled) := by
  rw [step, xTaskResumeFromISR]
  by_cases hcond : k.prvTaskIsTaskSuspended t
  · obtain ⟨hs, hnone⟩ := prvTaskIsTaskSuspended_iff.mp hcond
    rw [if_pos hcond]
    by_cases hzero : k.uxSchedulerSuspended = 0
    · obtain ⟨k₁, k', h₁, h₂, hnext⟩ := resumed_next h hk hs hnone
      obtain ⟨ka, ha, hb⟩ := Option.bind_eq_some_iff.mp h₁
      refine ⟨k', ?_, hnext⟩
      rw [if_pos hzero, ha]
      change ((ka.prvAddTaskToReadyList t >>= _) >>= _) = _
      rw [hb]
      exact h₂
    · obtain ⟨s, hinsert, hp⟩ := pended_spec hnone
      have hkeeps := hk.pended hp
      rw [hk.clear_suspended hs] at hkeeps
      rw [if_neg hzero, hinsert]
      exact ⟨_, rfl, ⟨h.toSteady.pended hp hzero (.inl hs), CurrentLives.pended h.current hp⟩,
        hkeeps, fun hset => hset.pended hp⟩
  · rw [if_neg hcond]
    exact ⟨k, rfl, h, hk, id⟩

end Tasks

end BitThunder
