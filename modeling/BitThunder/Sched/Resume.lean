import BitThunder.Sched.Switch

/-!
# Resuming the scheduler

While the scheduler is suspended a tick is only counted in `uxPendedTicks`, and a task whose event
comes goes to `xPendingReadyList` with its event item and stays where it is with its other one.
`xTaskResumeAll` makes these tasks ready first and then lets the ticks happen one by one.

* `tick_next`: the tick interrupt;
* `resumeAll_next`: `xTaskResumeAll`.

Two loops come one after the other. The first empties the pending list, and between two of its
rounds a task is either still pending, with a place in a delayed list, or ready; no tick happens
meanwhile, so that no deadline can be missed. The second counts the ticks that were held back, and
each is an ordinary tick with an ordinary state before it, since nothing is pending any more.

A switch is asked for by either loop or was put off before. It is made at the end, once, and after
it no ready task is above the running one whichever of them asked.
-/

namespace BitThunder

namespace Tasks

variable {T E : Type} {idle t : T} {k k' : Tasks T E}

/-! ## What a tick leaves

A tick is seen from the side of those who do not wait for it: who was ready stays ready, and who is
not woken stays where he is. -/

/-- With an empty pending list no task is pending. -/
theorem not_pendingReady (hempty : (k.event.list .pendingReady).items = []) (t : T) :
    k.event.container t ≠ some .pendingReady := by
  intro hin
  rw [← k.event.mem, hempty] at hin
  cases hin

/-- Ready tasks stay ready, and new ones are those whose time has come. -/
theorem Ticked.ready (ht : Ticked k k') {u : T} {p : ℕ}
    (hu : k'.generic.container u = some (.ready p)) :
    k.generic.container u = some (.ready p) ∨ (p = k.uxPriority u ∧
      k.generic.container u = some (.delayed k'.pxDelayedTaskList) ∧
        k.generic.value u = k'.xTickCount) := by
  by_cases hdue : k.generic.container u = some (.delayed k'.pxDelayedTaskList) ∧
    k.generic.value u = k'.xTickCount
  · rw [(ht.due u hdue.1 hdue.2).1] at hu
    exact .inr ⟨(GenericList.ready.inj (Option.some.inj hu)).symm, hdue⟩
  · rw [(ht.other u hdue).1] at hu
    exact .inl hu

theorem Ticked.stays_ready (ht : Ticked k k') {u : T} {p : ℕ}
    (hu : k.generic.container u = some (.ready p)) :
    k'.generic.container u = some (.ready p) := by
  refine (ht.other u ?_).1.trans hu
  rintro ⟨hin, -⟩
  rw [hu] at hin
  cases hin

/-- If the tick asks for no switch, nobody above the running task was woken. -/
theorem Settled.ticked (h : k.Settled) (ht : Ticked k k') (hyield : k.xYieldPending = false)
    (hlow : ∀ t, k.generic.container t = some (.delayed k'.pxDelayedTaskList) →
      k.generic.value t = k'.xTickCount → k.uxPriority t < k.uxPriority k.pxCurrentTCB) :
      k'.Settled := by
  have htop := h.resolve_left (by rw [hyield]; exact Bool.false_ne_true)
  refine .inr fun u p hu => ?_
  rw [ht.uxPriority, ht.pxCurrentTCB]
  rcases ht.ready hu with hold | ⟨rfl, hin, htime⟩
  · exact htop u p hold
  · exact (hlow u hin htime).le

theorem CurrentLives.ticked (h : k.CurrentLives) (ht : Ticked k k') : k'.CurrentLives := by
  obtain ⟨l, hl, hne⟩ := h
  rw [CurrentLives, ht.pxCurrentTCB]
  by_cases hdue : k.generic.container k.pxCurrentTCB = some (.delayed k'.pxDelayedTaskList) ∧
      k.generic.value k.pxCurrentTCB = k'.xTickCount
  · exact ⟨_, (ht.due _ hdue.1 hdue.2).1, by simp⟩
  · exact ⟨l, (ht.other _ hdue).1.trans hl, hne⟩

/-! ## What a move leaves

A move to a ready list, or out of all of them, keeps each part of the invariant under a condition of
its own; the parts are proved one by one. -/

variable [DecidableEq T]

/-- A task that moves to a list that is not one of the two leaves the others behind as they were. -/
theorem Ahead.moved {l : GenericList} {e : Option (EventList E)} (h : k.Ahead)
    (hm : Moved k k' t l e) (hl : ∀ b, l ≠ .delayed b)
    (hnext : k'.xNextTaskUnblockTime = k.xNextTaskUnblockTime) : k'.Ahead := by
  have hin : ∀ u, k'.generic.container u = some (.delayed k'.pxDelayedTaskList) →
      k.generic.container u = some (.delayed k.pxDelayedTaskList) := by
    intro u hu
    rw [hm.container, hm.pxDelayedTaskList] at hu
    by_cases hut : u = t
    · rw [hut, Function.update_self] at hu
      exact absurd (Option.some.inj hu) (hl _)
    · rwa [Function.update_of_ne hut] at hu
  refine ⟨fun u hu => ?_, fun u hu => ?_⟩
  · rw [hm.xTickCount, hm.value]
    exact h.later u (hin u hu)
  · rw [hnext, hm.value]
    exact h.next u (hin u hu)

/-- A task that goes to the ready list of its priority keeps the lists as they should be if the
highest priority is raised to its own. -/
theorem Steady.ready_moved (h : k.Steady idle) (hm : Moved k k' t (.ready (k.uxPriority t)) none)
    (htop : k'.uxTopReadyPriority = max k.uxTopReadyPriority (k.uxPriority t))
    (hnext : k'.xNextTaskUnblockTime = k.xNextTaskUnblockTime) : k'.Steady idle where
  toBase := h.toBase.ready_moved hm htop
  toAhead := h.toAhead.moved hm (by simp) hnext
  tasks := by
    rw [hm.uxCurrentNumberOfTasks]
    exact h.tasks
  pending := by
    rw [hm.uxSchedulerSuspended, hm.pending (by simp)]
    intro hzero
    rw [h.pending hzero]
    rfl
  ticks := by
    rw [hm.uxSchedulerSuspended, hm.uxPendedTicks]
    exact h.ticks

/-- A task that is not ready any more leaves the others as they were. -/
theorem Settled.retired_moved {l : GenericList} {e : Option (EventList E)} (h : k.Settled)
    (hm : Moved k k' t l e) (hl : ∀ p, l ≠ .ready p) (hyield : k'.xYieldPending = k.xYieldPending) :
    k'.Settled := by
  refine h.imp (fun hp => hyield.trans hp) fun htop u p hu => ?_
  rw [hm.uxPriority, hm.pxCurrentTCB]
  rw [hm.container] at hu
  by_cases hut : u = t
  · rw [hut, Function.update_self] at hu
    exact absurd (Option.some.inj hu) (hl p)
  · rw [Function.update_of_ne hut] at hu
    exact htop u p hu

/-- A task that is suspended or deleted leaves them so, if it is not the idle task. -/
theorem Steady.retired_moved {l : GenericList} {e : Option (EventList E)} (h : k.Steady idle)
    (hl : l = .suspended ∨ l = .waitingTermination) (he : e ≠ none → l = .suspended)
    (hpending : e ≠ some .pendingReady)
    (hidle : t ≠ idle) (hm : Moved k k' t l e) (htop : k'.uxTopReadyPriority = k.uxTopReadyPriority)
    (hahead : k'.Ahead) : k'.Steady idle where
  toBase := h.toBase.retired_moved hl he hidle hm htop
  toAhead := hahead
  tasks := by
    rw [hm.uxCurrentNumberOfTasks]
    exact h.tasks
  pending := by
    rw [hm.uxSchedulerSuspended, hm.pending hpending]
    intro hzero
    rw [h.pending hzero]
    rfl
  ticks := by
    rw [hm.uxSchedulerSuspended, hm.uxPendedTicks]
    exact h.ticks

/-- The running task exists after a move of a task that does not delete it. -/
theorem CurrentLives.moved {l : GenericList} {e : Option (EventList E)} (h : k.CurrentLives)
    (hm : Moved k k' t l e) (hl : l ≠ .waitingTermination) : k'.CurrentLives := by
  rw [CurrentLives, hm.pxCurrentTCB, hm.container]
  by_cases ht : k.pxCurrentTCB = t
  · rw [ht, Function.update_self]
    exact ⟨l, rfl, hl⟩
  · rw [Function.update_of_ne ht]
    exact h

/-- A task of no higher priority than the running one becomes ready. -/
theorem Settled.ready_moved (h : k.Settled) (hm : Moved k k' t (.ready (k.uxPriority t)) none)
    (hyield : k.xYieldPending = true → k'.xYieldPending = true)
    (hle : k'.xYieldPending = true ∨ k.uxPriority t ≤ k.uxPriority k.pxCurrentTCB) :
    k'.Settled := by
  rcases hle with hpending | hle
  · exact .inl hpending
  · refine h.imp hyield fun htop u p hu => ?_
    rw [hm.uxPriority, hm.pxCurrentTCB]
    rw [hm.container] at hu
    by_cases hut : u = t
    · rw [hut, Function.update_self] at hu
      rw [← GenericList.ready.inj (Option.some.inj hu)]
      exact hle
    · rw [Function.update_of_ne hut] at hu
      exact htop u p hu

/-! ## Ticks

The ticks that were held back are counted one by one, each from a state like the one of an ordinary
tick. The induction is on how many are left. -/

variable [DecidableEq E] {c : Clock T}

/-- A tick while the scheduler is not suspended -/
theorem xTaskIncrementTick_spec (h : k.Base idle) (hahead : k.Ahead)
    (hsuspended : k.uxSchedulerSuspended = 0) :
    ∃ sw k', k.xTaskIncrementTick = some (sw, k') ∧ Ticked k k' ∧ k'.Base idle ∧ k'.Ahead ∧
      (sw = false → k.xYieldPending = false ∧ ∀ t, k.generic.container t =
        some (.delayed k'.pxDelayedTaskList) →
        k.generic.value t = k'.xTickCount → k.uxPriority t < k.uxPriority k.pxCurrentTCB) := by
  obtain ⟨sw, k', hcount, hticked, hbase, hahead', hsw⟩ := countTick_spec h hahead
  rw [xTaskIncrementTick, if_pos hsuspended, hcount]
  refine ⟨_, k', rfl, hticked, hbase, hahead', fun hfalse => ?_⟩
  obtain ⟨hfirst, hyield⟩ := Bool.or_eq_false_iff.mp hfalse
  obtain ⟨hnone, -⟩ := Bool.or_eq_false_iff.mp hfirst
  refine ⟨hticked.xYieldPending ▸ hyield, fun t hin htime => not_le.mp fun hle => ?_⟩
  rw [hsw.mpr ⟨t, hin, htime, hle⟩] at hnone
  cases hnone

/-- What is between two ticks of `xTaskResumeAll`: the scheduler is not suspended, and `n` ticks are
still held back. -/
structure CatchingUp (idle : T) (n : ℕ) (k : Tasks T E) : Prop extends k.Base idle, k.Ahead where
  /-- the running task exists -/
  lives : k.CurrentLives
  tasks : 0 < k.uxCurrentNumberOfTasks
  /-- no task is pending -/
  pending : (k.event.list .pendingReady).items = []
  /-- so many ticks are held back -/
  ticks : k.uxPendedTicks = n
  /-- and the scheduler is not suspended -/
  suspended : k.uxSchedulerSuspended = 0

/-- The loop over the ticks that were held back -/
theorem catchUp_spec {n : ℕ} (h : CatchingUp idle n k) (hk : k.Keeps c) :
    ∃ k', catchUp n k = some k' ∧ CatchingUp idle 0 k' ∧
      k'.Keeps { Clock.advance^[n] c with held := 0 } ∧
      (k.Settled → k'.Settled) ∧ k'.uxPriority = k.uxPriority ∧
      (∀ t p, k.generic.container t = some (.ready p) → k'.generic.container t = some (.ready p)) ∧
      ∀ t d, c.deadline t = some d → d ≤ c.now + n →
      k'.generic.container t = some (.ready (k.uxPriority t)) := by
  induction n generalizing k c with
  | zero =>
    refine ⟨k, rfl, h, ?_, id, rfl, fun _ _ hready => hready, fun t d hd hle => ?_⟩
    · have hheld : c.held = 0 := hk.held.symm.trans h.ticks
      rw [Function.iterate_zero, id, ← hheld]
      exact hk
    · exact absurd (hk.deadline_bounds h.toBase h.toAhead hd).1 (not_lt.mpr hle)
  | succ n ih =>
    obtain ⟨sw, k₁, htick, hticked, hbase, hahead, hsw⟩ :=
      xTaskIncrementTick_spec h.toBase h.toAhead h.suspended
    obtain ⟨k₂, hk₂⟩ : ∃ k₂ : Tasks T E, k₂ = { k₁ with
      xYieldPending := if sw then true else k₁.xYieldPending
      uxPendedTicks := k₁.uxPendedTicks - 1 } := ⟨_, rfl⟩
    have hpended : k₁.uxPendedTicks - 1 = n := by
      rw [hticked.uxPendedTicks, h.ticks, Nat.add_sub_cancel]
    have hkeeps := hk.ticked h.toAhead (not_pendingReady h.pending) hticked
    have hcatching : CatchingUp idle n k₂ := by
      have hlives : k₁.CurrentLives := h.lives.ticked hticked
      rw [hk₂]
      refine ⟨⟨hbase.ready, hbase.top, hbase.idle, hbase.blocked, hbase.sorted, hbase.wrapped⟩,
        ⟨hahead.later, hahead.next⟩, hlives, ?_, ?_, hpended, ?_⟩
      · exact hticked.uxCurrentNumberOfTasks ▸ h.tasks
      · exact List.sublist_nil.mp (h.pending ▸ hticked.pending)
      · exact hticked.uxSchedulerSuspended.trans h.suspended
    have hkeeps₂ : k₂.Keeps { c.advance with held := n } := by
      rw [hk₂]
      exact ⟨hkeeps.tick, hkeeps.overflows, hpended, hkeeps.suspended, hkeeps.deadline⟩
    have hsettled : k.Settled → k₂.Settled := by
      intro hs
      rw [hk₂]
      cases hb : sw with
      | true => exact .inl rfl
      | false =>
        obtain ⟨hyield, hlow⟩ := hsw hb
        have hsettled₁ : k₁.Settled := hs.ticked hticked hyield hlow
        exact hsettled₁
    have hgeneric₂ : k₂.generic = k₁.generic := by rw [hk₂]
    have hpriority₂ : k₂.uxPriority = k.uxPriority := by
      rw [hk₂]
      exact hticked.uxPriority
    obtain ⟨k', hloop, hdone, hkeeps', hset, hpriority, hstays, hwoken⟩ := ih hcatching hkeeps₂
    refine ⟨k', ?_, hdone, ?_, fun hs => hset (hsettled hs), hpriority.trans hpriority₂,
      fun t p hready => ?_, fun t d hd hle => ?_⟩
    · rw [catchUp, htick]
      change catchUp n _ = _
      rw [← hk₂]
      exact hloop
    · have hclock : ({ Clock.advance^[n] { c.advance with held := n } with held := 0 } : Clock T) =
          { Clock.advance^[n + 1] c with held := 0 } := by
        rw [Function.iterate_succ_apply]
        exact Clock.iterate_held n n c.advance
      rwa [← hclock]
    · refine hstays t p ?_
      rw [hgeneric₂]
      exact hticked.stays_ready hready
    · by_cases hnow : d ≤ c.now + 1
      · refine hstays t _ ?_
        rw [hgeneric₂]
        exact hk.woken h.toBase h.toAhead (not_pendingReady h.pending) hticked hd hnow
      · rw [← hpriority₂]
        refine hwoken t d ?_ ?_
        · change (if c.deadline t = some (c.now + 1) then none else c.deadline t) = some d
          rw [hd, if_neg fun he => hnow (Option.some.inj he).le]
        · change d ≤ c.now + 1 + n
          omega

/-- The tick interrupt -/
theorem tick_next (h : k.Good idle) (hk : k.Keeps c) :
    ∃ k', k.step .tick = some k' ∧ k'.Good idle ∧ k'.Keeps c.tick ∧ (k.Settled → k'.Settled) ∧
      k'.Wakes c c.tick := by
  by_cases hsuspended : k.uxSchedulerSuspended = 0
  · obtain ⟨sw, k₁, htick, hticked, hbase, hahead, hsw⟩ :=
      xTaskIncrementTick_spec h.toBase h.toAhead hsuspended
    have hempty := h.pending hsuspended
    have hclock : c.tick = c.advance := if_pos (hk.suspended.symm.trans hsuspended)
    have hkeeps : k₁.Keeps c.tick := by
      rw [hclock]
      exact hk.ticked h.toAhead (not_pendingReady hempty) hticked
    have hwakes : k₁.Wakes c c.tick := by
      intro t d hd hle
      rw [hclock] at hle
      rw [hticked.uxPriority]
      exact hk.woken h.toBase h.toAhead (not_pendingReady hempty) hticked hd hle
    have hsteady : k₁.Steady idle := by
      refine ⟨hbase, hahead, ?_, fun _ => ?_, fun _ => ?_⟩
      · rw [hticked.uxCurrentNumberOfTasks]
        exact h.tasks
      · exact List.sublist_nil.mp (hempty ▸ hticked.pending)
      · rw [hticked.uxPendedTicks]
        exact h.ticks hsuspended
    have hlives := CurrentLives.ticked h.current hticked
    rw [step, htick]
    cases hb : sw with
    | true =>
      obtain ⟨k', hk', hgood, hkeeps', hsettled, hcontainer, hpriority⟩ :=
        switch_next hsteady (fun _ => hlives) hkeeps
      refine ⟨k', hk', hgood, hkeeps', fun _ => hsettled, ?_⟩
      rw [Wakes, hcontainer, hpriority]
      exact hwakes
    | false =>
      obtain ⟨hyield, hlow⟩ := hsw hb
      exact ⟨k₁, rfl, ⟨hsteady, hlives⟩, hkeeps, fun hs => hs.ticked hticked hyield hlow, hwakes⟩
  · -- the tick is held back
    obtain ⟨k₁, hk₁⟩ : ∃ k₁ : Tasks T E, k₁ = { k with uxPendedTicks := k.uxPendedTicks + 1 } :=
      ⟨_, rfl⟩
    have hclock : c.tick = { c with held := c.held + 1 } :=
      if_neg fun hzero => hsuspended (hk.suspended.trans hzero)
    have hgood : k₁.Good idle := by
      rw [hk₁]
      exact ⟨⟨⟨h.ready, h.top, h.idle, h.blocked, h.sorted, h.wrapped⟩, ⟨h.later, h.next⟩, h.tasks,
        h.pending, fun hzero => absurd hzero hsuspended⟩, h.current⟩
    have hkeeps : k₁.Keeps c.tick := by
      rw [hclock, hk₁]
      exact ⟨hk.tick, hk.overflows, congrArg (· + 1) hk.held, hk.suspended, hk.deadline⟩
    have hnow : c.tick.now = c.now := by rw [hclock]
    rw [step, xTaskIncrementTick, if_neg hsuspended, ← hk₁]
    change ∃ k', switchIf k.xYieldPending k₁ = some k' ∧ _
    cases hyield : k.xYieldPending with
    | true =>
      obtain ⟨k', hk', hgood', hkeeps', hsettled, -⟩ :=
        switch_next hgood.toSteady (fun _ => hgood.current) hkeeps
      exact ⟨k', hk', hgood', hkeeps', fun _ => hsettled, hk.wakes_of_now h.toBase h.toAhead hnow⟩
    | false =>
      refine ⟨k₁, rfl, hgood, hkeeps, fun hs => ?_, hk.wakes_of_now h.toBase h.toAhead hnow⟩
      rw [hk₁]
      exact hs

/-! ## Resuming

The tasks that are pending become ready first. The induction is on the list of them, and then the
ticks follow. -/

/-- What is between two tasks of `xPendingReadyList` -/
structure Readying (idle : T) (n : ℕ) (k : Tasks T E) : Prop extends k.Base idle, k.Ahead where
  /-- the running task exists -/
  lives : k.CurrentLives
  tasks : 0 < k.uxCurrentNumberOfTasks
  /-- so many ticks are held back -/
  ticks : k.uxPendedTicks = n
  /-- and the scheduler is not suspended -/
  suspended : k.uxSchedulerSuspended = 0

/-- The loop over the tasks whose events came while the scheduler was suspended -/
theorem readyPending_spec {rounds n : ℕ} (h : Readying idle n k)
    (hrounds : (k.event.list .pendingReady).items.length = rounds) (hk : k.Keeps c) :
    ∃ k', readyPending rounds k = some k' ∧ CatchingUp idle n k' ∧ k'.Keeps c ∧
    (k.Settled → k'.Settled) := by
  induction rounds generalizing k with
  | zero =>
    have hempty := List.eq_nil_of_length_eq_zero hrounds
    exact ⟨k, if_pos hempty, ⟨h.toBase, h.toAhead, h.lives, h.tasks, hempty, h.ticks, h.suspended⟩,
      hk, id⟩
  | succ rounds ih =>
    obtain ⟨t, rest, hlist⟩ := List.exists_cons_of_length_eq_add_one hrounds
    have hevent : k.event.container t = some .pendingReady := by
      rw [← k.event.mem, hlist]
      exact List.mem_cons_self
    obtain ⟨l, hin⟩ : ∃ l, k.generic.container t = some l :=
      (h.blocked t _ hevent).elim (fun hl => ⟨_, hl⟩) fun ⟨b, hb⟩ => ⟨_, hb⟩
    obtain ⟨k₁, k₂, h₁, h₂, -, hmoved, htop, hyield, hnext, hitems⟩ := event_spec hin hevent
    obtain ⟨k₃, hk₃⟩ : ∃ k₃ : Tasks T E, k₃ = if k₂.uxPriority t ≥ k₂.uxPriority k₂.pxCurrentTCB
        then
      { k₂ with xYieldPending := true } else k₂ := ⟨_, rfl⟩
    -- whether or not a switch is noted, the lists are the same
    have hbase := h.toBase.ready_moved hmoved htop
    have hahead := h.toAhead.moved hmoved (by simp) hnext
    have hlives : k₂.CurrentLives := h.lives.moved hmoved (by simp)
    have hkeeps : k₂.Keeps c := by
      have hclear := hk.moved hmoved (by simp)
      rwa [Clock.clear_of_none] at hclear
      rw [← hk.deadline]
      exact deadline_pending hevent
    have hlength : (k₂.event.list .pendingReady).items.length = rounds := by
      rw [hitems, hlist, List.erase_cons_head]
      rw [hlist] at hrounds
      exact Nat.succ_injective hrounds
    have hready : Readying idle n k₂ :=
      ⟨hbase, hahead, hlives, hmoved.uxCurrentNumberOfTasks ▸ h.tasks,
      hmoved.uxPendedTicks.trans h.ticks, hmoved.uxSchedulerSuspended.trans h.suspended⟩
    have hthird : Readying idle n k₃ ∧ (k₃.event.list .pendingReady).items.length = rounds ∧
        k₃.Keeps c := by
      rw [hk₃]
      split_ifs
      · exact ⟨⟨⟨hbase.ready, hbase.top, hbase.idle, hbase.blocked, hbase.sorted, hbase.wrapped⟩,
          ⟨hahead.later, hahead.next⟩, hlives, hready.tasks, hready.ticks, hready.suspended⟩,
            hlength,
          ⟨hkeeps.tick, hkeeps.overflows, hkeeps.held, hkeeps.suspended, hkeeps.deadline⟩⟩
      · exact ⟨hready, hlength, hkeeps⟩
    have hsettled : k.Settled → k₃.Settled := by
      intro hs
      rw [hk₃]
      split_ifs with hge
      · exact .inl rfl
      · refine hs.ready_moved hmoved (fun hp => hyield.trans hp) (.inr ?_)
        rw [hmoved.uxPriority, hmoved.pxCurrentTCB] at hge
        exact (not_le.mp hge).le
    obtain ⟨k', hloop, hdone, hkeeps', hset⟩ := ih hthird.1 hthird.2.1 hthird.2.2
    refine ⟨k', ?_, hdone, hkeeps', fun hs => hset (hsettled hs)⟩
    obtain ⟨ka, ha, hb⟩ := Option.bind_eq_some_iff.mp h₂
    rw [readyPending, hlist]
    change (k.removeEvent t >>= _) = _
    rw [h₁]
    change (k₁.removeGeneric t >>= _) = _
    rw [ha]
    change (ka.prvAddTaskToReadyList t >>= _) = _
    rw [hb]
    change readyPending rounds _ = _
    rw [← hk₃]
    exact hloop

/-- `xTaskResumeAll` -/
theorem resumeAll_next (h : k.Good idle) (hk : k.Keeps c) (hpos : 0 < k.uxSchedulerSuspended) :
    ∃ k', k.step .resumeAll = some k' ∧ k'.Good idle ∧ k'.Keeps c.resume ∧
    (k.Settled → k'.Settled) ∧
      k'.Wakes c c.resume := by
  obtain ⟨k₁, hk₁⟩ : ∃ k₁ : Tasks T E,
      k₁ = { k with uxSchedulerSuspended := k.uxSchedulerSuspended - 1 } := ⟨_, rfl⟩
  have hne : k.uxSchedulerSuspended ≠ 0 := Nat.ne_of_gt hpos
  have hbase : k₁.Base idle := by
    rw [hk₁]
    exact ⟨h.ready, h.top, h.idle, h.blocked, h.sorted, h.wrapped⟩
  have hahead : k₁.Ahead := by
    rw [hk₁]
    exact ⟨h.later, h.next⟩
  have hsettled₁ : k.Settled → k₁.Settled := by
    intro hs
    rw [hk₁]
    exact hs
  have hlives : k₁.CurrentLives := by
    rw [hk₁]
    exact h.current
  have hkeeps : k₁.Keeps { c with suspended := c.suspended - 1 } := by
    rw [hk₁]
    exact ⟨hk.tick, hk.overflows, hk.held, congrArg (· - 1) hk.suspended, hk.deadline⟩
  rw [step, xTaskResumeAll, if_neg hne, ← hk₁]
  by_cases hzero : k₁.uxSchedulerSuspended = 0
  · have htasks : k₁.uxCurrentNumberOfTasks > 0 := by
      rw [hk₁]
      exact h.tasks
    obtain ⟨k₂, hpending, hcatching, hkeeps₂, hset₂⟩ :=
      readyPending_spec ⟨hbase, hahead, hlives, htasks, rfl, hzero⟩ rfl hkeeps
    obtain ⟨k₃, hcatch, hdone, hkeeps₃, hset₃, hpriority, -, hwoken⟩ :=
      catchUp_spec (hcatching.ticks ▸ hcatching) hkeeps₂
    have hsteady : k₃.Steady idle :=
      ⟨hdone.toBase, hdone.toAhead, hdone.tasks, fun _ => hdone.pending,
      fun _ => hdone.ticks⟩
    have hheld : k₂.uxPendedTicks = c.held := hkeeps₂.held
    have hresume : c.resume =
        { Clock.advance^[c.held] { c with suspended := c.suspended - 1 } with held := 0 } :=
      if_pos (hkeeps.suspended.symm.trans hzero)
    have hclock : k₃.Keeps c.resume := by
      rw [hresume]
      rwa [hheld] at hkeeps₃
    have hwakes : k₃.Wakes c c.resume := by
      intro t d hd hle
      rw [hresume] at hle
      change d ≤ (Clock.advance^[c.held] _).now at hle
      rw [Clock.iterate_now] at hle
      rw [hpriority]
      exact hwoken t d hd (hheld ▸ hle)
    have hcond : k₁.uxSchedulerSuspended = 0 ∧ k₁.uxCurrentNumberOfTasks > 0 := ⟨hzero, htasks⟩
    simp only [if_pos hcond]
    rw [hpending]
    change ∃ k', ((catchUp k₂.uxPendedTicks k₂ >>= _) >>= _) = some k' ∧ _
    rw [hcatch]
    by_cases hyield : k₃.xYieldPending = true
    · obtain ⟨k', hk', hgood, hkeeps', hsettled, hcontainer, hpriority'⟩ :=
        switch_next hsteady (fun _ => hdone.lives) hclock
      refine ⟨k', ?_, hgood, hkeeps', fun _ => hsettled, ?_⟩
      · change ((if k₃.xYieldPending = true then _ else _) >>= _) = _
        rw [if_pos hyield, hk']
        rfl
      · rw [Wakes, hcontainer, hpriority']
        exact hwakes
    · refine ⟨k₃, ?_, ⟨hsteady, hdone.lives⟩, hclock, fun hs => hset₃ (hset₂ (hsettled₁ hs)),
        hwakes⟩
      change ((if k₃.xYieldPending = true then _ else _) >>= _) = _
      rw [if_neg hyield]
      rfl
  · have hresume : c.resume = { c with suspended := c.suspended - 1 } :=
      if_neg fun hz => hzero (hkeeps.suspended.trans hz)
    have hcond : ¬(k₁.uxSchedulerSuspended = 0 ∧ k₁.uxCurrentNumberOfTasks > 0) :=
      fun hc => hzero hc.1
    simp only [if_neg hcond]
    refine ⟨k₁, rfl, ⟨⟨hbase, hahead, ?_, fun hz => absurd hz hzero, fun hz => absurd hz hzero⟩,
      hlives⟩, ?_, hsettled₁, ?_⟩
    · rw [hk₁]
      exact h.tasks
    · rw [hresume]
      exact hkeeps
    · refine hk.wakes_of_now h.toBase h.toAhead ?_
      rw [hresume]

end Tasks

end BitThunder
