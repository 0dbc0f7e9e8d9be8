import BitThunder.Sched.Resume

/-!
# Blocking

The running task leaves its ready list for one of the two lists of delayed tasks: the current one,
or the other if its wake time passes the end of the tick count. Since the wait is shorter than the
tick count is long, the list and the wake time together tell how long it is.

* `Armed`: what all ways to wait with a timeout have in common;
* `Keeps.armed`: the clock is set;
* `delay_next`, `delayUntil_next`, `placeOnEventList_next`: the calls.

The wake time is a sum that may wrap, and where it does the task goes to the other list. Both facts
are read off the same comparison in the source. The deadline of the clock is a number without an
end, and the low word of it together with the list gives it back; this is what `Keeps.armed` shows,
for any wait that is shorter than the tick count is long.

The calls differ in what they do with the event item and in when they ask for a switch. `Armed` has
what they share, so that the invariant is proved once for all of them.
-/

namespace BitThunder

namespace Tasks

variable {T E : Type} {idle t : T} {k k' : Tasks T E}

/-- The running task is ready. -/
def Running (k : Tasks T E) : Prop := ∃ p, k.generic.container k.pxCurrentTCB = some (.ready p)

/-- A ready task waits for no event. -/
theorem Base.event_none {p : ℕ} (h : k.Base idle)
    (hready : k.generic.container t = some (.ready p)) :
    k.event.container t = none := by
  obtain ⟨c, hc⟩ : ∃ c, k.event.container t = c := ⟨_, rfl⟩
  cases c with
  | none => exact hc
  | some e =>
    rcases h.blocked t e hc with hs | ⟨b, hb⟩
    · rw [hs] at hready
      cases hready
    · rw [hb] at hready
      cases hready

/-- How many ticks ago a time was, if it was not more than the tick count has -/
def ticksSince (k : Tasks T E) (time : BitVec 32) : ℕ := (k.xTickCount - time).toNat

/-- `vTaskDelayUntil` waits if the time is still to come, whatever has passed the end of the tick
count. -/
theorem shouldDelay_iff (pxPreviousWakeTime xTimeIncrement : BitVec 32) :
    k.shouldDelay pxPreviousWakeTime (pxPreviousWakeTime + xTimeIncrement) = true ↔
      k.ticksSince pxPreviousWakeTime < xTimeIncrement.toNat := by
  have hlt : ∀ x y : BitVec 32, x < y ↔ x.toNat < y.toNat := fun _ _ => Iff.rfl
  have htick := k.xTickCount.isLt
  have hprevious := pxPreviousWakeTime.isLt
  have hincrement := xTimeIncrement.isLt
  unfold shouldDelay ticksSince
  split_ifs with hbefore
  · rw [Bool.and_eq_true, decide_eq_true_iff, decide_eq_true_iff, gt_iff_lt, hlt, hlt,
      BitVec.toNat_add, BitVec.toNat_sub]
    rw [hlt] at hbefore
    omega
  · rw [Bool.or_eq_true, decide_eq_true_iff, decide_eq_true_iff, gt_iff_lt, hlt, hlt,
      BitVec.toNat_add, BitVec.toNat_sub]
    rw [hlt] at hbefore
    omega

/-- The order of a list depends on the values of its own items. -/
theorem sorted_congr {value value' : T → BitVec 32} {xs : List T} (h : ItemList.Sorted value xs)
    (hsame : ∀ t ∈ xs, value' t = value t) : ItemList.Sorted value' xs := by
  refine List.Pairwise.imp_of_mem ?_ h
  intro x y hx hy hle
  rw [hsame x hx, hsame y hy]
  exact hle

variable [DecidableEq T]

/-- The running task has gone to a list of delayed tasks, and its event item to a list or not. -/
structure Armed (k k' : Tasks T E) (xTimeToWake : BitVec 32) (e : Option (EventList E)) :
    Prop extends Kept k k' where
  /-- the task is in the list in which its wake time is to be looked for -/
  container : k'.generic.container = Function.update k.generic.container k.pxCurrentTCB
    (some (.delayed (if xTimeToWake < k.xTickCount then !k.pxDelayedTaskList
      else k.pxDelayedTaskList)))
  /-- with its wake time -/
  value : k'.generic.value = Function.update k.generic.value k.pxCurrentTCB xTimeToWake
  /-- both lists are sorted by them -/
  sorted : ∀ b, ItemList.Sorted k'.generic.value (k'.generic.list (.delayed b)).items
  /-- its event item is where it is said to be -/
  event : k'.event.container = Function.update k.event.container k.pxCurrentTCB e
  /-- the pending tasks are those that were -/
  pending : (k'.event.list .pendingReady).items = (k.event.list .pendingReady).items
  uxTopReadyPriority : k'.uxTopReadyPriority = k.uxTopReadyPriority
  xYieldPending : k'.xYieldPending = k.xYieldPending
  /-- and the next wake time is noted -/
  xNextTaskUnblockTime : k'.xNextTaskUnblockTime =
    if xTimeToWake < k.xTickCount then k.xNextTaskUnblockTime
    else if xTimeToWake < k.xNextTaskUnblockTime then xTimeToWake
    else k.xNextTaskUnblockTime

/-- The list that a task is sorted into, and the others -/
theorem sorted_placed {s : ItemLists GenericList T} (v : BitVec 32) (hfree : s.container t = none)
    (hsorted : ∀ b, ItemList.Sorted s.value (s.list (.delayed b)).items) (b b' : Bool) :
    ItemList.Sorted (Function.update s.value t v)
      (Function.update s.list (.delayed b)
      ((s.list (.delayed b)).insert t (Function.update s.value t v))
        (.delayed b')).items := by
  have hsame : ∀ b, ItemList.Sorted (Function.update s.value t v) (s.list (.delayed b)).items := by
    intro b
    refine sorted_congr (hsorted b) fun u hu => Function.update_of_ne ?_ _ _
    rintro rfl
    rw [s.mem, hfree] at hu
    cases hu
  by_cases hb : b' = b
  · subst hb
    rw [Function.update_self, ItemList.items_insert]
    exact ItemList.sorted_sortIn (hsame b')
  · have hne : GenericList.delayed b' ≠ .delayed b := fun he => hb (GenericList.delayed.inj he)
    rw [Function.update_of_ne hne]
    exact hsame b'

/-- `prvAddCurrentTaskToDelayedList`, for a task that has been taken out of its list -/
theorem prvAddCurrentTaskToDelayedList_spec (v : BitVec 32)
    (hfree : k.generic.container k.pxCurrentTCB = none)
    (hsorted : ∀ b, ItemList.Sorted k.generic.value (k.generic.list (.delayed b)).items) :
    ∃ k', k.prvAddCurrentTaskToDelayedList v = some k' ∧
      Armed k k' v (k.event.container k.pxCurrentTCB) := by
  have hfree' : (k.generic.setValue k.pxCurrentTCB v).container k.pxCurrentTCB = none := hfree
  unfold prvAddCurrentTaskToDelayedList
  by_cases hwrap : v < k.xTickCount
  · simp only [if_pos hwrap]
    rw [ItemLists.insert_eq_some hfree']
    refine ⟨_, rfl, ⟨rfl, rfl, rfl, rfl, rfl, rfl, rfl, rfl, rfl, rfl⟩, ?_, rfl, fun b => ?_, ?_,
      rfl, rfl, rfl, ?_⟩
    · rw [if_pos hwrap]
      rfl
    · exact sorted_placed v hfree hsorted _ b
    · rw [Function.update_eq_self]
    · rw [if_pos hwrap]
  · simp only [if_neg hwrap]
    rw [ItemLists.insert_eq_some hfree']
    refine ⟨_, rfl, ⟨rfl, rfl, rfl, rfl, rfl, rfl, rfl, rfl, rfl, rfl⟩, ?_, rfl, fun b => ?_, ?_,
      rfl, rfl, rfl, ?_⟩
    · rw [if_neg hwrap]
      rfl
    · exact sorted_placed v hfree hsorted _ b
    · rw [Function.update_eq_self]
    · rw [if_neg hwrap]

/-- The running task leaves its list and waits. -/
theorem block_spec {l : GenericList} (v : BitVec 32)
    (hin : k.generic.container k.pxCurrentTCB = some l)
    (hsorted : ∀ b, ItemList.Sorted k.generic.value (k.generic.list (.delayed b)).items) :
    ∃ k', (k.removeGeneric k.pxCurrentTCB >>= fun k => k.prvAddCurrentTaskToDelayedList v) =
      some k' ∧
      Armed k k' v (k.event.container k.pxCurrentTCB) := by
  obtain ⟨k₁, h₁, honly, hgeneric, htop⟩ := removeGeneric_spec hin
  have hcurrent := honly.pxCurrentTCB
  have hfree : k₁.generic.container k₁.pxCurrentTCB = none := by
    rw [hcurrent, hgeneric, ItemLists.drop_container, Function.update_self]
  have hsorted₁ : ∀ b, ItemList.Sorted k₁.generic.value (k₁.generic.list (.delayed b)).items := by
    intro b
    rw [hgeneric, ItemLists.drop_value]
    exact (hsorted b).sublist (sublist_drop hin _)
  obtain ⟨k₂, h₂, harmed⟩ := prvAddCurrentTaskToDelayedList_spec v hfree hsorted₁
  refine ⟨k₂, by rw [h₁]; exact h₂, honly.toKept.trans harmed.toKept, ?_, ?_, harmed.sorted, ?_, ?_,
    ?_, ?_, ?_⟩
  · rw [harmed.container, hcurrent, hgeneric, ItemLists.drop_container, Function.update_idem,
      honly.xTickCount, honly.pxDelayedTaskList]
  · rw [harmed.value, hcurrent, hgeneric, ItemLists.drop_value]
  · rw [harmed.event, hcurrent, honly.event]
  · rw [harmed.pending, honly.event]
  · rw [harmed.uxTopReadyPriority, htop]
  · rw [harmed.xYieldPending, honly.xYieldPending]
  · rw [harmed.xNextTaskUnblockTime, honly.xTickCount, honly.xNextTaskUnblockTime]

/-! ## The invariant

A wake time that wraps goes to the other list, where it is below the tick count, and one that does
not wrap to the current list, where it is above it. A wait of no ticks would be neither. -/

/-- Only the running task is moved when it goes to a delayed list. -/
theorem Armed.container_of_ne {v : BitVec 32} {e : Option (EventList E)} (ha : Armed k k' v e)
    {u : T} (hu : u ≠ k.pxCurrentTCB) : k'.generic.container u = k.generic.container u := by
  rw [ha.container, Function.update_of_ne hu]

/-- Nobody becomes ready. -/
theorem Armed.ready {v : BitVec 32} {e : Option (EventList E)} (ha : Armed k k' v e) {u : T} {p : ℕ}
    (hu : k'.generic.container u = some (.ready p)) : k.generic.container u = some (.ready p) := by
  by_cases hcurrent : u = k.pxCurrentTCB
  · rw [ha.container, hcurrent, Function.update_self] at hu
    cases hu
  · rwa [ha.container_of_ne hcurrent] at hu

/-- The lists stay well formed when the running task, which is not the idle task, is delayed. -/
theorem Base.armed {v : BitVec 32} {e : Option (EventList E)} (h : k.Base idle)
    (ha : Armed k k' v e) (hidle : k.pxCurrentTCB ≠ idle) : k'.Base idle where
  ready := by
    intro u p hu
    rw [ha.uxPriority]
    exact h.ready u p (ha.ready hu)
  top := by
    intro u p hu
    rw [ha.uxTopReadyPriority]
    exact h.top u p (ha.ready hu)
  idle := by
    rw [ha.container_of_ne hidle.symm, ha.uxPriority]
    exact h.idle
  blocked := by
    intro u l hu
    by_cases hcurrent : u = k.pxCurrentTCB
    · rw [ha.container, hcurrent, Function.update_self]
      exact .inr ⟨_, rfl⟩
    · rw [ha.event, Function.update_of_ne hcurrent] at hu
      rw [ha.container_of_ne hcurrent]
      exact h.blocked u l hu
  sorted := ha.sorted
  wrapped := by
    intro u hu
    rw [ha.pxDelayedTaskList] at hu
    rw [ha.xTickCount, ha.value]
    by_cases hcurrent : u = k.pxCurrentTCB
    · rw [ha.container, hcurrent, Function.update_self] at hu
      rw [hcurrent, Function.update_self]
      split_ifs at hu with hwrap
      · exact hwrap
      · exact absurd (GenericList.delayed.inj (Option.some.inj hu)).symm (Bool.not_ne_self _)
    · rw [ha.container_of_ne hcurrent] at hu
      rw [Function.update_of_ne hcurrent]
      exact h.wrapped u hu

/-- A deadline that is not the current tick is ahead of it, in the list that the two are compared
for. -/
theorem Ahead.armed {v : BitVec 32} {e : Option (EventList E)} (h : k.Ahead) (ha : Armed k k' v e)
    (hv : v ≠ k.xTickCount) : k'.Ahead := by
  have hcases : ∀ u, k'.generic.container u = some (.delayed k'.pxDelayedTaskList) →
      (u = k.pxCurrentTCB ∧ ¬v < k.xTickCount) ∨
        (u ≠ k.pxCurrentTCB ∧ k.generic.container u = some (.delayed k.pxDelayedTaskList)) := by
    intro u hu
    rw [ha.pxDelayedTaskList] at hu
    by_cases hcurrent : u = k.pxCurrentTCB
    · rw [ha.container, hcurrent, Function.update_self] at hu
      refine .inl ⟨hcurrent, fun hwrap => ?_⟩
      rw [if_pos hwrap] at hu
      exact absurd (GenericList.delayed.inj (Option.some.inj hu)) (Bool.not_ne_self _)
    · rw [ha.container_of_ne hcurrent] at hu
      exact .inr ⟨hcurrent, hu⟩
  refine ⟨fun u hu => ?_, fun u hu => ?_⟩
  · rw [ha.xTickCount, ha.value]
    rcases hcases u hu with ⟨rfl, hwrap⟩ | ⟨hcurrent, hold⟩
    · rw [Function.update_self]
      have hle : k.xTickCount.toNat ≤ v.toNat := Nat.le_of_not_lt hwrap
      exact Nat.lt_of_le_of_ne hle fun he => hv (BitVec.eq_of_toNat_eq he).symm
    · rw [Function.update_of_ne hcurrent]
      exact h.later u hold
  · rw [ha.xNextTaskUnblockTime, ha.value]
    rcases hcases u hu with ⟨rfl, hwrap⟩ | ⟨hcurrent, hold⟩
    · rw [Function.update_self, if_neg hwrap]
      split_ifs with hnext
      · exact BitVec.le_refl _
      · exact BitVec.not_lt.mp hnext
    · rw [Function.update_of_ne hcurrent]
      have hle := h.next u hold
      split_ifs with hwrap hnext
      · exact hle
      · exact BitVec.le_trans (BitVec.le_of_lt hnext) hle
      · exact hle

/-- A task that delays itself for some ticks keeps the invariant of the runs. -/
theorem Good.armed {v : BitVec 32} {e : Option (EventList E)} (h : k.Good idle)
    (ha : Armed k k' v e) (hidle : k.pxCurrentTCB ≠ idle) (hv : v ≠ k.xTickCount) :
    k'.Good idle where
  toBase := h.toBase.armed ha hidle
  toAhead := h.toAhead.armed ha hv
  tasks := by
    rw [ha.uxCurrentNumberOfTasks]
    exact h.tasks
  pending := by
    rw [ha.uxSchedulerSuspended, ha.pending]
    exact h.pending
  ticks := by
    rw [ha.uxSchedulerSuspended, ha.uxPendedTicks]
    exact h.ticks
  current := by
    rw [ha.pxCurrentTCB, ha.container, Function.update_self]
    exact ⟨_, rfl, by simp⟩

/-- A task that leaves the ready lists puts none above the running one. -/
theorem Settled.armed {v : BitVec 32} {e : Option (EventList E)} (h : k.Settled)
    (ha : Armed k k' v e) :
    k'.Settled := by
  refine h.imp (fun hyield => ha.xYieldPending.trans hyield) fun htop u p hu => ?_
  rw [ha.uxPriority, ha.pxCurrentTCB]
  exact htop u p (ha.ready hu)

/-- The event item of the running task is in a list of an event. -/
structure Queued (k k₁ : Tasks T E) (e : E) : Prop extends OnlyEvent k k₁ where
  container : k₁.event.container = Function.update k.event.container k.pxCurrentTCB
    (some (.event e))
  pending : (k₁.event.list .pendingReady).items = (k.event.list .pendingReady).items

/-- The other item goes to the suspended tasks. -/
theorem Queued.moved {k₁ : Tasks T E} {e : E} {l : GenericList} (hq : Queued k k₁ e)
    (hm : Moved k₁ k' k₁.pxCurrentTCB l (some (.event e)))
    (hfree : k.event.container k.pxCurrentTCB = none) :
    Moved k k' k.pxCurrentTCB l (some (.event e)) where
  toKept := hq.toKept.trans hm.toKept
  container := by
    rw [hm.container, hq.pxCurrentTCB, hq.generic]
  value := by
    rw [hm.value, hq.generic]
  event := by
    rw [hm.event, hq.pxCurrentTCB, hq.container, Function.update_idem]
  delayed := by
    rw [← hq.generic]
    exact hm.delayed
  pending := by
    intro he
    have hnot : k.pxCurrentTCB ∉ (k.event.list .pendingReady).items := by
      rw [k.event.mem, hfree]
      exact (Option.some_ne_none _).symm
    rw [hm.pending he, hq.pxCurrentTCB, hq.pending, List.erase_of_not_mem hnot]

/-- The other item goes to the delayed tasks. -/
theorem Queued.armed {k₁ : Tasks T E} {e : E} {v : BitVec 32} (hq : Queued k k₁ e)
    (ha : Armed k₁ k' v (k₁.event.container k₁.pxCurrentTCB)) : Armed k k' v (some (.event e)) where
  toKept := hq.toKept.trans ha.toKept
  container := by
    rw [ha.container, hq.pxCurrentTCB, hq.generic, hq.xTickCount, hq.pxDelayedTaskList]
  value := by
    rw [ha.value, hq.pxCurrentTCB, hq.generic]
  sorted := ha.sorted
  event := by
    rw [ha.event, Function.update_eq_self, hq.container]
  pending := by
    rw [ha.pending, hq.pending]
  uxTopReadyPriority := ha.uxTopReadyPriority.trans hq.uxTopReadyPriority
  xYieldPending := ha.xYieldPending.trans hq.xYieldPending
  xNextTaskUnblockTime := by
    rw [ha.xNextTaskUnblockTime, hq.xTickCount, hq.xNextTaskUnblockTime]

/-! ## The clock

The deadline that is read off the lists is the tick count now and the ticks to wait, without
wrapping. -/

variable [DecidableEq E] {c : Clock T}

/-- The clock is set to the number of ticks from now on. -/
theorem Keeps.armed {n : ℕ} {e : Option (EventList E)} (h : k.Keeps c)
    (ha : Armed k k' (k.xTickCount + BitVec.ofNat 32 n) e)
    (hn : n < 2 ^ 32) (he : e ≠ some .pendingReady) : k'.Keeps (c.arm k.pxCurrentTCB n) where
  tick := ha.xTickCount.trans h.tick
  overflows := ha.xNumOfOverflows.trans h.overflows
  held := ha.uxPendedTicks.trans h.held
  suspended := ha.uxSchedulerSuspended.trans h.suspended
  deadline := by
    intro u
    change k'.deadline c.now u = Function.update c.deadline k.pxCurrentTCB (some (c.now + n)) u
    by_cases hu : u = k.pxCurrentTCB
    · subst hu
      have hevent : k'.event.container k.pxCurrentTCB ≠ some .pendingReady := by
        rw [ha.event, Function.update_self]
        exact he
      have hin := congrFun ha.container k.pxCurrentTCB
      rw [Function.update_self] at hin
      rw [Function.update_self, deadline_some hin hevent, ha.pxDelayedTaskList, ha.value,
        Function.update_self]
      have htick := h.toNat_tick
      have hvalue : (k.xTickCount + BitVec.ofNat 32 n).toNat =
          (k.xTickCount.toNat + n) % 2 ^ 32 := by
        rw [BitVec.toNat_add, BitVec.toNat_ofNat, Nat.mod_eq_of_lt hn]
      have hbound := k.xTickCount.isLt
      have hwrap : k.xTickCount + BitVec.ofNat 32 n < k.xTickCount ↔
          (k.xTickCount + BitVec.ofNat 32 n).toNat < k.xTickCount.toNat := Iff.rfl
      refine congrArg some ?_
      by_cases hlt : k.xTickCount + BitVec.ofNat 32 n < k.xTickCount
      · have hne : ¬(!k.pxDelayedTaskList) = k.pxDelayedTaskList := Bool.not_ne_self _
        rw [if_pos hlt, if_neg hne]
        rw [hwrap, hvalue] at hlt
        rw [hvalue]
        omega
      · rw [if_neg hlt, if_pos rfl]
        rw [hwrap, hvalue] at hlt
        rw [hvalue]
        omega
    · rw [Function.update_of_ne hu, ← h.deadline u]
      refine deadline_congr (ha.container_of_ne hu) ?_ ?_ ha.pxDelayedTaskList
      · rw [ha.event, Function.update_of_ne hu]
      · rw [ha.value, Function.update_of_ne hu]

/-! ## The calls

Each call is a block and perhaps a switch. With an event the event item comes first, and it is in
its list before the task is seen to wait. -/

/-- A delay shorter than `2 ^ 32` ticks never ends at the tick it begins at, wrapped or not. -/
theorem add_ofNat_ne {x : BitVec 32} {n : ℕ} (hpos : 0 < n) (hn : n < 2 ^ 32) :
    x + BitVec.ofNat 32 n ≠ x := by
  intro he
  have htoNat := congrArg BitVec.toNat he
  have hbound := x.isLt
  rw [BitVec.toNat_add, BitVec.toNat_ofNat, Nat.mod_eq_of_lt hn] at htoNat
  omega

/-- The running task waits for some ticks. -/
theorem block_next {n : ℕ} (h : k.Good idle) (hk : k.Keeps c) (hrunning : k.Running)
    (hidle : k.pxCurrentTCB ≠ idle) (hpos : 0 < n) (hn : n < 2 ^ 32) :
    ∃ k', (k.removeGeneric k.pxCurrentTCB >>= fun k₁ =>
        k₁.prvAddCurrentTaskToDelayedList (k.xTickCount + BitVec.ofNat 32 n)) = some k' ∧
      k'.Good idle ∧ k'.Keeps (c.arm k.pxCurrentTCB n) ∧ (k.Settled → k'.Settled) := by
  obtain ⟨p, hready⟩ := hrunning
  obtain ⟨k', hk', harmed⟩ := block_spec (k.xTickCount + BitVec.ofNat 32 n) hready h.sorted
  refine ⟨k', hk', h.armed harmed hidle (add_ofNat_ne hpos hn), hk.armed harmed hn ?_,
    fun hs => hs.armed harmed⟩
  rw [h.toBase.event_none hready]
  exact (Option.some_ne_none _).symm

/-- `vTaskDelay` -/
theorem delay_next {xTicksToDelay : BitVec 32} (h : k.Good idle) (hk : k.Keeps c)
    (hrunning : k.Running) (hidle : k.pxCurrentTCB ≠ idle) (hpos : 0 < xTicksToDelay.toNat) :
    ∃ k', k.step (.delay xTicksToDelay) = some k' ∧ k'.Good idle ∧
      k'.Keeps (c.arm k.pxCurrentTCB xTicksToDelay.toNat) ∧ (k.Settled → k'.Settled) := by
  have hnext := block_next h hk hrunning hidle hpos xTicksToDelay.isLt
  rwa [BitVec.ofNat_toNat, BitVec.setWidth_eq] at hnext

/-- What the clock does when the running task waits until a time -/
def untilClock (k : Tasks T E) (c : Clock T) (pxPreviousWakeTime xTimeIncrement : BitVec 32) :
    Clock T :=
  if k.ticksSince pxPreviousWakeTime < xTimeIncrement.toNat then
    c.arm k.pxCurrentTCB (xTimeIncrement.toNat - k.ticksSince pxPreviousWakeTime)
  else c

/-- `vTaskDelayUntil` -/
theorem delayUntil_next {pxPreviousWakeTime xTimeIncrement : BitVec 32} (h : k.Good idle)
    (hk : k.Keeps c) (hrunning : k.Running) (hidle : k.pxCurrentTCB ≠ idle) :
    ∃ k', k.step (.delayUntil pxPreviousWakeTime xTimeIncrement) = some k' ∧ k'.Good idle ∧
      k'.Keeps (k.untilClock c pxPreviousWakeTime xTimeIncrement) ∧ (k.Settled → k'.Settled) := by
  by_cases hlate : k.ticksSince pxPreviousWakeTime < xTimeIncrement.toNat
  · obtain ⟨n, hn⟩ : ∃ n, n = xTimeIncrement.toNat - k.ticksSince pxPreviousWakeTime := ⟨_, rfl⟩
    have hbound : n < 2 ^ 32 := hn ▸ lt_of_le_of_lt (Nat.sub_le _ _) xTimeIncrement.isLt
    have htime : pxPreviousWakeTime + xTimeIncrement = k.xTickCount + BitVec.ofNat 32 n := by
      refine BitVec.eq_of_toNat_eq ?_
      have htick := k.xTickCount.isLt
      have hprevious := pxPreviousWakeTime.isLt
      have hincrement := xTimeIncrement.isLt
      rw [ticksSince, BitVec.toNat_sub] at hn hlate
      rw [BitVec.toNat_add, BitVec.toNat_add, BitVec.toNat_ofNat, Nat.mod_eq_of_lt hbound]
      omega
    obtain ⟨k', hk', hgood, hkeeps, hsettled⟩ :=
      block_next h hk hrunning hidle (hn ▸ Nat.sub_pos_of_lt hlate) hbound
    refine ⟨k', ?_, hgood, ?_, hsettled⟩
    · obtain ⟨k₁, h₁, h₂⟩ := Option.bind_eq_some_iff.mp hk'
      rw [step, delayCurrentUntil, if_pos ((shouldDelay_iff _ _).mpr hlate), h₁]
      change ((k₁.prvAddCurrentTaskToDelayedList _ >>= _) >>= _) = _
      rw [htime, h₂]
      rfl
    · rw [untilClock, if_pos hlate, ← hn]
      exact hkeeps
  · refine ⟨k, ?_, h, ?_, id⟩
    · rw [step, delayCurrentUntil, if_neg fun hs => hlate ((shouldDelay_iff _ _).mp hs)]
      rfl
    · rw [untilClock, if_neg hlate]
      exact hk

/-- What the clock does when a task waits for so many ticks or without a limit -/
def waitClock (c : Clock T) (t : T) (xTicksToWait : BitVec 32) : Clock T :=
  if xTicksToWait = portMaxDelay then c.clear t else c.arm t xTicksToWait.toNat

/-- `vTaskPlaceOnEventList` begins with the event item. -/
theorem vTaskPlaceOnEventList_spec (e : E) (xTicksToWait : BitVec 32)
    (hfree : k.event.container k.pxCurrentTCB = none) :
    ∃ k₁, Queued k k₁ e ∧ k.vTaskPlaceOnEventList e xTicksToWait =
    (k₁.removeGeneric k₁.pxCurrentTCB >>= fun k₂ =>
      if xTicksToWait = portMaxDelay then do
        let generic ← k₂.generic.insertEnd .suspended k₂.pxCurrentTCB
        return { k₂ with generic := generic }
      else k₂.prvAddCurrentTaskToDelayedList (k₂.xTickCount + xTicksToWait)) := by
  refine ⟨{ k with
    event := k.event.place (.event e) k.pxCurrentTCB
      ((k.event.list (.event e)).insert k.pxCurrentTCB k.event.value)
      hfree (k.event.insert_perm _ _) },
        ⟨⟨⟨rfl, rfl, rfl, rfl, rfl, rfl, rfl, rfl, rfl, rfl⟩, rfl, rfl, rfl, rfl⟩,
    rfl, ?_⟩, ?_⟩
  · have hne : EventList.pendingReady ≠ .event e := by simp
    change (Function.update k.event.list _ _ _).items = _
    rw [Function.update_of_ne hne]
  · rw [vTaskPlaceOnEventList, ItemLists.insert_eq_some hfree]
    rfl

/-- `vTaskPlaceOnEventList` -/
theorem placeOnEventList_next {e : E} {xTicksToWait : BitVec 32} (h : k.Good idle) (hk : k.Keeps c)
    (hrunning : k.Running) (hidle : k.pxCurrentTCB ≠ idle) (hpos : 0 < xTicksToWait.toNat) :
    ∃ k', k.step (.placeOnEventList e xTicksToWait) = some k' ∧ k'.Good idle ∧
      k'.Keeps (waitClock c k.pxCurrentTCB xTicksToWait) ∧ (k.Settled → k'.Settled) := by
  obtain ⟨p, hready⟩ := hrunning
  have hfree := h.toBase.event_none hready
  obtain ⟨k₁, hq, hplace⟩ := vTaskPlaceOnEventList_spec e xTicksToWait hfree
  have hin : k₁.generic.container k₁.pxCurrentTCB = some (.ready p) := by
    rw [hq.pxCurrentTCB, hq.generic]
    exact hready
  rw [step, hplace, waitClock]
  by_cases hmax : xTicksToWait = portMaxDelay
  · obtain ⟨k₂, h₂, honly, hgeneric, htop⟩ := removeGeneric_spec hin
    have hevent : k₂.event.container =
        Function.update k₁.event.container k₁.pxCurrentTCB (some (.event e)) := by
      rw [honly.event, hq.container, hq.pxCurrentTCB, Function.update_idem]
    have hpending : (k₂.event.list .pendingReady).items =
        (k₁.event.list .pendingReady).items.erase k₁.pxCurrentTCB := by
      rw [honly.event, List.erase_of_not_mem]
      rw [k₁.event.mem, hq.container, hq.pxCurrentTCB, Function.update_self]
      simp
    obtain ⟨s, hs, hm₁⟩ := insertEnd_spec hin honly hgeneric (.refl k₂) hevent
      (fun _ => hpending) .suspended
    have hm := hq.moved hm₁ hfree
    rw [← honly.pxCurrentTCB] at hs
    simp only [if_pos hmax]
    rw [h₂]
    change ∃ k', (k₂.generic.insertEnd .suspended k₂.pxCurrentTCB >>= _) = some k' ∧ _
    rw [hs]
    have htop' : k₂.uxTopReadyPriority = k.uxTopReadyPriority := htop.trans hq.uxTopReadyPriority
    have hyield : k₂.xYieldPending = k.xYieldPending := honly.xYieldPending.trans hq.xYieldPending
    have hnext : k₂.xNextTaskUnblockTime = k.xNextTaskUnblockTime :=
      honly.xNextTaskUnblockTime.trans hq.xNextTaskUnblockTime
    refine ⟨_, rfl, ⟨?_, ?_⟩,
      hk.moved hm (by simp), fun hset => hset.retired_moved hm (by simp) hyield⟩
    · exact h.toSteady.retired_moved (.inl rfl) (fun _ => rfl)
        (by simp) hidle hm htop' (h.toAhead.moved hm (by simp) hnext)
    · exact CurrentLives.moved h.current hm (by simp)
  · have hsorted : ∀ b, ItemList.Sorted k₁.generic.value (k₁.generic.list (.delayed b)).items := by
      rw [hq.generic]
      exact h.sorted
    obtain ⟨k', hk', ha₁⟩ := block_spec (k₁.xTickCount + xTicksToWait) hin hsorted
    obtain ⟨k₂, h₂, honly, -⟩ := removeGeneric_spec hin
    have ha := hq.armed ha₁
    rw [hq.xTickCount] at ha
    simp only [if_neg hmax]
    have hn : xTicksToWait = BitVec.ofNat 32 xTicksToWait.toNat := by
      rw [BitVec.ofNat_toNat, BitVec.setWidth_eq]
    rw [hn] at ha
    refine ⟨k', ?_, h.armed ha hidle (add_ofNat_ne hpos xTicksToWait.isLt),
      hk.armed ha xTicksToWait.isLt (by simp), fun hset => hset.armed ha⟩
    rw [h₂] at hk' ⊢
    change k₂.prvAddCurrentTaskToDelayedList (k₂.xTickCount + xTicksToWait) = some k'
    rw [honly.xTickCount]
    exact hk'

end Tasks

end BitThunder
