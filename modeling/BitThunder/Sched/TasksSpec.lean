import BitThunder.Sched.Tasks

/-!
# What the calls of the scheduler do

For each function of `Sched.Tasks` one lemma: from a state that has the invariant it has a result,
and what the result is. `Moved` is what all ways to move a task from one list to another have in
common.

* `Tasks.Base`: the invariant that also holds within the loops;
* `Tasks.Good`: the invariant between two calls;
* `wake_spec`, `ready_spec`: a task becomes ready.

The invariant is in layers because the functions call each other at moments when not all of it
holds. `Base` is what is true at any time, `Ahead` fails while a tick is at work, and `Steady` fails
while the scheduler is being resumed; `Good` adds the running task, which may be deleted and not yet
switched from.

A move is described by what it does to one task, and by a sublist for the others: where an item is
taken out the rest keeps its order. With this a delayed list stays sorted under every move that does
not sort into it.
-/

namespace BitThunder

namespace Tasks

variable {T E : Type}

/-! ## The invariant

Its clauses are said of containers rather than of lists wherever that is possible, so that a move is
an update of one function. -/

/-- The part of the invariant that holds within the loops as well. `idle` is the task that is always
ready. -/
structure Base (idle : T) (k : Tasks T E) : Prop where
  /-- a ready task is in the list of its priority -/
  ready : ∀ t p, k.generic.container t = some (.ready p) → k.uxPriority t = p
  /-- which is not above the highest ready priority -/
  top : ∀ t p, k.generic.container t = some (.ready p) → p ≤ k.uxTopReadyPriority
  /-- the idle task is ready -/
  idle : k.generic.container idle = some (.ready (k.uxPriority idle))
  /-- a task that waits for an event is not ready -/
  blocked : ∀ t l, k.event.container t = some l →
    k.generic.container t = some .suspended ∨ ∃ b, k.generic.container t = some (.delayed b)
  /-- both lists of delayed tasks are sorted -/
  sorted : ∀ b, ItemList.Sorted k.generic.value (k.generic.list (.delayed b)).items
  /-- the wake times in the other list have passed the end of the tick count -/
  wrapped : ∀ t, k.generic.container t = some (.delayed !k.pxDelayedTaskList) →
    k.generic.value t < k.xTickCount

/-- The wake times in the current list are still to come, and the next of them is not before the
noted one. -/
structure Ahead (k : Tasks T E) : Prop where
  /-- no time in the current list has come -/
  later : ∀ t, k.generic.container t = some (.delayed k.pxDelayedTaskList) →
    k.xTickCount < k.generic.value t
  /-- and none comes before the noted one -/
  next : ∀ t, k.generic.container t = some (.delayed k.pxDelayedTaskList) →
    k.xNextTaskUnblockTime ≤ k.generic.value t

/-- The invariant between two calls, for all but the running task -/
structure Steady (idle : T) (k : Tasks T E) : Prop extends k.Base idle, k.Ahead where
  /-- there are tasks -/
  tasks : 0 < k.uxCurrentNumberOfTasks
  /-- tasks are only pending while the scheduler is suspended -/
  pending : k.uxSchedulerSuspended = 0 → (k.event.list .pendingReady).items = []
  /-- and ticks are only held back then -/
  ticks : k.uxSchedulerSuspended = 0 → k.uxPendedTicks = 0

/-- The invariant between two calls -/
structure Good (idle : T) (k : Tasks T E) : Prop extends k.Steady idle where
  /-- the running task has not been deleted -/
  current : ∃ l, k.generic.container k.pxCurrentTCB = some l ∧ l ≠ .waitingTermination

/-- What a move of a task leaves alone -/
structure Kept (k k' : Tasks T E) : Prop where
  uxPriority : k'.uxPriority = k.uxPriority
  uxBasePriority : k'.uxBasePriority = k.uxBasePriority
  uxMutexesHeld : k'.uxMutexesHeld = k.uxMutexesHeld
  pxCurrentTCB : k'.pxCurrentTCB = k.pxCurrentTCB
  pxDelayedTaskList : k'.pxDelayedTaskList = k.pxDelayedTaskList
  uxCurrentNumberOfTasks : k'.uxCurrentNumberOfTasks = k.uxCurrentNumberOfTasks
  xTickCount : k'.xTickCount = k.xTickCount
  uxPendedTicks : k'.uxPendedTicks = k.uxPendedTicks
  xNumOfOverflows : k'.xNumOfOverflows = k.xNumOfOverflows
  uxSchedulerSuspended : k'.uxSchedulerSuspended = k.uxSchedulerSuspended

theorem Kept.refl (k : Tasks T E) : Kept k k := ⟨rfl, rfl, rfl, rfl, rfl, rfl, rfl, rfl, rfl, rfl⟩

theorem Kept.trans {k₁ k₂ k₃ : Tasks T E} (h : Kept k₁ k₂) (h' : Kept k₂ k₃) : Kept k₁ k₃ :=
  ⟨h'.1.trans h.1, h'.2.trans h.2, h'.3.trans h.3, h'.4.trans h.4, h'.5.trans h.5, h'.6.trans h.6,
    h'.7.trans h.7, h'.8.trans h.8, h'.9.trans h.9, h'.10.trans h.10⟩

/-- Nothing but the lists for the generic items and the highest ready priority changes. -/
structure OnlyGeneric (k k' : Tasks T E) : Prop extends Kept k k' where
  event : k'.event = k.event
  xYieldPending : k'.xYieldPending = k.xYieldPending
  xNextTaskUnblockTime : k'.xNextTaskUnblockTime = k.xNextTaskUnblockTime

theorem OnlyGeneric.trans {k₁ k₂ k₃ : Tasks T E} (h : OnlyGeneric k₁ k₂) (h' : OnlyGeneric k₂ k₃) :
    OnlyGeneric k₁ k₃ :=
  ⟨h.toKept.trans h'.toKept, h'.event.trans h.event, h'.xYieldPending.trans h.xYieldPending,
    h'.xNextTaskUnblockTime.trans h.xNextTaskUnblockTime⟩

/-- Nothing but the lists for the event items changes. -/
structure OnlyEvent (k k' : Tasks T E) : Prop extends Kept k k' where
  generic : k'.generic = k.generic
  uxTopReadyPriority : k'.uxTopReadyPriority = k.uxTopReadyPriority
  xYieldPending : k'.xYieldPending = k.xYieldPending
  xNextTaskUnblockTime : k'.xNextTaskUnblockTime = k.xNextTaskUnblockTime

theorem OnlyEvent.refl (k : Tasks T E) : OnlyEvent k k := ⟨Kept.refl k, rfl, rfl, rfl, rfl⟩

/-- The invariant does not depend on what the scheduler notes for the next tick and switch. -/
theorem Base.kept {idle : T} {k k' : Tasks T E} (h : k.Base idle) (hkept : Kept k k')
    (hgeneric : k'.generic = k.generic) (hevent : k'.event = k.event)
    (htop : k'.uxTopReadyPriority = k.uxTopReadyPriority) : k'.Base idle where
  ready := by
    rw [hgeneric, hkept.uxPriority]
    exact h.ready
  top := by
    rw [hgeneric, htop]
    exact h.top
  idle := by
    rw [hgeneric, hkept.uxPriority]
    exact h.idle
  blocked := by
    rw [hgeneric, hevent]
    exact h.blocked
  sorted := by
    rw [hgeneric]
    exact h.sorted
  wrapped := by
    rw [hgeneric, hkept.pxDelayedTaskList, hkept.xTickCount]
    exact h.wrapped

variable [DecidableEq T]

/-- A task has moved to a list, and its event item to another one or out of all. -/
structure Moved (k k' : Tasks T E) (t : T) (l : GenericList) (e : Option (EventList E)) :
    Prop extends Kept k k' where
  /-- the task is in the list, and the others are where they were -/
  container : k'.generic.container = Function.update k.generic.container t (some l)
  /-- all have their values -/
  value : k'.generic.value = k.generic.value
  /-- the same is true of the event items -/
  event : k'.event.container = Function.update k.event.container t e
  /-- no task has come to another list of delayed ones -/
  delayed : ∀ b, l ≠ .delayed b → (k'.generic.list (.delayed b)).items.Sublist
    (k.generic.list (.delayed b)).items
  /-- and none to the pending ones -/
  pending : e ≠ some .pendingReady → (k'.event.list .pendingReady).items =
    (k.event.list .pendingReady).items.erase t

/-- Only one list of a removal changes. -/
theorem sublist_drop {L : Type} [DecidableEq L] {s : ItemLists L T} {l : L} {t : T}
    (hin : s.container t = some l) (m : L) :
    ((s.drop l t hin).list m).items.Sublist (s.list m).items := by
  rw [ItemLists.drop_list]
  by_cases hm : m = l
  · subst hm
    rw [Function.update_self, ItemList.items_remove (s.nodup m)]
    exact List.erase_sublist
  · rw [Function.update_of_ne hm]

/-- What is left of a list after a removal -/
theorem items_drop {L : Type} [DecidableEq L] {s : ItemLists L T} {l : L} {t : T}
    (hin : s.container t = some l) (m : L) :
    ((s.drop l t hin).list m).items = (s.list m).items.erase t := by
  rw [ItemLists.drop_list]
  by_cases hm : m = l
  · subst hm
    rw [Function.update_self, ItemList.items_remove (s.nodup m)]
  · rw [Function.update_of_ne hm, List.erase_of_not_mem]
    rw [s.mem, hin]
    exact fun he => hm (Option.some.inj he).symm

variable {idle : T} {k k' : Tasks T E} {t : T}

/-- A task that has become ready -/
theorem Base.ready_moved (h : k.Base idle) (hm : Moved k k' t (.ready (k.uxPriority t)) none)
    (htop : k'.uxTopReadyPriority = max k.uxTopReadyPriority (k.uxPriority t)) : k'.Base idle where
  ready := by
    intro u p hu
    rw [hm.uxPriority]
    rw [hm.container] at hu
    by_cases hut : u = t
    · subst hut
      rw [Function.update_self] at hu
      exact GenericList.ready.inj (Option.some.inj hu)
    · rw [Function.update_of_ne hut] at hu
      exact h.ready u p hu
  top := by
    intro u p hu
    rw [htop]
    rw [hm.container] at hu
    by_cases hut : u = t
    · subst hut
      rw [Function.update_self] at hu
      rw [← GenericList.ready.inj (Option.some.inj hu)]
      exact le_max_right _ _
    · rw [Function.update_of_ne hut] at hu
      exact (h.top u p hu).trans (le_max_left _ _)
  idle := by
    rw [hm.container, hm.uxPriority]
    by_cases ht : idle = t
    · rw [ht, Function.update_self]
    · rw [Function.update_of_ne ht]
      exact h.idle
  blocked := by
    intro u l hu
    rw [hm.event] at hu
    by_cases hut : u = t
    · rw [hut, Function.update_self] at hu
      cases hu
    · rw [Function.update_of_ne hut] at hu
      rw [hm.container, Function.update_of_ne hut]
      exact h.blocked u l hu
  sorted := by
    intro b
    rw [hm.value]
    exact (h.sorted b).sublist (hm.delayed b (by simp))
  wrapped := by
    intro u hu
    rw [hm.pxDelayedTaskList, hm.container] at hu
    rw [hm.value, hm.xTickCount]
    by_cases hut : u = t
    · rw [hut, Function.update_self] at hu
      cases hu
    · rw [Function.update_of_ne hut] at hu
      exact h.wrapped u hu

/-- A task that has left all lists of ready and delayed tasks. If it waits for an event it is
suspended. -/
theorem Base.retired_moved {l : GenericList} {e : Option (EventList E)} (h : k.Base idle)
    (hl : l = .suspended ∨ l = .waitingTermination) (he : e ≠ none → l = .suspended)
    (hidle : t ≠ idle)
    (hm : Moved k k' t l e) (htop : k'.uxTopReadyPriority = k.uxTopReadyPriority) :
    k'.Base idle := by
  have hready : ∀ p, l ≠ .ready p := by
    rintro p rfl
    exact hl.elim (by simp) (by simp)
  have hdelayed : ∀ b, l ≠ .delayed b := by
    rintro b rfl
    exact hl.elim (by simp) (by simp)
  have hother : ∀ u m, m ≠ l → k'.generic.container u = some m →
      u ≠ t ∧ k.generic.container u = some m := by
    intro u m hne hu
    rw [hm.container] at hu
    by_cases hut : u = t
    · rw [hut, Function.update_self] at hu
      exact absurd (Option.some.inj hu).symm hne
    · rw [Function.update_of_ne hut] at hu
      exact ⟨hut, hu⟩
  refine ⟨fun u p hu => ?_, fun u p hu => ?_, ?_, fun u m hu => ?_, fun b => ?_, fun u hu => ?_⟩
  · rw [hm.uxPriority]
    exact h.ready u p (hother u _ (hready p).symm hu).2
  · rw [htop]
    exact h.top u p (hother u _ (hready p).symm hu).2
  · rw [hm.container, hm.uxPriority, Function.update_of_ne hidle.symm]
    exact h.idle
  · rw [hm.event] at hu
    by_cases hut : u = t
    · rw [hut, Function.update_self] at hu
      rw [hm.container, hut, Function.update_self, he (hu ▸ Option.some_ne_none m)]
      exact .inl rfl
    · rw [Function.update_of_ne hut] at hu
      rw [hm.container, Function.update_of_ne hut]
      exact h.blocked u m hu
  · rw [hm.value]
    exact (h.sorted b).sublist (hm.delayed b (hdelayed b))
  · rw [hm.pxDelayedTaskList] at hu
    rw [hm.value, hm.xTickCount]
    exact h.wrapped u (hother u _ (hdelayed _).symm hu).2

/-! ## Moves

An item is removed and then put into another list. In between it is in none, and the invariant of
the lists, a field of theirs, holds there as well. -/

/-- `uxListRemove` of a generic item, which is in some list. -/
theorem removeGeneric_spec {l : GenericList} (hin : k.generic.container t = some l) :
    ∃ k', k.removeGeneric t = some k' ∧ OnlyGeneric k k' ∧ k'.generic = k.generic.drop l t hin ∧
      k'.uxTopReadyPriority = k.uxTopReadyPriority := by
  refine ⟨{ k with generic := k.generic.drop l t hin }, ?_,
    ⟨⟨rfl, rfl, rfl, rfl, rfl, rfl, rfl, rfl, rfl, rfl⟩, rfl,
    rfl, rfl⟩, rfl, rfl⟩
  rw [removeGeneric, ItemLists.remove_eq_some hin]
  rfl

/-- `prvAddTaskToReadyList` puts a free task to the end of the list of its priority and raises the
highest priority to it. -/
theorem prvAddTaskToReadyList_spec (hfree : k.generic.container t = none) :
    ∃ k', k.prvAddTaskToReadyList t = some k' ∧ OnlyGeneric k k' ∧
      k'.generic = k.generic.place (.ready (k.uxPriority t)) t
      ((k.generic.list (.ready (k.uxPriority t))).insertEnd t)
        hfree ItemList.items_insertEnd ∧
      k'.uxTopReadyPriority = max k.uxTopReadyPriority (k.uxPriority t) := by
  have hmax : (if k.uxPriority t > k.uxTopReadyPriority then k.uxPriority t
      else k.uxTopReadyPriority) =
      max k.uxTopReadyPriority (k.uxPriority t) := by
    split_ifs with hgt
    · exact (max_eq_right hgt.le).symm
    · exact (max_eq_left (not_lt.mp hgt)).symm
  rw [prvAddTaskToReadyList, ItemLists.insertEnd_eq_some hfree, hmax]
  exact ⟨_, rfl, ⟨⟨rfl, rfl, rfl, rfl, rfl, rfl, rfl, rfl, rfl, rfl⟩, rfl, rfl, rfl⟩, rfl, rfl⟩

/-- A task that was in no list is ready. -/
theorem added_spec (hfree : k.generic.container t = none) (hevent : k.event.container t = none) :
    ∃ k', k.prvAddTaskToReadyList t = some k' ∧ Moved k k' t (.ready (k.uxPriority t)) none ∧
      OnlyGeneric k k' ∧
      k'.uxTopReadyPriority = max k.uxTopReadyPriority (k.uxPriority t) := by
  obtain ⟨k', hk', honly, hgeneric, htop⟩ := prvAddTaskToReadyList_spec hfree
  refine ⟨k', hk', ⟨honly.toKept, ?_, ?_, ?_, fun b _ => ?_, fun _ => ?_⟩, honly, htop⟩
  · rw [hgeneric, ItemLists.place_container]
  · rw [hgeneric, ItemLists.place_value]
  · rw [honly.event, ← hevent, Function.update_eq_self]
  · have hne : GenericList.delayed b ≠ .ready (k.uxPriority t) := by simp
    rw [hgeneric, ItemLists.place_list, Function.update_of_ne hne]
  · rw [honly.event, List.erase_of_not_mem]
    rw [k.event.mem, hevent]
    simp

/-- A task that was in some list is ready. -/
theorem ready_spec {l : GenericList} (hin : k.generic.container t = some l)
    (hevent : k.event.container t = none) :
    ∃ k', (k.removeGeneric t >>= fun k => k.prvAddTaskToReadyList t) = some k' ∧
      Moved k k' t (.ready (k.uxPriority t)) none ∧ OnlyGeneric k k' ∧
      k'.uxTopReadyPriority = max k.uxTopReadyPriority (k.uxPriority t) := by
  obtain ⟨k₁, h₁, honly₁, hgeneric₁, htop₁⟩ := removeGeneric_spec hin
  have hfree : k₁.generic.container t = none := by
    rw [hgeneric₁, ItemLists.drop_container, Function.update_self]
  obtain ⟨k₂, h₂, honly₂, hgeneric₂, htop₂⟩ := prvAddTaskToReadyList_spec hfree
  have honly := honly₁.trans honly₂
  refine ⟨k₂, by rw [h₁]; exact h₂, ⟨honly.toKept, ?_, ?_, ?_, fun b _ => ?_, fun _ => ?_⟩, honly,
    ?_⟩
  · rw [hgeneric₂, ItemLists.place_container, hgeneric₁, ItemLists.drop_container,
      Function.update_idem, honly₁.uxPriority]
  · rw [hgeneric₂, ItemLists.place_value, hgeneric₁, ItemLists.drop_value]
  · rw [honly.event, ← hevent, Function.update_eq_self]
  · have hne : GenericList.delayed b ≠ .ready (k₁.uxPriority t) := by simp
    rw [hgeneric₂, ItemLists.place_list, Function.update_of_ne hne, hgeneric₁]
    exact sublist_drop hin _
  · rw [honly.event, List.erase_of_not_mem]
    rw [k.event.mem, hevent]
    simp
  · rw [htop₂, htop₁, honly₁.uxPriority]

/-- A task that was in some list goes to another one, whatever becomes of its event item in between.
-/
theorem insertEnd_spec {l : GenericList} {e : Option (EventList E)} {k₁ k₂ : Tasks T E}
    (hin : k.generic.container t = some l) (honly₁ : OnlyGeneric k k₁)
    (hgeneric : k₁.generic = k.generic.drop l t hin)
    (honly₂ : OnlyEvent k₁ k₂) (hevent : k₂.event.container = Function.update k.event.container t e)
    (hpending : e ≠ some .pendingReady →
      (k₂.event.list .pendingReady).items = (k.event.list .pendingReady).items.erase t) (m :
      GenericList) :
    ∃ s, k₂.generic.insertEnd m t = some s ∧ Moved k { k₂ with generic := s } t m e := by
  have hfree : k₂.generic.container t = none := by
    rw [honly₂.generic, hgeneric, ItemLists.drop_container, Function.update_self]
  have hkept := honly₁.toKept.trans honly₂.toKept
  refine ⟨_, ItemLists.insertEnd_eq_some hfree,
    ⟨⟨hkept.1, hkept.2, hkept.3, hkept.4, hkept.5, hkept.6, hkept.7, hkept.8,
    hkept.9, hkept.10⟩, ?_, ?_, hevent, fun b hb => ?_, hpending⟩⟩
  · rw [ItemLists.place_container, honly₂.generic, hgeneric, ItemLists.drop_container,
      Function.update_idem]
  · rw [ItemLists.place_value, honly₂.generic, hgeneric, ItemLists.drop_value]
  · rw [ItemLists.place_list, Function.update_of_ne hb.symm, honly₂.generic, hgeneric]
    exact sublist_drop hin _

variable [DecidableEq E]

/-- `uxListRemove` of an event item, which is in some list. -/
theorem removeEvent_spec {e : EventList E} (hin : k.event.container t = some e) :
    ∃ k', k.removeEvent t = some k' ∧ OnlyEvent k k' ∧ k'.event = k.event.drop e t hin := by
  rw [removeEvent, ItemLists.remove_eq_some hin]
  exact ⟨_, rfl, ⟨⟨rfl, rfl, rfl, rfl, rfl, rfl, rfl, rfl, rfl, rfl⟩, rfl, rfl, rfl, rfl⟩, rfl⟩

/-- The event item is removed if it is in a list; where it is in none nothing is done. -/
theorem leaveEvent_spec (k : Tasks T E) (t : T) :
    ∃ k', k.leaveEvent t = some k' ∧ OnlyEvent k k' ∧
      k'.event.container = Function.update k.event.container t none ∧
      ∀ e, (k'.event.list e).items = (k.event.list e).items.erase t := by
  obtain ⟨c, hc⟩ : ∃ c, k.event.container t = c := ⟨_, rfl⟩
  cases c with
  | none =>
    have hnot : ¬k.event.container t ≠ none := not_not.mpr hc
    refine ⟨k, by rw [leaveEvent, if_neg hnot], ⟨Kept.refl k, rfl, rfl, rfl, rfl⟩, ?_, fun e => ?_⟩
    · rw [← hc, Function.update_eq_self]
    · rw [List.erase_of_not_mem]
      rw [k.event.mem, hc]
      simp
  | some e =>
    obtain ⟨k', hk', honly, hevent⟩ := removeEvent_spec hc
    have hne : k.event.container t ≠ none := by
      rw [hc]
      exact Option.some_ne_none e
    refine ⟨k', by rw [leaveEvent, if_pos hne, hk'], honly, ?_, fun e' => ?_⟩
    · rw [hevent, ItemLists.drop_container]
    · rw [hevent]
      exact items_drop hc e'

/-- A delayed task whose time has come is ready, and waits for no event. -/
theorem wake_spec {l : GenericList} (hin : k.generic.container t = some l) :
    ∃ k', (do
        let k ← k.removeGeneric t
        let k ← k.leaveEvent t
        k.prvAddTaskToReadyList t) = some k' ∧
      Moved k k' t (.ready (k.uxPriority t)) none ∧
      k'.uxTopReadyPriority = max k.uxTopReadyPriority (k.uxPriority t) ∧
      k'.xYieldPending = k.xYieldPending ∧ k'.xNextTaskUnblockTime = k.xNextTaskUnblockTime ∧
      ∀ b, (k'.generic.list (.delayed b)).items = (k.generic.list (.delayed b)).items.erase t := by
  obtain ⟨k₁, h₁, honly₁, hgeneric₁, htop₁⟩ := removeGeneric_spec hin
  obtain ⟨k₂, h₂, honly₂, hevent₂, hitems₂⟩ := k₁.leaveEvent_spec t
  have hfree : k₂.generic.container t = none := by
    rw [honly₂.generic, hgeneric₁, ItemLists.drop_container, Function.update_self]
  obtain ⟨k₃, h₃, honly₃, hgeneric₃, htop₃⟩ := prvAddTaskToReadyList_spec hfree
  have hkept := (honly₁.toKept.trans honly₂.toKept).trans honly₃.toKept
  have hpriority : k₂.uxPriority t = k.uxPriority t := by
    rw [honly₂.uxPriority, honly₁.uxPriority]
  have hdelayed : ∀ b, (k₃.generic.list (.delayed b)).items =
      (k.generic.list (.delayed b)).items.erase t := by
    intro b
    have hne : GenericList.delayed b ≠ .ready (k₂.uxPriority t) := by simp
    rw [hgeneric₃, ItemLists.place_list, Function.update_of_ne hne, honly₂.generic, hgeneric₁]
    exact items_drop hin _
  refine ⟨k₃, by rw [h₁]; exact (congrArg (· >>= _) h₂).trans h₃,
    ⟨hkept, ?_, ?_, ?_, fun b _ => ?_, fun _ => ?_⟩, ?_,
    ?_, ?_, hdelayed⟩
  · rw [hgeneric₃, ItemLists.place_container, honly₂.generic, hgeneric₁, ItemLists.drop_container,
      Function.update_idem, hpriority]
  · rw [hgeneric₃, ItemLists.place_value, honly₂.generic, hgeneric₁, ItemLists.drop_value]
  · rw [honly₃.event, hevent₂, honly₁.event]
  · rw [hdelayed]
    exact List.erase_sublist
  · rw [honly₃.event, hitems₂, honly₁.event]
  · rw [htop₃, hpriority, honly₂.uxTopReadyPriority, htop₁]
  · rw [honly₃.xYieldPending, honly₂.xYieldPending, honly₁.xYieldPending]
  · rw [honly₃.xNextTaskUnblockTime, honly₂.xNextTaskUnblockTime, honly₁.xNextTaskUnblockTime]

/-- A task whose event has come is ready. -/
theorem event_spec {l : GenericList} {e : EventList E} (hin : k.generic.container t = some l)
    (hevent : k.event.container t = some e) :
    ∃ k₁ k', k.removeEvent t = some k₁ ∧
    (k₁.removeGeneric t >>= fun k => k.prvAddTaskToReadyList t) = some k' ∧
      OnlyEvent k k₁ ∧ Moved k k' t (.ready (k.uxPriority t)) none ∧
      k'.uxTopReadyPriority = max k.uxTopReadyPriority (k.uxPriority t) ∧
      k'.xYieldPending = k.xYieldPending ∧ k'.xNextTaskUnblockTime = k.xNextTaskUnblockTime ∧
      ∀ e', (k'.event.list e').items = (k.event.list e').items.erase t := by
  obtain ⟨k₁, h₁, honly₁, hevent₁⟩ := removeEvent_spec hevent
  have hin₁ : k₁.generic.container t = some l := by
    rw [honly₁.generic]
    exact hin
  have hfree : k₁.event.container t = none := by
    rw [hevent₁, ItemLists.drop_container, Function.update_self]
  obtain ⟨k', h', hmoved, honly', htop'⟩ := ready_spec hin₁ hfree
  have hitems : ∀ e', (k'.event.list e').items = (k.event.list e').items.erase t := by
    intro e'
    rw [honly'.event, hevent₁]
    exact items_drop hevent e'
  refine ⟨k₁, k', h₁, h', honly₁, ⟨honly₁.toKept.trans honly'.toKept, ?_, ?_, ?_, fun b hb => ?_,
    fun _ => hitems _⟩, ?_, honly'.xYieldPending.trans honly₁.xYieldPending,
    honly'.xNextTaskUnblockTime.trans honly₁.xNextTaskUnblockTime,
    hitems⟩
  · rw [hmoved.container, honly₁.generic, honly₁.uxPriority]
  · rw [hmoved.value, honly₁.generic]
  · rw [honly'.event, hevent₁, ItemLists.drop_container]
  · rw [← honly₁.generic]
    exact hmoved.delayed b (by simp)
  · rw [htop', honly₁.uxTopReadyPriority, honly₁.uxPriority]

end Tasks

end BitThunder
