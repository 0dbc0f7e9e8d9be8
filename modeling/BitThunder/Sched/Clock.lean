import BitThunder.Sched.Tick

/-!
# The clock

What the lists of delayed tasks are for: a clock that counts ticks without an end, and for each task
that waits with a timeout the tick at which it is to be woken. A tick that comes while the scheduler
is suspended is held back, and counted when the scheduler is resumed.

* `Clock.advance`: the tasks whose deadline is the new tick are woken, and no others;
* `Tasks.Keeps`: the tick count, the number of its overflows and the two lists tell the clock;
* `Keeps.ticked`: a tick of the scheduler is a tick of the clock.

This is the abstract scheduler: it has no lists and no words, and a task that waits is a number. The
tick count is the time modulo `2 ^ 32`, and the overflow count what is above it. Nothing is said
about which task runs.

The one step that needs an argument is a tick at which the count wraps. The two lists change their
roles, and a deadline that was counted from the next overflow is now counted from the last one,
which is the same number. That nobody is left in the old list then is `Ahead.none_delayed` in
`Sched.Tick`: all of its times have been reached.
-/

namespace BitThunder

/-- The ticks that were counted and that are held back, and when the tasks are to be woken -/
@[ext]
structure Clock (T : Type) : Type where
  now : ℕ
  held : ℕ
  suspended : ℕ
  deadline : T → Option ℕ

namespace Clock

/-- No tick has been counted, and nobody waits. -/
def zero (T : Type) : Clock T := ⟨0, 0, 0, fun _ => none⟩

variable {T : Type} (c : Clock T)

/-- Count a tick. -/
def advance : Clock T :=
  { c with
    now := c.now + 1
    deadline := fun t => if c.deadline t = some (c.now + 1) then none else c.deadline t }

/-- A tick of the timer -/
def tick : Clock T := if c.suspended = 0 then c.advance else { c with held := c.held + 1 }

/-- Hold the ticks back. -/
def suspend : Clock T := { c with suspended := c.suspended + 1 }

/-- Count the ticks that were held back, if nobody else holds them back. -/
def resume : Clock T :=
  let c := { c with suspended := c.suspended - 1 }
  if c.suspended = 0 then { advance^[c.held] c with held := 0 } else c

/-- How many ticks are held back does not matter for the ticks that are counted. -/
theorem iterate_held (n m : ℕ) (c : Clock T) :
    ({ advance^[n] { c with held := m } with held := 0 } : Clock T) =
    { advance^[n] c with held := 0 } := by
  induction n generalizing c with
  | zero => rfl
  | succ n ih =>
    rw [Function.iterate_succ_apply, Function.iterate_succ_apply]
    exact ih c.advance

/-- Each tick counts. -/
theorem iterate_now (n : ℕ) (c : Clock T) : (advance^[n] c).now = c.now + n := by
  induction n generalizing c with
  | zero => rfl
  | succ n ih =>
    rw [Function.iterate_succ_apply, ih, advance]
    exact Nat.add_right_comm c.now 1 n

/-- A tick is counted or held back. -/
theorem tick_time (c : Clock T) : c.tick.now + c.tick.held = c.now + c.held + 1 := by
  rw [tick]
  split_ifs
  · exact Nat.add_right_comm c.now 1 c.held
  · rfl

/-- Either the ticks that were held back are counted, or they are still held back. -/
theorem resume_cases (c : Clock T) :
    c.resume = { advance^[c.held] { c with suspended := c.suspended - 1 } with held := 0 } ∨
      c.resume = { c with suspended := c.suspended - 1 } := by
  by_cases hzero : c.suspended - 1 = 0
  · exact .inl (if_pos hzero)
  · exact .inr (if_neg hzero)

/-- The ticks that are counted then are those that were held back. -/
theorem resume_time (c : Clock T) : c.resume.now + c.resume.held = c.now + c.held := by
  obtain hresume | hresume := c.resume_cases
  · rw [hresume]
    exact iterate_now c.held _
  · rw [hresume]

variable [DecidableEq T]

/-- A task is to be woken after so many ticks. -/
def arm (t : T) (ticks : ℕ) : Clock T :=
  { c with deadline := Function.update c.deadline t (some (c.now + ticks)) }

/-- A task is not to be woken any more. -/
def clear (t : T) : Clock T := { c with deadline := Function.update c.deadline t none }

/-- Nothing is to be cleared for a task without a deadline. -/
theorem clear_of_none {c : Clock T} {t : T} (h : c.deadline t = none) : c.clear t = c := by
  rw [clear, ← h, Function.update_eq_self]

end Clock

namespace Tasks

variable {T E : Type}

/-- When a task is to be woken, as the lists tell: in the current list its wake time counts from the
last overflow of the tick count, in the other list from the next one. A task whose event has come is
not to be woken by a tick. -/
def deadline [DecidableEq E] (k : Tasks T E) (now : ℕ) (t : T) : Option ℕ :=
  if k.event.container t = some .pendingReady then none
  else
    match k.generic.container t with
    | some (.delayed b) =>
      some ((now / 2 ^ 32 + if b = k.pxDelayedTaskList then 0 else 1) * 2 ^ 32 +
        (k.generic.value t).toNat)
    | _ => none

variable [DecidableEq E] {k k' : Tasks T E} {c : Clock T} {t : T} {now : ℕ}

/-- The scheduler tells the clock. -/
structure Keeps (k : Tasks T E) (c : Clock T) : Prop where
  /-- the tick count is the time, as far as it goes -/
  tick : k.xTickCount = BitVec.ofNat 32 c.now
  /-- and the number of overflows is what is above it -/
  overflows : k.xNumOfOverflows = BitVec.ofNat 32 (c.now / 2 ^ 32)
  /-- as many ticks are held back -/
  held : k.uxPendedTicks = c.held
  /-- and for as many suspensions -/
  suspended : k.uxSchedulerSuspended = c.suspended
  /-- each task waits for the tick that it is to be woken at -/
  deadline : ∀ t, k.deadline c.now t = c.deadline t

/-- The tasks whose deadlines lie between two times of the clock are ready. -/
def Wakes (k : Tasks T E) (c c' : Clock T) : Prop :=
  ∀ t d, c.deadline t = some d → d ≤ c'.now → k.generic.container t = some (.ready (k.uxPriority t))

/-! ## Deadlines

A deadline is a function of the list a task is in, of its value and of the time. There is none for a
task that is in neither of the two lists. -/

/-- A deadline is read off the task's place, its value, and which of the two lists is current. -/
theorem deadline_congr (hgeneric : k'.generic.container t = k.generic.container t)
    (hevent : k'.event.container t = k.event.container t)
    (hvalue : k'.generic.value t = k.generic.value t)
    (hlist : k'.pxDelayedTaskList = k.pxDelayedTaskList) :
    k'.deadline now t = k.deadline now t := by
  rw [deadline, deadline, hgeneric, hevent, hvalue, hlist]

/-- A task in neither delayed list has no deadline. -/
theorem deadline_none (h : ∀ b, k.generic.container t ≠ some (.delayed b)) :
    k.deadline now t = none := by
  unfold deadline
  split_ifs
  · rfl
  · split
    · rename_i b hb
      exact absurd hb (h b)
    · rfl

/-- A task in the pending list is as good as awake, and has no deadline any more. -/
theorem deadline_pending (h : k.event.container t = some .pendingReady) : k.deadline now t = none :=
  if_pos h

/-- The value of the item is the low word of the deadline; the list it is in tells whether the tick
has to wrap first. -/
theorem deadline_some {b : Bool} (h : k.generic.container t = some (.delayed b))
    (hevent : k.event.container t ≠ some .pendingReady) : k.deadline now t =
      some ((now / 2 ^ 32 + if b = k.pxDelayedTaskList then 0 else 1) * 2 ^ 32 +
      (k.generic.value t).toNat) := by
  rw [deadline, if_neg hevent, h]

/-- A task with a deadline is in one of the lists. -/
theorem delayed_of_deadline {d : ℕ} (h : k.deadline now t = some d) :
    ∃ b, k.generic.container t = some (.delayed b) ∧ k.event.container t ≠ some .pendingReady := by
  by_cases hevent : k.event.container t = some .pendingReady
  · rw [deadline_pending hevent] at h
    cases h
  · by_contra hnot
    have hnone : ∀ b, k.generic.container t ≠ some (.delayed b) := fun b hb => hnot ⟨b, hb, hevent⟩
    rw [deadline_none hnone] at h
    cases h

/-- What does not touch the lists does not touch the clock. -/
theorem Keeps.of_same (h : k.Keeps c) (hkept : Kept k k')
    (hcontainer : k'.generic.container = k.generic.container)
    (hvalue : k'.generic.value = k.generic.value)
    (hevent : k'.event.container = k.event.container) : k'.Keeps c where
  tick := hkept.xTickCount.trans h.tick
  overflows := hkept.xNumOfOverflows.trans h.overflows
  held := hkept.uxPendedTicks.trans h.held
  suspended := hkept.uxSchedulerSuspended.trans h.suspended
  deadline :=
    fun u => (deadline_congr
    (by rw [hcontainer]) (by rw [hevent]) (by rw [hvalue]) hkept.pxDelayedTaskList).trans
    (h.deadline u)

/-- The tick count as a number -/
theorem Keeps.toNat_tick (h : k.Keeps c) : k.xTickCount.toNat = c.now % 2 ^ 32 := by
  rw [h.tick, BitVec.toNat_ofNat]

/-- A deadline is still to come, and not further than the tick count reaches. -/
theorem Keeps.deadline_bounds {idle : T} {d : ℕ} (h : k.Keeps c) (hbase : k.Base idle)
    (hahead : k.Ahead) (hd : c.deadline t = some d) : c.now < d ∧ d < c.now + 2 ^ 32 := by
  rw [← h.deadline] at hd
  obtain ⟨b, hb, hevent⟩ := delayed_of_deadline hd
  rw [deadline_some hb hevent] at hd
  have htick := h.toNat_tick
  have hvalue := (k.generic.value t).isLt
  obtain rfl := Option.some.inj hd
  by_cases hlist : b = k.pxDelayedTaskList
  · have hlater : k.xTickCount.toNat < (k.generic.value t).toNat := hahead.later t (hlist ▸ hb)
    rw [if_pos hlist]
    omega
  · have hother : b = !k.pxDelayedTaskList := Bool.eq_not_of_ne hlist
    have hbefore : (k.generic.value t).toNat < k.xTickCount.toNat := hbase.wrapped t (hother ▸ hb)
    rw [if_neg hlist]
    omega

/-- No deadline lies between a time and itself. -/
theorem Keeps.wakes_of_now {idle : T} {c' : Clock T} (hk : k.Keeps c) (h : k.Base idle)
    (hahead : k.Ahead) (hnow : c'.now = c.now) : k'.Wakes c c' := fun t d hd hle => by
  rw [hnow] at hle
  exact absurd (hk.deadline_bounds h hahead hd).1 (not_lt.mpr hle)

/-! ## Ticks

A tick of the scheduler is compared with one of the clock: the deadlines that it reaches are those
of the tasks that it wakes, and the others are read off as before. -/

/-- **A tick of the scheduler is a tick of the clock.** -/
theorem Keeps.ticked (h : k.Keeps c) (hahead : k.Ahead)
    (hpending : ∀ t, k.event.container t ≠ some .pendingReady)
    (ht : Ticked k k') : k'.Keeps c.advance := by
  have htick := h.toNat_tick
  have htick' : k'.xTickCount = BitVec.ofNat 32 (c.now + 1) := by
    rw [ht.xTickCount, h.tick, BitVec.ofNat_add]
    rfl
  have hcount : k'.xTickCount.toNat = (c.now + 1) % 2 ^ 32 := by
    rw [htick', BitVec.toNat_ofNat]
  -- the deadline of a task in the list that is current after the tick
  have hcurrent : ∀ t, k.generic.container t = some (.delayed k'.pxDelayedTaskList) →
      k.deadline c.now t = some ((c.now + 1) / 2 ^ 32 * 2 ^ 32 + (k.generic.value t).toNat) := by
    intro t hin
    rw [deadline_some hin (hpending t)]
    rcases ht.lists with ⟨hno, hlist, -⟩ | ⟨hzero, hlist, -⟩
    · have hsucc := toNat_succ hno
      rw [← ht.xTickCount, hcount] at hsucc
      rw [if_pos hlist]
      refine congrArg some ?_
      omega
    · have hz : k'.xTickCount.toNat = 0 := by
        rw [ht.xTickCount, hzero]
        rfl
      have hne : ¬k'.pxDelayedTaskList = k.pxDelayedTaskList := by
        rw [hlist]
        exact Bool.not_ne_self _
      rw [if_neg hne]
      refine congrArg some ?_
      omega
  refine ⟨htick', ?_, ht.uxPendedTicks.trans h.held, ht.uxSchedulerSuspended.trans h.suspended,
    fun t => ?_⟩
  · rcases ht.lists with ⟨hno, -, hover⟩ | ⟨hzero, -, hover⟩
    · have hsucc := toNat_succ hno
      rw [← ht.xTickCount, hcount] at hsucc
      have hdiv : (c.now + 1) / 2 ^ 32 = c.now / 2 ^ 32 := by omega
      rw [hover, h.overflows]
      change _ = BitVec.ofNat 32 ((c.now + 1) / 2 ^ 32)
      rw [hdiv]
    · have hz : k'.xTickCount.toNat = 0 := by
        rw [ht.xTickCount, hzero]
        rfl
      have hdiv : (c.now + 1) / 2 ^ 32 = c.now / 2 ^ 32 + 1 := by omega
      rw [hover, h.overflows]
      change _ = BitVec.ofNat 32 ((c.now + 1) / 2 ^ 32)
      rw [hdiv, BitVec.ofNat_add]
      rfl
  · change k'.deadline (c.now + 1) t = if c.deadline t = some (c.now + 1) then none
        else c.deadline t
    by_cases hdue : k.generic.container t = some (.delayed k'.pxDelayedTaskList) ∧
      k.generic.value t = k'.xTickCount
    · -- its time has come
      obtain ⟨hready, -⟩ := ht.due t hdue.1 hdue.2
      have hnow : c.deadline t = some (c.now + 1) := by
        rw [← h.deadline, hcurrent t hdue.1, hdue.2, hcount]
        exact congrArg some (Nat.div_add_mod' (c.now + 1) (2 ^ 32))
      rw [if_pos hnow]
      refine deadline_none fun b hb => ?_
      rw [hready] at hb
      cases hb
    · obtain ⟨hgeneric, hevent⟩ := ht.other t hdue
      have hsame : k'.deadline (c.now + 1) t = c.deadline t := by
        rw [← h.deadline]
        by_cases hdelayed : ∃ b, k.generic.container t = some (.delayed b)
        · obtain ⟨b, hb⟩ := hdelayed
          have hb' : k'.generic.container t = some (.delayed b) := hgeneric.trans hb
          have hevent' : k'.event.container t ≠ some .pendingReady := by
            rw [hevent]
            exact hpending t
          rw [deadline_some hb' hevent', ht.value]
          by_cases hlist : b = k'.pxDelayedTaskList
          · rw [if_pos hlist, hcurrent t (hlist ▸ hb), Nat.add_zero]
          · rw [if_neg hlist, deadline_some hb (hpending t)]
            rcases ht.lists with ⟨hno, hl, -⟩ | ⟨hzero, hl, -⟩
            · have hsucc := toNat_succ hno
              rw [← ht.xTickCount, hcount] at hsucc
              have hdiv : (c.now + 1) / 2 ^ 32 = c.now / 2 ^ 32 := by omega
              rw [if_neg (hl ▸ hlist), hdiv]
            · -- nobody was left in the list that was current before
              have hold : b = k.pxDelayedTaskList := by
                have hb := Bool.eq_not_of_ne hlist
                rw [hb, hl, Bool.not_not]
              have hempty := hahead.none_delayed hzero
              rw [hold, ← mem_delayedTasks, hempty] at hb
              cases hb
        · have hnone : ∀ b, k.generic.container t ≠ some (.delayed b) :=
            fun b hb => hdelayed ⟨b, hb⟩
          rw [deadline_none hnone, deadline_none fun b hb => hnone b (hgeneric ▸ hb)]
      -- another time than the new one
      have hnot : c.deadline t ≠ some (c.now + 1) := by
        intro hnow
        rw [← hsame] at hnow
        obtain ⟨b, hb, hevent'⟩ := delayed_of_deadline hnow
        rw [deadline_some hb hevent', ht.value] at hnow
        have hbound := (k.generic.value t).isLt
        have htime := Option.some.inj hnow
        refine hdue ⟨?_, BitVec.eq_of_toNat_eq ?_⟩
        · by_cases hlist : b = k'.pxDelayedTaskList
          · rw [← hgeneric, hb, hlist]
          · rw [if_neg hlist] at htime
            omega
        · split_ifs at htime with hlist
          · rw [hcount]
            omega
          · omega
      rw [if_neg hnot, hsame]

/-- A task whose deadline a tick reaches is ready after it. -/
theorem Keeps.woken {idle : T} {d : ℕ} (h : k.Keeps c) (hbase : k.Base idle) (hahead : k.Ahead)
    (hpending : ∀ t, k.event.container t ≠ some .pendingReady) (ht : Ticked k k')
    (hd : c.deadline t = some d)
    (hle : d ≤ c.now + 1) : k'.generic.container t = some (.ready (k.uxPriority t)) := by
  have hbounds := h.deadline_bounds hbase hahead hd
  obtain rfl : d = c.now + 1 := Nat.le_antisymm hle hbounds.1
  by_cases hdue : k.generic.container t = some (.delayed k'.pxDelayedTaskList) ∧
    k.generic.value t = k'.xTickCount
  · exact (ht.due t hdue.1 hdue.2).1
  · -- it would still have its deadline
    exfalso
    obtain ⟨hgeneric, hevent⟩ := ht.other t hdue
    have hnone := (h.ticked hahead hpending ht).deadline t
    change _ = (if c.deadline t = some (c.now + 1) then none else c.deadline t) at hnone
    rw [if_pos hd] at hnone
    rw [← h.deadline] at hd
    obtain ⟨b, hb, hnot⟩ := delayed_of_deadline hd
    rw [deadline_some (hgeneric.trans hb) (hevent ▸ hnot)] at hnone
    cases hnone

/-! ## Moves

All other changes of a list take one task out of those that wait, or leave them as they are. -/

section Moves

variable [DecidableEq T]

/-- A task that moves to a list that is not one of the two is not to be woken any more. -/
theorem Keeps.moved {l : GenericList} {e : Option (EventList E)} (h : k.Keeps c)
    (hm : Moved k k' t l e) (hl : ∀ b, l ≠ .delayed b) : k'.Keeps (c.clear t) where
  tick := hm.xTickCount.trans h.tick
  overflows := hm.xNumOfOverflows.trans h.overflows
  held := hm.uxPendedTicks.trans h.held
  suspended := hm.uxSchedulerSuspended.trans h.suspended
  deadline := by
    intro u
    change k'.deadline c.now u = Function.update c.deadline t none u
    by_cases hu : u = t
    · subst hu
      rw [Function.update_self]
      refine deadline_none fun b hb => ?_
      rw [hm.container, Function.update_self] at hb
      exact hl b (Option.some.inj hb)
    · rw [Function.update_of_ne hu, ← h.deadline u]
      refine deadline_congr ?_ ?_ (by rw [hm.value]) hm.pxDelayedTaskList
      · rw [hm.container, Function.update_of_ne hu]
      · rw [hm.event, Function.update_of_ne hu]

end Moves

end Tasks

end BitThunder
