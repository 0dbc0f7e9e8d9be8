import BitThunder.Sched.Priorities

/-!
# Runs of the scheduler

Any calls one after the other, by whatever task runs and by interrupts. What the callers have to see
to is `Allowed`: the assertions of the source, that the task that waits, gives back a mutex or is
named exists, and that the counters, which are words of 32 bits, do not come to their ends: fewer
than `2 ^ 32` ticks are held back at a time, and as few suspensions are nested and mutexes held. The
idle task never waits and is not taken away.

* `step_next`: each call;
* `run_next`: the invariant and the clock over a run.

Each kind of call has its lemma in the modules before, all of the same form: from a state that
follows the clock there is a result, it follows the clock that the call makes of this one, and
whatever deadline lies between the two is met. A run needs no more than that these can be put in a
row.

`Settled` is apart from the rest. It is preserved by all calls but one, so that it is stated for
runs in which that one does not happen, while the invariant and the clock go through in any case.
-/

namespace BitThunder

namespace Tasks

variable {T E : Type} {idle : T} {k k' : Tasks T E}

/-- What the callers see to -/
def Allowed (idle : T) (k : Tasks T E) : TaskCall T E → Prop
  | .tick => k.uxSchedulerSuspended ≠ 0 → k.uxPendedTicks + 1 < 2 ^ 32
  | .suspendAll => k.uxSchedulerSuspended + 1 < 2 ^ 32
  | .resumeAll => 0 < k.uxSchedulerSuspended
  | .yield => True
  | .delay xTicksToDelay => k.Running ∧ k.pxCurrentTCB ≠ idle ∧ 0 < xTicksToDelay.toNat
  | .delayUntil _ xTimeIncrement => k.Running ∧ k.pxCurrentTCB ≠ idle ∧ 0 < xTimeIncrement.toNat
  | .placeOnEventList _ xTicksToWait => k.Running ∧ k.pxCurrentTCB ≠ idle ∧ 0 < xTicksToWait.toNat
  | .removeFromEventList e _ => (k.event.list (.event e)).items ≠ []
  | .suspend t => k.generic.container t ≠ none ∧ t ≠ idle ∧
  (t = k.pxCurrentTCB → k.uxSchedulerSuspended = 0)
  | .resume _ => True
  | .resumeFromISR _ => True
  | .delete t => k.generic.container t ≠ none ∧ t ≠ idle ∧
  (t = k.pxCurrentTCB → k.uxSchedulerSuspended = 0)
  | .create t uxPriority =>
    k.generic.container t = none ∧ k.event.container t = none ∧ uxPriority < configMaxPriorities
  | .prioritySet _ uxNewPriority => uxNewPriority < configMaxPriorities
  | .takeMutex => k.uxMutexesHeld k.pxCurrentTCB + 1 < 2 ^ 32
  | .inherit _ => True
  | .giveMutex _ => k.Running ∧ k.uxMutexesHeld k.pxCurrentTCB ≠ 0

/-- A call that forgets a switch: a mutex is given back by a task that has inherited a priority,
while somebody waits for it. -/
def Forgets (k : Tasks T E) : TaskCall T E → Prop
  | .giveMutex e => k.lowers = true ∧ (k.event.list (.event e)).items ≠ []
  | _ => False

section Next

variable [DecidableEq E] {c : Clock T}

/-- The invariant, and the clock that the scheduler tells -/
structure Follows (idle : T) (k : Tasks T E) (c : Clock T) : Prop where
  /-- the lists are as they should be -/
  good : k.Good idle
  /-- and tell the clock -/
  keeps : k.Keeps c

/-- What is shown of each call -/
structure Next (idle : T) (k k' : Tasks T E) (c c' : Clock T) (forgets : Prop) : Prop where
  /-- the state behind the call follows the clock -/
  follows : Follows idle k' c'
  /-- no switch is missing, unless the call forgets one -/
  settled : ¬forgets → k.Settled → k'.Settled
  /-- and every deadline that was reached has been met -/
  wakes : k'.Wakes c c'

/-- A call at which the clock stands still -/
theorem Next.of_now {c' : Clock T} {forgets : Prop} (h : Follows idle k c) (hgood : k'.Good idle)
    (hkeeps : k'.Keeps c') (hset : k.Settled → k'.Settled) (hnow : c'.now = c.now) :
    Next idle k k' c c' forgets :=
  ⟨⟨hgood, hkeeps⟩, fun _ => hset, h.keeps.wakes_of_now h.good.toBase h.good.toAhead hnow⟩

/-- `vTaskSuspendAll` -/
theorem suspendAll_next (h : Follows idle k c) :
    Next idle k k.vTaskSuspendAll c c.suspend False := by
  have hne : k.uxSchedulerSuspended + 1 ≠ 0 := Nat.succ_ne_zero _
  have hgood := h.good
  have hkeeps := h.keeps
  refine .of_now h
    ⟨⟨⟨hgood.ready, hgood.top, hgood.idle, hgood.blocked, hgood.sorted, hgood.wrapped⟩,
    ⟨hgood.later, hgood.next⟩, hgood.tasks, fun hz => absurd hz hne, fun hz => absurd hz hne⟩,
    hgood.current⟩
    ⟨hkeeps.tick, hkeeps.overflows, hkeeps.held, congrArg (· + 1) hkeeps.suspended, hkeeps.deadline⟩
      id rfl

end Next

variable [DecidableEq T] {c : Clock T}

/-- What a call does to the clock -/
def clockStep (k : Tasks T E) (c : Clock T) : TaskCall T E → Clock T
  | .tick => c.tick
  | .suspendAll => c.suspend
  | .resumeAll => c.resume
  | .delay xTicksToDelay => c.arm k.pxCurrentTCB xTicksToDelay.toNat
  | .delayUntil pxPreviousWakeTime xTimeIncrement => k.untilClock c pxPreviousWakeTime
    xTimeIncrement
  | .placeOnEventList _ xTicksToWait => waitClock c k.pxCurrentTCB xTicksToWait
  | .removeFromEventList e _ => k.wakeClock c e
  | .suspend t => c.clear t
  | .delete t => c.clear t
  | .giveMutex e => k.wakeClock c e
  | _ => c

theorem untilClock_time (a b : BitVec 32) :
    (k.untilClock c a b).now = c.now ∧ (k.untilClock c a b).held = c.held := by
  rw [untilClock]
  split_ifs <;> exact ⟨rfl, rfl⟩

/-- To wait for an event takes no time either. -/
theorem waitClock_time (t : T) (n : BitVec 32) :
    (waitClock c t n).now = c.now ∧ (waitClock c t n).held = c.held := by
  rw [waitClock]
  split_ifs <;> exact ⟨rfl, rfl⟩

theorem wakeClock_time (e : E) : (k.wakeClock c e).now = c.now ∧
    (k.wakeClock c e).held = c.held := by
  rw [wakeClock]
  cases (k.event.list (.event e)).items <;> exact ⟨rfl, rfl⟩

/-- The task woken is the first one of the event's list. -/
theorem wakeClock_cons {e : E} {t : T} {rest : List T}
    (hlist : (k.event.list (.event e)).items = t :: rest) :
    k.wakeClock c e = c.clear t := by
  rw [wakeClock, hlist]
  rfl

variable [DecidableEq E]

/-- `pvTaskIncrementMutexHeldCount` -/
theorem takeMutex_next (h : Follows idle k c) :
    Next idle k k.pvTaskIncrementMutexHeldCount c c False := by
  have hgood := h.good
  have hkeeps := h.keeps
  exact .of_now h
    ⟨⟨⟨hgood.ready, hgood.top, hgood.idle, hgood.blocked, hgood.sorted, hgood.wrapped⟩,
    ⟨hgood.later, hgood.next⟩, hgood.tasks, hgood.pending, hgood.ticks⟩, hgood.current⟩
    ⟨hkeeps.tick, hkeeps.overflows, hkeeps.held, hkeeps.suspended, hkeeps.deadline⟩ id rfl

/-- **Each call** that the callers may make has a result, keeps the invariant and does to the clock
what it should. -/
theorem step_next {call : TaskCall T E} (h : Follows idle k c) (hallowed : k.Allowed idle call) :
    ∃ k', k.step call = some k' ∧ Next idle k k' c (k.clockStep c call) (k.Forgets call) := by
  have hgood := h.good
  have hkeeps := h.keeps
  cases call with
  | tick =>
    obtain ⟨k', hk', hgood', hkeeps', hset, hwakes⟩ := tick_next hgood hkeeps
    exact ⟨k', hk', ⟨hgood', hkeeps'⟩, fun _ => hset, hwakes⟩
  | suspendAll => exact ⟨_, rfl, suspendAll_next h⟩
  | resumeAll =>
    obtain ⟨k', hk', hgood', hkeeps', hset, hwakes⟩ := resumeAll_next hgood hkeeps hallowed
    exact ⟨k', hk', ⟨hgood', hkeeps'⟩, fun _ => hset, hwakes⟩
  | yield =>
    obtain ⟨k', hk', hgood', hkeeps', hset, -⟩ :=
      switch_next hgood.toSteady (fun _ => hgood.current) hkeeps
    exact ⟨k', hk', .of_now h hgood' hkeeps' (fun _ => hset) rfl⟩
  | delay n =>
    obtain ⟨hrunning, hidle, hpos⟩ := hallowed
    obtain ⟨k', hk', hgood', hkeeps', hset⟩ := delay_next hgood hkeeps hrunning hidle hpos
    exact ⟨k', hk', .of_now h hgood' hkeeps' hset rfl⟩
  | delayUntil a b =>
    obtain ⟨hrunning, hidle, -⟩ := hallowed
    obtain ⟨k', hk', hgood', hkeeps', hset⟩ := delayUntil_next hgood hkeeps hrunning hidle
    exact ⟨k', hk', .of_now h hgood' hkeeps' hset (untilClock_time a b).1⟩
  | placeOnEventList e n =>
    obtain ⟨hrunning, hidle, hpos⟩ := hallowed
    obtain ⟨k', hk', hgood', hkeeps', hset⟩ :=
      placeOnEventList_next hgood hkeeps hrunning hidle hpos
    exact ⟨k', hk', .of_now h hgood' hkeeps' hset (waitClock_time _ n).1⟩
  | removeFromEventList e yields =>
    obtain ⟨t, rest, hlist⟩ := List.exists_cons_of_ne_nil hallowed
    obtain ⟨k', hk', hgood', hkeeps', hset⟩ := removeFromEventList_next yields hgood hkeeps hlist
    rw [← wakeClock_cons hlist] at hkeeps'
    exact ⟨k', hk', .of_now h hgood' hkeeps' hset (wakeClock_time e).1⟩
  | suspend t =>
    obtain ⟨hexists, hidle, hsuspended⟩ := hallowed
    obtain ⟨k', hk', hgood', hkeeps', hset⟩ :=
      retire_next hgood hkeeps (.inl rfl) hexists hidle hsuspended
    exact ⟨k', hk', .of_now h hgood' hkeeps' hset rfl⟩
  | resume t =>
    obtain ⟨k', hk', hgood', hkeeps', hset⟩ := resume_next t hgood hkeeps
    exact ⟨k', hk', .of_now h hgood' hkeeps' hset rfl⟩
  | resumeFromISR t =>
    obtain ⟨k', hk', hgood', hkeeps', hset⟩ := resumeFromISR_next t hgood hkeeps
    exact ⟨k', hk', .of_now h hgood' hkeeps' hset rfl⟩
  | delete t =>
    obtain ⟨hexists, hidle, hsuspended⟩ := hallowed
    obtain ⟨k', hk', hgood', hkeeps', hset⟩ :=
      retire_next hgood hkeeps (.inr rfl) hexists hidle hsuspended
    exact ⟨k', hk', .of_now h hgood' hkeeps' hset rfl⟩
  | create t p =>
    obtain ⟨hgeneric, hevent, hpriority⟩ := hallowed
    obtain ⟨k', hk', hgood', hkeeps', hset⟩ := create_next hgood hkeeps hgeneric hevent hpriority
    exact ⟨k', hk', .of_now h hgood' hkeeps' hset rfl⟩
  | prioritySet t p =>
    obtain ⟨k', hk', hgood', hkeeps', hset⟩ := prioritySet_next t hgood hkeeps hallowed
    exact ⟨k', hk', .of_now h hgood' hkeeps' hset rfl⟩
  | takeMutex => exact ⟨_, rfl, takeMutex_next h⟩
  | inherit t =>
    obtain ⟨k', hk', hgood', hkeeps', hset⟩ := inherit_next t hgood hkeeps
    exact ⟨k', hk', .of_now h hgood' hkeeps' hset rfl⟩
  | giveMutex e =>
    obtain ⟨hrunning, hheld⟩ := hallowed
    obtain ⟨k', hk', hgood', hkeeps', hset⟩ := giveMutex_next hgood hkeeps hrunning hheld
    refine ⟨k', hk', ⟨hgood', hkeeps'⟩, fun hnot => hset ?_,
      hkeeps.wakes_of_now hgood.toBase hgood.toAhead (wakeClock_time e).1⟩
    cases hlowers : k.lowers with
    | true => exact .inr (not_not.mp fun hne => hnot ⟨hlowers, hne⟩)
    | false => exact .inl rfl

/-! ## Runs

A call that is not allowed ends what is said of a run. Whether a run is allowed can be computed,
since it only asks for what is seen of the state. -/

/-- Each call of a run is as it should be where it is made. -/
def Along (P : Tasks T E → TaskCall T E → Prop) : Tasks T E → List (TaskCall T E) → Prop
  | _, [] => True
  | k, call :: calls => P k call ∧ ∀ k', k.step call = some k' → Along P k' calls

section Decidable

variable {P : Tasks T E → TaskCall T E → Prop} {call : TaskCall T E} {calls : List (TaskCall T E)}

/-- A condition along a run is asked up to the call that does not return. -/
theorem along_none (h : k.step call = none) : P k call ↔ Along P k (call :: calls) := by
  refine ⟨fun hp => ⟨hp, fun k' hk' => ?_⟩, And.left⟩
  rw [h] at hk'
  cases hk'

/-- A condition along a run is asked of its first call and along the rest. -/
theorem along_some (h : k.step call = some k') :
    P k call ∧ Along P k' calls ↔ Along P k (call :: calls) := by
  refine and_congr_right fun _ => ⟨fun hrest k₁ h₁ => ?_, fun hrest => hrest k' h⟩
  obtain rfl := Option.some.inj (h.symm.trans h₁)
  exact hrest

/-- A run can be checked. -/
def decidableAlong (P : Tasks T E → TaskCall T E → Prop) [∀ k call, Decidable (P k call)] :
    (k : Tasks T E) → (calls : List (TaskCall T E)) → Decidable (Along P k calls)
  | _, [] => isTrue trivial
  | k, call :: calls =>
    match h : k.step call with
    | none => decidable_of_iff _ (along_none h)
    | some k' =>
      have := decidableAlong P k' calls
      decidable_of_iff _ (along_some h)

instance instDecidableAlong [∀ k call, Decidable (P k call)] : Decidable (Along P k calls) :=
  decidableAlong P k calls

omit [DecidableEq T] [DecidableEq E] in
/-- The test of the model is the condition that the running task is ready. -/
theorem running_iff : (k.generic.container k.pxCurrentTCB).any GenericList.isReady = true ↔
    k.Running := by
  rw [Option.any_eq_true, Running]
  constructor
  · rintro ⟨l, hl, hready⟩
    cases l with
    | ready p => exact ⟨p, hl⟩
    | _ => cases hready
  · rintro ⟨p, hp⟩
    exact ⟨_, hp, rfl⟩

instance instDecidableRunning : Decidable k.Running := decidable_of_iff _ running_iff

instance instDecidableAllowed (idle : T) (k : Tasks T E) :
    (call : TaskCall T E) → Decidable (k.Allowed idle call)
  | .tick => inferInstanceAs
    (Decidable (k.uxSchedulerSuspended ≠ 0 → k.uxPendedTicks + 1 < 2 ^ 32))
  | .suspendAll => inferInstanceAs (Decidable (k.uxSchedulerSuspended + 1 < 2 ^ 32))
  | .resumeAll => inferInstanceAs (Decidable (0 < k.uxSchedulerSuspended))
  | .yield => isTrue trivial
  | .delay n => inferInstanceAs (Decidable (k.Running ∧ k.pxCurrentTCB ≠ idle ∧ 0 < n.toNat))
  | .delayUntil _ n => inferInstanceAs (Decidable (k.Running ∧ k.pxCurrentTCB ≠ idle ∧ 0 < n.toNat))
  | .placeOnEventList _ n => inferInstanceAs
  (Decidable (k.Running ∧ k.pxCurrentTCB ≠ idle ∧ 0 < n.toNat))
  | .removeFromEventList e _ => inferInstanceAs (Decidable ((k.event.list (.event e)).items ≠ []))
  | .suspend t => inferInstanceAs (Decidable
    (k.generic.container t ≠ none ∧ t ≠ idle ∧ (t = k.pxCurrentTCB → k.uxSchedulerSuspended = 0)))
  | .resume _ => isTrue trivial
  | .resumeFromISR _ => isTrue trivial
  | .delete t => inferInstanceAs (Decidable
    (k.generic.container t ≠ none ∧ t ≠ idle ∧ (t = k.pxCurrentTCB → k.uxSchedulerSuspended = 0)))
  | .create t p => inferInstanceAs (Decidable
    (k.generic.container t = none ∧ k.event.container t = none ∧ p < configMaxPriorities))
  | .prioritySet _ p => inferInstanceAs (Decidable (p < configMaxPriorities))
  | .takeMutex => inferInstanceAs (Decidable (k.uxMutexesHeld k.pxCurrentTCB + 1 < 2 ^ 32))
  | .inherit _ => isTrue trivial
  | .giveMutex _ => inferInstanceAs (Decidable (k.Running ∧ k.uxMutexesHeld k.pxCurrentTCB ≠ 0))

instance instDecidableForgets (k : Tasks T E) : (call : TaskCall T E) → Decidable (k.Forgets call)
  | .giveMutex e => inferInstanceAs
  (Decidable (k.lowers = true ∧ (k.event.list (.event e)).items ≠ []))
  | .tick | .suspendAll | .resumeAll | .yield | .delay _ | .delayUntil _ _ | .placeOnEventList _ _
  | .removeFromEventList _ _ | .suspend _ | .resume _ | .resumeFromISR _ | .delete _ | .create _ _
    | .prioritySet _ _
  | .takeMutex | .inherit _ => isFalse id

end Decidable

/-- What a run does to the clock -/
def clockRun : Tasks T E → Clock T → List (TaskCall T E) → Clock T
  | _, c, [] => c
  | k, c, call :: calls => (k.step call).elim c fun k' => clockRun k' (k.clockStep c call) calls

/-- **A run** of calls that the callers may make has a result, and the scheduler tells the clock at
its end. -/
theorem run_next {calls : List (TaskCall T E)} (h : Follows idle k c)
    (hallowed : Along (Allowed idle) k calls) :
    ∃ k', k.run calls = some k' ∧ Follows idle k' (clockRun k c calls) ∧
      (Along (fun k call => ¬k.Forgets call) k calls → k.Settled → k'.Settled) := by
  induction calls generalizing k c with
  | nil => exact ⟨k, rfl, h, fun _ hs => hs⟩
  | cons call calls ih =>
    obtain ⟨k₁, h₁, hnext⟩ := step_next h hallowed.1
    obtain ⟨k', hk', hfollows, hset⟩ := ih hnext.follows (hallowed.2 k₁ h₁)
    refine ⟨k', ?_, ?_, fun hnot hs => hset (hnot.2 k₁ h₁) (hnext.settled hnot.1 hs)⟩
    · rw [run, h₁]
      exact hk'
    · rw [clockRun, h₁]
      exact hfollows

end Tasks

end BitThunder
