import BitThunder.Sched.Run

/-!
# The scheduler from its start

The application creates its tasks, `vTaskStartScheduler` creates the idle task, and then anybody
makes calls.

* `vTaskStartScheduler_next`: the start;
* `scheduler_keeps_clock`: no assertion fails, and every tick is counted or held back;
* `highest_priority_runs`: whenever no switch is pending, no ready task is above the running one.

Before the start there is no running task to speak of, and the invariant does not hold: it wants an
idle task that is always ready. `Created` is the invariant of this phase. Its main part is that the
current task is one of the highest priority, which is kept by comparing each new task with it; the
idle task comes last, with the lowest priority there is, and is treated like the others.

From there on everything is a run, and a state is reached if some run from the start of some
application leads to it.
-/

namespace BitThunder

namespace Tasks

variable {T E : Type} {idle t : T} {k k' : Tasks T E}

/-- Before the start: these tasks have been created, and all of them are ready. -/
structure Created (k : Tasks T E) (ts : List T) : Prop where
  /-- a task that was created is ready -/
  ready : ∀ t l, k.generic.container t = some l → l = .ready (k.uxPriority t)
  /-- and not above the highest ready priority -/
  top : ∀ t l, k.generic.container t = some l → k.uxPriority t ≤ k.uxTopReadyPriority
  /-- there are no other tasks -/
  mem : ∀ t, k.generic.container t ≠ none → t ∈ ts
  /-- no task waits for anything -/
  event : ∀ t, k.event.container t = none
  /-- they have been counted -/
  number : k.uxCurrentNumberOfTasks = ts.length
  /-- the first to run is one of them -/
  current : ts ≠ [] → k.generic.container k.pxCurrentTCB =
    some (.ready (k.uxPriority k.pxCurrentTCB))
  /-- and none is above it -/
  highest : ∀ t l, k.generic.container t = some l → k.uxPriority t ≤ k.uxPriority k.pxCurrentTCB
  /-- no time has passed -/
  tick : k.xTickCount = 0
  overflows : k.xNumOfOverflows = 0
  pended : k.uxPendedTicks = 0
  suspended : k.uxSchedulerSuspended = 0

/-- Before the first task is created every list is empty. -/
theorem created_initial (t : T) : (initial t : Tasks T E).Created [] where
  ready := fun _ _ h => absurd h (Option.some_ne_none _).symm
  top := fun _ _ h => absurd h (Option.some_ne_none _).symm
  mem := fun _ h => absurd rfl h
  event := fun _ => rfl
  number := rfl
  current := fun h => absurd rfl h
  highest := fun _ _ h => absurd h (Option.some_ne_none _).symm
  tick := rfl
  overflows := rfl
  pended := rfl
  suspended := rfl

variable [DecidableEq T]

/-- A task is created before the start. -/
theorem createBeforeStart_spec {ts : List T} {uxPriority : ℕ} (h : k.Created ts) (ht : t ∉ ts)
    (hpriority : uxPriority < configMaxPriorities) :
    ∃ k', k.createBeforeStart t uxPriority = some k' ∧ k'.Created (t :: ts) ∧
      k'.generic.container t = some (.ready (k'.uxPriority t)) := by
  have hfree : k.generic.container t = none := not_not.mp fun hne => ht (h.mem t hne)
  obtain ⟨k₁, hk₁⟩ : ∃ k₁ : Tasks T E, k₁ = { k with
      pxCurrentTCB :=
        if k.uxCurrentNumberOfTasks = 0 ∨ k.uxPriority k.pxCurrentTCB ≤ uxPriority then t
          else k.pxCurrentTCB
      uxPriority := Function.update k.uxPriority t uxPriority
      uxBasePriority := Function.update k.uxBasePriority t uxPriority
      uxMutexesHeld := Function.update k.uxMutexesHeld t 0
      event := k.event.setValue t (BitVec.ofNat 32 configMaxPriorities - BitVec.ofNat 32 uxPriority)
      uxCurrentNumberOfTasks := k.uxCurrentNumberOfTasks + 1 } := ⟨_, rfl⟩
  have hpriority₁ : k₁.uxPriority = Function.update k.uxPriority t uxPriority := by rw [hk₁]
  have hgeneric₁ : k₁.generic = k.generic := by rw [hk₁]
  have hevent₁ : ∀ u, k₁.event.container u = none := by
    rw [hk₁]
    exact h.event
  have hfree₁ : k₁.generic.container t = none := by
    rw [hgeneric₁]
    exact hfree
  have hcurrent₁ : k₁.pxCurrentTCB =
      if k.uxCurrentNumberOfTasks = 0 ∨ k.uxPriority k.pxCurrentTCB ≤ uxPriority then t
        else k.pxCurrentTCB := by rw [hk₁]
  obtain ⟨k', hk', hm, honly, htop⟩ := added_spec hfree₁ (hevent₁ t)
  have hself : k₁.uxPriority t = uxPriority := by
    rw [hpriority₁, Function.update_self]
  rw [hself] at hm htop
  have hother : ∀ u, u ≠ t → k'.uxPriority u = k.uxPriority u := by
    intro u hu
    rw [hm.uxPriority, hpriority₁, Function.update_of_ne hu]
  have hcontainer : ∀ u, u ≠ t → k'.generic.container u = k.generic.container u := by
    intro u hu
    rw [hm.container, Function.update_of_ne hu, hgeneric₁]
  have hnew : k'.generic.container t = some (.ready uxPriority) := by
    rw [hm.container, Function.update_self]
  have hnewp : k'.uxPriority t = uxPriority := by
    rw [hm.uxPriority, hself]
  -- a task that stays the current one is another one
  have hkeep : ¬(k.uxCurrentNumberOfTasks = 0 ∨ k.uxPriority k.pxCurrentTCB ≤ uxPriority) →
      k.pxCurrentTCB ≠ t ∧ k.generic.container k.pxCurrentTCB =
      some (.ready (k.uxPriority k.pxCurrentTCB)) := by
    intro hcond
    have hne : ts ≠ [] := by
      rintro rfl
      exact hcond (.inl h.number)
    have hold := h.current hne
    refine ⟨fun he => ?_, hold⟩
    rw [he, hfree] at hold
    cases hold
  refine ⟨k', ?_, ⟨fun u l hu => ?_, fun u l hu => ?_, fun u hu => ?_, fun u => ?_, ?_, fun _ => ?_,
    fun u l hu => ?_, ?_, ?_, ?_, ?_⟩, by rw [hnewp, hnew]⟩
  · rw [createBeforeStart, if_pos hpriority]
    rw [hk₁] at hk'
    exact hk'
  · by_cases hut : u = t
    · subst hut
      rw [hnew] at hu
      rw [hnewp]
      exact (Option.some.inj hu).symm
    · rw [hcontainer u hut] at hu
      rw [hother u hut]
      exact h.ready u l hu
  · rw [htop]
    by_cases hut : u = t
    · rw [hut, hnewp]
      exact le_max_right _ _
    · rw [hcontainer u hut] at hu
      rw [hother u hut, hk₁]
      exact (h.top u l hu).trans (le_max_left _ _)
  · by_cases hut : u = t
    · exact hut ▸ List.mem_cons_self
    · rw [hcontainer u hut] at hu
      exact List.mem_cons_of_mem t (h.mem u hu)
  · rw [honly.event]
    exact hevent₁ u
  · rw [hm.uxCurrentNumberOfTasks, hk₁, List.length_cons, ← h.number]
  · rw [hm.pxCurrentTCB, hcurrent₁]
    split_ifs with hcond
    · rw [hnewp, hnew]
    · obtain ⟨hut, hold⟩ := hkeep hcond
      rw [hcontainer _ hut, hother _ hut]
      exact hold
  · have hold : u ≠ t → k.generic.container u = some l := fun hut => hcontainer u hut ▸ hu
    rw [hm.pxCurrentTCB, hcurrent₁]
    split_ifs with hcond
    · rw [hnewp]
      by_cases hut : u = t
      · rw [hut, hnewp]
      · rw [hother u hut]
        rcases hcond with hzero | hle
        · -- there is no other task yet
          have hmem := h.mem u (by rw [hold hut]; exact Option.some_ne_none l)
          rw [List.eq_nil_of_length_eq_zero (h.number.symm.trans hzero)] at hmem
          cases hmem
        · exact (h.highest u l (hold hut)).trans hle
    · rw [hother _ (hkeep hcond).1]
      by_cases hut : u = t
      · rw [hut, hnewp]
        exact (not_le.mp (not_or.mp hcond).2).le
      · rw [hother u hut]
        exact h.highest u l (hold hut)
  · rw [hm.xTickCount, hk₁]
    exact h.tick
  · rw [hm.xNumOfOverflows, hk₁]
    exact h.overflows
  · rw [hm.uxPendedTicks, hk₁]
    exact h.pended
  · rw [hm.uxSchedulerSuspended, hk₁]
    exact h.suspended

/-- All tasks of the application are created. -/
theorem createAll_spec {ts : List T} {tasks : List (T × ℕ)} (h : k.Created ts)
    (hnodup : (tasks.map Prod.fst).Nodup) (hfresh : ∀ x ∈ tasks, x.1 ∉ ts)
    (hpriority : ∀ x ∈ tasks, x.2 < configMaxPriorities) :
    ∃ k' ts', createAll k tasks = some k' ∧ k'.Created ts' ∧ ∀ t, t ∈ ts' ↔
      t ∈ tasks.map Prod.fst ∨ t ∈ ts := by
  induction tasks generalizing k ts with
  | nil => exact ⟨k, ts, rfl, h, fun t => (or_iff_right List.not_mem_nil).symm⟩
  | cons x tasks ih =>
    obtain ⟨hx, hnodup⟩ := List.nodup_cons.mp hnodup
    obtain ⟨k₁, h₁, hcreated, -⟩ :=
      createBeforeStart_spec h (hfresh x List.mem_cons_self) (hpriority x List.mem_cons_self)
    have hfresh₁ : ∀ y ∈ tasks, y.1 ∉ x.1 :: ts := by
      intro y hy hmem
      rcases List.mem_cons.mp hmem with he | hold
      · exact hx (he ▸ List.mem_map_of_mem hy)
      · exact hfresh y (List.mem_cons_of_mem x hy) hold
    obtain ⟨k', ts', hk', hcreated', hmem⟩ := ih hcreated hnodup hfresh₁ fun y hy =>
      hpriority y (List.mem_cons_of_mem x hy)
    refine ⟨k', ts', ?_, hcreated', fun t => ?_⟩
    · rw [createAll, h₁]
      exact hk'
    · rw [hmem, List.mem_cons, List.map_cons, List.mem_cons, or_left_comm, or_assoc]

variable [DecidableEq E]

omit [DecidableEq T] in
/-- Before the start everything is as the invariant says. -/
theorem Created.follows {ts : List T} (h : k.Created (idle :: ts))
    (hidle : k.generic.container idle = some (.ready (k.uxPriority idle))) :
    Follows idle { k with xNextTaskUnblockTime := portMaxDelay, xTickCount := 0 }
    (Clock.zero T) := by
  have hdelayed : ∀ t b, k.generic.container t ≠ some (.delayed b) := by
    intro t b ht
    cases h.ready t _ ht
  have hempty : ∀ b, (k.generic.list (.delayed b)).items = [] := by
    intro b
    refine List.eq_nil_iff_forall_not_mem.mpr fun t ht => hdelayed t b ?_
    rwa [k.generic.mem] at ht
  have hpending : (k.event.list .pendingReady).items = [] := by
    refine List.eq_nil_iff_forall_not_mem.mpr fun t ht => ?_
    rw [k.event.mem, h.event] at ht
    cases ht
  have hready : ∀ t p, k.generic.container t = some (.ready p) → k.uxPriority t = p := fun t p ht =>
    (GenericList.ready.inj (h.ready t _ ht)).symm
  have hbase : Base idle ({ k with xNextTaskUnblockTime := portMaxDelay, xTickCount := 0 } : Tasks T
    E) := by
    refine ⟨hready, fun t p ht => hready t p ht ▸ h.top t _ ht, hidle, fun t l ht => ?_,
      fun b => ?_, fun t ht =>
      absurd ht (hdelayed t _)⟩
    · rw [h.event] at ht
      cases ht
    · rw [hempty]
      exact List.Pairwise.nil
  refine ⟨⟨⟨hbase, ⟨fun t ht => absurd ht (hdelayed t _), fun t ht => absurd ht (hdelayed t _)⟩, ?_,
    fun _ => hpending, fun _ => h.pended⟩, ?_⟩,
    ⟨rfl, ?_, h.pended, h.suspended, fun t => deadline_none (hdelayed t)⟩⟩
  · rw [h.number]
    exact Nat.succ_pos _
  · exact ⟨_, h.current (List.cons_ne_nil idle ts), by simp⟩
  · change k.xNumOfOverflows = BitVec.ofNat 32 (0 / 2 ^ 32)
    rw [Nat.zero_div]
    exact h.overflows

/-- **The start.** -/
theorem vTaskStartScheduler_next {tasks : List (T × ℕ)}
    (hnodup : (idle :: tasks.map Prod.fst).Nodup)
    (hpriority : ∀ x ∈ tasks, x.2 < configMaxPriorities) :
    ∃ k : Tasks T E, vTaskStartScheduler idle tasks = some k ∧ Follows idle k (Clock.zero T) ∧
      k.Settled := by
  obtain ⟨hidle, hnodup⟩ := List.nodup_cons.mp hnodup
  obtain ⟨k₁, ts, h₁, hcreated, hmem⟩ :=
    createAll_spec (created_initial (E := E) idle) hnodup (fun _ _ => List.not_mem_nil) hpriority
  have hfresh : idle ∉ ts := by
    rw [hmem]
    exact fun hor => hor.elim hidle List.not_mem_nil
  obtain ⟨k₂, h₂, hcreated₂, hready⟩ :=
    createBeforeStart_spec hcreated hfresh (by decide : 0 < configMaxPriorities)
  refine ⟨_, ?_, hcreated₂.follows hready, ?_⟩
  · rw [vTaskStartScheduler, h₁]
    change (k₁.createBeforeStart idle 0 >>= _) = _
    rw [h₂]
    rfl
  · refine .inr fun t p ht => ?_
    rw [GenericList.ready.inj (hcreated₂.ready t _ ht)]
    exact hcreated₂.highest t _ ht

/-! ## Runs from the start

The start gives a state that follows a clock at zero, and from there on the step lemma carries. -/

/-- A run from the start comes to this state, and the clock to this one. -/
def Reached (idle : T) (k : Tasks T E) (c : Clock T) : Prop :=
  ∃ tasks k₀ calls, (idle :: tasks.map Prod.fst).Nodup ∧ (∀ x ∈ tasks, x.2 < configMaxPriorities) ∧
    vTaskStartScheduler idle tasks = some k₀ ∧ Along (Allowed idle) k₀ calls ∧
    k₀.run calls = some k ∧
    c = clockRun k₀ (Clock.zero T) calls

/-- A started scheduler and the clock at `0` agree. -/
theorem follows_start {k₀ : Tasks T E} {tasks : List (T × ℕ)}
    (hnodup : (idle :: tasks.map Prod.fst).Nodup)
    (hpriority : ∀ x ∈ tasks, x.2 < configMaxPriorities)
    (hstart : vTaskStartScheduler idle tasks = some k₀) :
    Follows idle k₀ (Clock.zero T) ∧ k₀.Settled := by
  obtain ⟨k, hk, hfollows⟩ := vTaskStartScheduler_next (E := E) hnodup hpriority
  obtain rfl := Option.some.inj (hstart.symm.trans hk)
  exact hfollows

/-- The agreement holds in every state that is reached. -/
theorem Reached.follows {c : Clock T} (h : Reached idle k c) : Follows idle k c := by
  obtain ⟨tasks, k₀, calls, hnodup, hpriority, hstart, hallowed, hrun, rfl⟩ := h
  obtain ⟨k', hk', hfollows, -⟩ := run_next (follows_start hnodup hpriority hstart).1 hallowed
  obtain rfl := Option.some.inj (hrun.symm.trans hk')
  exact hfollows

/-- A call is a tick of the timer. -/
def isTick : TaskCall T E → Bool
  | .tick => true
  | _ => false

omit [DecidableEq E] in
/-- Every tick is counted or held back. -/
theorem clockStep_time (k : Tasks T E) (c : Clock T) (call : TaskCall T E) :
    (k.clockStep c call).now + (k.clockStep c call).held = c.now + c.held + if isTick call then 1
      else 0 := by
  have hsame : ∀ c' : Clock T, c'.now = c.now ∧ c'.held = c.held →
      c'.now + c'.held = c.now + c.held + 0 :=
    fun c' hc => by rw [hc.1, hc.2, Nat.add_zero]
  cases call with
  | tick => exact c.tick_time
  | resumeAll => exact c.resume_time
  | delayUntil a b => exact hsame _ (untilClock_time a b)
  | placeOnEventList e n => exact hsame _ (waitClock_time k.pxCurrentTCB n)
  | removeFromEventList e yields => exact hsame _ (wakeClock_time e)
  | giveMutex e => exact hsame _ (wakeClock_time e)
  | _ => rfl

/-- A run of the clock -/
theorem clockRun_time {k : Tasks T E} {c : Clock T} {calls : List (TaskCall T E)}
    (h : k.run calls = some k') :
    (clockRun k c calls).now + (clockRun k c calls).held =
      c.now + c.held + calls.countP isTick := by
  induction calls generalizing k c with
  | nil => rfl
  | cons call calls ih =>
    obtain ⟨k₁, h₁, h⟩ := Option.bind_eq_some_iff.mp h
    rw [clockRun, h₁]
    change (clockRun k₁ (k.clockStep c call) calls).now +
        (clockRun k₁ (k.clockStep c call) calls).held = _
    rw [ih h, clockStep_time, List.countP_cons]
    exact (Nat.add_assoc _ _ _).trans (congrArg _ (Nat.add_comm _ _))

/-- **The scheduler keeps the clock.** Whatever is called from the start on, in whatever order: no
assertion fails, the invariant holds, the lists of delayed tasks tell when each task is to be woken,
and each tick of the timer is in the tick count unless it is held back. -/
theorem scheduler_keeps_clock {k₀ : Tasks T E} {tasks : List (T × ℕ)} {calls : List (TaskCall T E)}
    (hnodup : (idle :: tasks.map Prod.fst).Nodup) (hpriority : ∀ x ∈ tasks,
      x.2 < configMaxPriorities)
    (hstart : vTaskStartScheduler idle tasks = some k₀) (hallowed : Along (Allowed idle) k₀ calls) :
    ∃ k, k₀.run calls = some k ∧ Follows idle k (clockRun k₀ (Clock.zero T) calls) ∧
      k.xTickCount = BitVec.ofNat 32 (calls.countP isTick - k.uxPendedTicks) := by
  obtain ⟨k, hk, hfollows, -⟩ := run_next (follows_start hnodup hpriority hstart).1 hallowed
  refine ⟨k, hk, hfollows, ?_⟩
  have htime := clockRun_time (c := Clock.zero T) hk
  change _ = 0 + 0 + calls.countP isTick at htime
  rw [hfollows.keeps.tick, hfollows.keeps.held]
  refine congrArg _ ?_
  omega

/-- The end of the tick count is not reached, but a delay, a tick that is held back and one that is
not are. -/
theorem scheduler_keeps_clock_five : ∃ k₀ :
    Tasks (Fin 3) Unit, vTaskStartScheduler 0 [(1, 1), (2, 3)] = some k₀ ∧
    ∃ k, k₀.run [.suspendAll, .delay 2, .tick, .resumeAll, .tick] = some k ∧
      Follows 0 k
      (clockRun k₀ (Clock.zero (Fin 3)) [.suspendAll, .delay 2, .tick, .resumeAll, .tick]) ∧
      k.xTickCount = BitVec.ofNat 32
        (([.suspendAll, .delay 2, .tick, .resumeAll, .tick] : List (TaskCall (Fin 3) Unit)).countP
          isTick -
          k.uxPendedTicks) := by
  have hnodup : ((0 : Fin 3) :: [((1 : Fin 3), 1), (2, 3)].map Prod.fst).Nodup := by decide
  have hpriority : ∀ x ∈ [((1 : Fin 3), 1), (2, 3)], x.2 < configMaxPriorities := by decide
  exact ⟨_, rfl, scheduler_keeps_clock hnodup hpriority rfl (by decide)⟩

/-- **The running task has the highest priority.** In every state that a run from the start reaches
without a call that forgets a switch, no ready task is above the running one unless a switch is
pending. -/
theorem highest_priority_runs {k₀ : Tasks T E} {tasks : List (T × ℕ)} {calls : List (TaskCall T E)}
    {p : ℕ} (hnodup : (idle :: tasks.map Prod.fst).Nodup)
    (hpriority : ∀ x ∈ tasks, x.2 < configMaxPriorities)
    (hstart : vTaskStartScheduler idle tasks = some k₀) (hallowed : Along (Allowed idle) k₀ calls)
    (hremembers : Along (fun k call => ¬k.Forgets call) k₀ calls) (hrun : k₀.run calls = some k)
    (hyield : k.xYieldPending = false) (hready : t ∈ k.readyTasks p) :
    p ≤ k.uxPriority k.pxCurrentTCB := by
  obtain ⟨hfollows, hsettled⟩ := follows_start hnodup hpriority hstart
  obtain ⟨k', hk', -, hset⟩ := run_next hfollows hallowed
  obtain rfl := Option.some.inj (hrun.symm.trans hk')
  refine (hset hremembers hsettled).resolve_left ?_ t p (mem_readyTasks.mp hready)
  rw [hyield]
  exact Bool.false_ne_true

/-- The run: task `2` is created over task `1`, and runs at once. -/
theorem highest_priority_runs_create : ∃ k₀ k :
    Tasks (Fin 3) Unit, vTaskStartScheduler 0 [(1, 1)] = some k₀ ∧
    k₀.run [.tick, .create 2 3, .tick] = some k ∧ 1 ≤ k.uxPriority k.pxCurrentTCB := by
  have hnodup : ((0 : Fin 3) :: [((1 : Fin 3), 1)].map Prod.fst).Nodup := by decide
  have hpriority : ∀ x ∈ [((1 : Fin 3), 1)], x.2 < configMaxPriorities := by decide
  have hrun : ∃ k₀ : Tasks (Fin 3) Unit, vTaskStartScheduler 0 [(1, 1)] = some k₀ ∧
      Along (Allowed 0) k₀ [.tick, .create 2 3, .tick] ∧
      Along (fun k call => ¬k.Forgets call) k₀ [.tick, .create 2 3, .tick] ∧
      ∃ k, k₀.run [.tick, .create 2 3, .tick] = some k ∧ k.xYieldPending = false ∧
      1 ∈ k.readyTasks 1 :=
    ⟨_, rfl, by decide, by decide, _, rfl, by decide, by decide⟩
  obtain ⟨k₀, hstart, hallowed, hremembers, k, hrun, hyield, hready⟩ := hrun
  exact ⟨k₀, k, hstart, hrun, highest_priority_runs hnodup hpriority hstart hallowed hremembers hrun
    hyield hready⟩

/-- A task of low priority takes a mutex, another one of low priority and one of high priority wait
for it, the latter gives up, and a task between them has become ready: when the mutex is given back
the first task goes on running. -/
theorem forgotten_switch : ∃ k₀ k : Tasks (Fin 5) Unit,
    vTaskStartScheduler 0 [(1, 1)] = some k₀ ∧ ∃ calls, Along (Allowed 0) k₀ calls ∧
      k₀.run calls = some k ∧
      k.xYieldPending = false ∧ k.uxPriority k.pxCurrentTCB = 1 ∧ 3 ∈ k.readyTasks 2 := by
  refine ⟨_, _, rfl, [.takeMutex, .create 4 1, .yield, .yield, .inherit 1,
    .placeOnEventList () portMaxDelay, .yield, .create 2 3, .inherit 1, .placeOnEventList () 1,
    .yield, .create 3 2, .tick, .delay 100, .yield, .giveMutex ()],
    by decide, rfl, by decide, by decide, by decide⟩

end Tasks

end BitThunder
