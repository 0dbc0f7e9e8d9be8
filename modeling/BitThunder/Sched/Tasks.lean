import BitThunder.Sched.ItemLists

/-!
# Tasks

`kernel/FreeRTOS/Source/tasks.c` as it is configured: preemption and time slices, five priorities, a
tick count of 32 bits, mutexes, and lists of the tasks that are ready, delayed, suspended or
deleted. A task has two items, one for the list that tells its state and one for the list of the
event that it waits for. A function has no result where the source has a failed assertion, takes an
item out of no list, or puts one into a second list.

* `xTaskIncrementTick`: the tick, with the shortcut by `xNextTaskUnblockTime` and the lists for
  delays that pass the end of the tick count;
* `xTaskResumeAll`: what was held back while the scheduler was suspended;
* `Tasks.step`: one call by the running task or an interrupt.

The two words that count what is held back, `uxPendedTicks` and `uxSchedulerSuspended`, and the
number of mutexes held are natural numbers here; that they stay below the end of their words is
asked of a run, in `Sched.Run`. The tick count and all that is compared with it wrap as they do in
the source.

A loop over a list takes as many rounds as the list has items at its beginning. This is no
restriction: each round takes one item out.
-/

namespace BitThunder

/-- `configMAX_PRIORITIES` -/
def configMaxPriorities : ℕ := 5

/-- The lists for `xGenericListItem`. There are two lists of delayed tasks. -/
inductive GenericList : Type where
  | ready (priority : ℕ)
  | delayed (list : Bool)
  | suspended
  | waitingTermination
  deriving DecidableEq

/-- A list of ready tasks -/
def GenericList.isReady : GenericList → Bool
  | .ready _ => true
  | _ => false

/-- The lists for `xEventListItem` -/
inductive EventList (E : Type) : Type where
  | event (e : E)
  | pendingReady
  deriving DecidableEq

/-- The variables of the scheduler, and what the tasks hold -/
structure Tasks (T E : Type) : Type where
  generic : ItemLists GenericList T
  event : ItemLists (EventList E) T
  uxPriority : T → ℕ
  uxBasePriority : T → ℕ
  uxMutexesHeld : T → ℕ
  pxCurrentTCB : T
  pxDelayedTaskList : Bool
  uxCurrentNumberOfTasks : ℕ
  xTickCount : BitVec 32
  uxTopReadyPriority : ℕ
  uxPendedTicks : ℕ
  xYieldPending : Bool
  xNumOfOverflows : BitVec 32
  xNextTaskUnblockTime : BitVec 32
  uxSchedulerSuspended : ℕ

namespace Tasks

variable {T E : Type} (k : Tasks T E)

/-- `pxReadyTasksLists[priority]` -/
def readyTasks (priority : ℕ) : List T := (k.generic.list (.ready priority)).items

/-- The tasks of `*pxDelayedTaskList` -/
def delayedTasks : List T := (k.generic.list (.delayed k.pxDelayedTaskList)).items

/-- The tasks of `*pxOverflowDelayedTaskList` -/
def overflowTasks : List T := (k.generic.list (.delayed !k.pxDelayedTaskList)).items

variable [DecidableEq T]

/-- `prvAddTaskToReadyList` -/
def prvAddTaskToReadyList (t : T) : Option (Tasks T E) := do
  let generic ← k.generic.insertEnd (.ready (k.uxPriority t)) t
  return { k with
    generic := generic
    uxTopReadyPriority := if k.uxPriority t > k.uxTopReadyPriority then k.uxPriority t
      else k.uxTopReadyPriority }

/-- `uxListRemove` on the generic item -/
def removeGeneric (t : T) : Option (Tasks T E) := do
  let generic ← k.generic.remove t
  return { k with generic := generic }

/-- `prvResetNextTaskUnblockTime` -/
def prvResetNextTaskUnblockTime : Tasks T E :=
  match k.delayedTasks with
  | [] => { k with xNextTaskUnblockTime := portMaxDelay }
  | t :: _ => { k with xNextTaskUnblockTime := k.generic.value t }

/-- `prvAddCurrentTaskToDelayedList` -/
def prvAddCurrentTaskToDelayedList (xTimeToWake : BitVec 32) : Option (Tasks T E) :=
  let generic := k.generic.setValue k.pxCurrentTCB xTimeToWake
  if xTimeToWake < k.xTickCount then do
    let generic ← generic.insert (.delayed !k.pxDelayedTaskList) k.pxCurrentTCB
    return { k with generic := generic }
  else do
    let generic ← generic.insert (.delayed k.pxDelayedTaskList) k.pxCurrentTCB
    return { k with
      generic := generic
      xNextTaskUnblockTime :=
        if xTimeToWake < k.xNextTaskUnblockTime then xTimeToWake else k.xNextTaskUnblockTime }

/-- `taskSWITCH_DELAYED_LISTS` -/
def taskSwitchDelayedLists : Option (Tasks T E) :=
  if k.delayedTasks = [] then
    some ({ k with
      pxDelayedTaskList := !k.pxDelayedTaskList
      xNumOfOverflows := k.xNumOfOverflows + 1 } : Tasks T E).prvResetNextTaskUnblockTime
  else none

/-- The highest priority from this one down that has a ready task -/
def highestReady : ℕ → Option ℕ
  | 0 => if k.readyTasks 0 = [] then none else some 0
  | priority + 1 => if k.readyTasks (priority + 1) = [] then highestReady priority
    else some (priority + 1)

/-- `vTaskSwitchContext` -/
def vTaskSwitchContext : Option (Tasks T E) :=
  if k.uxSchedulerSuspended ≠ 0 then some { k with xYieldPending := true }
  else do
    let top ← k.highestReady k.uxTopReadyPriority
    let (t, generic) ← k.generic.next (.ready top)
    return { k with
      xYieldPending := false
      uxTopReadyPriority := top
      generic := generic
      pxCurrentTCB := t }

variable [DecidableEq E]

/-- `uxListRemove` on the event item -/
def removeEvent (t : T) : Option (Tasks T E) := do
  let event ← k.event.remove t
  return { k with event := event }

/-- `uxListRemove` on the event item if it is in a list -/
def leaveEvent (t : T) : Option (Tasks T E) :=
  if k.event.container t ≠ none then k.removeEvent t else some k

/-- The loop of `xTaskIncrementTick` over the delayed tasks, with at most so many rounds, and if it
asks for a switch -/
def unblockTasks : ℕ → Tasks T E → Bool → Option (Bool × Tasks T E)
  | 0, _, _ => none
  | rounds + 1, k, xSwitchRequired =>
    match k.delayedTasks with
    | [] => some (xSwitchRequired, { k with xNextTaskUnblockTime := portMaxDelay })
    | t :: _ =>
      if k.xTickCount < k.generic.value t then
        some (xSwitchRequired, { k with xNextTaskUnblockTime := k.generic.value t })
      else do
        let k ← k.removeGeneric t
        let k ← k.leaveEvent t
        let k ← k.prvAddTaskToReadyList t
        unblockTasks rounds k (xSwitchRequired || decide
          (k.uxPriority t ≥ k.uxPriority k.pxCurrentTCB))

/-- `xTaskIncrementTick` counts, and changes the lists over when the count begins again. -/
def advanceTick : Option (Tasks T E) :=
  let k := { k with xTickCount := k.xTickCount + 1 }
  if k.xTickCount = 0 then k.taskSwitchDelayedLists else some k

/-- `xTaskIncrementTick` looks at the delayed tasks if the first of them may be due. -/
def scanDelayed : Option (Bool × Tasks T E) :=
  if k.xTickCount ≥ k.xNextTaskUnblockTime then unblockTasks (k.delayedTasks.length + 1) k false
  else some (false, k)

/-- The part of `xTaskIncrementTick` for a scheduler that is not suspended, up to the time slices -/
def countTick : Option (Bool × Tasks T E) := do
  let k ← k.advanceTick
  k.scanDelayed

/-- `xTaskIncrementTick` -/
def xTaskIncrementTick : Option (Bool × Tasks T E) :=
  if k.uxSchedulerSuspended = 0 then do
    let (xSwitchRequired, k) ← k.countTick
    let xSwitchRequired :=
      xSwitchRequired || decide ((k.readyTasks (k.uxPriority k.pxCurrentTCB)).length > 1)
    return (xSwitchRequired || k.xYieldPending, k)
  else some (k.xYieldPending, { k with uxPendedTicks := k.uxPendedTicks + 1 })

/-- `vTaskSuspendAll` -/
def vTaskSuspendAll : Tasks T E := { k with uxSchedulerSuspended := k.uxSchedulerSuspended + 1 }

/-- The loop of `xTaskResumeAll` over `xPendingReadyList`, with at most so many rounds -/
def readyPending : ℕ → Tasks T E → Option (Tasks T E)
  | 0, k => if (k.event.list .pendingReady).items = [] then some k else none
  | rounds + 1, k =>
    match (k.event.list .pendingReady).items with
    | [] => some k
    | t :: _ => do
      let k ← k.removeEvent t
      let k ← k.removeGeneric t
      let k ← k.prvAddTaskToReadyList t
      readyPending rounds
        (if k.uxPriority t ≥ k.uxPriority k.pxCurrentTCB then { k with xYieldPending := true }
          else k)

/-- The loop of `xTaskResumeAll` over `uxPendedTicks` -/
def catchUp : ℕ → Tasks T E → Option (Tasks T E)
  | 0, k => some k
  | uxPendedTicks + 1, k => do
    let (xSwitchRequired, k) ← k.xTaskIncrementTick
    catchUp uxPendedTicks
      { k with
        xYieldPending := if xSwitchRequired then true else k.xYieldPending
        uxPendedTicks := k.uxPendedTicks - 1 }

/-- `xTaskResumeAll`. It returns if it has yielded. -/
def xTaskResumeAll : Option (Bool × Tasks T E) :=
  if k.uxSchedulerSuspended = 0 then none
  else
    let k := { k with uxSchedulerSuspended := k.uxSchedulerSuspended - 1 }
    if k.uxSchedulerSuspended = 0 ∧ k.uxCurrentNumberOfTasks > 0 then do
      let k ← readyPending (k.event.list .pendingReady).items.length k
      let k ← catchUp k.uxPendedTicks k
      if k.xYieldPending then
        let k ← k.vTaskSwitchContext
        return (true, k)
      else return (false, k)
    else some (false, k)

/-! ### Blocking

A call that waits takes the running task out of its ready list. The critical section or the
suspended scheduler around this is why it is one step. -/

/-- The part of `vTaskDelay` for which the scheduler is suspended -/
def delayCurrent (xTicksToDelay : BitVec 32) : Option (Tasks T E) := do
  let xTimeToWake := k.xTickCount + xTicksToDelay
  let k ← k.removeGeneric k.pxCurrentTCB
  k.prvAddCurrentTaskToDelayedList xTimeToWake

/-- `xShouldDelay` of `vTaskDelayUntil` -/
def shouldDelay (pxPreviousWakeTime xTimeToWake : BitVec 32) : Bool :=
  if k.xTickCount < pxPreviousWakeTime then
    xTimeToWake < pxPreviousWakeTime && xTimeToWake > k.xTickCount
  else xTimeToWake < pxPreviousWakeTime || xTimeToWake > k.xTickCount

/-- The part of `vTaskDelayUntil` for which the scheduler is suspended, with the new wake time -/
def delayCurrentUntil (pxPreviousWakeTime xTimeIncrement : BitVec 32) :
    Option (BitVec 32 × Tasks T E) :=
  let xTimeToWake := pxPreviousWakeTime + xTimeIncrement
  if k.shouldDelay pxPreviousWakeTime xTimeToWake then do
    let k ← k.removeGeneric k.pxCurrentTCB
    let k ← k.prvAddCurrentTaskToDelayedList xTimeToWake
    return (xTimeToWake, k)
  else some (xTimeToWake, k)

/-- `vTaskPlaceOnEventList` -/
def vTaskPlaceOnEventList (e : E) (xTicksToWait : BitVec 32) : Option (Tasks T E) := do
  let event ← k.event.insert (.event e) k.pxCurrentTCB
  let k := { k with event := event }
  let k ← k.removeGeneric k.pxCurrentTCB
  if xTicksToWait = portMaxDelay then
    let generic ← k.generic.insertEnd .suspended k.pxCurrentTCB
    return { k with generic := generic }
  else k.prvAddCurrentTaskToDelayedList (k.xTickCount + xTicksToWait)

/-- A task whose event has come is ready, or waits for the scheduler to be resumed. -/
def readyOrPending (t : T) : Option (Tasks T E) :=
  if k.uxSchedulerSuspended = 0 then do
    let k ← k.removeGeneric t
    k.prvAddTaskToReadyList t
  else do
    let event ← k.event.insertEnd .pendingReady t
    return { k with event := event }

/-- `xTaskRemoveFromEventList`. The caller has seen that the list is not empty. -/
def xTaskRemoveFromEventList (e : E) : Option (Bool × Tasks T E) := do
  let t ← (k.event.list (.event e)).items.head?
  let k ← k.removeEvent t
  let k ← k.readyOrPending t
  if k.uxPriority t > k.uxPriority k.pxCurrentTCB
    then return (true, { k with xYieldPending := true })
  else return (false, k)

/-! ### Suspending, creating and deleting

Tasks come and go here. A task that deletes itself is still the running one until the switch, and
its memory is given back later, by the idle task. -/

/-- Take a task out of all lists and put its generic item into another one. -/
def retire (t : T) (l : GenericList) : Option (Tasks T E) := do
  let k ← k.removeGeneric t
  let k ← k.leaveEvent t
  let generic ← k.generic.insertEnd l t
  let k := { k with generic := generic }
  if t = k.pxCurrentTCB then
    if k.uxSchedulerSuspended = 0 then k.vTaskSwitchContext else none
  else return k.prvResetNextTaskUnblockTime

/-- `vTaskSuspend` -/
def vTaskSuspend (t : T) : Option (Tasks T E) := k.retire t .suspended

/-- `vTaskDelete` -/
def vTaskDelete (t : T) : Option (Tasks T E) := k.retire t .waitingTermination

/-- `prvTaskIsTaskSuspended` -/
def prvTaskIsTaskSuspended (t : T) : Bool :=
  k.generic.container t = some .suspended && k.event.container t ≠
  some .pendingReady && k.event.container t = none

/-- `vTaskResume` -/
def vTaskResume (t : T) : Option (Tasks T E) :=
  if t ≠ k.pxCurrentTCB ∧ k.prvTaskIsTaskSuspended t then do
    let k ← k.removeGeneric t
    let k ← k.prvAddTaskToReadyList t
    if k.uxPriority t ≥ k.uxPriority k.pxCurrentTCB then k.vTaskSwitchContext else return k
  else some k

/-- `xTaskResumeFromISR`. It returns if a switch is asked for. -/
def xTaskResumeFromISR (t : T) : Option (Bool × Tasks T E) :=
  if k.prvTaskIsTaskSuspended t then
    if k.uxSchedulerSuspended = 0 then do
      let k ← k.removeGeneric t
      let k ← k.prvAddTaskToReadyList t
      return (decide (k.uxPriority t ≥ k.uxPriority k.pxCurrentTCB), k)
    else do
      let event ← k.event.insertEnd .pendingReady t
      return (false, { k with event := event })
  else some (false, k)

/-- `xTaskGenericCreate` with memory for the task and its stack -/
def xTaskGenericCreate (t : T) (uxPriority : ℕ) : Option (Tasks T E) :=
  if uxPriority < configMaxPriorities then do
    let k := { k with
      uxPriority := Function.update k.uxPriority t uxPriority
      uxBasePriority := Function.update k.uxBasePriority t uxPriority
      uxMutexesHeld := Function.update k.uxMutexesHeld t 0
      event := k.event.setValue t (BitVec.ofNat 32 configMaxPriorities - BitVec.ofNat 32 uxPriority)
      uxCurrentNumberOfTasks := k.uxCurrentNumberOfTasks + 1 }
    let k ← k.prvAddTaskToReadyList t
    if k.uxPriority k.pxCurrentTCB < uxPriority then k.vTaskSwitchContext else return k
  else none

/-- `prvInitialiseTaskLists`, and the variables as they are initialised. There is no current task
yet. -/
def initial (t : T) : Tasks T E where
  generic := ItemLists.empty GenericList T
  event := ItemLists.empty (EventList E) T
  uxPriority := fun _ => 0
  uxBasePriority := fun _ => 0
  uxMutexesHeld := fun _ => 0
  pxCurrentTCB := t
  pxDelayedTaskList := false
  uxCurrentNumberOfTasks := 0
  xTickCount := 0
  uxTopReadyPriority := 0
  uxPendedTicks := 0
  xYieldPending := false
  xNumOfOverflows := 0
  xNextTaskUnblockTime := 0
  uxSchedulerSuspended := 0

/-- `xTaskGenericCreate` before the scheduler runs. The new task is the current one unless one
before it is above it. -/
def createBeforeStart (t : T) (uxPriority : ℕ) : Option (Tasks T E) :=
  if uxPriority < configMaxPriorities then
    let k := { k with
      pxCurrentTCB :=
        if k.uxCurrentNumberOfTasks = 0 ∨ k.uxPriority k.pxCurrentTCB ≤ uxPriority then t
          else k.pxCurrentTCB
      uxPriority := Function.update k.uxPriority t uxPriority
      uxBasePriority := Function.update k.uxBasePriority t uxPriority
      uxMutexesHeld := Function.update k.uxMutexesHeld t 0
      event := k.event.setValue t (BitVec.ofNat 32 configMaxPriorities - BitVec.ofNat 32 uxPriority)
      uxCurrentNumberOfTasks := k.uxCurrentNumberOfTasks + 1 }
    k.prvAddTaskToReadyList t
  else none

/-- The tasks of the application, one after the other -/
def createAll : Tasks T E → List (T × ℕ) → Option (Tasks T E)
  | k, [] => some k
  | k, (t, uxPriority) :: tasks => do
    let k ← k.createBeforeStart t uxPriority
    createAll k tasks

/-- `vTaskStartScheduler`, after the tasks of the application have been created -/
def vTaskStartScheduler (idle : T) (tasks : List (T × ℕ)) : Option (Tasks T E) := do
  let k ← createAll (initial idle) tasks
  let k ← k.createBeforeStart idle 0
  return { k with xNextTaskUnblockTime := portMaxDelay, xTickCount := 0 }

/-! ### Priorities

A task has a base priority and the one it runs at. They differ while it holds a mutex that somebody
of higher priority waits for. -/

/-- `taskEVENT_LIST_ITEM_VALUE_IN_USE` is not set, and the value follows the priority. -/
def resetEventValue (t : T) (uxPriority : ℕ) : Tasks T E :=
  if k.event.value t &&& 0x80000000 = 0 then
    { k with
      event := k.event.setValue t
        (BitVec.ofNat 32 configMaxPriorities - BitVec.ofNat 32 uxPriority) }
  else k

/-- A task that was ready with the old priority goes to the list of its new one. -/
def requeue (t : T) (uxPriorityUsedOnEntry : ℕ) : Option (Tasks T E) :=
  if k.generic.container t = some (.ready uxPriorityUsedOnEntry) then do
    let k ← k.removeGeneric t
    k.prvAddTaskToReadyList t
  else some k

/-- A switch if it is asked for -/
def switchIf (b : Bool) (k : Tasks T E) : Option (Tasks T E) :=
  if b then k.vTaskSwitchContext else some k

/-- `xYieldRequired` of `vTaskPrioritySet` -/
def yieldRequired (t : T) (uxNewPriority : ℕ) : Bool :=
  if uxNewPriority > k.uxBasePriority t then
    decide (t ≠ k.pxCurrentTCB) && decide (uxNewPriority ≥ k.uxPriority k.pxCurrentTCB)
  else decide (t = k.pxCurrentTCB)

/-- `vTaskPrioritySet` -/
def vTaskPrioritySet (t : T) (uxNewPriority : ℕ) : Option (Tasks T E) :=
  if uxNewPriority < configMaxPriorities then
    if k.uxBasePriority t ≠ uxNewPriority then do
      let k₁ := { k with
        uxPriority :=
          if k.uxBasePriority t = k.uxPriority t then Function.update k.uxPriority t uxNewPriority
            else k.uxPriority
        uxBasePriority := Function.update k.uxBasePriority t uxNewPriority }
      let k₂ ← (k₁.resetEventValue t uxNewPriority).requeue t (k.uxPriority t)
      switchIf (k.yieldRequired t uxNewPriority) k₂
    else some k
  else none

/-- `vTaskPriorityInherit` -/
def vTaskPriorityInherit (pxMutexHolder : T) : Option (Tasks T E) :=
  let inherited := k.uxPriority k.pxCurrentTCB
  if k.uxPriority pxMutexHolder < inherited then
    let old := k.uxPriority pxMutexHolder
    let k := k.resetEventValue pxMutexHolder inherited
    let inherit := fun k : Tasks T E =>
      { k with uxPriority := Function.update k.uxPriority pxMutexHolder inherited }
    if k.generic.container pxMutexHolder = some (.ready old) then do
      let k ← k.removeGeneric pxMutexHolder
      (inherit k).prvAddTaskToReadyList pxMutexHolder
    else some (inherit k)
  else some k

/-- `xTaskPriorityDisinherit`. It returns if a switch is asked for. -/
def xTaskPriorityDisinherit (pxMutexHolder : T) : Option (Bool × Tasks T E) :=
  if pxMutexHolder = k.pxCurrentTCB ∧ k.uxMutexesHeld pxMutexHolder ≠ 0 then
    let k := { k with
      uxMutexesHeld := Function.update k.uxMutexesHeld pxMutexHolder
        (k.uxMutexesHeld pxMutexHolder - 1) }
    if k.uxPriority pxMutexHolder ≠ k.uxBasePriority pxMutexHolder ∧
      k.uxMutexesHeld pxMutexHolder = 0 then do
      let k ← k.removeGeneric pxMutexHolder
      let base := k.uxBasePriority pxMutexHolder
      let k := { k with
        uxPriority := Function.update k.uxPriority pxMutexHolder base
        event := k.event.setValue pxMutexHolder
          (BitVec.ofNat 32 configMaxPriorities - BitVec.ofNat 32 base) }
      let k ← k.prvAddTaskToReadyList pxMutexHolder
      return (true, k)
    else some (false, k)
  else none

/-- `pvTaskIncrementMutexHeldCount` -/
def pvTaskIncrementMutexHeldCount : Tasks T E :=
  { k with
    uxMutexesHeld := Function.update k.uxMutexesHeld k.pxCurrentTCB
      (k.uxMutexesHeld k.pxCurrentTCB + 1) }

/-- The part of `xQueueGenericSend` that gives a mutex back, with the tasks that wait for it on the
list -/
def giveMutex (e : E) : Option (Tasks T E) := do
  let (xYieldRequired, k) ← k.xTaskPriorityDisinherit k.pxCurrentTCB
  if (k.event.list (.event e)).items ≠ [] then
    let (higher, k) ← k.xTaskRemoveFromEventList e
    if higher then k.vTaskSwitchContext else return k
  else if xYieldRequired then k.vTaskSwitchContext
  else return k

end Tasks

/-! ## Calls

All that can happen to the scheduler is one type. A run is a list of calls, in the order in which
they were made, by whichever task or interrupt. -/

/-- What the running task or an interrupt calls. Each is one step: it runs in a critical section, in
an interrupt, or while the scheduler is suspended and on what no interrupt touches then.
`vTaskSuspend`, `vTaskDelete` and `xTaskGenericCreate` are a critical section and a switch after it,
which are taken as one step. The counters have no end here; `Allowed` keeps them below that of their
words. -/
inductive TaskCall (T E : Type) : Type where
  | tick
  | suspendAll
  | resumeAll
  | yield
  | delay (xTicksToDelay : BitVec 32)
  | delayUntil (pxPreviousWakeTime xTimeIncrement : BitVec 32)
  | placeOnEventList (e : E) (xTicksToWait : BitVec 32)
  /-- `yields` tells if the caller switches when it is told to. -/
  | removeFromEventList (e : E) (yields : Bool)
  | suspend (t : T)
  | resume (t : T)
  | resumeFromISR (t : T)
  | delete (t : T)
  | create (t : T) (uxPriority : ℕ)
  | prioritySet (t : T) (uxNewPriority : ℕ)
  | takeMutex
  | inherit (pxMutexHolder : T)
  | giveMutex (e : E)

namespace Tasks

variable {T E : Type} [DecidableEq T] [DecidableEq E]

/-- One call. The tick interrupt and the one that resumes a task switch on their way out if they are
told to. -/
def step (k : Tasks T E) : TaskCall T E → Option (Tasks T E)
  | .tick => do
    let (xSwitchRequired, k) ← k.xTaskIncrementTick
    switchIf xSwitchRequired k
  | .suspendAll => some k.vTaskSuspendAll
  | .resumeAll => do
    let (_, k) ← k.xTaskResumeAll
    return k
  | .yield => k.vTaskSwitchContext
  | .delay xTicksToDelay => k.delayCurrent xTicksToDelay
  | .delayUntil pxPreviousWakeTime xTimeIncrement => do
    let (_, k) ← k.delayCurrentUntil pxPreviousWakeTime xTimeIncrement
    return k
  | .placeOnEventList e xTicksToWait => k.vTaskPlaceOnEventList e xTicksToWait
  | .removeFromEventList e yields => do
    let (higher, k) ← k.xTaskRemoveFromEventList e
    switchIf (higher && yields) k
  | .suspend t => k.vTaskSuspend t
  | .resume t => k.vTaskResume t
  | .resumeFromISR t => do
    let (xYieldRequired, k) ← k.xTaskResumeFromISR t
    switchIf xYieldRequired k
  | .delete t => k.vTaskDelete t
  | .create t uxPriority => k.xTaskGenericCreate t uxPriority
  | .prioritySet t uxNewPriority => k.vTaskPrioritySet t uxNewPriority
  | .takeMutex => some k.pvTaskIncrementMutexHeldCount
  | .inherit pxMutexHolder => k.vTaskPriorityInherit pxMutexHolder
  | .giveMutex e => k.giveMutex e

/-- Calls one after the other -/
def run (k : Tasks T E) : List (TaskCall T E) → Option (Tasks T E)
  | [] => some k
  | c :: cs => do
    let k ← k.step c
    k.run cs

end Tasks

end BitThunder
