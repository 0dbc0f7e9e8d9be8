import BitThunder.Lib.Chain

/-!
# Tasklets

`os/src/interrupts/bt_tasklets.c`. A tasklet that is scheduled is put on one of two lists; the
softirq thread takes a whole list and calls the handlers of its tasklets one after the other.
An interrupt can schedule between any two steps of the thread, so the thread takes its steps one
by one here, and a call that schedules is one step: it is a critical section.

* `TaskletState.Ok`, `Run.ok`: what holds between any two steps;
* `lists_consistent`: each tasklet is on at most one list, and each move to a list is one run of
  the handler;
* `answered_iff`: when a call that schedules is answered by a run of the handler. It is not if
  the handler is running already.

A tasklet is in one of the two lists, in the list that the thread has taken, or in none; which one,
its state and the links say together. A call that schedules takes one step, so that only the
thread's own steps have to be looked at between two accesses. The `pNext` of the tasklet in hand
leads to the rest of the list until the handler has returned. It is cleared then, and only after
that the tasklet is idle, so that no call finds a tasklet that can be put on a list and is still
linked.

Calls and runs are counted over the history. A move from idle to scheduled is answered by one start
of the handler, so that the counts agree but for one if the tasklet waits. A call while the handler
runs moves nothing, and nobody remembers it. The exact condition is about the last call that
scheduled the tasklet: if it came while the handler ran, or before the tasklet was idle again, it is
not answered.
-/

namespace BitThunder

/-- `BT_TASKLET_STATE` -/
inductive BtTaskletState : Type where
  | idle | scheduled | running
  deriving DecidableEq

/-- Where the softirq thread is. In `tasklet_action` and `tasklet_action_hi`, `t` and `pTasklets`
are its variables and the constructor is named for what it does next. -/
inductive Phase (τ : Type) : Type where
  /-- in neither of them -/
  | out
  /-- test whether `pTasklets` is null -/
  | test (pTasklets : Option τ)
  /-- `pTasklets = pTasklets->pNext`, of the tasklet that `t` has just become -/
  | advance (t : τ)
  /-- `t->eState = BT_TASKLET_RUNNING` -/
  | mark (t : τ) (pTasklets : Option τ)
  /-- `t->pfnHandler(t->pData)` -/
  | call (t : τ) (pTasklets : Option τ)
  /-- return from the handler -/
  | handler (t : τ) (pTasklets : Option τ)
  /-- `t->pNext = NULL` -/
  | unlink (t : τ) (pTasklets : Option τ)
  /-- `t->eState = BT_TASKLET_IDLE` -/
  | release (t : τ) (pTasklets : Option τ)
  deriving DecidableEq

/-- The tasklets, the two lists and the softirq thread. -/
structure TaskletState (τ : Type) : Type where
  pNext : τ → Option τ
  eState : τ → BtTaskletState
  gTasklets : Option τ
  gHighTasklets : Option τ
  thread : Phase τ

/-- What can happen next. -/
inductive TaskletAction (τ : Type) : Type where
  /-- a call of `BT_TaskletSchedule`, from anywhere -/
  | schedule (t : τ)
  /-- a call of `BT_TaskletHighSchedule`, from anywhere -/
  | highSchedule (t : τ)
  /-- the softirq thread enters `tasklet_action` and takes its list -/
  | enter
  /-- the softirq thread enters `tasklet_action_hi` and takes its list -/
  | enterHi
  /-- the softirq thread does one step of the action it is in -/
  | go

/-- It is a call that schedules `t`. -/
def TaskletAction.schedules {τ : Type} [DecidableEq τ] (t : τ) : TaskletAction τ → Bool
  | .schedule t' | .highSchedule t' => t' = t
  | _ => false

namespace TaskletState

variable {τ : Type} [DecidableEq τ]

/-- No tasklet is scheduled yet. -/
def init : TaskletState τ := ⟨fun _ => none, fun _ => .idle, none, none, .out⟩

/-- `BT_TaskletSchedule` -/
def btTaskletSchedule (s : TaskletState τ) (t : τ) : TaskletState τ :=
  if s.eState t = .idle then
    let s := { s with eState := Function.update s.eState t .scheduled }
    if s.gTasklets = none then { s with gTasklets := some t }
    else { s with pNext := Function.update s.pNext t s.gTasklets, gTasklets := some t }
  else s

/-- `BT_TaskletHighSchedule` -/
def btTaskletHighSchedule (s : TaskletState τ) (t : τ) : TaskletState τ :=
  if s.eState t = .idle then
    let s := { s with eState := Function.update s.eState t .scheduled }
    if s.gHighTasklets = none then { s with gHighTasklets := some t }
    else { s with pNext := Function.update s.pNext t s.gHighTasklets, gHighTasklets := some t }
  else s

/-- One step of the loop of `tasklet_action`, which is that of `tasklet_action_hi` -/
def taskletAction (s : TaskletState τ) : TaskletState τ :=
  match s.thread with
  | .out => s
  | .test none => { s with thread := .out }
  | .test (some t) => { s with thread := .advance t }
  | .advance t => { s with thread := .mark t (s.pNext t) }
  | .mark t pTasklets =>
    { s with eState := Function.update s.eState t .running, thread := .call t pTasklets }
  | .call t pTasklets => { s with thread := .handler t pTasklets }
  | .handler t pTasklets => { s with thread := .unlink t pTasklets }
  | .unlink t pTasklets =>
    { s with pNext := Function.update s.pNext t none, thread := .release t pTasklets }
  | .release t pTasklets =>
    { s with eState := Function.update s.eState t .idle, thread := .test pTasklets }

/-- One step. The thread enters an action only if it is in neither. -/
def step (s : TaskletState τ) : TaskletAction τ → TaskletState τ
  | .schedule t => s.btTaskletSchedule t
  | .highSchedule t => s.btTaskletHighSchedule t
  | .enter => if s.thread = .out then { s with gTasklets := none, thread := .test s.gTasklets }
    else s
  | .enterHi => if s.thread = .out
    then { s with gHighTasklets := none, thread := .test s.gHighTasklets } else s
  | .go => s.taskletAction

/-- The steps of a run, each with the state before it and the last one first, and the state they
lead to. -/
inductive Run : List (TaskletState τ × TaskletAction τ) → TaskletState τ → Prop where
  | nil : Run [] init
  | cons {log : List (TaskletState τ × TaskletAction τ)} {s : TaskletState τ} (run : Run log s)
      (a : TaskletAction τ) : Run ((s, a) :: log) (s.step a)

/-- The list being drained: what the thread has taken and whose handlers it has not called. The
tasklet in hand is on it, and links to the rest, until then. -/
def drained (s : TaskletState τ) : Option τ :=
  match s.thread with
  | .out => none
  | .test pTasklets => pTasklets
  | .advance t | .mark t _ | .call t _ => some t
  | .handler _ pTasklets | .unlink _ pTasklets | .release _ pTasklets => pTasklets

/-- The step starts the handler of `t`. -/
def starts (s : TaskletState τ) (a : TaskletAction τ) (t : τ) : Bool :=
  match a, s.thread with
  | .go, .call t' _ => t' = t
  | _, _ => false

/-- The step moves `t` from idle to scheduled. -/
def moves (s : TaskletState τ) (a : TaskletAction τ) (t : τ) : Bool :=
  a.schedules t && s.eState t = .idle

/-- The handler of `t` has been called, and `t` is not idle again. -/
def busy (s : TaskletState τ) (t : τ) : Bool :=
  match s.thread with
  | .handler t' _ | .unlink t' _ | .release t' _ => t' = t
  | _ => false

/-- `t` waits for its handler to be called. -/
def waiting (s : TaskletState τ) (t : τ) : Bool :=
  s.eState t = .scheduled ||
    match s.thread with
    | .call t' _ => t' = t
    | _ => false

/-! ## What holds between two steps

The thread holds a tasklet that is in no list of the system and not idle yet. `HandOk` says at each
place what is known of it. -/

/-- The tasklet that the thread has marked as running. -/
def marked (s : TaskletState τ) : Option τ :=
  match s.thread with
  | .call t _ | .handler t _ | .unlink t _ | .release t _ => some t
  | _ => none

/-- What the thread knows of the tasklet in hand, with `queue` all those on a list. -/
def HandOk (s : TaskletState τ) (queue : List τ) : Prop :=
  match s.thread with
  | .mark t pTasklets | .call t pTasklets => s.pNext t = pTasklets
  | .handler t _ | .unlink t _ => t ∉ queue
  | .release t _ => t ∉ queue ∧ s.pNext t = none
  | _ => True

/-- The state says where a tasklet is, and one that is idle has been unlinked. -/
structure Ok (s : TaskletState τ) (low high rest : List τ) : Prop where
  /-- both lists and the one being drained are chains -/
  lowChained : Chained s.pNext s.gTasklets low
  highChained : Chained s.pNext s.gHighTasklets high
  restChained : Chained s.pNext s.drained rest
  /-- no tasklet is on two of them, or twice on one -/
  nodup : (low ++ high ++ rest).Nodup
  /-- the tasklet that the thread has marked is the one that runs -/
  running : ∀ t, s.eState t = .running ↔ s.marked = some t
  /-- it is marked as scheduled while it waits on a list -/
  scheduled : ∀ t, s.eState t = .scheduled ↔ t ∈ low ++ high ++ rest ∧ s.marked ≠ some t
  /-- an idle tasklet leads nowhere -/
  unlinked : ∀ t, s.eState t = .idle → s.pNext t = none
  /-- what the thread knows of the tasklet in hand is so -/
  hand : s.HandOk (low ++ high ++ rest)

variable {s : TaskletState τ} {a : TaskletAction τ} {t : τ} {low high rest : List τ}
  {log : List (TaskletState τ × TaskletAction τ)}

omit [DecidableEq τ] in
theorem Ok.of_idle (ok : Ok s low high rest) (h : s.eState t = .idle) :
    s.marked ≠ some t ∧ t ∉ low ++ high ++ rest := by
  have hmarked : s.marked ≠ some t := by
    rw [Ne, ← ok.running, h]
    exact BtTaskletState.noConfusion
  refine ⟨hmarked, fun hqueue => ?_⟩
  have hscheduled := (ok.scheduled t).mpr ⟨hqueue, hmarked⟩
  rw [h] at hscheduled
  exact BtTaskletState.noConfusion hscheduled

/-- Without the two lists' names. -/
def swap (s : TaskletState τ) : TaskletState τ :=
  { s with gTasklets := s.gHighTasklets, gHighTasklets := s.gTasklets }

/-- The two priorities do the same with their lists exchanged. -/
theorem btTaskletHighSchedule_eq (s : TaskletState τ) (t : τ) :
    s.btTaskletHighSchedule t = (s.swap.btTaskletSchedule t).swap := by
  by_cases hidle : s.eState t = .idle
  · by_cases hnone : s.gHighTasklets = none <;> simp [btTaskletHighSchedule, btTaskletSchedule,
      swap, hidle, hnone]
  · simp [btTaskletHighSchedule, btTaskletSchedule, swap, hidle]

omit [DecidableEq τ] in
/-- The invariant is the same with the lists exchanged. -/
theorem Ok.swap (ok : Ok s low high rest) : Ok s.swap high low rest := by
  have hperm : (high ++ low ++ rest).Perm (low ++ high ++ rest) :=
    List.perm_append_comm.append_right rest
  refine ⟨ok.highChained, ok.lowChained, ok.restChained, hperm.nodup_iff.mpr ok.nodup, ok.running,
    ?_, ok.unlinked, ?_⟩
  · intro t
    rw [hperm.mem_iff]
    exact ok.scheduled t
  · have hhand := ok.hand
    simp only [HandOk, TaskletState.swap, hperm.mem_iff] at hhand ⊢
    exact hhand

/-- A call that schedules puts an idle tasklet first on its list. That `pNext` is not written if
the list is empty makes no difference. -/
theorem Ok.schedule_eq (ok : Ok s low high rest) (h : s.eState t = .idle) :
    s.btTaskletSchedule t =
      { s with
        eState := Function.update s.eState t .scheduled
        pNext := Function.update s.pNext t s.gTasklets
        gTasklets := some t } := by
  simp only [btTaskletSchedule, if_pos h]
  split_ifs with hnone
  · rw [hnone, ← ok.unlinked t h, Function.update_eq_self]
  · rfl

theorem Ok.schedule (ok : Ok s low high rest) (t : τ) :
    ∃ low', Ok (s.btTaskletSchedule t) low' high rest := by
  by_cases h : s.eState t = .idle
  · obtain ⟨hmarked, hqueue⟩ := ok.of_idle h
    have hlow : t ∉ low := fun ht => hqueue (by simp [ht])
    have hhigh : t ∉ high := fun ht => hqueue (by simp [ht])
    have hrest : t ∉ rest := fun ht => hqueue (by simp [ht])
    refine ⟨t :: low, ?_⟩
    rw [ok.schedule_eq h]
    refine ⟨⟨rfl, ?_⟩, ok.highChained.update hhigh, ok.restChained.update hrest, ?_, ?_, ?_, ?_, ?_⟩
    · simp only [Function.update_self]
      exact ok.lowChained.update hlow
    · exact List.nodup_cons.mpr ⟨hqueue, ok.nodup⟩
    · intro x
      change Function.update s.eState t .scheduled x = .running ↔ s.marked = some x
      by_cases hx : x = t
      · subst hx
        simp [hmarked]
      · rw [Function.update_of_ne hx]
        exact ok.running x
    · intro x
      change Function.update s.eState t .scheduled x = .scheduled ↔
          x ∈ t :: low ++ high ++ rest ∧ s.marked ≠ some x
      by_cases hx : x = t
      · subst hx
        simp [hmarked]
      · rw [Function.update_of_ne hx, ok.scheduled x]
        simp [hx]
    · intro x hidle
      by_cases hx : x = t
      · subst hx
        simp at hidle
      · simp only [Function.update_of_ne hx] at hidle ⊢
        exact ok.unlinked x hidle
    · -- the tasklet in hand is not idle, so it is another one
      have hhand := ok.hand
      have hr := ok.restChained
      cases hthread : s.thread with
      | out | test p | advance t' => simp [HandOk]
      | mark t' p | call t' p =>
        simp only [drained, hthread] at hr
        obtain ⟨ys, rfl, -⟩ := hr.eq_cons
        have hne : t' ≠ t := by
          rintro rfl
          exact hrest List.mem_cons_self
        simpa [HandOk, hthread, Function.update_of_ne hne] using hhand
      | handler t' p | unlink t' p | release t' p =>
        have hne : t' ≠ t := by
          rintro rfl
          exact hmarked (by simp [marked, hthread])
        simpa [HandOk, hthread, Function.update_of_ne hne, hne] using hhand
  · refine ⟨low, ?_⟩
    rw [btTaskletSchedule, if_neg h]
    exact ok

/-- To schedule it with the high priority does too. -/
theorem Ok.highSchedule (ok : Ok s low high rest) (t : τ) :
    ∃ high', Ok (s.btTaskletHighSchedule t) low high' rest := by
  obtain ⟨high', hok⟩ := ok.swap.schedule t
  refine ⟨high', ?_⟩
  rw [btTaskletHighSchedule_eq]
  exact hok.swap

omit [DecidableEq τ] in
/-- The thread takes the whole list. -/
theorem Ok.enter (ok : Ok s low high rest) (hout : s.thread = .out) :
    Ok { s with gTasklets := none, thread := .test s.gTasklets } [] high low := by
  have hrest : rest = [] := by
    have hr := ok.restChained
    simp only [drained, hout] at hr
    exact hr.eq_nil
  subst hrest
  have hperm : ([] ++ high ++ low).Perm (low ++ high ++ []) := by
    simpa using List.perm_append_comm
  refine ⟨rfl, ok.highChained, ok.lowChained, hperm.nodup_iff.mpr ok.nodup, ?_, ?_, ok.unlinked,
    trivial⟩
  · intro t
    have hrunning := ok.running t
    simp only [marked, hout] at hrunning
    exact hrunning
  · intro t
    have hscheduled := ok.scheduled t
    simp only [marked, hout] at hscheduled
    rw [hperm.mem_iff]
    exact hscheduled

/-- One step of the loop. -/
theorem Ok.taskletAction (ok : Ok s low high rest) :
    ∃ rest', Ok s.taskletAction low high rest' := by
  obtain ⟨hlow, hhigh, hrest, hnodup, hrunning, hscheduled, hunlinked, hhand⟩ := ok
  cases hthread : s.thread with
  | out =>
    simp only [TaskletState.taskletAction, hthread]
    exact ⟨rest, hlow, hhigh, hrest, hnodup, hrunning, hscheduled, hunlinked, hhand⟩
  | test p =>
    simp only [drained, marked, hthread] at hrest hrunning hscheduled
    cases p with
    | none | some t =>
      simp only [TaskletState.taskletAction, hthread]
      exact ⟨rest, hlow, hhigh, hrest, hnodup, hrunning, hscheduled, hunlinked, trivial⟩
  | advance t =>
    simp only [drained, marked, hthread] at hrest hrunning hscheduled
    simp only [TaskletState.taskletAction, hthread]
    exact ⟨rest, hlow, hhigh, hrest, hnodup, hrunning, hscheduled, hunlinked, rfl⟩
  | mark t p =>
    simp only [drained, marked, HandOk, hthread] at hrest hrunning hscheduled hhand
    simp only [TaskletState.taskletAction, hthread]
    refine ⟨rest, hlow, hhigh, hrest, hnodup, ?_, ?_, ?_, hhand⟩
    · intro x
      by_cases hx : x = t
      · subst hx
        simp [marked]
      · simpa [marked, Function.update_of_ne hx, Ne.symm hx] using hrunning x
    · intro x
      by_cases hx : x = t
      · subst hx
        simp [marked]
      · simpa [marked, Function.update_of_ne hx, Ne.symm hx] using hscheduled x
    · intro x hidle
      by_cases hx : x = t
      · subst hx
        simp at hidle
      · simp only [Function.update_of_ne hx] at hidle
        exact hunlinked x hidle
  | call t p =>
    -- the tasklet leaves the list with the call of its handler
    simp only [drained, marked, HandOk, hthread] at hrest hrunning hscheduled hhand
    obtain ⟨ys, rfl, hys⟩ := hrest.eq_cons
    rw [hhand] at hys
    obtain ⟨hfresh, hnodup'⟩ := List.nodup_cons.mp (List.nodup_middle.mp hnodup)
    simp only [TaskletState.taskletAction, hthread]
    refine ⟨ys, hlow, hhigh, hys, hnodup', hrunning, ?_, hunlinked, hfresh⟩
    intro x
    by_cases hx : x = t
    · subst hx
      simpa [marked] using hscheduled x
    · simpa [marked, hx] using hscheduled x
  | handler t p =>
    simp only [drained, marked, HandOk, hthread] at hrest hrunning hscheduled hhand
    simp only [TaskletState.taskletAction, hthread]
    exact ⟨rest, hlow, hhigh, hrest, hnodup, hrunning, hscheduled, hunlinked, hhand⟩
  | unlink t p =>
    simp only [drained, marked, HandOk, hthread] at hrest hrunning hscheduled hhand
    simp only [TaskletState.taskletAction, hthread]
    refine ⟨rest, hlow.update fun ht => hhand (by simp [ht]),
      hhigh.update fun ht => hhand (by simp [ht]),
      hrest.update fun ht => hhand
      (by simp [ht]), hnodup, hrunning, hscheduled, ?_, hhand, Function.update_self ..⟩
    intro x hidle
    by_cases hx : x = t
    · subst hx
      exact Function.update_self ..
    · simp only [Function.update_of_ne hx]
      exact hunlinked x hidle
  | release t p =>
    simp only [drained, marked, HandOk, hthread] at hrest hrunning hscheduled hhand
    simp only [TaskletState.taskletAction, hthread]
    refine ⟨rest, hlow, hhigh, hrest, hnodup, ?_, ?_, ?_, trivial⟩
    · intro x
      by_cases hx : x = t
      · subst hx
        simp [marked]
      · simpa [marked, Function.update_of_ne hx, Ne.symm hx] using hrunning x
    · intro x
      by_cases hx : x = t
      · subst hx
        simpa [marked] using hhand.1
      · simpa [marked, Function.update_of_ne hx, Ne.symm hx] using hscheduled x
    · intro x hidle
      by_cases hx : x = t
      · subst hx
        exact hhand.2
      · simp only [Function.update_of_ne hx] at hidle
        exact hunlinked x hidle

theorem Ok.step (ok : Ok s low high rest) (a : TaskletAction τ) :
    ∃ low' high' rest', Ok (s.step a) low' high' rest' := by
  cases a with
  | schedule t =>
    obtain ⟨low', hok⟩ := ok.schedule t
    exact ⟨low', high, rest, hok⟩
  | highSchedule t =>
    obtain ⟨high', hok⟩ := ok.highSchedule t
    exact ⟨low, high', rest, hok⟩
  | enter =>
    simp only [TaskletState.step]
    split_ifs with hout
    · exact ⟨[], high, low, ok.enter hout⟩
    · exact ⟨low, high, rest, ok⟩
  | enterHi =>
    simp only [TaskletState.step]
    split_ifs with hout
    · exact ⟨low, [], high, (ok.swap.enter hout).swap⟩
    · exact ⟨low, high, rest, ok⟩
  | go =>
    obtain ⟨rest', hok⟩ := ok.taskletAction
    exact ⟨low, high, rest', hok⟩

theorem Run.ok (run : Run log s) : ∃ low high rest, Ok s low high rest := by
  induction run with
  | nil => exact ⟨[], [], [], rfl, rfl, rfl,
    List.nodup_nil, by simp [init, marked], by simp [init], fun _ _ => rfl, trivial⟩
  | cons _ a ih =>
    obtain ⟨low, high, rest, ok⟩ := ih
    exact ok.step a

/-! ## Who waits

A tasklet waits from the call that puts it on a list to the start of its handler. This is a property
of its state, and the lists agree with it. -/

/-- A call that schedules changes the state of one tasklet, and only if it is idle. -/
theorem eState_of_schedules (h : a.schedules t = true) :
    (s.step a).eState t = (if s.eState t = .idle then .scheduled else s.eState t) ∧
    (s.step a).thread = s.thread := by
  cases a with
  | schedule t' =>
    obtain rfl : t' = t := by simpa [TaskletAction.schedules] using h
    by_cases hidle : s.eState t' = .idle <;> by_cases hnone : s.gTasklets = none <;>
      simp [step, btTaskletSchedule, hidle, hnone]
  | highSchedule t' =>
    obtain rfl : t' = t := by simpa [TaskletAction.schedules] using h
    by_cases hidle : s.eState t' = .idle <;> by_cases hnone : s.gHighTasklets = none <;>
      simp [step, btTaskletHighSchedule, hidle, hnone]
  | enter | enterHi | go => simp [TaskletAction.schedules] at h

/-- The loop takes a tasklet from those that wait when it calls its handler. -/
theorem Ok.waiting_taskletAction (ok : Ok s low high rest) (t : τ) :
    s.taskletAction.waiting t = (s.waiting t && !s.starts .go t) := by
  have hrunning := ok.running
  have hscheduled := ok.scheduled
  have hrest := ok.restChained
  cases hthread : s.thread with
  | out => simp [TaskletState.taskletAction, waiting, starts, hthread]
  | test p => cases p <;> simp [TaskletState.taskletAction, waiting, starts, hthread]
  | advance t' => simp [TaskletState.taskletAction, waiting, starts, hthread]
  | mark t' p =>
    simp only [drained, marked, hthread] at hrest hscheduled
    obtain ⟨ys, rfl, -⟩ := hrest.eq_cons
    by_cases ht : t' = t
    · subst ht
      have hwait : s.eState t' = .scheduled := (hscheduled t').mpr (by simp)
      simp [TaskletState.taskletAction, waiting, starts, hthread, hwait]
    · simp [TaskletState.taskletAction, waiting, starts, hthread, ht,
        Function.update_of_ne (Ne.symm ht)]
  | call t' p =>
    by_cases ht : t' = t
    · subst ht
      have hrun : s.eState t' = .running := (hrunning t').mpr (by simp [marked, hthread])
      simp [TaskletState.taskletAction, waiting, starts, hthread, hrun]
    · simp [TaskletState.taskletAction, waiting, starts, hthread, ht]
  | handler t' p | unlink t' p => simp [TaskletState.taskletAction, waiting, starts, hthread]
  | release t' p =>
    by_cases ht : t = t'
    · subst ht
      have hrun : s.eState t = .running := (hrunning t).mpr (by simp [marked, hthread])
      simp [TaskletState.taskletAction, waiting, starts, hthread, hrun]
    · simp [TaskletState.taskletAction, waiting, starts, hthread, Function.update_of_ne ht]

/-- A tasklet waits from when it is scheduled to when it is started. -/
theorem Ok.waiting_step (ok : Ok s low high rest) (a : TaskletAction τ) (t : τ) :
    (s.step a).waiting t = (s.waiting t && !s.starts a t || s.moves a t) := by
  cases hsched : a.schedules t with
  | true =>
    obtain ⟨hstate, hthread⟩ := eState_of_schedules (s := s) hsched
    have hstart : s.starts a t = false := by
      cases a <;> simp [starts, TaskletAction.schedules] at hsched ⊢
    simp only [waiting, hstate, hthread, hstart, moves, hsched]
    cases s.eState t <;> simp
  | false =>
    have hmoves : s.moves a t = false := by simp [moves, hsched]
    rw [hmoves, Bool.or_false]
    cases a with
    | schedule t' =>
      have hne : t ≠ t' := by simpa [TaskletAction.schedules, eq_comm] using hsched
      by_cases hidle : s.eState t' = .idle <;> by_cases hnone : s.gTasklets = none <;>
        simp [TaskletState.step, btTaskletSchedule, waiting, starts, hidle, hnone,
          Function.update_of_ne hne]
    | highSchedule t' =>
      have hne : t ≠ t' := by simpa [TaskletAction.schedules, eq_comm] using hsched
      by_cases hidle : s.eState t' = .idle <;> by_cases hnone : s.gHighTasklets = none <;>
        simp [TaskletState.step, btTaskletHighSchedule, waiting, starts, hidle, hnone,
          Function.update_of_ne hne]
    | enter | enterHi => by_cases hout : s.thread =
      .out <;> simp [TaskletState.step, waiting, starts, hout]
    | go => exact ok.waiting_taskletAction t

/-- Those that wait are those on a list. -/
theorem Ok.waiting_iff (ok : Ok s low high rest) :
    s.waiting t = true ↔ t ∈ low ++ high ++ rest := by
  have hrest := ok.restChained
  have hhand := ok.hand
  have hscheduled := ok.scheduled t
  cases hthread : s.thread with
  | out | test p | advance t' | mark t' p =>
    simp only [marked, hthread] at hscheduled
    simpa [waiting, hthread] using hscheduled
  | call t' p =>
    simp only [drained, marked, hthread] at hrest hscheduled
    obtain ⟨ys, rfl, -⟩ := hrest.eq_cons
    by_cases ht : t' = t
    · subst ht
      simp [waiting, hthread]
    · simpa [waiting, hthread, ht] using hscheduled
  | handler t' p | unlink t' p | release t' p =>
    have hout : t' ∉ low ++ high ++ rest := by
      simp only [HandOk, hthread] at hhand
      first | exact hhand | exact hhand.1
    simp only [marked, hthread] at hscheduled
    by_cases ht : t' = t
    · subst ht
      have hwait : s.waiting t' = false := by
        simpa [waiting, hthread] using hscheduled
      simp only [hwait, hout, Bool.false_eq_true]
    · simpa [waiting, hthread, ht] using hscheduled

theorem Ok.not_waiting_of_idle (ok : Ok s low high rest) (h : s.eState t = .idle) :
    s.waiting t = false := by
  rw [Bool.eq_false_iff, Ne, ok.waiting_iff]
  exact (ok.of_idle h).2

theorem waiting_of_starts (h : s.starts a t = true) : s.waiting t = true := by
  cases a with
  | go =>
    cases hthread : s.thread <;> simp [starts, waiting, hthread] at h ⊢
    exact .inr h
  | schedule | highSchedule | enter | enterHi => simp [starts] at h

/-! ## Lists and runs

Starts and calls are counted over the whole history, and the difference is what waits now. -/

/-- How often the handler of `t` was started. -/
def started (log : List (TaskletState τ × TaskletAction τ)) (t : τ) : ℕ :=
  log.countP fun e => e.1.starts e.2 t

/-- How often a call moved `t` from idle to scheduled. -/
def moved (log : List (TaskletState τ × TaskletAction τ)) (t : τ) : ℕ :=
  log.countP fun e => e.1.moves e.2 t

/-- It was scheduled from idle as often as it was started, and once more if it waits. -/
theorem Run.counts (run : Run log s) (t : τ) :
    started log t + (if s.waiting t then 1 else 0) = moved log t := by
  induction run with
  | nil => rfl
  | @cons log s run a ih =>
    obtain ⟨low, high, rest, ok⟩ := run.ok
    simp only [started, moved, List.countP_cons] at ih ⊢
    rw [ok.waiting_step]
    cases hstarts : s.starts a t with
    | true =>
      have hwait := waiting_of_starts hstarts
      have hmoves : s.moves a t = false := by
        cases hm : s.moves a t with
        | false => rfl
        | true =>
          have hidle : s.eState t = .idle := by
            simpa [moves] using (Bool.and_eq_true_iff.mp hm).2
          rw [ok.not_waiting_of_idle hidle] at hwait
          exact hwait.symm
      simp [hwait, hmoves] at ih ⊢
      omega
    | false =>
      cases hmoves : s.moves a t with
      | true =>
        have hidle : s.eState t = .idle := by
          simpa [moves] using (Bool.and_eq_true_iff.mp hmoves).2
        have hwait := ok.not_waiting_of_idle hidle
        simp [hwait] at ih ⊢
        omega
      | false =>
        simp at ih ⊢
        omega

/-- **The lists stay consistent**, between any two steps: `low` and `high` are the tasklets on
`g_Tasklets` and `g_HighTasklets`, `rest` those on the list being drained. -/
theorem lists_consistent (run : Run log s) :
    ∃ low high rest : List τ,
      Chained s.pNext s.gTasklets low ∧ Chained s.pNext s.gHighTasklets high ∧
        Chained s.pNext s.drained rest ∧
      (low ++ high ++ rest).Nodup ∧ (∀ t, s.eState t = .idle → t ∉ low ++ high ++ rest) ∧
      ∀ t, started log t + (if t ∈ low ++ high ++ rest then 1 else 0) = moved log t := by
  obtain ⟨low, high, rest, ok⟩ := run.ok
  refine ⟨low, high, rest, ok.lowChained, ok.highChained, ok.restChained, ok.nodup,
    fun t hidle => (ok.of_idle hidle).2, fun t => ?_⟩
  rw [← run.counts t]
  simp only [ok.waiting_iff]

/-! ## Calls and answers

The last call decides. It is answered by a start after it, and none comes if it met a tasklet that
was not idle and not waiting. -/

/-- After the last start of its handler, `t` was scheduled again. -/
def Unanswered (t : τ) : List (TaskletState τ × TaskletAction τ) → Prop
  | [] => False
  | (s, a) :: log => a.schedules t = true ∨ s.starts a t = false ∧ Unanswered t log

/-- When `t` was last scheduled, its handler had been called and `t` was not idle again. -/
def LastBusy (t : τ) : List (TaskletState τ × TaskletAction τ) → Prop
  | [] => False
  | (s, a) :: log => if a.schedules t then s.busy t = true else LastBusy t log

/-- A tasklet that is not idle runs, or it waits. -/
theorem Ok.busy_iff (ok : Ok s low high rest) (h : s.eState t ≠ .idle) :
    s.busy t = true ↔ s.waiting t = false := by
  have hrunning := ok.running t
  have hstates : s.eState t = .scheduled ∨ s.eState t = .running := by
    cases hs : s.eState t with
    | idle => exact absurd hs h
    | scheduled => exact .inl rfl
    | running => exact .inr rfl
  cases hthread : s.thread with
  | out | test p | advance t' | mark t' p =>
    simp only [marked, hthread] at hrunning
    have hs : s.eState t = .scheduled := hstates.resolve_right (by simp [hrunning])
    simp [busy, waiting, hthread, hs]
  | call t' p | handler t' p | unlink t' p | release t' p =>
    simp only [marked, hthread] at hrunning
    by_cases ht : t' = t
    · subst ht
      have hs : s.eState t' = .running := hrunning.mpr rfl
      simp [busy, waiting, hthread, hs]
    · have hs : s.eState t = .scheduled := hstates.resolve_right (by simp [hrunning, ht])
      simp [busy, waiting, hthread, hs, ht]

/-- A tasklet whose last call has no answer waits for it, or will never have one. -/
theorem Run.unanswered_iff (run : Run log s) (t : τ) :
    (Unanswered t log ↔ s.waiting t = true ∨ LastBusy t log) ∧
      ¬(s.waiting t = true ∧ LastBusy t log) := by
  induction run with
  | nil => simp [Unanswered, LastBusy, waiting, init]
  | @cons log s run a ih =>
    obtain ⟨low, high, rest, ok⟩ := run.ok
    simp only [Unanswered, LastBusy]
    rw [ok.waiting_step]
    cases hsched : a.schedules t with
    | true =>
      have hstart : s.starts a t = false := by
        cases a <;> simp [starts, TaskletAction.schedules] at hsched ⊢
      by_cases hidle : s.eState t = .idle
      · have hbusy : s.busy t = false := by
          have hnot := (ok.of_idle hidle).1
          cases hthread : s.thread <;> simp [busy, marked, hthread] at hnot ⊢ <;> exact hnot
        simp [hstart, moves, hsched, hidle, hbusy]
      · have hbusy := ok.busy_iff hidle
        cases hwait : s.waiting t <;> simp [hstart, moves, hidle, hbusy, hwait]
    | false =>
      have hmoves : s.moves a t = false := by simp [moves, hsched]
      cases hstart : s.starts a t with
      | true =>
        have hwait := waiting_of_starts hstart
        simpa [hmoves, hwait] using ih.2
      | false => simpa [hmoves] using ih

/-- A tasklet that is scheduled only while it does not run was not running the last time either. -/
theorem not_lastBusy (hlog : ∀ e ∈ log, e.2.schedules t = true → e.1.busy t = false) :
    ¬LastBusy t log := by
  induction log with
  | nil => exact id
  | cons e log ih =>
    have ih := ih fun e' he' => hlog e' (List.mem_cons_of_mem _ he')
    simp only [LastBusy]
    split_ifs with hsched
    · simp [hlog e List.mem_cons_self hsched]
    · exact ih

/-- **When a call is answered.** In every state in which all tasklets are idle, the handler of
each was started after the last call that scheduled it, exactly if that call did not come
between the start of its handler and its return to idle; so it was, in every run without such
calls. -/
theorem answered_iff (run : Run log s) (quiet : ∀ t, s.eState t = .idle) :
    (∀ t, ¬Unanswered t log ↔ ¬LastBusy t log) ∧
      ((∀ t, ∀ e ∈ log, e.2.schedules t = true → e.1.busy t = false) → ∀ t, ¬Unanswered t log) := by
  obtain ⟨low, high, rest, ok⟩ := run.ok
  have hiff (t : τ) : ¬Unanswered t log ↔ ¬LastBusy t log := by
    rw [(run.unanswered_iff t).1, ok.not_waiting_of_idle (quiet t)]
    simp
  exact ⟨hiff, fun hlog t => (hiff t).mpr (not_lastBusy (hlog t))⟩

/-- The run of the given steps, the last one first. -/
def exec : List (TaskletAction τ) → List (TaskletState τ × TaskletAction τ) × TaskletState τ
  | [] => ([], init)
  | a :: as => (((exec as).2, a) :: (exec as).1, (exec as).2.step a)

/-- The actions of a list, one after the other. -/
theorem exec_run (as : List (TaskletAction τ)) : Run (exec as).1 (exec as).2 := by
  induction as with
  | nil => exact .nil
  | cons a as ih => exact .cons ih a

/-- One of two tasklets is scheduled, the thread takes it, and the other one is scheduled while
the handler of the first one runs. -/
def oneInHand : List (TaskletAction Bool) :=
  [.highSchedule true, .go, .go, .go, .go, .enter, .schedule false]

/-- One tasklet was started, and the other one is in the list of the high priority. -/
theorem lists_consistent_two :
    ∃ low high rest : List Bool,
      Chained (exec oneInHand).2.pNext (exec oneInHand).2.gTasklets low ∧
      Chained (exec oneInHand).2.pNext (exec oneInHand).2.gHighTasklets high ∧
      Chained (exec oneInHand).2.pNext (exec oneInHand).2.drained rest ∧
      (low ++ high ++ rest).Nodup ∧
      (exec oneInHand).2.gHighTasklets = some true ∧ started (exec oneInHand).1 false = 1 := by
  obtain ⟨low, high, rest, hlow, hhigh, hrest, hnodup, -⟩ := lists_consistent (exec_run oneInHand)
  exact ⟨low, high, rest, hlow, hhigh, hrest, hnodup, by decide, by decide⟩

/-- Both handlers run to their ends. -/
def bothDone : List (TaskletAction Bool) :=
  [.go, .go, .go, .go, .go, .go, .go, .go, .enterHi, .go, .go, .go, .go] ++ oneInHand

theorem answered_iff_two :
    (∀ t, (exec bothDone).2.eState t = .idle) ∧ ∀ t, ¬Unanswered t (exec bothDone).1 :=
  ⟨by decide, (answered_iff (exec_run bothDone) (by decide)).2 (by decide)⟩

/-- A call while the handler runs is lost: no tasklet waits then, and none runs. -/
theorem call_lost :
    ∃ log, ∃ s : TaskletState Bool, Run log s ∧ (∀ t, s.eState t = .idle) ∧ Unanswered false log :=
  ⟨_, _,
    exec_run [.go, .go, .go, .go, .schedule false, .go, .go, .go, .go, .enter, .schedule false],
    by decide, by
    simp [exec, Unanswered, TaskletAction.schedules, starts, step, taskletAction, init,
      btTaskletSchedule]⟩

end TaskletState

end BitThunder
