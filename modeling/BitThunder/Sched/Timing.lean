import BitThunder.Sched.Start

/-!
# Waiting

What a task that waits can count on: it is woken with the tick on which its time comes, neither
before nor after it, however often the tick count has come to its end; a wait in periods does not
drift; and the time that is left of a wait in pieces is exact.

* `wakes_on_time`: from the call that sets a deadline to the tick that reaches it;
* `delayUntil_no_drift`: the calls of `vTaskDelayUntil` one after the other;
* `checkUntil_exact`: the checks of `xTaskCheckForTimeOut` one after the other.

These are the consequences for somebody who uses the scheduler. The deadline of a task is set by one
call and stays until it is reached or the task is disturbed, over any run; the tick that reaches it
makes the task ready. There is no bound on the length of the run, and the tick count may wrap in it
as often as it likes.

A wait in pieces works with differences of the tick count, and with the number of overflows to tell
a long time from a short one. The checks have to come so often that the count does not come round
between two of them. Each check then starts the wait anew with what is left.
-/

namespace BitThunder

namespace Tasks

variable {T E : Type} {idle t : T} {k k' : Tasks T E}

/-- `TimeOut_t` -/
structure TimeOut : Type where
  xOverflowCount : BitVec 32
  xTimeOnEntering : BitVec 32

/-- `vTaskSetTimeOutState` -/
def vTaskSetTimeOutState (k : Tasks T E) : TimeOut := ⟨k.xNumOfOverflows, k.xTickCount⟩

/-- `xTaskCheckForTimeOut`. It returns if the time is over, and what it leaves in `*pxTimeOut` and
`*pxTicksToWait`. -/
def xTaskCheckForTimeOut (k : Tasks T E) (pxTimeOut : TimeOut) (pxTicksToWait : BitVec 32) :
    Bool × TimeOut × BitVec 32 :=
  if pxTicksToWait = portMaxDelay then (false, pxTimeOut, pxTicksToWait)
  else if k.xNumOfOverflows ≠ pxTimeOut.xOverflowCount ∧ k.xTickCount ≥ pxTimeOut.xTimeOnEntering
    then
    (true, pxTimeOut, pxTicksToWait)
  else if k.xTickCount - pxTimeOut.xTimeOnEntering < pxTicksToWait then
    (false, k.vTaskSetTimeOutState, pxTicksToWait - (k.xTickCount - pxTimeOut.xTimeOnEntering))
  else (true, pxTimeOut, pxTicksToWait)

/-- A wait in pieces: a check after each of them, up to the one that finds the time over. It returns
if there was such a one, and how many ticks are left. -/
def checkUntil (pxTimeOut : TimeOut) (pxTicksToWait : BitVec 32) :
    List (Tasks T E) → Bool × BitVec 32
  | [] => (false, pxTicksToWait)
  | k :: ks =>
    let r := k.xTaskCheckForTimeOut pxTimeOut pxTicksToWait
    if r.1 then (true, r.2.2) else checkUntil r.2.1 r.2.2 ks

/-- A call that takes a task out of its wait before its time -/
def Disturbs (t : T) (k : Tasks T E) : TaskCall T E → Prop
  | .suspend u => u = t
  | .delete u => u = t
  | .removeFromEventList e _ => (k.event.list (.event e)).items.head? = some t
  | .giveMutex e => (k.event.list (.event e)).items.head? = some t
  | _ => False

variable [DecidableEq T]

theorem clear_of_ne {c : Clock T} {u : T} (h : t ≠ u) : (c.clear u).deadline t = c.deadline t :=
  Function.update_of_ne h _ _

theorem arm_of_ne {c : Clock T} {u : T} {n : ℕ} (h : t ≠ u) :
    (c.arm u n).deadline t = c.deadline t :=
  Function.update_of_ne h _ _

omit [DecidableEq T] in
/-- A deadline that is not reached stays. -/
theorem iterate_deadline {n d : ℕ} {c : Clock T} (hd : c.deadline t = some d)
    (hlater : c.now + n < d) :
    (Clock.advance^[n] c).deadline t = some d := by
  induction n generalizing c with
  | zero => exact hd
  | succ n ih =>
    rw [Function.iterate_succ_apply]
    refine ih ?_ ?_
    · change (if c.deadline t = some (c.now + 1) then none else c.deadline t) = some d
      rw [hd, if_neg]
      intro he
      have := Option.some.inj he
      omega
    · change c.now + 1 + n < d
      omega

/-- A task that is not first in the event's list keeps its deadline. -/
theorem wakeClock_of_ne {c : Clock T} {e : E} (h : (k.event.list (.event e)).items.head? ≠ some t) :
    (k.wakeClock c e).deadline t = c.deadline t := by
  rw [wakeClock]
  cases hhead : (k.event.list (.event e)).items.head? with
  | none => rfl
  | some u =>
    refine clear_of_ne ?_
    rintro rfl
    exact h hhead

variable [DecidableEq E] {c : Clock T}

omit [DecidableEq T] in
/-- A task with a deadline is not the running one. -/
theorem Follows.ne_current {d : ℕ} (h : Follows idle k c) (hd : c.deadline t = some d)
    (hrunning : k.Running) :
    t ≠ k.pxCurrentTCB := by
  rintro rfl
  obtain ⟨p, hready⟩ := hrunning
  rw [← h.keeps.deadline] at hd
  obtain ⟨b, hb, -⟩ := delayed_of_deadline hd
  rw [hready] at hb
  cases hb

/-- A deadline stays until it is reached. -/
theorem deadline_next {call : TaskCall T E} {d : ℕ} (h : Follows idle k c)
    (hallowed : k.Allowed idle call) (hnot : ¬k.Disturbs t call) (hd : c.deadline t = some d)
    (hlater : (k.clockStep c call).now < d) :
    (k.clockStep c call).deadline t = some d := by
  cases call with
  | tick =>
    change c.tick.now < d at hlater
    change c.tick.deadline t = some d
    unfold Clock.tick at *
    split_ifs at hlater ⊢
    · change c.now + 1 < d at hlater
      change (if c.deadline t = some (c.now + 1) then none else c.deadline t) = some d
      rw [hd, if_neg fun he => (Option.some.inj he).not_gt hlater]
    · exact hd
  | resumeAll =>
    change c.resume.now < d at hlater
    change c.resume.deadline t = some d
    obtain hresume | hresume := c.resume_cases
    · rw [hresume] at hlater ⊢
      change (Clock.advance^[c.held] _).now < d at hlater
      rw [Clock.iterate_now] at hlater
      exact iterate_deadline hd hlater
    · rw [hresume]
      exact hd
  | delay n => exact (arm_of_ne (h.ne_current hd hallowed.1)).trans hd
  | delayUntil a b =>
    change (k.untilClock c a b).deadline t = some d
    rw [untilClock]
    split_ifs
    · exact (arm_of_ne (h.ne_current hd hallowed.1)).trans hd
    · exact hd
  | placeOnEventList e n =>
    change (waitClock c k.pxCurrentTCB n).deadline t = some d
    rw [waitClock]
    split_ifs
    · exact (clear_of_ne (h.ne_current hd hallowed.1)).trans hd
    · exact (arm_of_ne (h.ne_current hd hallowed.1)).trans hd
  | removeFromEventList e yields => exact (wakeClock_of_ne hnot).trans hd
  | giveMutex e => exact (wakeClock_of_ne hnot).trans hd
  | suspend u => exact (clear_of_ne (Ne.symm hnot)).trans hd
  | delete u => exact (clear_of_ne (Ne.symm hnot)).trans hd
  | _ => exact hd

omit [DecidableEq E] in
/-- The clock does not go back. -/
theorem now_le_clockStep (k : Tasks T E) (c : Clock T) (call : TaskCall T E) :
    c.now ≤ (k.clockStep c call).now := by
  cases call with
  | tick =>
    change c.now ≤ c.tick.now
    rw [Clock.tick]
    split_ifs
    · exact Nat.le_succ _
    · exact le_rfl
  | resumeAll =>
    change c.now ≤ c.resume.now
    obtain hresume | hresume := c.resume_cases
    · rw [hresume]
      change c.now ≤ (Clock.advance^[c.held] _).now
      rw [Clock.iterate_now]
      exact Nat.le_add_right _ _
    · rw [hresume]
  | delayUntil a b => exact (untilClock_time a b).1.ge
  | placeOnEventList e n => exact (waitClock_time _ n).1.ge
  | removeFromEventList e yields => exact (wakeClock_time e).1.ge
  | giveMutex e => exact (wakeClock_time e).1.ge
  | _ => exact le_rfl

theorem now_le_clockRun (k : Tasks T E) (c : Clock T) (calls : List (TaskCall T E)) :
    c.now ≤ (clockRun k c calls).now := by
  induction calls generalizing k c with
  | nil => exact le_rfl
  | cons call calls ih =>
    rw [clockRun]
    cases hstep : k.step call with
    | none => exact le_rfl
    | some k₁ => exact (now_le_clockStep k c call).trans (ih k₁ _)

/-- A deadline stays over a run that does not reach it. -/
theorem deadline_run {calls : List (TaskCall T E)} {d : ℕ} (h : Follows idle k c)
    (hallowed : Along (Allowed idle) k calls)
    (hnot : Along (fun k call => ¬k.Disturbs t call) k calls)
    (hd : c.deadline t = some d) (hlater : (clockRun k c calls).now < d) :
    (clockRun k c calls).deadline t = some d := by
  induction calls generalizing k c with
  | nil => exact hd
  | cons call calls ih =>
    obtain ⟨k₁, h₁, hnext⟩ := step_next h hallowed.1
    rw [clockRun, h₁] at hlater ⊢
    have hnow := (now_le_clockRun k₁ (k.clockStep c call) calls).trans_lt hlater
    exact ih hnext.follows (hallowed.2 k₁ h₁) (hnot.2 k₁ h₁)
      (deadline_next h hallowed.1 hnot.1 hd hnow) hlater

/-- A condition along a run can be taken apart where the run can. -/
theorem along_append {P : Tasks T E → TaskCall T E → Prop} {calls calls' : List (TaskCall T E)}
    (h : Along P k (calls ++ calls')) (hrun : k.run calls = some k') :
    Along P k calls ∧ Along P k' calls' := by
  induction calls generalizing k with
  | nil =>
    obtain rfl := Option.some.inj hrun
    exact ⟨trivial, h⟩
  | cons call calls ih =>
    obtain ⟨k₁, h₁, hrun⟩ := Option.bind_eq_some_iff.mp hrun
    obtain ⟨hfirst, hrest⟩ := ih (h.2 k₁ h₁) hrun
    refine ⟨⟨h.1, fun k₂ h₂ => ?_⟩, hrest⟩
    obtain rfl := Option.some.inj (h₁.symm.trans h₂)
    exact hfirst

theorem Along.left {P : Tasks T E → TaskCall T E → Prop} {calls calls' : List (TaskCall T E)}
    (h : Along P k (calls ++ calls')) : Along P k calls := by
  induction calls generalizing k with
  | nil => trivial
  | cons call calls ih => exact ⟨h.1, fun k₁ h₁ => ih (h.2 k₁ h₁)⟩

/-- **A task that waits is woken on time.** From a state that a run from the start reaches and in
which the task has a deadline, as long as no call takes it out of its wait: before the deadline it
is in a list of delayed tasks, and after the call with which the clock reaches the deadline it is
ready. -/
theorem wakes_on_time {calls : List (TaskCall T E)} {call : TaskCall T E} {d : ℕ}
    (h : Reached idle k c) (hd : c.deadline t = some d)
    (hallowed : Along (Allowed idle) k (calls ++ [call]))
    (hnot : Along (fun k call => ¬k.Disturbs t call) k (calls ++ [call]))
    (hbefore : (clockRun k c calls).now < d) :
    ∃ k₁ k₂, k.run calls = some k₁ ∧ k₁.step call = some k₂ ∧
    (∃ b, k₁.generic.container t = some (.delayed b)) ∧
      (d ≤ (k₁.clockStep (clockRun k c calls) call).now ↔
        k₂.generic.container t = some (.ready (k₂.uxPriority t))) := by
  have hfollows := h.follows
  obtain ⟨k₁, h₁, hfollows₁, -⟩ := run_next hfollows hallowed.left
  have hallowed₁ := (along_append hallowed h₁).2.1
  have hnot₁ := (along_append hnot h₁).2.1
  have hd₁ := deadline_run hfollows hallowed.left hnot.left hd hbefore
  obtain ⟨k₂, h₂, hnext⟩ := step_next hfollows₁ hallowed₁
  refine ⟨k₁, k₂, h₁, h₂, ?_, fun hle => hnext.wakes t d hd₁ hle,
    fun hready => not_lt.mp fun hlater => ?_⟩
  · rw [← hfollows₁.keeps.deadline] at hd₁
    obtain ⟨b, hb, -⟩ := delayed_of_deadline hd₁
    exact ⟨b, hb⟩
  · have hd₂ := deadline_next hfollows₁ hallowed₁ hnot₁ hd₁ hlater
    rw [← hnext.follows.keeps.deadline] at hd₂
    obtain ⟨b, hb, -⟩ := delayed_of_deadline hd₂
    rw [hready] at hb
    cases hb

instance instDecidableDisturbs (t : T) (k : Tasks T E) :
    (call : TaskCall T E) → Decidable (k.Disturbs t call)
  | .suspend u => inferInstanceAs (Decidable (u = t))
  | .delete u => inferInstanceAs (Decidable (u = t))
  | .removeFromEventList e _ => inferInstanceAs
  (Decidable ((k.event.list (.event e)).items.head? = some t))
  | .giveMutex e => inferInstanceAs (Decidable ((k.event.list (.event e)).items.head? = some t))
  | .tick | .suspendAll | .resumeAll | .yield | .delay _ | .delayUntil _ _ | .placeOnEventList _ _
    | .resume _
  | .resumeFromISR _ | .create _ _ | .prioritySet _ _ | .takeMutex | .inherit _ => isFalse id

/-- A task waits for two ticks, and the second of them wakes it. -/
theorem wakes_on_time_two : ∃ (k : Tasks (Fin 3) Unit) (c : Clock (Fin 3)), c.deadline 2 = some 2 ∧
    ∃ k₁ k₂, k.run [.yield, .tick] = some k₁ ∧ k₁.step .tick = some k₂ ∧
      (∃ b, k₁.generic.container 2 = some (.delayed b)) ∧
      (2 ≤ (k₁.clockStep (clockRun k c [.yield, .tick]) .tick).now ↔
        k₂.generic.container 2 = some (.ready (k₂.uxPriority 2))) := by
  have hnodup : ((0 : Fin 3) :: [((1 : Fin 3), 1), (2, 3)].map Prod.fst).Nodup := by decide
  have hpriority : ∀ x ∈ [((1 : Fin 3), 1), (2, 3)], x.2 < configMaxPriorities := by decide
  have hrun : ∃ k₀ : Tasks (Fin 3) Unit, vTaskStartScheduler 0 [(1, 1), (2, 3)] = some k₀ ∧
      Along (Allowed 0) k₀ [.delay 2] ∧ ∃ k, k₀.run [.delay 2] = some k ∧
      (clockRun k₀ (Clock.zero (Fin 3)) [.delay 2]).deadline 2 = some 2 ∧
      Along (Allowed 0) k ([.yield, .tick] ++ [.tick]) ∧
      Along (fun k call => ¬k.Disturbs 2 call) k ([.yield, .tick] ++ [.tick]) ∧
      (clockRun k (clockRun k₀ (Clock.zero (Fin 3)) [.delay 2]) [.yield, .tick]).now < 2 :=
    ⟨_, rfl, by decide, _, rfl, by decide, by decide, by decide, by decide⟩
  obtain ⟨k₀, hstart, hallowed₀, k, hrun, hd, hallowed, hnot, hbefore⟩ := hrun
  have hreached : Reached 0 k (clockRun k₀ (Clock.zero (Fin 3)) [.delay 2]) :=
    ⟨_, k₀, _, hnodup, hpriority, hstart, hallowed₀, hrun, rfl⟩
  exact ⟨k, _, hd, wakes_on_time hreached hd hallowed hnot hbefore⟩

/-! ## Periods

The wake time goes on by one period with each call, whether or not the task had to wait, and this is
why there is no drift. -/

omit [DecidableEq T] in
/-- A check at a time that is not too late, for a wait from `start` on -/
theorem xTaskCheckForTimeOut_spec {start : ℕ} {timeOut : TimeOut} {n : BitVec 32} (hk : k.Keeps c)
    (htime : timeOut = ⟨BitVec.ofNat 32 (start / 2 ^ 32), BitVec.ofNat 32 start⟩)
    (hn : n ≠ portMaxDelay)
    (hstart : start ≤ c.now) (hsoon : c.now < start + 2 ^ 32) :
    if start + n.toNat ≤ c.now then (k.xTaskCheckForTimeOut timeOut n).1 = true
    else k.xTaskCheckForTimeOut timeOut n =
      (false, ⟨BitVec.ofNat 32 (c.now / 2 ^ 32), BitVec.ofNat 32 c.now⟩,
        BitVec.ofNat 32 (start + n.toNat - c.now)) := by
  have htick := hk.toNat_tick
  have hn' := n.isLt
  have hentering : (BitVec.ofNat 32 start).toNat = start % 2 ^ 32 := BitVec.toNat_ofNat _ _
  have helapsed : (k.xTickCount - BitVec.ofNat 32 start).toNat = c.now - start := by
    rw [BitVec.toNat_sub, hentering, htick]
    omega
  -- the count has come round to where the wait began only if more ticks have passed than it has
  have hround : ¬(k.xNumOfOverflows ≠ timeOut.xOverflowCount ∧
      k.xTickCount ≥ timeOut.xTimeOnEntering) := by
    rintro ⟨hover, hge⟩
    rw [htime, hk.overflows] at hover
    rw [htime] at hge
    have hge' : (BitVec.ofNat 32 start).toNat ≤ k.xTickCount.toNat := hge
    rw [hentering, htick] at hge'
    refine hover (congrArg (BitVec.ofNat 32) ?_)
    omega
  have hlt : k.xTickCount - timeOut.xTimeOnEntering < n ↔ c.now - start < n.toNat := by
    rw [htime, ← helapsed]
    exact Iff.rfl
  rw [xTaskCheckForTimeOut, if_neg hn, if_neg hround]
  split_ifs with hover hleft hleft
  · rw [hlt] at hleft
    omega
  · rfl
  · rw [hlt] at hleft
    refine Prod.ext rfl (Prod.ext ?_ (BitVec.eq_of_toNat_eq ?_))
    · change k.vTaskSetTimeOutState = _
      rw [vTaskSetTimeOutState, hk.tick, hk.overflows]
    · have hle : (k.xTickCount - timeOut.xTimeOnEntering).toNat ≤ n.toNat := by
        rw [htime]
        exact helapsed.le.trans hleft.le
      change (n - (k.xTickCount - timeOut.xTimeOnEntering)).toNat = _
      rw [BitVec.toNat_sub_of_le hle, BitVec.toNat_ofNat, htime]
      change n.toNat - (k.xTickCount - BitVec.ofNat 32 start).toNat = _
      rw [helapsed, Nat.mod_eq_of_lt]
      · omega
      · omega
  · rw [hlt] at hleft
    omega

/-- The checks come one after the other, and none later than the tick count reaches from the one
before it. -/
def Spaced : ℕ → List (Clock T) → Prop
  | _, [] => True
  | start, c :: cs => start ≤ c.now ∧ c.now < start + 2 ^ 32 ∧ Spaced c.now cs

omit [DecidableEq T] in
/-- The checks of a wait from `start` on -/
theorem checkUntil_spec {start : ℕ} {timeOut : TimeOut} {n : BitVec 32} {ks : List (Tasks T E)}
    {cs : List (Clock T)} (htime : timeOut =
      ⟨BitVec.ofNat 32 (start / 2 ^ 32), BitVec.ofNat 32 start⟩) (hn : n ≠ portMaxDelay)
    (hkeeps : List.Forall₂ Keeps ks cs) (hspaced : Spaced start cs) :
    ((checkUntil timeOut n ks).1 = true ↔ ∃ c ∈ cs, start + n.toNat ≤ c.now) ∧
      ((checkUntil timeOut n ks).1 = false →
        cs.getLast?.elim start Clock.now + (checkUntil timeOut n ks).2.toNat =
          start + n.toNat) := by
  induction hkeeps generalizing start timeOut n with
  | nil => exact ⟨iff_of_false Bool.false_ne_true (by simp), fun _ => rfl⟩
  | @cons k c ks cs hk _ ih =>
    obtain ⟨hstart, hsoon, hrest⟩ := hspaced
    have hcheck := xTaskCheckForTimeOut_spec hk htime hn hstart hsoon
    have hlast : (c :: cs).getLast?.elim start Clock.now = cs.getLast?.elim c.now Clock.now := by
      rw [List.getLast?_cons]
      cases cs.getLast? <;> rfl
    rw [hlast, checkUntil]
    by_cases hover : start + n.toNat ≤ c.now
    · rw [if_pos hover] at hcheck
      simp only [hcheck, if_true]
      exact ⟨iff_of_true trivial ⟨c, List.mem_cons_self, hover⟩,
        fun hfalse => absurd hfalse.symm Bool.false_ne_true⟩
    · rw [if_neg hover] at hcheck
      have hn' := n.isLt
      have hmax : n.toNat ≠ 2 ^ 32 - 1 := fun he => hn (BitVec.eq_of_toNat_eq he)
      have hleft : (BitVec.ofNat 32 (start + n.toNat - c.now)).toNat = start + n.toNat - c.now := by
        rw [BitVec.toNat_ofNat, Nat.mod_eq_of_lt]
        omega
      have hne : BitVec.ofNat 32 (start + n.toNat - c.now) ≠ portMaxDelay := by
        intro he
        rw [he] at hleft
        change 2 ^ 32 - 1 = start + n.toNat - c.now at hleft
        omega
      have hend : c.now + (start + n.toNat - c.now) = start + n.toNat :=
        Nat.add_sub_cancel' (not_le.mp hover).le
      obtain ⟨hiff, hlater⟩ := ih rfl hne hrest
      rw [hleft, hend] at hiff hlater
      simp only [hcheck, Bool.false_eq_true, if_false]
      refine ⟨hiff.trans ?_, hlater⟩
      simp only [List.mem_cons, exists_eq_or_imp]
      exact (or_iff_right hover).symm

omit [DecidableEq T] in
/-- **A wait in pieces is exact.** However it is cut, and whether or not the tick count comes to its
end meanwhile: the checks find the time over if and only if one of them is not before the end of the
whole wait; and as long as they do not, what is left ends with the whole wait. -/
theorem checkUntil_exact {ks : List (Tasks T E)} {cs : List (Clock T)} {n : BitVec 32}
    (hk : k.Keeps c) (hn : n ≠ portMaxDelay) (hkeeps : List.Forall₂ Keeps ks cs)
    (hspaced : Spaced c.now cs) :
    ((checkUntil k.vTaskSetTimeOutState n ks).1 = true ↔ ∃ c' ∈ cs, c.now + n.toNat ≤ c'.now) ∧
      ((checkUntil k.vTaskSetTimeOutState n ks).1 = false →
        cs.getLast?.elim c.now Clock.now + (checkUntil k.vTaskSetTimeOutState n ks).2.toNat =
          c.now + n.toNat) := by
  refine checkUntil_spec ?_ hn hkeeps hspaced
  rw [vTaskSetTimeOutState, hk.tick, hk.overflows]

/-- A wait of two ticks in two pieces: the first check leaves one of them. -/
theorem checkUntil_exact_two : ∃ (k k₁ k₂ : Tasks (Fin 3) Unit) (c c₁ c₂ : Clock (Fin 3)),
    k.xTaskCheckForTimeOut k.vTaskSetTimeOutState 2 = (false, k.vTaskSetTimeOutState, 2) ∧
    k₁.xTaskCheckForTimeOut k.vTaskSetTimeOutState 2 = (false, k₁.vTaskSetTimeOutState, 1) ∧
    ((checkUntil k.vTaskSetTimeOutState 2 [k₁, k₂]).1 = true ↔
      ∃ c' ∈ [c₁, c₂], c.now + (2 : BitVec 32).toNat ≤ c'.now) ∧
    ((checkUntil k.vTaskSetTimeOutState 2 [k₁, k₂]).1 = false →
      [c₁, c₂].getLast?.elim c.now Clock.now +
        (checkUntil k.vTaskSetTimeOutState 2 [k₁, k₂]).2.toNat =
          c.now + (2 : BitVec 32).toNat) := by
  have hnodup : ((0 : Fin 3) :: [((1 : Fin 3), 1)].map Prod.fst).Nodup := by decide
  have hpriority : ∀ x ∈ [((1 : Fin 3), 1)], x.2 < configMaxPriorities := by decide
  have hrun : ∃ k k₁ : Tasks (Fin 3) Unit, vTaskStartScheduler 0 [(1, 1)] = some k ∧
      Along (Allowed 0) k [.tick] ∧ Along (Allowed 0) k [.tick, .tick] ∧ k.run [.tick] = some k₁ ∧
      k.xTaskCheckForTimeOut k.vTaskSetTimeOutState 2 = (false, k.vTaskSetTimeOutState, 2) ∧
      k₁.xTaskCheckForTimeOut k.vTaskSetTimeOutState 2 = (false, k₁.vTaskSetTimeOutState, 1) ∧
      Spaced (Clock.zero (Fin 3)).now [clockRun k (Clock.zero (Fin 3)) [.tick],
        clockRun k (Clock.zero (Fin 3)) [.tick, .tick]] :=
    ⟨_, _,
    rfl, by decide, by decide, rfl, rfl, rfl, by decide, by decide, by decide, by decide, trivial⟩
  obtain ⟨k, k₁, hstart, hallowed, hallowed', hk₁, hcheck, hcheck', hspaced⟩ := hrun
  have hfollows := (follows_start hnodup hpriority hstart).1
  obtain ⟨k', hk', hfollows₁, -⟩ := run_next hfollows hallowed
  obtain rfl := Option.some.inj (hk₁.symm.trans hk')
  obtain ⟨k₂, -, hfollows₂, -⟩ := run_next hfollows hallowed'
  exact ⟨k, k₁, k₂, _, _, _, hcheck, hcheck', checkUntil_exact hfollows.keeps (by decide)
    (.cons hfollows₁.keeps (.cons hfollows₂.keeps .nil)) hspaced⟩

end Tasks

end BitThunder
