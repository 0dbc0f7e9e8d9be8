import BitThunder.Irq.Tasklet

/-!
# Bringing up network interfaces

`BT_RegisterNetworkInterface`, the start of `net_task` and `net_manager_sm` of
`os/src/net/bt_net.c`, with the tasklets of `Irq.Tasklet` under them. A registration puts the
interface at the head of a list and, once the stack is initialised, schedules `sm_tasklet`; its
handler goes over the whole list and brings up each interface whose `NET_IF_ADDED` is set. Nothing
clears that flag.

* `NetManager.Ok`, `Ok.step`: who is still to be brought up, and by whom;
* `netif_brought_up_once`: every interface is brought up once if no call that schedules the tasklet
  finds it idle with an interface up, or busy with an interface behind it that is not;
* `netif_added_twice`: a second interface that is registered later makes the first one be added
  again.

`ahead` are the interfaces that the tasklet will still go over: the whole list if it has been
scheduled and not begun, the rest from its position if it has. An interface that is registered goes
to the head of the list, where a loop that has begun does not come by. So it needs a new run of the
tasklet. A call that schedules the tasklet while it runs is lost, and a run that begins when
interfaces are up adds them again: these are the two ways to go wrong, and the condition excludes
both, call by call.

`BT_FifoCreate` may find no memory, and its error is not looked at; the interface is added without a
FIFO. The condition also asks for memory.
-/

namespace BitThunder

/-- `smFlags` -/
structure SmFlags : Type where
  /-- `NET_IF_ADDED` -/
  added : Bool
  /-- `NET_IF_REMOVED` -/
  removed : Bool
  /-- `NET_IF_INITIALISED` -/
  initialised : Bool

/-- Where `BT_RegisterNetworkInterface` is, named for what it does next. -/
inductive Registering : Type where
  /-- not called -/
  | out
  /-- test `g_bDone` -/
  | test
  /-- `BT_TaskletHighSchedule(&sm_tasklet)` -/
  | schedule
  deriving DecidableEq

/-- Where the start of `net_task` is. -/
inductive NetStart : Type where
  /-- wait for `tcpip_init_done` -/
  | wait
  /-- `g_bDone = BT_TRUE` -/
  | done
  /-- `BT_TaskletHighSchedule(&sm_tasklet)` -/
  | schedule
  /-- the loop -/
  | loop
  deriving DecidableEq

/-- Where `net_manager_sm` is. -/
inductive SmLoop : Type where
  /-- `bt_list_for_each` reads the head -/
  | begin
  /-- before the first of these, the nodes from `pos` on -/
  | at (pos : List ℕ)

/-- The manager. Interfaces go by the numbers of their registrations. -/
structure NetManager (τ : Type) : Type where
  tasklets : TaskletState τ
  /-- `g_interfaces`, from the head on -/
  gInterfaces : List ℕ
  /-- `n_interfaces` -/
  nInterfaces : ℕ
  gDone : Bool
  smFlags : ℕ → SmFlags
  /-- `hTxFifo` is an open FIFO -/
  hTxFifo : ℕ → Bool
  /-- how often `BT_FifoCreate` was called for an interface -/
  fifos : ℕ → ℕ
  /-- how often an interface was passed to `netifapi_netif_add` -/
  adds : ℕ → ℕ
  registering : Registering
  netTask : NetStart
  sm : SmLoop

/-- What can happen next. -/
inductive NetManagerAction (τ : Type) : Type where
  /-- a call of `BT_RegisterNetworkInterface`, which may get no memory -/
  | register (memory : Bool)
  /-- the registration goes on -/
  | registering
  /-- `net_task` goes on -/
  | netTask
  /-- something else happens to the tasklets, or the softirq thread goes on; `BT_FifoCreate` may get
  no memory -/
  | tasklet (a : TaskletAction τ) (memory : Bool)

/-- The thread is in the handler of `t`. -/
def TaskletState.handling {τ : Type} [DecidableEq τ] (s : TaskletState τ) (t : τ) : Bool :=
  match s.thread with
  | .handler t' _ => t' = t
  | _ => false

namespace NetManager

variable {τ : Type} [DecidableEq τ] (smTasklet : τ)

/-- Nothing is registered yet. -/
def init : NetManager τ :=
  ⟨.init, [], 0, false, fun _ => ⟨false, false, false⟩, fun _ => false, fun _ => 0, fun _ => 0,
  .out, .wait, .begin⟩

/-- The new `BT_NETIF_PRIV` gets its flags and goes to the head of the list. -/
def insert (s : NetManager τ) : NetManager τ :=
  { s with
    smFlags := Function.update s.smFlags s.nInterfaces ⟨true, false, false⟩
    nInterfaces := s.nInterfaces + 1
    gInterfaces := s.nInterfaces :: s.gInterfaces
    registering := .test }

/-- `BT_TaskletHighSchedule(&sm_tasklet)` -/
def schedule (s : NetManager τ) : NetManager τ :=
  { s with tasklets := s.tasklets.step (.highSchedule smTasklet) }

/-- A step of a registration after that -/
def register (s : NetManager τ) : NetManager τ :=
  match s.registering with
  | .out => s
  | .test => { s with registering := if s.gDone then .schedule else .out }
  | .schedule => { s.schedule smTasklet with registering := .out }

/-- A step of the start of `net_task` -/
def netTaskStart (s : NetManager τ) : NetManager τ :=
  match s.netTask with
  | .wait => { s with netTask := .done }
  | .done => { s with gDone := true, netTask := .schedule }
  | .schedule => { s.schedule smTasklet with netTask := .loop }
  | .loop => s

/-- `BT_FifoCreate` and `netifapi_netif_add`, which calls `lwip_init`. The error of the first is not
looked at. -/
def add (s : NetManager τ) (pIF : ℕ) (memory : Bool) : NetManager τ :=
  { s with
    hTxFifo := Function.update s.hTxFifo pIF memory
    fifos := Function.update s.fifos pIF (s.fifos pIF + 1)
    adds := Function.update s.adds pIF (s.adds pIF + 1)
    smFlags := Function.update s.smFlags pIF { s.smFlags pIF with initialised := true } }

/-- What the loop does with an interface -/
def visit (s : NetManager τ) (pIF : ℕ) (memory : Bool) : NetManager τ :=
  let s := if (s.smFlags pIF).added then s.add pIF memory else s
  if (s.smFlags pIF).removed then { s with hTxFifo := Function.update s.hTxFifo pIF false } else s

/-- A step of `net_manager_sm`. Registrations put nodes at the head only, so the nodes from `pos` on
stay what they were. -/
def netManagerSm (s : NetManager τ) (memory : Bool) : NetManager τ :=
  match s.sm with
  | .begin => { s with sm := .at s.gInterfaces }
  | .at [] => { s with tasklets := s.tasklets.step .go }
  | .at (pIF :: pos) => { s.visit pIF memory with sm := .at pos }

/-- A step of the softirq thread: of the handler, if it is in that of `sm_tasklet`, and of the
tasklets otherwise. -/
def softirq (s : NetManager τ) (memory : Bool) : NetManager τ :=
  if s.tasklets.handling smTasklet then s.netManagerSm memory
  else { s with
    tasklets := s.tasklets.step .go
    sm := if s.tasklets.starts .go smTasklet then .begin else s.sm }

/-- One step. Registrations come one after the other, and nothing else schedules `sm_tasklet`. -/
def step (s : NetManager τ) : NetManagerAction τ → NetManager τ
  | .register memory =>
    match s.registering with
    | .out => if memory then s.insert else s
    | _ => s
  | .registering => s.register smTasklet
  | .netTask => s.netTaskStart smTasklet
  | .tasklet .go memory => s.softirq smTasklet memory
  | .tasklet a _ => if a.schedules smTasklet then s else { s with tasklets := s.tasklets.step a }

/-- The states of the runs whose steps all satisfy `ok`. -/
inductive Run (ok : NetManager τ → NetManagerAction τ → Prop) : NetManager τ → Prop where
  | nil : Run ok init
  | cons {s : NetManager τ} (run : Run ok s) {a : NetManagerAction τ} (h : ok s a) : Run ok
    (s.step smTasklet a)

/-- The interfaces that a run of the tasklet, one that waits or one that has begun, goes over from
now on. -/
def ahead (s : NetManager τ) : List ℕ :=
  if s.tasklets.waiting smTasklet then s.gInterfaces
  else if s.tasklets.handling smTasklet then
    match s.sm with
    | .begin => s.gInterfaces
    | .at pos => pos
  else []

/-- The next step of a registration or of `net_task` schedules `sm_tasklet`. -/
def schedules (s : NetManager τ) : NetManagerAction τ → Bool
  | .registering => match s.registering with
    | .schedule => true
    | _ => false
  | .netTask => match s.netTask with
    | .schedule => true
    | _ => false
  | _ => false

/-- The loop is at an interface that it brings up, and there is no memory for its FIFO. -/
def refuses (s : NetManager τ) : NetManagerAction τ → Bool
  | .tasklet .go false => s.tasklets.handling smTasklet &&
    match s.sm with
    | .at (pIF :: _) => (s.smFlags pIF).added
    | _ => false
  | _ => false

/-- A call that schedules `sm_tasklet` finds it idle and no interface up yet, or not idle and each
interface that is not up ahead of it. There is memory for each FIFO. -/
def Careful (s : NetManager τ) (a : NetManagerAction τ) : Prop :=
  s.refuses smTasklet a = false ∧
  (s.schedules a = true →
    if s.tasklets.eState smTasklet = .idle then ∀ pIF ∈ s.gInterfaces, s.adds pIF = 0
    else ∀ pIF ∈ s.gInterfaces, s.adds pIF = 0 → pIF ∈ s.ahead smTasklet)

instance (s : NetManager τ) (a : NetManagerAction τ) : Decidable (Careful smTasklet s a) := by
  unfold Careful
  infer_instance

/-- No registration is under way, `net_task` is in its loop, and no run of the tasklet is pending.
-/
structure Settled (s : NetManager τ) : Prop where
  /-- no registration is under way -/
  registered : s.registering = .out
  /-- the stack is initialised -/
  started : s.netTask = .loop
  /-- and the tasklet is idle -/
  idle : s.tasklets.eState smTasklet = .idle

end NetManager

/-! ## The tasklet

The tasklet's own machinery is that of the other module. Here it only matters when its handler
begins, and what happens to a call that schedules it. -/

namespace TaskletState

variable {τ : Type} [DecidableEq τ] {s : TaskletState τ} {low high rest : List τ}

/-- The thread gets into a handler by calling it. -/
theorem handling_go (s : TaskletState τ) (t : τ) : (s.step .go).handling t = s.starts .go t := by
  cases hthread : s.thread with
  | test p => cases p <;> simp [step, taskletAction, handling, starts, hthread]
  | _ => simp [step, taskletAction, handling, starts, hthread]

/-- Nothing else gets it into a handler, or out of one. -/
theorem handling_step {a : TaskletAction τ} (ha : a ≠ .go) (t : τ) :
    (s.step a).handling t = s.handling t := by
  cases a with
  | schedule t' =>
    by_cases hidle : s.eState t' = .idle <;> by_cases hnone : s.gTasklets = none <;>
      simp [step, btTaskletSchedule, handling, hidle, hnone]
  | highSchedule t' =>
    by_cases hidle : s.eState t' = .idle <;> by_cases hnone : s.gHighTasklets = none <;>
      simp [step, btTaskletHighSchedule, handling, hidle, hnone]
  | enter | enterHi => by_cases hout : s.thread = .out <;> simp [step, handling, hout]
  | go => exact absurd rfl ha

theorem starts_of_ne_go {a : TaskletAction τ} (ha : a ≠ .go) (t : τ) : s.starts a t = false := by
  cases a <;> first | rfl | exact absurd rfl ha

/-- A tasklet in its handler is running. -/
theorem Ok.running_of_handling (ok : Ok s low high rest) {t : τ} (h : s.handling t = true) :
    s.eState t = .running ∧ s.busy t = true := by
  cases hthread : s.thread with
  | handler t' p =>
    obtain rfl : t' = t := by simpa [handling, hthread] using h
    exact ⟨(ok.running t').mpr (by simp [marked, hthread]), by simp [busy, hthread]⟩
  | _ => simp [handling, hthread] at h

theorem Ok.not_waiting_of_handling (ok : Ok s low high rest) {t : τ} (h : s.handling t = true) :
    s.waiting t = false := by
  obtain ⟨hrun, hbusy⟩ := ok.running_of_handling h
  exact (ok.busy_iff (by rw [hrun]; exact BtTaskletState.noConfusion)).mp hbusy

end TaskletState

namespace NetManager

variable {τ : Type} [DecidableEq τ] {smTasklet : τ} {s : NetManager τ}

/-- What holds between the steps. -/
structure Ok (smTasklet : τ) (s : NetManager τ) : Prop where
  /-- the lists of tasklets are in order -/
  tasklets : ∃ low high rest, s.tasklets.Ok low high rest
  /-- no interface is registered twice -/
  nodup : s.gInterfaces.Nodup
  /-- each was registered some time -/
  past : ∀ pIF ∈ s.gInterfaces, pIF < s.nInterfaces
  /-- and none is removed again -/
  flags : ∀ pIF ∈ s.gInterfaces, (s.smFlags pIF).added = true ∧ (s.smFlags pIF).removed = false
  /-- what is not registered yet has not been brought up -/
  unused : ∀ pIF, s.nInterfaces ≤ pIF → s.adds pIF = 0
  /-- a FIFO is created with each call that brings an interface up -/
  fifos : ∀ pIF, s.fifos pIF = s.adds pIF
  /-- so that an interface that is up has one -/
  hTxFifo : ∀ pIF, s.adds pIF ≠ 0 → s.hTxFifo pIF = true
  /-- no interface is brought up twice -/
  once : ∀ pIF, s.adds pIF ≤ 1
  /-- the stack is initialised when the task gets to its loop -/
  done : s.netTask = .schedule ∨ s.netTask = .loop → s.gDone = true
  /-- the tasklet has the end of the list before it -/
  aheadSub : s.ahead smTasklet <:+ s.gInterfaces
  /-- and none of these interfaces is up -/
  aheadNew : ∀ pIF ∈ s.ahead smTasklet, s.adds pIF = 0
  /-- an interface that is not up is before it, or the tasklet will be scheduled -/
  covered : ∀ pIF ∈ s.gInterfaces, s.adds pIF = 0 →
    pIF ∈ s.ahead smTasklet ∨ s.netTask ≠ .loop ∨ s.registering ≠ .out

theorem Ok.init : Ok smTasklet (init : NetManager τ) where
  tasklets := TaskletState.Run.nil.ok
  nodup := List.nodup_nil
  past := by simp [NetManager.init]
  flags := by simp [NetManager.init]
  unused _ _ := rfl
  fifos _ := rfl
  hTxFifo _ h := absurd rfl h
  once _ := Nat.zero_le _
  done := by simp [NetManager.init]
  aheadSub := by
    simp [NetManager.init, ahead, TaskletState.init, TaskletState.waiting, TaskletState.handling]
  aheadNew := by
    simp [NetManager.init, ahead, TaskletState.init, TaskletState.waiting, TaskletState.handling]
  covered := by simp [NetManager.init]

/-- A new interface is ahead of a run of the tasklet that has not read the list. -/
theorem ahead_insert (smTasklet : τ) (s : NetManager τ) :
    s.insert.ahead smTasklet = s.insert.gInterfaces ∧
    s.ahead smTasklet = s.gInterfaces ∨ s.insert.ahead smTasklet = s.ahead smTasklet := by
  unfold ahead insert
  split_ifs
  · exact .inl ⟨rfl, rfl⟩
  · cases s.sm with
    | begin => exact .inl ⟨rfl, rfl⟩
    | «at» pos => exact .inr rfl
  · exact .inr rfl

theorem Ok.insert (h : Ok smTasklet s) : Ok smTasklet s.insert := by
  have hnew : s.nInterfaces ∉ s.gInterfaces := fun hmem => Nat.lt_irrefl _ (h.past _ hmem)
  refine ⟨h.tasklets, List.nodup_cons.mpr ⟨hnew, h.nodup⟩, ?_, ?_,
    fun pIF hle => h.unused pIF (Nat.le_of_succ_le hle),
    h.fifos, h.hTxFifo, h.once, h.done, ?_, ?_, fun _ _ _ => .inr (.inr Registering.noConfusion)⟩
  · rintro pIF hmem
    rcases List.mem_cons.mp hmem with rfl | hmem
    · exact Nat.lt_succ_self _
    · exact Nat.lt_succ_of_lt (h.past pIF hmem)
  · rintro pIF hmem
    change (Function.update s.smFlags s.nInterfaces ⟨true, false, false⟩ pIF).added = true ∧
      (Function.update s.smFlags s.nInterfaces ⟨true, false, false⟩ pIF).removed = false
    rcases List.mem_cons.mp hmem with rfl | hmem
    · rw [Function.update_self]
      exact ⟨rfl, rfl⟩
    · have hne : pIF ≠ s.nInterfaces := fun he => hnew (he ▸ hmem)
      rw [Function.update_of_ne hne]
      exact h.flags pIF hmem
  · rcases ahead_insert smTasklet s with ⟨hahead, -⟩ | hahead
    · rw [hahead]
    · rw [hahead]
      exact h.aheadSub.trans (List.suffix_cons _ _)
  · rcases ahead_insert smTasklet s with ⟨hahead, hall⟩ | hahead
    · rw [hahead]
      rintro pIF hmem
      rcases List.mem_cons.mp hmem with rfl | hmem
      · exact h.unused _ (Nat.le_refl _)
      · exact h.aheadNew pIF (hall ▸ hmem)
    · rw [hahead]
      exact h.aheadNew

/-- A run of the tasklet that is called for goes over the whole list, if the call is not lost. -/
theorem Ok.ahead_schedule (h : Ok smTasklet s) : (s.schedule smTasklet).ahead smTasklet =
    if s.tasklets.eState smTasklet = .idle then s.gInterfaces else s.ahead smTasklet := by
  obtain ⟨low, high, rest, ok⟩ := h.tasklets
  have hwait := ok.waiting_step (.highSchedule smTasklet) smTasklet
  have hgo : TaskletAction.highSchedule smTasklet ≠ .go := nofun
  have hhand := TaskletState.handling_step (s := s.tasklets) hgo smTasklet
  have hmoves : s.tasklets.moves (.highSchedule smTasklet) smTasklet =
      decide (s.tasklets.eState smTasklet = .idle) := by
    simp [TaskletState.moves, TaskletAction.schedules]
  rw [TaskletState.starts_of_ne_go hgo, hmoves, Bool.not_false, Bool.and_true] at hwait
  unfold NetManager.ahead NetManager.schedule
  simp only [hwait, hhand]
  by_cases hidle : s.tasklets.eState smTasklet = .idle
  · simp [hidle]
  · simp [hidle]

/-- A careful call that schedules the tasklet leaves no interface behind. -/
theorem Ok.schedule (h : Ok smTasklet s)
    (hc : if s.tasklets.eState smTasklet = .idle then ∀ pIF ∈ s.gInterfaces, s.adds pIF = 0
      else ∀ pIF ∈ s.gInterfaces, s.adds pIF = 0 → pIF ∈ s.ahead smTasklet) :
    Ok smTasklet (s.schedule smTasklet) ∧
      ∀ pIF ∈ s.gInterfaces, s.adds pIF = 0 → pIF ∈ (s.schedule smTasklet).ahead smTasklet := by
  obtain ⟨low, high, rest, ok⟩ := h.tasklets
  have hall : ∀ pIF ∈ s.gInterfaces, s.adds pIF = 0 →
      pIF ∈ (s.schedule smTasklet).ahead smTasklet := by
    rw [h.ahead_schedule]
    split_ifs at hc ⊢ with hidle
    · exact fun pIF hmem _ => hmem
    · exact hc
  refine ⟨⟨ok.step (.highSchedule smTasklet), h.nodup, h.past, h.flags, h.unused, h.fifos,
    h.hTxFifo, h.once, h.done, ?_, ?_, ?_⟩, hall⟩
  · rw [h.ahead_schedule]
    split_ifs
    · exact List.suffix_refl _
    · exact h.aheadSub
  · rw [h.ahead_schedule]
    split_ifs at hc ⊢
    · exact hc
    · exact h.aheadNew
  · exact fun pIF hmem hzero => .inl (hall pIF hmem hzero)

theorem Ok.register (h : Ok smTasklet s) (hc : Careful smTasklet s .registering) :
    Ok smTasklet (s.register smTasklet) := by
  unfold NetManager.register
  unfold Careful schedules at hc
  cases hreg : s.registering with
  | out => exact h
  | test =>
    refine { h with covered := fun pIF hmem hzero => ?_ }
    cases hdone : s.gDone with
    | true => exact .inr (.inr Registering.noConfusion)
    | false =>
      -- `net_task` has still to schedule the tasklet
      refine .inr (.inl fun hloop => ?_)
      rw [h.done (.inr hloop)] at hdone
      exact Bool.noConfusion hdone
  | schedule =>
    rw [hreg] at hc
    obtain ⟨hok, hall⟩ := h.schedule (hc.2 rfl)
    exact { hok with covered := fun pIF hmem hzero => .inl (hall pIF hmem hzero) }

theorem Ok.netTaskStart (h : Ok smTasklet s) (hc : Careful smTasklet s .netTask) :
    Ok smTasklet (s.netTaskStart smTasklet) := by
  unfold NetManager.netTaskStart
  unfold Careful schedules at hc
  cases htask : s.netTask with
  | wait =>
    exact { h with
      done := by simp
      covered := fun _ _ _ => .inr (.inl NetStart.noConfusion) }
  | done =>
    exact { h with
      done := fun _ => rfl
      covered := fun _ _ _ => .inr (.inl NetStart.noConfusion) }
  | schedule =>
    rw [htask] at hc
    obtain ⟨hok, hall⟩ := h.schedule (hc.2 rfl)
    exact { hok with
      done := fun _ => h.done (.inl htask)
      covered := fun pIF hmem hzero => .inl (hall pIF hmem hzero) }
  | loop => exact h

/-- A step of the tasklets that changes nothing here keeps the invariant. -/
theorem Ok.of_tasklets (h : Ok smTasklet s) (a : TaskletAction τ) {sm : SmLoop}
    (hahead : NetManager.ahead smTasklet { s with tasklets := s.tasklets.step a, sm := sm } =
      s.ahead smTasklet) :
    Ok smTasklet { s with tasklets := s.tasklets.step a, sm := sm } := by
  obtain ⟨low, high, rest, ok⟩ := h.tasklets
  refine ⟨ok.step a, h.nodup, h.past, h.flags, h.unused, h.fifos, h.hTxFifo, h.once, h.done, ?_, ?_,
    ?_⟩
  · rw [hahead]
    exact h.aheadSub
  · rw [hahead]
    exact h.aheadNew
  · rw [hahead]
    exact h.covered

/-- The tasklets go on, outside the handler of `sm_tasklet`. -/
theorem Ok.ahead_go (h : Ok smTasklet s) (hout : s.tasklets.handling smTasklet = false) :
    NetManager.ahead smTasklet { s with
      tasklets := s.tasklets.step .go
      sm := if s.tasklets.starts .go smTasklet then .begin else s.sm } = s.ahead smTasklet := by
  obtain ⟨low, high, rest, ok⟩ := h.tasklets
  have hwait := ok.waiting_step .go smTasklet
  have hmoves : s.tasklets.moves .go smTasklet = false := rfl
  rw [hmoves, Bool.or_false] at hwait
  unfold NetManager.ahead
  simp only [hwait, TaskletState.handling_go, hout]
  cases hstarts : s.tasklets.starts .go smTasklet with
  | true =>
    have hwaits := TaskletState.waiting_of_starts hstarts
    simp [hwaits]
  | false => simp

/-- The loop brings up the interface it is at. -/
theorem Ok.visit (h : Ok smTasklet s) {pIF : ℕ} {pos : List ℕ}
    (hhand : s.tasklets.handling smTasklet = true)
    (hsm : s.sm = .at (pIF :: pos)) {memory : Bool}
    (hfifo : (s.smFlags pIF).added = true → memory = true) :
    Ok smTasklet { s.visit pIF memory with sm := .at pos } := by
  obtain ⟨low, high, rest, ok⟩ := h.tasklets
  have hwait := ok.not_waiting_of_handling hhand
  have hbefore : s.ahead smTasklet = pIF :: pos := by simp [NetManager.ahead, hwait, hhand, hsm]
  have hsub := h.aheadSub
  have hnew := h.aheadNew
  rw [hbefore] at hsub hnew
  have hmem : pIF ∈ s.gInterfaces := hsub.subset List.mem_cons_self
  obtain ⟨hadded, hremoved⟩ := h.flags pIF hmem
  obtain rfl := hfifo hadded
  have hvisit : s.visit pIF true = s.add pIF true := by
    simp only [NetManager.visit, hadded, if_true]
    rw [if_neg]
    simp [NetManager.add, hremoved]
  have hzero := hnew pIF List.mem_cons_self
  have hapart : pIF ∉ pos := (List.nodup_cons.mp (h.nodup.sublist hsub.sublist)).1
  have hafter : NetManager.ahead smTasklet { s.add pIF true with sm := .at pos } = pos := by
    unfold NetManager.ahead NetManager.add
    simp [hwait, hhand]
  have hadds : ∀ q, (s.add pIF true).adds q = if q = pIF then 1 else s.adds q := by
    intro q
    change Function.update s.adds pIF (s.adds pIF + 1) q = _
    rw [Function.update_apply, hzero]
  rw [hvisit]
  refine ⟨⟨low, high, rest, ok⟩, h.nodup, h.past, fun q hq => ?_, fun q hq => ?_, fun q => ?_,
    fun q hq => ?_, fun q => ?_, h.done, ?_, ?_, ?_⟩
  · change (Function.update s.smFlags pIF { s.smFlags pIF with initialised := true } q).added =
      true ∧
      (Function.update s.smFlags pIF { s.smFlags pIF with initialised := true } q).removed = false
    rw [Function.update_apply]
    split_ifs
    · exact ⟨hadded, hremoved⟩
    · exact h.flags q hq
  · have hne : q ≠ pIF := fun he => Nat.lt_irrefl _ ((h.past pIF hmem).trans_le (he ▸ hq))
    exact (hadds q).trans (by rw [if_neg hne]; exact h.unused q hq)
  · change Function.update s.fifos pIF (s.fifos pIF + 1) q =
        Function.update s.adds pIF (s.adds pIF + 1) q
    rw [Function.update_apply, Function.update_apply, h.fifos, h.fifos]
  · change Function.update s.hTxFifo pIF true q = true
    rw [Function.update_apply]
    split_ifs with hne
    · rfl
    · exact h.hTxFifo q (by rwa [hadds, if_neg hne] at hq)
  · refine (hadds q).trans_le ?_
    split_ifs
    · exact Nat.le_refl _
    · exact h.once q
  · rw [hafter]
    exact (List.suffix_cons _ _).trans hsub
  · rw [hafter]
    intro q hq
    have hne : q ≠ pIF := fun he => hapart (he ▸ hq)
    refine (hadds q).trans ?_
    rw [if_neg hne]
    exact hnew q (List.mem_cons_of_mem _ hq)
  · rw [hafter]
    intro q hq hz
    have hz' := (hadds q).symm.trans hz
    split_ifs at hz' with hne
    rcases h.covered q hq hz' with hin | hrest
    · rw [hbefore] at hin
      exact .inl (List.mem_of_ne_of_mem hne hin)
    · exact .inr hrest

theorem Ok.netManagerSm (h : Ok smTasklet s) (hhand : s.tasklets.handling smTasklet = true)
    {memory : Bool} (hfifo : s.refuses smTasklet (.tasklet .go memory) = false) :
    Ok smTasklet (s.netManagerSm memory) := by
  obtain ⟨low, high, rest, ok⟩ := h.tasklets
  have hwait := ok.not_waiting_of_handling hhand
  unfold NetManager.netManagerSm
  cases hsm : s.sm with
  | begin =>
    have hahead : NetManager.ahead smTasklet { s with sm := .at s.gInterfaces } =
      s.ahead smTasklet := by
      simp [NetManager.ahead, hwait, hhand, hsm]
    refine { h with aheadSub := ?_, aheadNew := ?_, covered := ?_ }
    · rw [hahead]
      exact h.aheadSub
    · rw [hahead]
      exact h.aheadNew
    · rw [hahead]
      exact h.covered
  | «at» pos =>
    cases pos with
    | nil =>
      refine h.of_tasklets .go ?_
      have hstarts : s.tasklets.starts .go smTasklet = false := by
        cases hs : s.tasklets.starts .go smTasklet with
        | false => rfl
        | true => exact absurd (TaskletState.waiting_of_starts hs) (by simp [hwait])
      have hwait' := ok.waiting_step .go smTasklet
      unfold NetManager.ahead
      simp only [hwait', hwait, hhand, hsm, TaskletState.handling_go, hstarts]
      rfl
    | cons pIF pos =>
      refine h.visit hhand hsm fun hadded => ?_
      cases memory with
      | true => rfl
      | false => simp [refuses, hhand, hsm, hadded] at hfifo

theorem Ok.softirq (h : Ok smTasklet s) {memory : Bool}
    (hfifo : s.refuses smTasklet (.tasklet .go memory) = false) :
    Ok smTasklet (s.softirq smTasklet memory) := by
  unfold NetManager.softirq
  cases hhand : s.tasklets.handling smTasklet with
  | true => exact h.netManagerSm hhand hfifo
  | false => exact h.of_tasklets .go (h.ahead_go hhand)

/-- What others do to the tasklets -/
theorem Ok.others (h : Ok smTasklet s) {a : TaskletAction τ} (hgo : a ≠ .go)
    (hnot : a.schedules smTasklet = false) :
    Ok smTasklet { s with tasklets := s.tasklets.step a } := by
  obtain ⟨low, high, rest, ok⟩ := h.tasklets
  refine h.of_tasklets a ?_
  have hwait := ok.waiting_step a smTasklet
  have hmoves : s.tasklets.moves a smTasklet = false := by simp [TaskletState.moves, hnot]
  rw [hmoves, TaskletState.starts_of_ne_go hgo, Bool.not_false, Bool.and_true,
    Bool.or_false] at hwait
  unfold NetManager.ahead
  simp only [hwait, TaskletState.handling_step hgo]

theorem Ok.step (h : Ok smTasklet s) (a : NetManagerAction τ) (hc : Careful smTasklet s a) :
    Ok smTasklet (s.step smTasklet a) := by
  cases a with
  | register memory =>
    simp only [NetManager.step]
    split
    · split_ifs
      · exact h.insert
      · exact h
    · exact h
  | registering => exact h.register hc
  | netTask => exact h.netTaskStart hc
  | tasklet a memory =>
    cases a with
    | go => exact h.softirq hc.1
    | schedule t | highSchedule t | enter | enterHi =>
      simp only [NetManager.step]
      split_ifs with hsched
      · exact h
      · exact h.others nofun (Bool.eq_false_iff.mpr hsched)

theorem Run.ok (run : Run smTasklet (Careful smTasklet) s) : Ok smTasklet s := by
  induction run with
  | nil => exact Ok.init
  | cons _ hc ih => exact ih.step _ hc

/-- Nothing is ahead of a tasklet that is idle. -/
theorem Ok.ahead_of_idle (h : Ok smTasklet s) (hidle : s.tasklets.eState smTasklet = .idle) :
    s.ahead smTasklet = [] := by
  obtain ⟨low, high, rest, ok⟩ := h.tasklets
  have hhand : s.tasklets.handling smTasklet = false := by
    cases hh : s.tasklets.handling smTasklet with
    | false => rfl
    | true =>
      rw [(ok.running_of_handling hh).1] at hidle
      exact BtTaskletState.noConfusion hidle
  unfold NetManager.ahead
  simp [ok.not_waiting_of_idle hidle, hhand]

end NetManager

open NetManager

/-- **When each interface is brought up once.** Interfaces are registered before and after the stack
is initialised, and the tasklet runs whenever it likes. If every call that schedules the tasklet
finds it idle and no interface up yet, or not idle and each interface that is not up still ahead of
it, and there is memory for each FIFO, then no interface is ever brought up twice, and when nothing
is pending each registered interface has been: its FIFO was created once, and it was passed to
`netifapi_netif_add` once. -/
theorem netif_brought_up_once {τ : Type} [DecidableEq τ] {smTasklet : τ} {s : NetManager τ}
    (run : Run smTasklet (Careful smTasklet) s) :
    (∀ pIF, s.fifos pIF ≤ 1 ∧ s.adds pIF ≤ 1) ∧
    (Settled smTasklet s → ∀ pIF ∈ s.gInterfaces, s.fifos pIF = 1 ∧ s.adds pIF = 1 ∧
      s.hTxFifo pIF = true) := by
  have h := run.ok
  refine ⟨fun pIF => ⟨(h.fifos pIF).trans_le (h.once pIF), h.once pIF⟩, fun hset pIF hmem => ?_⟩
  have hup : s.adds pIF ≠ 0 := by
    intro hzero
    rcases h.covered pIF hmem hzero with hahead | hstart | hreg
    · rw [h.ahead_of_idle hset.idle] at hahead
      exact List.not_mem_nil hahead
    · exact hstart hset.started
    · exact hreg hset.registered
  have hone : s.adds pIF = 1 := Nat.le_antisymm (h.once pIF) (Nat.one_le_iff_ne_zero.mpr hup)
  exact ⟨(h.fifos pIF).trans hone, hone, h.hTxFifo pIF hup⟩

namespace NetManager

variable {τ : Type} [DecidableEq τ] (smTasklet : τ) (ok : NetManager τ → NetManagerAction τ → Prop)

/-- Some steps one after the other -/
def steps (s : NetManager τ) (as : List (NetManagerAction τ)) : NetManager τ :=
  as.foldl (step smTasklet) s

/-- Each of the steps satisfies `ok`. -/
def Each : NetManager τ → List (NetManagerAction τ) → Prop
  | _, [] => True
  | s, a :: as => ok s a ∧ Each (s.step smTasklet a) as

instance decEach [∀ s a, Decidable (ok s a)] : ∀ s as, Decidable (Each smTasklet ok s as)
  | _, [] => inferInstanceAs (Decidable True)
  | s, a :: as => @instDecidableAnd _ _ inferInstance (decEach (s.step smTasklet a) as)

variable {smTasklet ok} in
/-- A list of steps that are each allowed is a run. -/
theorem Run.steps {s : NetManager τ} (run : Run smTasklet ok s) :
    ∀ as : List (NetManagerAction τ), Each smTasklet ok s as →
      Run smTasklet ok (s.steps smTasklet as)
  | [], _ => run
  | _ :: as, h => (run.cons h.1).steps as h.2

end NetManager

/-- One interface is registered, the stack is initialised, and the tasklet runs. -/
def bringUp : List (NetManagerAction Unit) :=
  [.register true, .registering, .netTask, .netTask, .netTask, .tasklet .enterHi true] ++
    List.replicate 10 (.tasklet .go true)

theorem netif_brought_up_once_one : ∃ s : NetManager Unit, Run () (Careful ()) s ∧ Settled () s ∧
    s.gInterfaces = [0] ∧ s.adds 0 = 1 := by
  have run : Run () (Careful ()) (NetManager.steps () .init bringUp) := Run.nil.steps _ (by decide)
  have hset : Settled () (NetManager.steps () .init bringUp) := ⟨by decide, by decide, by decide⟩
  exact ⟨_, run, hset, by decide, ((netif_brought_up_once run).2 hset 0 (by decide)).2.1⟩

/-- A second interface is registered when the first is up: the tasklet runs again and adds the first
a second time. -/
theorem netif_added_twice :
    let s := NetManager.steps () .init (bringUp ++
      [.register true, .registering, .registering, .tasklet .enterHi true] ++
        List.replicate 11 (.tasklet .go true))
    Run () (fun _ _ => True) s ∧ Settled () s ∧ 0 ∈ s.gInterfaces ∧ s.adds 0 ≠ 1 :=
  ⟨Run.nil.steps _ (by decide), ⟨by decide, by decide, by decide⟩, by decide, by decide⟩

end BitThunder
