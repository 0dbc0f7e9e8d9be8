import BitThunder.Dev.BlockSpec

/-!
# Requests are delivered once

For any clients and any order of steps, a request is executed once and with its own data, the
scheduler has let go of it before its client can return, and the client returns the result of
that execution.

* `Recorded`: what has been executed; `Recorded.step`;
* `Shape.untouched`: a frame that is done, or not in use, is left alone by the others;
* `Shape.not_stuck`, `Shape.at_rest`: no request is left behind;
* `requests_delivered`: the guarantees, in every reachable state.

The record of executions is a ghost: no thread reads it. `Executed` says of a ticket whether its
execution has to be in the record, by looking only at where client and scheduler are, and `Recorded`
says that it is there exactly once if so, and not at all otherwise. Only one step of the scheduler
adds to the record, and it is the step after which `Executed` is true of the request.

That no frame is touched when it is done or not in use follows from the shape of the list: the
scheduler may only store to cells in the list and to the one that it has just taken out, and none of
these is done. The other clients store to the head and to the first cell.

No request is left behind: if no thread can go on, then nobody has the mutex, every client is
outside or waits, and the scheduler waits for a notification; as many notifications as requests are
on their way, so that there are no requests.
-/

namespace BitThunder

namespace BlockState

variable {ι : Type} {s s' s₀ : BlockState ι} {a : BlockAction ι} {c d p : ι} {xs fl : List ι}

/-! ## What has been executed

Whether a request has been executed can be told from where its client and the scheduler are, and the
record is compared with that. -/

/-- The request of the client that is under way has been executed. -/
def Served (s : BlockState ι) (c : ι) : Prop :=
  (s.client c).phase.Posted = true ∧ ((s.client c).bDone = true ∨ s.sched.executed = some c)

/-- The request of the client with this ticket has been executed, as far as one can see from
where client and scheduler are. -/
def Executed (s : BlockState ι) (c : ι) (t : ℕ) : Prop :=
  0 < t ∧ (t < (s.client c).ticket ∨ t = (s.client c).ticket ∧
  ((s.client c).phase = .idle ∨ s.Served c))

variable [DecidableEq ι]

/-- How often the request has been executed. -/
def runs (s : BlockState ι) (c : ι) (t : ℕ) : ℕ :=
  s.log.countP fun e => decide (e.client = c ∧ e.ticket = t)

/-- The record of the executions is what the state of the threads says. -/
structure Recorded (s : BlockState ι) : Prop where
  /-- a request that was executed was so once -/
  once : ∀ c t, s.Executed c t → s.runs c t = 1
  /-- and the others not at all -/
  never : ∀ c t, ¬ s.Executed c t → s.runs c t = 0
  /-- what was executed is what its client asked for, with the device of the request -/
  data : ∀ e ∈ s.log, e.req = s.issued e.client e.ticket ∧ e.device = e.req.hBlock
  /-- a client in a call has the request of that call -/
  request : ∀ c, (s.client c).phase ≠ .idle →
    0 < (s.client c).ticket ∧ (s.client c).req = s.issued c (s.client c).ticket
  /-- the device the scheduler has looked up is that of the request in hand -/
  device : ∀ p next blkdev, s.sched = .exec p next blkdev → blkdev = (s.client p).req.hBlock
  /-- a client that has been served has the result of its own execution -/
  result : ∀ c, s.Served c →
    ∃ e ∈ s.log, e.client = c ∧ e.ticket = (s.client c).ticket ∧ e.retval = (s.client c).retval
  /-- what a call has returned is the result of one, too -/
  returned : ∀ c t v, (c, t, v) ∈ s.returned →
    s.Executed c t ∧ ∃ e ∈ s.log, e.client = c ∧ e.ticket = t ∧ e.retval = v

omit [DecidableEq ι] in
/-- A request that the scheduler has executed and not marked is not done. -/
theorem Shape.unserved_of_executed (h : Shape s xs fl) (hc : s.sched.executed = some c) :
    s.Unserved c := by
  have hwalk := h.walk
  cases hp : s.sched with
  | repend p next =>
    rw [hp] at hc hwalk
    obtain rfl : p = c := Option.some.inj hc
    obtain ⟨as, bs, rfl, -⟩ := hwalk
    exact ((h.queued p).mp (by simp)).1
  | del p next =>
    rw [hp] at hc hwalk
    obtain rfl : p = c := Option.some.inj hc
    obtain ⟨as, bs, rfl, -⟩ := hwalk
    exact ((h.queued p).mp (by simp)).1
  | done p next =>
    rw [hp] at hc
    refine h.removed c ?_
    rw [hp]
    exact hc
  | take => simp [hp, SchedulerPhase.executed] at hc
  | pend => simp [hp, SchedulerPhase.executed] at hc
  | loop pos next => simp [hp, SchedulerPhase.executed] at hc
  | exec p next blkdev => simp [hp, SchedulerPhase.executed] at hc
  | setBits next => simp [hp, SchedulerPhase.executed] at hc
  | release => simp [hp, SchedulerPhase.executed] at hc

omit [DecidableEq ι] in
/-- The request that is being executed is in the list. -/
theorem Shape.unserved_of_exec {next : Option ι} {blkdev : ℕ} (h : Shape s xs fl)
    (hp : s.sched = .exec p next blkdev) : s.Unserved p := by
  have hwalk := h.walk
  rw [hp] at hwalk
  obtain ⟨as, bs, rfl, -⟩ := hwalk
  exact ((h.queued p).mp (by simp)).1

omit [DecidableEq ι] in
/-- A client with an unserved request has not gone back to its caller. -/
theorem Unserved.phase_ne_idle (h : s.Unserved c) : (s.client c).phase ≠ .idle := by
  intro hp
  have := h.1
  rw [hp] at this
  simp [ClientPhase.Posted] at this

namespace Recorded

/-- What is in the record has been executed. -/
theorem executed_of_mem (h : Recorded s) {e : Execution ι} (he : e ∈ s.log) :
    s.Executed e.client e.ticket := by
  by_contra hn
  have hzero := h.never _ _ hn
  unfold runs at hzero
  rw [List.countP_eq_zero] at hzero
  exact hzero e he (by simp)

/-- A step after which as much has been executed as before. -/
theorem of_log (h : Recorded s) (hlog : s'.log = s.log)
    (hexecuted : ∀ c t, s'.Executed c t ↔ s.Executed c t)
    (hissued : ∀ e ∈ s.log, s'.issued e.client e.ticket = s.issued e.client e.ticket)
    (hrequest : ∀ c, (s'.client c).phase ≠ .idle →
      0 < (s'.client c).ticket ∧ (s'.client c).req = s'.issued c (s'.client c).ticket)
    (hdevice : ∀ p next blkdev, s'.sched = .exec p next blkdev → blkdev = (s'.client p).req.hBlock)
    (hserved : ∀ c, s'.Served c → s.Served c ∧ (s'.client c).ticket = (s.client c).ticket ∧
      (s'.client c).retval = (s.client c).retval)
    (hreturned : ∀ c t v, (c, t, v) ∈ s'.returned → (c, t, v) ∈ s.returned ∨
      s.Served c ∧ t = (s.client c).ticket ∧ v = (s.client c).retval) : Recorded s' := by
  have hruns : ∀ c t, s'.runs c t = s.runs c t := by
    intro c t
    unfold runs
    rw [hlog]
  refine ⟨fun c t hc => ?_, fun c t hc => ?_, fun e he => ?_, hrequest, hdevice, fun c hc => ?_,
    fun c t v hc => ?_⟩
  · rw [hruns]
    exact h.once c t ((hexecuted c t).mp hc)
  · rw [hruns]
    exact h.never c t fun he => hc ((hexecuted c t).mpr he)
  · rw [hlog] at he
    rw [hissued e he]
    exact h.data e he
  · obtain ⟨hs, hticket, hretval⟩ := hserved c hc
    rw [hlog, hticket, hretval]
    exact h.result c hs
  · rw [hexecuted, hlog]
    obtain hc | ⟨hs, rfl, rfl⟩ := hreturned c t v hc
    · exact h.returned c t v hc
    · obtain ⟨e, he, hclient, hticket, hretval⟩ := h.result c hs
      have hexec := h.executed_of_mem he
      rw [hclient, hticket] at hexec
      exact ⟨hexec, e, he, hclient, hticket, hretval⟩

/-- A step that adds nothing to the record. -/
theorem frame (h : Recorded s) (hlog : s'.log = s.log) (hissued : s'.issued = s.issued)
    (hreturned : s'.returned = s.returned) (hticket : ∀ c,
    (s'.client c).ticket = (s.client c).ticket)
    (hidle : ∀ c, (s'.client c).phase = .idle ↔ (s.client c).phase = .idle)
    (hframe : ∀ c, (s.client c).phase ≠ .idle →
      (s'.client c).req = (s.client c).req ∧ (s'.client c).retval = (s.client c).retval)
    (hserved : ∀ c, s'.Served c ↔ s.Served c)
    (hdevice : ∀ p next blkdev, s'.sched = .exec p next blkdev →
      blkdev = (s'.client p).req.hBlock) :
    Recorded s' := by
  refine h.of_log hlog (fun c t => ?_)
    (fun e _ => by rw [hissued]) (fun c hc => ?_) hdevice (fun c hc => ?_)
    fun c t v hc => .inl (hreturned ▸ hc)
  · unfold Executed
    rw [hticket, hidle, hserved]
  · have hne : (s.client c).phase ≠ .idle := fun he => hc ((hidle c).mpr he)
    rw [hticket, hissued, (hframe c hne).1]
    exact h.request c hne
  · have hs := (hserved c).mp hc
    have hne : (s.client c).phase ≠ .idle := fun he => by
      simp [Served, he, ClientPhase.Posted] at hs
    exact ⟨hs, hticket c, (hframe c hne).2⟩

/-! ### The clients

No client executes anything. What changes with its steps is which request it is at, and whether it
is under way. -/

/-- A client goes on within its call. -/
theorem goto {t : BlockState ι} {phase : ClientPhase} (h : Recorded s)
    (hclient : t.client = s.client) (hsched : t.sched = s.sched) (hlog : t.log = s.log)
    (hissued : t.issued = s.issued)
    (hreturned : t.returned = s.returned) (hphase : phase ≠ .idle)
    (hne : (s.client c).phase ≠ .idle)
    (hserved : (t.goto c phase).Served c ↔ s.Served c) : Recorded (t.goto c phase) := by
  have hother : ∀ d, d ≠ c → (t.goto c phase).client d = s.client d :=
    fun d hd => (goto_of_ne t c phase hd).trans (congrFun hclient d)
  have hself : (t.goto c phase).client c = { s.client c with phase := phase } := by
    rw [goto_self, hclient]
  refine h.frame hlog hissued hreturned (fun d => ?_) (fun d => ?_) (fun d _ => ?_) (fun d => ?_)
    fun p next blkdev hp => ?_
  · by_cases hd : d = c
    · rw [hd, hself]
    · rw [hother d hd]
  · by_cases hd : d = c
    · rw [hd, hself]
      exact iff_of_false hphase hne
    · rw [hother d hd]
  · by_cases hd : d = c
    · rw [hd, hself]
      exact ⟨rfl, rfl⟩
    · rw [hother d hd]
      exact ⟨rfl, rfl⟩
  · by_cases hd : d = c
    · exact hd ▸ hserved
    · have hs : (t.goto c phase).sched = s.sched := hsched
      unfold Served
      rw [hother d hd, hs]
  · have hs : s.sched = .exec p next blkdev := hsched.symm.trans hp
    rw [h.device p next blkdev hs]
    by_cases hd : p = c
    · rw [hd, hself]
    · rw [hother p hd]

/-- Where the client is in its call does not matter, once its request is in the list. -/
theorem goto_posted {t : BlockState ι} {phase : ClientPhase} (h : Recorded s)
    (hclient : t.client = s.client) (hsched : t.sched = s.sched) (hlog : t.log = s.log)
    (hissued : t.issued = s.issued)
    (hreturned : t.returned = s.returned) (hphase : phase ≠ .idle)
    (hne : (s.client c).phase ≠ .idle)
    (hposted : phase.Posted = (s.client c).phase.Posted) : Recorded (t.goto c phase) := by
  refine h.goto hclient hsched hlog hissued hreturned hphase hne ?_
  have hs : (t.goto c phase).sched = s.sched := hsched
  unfold Served
  rw [goto_self, hclient, hs]
  simp only [hposted]

/-- The request is recorded as it is linked in. -/
theorem insert (h : Recorded s) (hshape : Shape s xs fl) (hp : (s.client c).phase = .insert) :
    Recorded ({ s with links := s.links.insertAfter (some c) none }.goto c .release) := by
  refine h.goto rfl rfl rfl rfl rfl (by simp) (by simp [hp]) (iff_of_false ?_ ?_)
  · rintro ⟨-, hdone | hexec⟩
    · rw [goto_self] at hdone
      have hfresh := hshape.fresh c (.inr hp)
      rw [show (s.client c).bDone = true from hdone] at hfresh
      simp at hfresh
    · have hu := (hshape.unserved_of_executed (c := c) hexec).1
      rw [hp] at hu
      simp [ClientPhase.Posted] at hu
  · rintro ⟨hposted, -⟩
    rw [hp] at hposted
    simp [ClientPhase.Posted] at hposted

/-- The call returns: what has been executed for it stands in the record. -/
theorem finish (h : Recorded s) (hp : (s.client c).phase = .test) (hd : (s.client c).bDone = true) :
    Recorded
      ({ s with returned := (c, (s.client c).ticket, (s.client c).retval) :: s.returned }.goto c
        .idle) := by
  have hserved : s.Served c := ⟨by rw [hp]; rfl, .inl hd⟩
  generalize ht : ({ s with returned := (c, (s.client c).ticket, (s.client c).retval) ::
    s.returned } : BlockState ι) = t
  have hclient : t.client = s.client := by rw [← ht]
  have hsched : (t.goto c .idle).sched = s.sched := by
    rw [← ht]
    rfl
  have hissued : (t.goto c .idle).issued = s.issued := by
    rw [← ht]
    rfl
  have hother : ∀ d, d ≠ c → (t.goto c .idle).client d = s.client d :=
    fun d hd => (goto_of_ne t c .idle hd).trans (congrFun hclient d)
  have hself : (t.goto c .idle).client c = { s.client c with phase := .idle } := by
    rw [goto_self, hclient]
  have hothers : ∀ d, d ≠ c → ((t.goto c .idle).Served d ↔ s.Served d) := by
    intro d hdc
    unfold Served
    rw [hother d hdc, hsched]
  refine h.of_log (by rw [← ht]; rfl) (fun d n => ?_) (fun e _ => by rw [hissued]) (fun d hne => ?_)
    (fun p next blkdev hpp => ?_) (fun d hs => ?_) fun d n v hm => ?_
  · unfold Executed
    by_cases hdc : d = c
    · rw [hdc, hself]
      simp [hserved]
    · rw [hother d hdc, hothers d hdc]
  · by_cases hdc : d = c
    · rw [hdc, hself] at hne
      simp at hne
    · rw [hother d hdc] at hne ⊢
      rw [hissued]
      exact h.request d hne
  · rw [h.device p next blkdev (hsched.symm.trans hpp)]
    by_cases hdc : p = c
    · rw [hdc, hself]
    · rw [hother p hdc]
  · by_cases hdc : d = c
    · have := hs.1
      rw [hdc, hself] at this
      simp [ClientPhase.Posted] at this
    · rw [hother d hdc]
      exact ⟨(hothers d hdc).mp hs, rfl, rfl⟩
  · have hm' : (d, n, v) ∈ (c, (s.client c).ticket, (s.client c).retval) :: s.returned := by
      rw [← ht] at hm
      exact hm
    rcases List.mem_cons.mp hm' with he | hm'
    · obtain ⟨rfl, rfl, rfl⟩ : d = c ∧ n = (s.client c).ticket ∧ v = (s.client c).retval := by
        simpa using he
      exact .inr ⟨hserved, rfl, rfl⟩
    · exact .inl hm'

/-- No step of a client disturbs the record of the others. -/
theorem client (h : Recorded s) (hshape : Shape s xs fl) (hs : ClientMove s c s') :
    Recorded s' := by
  cases hs with
  | pend hp hm => exact h.goto_posted rfl rfl rfl rfl rfl (by simp) (by simp [hp]) (by rw [hp]; rfl)
  | insert hp => exact h.insert hshape hp
  | release hp => exact h.goto_posted rfl rfl rfl rfl rfl (by simp) (by simp [hp]) (by rw [hp]; rfl)
  | notify hp => exact h.goto_posted rfl rfl rfl rfl rfl (by simp) (by simp [hp]) (by rw [hp]; rfl)
  | finish hp hd => exact h.finish hp hd
  | again hp hd =>
    exact h.goto_posted rfl rfl rfl rfl rfl (by simp) (by simp [hp]) (by rw [hp]; rfl)
  | consume hp hb =>
    exact h.goto_posted rfl rfl rfl rfl rfl (by simp) (by simp [hp]) (by rw [hp]; rfl)
  | block hp hb =>
    exact h.goto_posted rfl rfl rfl rfl rfl (by simp) (by simp [hp]) (by rw [hp]; rfl)

/-- A new request gets a ticket that has not been used. -/
theorem start (h : Recorded s) (hshape : Shape s xs fl) (hp : (s.client c).phase = .idle)
    (req : BlockRequest) :
    Recorded ({ s with
      issued := Function.update s.issued c
        (Function.update (s.issued c) ((s.client c).ticket + 1) req) }.setClient c
        ⟨.pend, req, false, (s.client c).retval, (s.client c).ticket + 1⟩) := by
  generalize ht : ({ s with
    issued :=
      Function.update s.issued c (Function.update (s.issued c) ((s.client c).ticket + 1) req) } :
      BlockState ι) = t
  generalize hx : (⟨.pend, req, false, (s.client c).retval, (s.client c).ticket + 1⟩ : BlockClient)
    = x
  obtain ⟨hphase, hreq, hticket⟩ : x.phase = .pend ∧ x.req = req ∧
      x.ticket = (s.client c).ticket + 1 := by
    rw [← hx]
    exact ⟨rfl, rfl, rfl⟩
  have hclient : t.client = s.client := by rw [← ht]
  have hsched : (t.setClient c x).sched = s.sched := by
    rw [← ht]
    rfl
  have hissued : ∀ d n, (d = c → n ≠ (s.client c).ticket + 1) →
      (t.setClient c x).issued d n = s.issued d n := by
    intro d n hn
    have hi : (t.setClient c x).issued =
        Function.update s.issued c (Function.update (s.issued c)
        ((s.client c).ticket + 1) req) := by
      rw [← ht]
      rfl
    rw [hi]
    by_cases hdc : d = c
    · rw [hdc, Function.update_self, Function.update_of_ne (hn hdc)]
    · rw [Function.update_of_ne hdc]
  have hnew : (t.setClient c x).issued c ((s.client c).ticket + 1) = req := by
    rw [← ht]
    change Function.update s.issued c _ c _ = req
    rw [Function.update_self, Function.update_self]
  have hother : ∀ d, d ≠ c → (t.setClient c x).client d = s.client d :=
    fun d hd => (setClient_of_ne t c x hd).trans (congrFun hclient d)
  have hself := setClient_self t c x
  have hothers : ∀ d, d ≠ c → ((t.setClient c x).Served d ↔ s.Served d) := by
    intro d hdc
    unfold Served
    rw [hother d hdc, hsched]
  have hserved : ¬ (t.setClient c x).Served c := by
    rintro ⟨hposted, -⟩
    rw [hself, hphase] at hposted
    simp [ClientPhase.Posted] at hposted
  refine h.of_log
    (by rw [← ht]; rfl) (fun d n => ?_) (fun e he => ?_) (fun d hne => ?_)
    (fun p next blkdev hpp => ?_)
    (fun d hs => ?_) fun d n v hm => .inl ?_
  · by_cases hdc : d = c
    · unfold Executed
      rw [hdc, hself, hticket, hphase, hp]
      simp only [hserved, or_false, reduceCtorEq, and_false, true_or, and_true]
      omega
    · unfold Executed
      rw [hother d hdc, hothers d hdc]
  · refine hissued _ _ fun hec hticket => ?_
    obtain ⟨-, hlt | ⟨hle, -⟩⟩ := h.executed_of_mem he
    · rw [hec, hticket] at hlt
      omega
    · rw [hec, hticket] at hle
      omega
  · by_cases hdc : d = c
    · rw [hdc, hself, hticket, hreq]
      exact ⟨Nat.succ_pos _, hnew.symm⟩
    · rw [hother d hdc] at hne ⊢
      rw [hissued d _ fun hd => absurd hd hdc]
      exact h.request d hne
  · have hexec := hsched.symm.trans hpp
    have hne : p ≠ c := by
      rintro rfl
      exact (hshape.unserved_of_exec hexec).phase_ne_idle hp
    rw [h.device p next blkdev hexec, hother p hne]
  · by_cases hdc : d = c
    · exact absurd (hdc ▸ hs) hserved
    · rw [hother d hdc]
      exact ⟨(hothers d hdc).mp hs, rfl, rfl⟩
  · rw [← ht] at hm
    exact hm

/-- A client that is free may build its next request in the same frame. -/
theorem reuse (h : Recorded s) (hshape : Shape s xs fl) (hp : (s.client c).phase = .idle)
    (links : Links (Option ι)) (frame : BlockClient) :
    Recorded ({ s with links := links }.setClient c
    { frame with phase := .idle, ticket := (s.client c).ticket }) := by
  generalize ht : ({ s with links := links } : BlockState ι) = t
  have hclient : t.client = s.client := by rw [← ht]
  have hsched : (t.setClient c { frame with phase := .idle, ticket := (s.client c).ticket }).sched =
    s.sched := by
    rw [← ht]
    rfl
  have hother : ∀ d, d ≠ c →
      (t.setClient c { frame with phase := .idle, ticket := (s.client c).ticket }).client d =
      s.client d :=
    fun d hd => (setClient_of_ne t c _ hd).trans (congrFun hclient d)
  have hself := setClient_self t c { frame with phase := .idle, ticket := (s.client c).ticket }
  refine h.frame
    (by rw [← ht]; rfl) (by rw [← ht]; rfl) (by rw [← ht]; rfl) (fun d => ?_) (fun d => ?_)
    (fun d hd => ?_) (fun d => ?_) fun p next blkdev hpp => ?_
  · by_cases hdc : d = c
    · rw [hdc, hself]
    · rw [hother d hdc]
  · by_cases hdc : d = c
    · rw [hdc, hself]
      exact iff_of_true rfl hp
    · rw [hother d hdc]
  · rw [hother d fun hdc => hd (hdc ▸ hp)]
    exact ⟨rfl, rfl⟩
  · unfold Served
    by_cases hdc : d = c
    · rw [hdc, hself, hp]
      simp [ClientPhase.Posted]
    · rw [hother d hdc, hsched]
  · have hexec := hsched.symm.trans hpp
    have hne : p ≠ c := by
      rintro rfl
      exact (hshape.unserved_of_exec hexec).phase_ne_idle hp
    rw [h.device p next blkdev hexec, hother p hne]

/-! ### The scheduler

One step of the scheduler executes a request and one marks it as done; the others leave the record
and what it has to be as they are. -/

/-- A step of the scheduler that executes nothing and marks nothing. -/
theorem of_sched (h : Recorded s) (hclient : s'.client = s.client) (hlog : s'.log = s.log)
    (hissued : s'.issued = s.issued) (hreturned : s'.returned = s.returned)
    (hexecuted : s'.sched.executed = s.sched.executed)
    (hdevice : ∀ p next blkdev, s'.sched = .exec p next blkdev →
      blkdev = (s'.client p).req.hBlock) :
    Recorded s' := by
  refine h.frame hlog hissued hreturned (fun c => by rw [hclient]) (fun c => by rw [hclient])
    (fun c _ => by rw [hclient]; exact ⟨rfl, rfl⟩) (fun c => ?_) hdevice
  unfold Served
  rw [hclient, hexecuted]

/-- The one step that executes a request. -/
theorem exec {next : Option ι} {blkdev : ℕ} (retval : ℕ) (h : Recorded s) (hshape : Shape s xs fl)
    (hp : s.sched = .exec p next blkdev) :
    Recorded ({ s with
      sched := .repend p next
      log := ⟨p, (s.client p).ticket, blkdev, (s.client p).req, retval⟩ :: s.log }.setClient p
        { s.client p with retval := retval }) := by
  have hu := hshape.unserved_of_exec hp
  have hne := hu.phase_ne_idle
  obtain ⟨hpos, hreq⟩ := h.request p hne
  have hdev := h.device p next blkdev hp
  have hnot : ¬ s.Executed p (s.client p).ticket := by
    rintro ⟨-, hlt | ⟨-, hidle | ⟨-, hdone | hexec⟩⟩⟩
    · exact absurd hlt (lt_irrefl _)
    · exact hne hidle
    · rw [hu.2] at hdone
      simp at hdone
    · rw [hp] at hexec
      simp [SchedulerPhase.executed] at hexec
  generalize ht : ({ s with
    sched := .repend p next
    log := ⟨p, (s.client p).ticket, blkdev, (s.client p).req, retval⟩ :: s.log } : BlockState ι) = t
  generalize hx : ({ s.client p with retval := retval } : BlockClient) = x
  have hclient : t.client = s.client := by rw [← ht]
  have hsched : (t.setClient p x).sched = .repend p next := by
    rw [← ht]
    rfl
  have hlog : (t.setClient p x).log = ⟨p, (s.client p).ticket, blkdev, (s.client p).req, retval⟩ ::
      s.log := by
    rw [← ht]
    rfl
  have hissued : (t.setClient p x).issued = s.issued := by
    rw [← ht]
    rfl
  have hreturned : (t.setClient p x).returned = s.returned := by
    rw [← ht]
    rfl
  have hother : ∀ d, d ≠ p → (t.setClient p x).client d = s.client d :=
    fun d hd => (setClient_of_ne t p x hd).trans (congrFun hclient d)
  have hself : (t.setClient p x).client p = { s.client p with retval := retval } := by
    rw [setClient_self, hx]
  have hserved : (t.setClient p x).Served p := by
    refine ⟨?_, .inr ?_⟩
    · rw [hself]
      exact hu.1
    · rw [hsched]
      rfl
  have hothers : ∀ d, d ≠ p → ((t.setClient p x).Served d ↔ s.Served d) := by
    intro d hd
    unfold Served
    rw [hother d hd, hsched, hp]
    simp [SchedulerPhase.executed, Ne.symm hd]
  -- only the request at the loop has been executed since
  have hexecuted : ∀ d n, (t.setClient p x).Executed d n ↔
      s.Executed d n ∨ d = p ∧ n = (s.client p).ticket := by
    intro d n
    unfold Executed
    by_cases hd : d = p
    · subst hd
      have hsd : ¬ s.Served d := fun hs => hnot ⟨hpos, .inr ⟨rfl, .inr hs⟩⟩
      rw [hself]
      simp only [hserved, hsd, hne, or_true, and_true, or_false, and_false, true_and]
      constructor
      · rintro ⟨hn, hlt | heq⟩
        · exact .inl ⟨hn, hlt⟩
        · exact .inr heq
      · rintro (⟨hn, hlt⟩ | rfl)
        · exact ⟨hn, .inl hlt⟩
        · exact ⟨hpos, .inr rfl⟩
    · rw [hother d hd, hothers d hd]
      simp [hd]
  have hruns : ∀ d n, (t.setClient p x).runs d n =
      s.runs d n + if p = d ∧ (s.client p).ticket = n then 1 else 0 := by
    intro d n
    unfold runs
    rw [hlog, List.countP_cons]
    simp
  refine ⟨fun d n hn => ?_, fun d n hn => ?_, fun e he => ?_, fun d hd => ?_,
    fun q next' blkdev' hq => ?_, fun d hd => ?_, fun d n v hm => ?_⟩
  · rw [hruns]
    by_cases hd : p = d ∧ (s.client p).ticket = n
    · obtain ⟨rfl, rfl⟩ := hd
      rw [h.never _ _ hnot]
      simp
    · rw [if_neg hd, Nat.add_zero]
      obtain he | ⟨rfl, rfl⟩ := (hexecuted d n).mp hn
      · exact h.once d n he
      · exact absurd ⟨rfl, rfl⟩ hd
  · rw [hruns, if_neg fun hd => hn ((hexecuted d n).mpr (.inr ⟨hd.1.symm, hd.2.symm⟩)),
      Nat.add_zero]
    exact h.never d n fun he => hn ((hexecuted d n).mpr (.inl he))
  · rw [hlog] at he
    rw [hissued]
    rcases List.mem_cons.mp he with rfl | he
    · exact ⟨hreq, hdev⟩
    · exact h.data e he
  · rw [hissued]
    by_cases hdp : d = p
    · rw [hdp, hself]
      exact ⟨hpos, hreq⟩
    · rw [hother d hdp] at hd ⊢
      exact h.request d hd
  · rw [hsched] at hq
    simp at hq
  · rw [hlog]
    by_cases hdp : d = p
    · rw [hdp, hself]
      exact ⟨_, List.mem_cons_self .., rfl, rfl, rfl⟩
    · rw [hother d hdp]
      obtain ⟨e, he, hrest⟩ := h.result d ((hothers d hdp).mp hd)
      exact ⟨e, List.mem_cons_of_mem _ he, hrest⟩
  · rw [hreturned] at hm
    obtain ⟨he, e, hmem, hrest⟩ := h.returned d n v hm
    rw [hlog]
    exact ⟨(hexecuted d n).mpr (.inl he), e, List.mem_cons_of_mem _ hmem, hrest⟩

/-- To mark a request complete adds its one execution to the record. -/
theorem done {next : Option ι} (h : Recorded s) (hshape : Shape s xs fl)
    (hp : s.sched = .done p next) :
    Recorded ({ s with sched := .setBits next }.setClient p { s.client p with bDone := true }) := by
  have hu : s.Unserved p := hshape.removed p (by rw [hp]; rfl)
  have hother : ∀ d, d ≠ p →
      ({ s with sched := .setBits next }.setClient p { s.client p with bDone := true }).client d =
      s.client d :=
    fun d hd => setClient_of_ne _ p _ hd
  have hself := setClient_self { s with sched := .setBits next } p { s.client p with bDone := true }
  refine h.frame rfl rfl rfl (fun d => ?_) (fun d => ?_) (fun d _ => ?_)
    (fun d => ?_) fun q next' blkdev hq => ?_
  · by_cases hd : d = p
    · rw [hd, hself]
    · rw [hother d hd]
  · by_cases hd : d = p
    · rw [hd, hself]
    · rw [hother d hd]
  · by_cases hd : d = p
    · rw [hd, hself]
      exact ⟨rfl, rfl⟩
    · rw [hother d hd]
      exact ⟨rfl, rfl⟩
  · by_cases hd : d = p
    · rw [hd]
      refine iff_of_true ⟨?_, .inl ?_⟩ ⟨hu.1, .inr ?_⟩
      · rw [hself]
        exact hu.1
      · rw [hself]
      · rw [hp]
        rfl
    · unfold Served
      rw [hother d hd, hp]
      simp [BlockState.setClient, SchedulerPhase.executed, Ne.symm hd]
  · simp [BlockState.setClient] at hq

theorem setBits {next : Option ι} (h : Recorded s) (hshape : Shape s xs fl)
    (hp : s.sched = .setBits next) :
    Recorded { s.setBits with sched := .loop next (s.links.next next) } := by
  refine h.frame rfl rfl rfl (fun c => ?_) (fun c => ?_) (fun c _ => ?_)
    (fun c => ?_) fun q next' blkdev hq => ?_
  · obtain ⟨hc, -⟩ | ⟨hc, -⟩ := hshape.setBits_client c
    all_goals rw [hc]
  · obtain ⟨hc, -⟩ | ⟨hc, hb⟩ := hshape.setBits_client c
    · rw [hc]
    · rw [hc, hb]
      simp
  · obtain ⟨hc, -⟩ | ⟨hc, -⟩ := hshape.setBits_client c
    all_goals
      rw [hc]
      exact ⟨rfl, rfl⟩
  · unfold Served
    rw [hp]
    obtain ⟨hc, -⟩ | ⟨hc, hb⟩ := hshape.setBits_client c
    · rw [hc]
      rfl
    · rw [hc, hb]
      rfl
  · simp at hq

/-- No step of the scheduler loses or doubles an execution. -/
theorem sched {retval : ℕ} (h : Recorded s) (hshape : Shape s xs fl) (hs : SchedMove s retval s') :
    Recorded s' := by
  cases hs with
  | take hp hn => exact h.of_sched rfl rfl rfl rfl (by rw [hp]; rfl) (by simp)
  | pend hp hm => exact h.of_sched rfl rfl rfl rfl (by rw [hp]; rfl) (by simp)
  | leave hp => exact h.of_sched rfl rfl rfl rfl (by rw [hp]; rfl) (by simp)
  | enter hp =>
    refine h.of_sched rfl rfl rfl rfl (by rw [hp]; rfl) fun q next blkdev hq => ?_
    obtain ⟨rfl, -, rfl⟩ : _ = q ∧ _ = next ∧ _ = blkdev := by simpa using hq
    rfl
  | exec hp => exact h.exec retval hshape hp
  | repend hp hm => exact h.of_sched rfl rfl rfl rfl (by rw [hp]; rfl) (by simp)
  | del hp => exact h.of_sched rfl rfl rfl rfl (by rw [hp]; rfl) (by simp)
  | done hp => exact h.done hshape hp
  | setBits hp => exact h.setBits hshape hp
  | release hp => exact h.of_sched rfl rfl rfl rfl (by rw [hp]; rfl) (by simp)

/-- Every action keeps the record. -/
theorem step (h : Recorded s) (hshape : Shape s xs fl) (hs : s.step a = some s') : Recorded s' := by
  cases a with
  | start c req =>
    simp only [BlockState.step] at hs
    split_ifs at hs with hp
    exact Option.some.inj hs ▸ h.start hshape hp req
  | reuse c frame next prev =>
    simp only [BlockState.step] at hs
    split_ifs at hs with hp
    exact Option.some.inj hs ▸ h.reuse hshape hp _ frame
  | client c => exact h.client hshape (stepClient_cases hs)
  | sched retval => exact h.sched hshape (stepSched_cases hs)

/-- At the start nothing was executed, and nothing is owed. -/
theorem initial (h : Initial s) : Recorded s where
  once c t hc := by
    obtain ⟨hpos, hlt | ⟨heq, -⟩⟩ := hc
    · rw [(h.client c).2] at hlt
      omega
    · rw [(h.client c).2] at heq
      omega
  never c t _ := by
    unfold runs
    rw [h.log]
    rfl
  data e he := by simp [h.log] at he
  request c hc := absurd (h.client c).1 hc
  device p next blkdev hp := by simp [h.sched] at hp
  result c hc := by simpa [Served, (h.client c).1, ClientPhase.Posted] using hc.1
  returned c t v hc := by simp [h.returned] at hc

end Recorded

theorem Reachable.recorded (h₀ : Initial s₀) (h : Reachable s₀ s) : Recorded s := by
  induction h with
  | init => exact Recorded.initial h₀
  | step h hs ih =>
    obtain ⟨xs, fl, hshape⟩ := h.shape h₀
    exact ih.step hshape hs

/-! ## Who may touch a frame

The frame of a client lies on its stack. Once the call can return nobody else may read it or write
to it, since it may hold something else by then. -/

/-- The request in the frame is done, or there is none. -/
def Free (s : BlockState ι) (c : ι) : Prop :=
  (s.client c).phase = .idle ∨ (s.client c).phase.Posted = true ∧ (s.client c).bDone = true

/-- The frame of the client is as it was. Where the client is in its call is not in the frame. -/
structure SameFrame (s s' : BlockState ι) (c : ι) : Prop where
  /-- all but the place in the code -/
  fields : { s'.client c with phase := (s.client c).phase } = s.client c
  next : s'.links.next (some c) = s.links.next (some c)
  prev : s'.links.prev (some c) = s.links.prev (some c)

omit [DecidableEq ι] in
/-- A client that is free has no request under way. -/
theorem Free.not_unserved (h : s.Free c) : ¬ s.Unserved c := by
  intro hu
  obtain hidle | ⟨-, hdone⟩ := h
  · exact hu.phase_ne_idle hidle
  · rw [hu.2] at hdone
    simp at hdone

omit [DecidableEq ι] in
/-- Another client's step does not write into this one's frame. -/
theorem SameFrame.of_client (hclient : s'.client c = s.client c) (hlinks : s'.links = s.links) :
    SameFrame s s' c := by
  refine ⟨?_, by rw [hlinks], by rw [hlinks]⟩
  rw [hclient]

namespace Shape

omit [DecidableEq ι] in
/-- A request that is not under way is not in the queue. -/
theorem notMem_of_free (h : Shape s xs fl) (hc : s.Free c) : c ∉ xs :=
  fun hmem => hc.not_unserved ((h.queued c).mp hmem).1

omit [DecidableEq ι] in
/-- The scheduler has no pointer to a request that is done. -/
theorem notMem_refers (h : Shape s xs fl) (hc : s.Free c) : c ∉ s.sched.refers := by
  intro hmem
  obtain hxs | hremoved := h.walk.refers_mem hmem
  · exact h.notMem_of_free hc hxs
  · exact hc.not_unserved (h.removed c hremoved)

omit [DecidableEq ι] in
theorem notMem_cells (h : Shape s xs fl) (hc : s.Free c) : some c ∉ none :: xs.map some := by
  have := h.notMem_of_free hc
  simpa using this

/-- The scheduler does not touch a frame that is done, or not in use. -/
theorem untouched_sched {retval : ℕ} (h : Shape s xs fl) (hc : s.Free c)
    (hs : s.stepSched retval = some s') :
    SameFrame s s' c := by
  obtain hs := stepSched_cases hs
  cases hs with
  | take hp hn => exact .of_client rfl rfl
  | pend hp hm => exact .of_client rfl rfl
  | leave hp => exact .of_client rfl rfl
  | enter hp => exact .of_client rfl rfl
  | exec hp =>
    refine .of_client (setClient_of_ne _ _ _ ?_) rfl
    rintro rfl
    exact hc.not_unserved (h.unserved_of_exec hp)
  | repend hp hm => exact .of_client rfl rfl
  | @del p next hp =>
    have hwalk := h.walk
    rw [hp] at hwalk
    obtain ⟨as, bs, rfl, -⟩ := hwalk
    have hmem : some p ∈ none :: (as ++ p :: bs).map some := by simp
    obtain ⟨hnext, hprev⟩ := h.ring.unlink_outside hmem (h.notMem_cells hc)
    exact ⟨rfl, hnext, hprev⟩
  | done hp =>
    refine .of_client (setClient_of_ne _ _ _ ?_) rfl
    rintro rfl
    exact hc.not_unserved (h.removed _ (by rw [hp]; rfl))
  | setBits hp =>
    refine ⟨?_, rfl, rfl⟩
    obtain ⟨he, -⟩ | ⟨he, -⟩ := h.setBits_client c
    all_goals rw [he]
  | release hp => exact .of_client rfl rfl

/-- Nor do the other clients. -/
theorem untouched_client (h : Shape s xs fl) (hc : s.Free c) (hd : c ≠ d)
    (hs : s.stepClient d = some s') :
    SameFrame s s' c := by
  obtain hs := stepClient_cases hs
  cases hs with
  | pend hp hm => exact .of_client (goto_of_ne _ d _ hd) rfl
  | insert hp =>
    obtain ⟨hnext, hprev⟩ := h.ring.insertAfter_outside (n := some d) (List.mem_cons_self ..)
      (h.notMem_cells hc)
      (by simpa using hd)
    refine ⟨?_, hnext, hprev⟩
    rw [goto_of_ne _ d _ hd]
  | release hp => exact .of_client (goto_of_ne _ d _ hd) rfl
  | notify hp => exact .of_client (goto_of_ne _ d _ hd) rfl
  | finish hp hb => exact .of_client (goto_of_ne _ d _ hd) rfl
  | again hp hb => exact .of_client (goto_of_ne _ d _ hd) rfl
  | consume hp hb => exact .of_client (goto_of_ne _ d _ hd) rfl
  | block hp hb => exact .of_client (goto_of_ne _ d _ hd) rfl

/-! ## No request is left behind

If nobody can go on, the mutex is free and no request is between the list and its notification, so
that the scheduler would have been woken for any that is left. -/

omit [DecidableEq ι] in
/-- The scheduler does not wait for a notification while there is a request for which none is
on its way. -/
theorem not_stuck (h : Shape s xs fl) (hp : s.sched = .take) (hn : s.notifications = 0)
    (hfl : ∀ c, (s.client c).phase.InFlight = false) : xs = [] := by
  have hempty : fl = [] := by
    refine List.eq_nil_iff_forall_not_mem.mpr fun c hc => ?_
    rw [h.flight, hfl c] at hc
    simp at hc
  have henough := h.enough
  rw [hp, hn, hempty] at henough
  exact List.eq_nil_of_length_eq_zero (Nat.le_zero.mp henough)

/-- If no thread can go on, nobody has the mutex. -/
theorem mutex_at_rest (h : Shape s xs fl) (hsched : ∀ retval, s.stepSched retval = none)
    (hclient : ∀ c, s.stepClient c = none) : s.mutex = none := by
  cases hm : s.mutex with
  | none => rfl
  | some x =>
    cases x with
    | none =>
      have hlocked := h.locked.mp hm
      have hstep := hsched 0
      cases hp : s.sched with
      | loop pos next =>
        cases pos with
        | none => simp [stepSched, hp] at hstep
        | some p => simp [stepSched, hp] at hstep
      | del p next => simp [stepSched, hp] at hstep
      | done p next => simp [stepSched, hp] at hstep
      | setBits next => simp [stepSched, hp] at hstep
      | release => simp [stepSched, hp] at hstep
      | take => simp [hp, SchedulerPhase.Locked] at hlocked
      | pend => simp [hp, SchedulerPhase.Locked] at hlocked
      | exec p next blkdev => simp [hp, SchedulerPhase.Locked] at hlocked
      | repend p next => simp [hp, SchedulerPhase.Locked] at hlocked
    | some c =>
      have hholding := (h.owner c).mp hm
      have hstep := hclient c
      cases hp : (s.client c).phase with
      | insert => simp [stepClient, hp] at hstep
      | release => simp [stepClient, hp] at hstep
      | idle => simp [hp, ClientPhase.Holding] at hholding
      | pend => simp [hp, ClientPhase.Holding] at hholding
      | notify => simp [hp, ClientPhase.Holding] at hholding
      | test => simp [hp, ClientPhase.Holding] at hholding
      | wait => simp [hp, ClientPhase.Holding] at hholding
      | blocked => simp [hp, ClientPhase.Holding] at hholding

omit [DecidableEq ι] in
/-- Without the mutex in the way, a client stops outside of the layer or waiting. -/
theorem client_at_rest [DecidableEq ι] (hm : s.mutex = none) (hclient : s.stepClient c = none) :
    (s.client c).phase = .idle ∨ (s.client c).phase = .blocked := by
  cases hp : (s.client c).phase with
  | idle => exact .inl rfl
  | blocked => exact .inr rfl
  | pend => simp [stepClient, hp, hm] at hclient
  | insert => simp [stepClient, hp] at hclient
  | release => simp [stepClient, hp] at hclient
  | notify => simp [stepClient, hp] at hclient
  | test =>
    simp only [stepClient, hp] at hclient
    split_ifs at hclient
  | wait =>
    simp only [stepClient, hp] at hclient
    split_ifs at hclient

/-- And the scheduler waiting for a notification. -/
theorem sched_at_rest (hm : s.mutex = none) (hsched : ∀ retval, s.stepSched retval = none) :
    s.sched = .take ∧ s.notifications = 0 := by
  have hstep := hsched 0
  cases hp : s.sched with
  | take =>
    simp only [stepSched, hp] at hstep
    split_ifs at hstep with hn
    exact ⟨rfl, hn⟩
  | pend => simp [stepSched, hp, hm] at hstep
  | loop pos next =>
    cases pos with
    | none => simp [stepSched, hp] at hstep
    | some p => simp [stepSched, hp] at hstep
  | exec p next blkdev => simp [stepSched, hp] at hstep
  | repend p next => simp [stepSched, hp, hm] at hstep
  | del p next => simp [stepSched, hp] at hstep
  | done p next => simp [stepSched, hp] at hstep
  | setBits next => simp [stepSched, hp] at hstep
  | release => simp [stepSched, hp] at hstep

/-- When no thread can go on, the list is empty and all requests have been executed. -/
theorem at_rest (h : Shape s xs fl) (hsched : ∀ retval, s.stepSched retval = none)
    (hclient : ∀ c, s.stepClient c = none) :
    xs = [] ∧ ∀ c t, 0 < t → t ≤ (s.client c).ticket → s.Executed c t := by
  have hm := h.mutex_at_rest hsched hclient
  obtain ⟨hp, hn⟩ := sched_at_rest hm hsched
  have hxs : xs = [] := by
    refine h.not_stuck hp hn fun c => ?_
    obtain hc | hc := client_at_rest hm (hclient c)
    all_goals
      rw [hc]
      rfl
  refine ⟨hxs, fun c t hpos hle => ⟨hpos, ?_⟩⟩
  obtain hlt | heq := hle.lt_or_eq
  · exact .inl hlt
  · refine .inr ⟨heq, ?_⟩
    obtain hc | hc := client_at_rest hm (hclient c)
    · exact .inl hc
    · have hposted : (s.client c).phase.Posted = true := by
        rw [hc]
        rfl
      refine .inr ⟨hposted, .inl ?_⟩
      by_contra hdone
      have hmem : c ∈ xs :=
        (h.queued c).mpr ⟨⟨hposted, by simpa using hdone⟩, by simp [hp, SchedulerPhase.removed]⟩
      simp [hxs] at hmem

end Shape

/-! ## The guarantees

What the invariants say is put into the words of a client: executed once, with its own data,
returned with that result, and not left behind. -/

/-- What the block layer promises its clients. -/
structure Delivered (s : BlockState ι) : Prop where
  /-- no request is executed twice -/
  once : ∀ c t, s.runs c t ≤ 1
  /-- a request that is done has been executed -/
  done : ∀ c, (s.client c).phase.Posted = true → (s.client c).bDone = true →
    s.runs c (s.client c).ticket = 1
  /-- a call returns when its request has been executed, with the result of that execution -/
  returned : ∀ c t v, (c, t, v) ∈ s.returned →
    s.runs c t = 1 ∧ ∃ e ∈ s.log, e.client = c ∧ e.ticket = t ∧ e.retval = v
  /-- what is executed has been asked for, with its own device, addresses and buffer -/
  own : ∀ e ∈ s.log, 0 < e.ticket ∧ e.ticket ≤ (s.client e.client).ticket ∧
    e.req = s.issued e.client e.ticket ∧ e.device = e.req.hBlock
  /-- a request that is done has left the list -/
  left : ∃ xs : List ι, Ring s.links none (xs.map some) ∧ ∀ c, s.Free c → c ∉ xs
  /-- and nobody but its client touches it any more -/
  alone : ∀ c, s.Free c → c ∉ s.sched.refers ∧
    (∀ retval s', s.stepSched retval = some s' → SameFrame s s' c) ∧
    ∀ d s', c ≠ d → s.stepClient d = some s' → SameFrame s s' c
  /-- the scheduler does not sleep over a request -/
  awake : ¬ (s.links.next none ≠ none ∧ s.sched = .take ∧ s.notifications = 0 ∧
    ∀ c, (s.client c).phase.InFlight = false)
  /-- when no thread can go on, all requests have been executed -/
  all : (∀ retval, s.stepSched retval = none) → (∀ c, s.stepClient c = none) →
    s.links.next none = none ∧ ∀ c t, 0 < t → t ≤ (s.client c).ticket → s.runs c t = 1

/-- Every request is executed once, in any order of the steps of any number of clients. -/
theorem requests_delivered (h₀ : Initial s₀) (h : Reachable s₀ s) : Delivered s := by
  obtain ⟨xs, fl, hshape⟩ := h.shape h₀
  have hrec := h.recorded h₀
  refine ⟨fun c t => ?_, fun c hposted hdone => ?_, fun c t v hm => ?_, fun e he => ?_,
    ⟨xs, hshape.ring, fun c hc => hshape.notMem_of_free hc⟩,
    fun c hc => ⟨hshape.notMem_refers hc, ?_, ?_⟩, ?_,
    fun hsched hclient => ?_⟩
  · by_cases he : s.Executed c t
    · exact (hrec.once c t he).le
    · rw [hrec.never c t he]
      exact Nat.zero_le _
  · have hne : (s.client c).phase ≠ .idle := fun hidle => by
      simp [hidle, ClientPhase.Posted] at hposted
    exact hrec.once c _ ⟨(hrec.request c hne).1, .inr ⟨rfl, .inr ⟨hposted, .inl hdone⟩⟩⟩
  · obtain ⟨hexec, hresult⟩ := hrec.returned c t v hm
    exact ⟨hrec.once c t hexec, hresult⟩
  · obtain ⟨hpos, hle⟩ := hrec.executed_of_mem he
    refine ⟨hpos, ?_, hrec.data e he⟩
    obtain hlt | ⟨heq, -⟩ := hle
    · exact hlt.le
    · exact heq.le
  · exact fun retval s' hs => hshape.untouched_sched hc hs
  · exact fun d s' hd hs => hshape.untouched_client hc hd hs
  · rintro ⟨hlist, hp, hn, hfl⟩
    refine hlist ?_
    rw [hshape.first_next, hshape.not_stuck hp hn hfl]
    rfl
  · obtain ⟨hxs, hall⟩ := hshape.at_rest hsched hclient
    refine ⟨?_, fun c t hpos hle => hrec.once c t (hall c t hpos hle)⟩
    rw [hshape.first_next, hxs]
    rfl

/-- The frames as they happen to be when `bt_block_init` is called. -/
def booted : BlockState ι where
  links := ⟨fun _ => none, fun _ => none⟩
  mutex := none
  notifications := 0
  bit := false
  waiters := []
  client := fun _ => ⟨.idle, ⟨0, false, 0, 0, 0⟩, false, 0, 0⟩
  sched := .take
  issued := fun _ _ => ⟨0, false, 0, 0, 0⟩
  log := []
  returned := []

omit [DecidableEq ι] in
theorem initial_booted : Initial (booted : BlockState ι) where
  links := ⟨rfl, rfl⟩
  mutex := rfl
  notifications := rfl
  bit := rfl
  waiters := rfl
  client _ := ⟨rfl, rfl⟩
  sched := rfl
  log := rfl
  returned := rfl

/-- A run of steps leads from a reachable state to a reachable one. -/
theorem Reachable.run {as : List (BlockAction ι)} (h : Reachable s₀ s) (hs : s.run as = some s') :
    Reachable s₀ s' := by
  induction as generalizing s with
  | nil => exact Option.some.inj hs ▸ h
  | cons a as ih =>
    obtain ⟨t, ht, hrun⟩ := Option.bind_eq_some_iff.mp hs
    exact ih (h.step ht) hrun

/-- A client reads two blocks, while another one is about to notify the scheduler. -/
def twoClients : List (BlockAction Bool) :=
  [.start false ⟨3, false, 10, 2, 64⟩, .client false, .client false, .client false, .client false,
    .start true ⟨4, true, 20, 1, 128⟩, .client true, .client true, .client true,
    .sched 0, .sched 0, .sched 0, .sched 5, .sched 0, .sched 0, .sched 0, .sched 0, .sched 0,
    .sched 6,
    .sched 0, .sched 0, .sched 0, .sched 0, .client false]

/-- Two clients and one request, from its insertion to its return. -/
theorem requests_delivered_two : ∃ s, booted.run twoClients = some s ∧
    s.returned = [(false, 1, 6)] ∧
    s.runs true 1 = 1 ∧ Delivered s := by
  have hrun : ∃ s, booted.run twoClients = some s ∧ s.returned = [(false, 1, 6)] ∧
      s.runs true 1 = 1 :=
    ⟨_, rfl, rfl, rfl⟩
  obtain ⟨s, hs, hreturned, hruns⟩ := hrun
  exact ⟨s, hs, hreturned, hruns, requests_delivered initial_booted (Reachable.init.run hs)⟩

end BlockState

end BitThunder
