import BitThunder.Dev.Block

/-!
# List, mutex and loop of the block scheduler

For any clients and any order of steps, the list of requests, the mutex, the notifications and
the loop of the scheduler fit together: the loop stands at a cut of the list, which holds the
requests that have been made and are not done, and there is a notification for each.

* `stepClient_cases`, `stepSched_cases`: all that a thread can do;
* `Shape`, `Shape.step`: the invariant;
* `Reachable.shape`: it holds whenever the system has been started by `bt_block_init`.

The loop is described by the cut of the list it stands at. It has read `next` before it gives the
mutex back, so that while a request is executed the list may grow. It does so at its head, before
the cut; behind the cut nothing changes, since only the scheduler takes requests out. This is why
`next` is still good when the mutex is taken again, and why a request that is put in meanwhile is
seen by the next walk.

Notifications are counted against requests. Every request in the list has a notification under way,
or one that was given, or the scheduler has taken a notification and not yet taken a request out for
it (`debt`). The inequality is kept by each step, and it is what excludes that the scheduler sleeps
over a request.

An action is looked at once, in `stepClient_cases` and `stepSched_cases`; from there on, each case
comes with the fields that it changes, and most of the fields of `Shape` do not see them.
-/

namespace BitThunder

namespace ClientPhase

/-- The request of the client has been put into the list, and the call has not returned. -/
def Posted : ClientPhase → Bool
  | .idle | .pend | .insert => false
  | .release | .notify | .test | .wait | .blocked => true

/-- The client has the mutex. -/
def Holding : ClientPhase → Bool
  | .insert | .release => true
  | .idle | .pend | .notify | .test | .wait | .blocked => false

/-- The request is in the list, and the scheduler has not been notified. -/
def InFlight : ClientPhase → Bool
  | .release | .notify => true
  | .idle | .pend | .insert | .test | .wait | .blocked => false

end ClientPhase

namespace SchedulerPhase

variable {ι : Type}

/-- The request that has left the list, but is not marked as done. -/
def removed : SchedulerPhase ι → Option ι
  | .done p _ => some p
  | _ => none

/-- The request that has been executed, but is not marked as done. -/
def executed : SchedulerPhase ι → Option ι
  | .repend p _ | .del p _ | .done p _ => some p
  | _ => none

/-- The scheduler has the mutex. -/
def Locked : SchedulerPhase ι → Bool
  | .loop _ _ | .del _ _ | .done _ _ | .setBits _ | .release => true
  | .take | .pend | .exec _ _ _ | .repend _ _ => false

/-- A notification has been taken, and no request for it has left the list. -/
def debt : SchedulerPhase ι → ℕ
  | .pend | .loop (some _) _ | .exec _ _ _ | .repend _ _ | .del _ _ => 1
  | .take | .loop none _ | .done _ _ | .setBits _ | .release => 0

/-- The requests that the scheduler has a pointer to and may still look at. -/
def refers : SchedulerPhase ι → List ι
  | .loop (some p) next | .exec p next _ | .repend p next | .del p next
    | .done p next => p :: next.toList
  | .setBits next => next.toList
  | .take | .pend | .loop none _ | .release => []

/-- The loop stands at a cut of the list: `pos` is the first request behind it and `next` the
one after; once `pos` has left the list, `next` is the first. -/
def Walk : SchedulerPhase ι → List ι → Prop
  | .loop (some p) next, xs | .exec p next _, xs | .repend p next, xs | .del p next, xs =>
    ∃ as bs, xs = as ++ p :: bs ∧ next = bs.head?
  | .done _ next, xs | .setBits next, xs => ∃ as bs, xs = as ++ bs ∧ next = bs.head?
  | .take, _ | .pend, _ | .loop none _, _ | .release, _ => True

/-- A request that is put at the head comes before the cut. -/
theorem Walk.cons {phase : SchedulerPhase ι} {xs : List ι} (h : phase.Walk xs) (x : ι) :
    phase.Walk (x :: xs) := by
  cases phase with
  | take => trivial
  | pend => trivial
  | release => trivial
  | loop pos next =>
    cases pos with
    | none => trivial
    | some p =>
      obtain ⟨as, bs, rfl, hnext⟩ := h
      exact ⟨x :: as, bs, rfl, hnext⟩
  | exec p next blkdev =>
    obtain ⟨as, bs, rfl, hnext⟩ := h
    exact ⟨x :: as, bs, rfl, hnext⟩
  | repend p next =>
    obtain ⟨as, bs, rfl, hnext⟩ := h
    exact ⟨x :: as, bs, rfl, hnext⟩
  | del p next =>
    obtain ⟨as, bs, rfl, hnext⟩ := h
    exact ⟨x :: as, bs, rfl, hnext⟩
  | done p next =>
    obtain ⟨as, bs, rfl, hnext⟩ := h
    exact ⟨x :: as, bs, rfl, hnext⟩
  | setBits next =>
    obtain ⟨as, bs, rfl, hnext⟩ := h
    exact ⟨x :: as, bs, rfl, hnext⟩

theorem mem_of_mem_head {p c : ι} {bs : List ι} (h : c ∈ p :: bs.head?.toList) : c ∈ p :: bs := by
  rcases List.mem_cons.mp h with rfl | h
  · exact List.mem_cons_self ..
  · exact List.mem_cons_of_mem _ (List.mem_of_mem_head? (by simpa using h))

/-- What the scheduler may still look at is in the list, but for what it has just taken out. -/
theorem Walk.refers_mem {phase : SchedulerPhase ι} {xs : List ι} (h : phase.Walk xs) {c : ι}
    (hc : c ∈ phase.refers) : c ∈ xs ∨ phase.removed = some c := by
  cases phase with
  | take => simp [refers] at hc
  | pend => simp [refers] at hc
  | release => simp [refers] at hc
  | loop pos next =>
    cases pos with
    | none => simp [refers] at hc
    | some p =>
      obtain ⟨as, bs, rfl, rfl⟩ := h
      exact .inl (List.mem_append_right _ (mem_of_mem_head hc))
  | exec p next blkdev =>
    obtain ⟨as, bs, rfl, rfl⟩ := h
    exact .inl (List.mem_append_right _ (mem_of_mem_head hc))
  | repend p next =>
    obtain ⟨as, bs, rfl, rfl⟩ := h
    exact .inl (List.mem_append_right _ (mem_of_mem_head hc))
  | del p next =>
    obtain ⟨as, bs, rfl, rfl⟩ := h
    exact .inl (List.mem_append_right _ (mem_of_mem_head hc))
  | done p next =>
    obtain ⟨as, bs, rfl, rfl⟩ := h
    rcases List.mem_cons.mp hc with rfl | hc
    · exact .inr rfl
    · exact .inl (List.mem_append_right _ (List.mem_of_mem_head? (by simpa using hc)))
  | setBits next =>
    obtain ⟨as, bs, rfl, rfl⟩ := h
    exact .inl (List.mem_append_right _ (List.mem_of_mem_head? (by simpa [refers] using hc)))

/-- Without the mutex the scheduler holds no request that is out of the queue. -/
theorem removed_of_not_locked {phase : SchedulerPhase ι} (h : phase.Locked = false) :
    phase.removed = none := by
  cases phase with
  | done p next => simp [Locked] at h
  | take => rfl
  | pend => rfl
  | loop pos next => rfl
  | exec p next blkdev => rfl
  | repend p next => rfl
  | del p next => rfl
  | setBits next => rfl
  | release => rfl

end SchedulerPhase

namespace BlockState

variable {ι : Type} {s s' s₀ : BlockState ι} {a : BlockAction ι} {c d : ι} {xs fl : List ι}

/-! ## What an action can do

All branches of the two step functions are taken apart here and never again. Each case says what was
the case before and which fields are different. -/

section Goto

variable [DecidableEq ι] (s : BlockState ι) (c : ι) (phase : ClientPhase) (x : BlockClient)

@[simp] theorem setClient_self : (s.setClient c x).client c = x := by
  unfold setClient
  exact Function.update_self c x s.client

@[simp] theorem setClient_of_ne (h : d ≠ c) : (s.setClient c x).client d = s.client d := by
  unfold setClient
  exact Function.update_of_ne h x s.client

@[simp] theorem goto_self : (s.goto c phase).client c = { s.client c with phase := phase } :=
  setClient_self s c _

@[simp] theorem goto_of_ne (h : d ≠ c) : (s.goto c phase).client d = s.client d :=
  setClient_of_ne s c _ h

end Goto

section Moves

variable [DecidableEq ι]

/-- The actions of the clients. -/
inductive ClientMove (s : BlockState ι) (c : ι) : BlockState ι → Prop
  | pend (hp : (s.client c).phase = .pend) (hm : s.mutex = none) :
      ClientMove s c ({ s with mutex := some (some c) }.goto c .insert)
  | insert (hp : (s.client c).phase = .insert) :
      ClientMove s c ({ s with links := s.links.insertAfter (some c) none }.goto c .release)
  | release (hp : (s.client c).phase = .release) : ClientMove s c
    ({ s with mutex := none }.goto c .notify)
  | notify (hp : (s.client c).phase = .notify) :
      ClientMove s c ({ s with notifications := s.notifications + 1 }.goto c .test)
  | finish (hp : (s.client c).phase = .test) (hd : (s.client c).bDone = true) :
      ClientMove s c
        ({ s with returned := (c, (s.client c).ticket, (s.client c).retval) :: s.returned }.goto c
          .idle)
  | again (hp : (s.client c).phase = .test) (hd : (s.client c).bDone = false) : ClientMove s c
    (s.goto c .wait)
  | consume (hp : (s.client c).phase = .wait) (hb : s.bit = true) :
      ClientMove s c ({ s with bit := false }.goto c .test)
  | block (hp : (s.client c).phase = .wait) (hb : s.bit = false) :
      ClientMove s c ({ s with waiters := c :: s.waiters }.goto c .blocked)

/-- The actions of the scheduler. -/
inductive SchedMove (s : BlockState ι) (retval : ℕ) : BlockState ι → Prop
  | take (hp : s.sched = .take) (hn : 0 < s.notifications) :
      SchedMove s retval { s with notifications := s.notifications - 1, sched := .pend }
  | pend (hp : s.sched = .pend) (hm : s.mutex = none) :
      SchedMove s retval
        { s with
          mutex := some none
          sched := .loop (s.links.next none) (s.links.next (s.links.next none)) }
  | leave {next : Option ι} (hp : s.sched = .loop none next) : SchedMove s retval
    { s with sched := .release }
  | enter {p : ι} {next : Option ι} (hp : s.sched = .loop (some p) next) :
      SchedMove s retval { s with mutex := none, sched := .exec p next (s.client p).req.hBlock }
  | exec {p : ι} {next : Option ι} {blkdev : ℕ} (hp : s.sched = .exec p next blkdev) :
      SchedMove s retval ({ s with
        sched := .repend p next
        log := ⟨p, (s.client p).ticket, blkdev, (s.client p).req, retval⟩ :: s.log }.setClient p
          { s.client p with retval := retval })
  | repend {p : ι} {next : Option ι} (hp : s.sched = .repend p next) (hm : s.mutex = none) :
      SchedMove s retval { s with mutex := some none, sched := .del p next }
  | del {p : ι} {next : Option ι} (hp : s.sched = .del p next) :
      SchedMove s retval { s with links := s.links.unlink (some p), sched := .done p next }
  | done {p : ι} {next : Option ι} (hp : s.sched = .done p next) :
      SchedMove s retval ({ s with sched := .setBits next }.setClient p
      { s.client p with bDone := true })
  | setBits {next : Option ι} (hp : s.sched = .setBits next) :
      SchedMove s retval { s.setBits with sched := .loop next (s.links.next next) }
  | release (hp : s.sched = .release) : SchedMove s retval { s with mutex := none, sched := .take }

theorem stepClient_cases (h : s.stepClient c = some s') : ClientMove s c s' := by
  unfold stepClient at h
  split at h
  next => simp at h
  next hp =>
    split_ifs at h with hm
    exact Option.some.inj h ▸ .pend hp hm
  next hp => exact Option.some.inj h ▸ .insert hp
  next hp => exact Option.some.inj h ▸ .release hp
  next hp => exact Option.some.inj h ▸ .notify hp
  next hp =>
    split_ifs at h with hd
    · exact Option.some.inj h ▸ .finish hp hd
    · exact Option.some.inj h ▸ .again hp (by simpa using hd)
  next hp =>
    split_ifs at h with hb
    · exact Option.some.inj h ▸ .consume hp hb
    · exact Option.some.inj h ▸ .block hp (by simpa using hb)
  next => simp at h

theorem stepSched_cases {retval : ℕ} (h : s.stepSched retval = some s') :
    SchedMove s retval s' := by
  unfold stepSched at h
  split at h
  next hp =>
    split_ifs at h with hn
    exact Option.some.inj h ▸ .take hp (Nat.pos_of_ne_zero hn)
  next hp =>
    split_ifs at h with hm
    exact Option.some.inj h ▸ .pend hp hm
  next hp => exact Option.some.inj h ▸ .leave hp
  next hp => exact Option.some.inj h ▸ .enter hp
  next hp => exact Option.some.inj h ▸ .exec hp
  next hp =>
    split_ifs at h with hm
    exact Option.some.inj h ▸ .repend hp hm
  next hp => exact Option.some.inj h ▸ .del hp
  next hp => exact Option.some.inj h ▸ .done hp
  next hp => exact Option.some.inj h ▸ .setBits hp
  next hp => exact Option.some.inj h ▸ .release hp

end Moves

/-! ## List, mutex and loop

The clauses of `Shape` speak of one another only through the list of requests, so that most steps
leave most of them as they were. -/

/-- The request of the client has been put into the list and is not done. -/
def Unserved (s : BlockState ι) (c : ι) : Prop :=
  (s.client c).phase.Posted = true ∧ (s.client c).bDone = false

/-- The requests `xs` are in the list; the clients `fl` have put one there and not notified
the scheduler yet. As many notifications as requests are on their way, but for the one that
the scheduler has taken and not used. -/
structure Shape (s : BlockState ι) (xs fl : List ι) : Prop where
  /-- the list on the disk runs through `xs` -/
  ring : Ring s.links none (xs.map some)
  /-- these are the requests that have been put there and not served, but for the one that the
  scheduler has taken out -/
  queued : ∀ c, c ∈ xs ↔ s.Unserved c ∧ s.sched.removed ≠ some c
  /-- that one has not been served yet -/
  removed : ∀ c, s.sched.removed = some c → s.Unserved c
  flight_nodup : fl.Nodup
  /-- `fl` are the clients between the list and the notification -/
  flight : ∀ c, c ∈ fl ↔ (s.client c).phase.InFlight = true
  /-- a client that is in its critical section has the mutex -/
  owner : ∀ c, s.mutex = some (some c) ↔ (s.client c).phase.Holding = true
  /-- or the scheduler has it -/
  locked : s.mutex = some none ↔ s.sched.Locked = true
  /-- who waits for the event is blocked -/
  waiting : ∀ c, c ∈ s.waiters ↔ (s.client c).phase = .blocked
  /-- a request is not done before it is put to the list -/
  fresh : ∀ c, (s.client c).phase = .pend ∨ (s.client c).phase = .insert →
    (s.client c).bDone = false
  /-- the scheduler is at a place of the list -/
  walk : s.sched.Walk xs
  /-- there is a notification for each request, given or still to come -/
  enough : xs.length ≤ s.notifications + fl.length + s.sched.debt

/-- Whether a request is unserved can be seen from its client's frame. -/
theorem unserved_congr (h : s'.client d = s.client d) : s'.Unserved d ↔ s.Unserved d := by
  unfold Unserved
  rw [h]

namespace Shape

/-- Two threads do not have the mutex at once. -/
theorem not_locked (h : Shape s xs fl) (hp : (s.client c).phase.Holding = true) :
    s.sched.Locked = false := by
  by_contra hl
  have hm := (h.owner c).mpr hp
  rw [h.locked.mpr (by simpa using hl)] at hm
  simp at hm

/-- The sentinel is followed by the first request of the queue. -/
theorem first_next (h : Shape s xs fl) : s.links.next none = xs.head? := by
  rw [h.ring.fwd.first]
  cases xs with
  | nil => rfl
  | cons x xs => rfl

/-- A request is followed by the next one of the queue. -/
theorem next_of_split (h : Shape s xs fl) {as bs : List ι} {p : ι} (hxs : xs = as ++ p :: bs) :
    s.links.next (some p) = bs.head? := by
  have hring := h.ring
  rw [hxs, List.map_append, List.map_cons] at hring
  rw [hring.next_mem]
  cases bs with
  | nil => rfl
  | cons b bs => rfl

theorem nodup (h : Shape s xs fl) : xs.Nodup :=
  List.Nodup.of_map some (List.nodup_cons.mp h.ring.nodup).2

/-- A request that is not in the list, because its client has not put it there. -/
theorem notMem_of_not_posted (h : Shape s xs fl) (hp : (s.client c).phase.Posted = false) :
    c ∉ xs := by
  rw [h.queued]
  rintro ⟨⟨hpost, -⟩, -⟩
  rw [hp] at hpost
  simp at hpost

/-- A step that changes one client: only what it has to do with that client is to be shown. -/
theorem of_client {xs' fl' : List ι} (h : Shape s xs fl) (hsched : s'.sched = s.sched)
    (hclient : ∀ d, d ≠ c → s'.client d = s.client d)
    (hring : Ring s'.links none (xs'.map some)) (hmem : ∀ d, d ≠ c → (d ∈ xs' ↔ d ∈ xs))
    (hqueued : c ∈ xs' ↔ s'.Unserved c ∧ s.sched.removed ≠ some c)
    (hremoved : s.sched.removed = some c → s'.Unserved c)
    (hnodup : fl'.Nodup) (hfl : ∀ d, d ≠ c → (d ∈ fl' ↔ d ∈ fl))
    (hflight : c ∈ fl' ↔ (s'.client c).phase.InFlight = true)
    (hmutex : ∀ x, x ≠ some c → (s'.mutex = some x ↔ s.mutex = some x))
    (howner : s'.mutex = some (some c) ↔ (s'.client c).phase.Holding = true)
    (hwaiters : ∀ d, d ≠ c → (d ∈ s'.waiters ↔ d ∈ s.waiters))
    (hwaiting : c ∈ s'.waiters ↔ (s'.client c).phase = .blocked)
    (hfresh : (s'.client c).phase = .pend ∨ (s'.client c).phase = .insert →
    (s'.client c).bDone = false)
    (hwalk : s.sched.Walk xs') (henough : xs'.length ≤ s'.notifications + fl'.length +
      s.sched.debt) :
    Shape s' xs' fl' := by
  refine ⟨hring, fun d => ?_, fun d => ?_, hnodup, fun d => ?_, fun d => ?_, ?_, fun d => ?_,
    fun d => ?_, hsched ▸ hwalk, hsched ▸ henough⟩
  · rw [hsched]
    by_cases hd : d = c
    · exact hd ▸ hqueued
    · rw [hmem d hd, h.queued, unserved_congr (hclient d hd)]
  · rw [hsched]
    by_cases hd : d = c
    · exact hd ▸ hremoved
    · rw [unserved_congr (hclient d hd)]
      exact h.removed d
  · by_cases hd : d = c
    · exact hd ▸ hflight
    · rw [hfl d hd, h.flight, hclient d hd]
  · by_cases hd : d = c
    · exact hd ▸ howner
    · rw [hmutex (some d) (by simpa using hd), h.owner, hclient d hd]
  · rw [hmutex none (by simp), h.locked, hsched]
  · by_cases hd : d = c
    · exact hd ▸ hwaiting
    · rw [hwaiters d hd, h.waiting, hclient d hd]
  · by_cases hd : d = c
    · exact hd ▸ hfresh
    · rw [hclient d hd]
      exact h.fresh d

/-- A step of the scheduler that leaves list and clients alone. -/
theorem of_sched (h : Shape s xs fl) (hclient : s'.client = s.client) (hlinks : s'.links = s.links)
    (hwaiters : s'.waiters = s.waiters) (hremoved : s'.sched.removed = s.sched.removed)
    (howner : ∀ c, s'.mutex = some (some c) ↔ s.mutex = some (some c))
    (hlocked : s'.mutex = some none ↔ s'.sched.Locked = true) (hwalk : s'.sched.Walk xs)
    (henough : xs.length ≤ s'.notifications + fl.length + s'.sched.debt) : Shape s' xs fl where
  ring := hlinks ▸ h.ring
  queued c := by rw [h.queued, hremoved, unserved_congr (congrFun hclient c)]
  removed c := by
    rw [hremoved, unserved_congr (congrFun hclient c)]
    exact h.removed c
  flight_nodup := h.flight_nodup
  flight c := by rw [hclient, h.flight]
  owner c := by rw [hclient, howner, h.owner]
  locked := hlocked
  waiting c := by rw [hclient, hwaiters, h.waiting]
  fresh c := by
    rw [hclient]
    exact h.fresh c
  walk := hwalk
  enough := henough

/-! ### The clients

A client changes the list in one step only, with the mutex, and the ring is edited at its head. -/

section Client

variable [DecidableEq ι]

/-- A client goes on, and list, mutex and notifications stay as they are. -/
theorem goto {t : BlockState ι} {phase : ClientPhase} (h : Shape s xs fl)
    (hclient : t.client = s.client) (hlinks : t.links = s.links) (hsched : t.sched = s.sched)
    (hmutex : t.mutex = s.mutex)
    (hnote : t.notifications = s.notifications)
    (hunserved : (t.goto c phase).Unserved c ↔ s.Unserved c)
    (hflight : phase.InFlight = (s.client c).phase.InFlight)
    (hholding : phase.Holding = (s.client c).phase.Holding)
    (hwaiters : ∀ d, d ≠ c → (d ∈ t.waiters ↔ d ∈ s.waiters))
    (hwaiting : c ∈ t.waiters ↔ phase = .blocked)
    (hfresh : phase ≠ .pend ∧ phase ≠ .insert) : Shape (t.goto c phase) xs fl := by
  refine h.of_client (c := c) hsched
    (fun d hd => (goto_of_ne t c phase hd).trans (congrFun hclient d))
    (show Ring t.links none _ from hlinks ▸ h.ring) (fun _ _ => Iff.rfl) ?_
      (fun hr => hunserved.mpr (h.removed c hr))
    h.flight_nodup (fun _ _ => Iff.rfl) ?_ (fun x _ => ?_) ?_ hwaiters ?_ (fun hp => ?_) h.walk ?_
  · rw [h.queued, hunserved]
  · rw [h.flight, goto_self, hflight]
  · change t.mutex = some x ↔ _
    rw [hmutex]
  · change t.mutex = _ ↔ _
    rw [hmutex, h.owner, goto_self, hholding]
  · rw [goto_self]
    exact hwaiting
  · rw [goto_self] at hp
    exact (hp.elim hfresh.1 hfresh.2).elim
  · change _ ≤ t.notifications + _ + _
    rw [hnote]
    exact h.enough

theorem pend (h : Shape s xs fl) (hp : (s.client c).phase = .pend) (hm : s.mutex = none) :
    Shape ({ s with mutex := some (some c) }.goto c .insert) xs fl := by
  have hnot : c ∉ xs := h.notMem_of_not_posted (by rw [hp]; rfl)
  refine h.of_client (c := c) rfl (fun d hd => goto_of_ne _ c _ hd) h.ring (fun _ _ => Iff.rfl) ?_
    (fun hr => ?_)
    h.flight_nodup (fun _ _ => Iff.rfl) ?_ (fun x hx => ?_) ?_ (fun _ _ => Iff.rfl) ?_
      (fun _ => ?_) h.walk h.enough
  · refine iff_of_false hnot fun hu => ?_
    simpa [Unserved, ClientPhase.Posted] using hu.1.1
  · have := (h.removed c hr).1
    rw [hp] at this
    simp [ClientPhase.Posted] at this
  · rw [h.flight, hp, goto_self]
    rfl
  · refine iff_of_false (fun he => hx ?_) (by simp [hm])
    exact (Option.some.inj he).symm
  · rw [goto_self]
    exact iff_of_true rfl rfl
  · change c ∈ s.waiters ↔ _
    rw [h.waiting, hp, goto_self]
    simp
  · rw [goto_self]
    exact h.fresh c (.inl hp)

/-- A client links its request in at the head of the list. -/
theorem insert (h : Shape s xs fl) (hp : (s.client c).phase = .insert) :
    Shape ({ s with links := s.links.insertAfter (some c) none }.goto c .release) (c :: xs)
    (c :: fl) := by
  have hnot : c ∉ xs := h.notMem_of_not_posted (by rw [hp]; rfl)
  have hnl : s.sched.Locked = false := h.not_locked (c := c) (by rw [hp]; rfl)
  have hremoved := SchedulerPhase.removed_of_not_locked hnl
  refine h.of_client (c := c) rfl (fun d hd => goto_of_ne _ c _ hd) ?_ (fun d hd => ?_) ?_
    (fun hr => ?_) ?_
    (fun d hd => ?_) ?_ (fun _ _ => Iff.rfl) ?_ (fun _ _ => Iff.rfl) ?_ (fun hp => ?_)
      (h.walk.cons c) ?_
  · have hring : Ring s.links none ([] ++ xs.map some) := h.ring
    refine hring.insertAfter (n := some c) ?_
    simpa using hnot
  · simp [hd]
  · refine iff_of_true (List.mem_cons_self ..) ⟨⟨?_, ?_⟩, ?_⟩
    · rw [goto_self]
      rfl
    · rw [goto_self]
      exact h.fresh c (.inr hp)
    · rw [hremoved]
      simp
  · rw [hremoved] at hr
    simp at hr
  · refine List.nodup_cons.mpr ⟨fun hmem => ?_, h.flight_nodup⟩
    rw [h.flight, hp] at hmem
    simp [ClientPhase.InFlight] at hmem
  · simp [hd]
  · rw [goto_self]
    exact iff_of_true (List.mem_cons_self ..) rfl
  · change s.mutex = _ ↔ _
    rw [h.owner, hp, goto_self]
    rfl
  · change c ∈ s.waiters ↔ _
    rw [h.waiting, hp, goto_self]
    simp
  · rw [goto_self] at hp
    simp at hp
  · have henough := h.enough
    change _ ≤ s.notifications + _ + _
    rw [List.length_cons, List.length_cons]
    omega

theorem release (h : Shape s xs fl) (hp : (s.client c).phase = .release) :
    Shape ({ s with mutex := none }.goto c .notify) xs fl := by
  have hm : s.mutex = some (some c) := (h.owner c).mpr (by rw [hp]; rfl)
  have hunserved : ({ s with mutex := none }.goto c .notify).Unserved c ↔ s.Unserved c := by
    unfold Unserved
    rw [goto_self, hp]
    rfl
  refine h.of_client (c := c) rfl (fun d hd => goto_of_ne _ c _ hd) h.ring (fun _ _ => Iff.rfl) ?_
    (fun hr => hunserved.mpr (h.removed c hr)) h.flight_nodup (fun _ _ => Iff.rfl) ?_
      (fun x hx => ?_) ?_
    (fun _ _ => Iff.rfl) ?_ (fun hp => ?_) h.walk h.enough
  · rw [h.queued, hunserved]
  · rw [h.flight, hp, goto_self]
    rfl
  · refine iff_of_false (fun he => ?_) (fun he => hx ?_)
    · have he' : none = some x := he
      simp at he'
    · rw [hm] at he
      exact (Option.some.inj he).symm
  · rw [goto_self]
    refine iff_of_false (fun he => ?_) (by simp [ClientPhase.Holding])
    have he' : none = some (some c) := he
    simp at he'
  · change c ∈ s.waiters ↔ _
    rw [h.waiting, hp, goto_self]
    simp
  · rw [goto_self] at hp
    simp at hp

theorem notify (h : Shape s xs fl) (hp : (s.client c).phase = .notify) :
    Shape ({ s with notifications := s.notifications + 1 }.goto c .test) xs (fl.erase c) := by
  have hmem : c ∈ fl := (h.flight c).mpr (by rw [hp]; rfl)
  have hunserved : ({ s with notifications := s.notifications + 1 }.goto c .test).Unserved c ↔
    s.Unserved c := by
    unfold Unserved
    rw [goto_self, hp]
    rfl
  refine h.of_client (c := c) rfl (fun d hd => goto_of_ne _ c _ hd) h.ring (fun _ _ => Iff.rfl) ?_
    (fun hr => hunserved.mpr (h.removed c hr)) (h.flight_nodup.erase c) (fun d hd => ?_) ?_
      (fun _ _ => Iff.rfl) ?_
    (fun _ _ => Iff.rfl) ?_ (fun hp => ?_) h.walk ?_
  · rw [h.queued, hunserved]
  · exact List.mem_erase_of_ne hd
  · rw [goto_self, h.flight_nodup.mem_erase_iff]
    simp [ClientPhase.InFlight]
  · change s.mutex = _ ↔ _
    rw [h.owner, hp, goto_self]
    rfl
  · change c ∈ s.waiters ↔ _
    rw [h.waiting, hp, goto_self]
    simp
  · rw [goto_self] at hp
    simp at hp
  · have henough := h.enough
    have hpos := List.length_pos_of_mem hmem
    change _ ≤ s.notifications + 1 + _ + _
    rw [List.length_erase_of_mem hmem]
    omega

/-- Whatever a client does, the queue is still a ring. -/
theorem client (h : Shape s xs fl) (hs : ClientMove s c s') : ∃ xs fl, Shape s' xs fl := by
  cases hs with
  | pend hp hm => exact ⟨xs, fl, h.pend hp hm⟩
  | insert hp => exact ⟨_, _, h.insert hp⟩
  | release hp => exact ⟨xs, fl, h.release hp⟩
  | notify hp => exact ⟨_, _, h.notify hp⟩
  | finish hp hd =>
    refine ⟨xs, fl, h.goto rfl rfl rfl rfl rfl ?_
      (by rw [hp]; rfl) (by rw [hp]; rfl) (fun _ _ => Iff.rfl) ?_ (by simp)⟩
    · refine iff_of_false (fun hu => ?_) fun hu => ?_
      · simpa [Unserved, ClientPhase.Posted] using hu.1
      · rw [hu.2] at hd
        simp at hd
    · rw [h.waiting, hp]
      simp
  | again hp hd =>
    refine ⟨xs, fl, h.goto rfl rfl rfl rfl rfl ?_
      (by rw [hp]; rfl) (by rw [hp]; rfl) (fun _ _ => Iff.rfl) ?_ (by simp)⟩
    · unfold Unserved
      rw [goto_self, hp]
      rfl
    · rw [h.waiting, hp]
      simp
  | consume hp hb =>
    refine ⟨xs, fl, h.goto rfl rfl rfl rfl rfl ?_
      (by rw [hp]; rfl) (by rw [hp]; rfl) (fun _ _ => Iff.rfl) ?_ (by simp)⟩
    · unfold Unserved
      rw [goto_self, hp]
      rfl
    · rw [h.waiting, hp]
      simp
  | block hp hb =>
    refine ⟨xs, fl, h.goto rfl rfl rfl rfl rfl ?_
      (by rw [hp]; rfl) (by rw [hp]; rfl) (fun d hd => ?_) ?_ (by simp)⟩
    · unfold Unserved
      rw [goto_self, hp]
      rfl
    · exact List.mem_cons.trans (or_iff_right hd)
    · exact iff_of_true (List.mem_cons_self ..) rfl

/-- A client that is outside of the block layer stays so, or makes a request. -/
theorem setClient {t : BlockState ι} {x : BlockClient} (h : Shape s xs fl)
    (hp : (s.client c).phase = .idle) (hclient : t.client = s.client)
    (hring : Ring t.links none (xs.map some)) (hsched : t.sched = s.sched)
    (hmutex : t.mutex = s.mutex) (hwaiters : t.waiters = s.waiters)
    (hnote : t.notifications = s.notifications)
    (hx : x.phase = .idle ∨ x.phase = .pend ∧ x.bDone = false) : Shape (t.setClient c x) xs fl := by
  have hposted : x.phase.Posted = false := by
    obtain hx | ⟨hx, -⟩ := hx
    all_goals
      rw [hx]
      rfl
  refine h.of_client (c := c) hsched
    (fun d hd => (setClient_of_ne t c x hd).trans (congrFun hclient d)) hring
    (fun _ _ => Iff.rfl) ?_ (fun hr => ?_) h.flight_nodup (fun _ _ => Iff.rfl) ?_ (fun y _ => ?_) ?_
      (fun d _ => ?_) ?_
    (fun hi => ?_) h.walk ?_
  · refine iff_of_false (h.notMem_of_not_posted (by rw [hp]; rfl)) fun hu => ?_
    have := hu.1.1
    rw [setClient_self, hposted] at this
    simp at this
  · have := (h.removed c hr).1
    rw [hp] at this
    simp [ClientPhase.Posted] at this
  · rw [h.flight, hp, setClient_self]
    obtain hx | ⟨hx, -⟩ := hx
    all_goals simp [hx, ClientPhase.InFlight]
  · change t.mutex = _ ↔ _
    rw [hmutex]
  · change t.mutex = _ ↔ _
    rw [hmutex, h.owner, hp, setClient_self]
    obtain hx | ⟨hx, -⟩ := hx
    all_goals simp [hx, ClientPhase.Holding]
  · change d ∈ t.waiters ↔ _
    rw [hwaiters]
  · change c ∈ t.waiters ↔ _
    rw [hwaiters, h.waiting, hp, setClient_self]
    obtain hx | ⟨hx, -⟩ := hx
    all_goals simp [hx]
  · rw [setClient_self] at hi ⊢
    obtain hx | ⟨-, hx⟩ := hx
    · rw [hx] at hi
      simp at hi
    · exact hx
  · change _ ≤ t.notifications + _ + _
    rw [hnote]
    exact h.enough

/-- The links of a frame that is not in use are not those of the list. -/
theorem ring_reuse (h : Shape s xs fl) (hp : (s.client c).phase = .idle) (next prev : Option ι) :
    Ring ((s.links.setNext (some c) next).setPrev (some c) prev) none (xs.map some) := by
  have hnot : c ∉ xs := h.notMem_of_not_posted (by rw [hp]; rfl)
  have hne : ∀ x ∈ none :: xs.map some, x ≠ some c := by
    rintro x hx rfl
    exact hnot (by simpa using hx)
  refine h.ring.congr (fun x hx => ?_) fun x hx => ?_
  · exact Function.update_of_ne (hne x hx) ..
  · exact Function.update_of_ne (hne x hx) ..

end Client

/-! ### The scheduler

The scheduler takes requests out, also with the mutex. Between two of its steps the list can have
grown at the head, which is before the cut. -/

section Sched

theorem take (h : Shape s xs fl) (hp : s.sched = .take) (hn : 0 < s.notifications) :
    Shape { s with notifications := s.notifications - 1, sched := .pend } xs fl := by
  have henough := h.enough
  have hlocked := h.locked
  rw [hp] at henough hlocked
  refine h.of_sched rfl rfl rfl (by rw [hp]; rfl) (fun _ => Iff.rfl) hlocked trivial ?_
  change _ ≤ s.notifications - 1 + _ + 1
  change _ ≤ _ + _ + 0 at henough
  omega

/-- The scheduler takes the mutex to walk the queue. -/
theorem pend_sched (h : Shape s xs fl) (hp : s.sched = .pend) (hm : s.mutex = none) :
    Shape { s with
      mutex := some none
      sched := .loop (s.links.next none) (s.links.next (s.links.next none)) } xs fl := by
  have henough := h.enough
  rw [hp] at henough
  refine h.of_sched rfl rfl rfl
    (by rw [hp]; rfl) (fun c => by simp [hm]) (by simp [SchedulerPhase.Locked]) ?_ ?_
  · change SchedulerPhase.Walk (.loop (s.links.next none) (s.links.next (s.links.next none))) xs
    rw [h.first_next]
    cases hxs : xs with
    | nil => trivial
    | cons x ys => exact ⟨[], ys, rfl, h.next_of_split (show xs = [] ++ x :: ys from hxs)⟩
  · change _ ≤ s.notifications + _ + SchedulerPhase.debt (.loop (s.links.next none) _)
    rw [h.first_next]
    cases xs with
    | nil => exact Nat.zero_le _
    | cons x ys => exact henough

/-- The scheduler has come to the end of the queue. -/
theorem leave {next : Option ι} (h : Shape s xs fl) (hp : s.sched = .loop none next) :
    Shape { s with sched := .release } xs fl := by
  have henough := h.enough
  have hlocked := h.locked
  rw [hp] at henough hlocked
  exact h.of_sched rfl rfl rfl (by rw [hp]; rfl) (fun _ => Iff.rfl) hlocked trivial henough

/-- The scheduler gives the mutex back to execute a request. -/
theorem enter {p : ι} {next : Option ι} (h : Shape s xs fl) (hp : s.sched = .loop (some p) next) :
    Shape { s with mutex := none, sched := .exec p next (s.client p).req.hBlock } xs fl := by
  have henough := h.enough
  have hlocked := h.locked
  have hwalk := h.walk
  rw [hp] at henough hlocked hwalk
  have hm : s.mutex = some none := hlocked.mpr rfl
  exact h.of_sched rfl rfl rfl
    (by rw [hp]; rfl) (fun c => by simp [hm]) (by simp [SchedulerPhase.Locked]) hwalk henough

/-- The scheduler takes the mutex again, after the request was executed. -/
theorem repend {p : ι} {next : Option ι} (h : Shape s xs fl) (hp : s.sched = .repend p next)
    (hm : s.mutex = none) :
    Shape { s with mutex := some none, sched := .del p next } xs fl := by
  have henough := h.enough
  have hwalk := h.walk
  rw [hp] at henough hwalk
  exact h.of_sched rfl rfl rfl
    (by rw [hp]; rfl) (fun c => by simp [hm]) (by simp [SchedulerPhase.Locked]) hwalk henough

theorem release_sched (h : Shape s xs fl) (hp : s.sched = .release) :
    Shape { s with mutex := none, sched := .take } xs fl := by
  have henough := h.enough
  have hlocked := h.locked
  rw [hp] at henough hlocked
  have hm : s.mutex = some none := hlocked.mpr rfl
  exact h.of_sched rfl rfl rfl
    (by rw [hp]; rfl) (fun c => by simp [hm]) (by simp [SchedulerPhase.Locked]) trivial henough

variable [DecidableEq ι]

/-- A request is executed while it is still in the queue. -/
theorem exec {p : ι} {next : Option ι} {blkdev retval : ℕ} (log : List (Execution ι))
    (h : Shape s xs fl) (hp : s.sched = .exec p next blkdev) :
    Shape ({ s with sched := .repend p next, log := log }.setClient p
    { s.client p with retval := retval }) xs fl := by
  have henough := h.enough
  have hlocked := h.locked
  have hwalk := h.walk
  rw [hp] at henough hlocked hwalk
  -- the result that is written does not matter here: the client does not look at it yet
  have ht : Shape { s with sched := .repend p next, log := log } xs fl :=
    h.of_sched rfl rfl rfl (by rw [hp]; rfl) (fun _ => Iff.rfl) hlocked hwalk henough
  have hself := setClient_self { s with sched := .repend p next, log := log } p
    { s.client p with retval := retval }
  refine ht.of_client (c := p) rfl (fun d hd => setClient_of_ne _ p _ hd) ht.ring
    (fun _ _ => Iff.rfl) ?_
    (fun
      hr => by
      simp [SchedulerPhase.removed] at hr) ht.flight_nodup (fun _ _ => Iff.rfl) ?_
      (fun _ _ => Iff.rfl) ?_
    (fun _ _ => Iff.rfl) ?_ (fun hf => ?_) hwalk henough
  · rw [ht.queued]
    unfold Unserved
    rw [hself]
  · rw [ht.flight, hself]
  · rw [hself]
    exact ht.owner p
  · rw [hself]
    exact ht.waiting p
  · rw [hself] at hf ⊢
    exact ht.fresh p hf

theorem del {p : ι} {next : Option ι} {as bs : List ι} (h : Shape s (as ++ p :: bs) fl)
    (hp : s.sched = .del p next) (hnext : next = bs.head?) :
    Shape { s with links := s.links.unlink (some p), sched := .done p next } (as ++ bs) fl := by
  have henough := h.enough
  have hlocked := h.locked
  have hqueued := h.queued
  have hremoved : s.sched.removed = none := by
    rw [hp]
    rfl
  rw [hp] at henough hlocked
  have hnodup : p ∉ as ++ bs := (List.nodup_middle.mp h.nodup).notMem
  refine ⟨?_, fun c => ?_, fun c hc => ?_, h.flight_nodup, h.flight, h.owner, hlocked, h.waiting,
    h.fresh, ⟨as, bs, rfl, hnext⟩, ?_⟩
  · have hring := h.ring
    rw [List.map_append, List.map_cons] at hring
    have := hring.unlink
    rwa [← List.map_append] at this
  · have hc := h.queued c
    rw [hremoved] at hc
    by_cases hcp : c = p
    · refine iff_of_false (hcp ▸ hnodup) fun hu => hu.2 ?_
      rw [hcp]
      rfl
    · have hne : SchedulerPhase.removed (.done p next) ≠ some c :=
        fun he => hcp (Option.some.inj he).symm
      refine Iff.trans ?_ (hc.trans ⟨fun hu => ⟨hu.1, hne⟩, fun hu => ⟨hu.1, by simp⟩⟩)
      simp [hcp]
  · obtain rfl : p = c := Option.some.inj hc
    exact ((h.queued p).mp (by simp)).1
  · rw [List.length_append, List.length_cons] at henough
    change _ ≤ s.notifications + _ + 0
    change _ ≤ _ + _ + 1 at henough
    rw [List.length_append]
    omega

/-- The client is told its result, and the walk goes on with the request read before. -/
theorem done {p : ι} {next : Option ι} (h : Shape s xs fl) (hp : s.sched = .done p next) :
    Shape ({ s with sched := .setBits next }.setClient p { s.client p with bDone := true }) xs
      fl := by
  have henough := h.enough
  have hlocked := h.locked
  have hwalk := h.walk
  have hunserved := h.removed p (by rw [hp]; rfl)
  have hremoved : s.sched.removed = some p := by
    rw [hp]
    rfl
  rw [hp] at henough hlocked hwalk
  have hself := setClient_self { s with sched := .setBits next } p { s.client p with bDone := true }
  have hother : ∀ d, d ≠ p →
      ({ s with sched := .setBits next }.setClient p { s.client p with bDone := true }).client d =
      s.client d :=
    fun d hd => setClient_of_ne _ p _ hd
  refine ⟨h.ring, fun c => ?_, fun c hc => ?_, h.flight_nodup, fun c => ?_, fun c => ?_, hlocked,
    fun c => ?_, fun c hc => ?_, hwalk, henough⟩
  · by_cases hcp : c = p
    · subst hcp
      refine iff_of_false (fun hmem => ?_) fun hu => ?_
      · exact ((h.queued c).mp hmem).2 hremoved
      · have := hu.1.2
        rw [hself] at this
        simp at this
    · rw [h.queued, unserved_congr (hother c hcp), hremoved]
      refine and_congr_right fun _ => iff_of_true (fun he => hcp (Option.some.inj he).symm)
        fun he => ?_
      simp [BlockState.setClient, SchedulerPhase.removed] at he
  · simp [BlockState.setClient, SchedulerPhase.removed] at hc
  · rw [h.flight]
    by_cases hcp : c = p
    · rw [hcp, hself]
    · rw [hother c hcp]
  · by_cases hcp : c = p
    · rw [hcp, hself]
      exact h.owner p
    · rw [hother c hcp]
      exact h.owner c
  · by_cases hcp : c = p
    · rw [hcp, hself]
      exact h.waiting p
    · rw [hother c hcp]
      exact h.waiting c
  · by_cases hcp : c = p
    · rw [hcp, hself] at hc
      have hposted := hunserved.1
      obtain hc | hc := hc
      all_goals
        rw [hc] at hposted
        simp [ClientPhase.Posted] at hposted
    · rw [hother c hcp] at hc ⊢
      exact h.fresh c hc

/-- The tasks that wait are woken up; to the list they are what they were. -/
theorem setBits_client (h : Shape s xs fl) (c : ι) :
    s.setBits.client c = s.client c ∧ (s.client c).phase ≠ .blocked ∨
      s.setBits.client c = { s.client c with phase := .test } ∧ (s.client c).phase = .blocked := by
  have hc : s.setBits.client c = if c ∈ s.waiters then { s.client c with phase := .test }
    else s.client c := rfl
  rw [hc]
  split_ifs with hmem
  · exact .inr ⟨rfl, (h.waiting c).mp hmem⟩
  · exact .inl ⟨rfl, fun hb => hmem ((h.waiting c).mpr hb)⟩

theorem setBits {next : Option ι} (h : Shape s xs fl) (hp : s.sched = .setBits next) :
    Shape { s.setBits with sched := .loop next (s.links.next next) } xs fl := by
  have henough := h.enough
  have hlocked := h.locked
  have hwalk := h.walk
  have hremoved : s.sched.removed = none := by
    rw [hp]
    rfl
  rw [hp] at henough hlocked hwalk
  have hunserved : ∀ c, s.setBits.Unserved c ↔ s.Unserved c := by
    intro c
    unfold Unserved
    obtain ⟨hc, -⟩ | ⟨hc, hb⟩ := h.setBits_client c
    · rw [hc]
    · rw [hc, hb]
      rfl
  refine ⟨h.ring, fun c => ?_, fun c hc => ?_, h.flight_nodup, fun c => ?_, fun c => ?_, hlocked,
    fun c => ?_, fun c hc => ?_, ?_, ?_⟩
  · rw [h.queued, ← hunserved c, hremoved]
    exact Iff.rfl
  · simp [SchedulerPhase.removed] at hc
  · obtain ⟨hc, -⟩ | ⟨hc, hb⟩ := h.setBits_client c
    · rw [h.flight, hc]
    · rw [h.flight, hc, hb]
      rfl
  · obtain ⟨hc, -⟩ | ⟨hc, hb⟩ := h.setBits_client c
    · rw [hc]
      exact h.owner c
    · rw [hc]
      refine (h.owner c).trans ?_
      rw [hb]
      rfl
  · obtain ⟨hc, hb⟩ | ⟨hc, hb⟩ := h.setBits_client c
    · rw [hc]
      exact iff_of_false List.not_mem_nil hb
    · rw [hc]
      exact iff_of_false List.not_mem_nil (by simp)
  · obtain ⟨he, -⟩ | ⟨he, -⟩ := h.setBits_client c
    · rw [he] at hc ⊢
      exact h.fresh c hc
    · rw [he] at hc
      simp at hc
  · obtain ⟨as, bs, rfl, rfl⟩ := hwalk
    cases hbs : bs with
    | nil => trivial
    | cons b cs => exact ⟨as, cs, rfl, h.next_of_split (by rw [hbs])⟩
  · exact henough.trans (Nat.le_add_right _ _)

/-- Whatever the scheduler does, the queue is still a ring. -/
theorem sched {retval : ℕ} (h : Shape s xs fl) (hs : SchedMove s retval s') :
    ∃ xs fl, Shape s' xs fl := by
  cases hs with
  | take hp hn => exact ⟨xs, fl, h.take hp hn⟩
  | pend hp hm => exact ⟨xs, fl, h.pend_sched hp hm⟩
  | leave hp => exact ⟨xs, fl, h.leave hp⟩
  | enter hp => exact ⟨xs, fl, h.enter hp⟩
  | exec hp => exact ⟨xs, fl, h.exec _ hp⟩
  | repend hp hm => exact ⟨xs, fl, h.repend hp hm⟩
  | del hp =>
    have hwalk := h.walk
    rw [hp] at hwalk
    obtain ⟨as, bs, rfl, hnext⟩ := hwalk
    exact ⟨as ++ bs, fl, h.del hp hnext⟩
  | done hp => exact ⟨xs, fl, h.done hp⟩
  | setBits hp => exact ⟨xs, fl, h.setBits hp⟩
  | release hp => exact ⟨xs, fl, h.release_sched hp⟩

end Sched

theorem initial (h : Initial s) : Shape s [] [] where
  ring := ⟨h.links.1, h.links.2, by simp⟩
  queued c := iff_of_false List.not_mem_nil fun hu => by
    simpa [Unserved, (h.client c).1, ClientPhase.Posted] using hu.1.1
  removed c hc := by simp [h.sched, SchedulerPhase.removed] at hc
  flight_nodup := List.nodup_nil
  flight c := iff_of_false List.not_mem_nil (by simp [(h.client c).1, ClientPhase.InFlight])
  owner c := by simp [h.mutex, (h.client c).1, ClientPhase.Holding]
  locked := by simp [h.mutex, h.sched, SchedulerPhase.Locked]
  waiting c := by simp [h.waiters, (h.client c).1]
  fresh c hc := by simp [(h.client c).1] at hc
  walk := by
    rw [h.sched]
    trivial
  enough := Nat.zero_le _

variable [DecidableEq ι]

/-- Every action keeps list, mutex and loop in shape. -/
theorem step (h : Shape s xs fl) (hs : s.step a = some s') : ∃ xs fl, Shape s' xs fl := by
  cases a with
  | start c req =>
    simp only [BlockState.step] at hs
    split_ifs at hs with hp
    exact Option.some.inj hs ▸ ⟨xs, fl, h.setClient hp rfl h.ring rfl rfl rfl rfl (.inr ⟨rfl, rfl⟩)⟩
  | reuse c frame next prev =>
    simp only [BlockState.step] at hs
    split_ifs at hs with hp
    exact Option.some.inj hs ▸ ⟨xs, fl, h.setClient hp rfl
      (h.ring_reuse hp next prev) rfl rfl rfl rfl (.inl rfl)⟩
  | client c => exact h.client (stepClient_cases hs)
  | sched retval => exact h.sched (stepSched_cases hs)

end Shape

theorem Reachable.shape [DecidableEq ι] (h₀ : Initial s₀) (h : Reachable s₀ s) :
    ∃ xs fl, Shape s xs fl := by
  induction h with
  | init => exact ⟨[], [], Shape.initial h₀⟩
  | step _ hs ih =>
    obtain ⟨xs, fl, hshape⟩ := ih
    exact hshape.step hs

end BlockState

end BitThunder
