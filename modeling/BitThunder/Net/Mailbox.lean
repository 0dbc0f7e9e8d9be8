import BitThunder.Mm.Defs
import Mathlib.Logic.Function.Basic
import Mathlib.Data.List.Basic

/-!
# The mailboxes of the TCP/IP port

`sys_mbox_post`, `sys_mbox_trypost`, `sys_arch_mbox_fetch` and `sys_arch_mbox_tryfetch` of
`os/src/net/sys_arch.c`, over the queue of `os/src/process/bt_queue.c`. The kernel queue is a
bounded FIFO; one call of it is one step, and between the calls any thread may run. `sys_mbox_post`
gives up at once on a full queue and has no result to say so.

* `MboxState.Intact`: every message whose post has returned is in the mailbox or was fetched, once,
  in the order of the posts, and nothing else was fetched;
* `mbox_loses_nothing`: this holds in every state of a run in which no `sys_mbox_post` meets a full
  queue;
* `mbox_post_vanishes`: otherwise it can fail.

Calls are numbered, so that two posts of the same message are different, and losing or doubling one
of them can be told. A step is one call of the kernel. What holds between the steps is that the
posts that were sent are those that were fetched and then those that are in the queue, in this
order; a thread that has called and not sent, or sent and not returned, has its post in one of two
fields of its own.

A full queue refuses. `sys_mbox_trypost` says so to its caller, and is not counted as a post;
`sys_mbox_post` returns as if it had been sent, and this is the one way in which a message vanishes.
-/

namespace BitThunder

/-- The values of `err_t` that are returned here -/
inductive ErrT : Type where
  /-- `ERR_OK` -/
  | ok
  /-- `ERR_MEM` -/
  | mem
  deriving DecidableEq

/-- `SYS_ARCH_TIMEOUT` -/
def sysArchTimeout : ℕ := 0xFFFFFFFF

/-- `SYS_MBOX_EMPTY` -/
def sysMboxEmpty : ℕ := sysArchTimeout

/-- A kernel queue -/
structure KQueue (α : Type) : Type where
  /-- `ulElements` -/
  size : ℕ
  items : List α
  deriving DecidableEq

namespace KQueue

variable {α : Type}

/-- `BT_QueueSendToBack`, with timeout 0 -/
def btQueueSendToBack (q : KQueue α) (x : α) : Bool × KQueue α :=
  if q.items.length < q.size then (true, { q with items := q.items ++ [x] }) else (false, q)

/-- `BT_QueueSend`, with timeout 0: the kernel sends to the back. -/
def btQueueSend (q : KQueue α) (x : α) : Bool × KQueue α := q.btQueueSendToBack x

/-- `BT_QueueReceive`: the message, or that there is none when the time is up -/
def btQueueReceive (q : KQueue α) : Option (α × KQueue α) :=
  match q.items with
  | [] => none
  | x :: xs => some (x, { q with items := xs })

end KQueue

/-- A call of one of the two posting functions: its number, and the message. Numbers are given out
in the order of the calls, and tell calls with the same message apart. -/
abbrev PostCall (α : Type) : Type := ℕ × α

/-- Where a thread is, named for what it does next. -/
inductive MboxThread (α : Type) : Type where
  /-- not in one of the functions -/
  | idle
  /-- `BT_QueueSendToBack`, in `sys_mbox_post` -/
  | post (c : PostCall α)
  /-- return from `sys_mbox_post` -/
  | posted (c : PostCall α)
  /-- `BT_QueueSend`, in `sys_mbox_trypost` -/
  | trypost (c : PostCall α)
  /-- return from `sys_mbox_trypost` -/
  | tryposted (c : PostCall α) (xReturn : ErrT)
  /-- `BT_QueueReceive`, in `sys_arch_mbox_fetch` -/
  | fetch (ulStartTime ulTimeOut : ℕ)
  /-- `BT_QueueReceive`, in `sys_arch_mbox_tryfetch` -/
  | tryfetch
  /-- return from one of the fetching functions, with the message in `*ppvBuffer` -/
  | fetched (msg : Option α) (ulReturn : ℕ)
  deriving DecidableEq

/-- A mailbox and the threads `ι` that use it, with what has happened so far. -/
structure MboxState (ι α : Type) : Type where
  mbox : KQueue (PostCall α)
  thread : ι → MboxThread α
  /-- how many posts have been called -/
  calls : ℕ
  /-- the calls of `sys_mbox_post` and the successful ones of `sys_mbox_trypost`, in the order of
  their sends -/
  posted : List (PostCall α)
  /-- those of them that have returned -/
  returned : List (PostCall α)
  /-- what was received, in order -/
  fetched : List (PostCall α)

/-- What can happen next. -/
inductive MboxAction (ι α : Type) : Type where
  /-- a thread calls `sys_mbox_post` -/
  | sysMboxPost (t : ι) (msg : α)
  /-- a thread calls `sys_mbox_trypost` -/
  | sysMboxTrypost (t : ι) (msg : α)
  /-- a thread calls `sys_arch_mbox_fetch` at some tick -/
  | sysArchMboxFetch (t : ι) (now ulTimeOut : ℕ)
  /-- a thread calls `sys_arch_mbox_tryfetch` -/
  | sysArchMboxTryfetch (t : ι)
  /-- a thread goes on, at some tick -/
  | go (t : ι) (now : ℕ)

/-- What `sys_arch_mbox_fetch` returns for a message -/
def fetchReturn (ulStartTime ulEndTime ulTimeOut : ℕ) : ℕ :=
  let ulElapsed := wordSub ulEndTime ulStartTime
  if ulTimeOut ≠ 0 then ulElapsed else if ulElapsed = 0 then 1 else ulElapsed

namespace MboxState

variable {ι α : Type} [DecidableEq ι]

/-- A new mailbox -/
def init (ι α : Type) (size : ℕ) : MboxState ι α := ⟨⟨size, []⟩, fun _ => .idle, 0, [], [], []⟩

/-- A thread gets to its next step. -/
def goto (s : MboxState ι α) (t : ι) (p : MboxThread α) : MboxState ι α :=
  { s with thread := Function.update s.thread t p }

/-- A thread that is in none of the functions calls one that posts. -/
def call (s : MboxState ι α) (t : ι) (p : PostCall α → MboxThread α) (msg : α) : MboxState ι α :=
  match s.thread t with
  | .idle => { s.goto t (p (s.calls, msg)) with calls := s.calls + 1 }
  | _ => s

/-- The send of `sys_mbox_post`, whose result is not looked at -/
def sendPost (s : MboxState ι α) (t : ι) (c : PostCall α) : MboxState ι α :=
  { s.goto t (.posted c) with mbox := (s.mbox.btQueueSendToBack c).2, posted := s.posted ++ [c] }

/-- The send of `sys_mbox_trypost` -/
def sendTrypost (s : MboxState ι α) (t : ι) (c : PostCall α) : MboxState ι α :=
  let r := s.mbox.btQueueSend c
  if r.1 then { s.goto t (.tryposted c .ok) with mbox := r.2, posted := s.posted ++ [c] }
  else { s.goto t (.tryposted c .mem) with mbox := r.2 }

/-- A receive: `found` is where the thread goes with a message, `empty` where it goes without one.
-/
def receive (s : MboxState ι α) (t : ι) (found : α → MboxThread α) (empty : MboxThread α) :
    MboxState ι α :=
  match s.mbox.btQueueReceive with
  | some (c, q) => { s.goto t (found c.2) with mbox := q, fetched := s.fetched ++ [c] }
  | none => s.goto t empty

/-- A thread goes on. A receive with nothing in the mailbox is one whose time is up; with
`ulTimeOut` 0 it is called again. -/
def go (s : MboxState ι α) (t : ι) (now : ℕ) : MboxState ι α :=
  match s.thread t with
  | .idle => s
  | .post c => s.sendPost t c
  | .posted c => { s.goto t .idle with returned := s.returned ++ [c] }
  | .trypost c => s.sendTrypost t c
  | .tryposted c .ok => { s.goto t .idle with returned := s.returned ++ [c] }
  | .tryposted _ .mem => s.goto t .idle
  | .fetch ulStartTime ulTimeOut =>
    s.receive t (fun msg => .fetched (some msg) (fetchReturn ulStartTime now ulTimeOut))
      (if ulTimeOut ≠ 0 then .fetched none sysArchTimeout else .fetch ulStartTime ulTimeOut)
  | .tryfetch => s.receive t (fun msg => .fetched (some msg) 0) (.fetched none sysMboxEmpty)
  | .fetched _ _ => s.goto t .idle

/-- One step -/
def step (s : MboxState ι α) : MboxAction ι α → MboxState ι α
  | .sysMboxPost t msg => s.call t .post msg
  | .sysMboxTrypost t msg => s.call t .trypost msg
  | .sysArchMboxFetch t now ulTimeOut =>
    match s.thread t with
    | .idle => s.goto t (.fetch now ulTimeOut)
    | _ => s
  | .sysArchMboxTryfetch t =>
    match s.thread t with
    | .idle => s.goto t .tryfetch
    | _ => s
  | .go t now => s.go t now

/-- The states of the runs whose steps all satisfy `ok`, on a mailbox of some size. -/
inductive Run (ok : MboxState ι α → MboxAction ι α → Prop) (size : ℕ) : MboxState ι α → Prop where
  | nil : Run ok size (init ι α size)
  | cons {s : MboxState ι α} (run : Run ok size s) {a : MboxAction ι α} (h : ok s a) : Run ok size
    (s.step a)

/-- No message is lost, doubled, reordered or made up. -/
structure Intact (s : MboxState ι α) : Prop where
  /-- the posts are what was fetched and then what is still there, in this order -/
  order : s.posted = s.fetched ++ s.mbox.items
  /-- each once -/
  once : (s.fetched ++ s.mbox.items).Nodup
  /-- and a post that has returned is among them -/
  kept : ∀ c ∈ s.returned, c ∈ s.fetched ∨ c ∈ s.mbox.items

/-- No `sys_mbox_post` sends to a full queue. -/
def Careful (s : MboxState ι α) : MboxAction ι α → Prop
  | .go t _ => ∀ c, s.thread t = .post c → s.mbox.items.length < s.mbox.size
  | _ => True

end MboxState

namespace MboxThread

variable {α : Type}

/-- The post that has been called and not yet sent -/
def pending : MboxThread α → Option (PostCall α)
  | post c => some c
  | trypost c => some c
  | _ => none

/-- The post that has been sent and not yet returned -/
def sent : MboxThread α → Option (PostCall α)
  | posted c => some c
  | tryposted c .ok => some c
  | _ => none

end MboxThread

namespace MboxState

variable {ι α : Type} {s : MboxState ι α}

/-- What holds between the steps. -/
structure Ok (s : MboxState ι α) : Prop where
  /-- what was fetched, and then what is in the mailbox, is what was posted -/
  order : s.posted = s.fetched ++ s.mbox.items
  /-- no message was posted twice -/
  once : s.posted.Nodup
  /-- a message belongs to a call that was made -/
  past : ∀ c ∈ s.posted, c.1 < s.calls
  /-- a message that is to be posted has not been -/
  pending : ∀ t c, (s.thread t).pending = some c → c.1 < s.calls ∧ c ∉ s.posted
  /-- and belongs to one thread -/
  apart : ∀ t u c, (s.thread t).pending = some c → (s.thread u).pending = some c → t = u
  /-- one that was sent has been posted -/
  sent : ∀ t c, (s.thread t).sent = some c → c ∈ s.posted
  /-- and so was one whose call has returned -/
  kept : ∀ c ∈ s.returned, c ∈ s.posted

theorem Ok.init (size : ℕ) : (init ι α size).Ok where
  order := rfl
  once := List.nodup_nil
  past := by simp [MboxState.init]
  pending := by simp [MboxState.init, MboxThread.pending]
  apart := by simp [MboxState.init, MboxThread.pending]
  sent := by simp [MboxState.init, MboxThread.sent]
  kept := by simp [MboxState.init]

/-- The invariant implies that nothing is lost, doubled or out of order. -/
theorem Ok.intact (h : s.Ok) : s.Intact where
  order := h.order
  once := h.order ▸ h.once
  kept c hc := List.mem_append.mp (h.order ▸ h.kept c hc)

variable [DecidableEq ι]

theorem thread_goto (t u : ι) (p : MboxThread α) : (s.goto t p).thread u = if u = t then p
    else s.thread u :=
  Function.update_apply ..

/-- If a thread goes where it has nothing to send, a post that has not been sent is another
thread's. -/
theorem pending_goto {t u : ι} {p : MboxThread α} {c : PostCall α} (hp : p.pending = none)
    (hu : ((s.goto t p).thread u).pending = some c) : u ≠ t ∧ (s.thread u).pending = some c := by
  rw [thread_goto] at hu
  split_ifs at hu with hut
  · exact absurd (hp.symm.trans hu) (by simp)
  · exact ⟨hut, hu⟩

/-- A thread without a message of its own may go anywhere. -/
theorem Ok.goto (h : s.Ok) (t : ι) {p : MboxThread α} (hp : p.pending = none) (hs : p.sent = none) :
    (s.goto t p).Ok where
  order := h.order
  once := h.once
  past := h.past
  pending u c hu := h.pending u c (pending_goto hp hu).2
  apart u v c hu hv := h.apart u v c (pending_goto hp hu).2 (pending_goto hp hv).2
  sent u c hu := by
    rw [thread_goto] at hu
    split_ifs at hu
    · exact absurd (hs.symm.trans hu) (by simp)
    · exact h.sent u c hu
  kept := h.kept

/-- A thread that calls has its message under way. -/
theorem Ok.call (h : s.Ok) (t : ι) {p : PostCall α → MboxThread α} (msg : α)
    (hp : ∀ c, (p c).pending = some c) (hs : ∀ c, (p c).sent = none) : (s.call t p msg).Ok := by
  unfold MboxState.call
  split
  · -- the number of the call is new
    have hnew : ∀ c : PostCall α, c.1 < s.calls → some (s.calls, msg) ≠ some c := by
      rintro c hc he
      obtain rfl := Option.some.inj he
      exact Nat.lt_irrefl _ hc
    refine ⟨h.order, h.once, fun c hc => Nat.lt_succ_of_lt (h.past c hc), fun u c hu => ?_,
      fun u v c hu hv => ?_, fun u c hu => ?_, h.kept⟩
    · simp only [thread_goto] at hu
      split_ifs at hu
      · rw [hp] at hu
        obtain rfl := Option.some.inj hu
        exact ⟨Nat.lt_succ_self _, fun hc => Nat.lt_irrefl _ (h.past _ hc)⟩
      · obtain ⟨hlt, hnot⟩ := h.pending u c hu
        exact ⟨Nat.lt_succ_of_lt hlt, hnot⟩
    · simp only [thread_goto] at hu hv
      split_ifs at hu hv with hut hvt hvt
      · exact hut.trans hvt.symm
      · rw [hp] at hu
        exact absurd hu (hnew c (h.pending v c hv).1)
      · rw [hp] at hv
        exact absurd hv (hnew c (h.pending u c hu).1)
      · exact h.apart u v c hu hv
    · simp only [thread_goto] at hu
      split_ifs at hu
      · rw [hs] at hu
        exact absurd hu (by simp)
      · exact h.sent u c hu
  · exact h

/-- A message gets into the queue. -/
theorem Ok.send (h : s.Ok) {t : ι} {c : PostCall α} {p : MboxThread α} {q : KQueue (PostCall α)}
    (hc : (s.thread t).pending = some c) (hp : p.pending = none) (hs : p.sent = some c)
    (hq : q.items = s.mbox.items ++ [c]) :
    Ok { s.goto t p with mbox := q, posted := s.posted ++ [c] } := by
  have hnot := (h.pending t c hc).2
  have hother : ∀ u d, (s.thread u).pending = some d → u ≠ t → d ∉ s.posted ++ [c] := by
    intro u d hu hut hd
    rcases List.mem_append.mp hd with hd | hd
    · exact (h.pending u d hu).2 hd
    · obtain rfl := List.mem_singleton.mp hd
      exact hut (h.apart u t d hu hc)
  refine ⟨?_, ?_, fun d hd => ?_, fun u d hu => ?_, fun u v d hu hv => ?_, fun u d hu => ?_,
    fun d hd => ?_⟩
  · change s.posted ++ [c] = s.fetched ++ q.items
    rw [hq, h.order, List.append_assoc]
  · exact List.nodup_append.mpr ⟨h.once, List.nodup_singleton c, fun d hd e he hde => by
      rw [List.mem_singleton.mp he] at hde
      exact hnot (hde ▸ hd)⟩
  · rcases List.mem_append.mp hd with hd | hd
    · exact h.past d hd
    · obtain rfl := List.mem_singleton.mp hd
      exact (h.pending t d hc).1
  · obtain ⟨hut, hu⟩ := pending_goto hp hu
    exact ⟨(h.pending u d hu).1, hother u d hu hut⟩
  · exact h.apart u v d (pending_goto hp hu).2 (pending_goto hp hv).2
  · simp only [thread_goto] at hu
    split_ifs at hu
    · obtain rfl := Option.some.inj (hs.symm.trans hu)
      exact List.mem_append_right _ (List.mem_singleton_self _)
    · exact List.mem_append_left _ (h.sent u d hu)
  · exact List.mem_append_left _ (h.kept d hd)

/-- A message that is taken leaves the mailbox once. -/
theorem Ok.receive (h : s.Ok) (t : ι) {found : α → MboxThread α} {empty : MboxThread α}
    (hf : ∀ msg, (found msg).pending = none ∧ (found msg).sent = none)
    (he : empty.pending = none ∧ empty.sent = none) : (s.receive t found empty).Ok := by
  unfold MboxState.receive KQueue.btQueueReceive
  cases hitems : s.mbox.items with
  | nil => exact h.goto t he.1 he.2
  | cons c rest =>
    have hmove := h.goto t (hf c.2).1 (hf c.2).2
    refine { hmove with order := ?_ }
    change s.posted = s.fetched ++ [c] ++ rest
    rw [h.order, hitems, List.append_assoc, List.singleton_append]

/-- A post that returns was sent. -/
theorem Ok.ret (h : s.Ok) {t : ι} {c : PostCall α} (hc : (s.thread t).sent = some c) :
    Ok { s.goto t .idle with returned := s.returned ++ [c] } := by
  have hmove := h.goto t (p := .idle) rfl rfl
  refine { hmove with kept := fun d hd => ?_ }
  rcases List.mem_append.mp hd with hd | hd
  · exact h.kept d hd
  · obtain rfl := List.mem_singleton.mp hd
    exact h.sent t d hc

/-- A careful step of a thread keeps the invariant. -/
theorem Ok.go (h : s.Ok) (t : ι) (now : ℕ) (hok : s.Careful (.go t now)) : (s.go t now).Ok := by
  unfold MboxState.go
  split
  · exact h
  · rename_i c hc
    have hroom : s.mbox.btQueueSendToBack c =
        (true, { s.mbox with items := s.mbox.items ++ [c] }) :=
      if_pos (hok c hc)
    refine h.send (by rw [hc]; rfl) rfl rfl ?_
    rw [hroom]
  · rename_i c hc
    exact h.ret (by rw [hc]; rfl)
  · rename_i c hc
    unfold sendTrypost KQueue.btQueueSend KQueue.btQueueSendToBack
    by_cases hroom : s.mbox.items.length < s.mbox.size
    · rw [if_pos hroom]
      exact h.send (by rw [hc]; rfl) rfl rfl rfl
    · rw [if_neg hroom]
      exact h.goto t rfl rfl
  · rename_i c hc
    exact h.ret (by rw [hc]; rfl)
  · exact h.goto t rfl rfl
  · refine h.receive t (fun _ => ⟨rfl, rfl⟩) ?_
    split <;> exact ⟨rfl, rfl⟩
  · exact h.receive t (fun _ => ⟨rfl, rfl⟩) ⟨rfl, rfl⟩
  · exact h.goto t rfl rfl

theorem Ok.step (h : s.Ok) (a : MboxAction ι α) (hok : s.Careful a) : (s.step a).Ok := by
  cases a with
  | sysMboxPost t msg => exact h.call t msg (fun _ => rfl) fun _ => rfl
  | sysMboxTrypost t msg => exact h.call t msg (fun _ => rfl) fun _ => rfl
  | sysArchMboxFetch t now ulTimeOut =>
    simp only [MboxState.step]
    split
    · exact h.goto t rfl rfl
    · exact h
  | sysArchMboxTryfetch t =>
    simp only [MboxState.step]
    split
    · exact h.goto t rfl rfl
    · exact h
  | go t now => exact h.go t now hok

theorem Run.ok {size : ℕ} (run : Run Careful size s) : s.Ok := by
  induction run with
  | nil => exact Ok.init size
  | cons _ h ih => exact ih.step _ h

end MboxState

open MboxState

/-- **When a mailbox loses nothing.** Any threads post to a mailbox of any size and fetch from it,
in any order of steps. If no `sys_mbox_post` sends to a full queue, every message whose post has
returned, or was returned `ERR_OK`, is still in the mailbox or has been fetched once, in the order
of the posts, and no other message was fetched. -/
theorem mbox_loses_nothing {ι α : Type} [DecidableEq ι] {size : ℕ} {s : MboxState ι α}
    (run : Run Careful size s) :
    s.Intact :=
  run.ok.intact

/-- A mailbox of one message, which is posted and fetched. -/
theorem mbox_loses_nothing_one : ∃ s :
    MboxState Bool ℕ, Run Careful 1 s ∧ s.fetched = [(0, 10)] ∧ s.Intact := by
  have h₁ : Run Careful 1 ((init Bool ℕ 1).step (.sysMboxPost false 10)) := Run.nil.cons trivial
  have h₂ := h₁.cons (a := .go false 0) fun _ _ => by decide
  have h₃ := h₂.cons (a := .sysArchMboxTryfetch true) trivial
  have h₄ := h₃.cons (a := .go true 0) fun c hc => nomatch
    (show MboxThread.tryfetch = .post c from hc)
  exact ⟨_, h₄, rfl, mbox_loses_nothing h₄⟩

/-- A second message is posted to a mailbox of one; both posts return, and the message is nowhere.
-/
theorem mbox_post_vanishes :
    let s := [.sysMboxPost false 10, .go false 0, .go false 0, .sysMboxPost true 11, .go true 0,
      .go true 0].foldl step (init Bool ℕ 1)
    Run (fun _ _ => True) 1 s ∧ ¬s.Intact := by
  have h₁ : Run (fun _ _ => True) 1 ((init Bool ℕ 1).step (.sysMboxPost false 10)) :=
    Run.nil.cons trivial
  have h₂ := ((h₁.cons (a := .go false 0) trivial).cons (a := .go false 0) trivial)
  have h₃ := h₂.cons (a := .sysMboxPost true 11) trivial
  have h₄ := ((h₃.cons (a := .go true 0) trivial).cons (a := .go true 0) trivial)
  exact ⟨h₄, fun hintact => absurd (hintact.kept (1, 11) (by decide)) (by decide)⟩

end BitThunder
