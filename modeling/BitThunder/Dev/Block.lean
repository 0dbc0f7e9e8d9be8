import BitThunder.Lib.Ring

/-!
# The block scheduler

`os/src/devman/bt_block.c`, with `BT_CONFIG_BLOCK_SCHEDULER`. A client puts a request, which
lies on its stack, at the head of `g_requests`, notifies the scheduler thread and waits until
`bDone` is set. The scheduler walks along the list with `bt_list_for_each_safe`; while it
executes a request it does not hold the mutex of the list.

Clients are of any type `ι`; a client has one request at a time, in its frame. The cells of
the list are the head (`none`) and the frames. An action is what a thread does without being
interrupted: one call of the kernel, or one access to what is shared.

The frames are reused. When a call has returned, the same frame may hold the client's next request,
with other links in the same cell; and the scheduler may at that time still have the address of the
old one in `next`. What it does with it is a question to the invariant, not to the model, which
stores through whatever address it has.

The event group is the kernel's: setting bits wakes every task that waits for them, and clears the
bits that those tasks asked to have cleared. All clients wait for the same bit.
-/

namespace BitThunder

/-- The fields of a `bt_block_request` that say what is asked for. -/
structure BlockRequest : Type where
  hBlock : ℕ
  writeNRead : Bool
  ulAddress : ℕ
  ulBlocks : ℕ
  pBuffer : ℕ
  deriving DecidableEq

/-- Where a client is. -/
inductive ClientPhase : Type where
  /-- outside of the block layer -/
  | idle
  /-- `bt_block_schedule`: before `BT_kMutexPend` -/
  | pend
  /-- with the mutex, before `bt_list_add` -/
  | insert
  /-- before `BT_kMutexRelease` -/
  | release
  /-- before `BT_kTaskNotify` -/
  | notify
  /-- `bt_block_exec_request`: before the test of `bDone` -/
  | test
  /-- before `BT_kEventGroupWaitBits` -/
  | wait
  /-- in `BT_kEventGroupWaitBits` -/
  | blocked
  deriving DecidableEq

/-- A client and the request in its frame. `ticket` counts its requests. -/
structure BlockClient : Type where
  phase : ClientPhase
  req : BlockRequest
  bDone : Bool
  retval : ℕ
  ticket : ℕ
  deriving DecidableEq

/-- Where the scheduler is; `pos` and `next` are those of the loop. -/
inductive SchedulerPhase (ι : Type) : Type where
  /-- before, or in, `BT_kTaskNotifyTake` -/
  | take
  /-- before `BT_kMutexPend` -/
  | pend
  /-- at the test of the loop -/
  | loop (pos next : Option ι)
  /-- without the mutex, before the request is executed; `blkdev` has been read -/
  | exec (pos : ι) (next : Option ι) (blkdev : ℕ)
  /-- before the second `BT_kMutexPend` -/
  | repend (pos : ι) (next : Option ι)
  /-- before `bt_list_del` -/
  | del (pos : ι) (next : Option ι)
  /-- before `bDone` is set -/
  | done (pos : ι) (next : Option ι)
  /-- before `BT_kEventGroupSetBits` -/
  | setBits (next : Option ι)
  /-- behind the loop, before `BT_kMutexRelease` -/
  | release
  deriving DecidableEq

/-- One execution of a request: by whom it was made, which of his it was, the device and the
request as they were found, and the result. -/
structure Execution (ι : Type) : Type where
  client : ι
  ticket : ℕ
  device : ℕ
  req : BlockRequest
  retval : ℕ
  deriving DecidableEq

/-- What the threads share, the threads, and a record of what has happened. -/
structure BlockState (ι : Type) : Type where
  /-- `g_requests` and the `item`s in the frames -/
  links : Links (Option ι)
  /-- `g_list_mutex`: the scheduler (`none`) or a client has it, or nobody -/
  mutex : Option (Option ι)
  /-- notifications of the scheduler thread that it has not taken -/
  notifications : ℕ
  /-- bit 1 of `g_event_group` -/
  bit : Bool
  /-- the tasks that wait for it -/
  waiters : List ι
  client : ι → BlockClient
  sched : SchedulerPhase ι
  /-- the requests that have been made, by client and ticket -/
  issued : ι → ℕ → BlockRequest
  /-- what has been executed -/
  log : List (Execution ι)
  /-- what the calls have returned: client, ticket, value -/
  returned : List (ι × ℕ × ℕ)

/-- What a thread does next. -/
inductive BlockAction (ι : Type) : Type where
  /-- `BT_BlockRead` or `BT_BlockWrite`, of a valid handle -/
  | start (c : ι) (req : BlockRequest)
  /-- a frame that is not in use is overwritten -/
  | reuse (c : ι) (frame : BlockClient) (next prev : Option ι)
  /-- a client does its next step -/
  | client (c : ι)
  /-- the scheduler does its next step; `retval` is what the driver returns, if it is asked -/
  | sched (retval : ℕ)

namespace BlockState

variable {ι : Type} [DecidableEq ι]

/-- Change a client. -/
def setClient (s : BlockState ι) (c : ι) (x : BlockClient) : BlockState ι :=
  { s with client := Function.update s.client c x }

/-- A client goes on to another place. -/
def goto (s : BlockState ι) (c : ι) (phase : ClientPhase) : BlockState ι :=
  s.setClient c { s.client c with phase := phase }

/-- The step of a client; `none` if it cannot go on. -/
def stepClient (s : BlockState ι) (c : ι) : Option (BlockState ι) :=
  match (s.client c).phase with
  | .idle => none
  | .pend => if s.mutex = none then some ({ s with mutex := some (some c) }.goto c .insert)
    else none
  | .insert => some ({ s with links := s.links.insertAfter (some c) none }.goto c .release)
  | .release => some ({ s with mutex := none }.goto c .notify)
  | .notify => some ({ s with notifications := s.notifications + 1 }.goto c .test)
  | .test =>
    if (s.client c).bDone then
      some ({ s with returned := (c, (s.client c).ticket, (s.client c).retval) :: s.returned }.goto
        c .idle)
    else some (s.goto c .wait)
  | .wait =>
    if s.bit then some ({ s with bit := false }.goto c .test)
    else some ({ s with waiters := c :: s.waiters }.goto c .blocked)
  | .blocked => none

/-- `BT_kEventGroupSetBits`: every task that waits goes on; they all have asked for the bit to
be cleared. -/
def setBits (s : BlockState ι) : BlockState ι :=
  { s with
    bit := s.waiters.isEmpty
    waiters := []
    client := fun c => if c ∈ s.waiters then { s.client c with phase := .test } else s.client c }

/-- The step of the scheduler; `none` if it cannot go on. -/
def stepSched (s : BlockState ι) (retval : ℕ) : Option (BlockState ι) :=
  match s.sched with
  | .take =>
    if s.notifications = 0 then none
    else some { s with notifications := s.notifications - 1, sched := .pend }
  | .pend =>
    if s.mutex = none then
      let pos := s.links.next none
      some { s with mutex := some none, sched := .loop pos (s.links.next pos) }
    else none
  | .loop none _ => some { s with sched := .release }
  | .loop (some p) next =>
    some { s with mutex := none, sched := .exec p next (s.client p).req.hBlock }
  | .exec p next blkdev =>
    some ({ s with
      sched := .repend p next
      log := ⟨p, (s.client p).ticket, blkdev, (s.client p).req, retval⟩ :: s.log }.setClient p
        { s.client p with retval := retval })
  | .repend p next => if s.mutex = none
    then some { s with mutex := some none, sched := .del p next } else none
  | .del p next => some { s with links := s.links.unlink (some p), sched := .done p next }
  | .done p next => some ({ s with sched := .setBits next }.setClient p
    { s.client p with bDone := true })
  | .setBits next =>
    some { s.setBits with sched := .loop next (s.links.next next) }
  | .release => some { s with mutex := none, sched := .take }

/-- One action. -/
def step (s : BlockState ι) : BlockAction ι → Option (BlockState ι)
  | .start c req =>
    if (s.client c).phase = .idle then
      let ticket := (s.client c).ticket + 1
      some
        ({ s with issued := Function.update s.issued c (Function.update (s.issued c) ticket req)
        }.setClient c
        ⟨.pend, req, false, (s.client c).retval, ticket⟩)
    else none
  | .reuse c frame next prev =>
    if (s.client c).phase = .idle then
      some ({ s with links := (s.links.setNext (some c) next).setPrev (some c) prev }.setClient c
        { frame with phase := .idle, ticket := (s.client c).ticket })
    else none
  | .client c => s.stepClient c
  | .sched retval => s.stepSched retval

/-- A run. -/
def run (s : BlockState ι) : List (BlockAction ι) → Option (BlockState ι)
  | [] => some s
  | a :: as => (s.step a).bind fun s => s.run as

/-- `bt_block_init`: an empty list, no client in the block layer. -/
structure Initial (s : BlockState ι) : Prop where
  /-- the list of requests is empty -/
  links : s.links.next none = none ∧ s.links.prev none = none
  /-- nobody holds the mutex of the list -/
  mutex : s.mutex = none
  /-- no request has been announced -/
  notifications : s.notifications = 0
  bit : s.bit = false
  waiters : s.waiters = []
  /-- no client has called yet -/
  client : ∀ c, (s.client c).phase = .idle ∧ (s.client c).ticket = 0
  /-- the scheduler waits for a request -/
  sched : s.sched = .take
  log : s.log = []
  returned : s.returned = []

/-- The states that can be reached, by any number of clients and in any order of steps. -/
inductive Reachable (s₀ : BlockState ι) : BlockState ι → Prop
  | init : Reachable s₀ s₀
  | step {s s' : BlockState ι} {a : BlockAction ι} (h : Reachable s₀ s) (hs : s.step a = some s') :
      Reachable s₀ s'

end BlockState

end BitThunder
