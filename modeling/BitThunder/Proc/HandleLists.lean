import BitThunder.Lib.Ring

/-!
# The lists of handles

`lib/src/handles/bt_handles.c`, `os/src/process/bt_process.c` and `os/src/process/bt_threads.c`, as
far as they link handles. A handle has one link. It is for the list of the processes, or for the
list of the threads or that of the other handles of a process.

The kernel's handle is number `0`. No descriptor is set here, so those that a process inherits are
all `NULL`, and there is nothing to reference or to close in them.

* `WellFormed`, `StepRight`: what is asked of a state, and of a step;
* `Alone`: what is kept while no process is created;
* `handle_lists_iff`: in such runs, which steps are right;
* `destroy_process_stale`: what `BT_DestroyProcess` does with the links of what it closes;
* `create_process_breaks_list`: a run of one step.

Unlinking a cell that is unlinked already is not harmless: the cell's own pointers lead to its
former neighbours, and storing through them takes whatever is between these out of the list. So the
state counts how often each handle was unlinked, and a link followed from a cell that is off its
list is noted.

In runs without processes the three lists are those of the kernel, and every step either adds a
handle behind a head or takes one off, once. A step that is not careful breaks one of the conditions
at once, which is shown for each kind: `BT_CreateProcess` links one cell on two lists, a thread that
another thread closes is unlinked twice, and one that does not clean up is destroyed while it is
linked. That makes the condition exact, step by step.
-/

namespace BitThunder

/-- The heads and links of the lists -/
inductive HandleCell : Type where
  /-- `process_handles` -/
  | processes
  /-- `task.threads` -/
  | threads (p : ℕ)
  /-- `task.handles` -/
  | handles (p : ℕ)
  /-- `h.item` -/
  | item (h : ℕ)
  deriving DecidableEq

/-- `pIf->eType` -/
inductive ListedType : Type where
  | process | thread | other
  deriving DecidableEq

/-- The handles by number; `fresh` have been created. -/
structure HandleLists : Type where
  fresh : ℕ
  links : Links HandleCell
  eType : ℕ → ListedType
  /-- `BT_HANDLE_FLAGS_NO_DESTROY` -/
  noDestroy : ℕ → Bool
  /-- `BT_THREAD_FLAGS_NO_CLEANUP` -/
  noCleanup : ℕ → Bool
  ulReferenceCount : ℕ → ℕ
  /-- how often the last reference was given up -/
  closes : ℕ → ℕ
  /-- how often `bt_list_del` was called -/
  unlinks : ℕ → ℕ
  /-- the kernel's thread is deleted -/
  ended : ℕ → Bool
  /-- `BT_DestroyHandle` was called -/
  freed : ℕ → Bool
  /-- a link was followed from a handle that was unlinked or destroyed -/
  stale : Bool

namespace HandleLists

/-! ## Handles

The cleanup of a handle is chosen by its kind, and each kind unlinks its handle in its own way, or
not at all. -/

/-- `BT_AttachHandle` -/
def btAttachHandle (s : HandleLists) (p : ℕ) (eType : ListedType) (h : ℕ) : HandleLists :=
  { s with
    eType := Function.update s.eType h eType
    links := s.links.insertAfter (.item h) (if eType = .thread then .threads p else .handles p)
    ulReferenceCount := Function.update s.ulReferenceCount h 1 }

/-- `BT_CreateHandleAttached` -/
def btCreateHandleAttached (s : HandleLists) (p : ℕ) (eType : ListedType)
    (noDestroy noCleanup : Bool) : HandleLists :=
  { s.btAttachHandle p eType s.fresh with
    fresh := s.fresh + 1
    noDestroy := Function.update s.noDestroy s.fresh noDestroy
    noCleanup := Function.update s.noCleanup s.fresh noCleanup }

/-- `bt_list_del(&h->h.item)` -/
def btListDel (s : HandleLists) (h : ℕ) : HandleLists :=
  { s with
    links := s.links.unlink (.item h)
    unlinks := Function.update s.unlinks h (s.unlinks h + 1) }

/-- `BT_DetachHandle` -/
def btDetachHandle (s : HandleLists) (h : ℕ) : HandleLists := s.btListDel h

/-- `BT_DestroyHandle` -/
def btDestroyHandle (s : HandleLists) (h : ℕ) : HandleLists :=
  { s with freed := Function.update s.freed h true }

/-- `BT_UnrefHandle` -/
def btUnrefHandle (s : HandleLists) (h : ℕ) : HandleLists :=
  let ulReferenceCount := if s.ulReferenceCount h = 0 then 2 ^ 32 - 1 else s.ulReferenceCount h - 1
  { s with ulReferenceCount := Function.update s.ulReferenceCount h ulReferenceCount }

/-- `thread_cleanup` -/
def threadCleanup (s : HandleLists) (h : ℕ) : HandleLists :=
  { s.btListDel h with ended := Function.update s.ended h true }

/-- `pfnCleanup`; that of a process does nothing, and no other one is about lists. -/
def pfnCleanup (s : HandleLists) (h : ℕ) : HandleLists :=
  if s.eType h = .thread then s.threadCleanup h else s

/-- `BT_CloseHandle`. Where a thread closes its own handle, `BT_kTaskDelete` does not return. -/
def btCloseHandle (s : HandleLists) (own : Bool) (h : ℕ) : HandleLists :=
  let s := s.btUnrefHandle h
  if s.ulReferenceCount h ≠ 0 then s
  else
    let s := { s with closes := Function.update s.closes h (s.closes h + 1) }
    let s := s.pfnCleanup h
    if own = true ∧ s.eType h = .thread then s
    else
      let s := s.btDetachHandle h
      if s.noDestroy h then s else s.btDestroyHandle h

/-! ## Threads and processes

Destroying a process closes its threads and handles one after the other, following a link each time
that may have changed meanwhile. -/

/-- `BT_CreateProcessThread`; the kernel has room for the thread. -/
def btCreateProcessThread (s : HandleLists) (p : ℕ) (noCleanup : Bool) : HandleLists :=
  s.btCreateHandleAttached p .thread true noCleanup

/-- The end of `threadStartup` -/
def threadExit (s : HandleLists) (h : ℕ) : HandleLists :=
  let s := if s.noCleanup h then s else s.btCloseHandle true h
  { s with ended := Function.update s.ended h true }

/-- `bt_thread_cleanup`, called by the idle thread for a thread that is deleted -/
def btThreadCleanup (s : HandleLists) (h : ℕ) : HandleLists := s.btDestroyHandle h

/-- `BT_CreateProcess`, by the process `p` -/
def btCreateProcess (s : HandleLists) (p : ℕ) (noCleanup : Bool) : HandleLists :=
  let h := s.fresh
  let s := s.btCreateHandleAttached p .process false false
  let s := { s with links := (s.links.initHead (.threads h)).initHead (.handles h) }
  let s := s.btCreateProcessThread h noCleanup
  { s with links := s.links.insertAfter (.item h) .processes }

/-- Read the link of a handle. -/
def follow (s : HandleLists) (h : ℕ) : HandleLists :=
  { s with stale := s.stale || s.unlinks h != 0 || s.freed h }

/-- `bt_list_for_each(pos, head) BT_CloseHandle(h)`, from `pos` on. What is read of a handle that is
destroyed may be anything, and so may what is read of another head as a handle: there the walk ends.
-/
def closeEach : ℕ → HandleCell → HandleLists → HandleLists
  | n + 1, .item h, s =>
    let s := (s.btCloseHandle false h).follow h
    if s.freed h then s else closeEach n (s.links.next (.item h)) s
  | _, _, s => s

/-- `BT_DestroyProcess` of another process -/
def btDestroyProcess (s : HandleLists) (p : ℕ) : HandleLists :=
  let s := closeEach (s.fresh + 1) (s.links.next (.threads p)) s
  closeEach (s.fresh + 1) (s.links.next (.handles p)) s

/-- `bt_process_init`, over whatever was in the links -/
def btProcessInit (L : Links HandleCell) : HandleLists where
  fresh := 1
  links :=
    (((L.initHead .processes).insertAfter (.item 0) .processes).initHead (.threads 0)).initHead
    (.handles 0)
  eType _ := .process
  noDestroy _ := false
  noCleanup _ := false
  ulReferenceCount _ := 0
  closes _ := 0
  unlinks _ := 0
  ended _ := false
  freed _ := false
  stale := false

/-! ## Runs

A step is valid if the program could take it. -/

/-- The handle has been created, and its last reference was not given up. -/
def Live (s : HandleLists) (h : ℕ) : Prop := h < s.fresh ∧ s.closes h = 0

/-- A process that is there -/
def IsProcess (s : HandleLists) (p : ℕ) : Prop := s.Live p ∧ s.eType p = .process

/-- What processes do -/
inductive HandleOp : Type where
  /-- `BT_CreateHandleAttached` for a process -/
  | create (p : ℕ) (noDestroy : Bool)
  /-- `BT_CreateProcess` by a process -/
  | createProcess (p : ℕ) (noCleanup : Bool)
  /-- `BT_CreateProcessThread` for a process -/
  | createThread (p : ℕ) (noCleanup : Bool)
  /-- a thread comes to its end -/
  | exit (h : ℕ)
  /-- the idle thread cleans up behind a thread that was deleted -/
  | reap (h : ℕ)
  /-- `BT_CloseHandle`, by another thread if it is that of one -/
  | close (h : ℕ)
  /-- `BT_DestroyProcess` by another process -/
  | destroyProcess (p : ℕ)

/-- What a step does -/
def step (s : HandleLists) : HandleOp → HandleLists
  | .create p noDestroy => s.btCreateHandleAttached p .other noDestroy false
  | .createProcess p noCleanup => s.btCreateProcess p noCleanup
  | .createThread p noCleanup => s.btCreateProcessThread p noCleanup
  | .exit h => s.threadExit h
  | .reap h => s.btThreadCleanup h
  | .close h => s.btCloseHandle false h
  | .destroyProcess p => s.btDestroyProcess p

/-- The step can be made: processes, threads and handles that are named are there. The kernel's
process is neither closed nor destroyed. -/
def Valid (s : HandleLists) : HandleOp → Prop
  | .create p _ | .createProcess p _ | .createThread p _ => s.IsProcess p
  | .exit h => s.Live h ∧ s.eType h = .thread ∧ s.ended h = false
  | .reap h => h < s.fresh ∧ s.eType h = .thread ∧ s.ended h = true ∧ s.freed h = false
  | .close h => s.Live h ∧ h ≠ 0
  | .destroyProcess p => s.IsProcess p ∧ p ≠ 0

/-- The states of runs in which every step is as `ok` allows -/
inductive Reach (ok : HandleLists → HandleOp → Prop) : HandleLists → Prop where
  | init (L : Links HandleCell) : Reach ok (btProcessInit L)
  | step {s : HandleLists} {op : HandleOp} (reach : Reach ok s) (valid : s.Valid op)
    (careful : ok s op) :
      Reach ok (s.step op)

/-! ## What is asked

The lists are well formed after every step, and a process that is destroyed closes each thing it has
once. -/

/-- The head of a list of handles -/
def IsHead (s : HandleLists) : HandleCell → Prop
  | .processes => True
  | .threads p | .handles p => s.IsProcess p
  | .item _ => False

/-- The handle is linked on a list. -/
def On (s : HandleLists) (c : HandleCell) (h : ℕ) : Prop := ∃ ys, Ring s.links c ys ∧ .item h ∈ ys

/-- The lists are circular, with each live handle on one of them and no destroyed one on any;
nothing was unlinked twice, and no link followed that is out of its list. -/
structure WellFormed (s : HandleLists) : Prop where
  /-- every list is a ring -/
  rings : ∀ c, s.IsHead c → ∃ ys, Ring s.links c ys
  /-- a handle that lives is on one list -/
  linked : ∀ h, s.Live h → ∃! c, s.IsHead c ∧ s.On c h
  /-- and one that was destroyed on none -/
  destroyed : ∀ h, s.freed h = true → ∀ c, s.IsHead c → ¬s.On c h
  /-- no handle was taken out twice -/
  once : ∀ h, s.unlinks h ≤ 1
  /-- no list was followed into a handle that was gone -/
  walks : s.stale = false

/-- A step ends well; `BT_DestroyProcess` closes all that the process has, once. -/
def StepRight (s : HandleLists) (op : HandleOp) : Prop :=
  (s.step op).WellFormed ∧ ∀ p, op = .destroyProcess p →
  ∀ h, s.On (.threads p) h ∨ s.On (.handles p) h →
    (s.step op).closes h = 1

/-- No process is created, and none destroyed that has threads or handles; no thread's handle is
closed by another thread; no thread comes to its end that does not clean up. -/
def Careful (s : HandleLists) : HandleOp → Prop
  | .createProcess .. => False
  | .close h => s.eType h ≠ .thread
  | .reap h => s.closes h ≠ 0
  | .destroyProcess p => s.links.next (.threads p) = .threads p ∧
    s.links.next (.handles p) = .handles p
  | _ => True

/-! ## The lists of the kernel's process

The lists have their heads in the handle of the process. Adding and removing a cell keeps all
three. -/

section Lists

variable {L : Links HandleCell} {ts hs as bs : List ℕ} {h : ℕ}

/-- There are the list of processes, with the kernel, and its two lists. -/
structure KernelRings (L : Links HandleCell) (ts hs : List ℕ) : Prop where
  /-- the kernel is the only process -/
  processes : Ring L .processes [.item 0]
  /-- and has these threads -/
  threads : Ring L (.threads 0) (ts.map .item)
  /-- and these handles -/
  handles : Ring L (.handles 0) (hs.map .item)

/-- Making a head of a cell that is on no ring leaves the rings alone. -/
theorem ring_initHead_frame {c c' : HandleCell} {xs : List HandleCell} (hr : Ring L c xs)
    (hc : c' ∉ c :: xs) :
    Ring (L.initHead c') c xs := by
  refine hr.congr (fun x hx => ?_) fun x hx => ?_
  · have hne : x ≠ c' := fun e => hc (e ▸ hx)
    simp [Links.initHead, Links.setNext, Links.setPrev, Function.update_of_ne hne]
  · have hne : x ≠ c' := fun e => hc (e ▸ hx)
    simp [Links.initHead, Links.setNext, Links.setPrev, Function.update_of_ne hne]

theorem mem_map_item : HandleCell.item h ∈ ts.map HandleCell.item ↔ h ∈ ts := by simp

namespace KernelRings

/-- The list of threads has no cell in common with that of the handles. -/
theorem threads_apart (r : KernelRings L ts hs) :
    ∀ x ∈ HandleCell.threads 0 :: ts.map .item, x ∉ HandleCell.handles 0 :: hs.map .item :=
  r.threads.disjoint r.handles (by simp)

theorem handles_apart (r : KernelRings L ts hs) :
    ∀ x ∈ HandleCell.handles 0 :: hs.map .item, x ∉ HandleCell.threads 0 :: ts.map .item :=
  r.handles.disjoint r.threads (by simp)

theorem addThread (r : KernelRings L ts hs) (ht : h ∉ ts) (hh : h ∉ hs) (h0 : h ≠ 0) :
    KernelRings (L.insertAfter (.item h) (.threads 0)) (h :: ts) hs where
  processes := r.threads.insertAfter_frame List.mem_cons_self r.processes
    (r.threads.disjoint r.processes (by simp)) (by simp [h0])
  threads := (show Ring L (.threads 0) ([] ++ ts.map .item) from r.threads).insertAfter
    (by simp [ht])
  handles := r.threads.insertAfter_frame List.mem_cons_self r.handles r.threads_apart (by simp [hh])

theorem addHandle (r : KernelRings L ts hs) (ht : h ∉ ts) (hh : h ∉ hs) (h0 : h ≠ 0) :
    KernelRings (L.insertAfter (.item h) (.handles 0)) ts (h :: hs) where
  processes := r.handles.insertAfter_frame List.mem_cons_self r.processes
    (r.handles.disjoint r.processes (by simp)) (by simp [h0])
  threads := r.handles.insertAfter_frame List.mem_cons_self r.threads r.handles_apart (by simp [ht])
  handles := (show Ring L (.handles 0) ([] ++ hs.map .item) from r.handles).insertAfter
    (by simp [hh])

theorem removeThread (r : KernelRings L (as ++ h :: bs) hs) :
    KernelRings (L.unlink (.item h)) (as ++ bs) hs := by
  have hmem : HandleCell.item h ∈ HandleCell.threads 0 :: (as ++ h :: bs).map .item := by simp
  refine ⟨r.threads.unlink_frame hmem r.processes (r.threads.disjoint r.processes (by simp)), ?_,
    r.threads.unlink_frame hmem r.handles r.threads_apart⟩
  have hring := r.threads
  rw [List.map_append, List.map_cons] at hring
  rw [List.map_append]
  exact hring.unlink

theorem removeHandle (r : KernelRings L ts (as ++ h :: bs)) :
    KernelRings (L.unlink (.item h)) ts (as ++ bs) := by
  have hmem : HandleCell.item h ∈ HandleCell.handles 0 :: (as ++ h :: bs).map .item := by simp
  refine ⟨r.handles.unlink_frame hmem r.processes (r.handles.disjoint r.processes (by simp)),
    r.handles.unlink_frame hmem r.threads r.handles_apart, ?_⟩
  have hring := r.handles
  rw [List.map_append, List.map_cons] at hring
  rw [List.map_append]
  exact hring.unlink

end KernelRings

end Lists

/-- There is no process but the kernel's; its lists are those of its live threads and other handles.
-/
structure Alone (s : HandleLists) (ts hs : List ℕ) : Prop where
  /-- the lists of the kernel -/
  rings : KernelRings s.links ts hs
  /-- the kernel lives -/
  kernel : s.Live 0 ∧ s.eType 0 = .process
  /-- there is no other process -/
  only : ∀ h < s.fresh, s.eType h = .process → h = 0
  /-- the threads that live are on the one list -/
  threads : ∀ h, h ∈ ts ↔ h ≠ 0 ∧ s.Live h ∧ s.eType h = .thread
  /-- the other handles that live on the other -/
  handles : ∀ h, h ∈ hs ↔ h ≠ 0 ∧ s.Live h ∧ s.eType h ≠ .thread
  /-- nobody but their creator refers to them -/
  count : ∀ h, h ≠ 0 → s.Live h → s.ulReferenceCount h = 1
  /-- what was closed was taken out, once -/
  once : ∀ h, s.unlinks h = s.closes h ∧ s.closes h ≤ 1
  /-- what was destroyed had been closed -/
  destroyed : ∀ h, s.freed h = true → s.closes h ≠ 0
  /-- what is not created yet has not -/
  unborn : ∀ h, s.fresh ≤ h → s.closes h = 0
  /-- no list was followed into a handle that was gone -/
  walks : s.stale = false

section Alone

variable {s s' : HandleLists} {ts hs : List ℕ} {h p : ℕ} {c : HandleCell}

/-- A handle is on a list exactly if its item is in the ring. -/
theorem on_iff {ys : List HandleCell} (hr : Ring s.links c ys) : s.On c h ↔ .item h ∈ ys := by
  constructor
  · rintro ⟨ys', hr', hmem⟩
    rwa [hr.fwd.unique hr'.fwd hr.head_notMem hr'.head_notMem]
  · exact fun hmem => ⟨ys, hr, hmem⟩

namespace Alone

theorem isProcess_iff (a : Alone s ts hs) : s.IsProcess p ↔ p = 0 := by
  constructor
  · exact fun hp => a.only p hp.1.1 hp.2
  · rintro rfl
    exact a.kernel

/-- It has two lists, and there is the list of processes. -/
theorem isHead_iff (a : Alone s ts hs) :
    s.IsHead c ↔ c = .processes ∨ c = .threads 0 ∨ c = .handles 0 := by
  cases c with
  | processes => simp [IsHead]
  | threads p => simp [IsHead, a.isProcess_iff]
  | handles p => simp [IsHead, a.isProcess_iff]
  | item h => simp [IsHead]

theorem on_processes (a : Alone s ts hs) : s.On .processes h ↔ h = 0 := by
  rw [on_iff a.rings.processes]
  simp

/-- The live threads are on the list of threads. -/
theorem on_threads (a : Alone s ts hs) :
    s.On (.threads 0) h ↔ h ≠ 0 ∧ s.Live h ∧ s.eType h = .thread := by
  rw [on_iff a.rings.threads, mem_map_item, a.threads]

/-- All other live handles are on the list of handles. -/
theorem on_handles (a : Alone s ts hs) :
    s.On (.handles 0) h ↔ h ≠ 0 ∧ s.Live h ∧ s.eType h ≠ .thread := by
  rw [on_iff a.rings.handles, mem_map_item, a.handles]

/-- Each live handle is on the list of its kind. -/
theorem on_head (a : Alone s ts hs) (hc : s.IsHead c) (hon : s.On c h) :
    s.Live h ∧ c = if h = 0 then .processes else if s.eType h = .thread then .threads 0
      else .handles 0 := by
  rcases a.isHead_iff.mp hc with rfl | rfl | rfl
  · obtain rfl := a.on_processes.mp hon
    exact ⟨a.kernel.1, rfl⟩
  · obtain ⟨h0, hlive, htype⟩ := a.on_threads.mp hon
    exact ⟨hlive, by rw [if_neg h0, if_pos htype]⟩
  · obtain ⟨h0, hlive, htype⟩ := a.on_handles.mp hon
    exact ⟨hlive, by rw [if_neg h0, if_neg htype]⟩

theorem wellFormed (a : Alone s ts hs) : s.WellFormed where
  rings c hc := by
    rcases a.isHead_iff.mp hc with rfl | rfl | rfl
    · exact ⟨_, a.rings.processes⟩
    · exact ⟨_, a.rings.threads⟩
    · exact ⟨_, a.rings.handles⟩
  linked h hlive := by
    refine ⟨if h = 0 then .processes else if s.eType h = .thread then .threads 0
      else .handles 0, ?_, fun c hc => (a.on_head hc.1 hc.2).2⟩
    dsimp only
    split_ifs with h0 htype
    · exact ⟨trivial, a.on_processes.mpr h0⟩
    · exact ⟨a.kernel, a.on_threads.mpr ⟨h0, hlive, htype⟩⟩
    · exact ⟨a.kernel, a.on_handles.mpr ⟨h0, hlive, htype⟩⟩
  destroyed h hfreed c hc hon := a.destroyed h hfreed (a.on_head hc hon).1.2
  once h := by
    rw [(a.once h).1]
    exact (a.once h).2
  walks := a.walks

/-! ## The steps of such runs

Setting up the lists and linking a new cell, for a thread and for any other handle. -/

theorem init (L : Links HandleCell) : Alone (btProcessInit L) [] [] where
  rings := by
    have hprocesses : Ring ((L.initHead .processes).insertAfter (.item 0) .processes) .processes
        [.item 0] :=
      (show Ring _ _ ([] ++ []) from Ring.initHead L .processes).insertAfter (by simp)
    refine ⟨ring_initHead_frame (ring_initHead_frame hprocesses
      (by simp)) (by simp), ?_, Ring.initHead ..⟩
    exact ring_initHead_frame (Ring.initHead ..) (by simp)
  kernel := ⟨⟨Nat.zero_lt_one, rfl⟩, rfl⟩
  only h hlt _ := Nat.lt_one_iff.mp hlt
  threads h := by simp [Live, btProcessInit]
  handles h := by
    simp only [Live, btProcessInit, List.not_mem_nil, false_iff]
    omega
  count h h0 hlive := absurd (Nat.lt_one_iff.mp hlive.1) h0
  once h := ⟨rfl, Nat.zero_le _⟩
  destroyed h hfreed := by cases hfreed
  unborn h _ := rfl
  walks := rfl

/-- A handle that is created for the kernel's process, and is none of a process -/
theorem create (a : Alone s ts hs) {eType : ListedType} (htype : eType ≠ .process)
    (noDestroy noCleanup : Bool) :
    ∃ ts hs, Alone (s.btCreateHandleAttached 0 eType noDestroy noCleanup) ts hs := by
  have hpos : s.fresh ≠ 0 := Nat.ne_of_gt a.kernel.1.1
  have hunborn : ∀ x, s.Live x → x ≠ s.fresh := fun x hl e => absurd hl.1 (e ▸ lt_irrefl _)
  have hts : s.fresh ∉ ts := fun hmem => hunborn _ ((a.threads _).mp hmem).2.1 rfl
  have hhs : s.fresh ∉ hs := fun hmem => hunborn _ ((a.handles _).mp hmem).2.1 rfl
  obtain ⟨t, ht⟩ : ∃ t, t = s.btCreateHandleAttached 0 eType noDestroy noCleanup := ⟨_, rfl⟩
  have hclosed : t.closes = s.closes := by rw [ht]; rfl
  have hfresh : t.fresh = s.fresh + 1 := by rw [ht]; rfl
  have hnew : t.eType s.fresh = eType := by rw [ht]; exact Function.update_self ..
  have hold : ∀ x, x ≠ s.fresh → t.eType x = s.eType x :=
    fun x hx => by rw [ht]; exact Function.update_of_ne hx ..
  have hlive : ∀ x, t.Live x ↔ x = s.fresh ∨ s.Live x := by
    intro x
    unfold Live
    rw [hclosed, hfresh]
    constructor
    · rintro ⟨hlt, hopen⟩
      rcases Nat.lt_succ_iff_lt_or_eq.mp hlt with hlt | rfl
      · exact .inr ⟨hlt, hopen⟩
      · exact .inl rfl
    · rintro (rfl | ⟨hlt, hopen⟩)
      · exact ⟨Nat.lt_succ_self _, a.unborn _ le_rfl⟩
      · exact ⟨Nat.lt_succ_of_lt hlt, hopen⟩
  -- what does not depend on the list it is put on
  have hrest {ts' hs' : List ℕ} (rings : KernelRings t.links ts' hs')
      (threads : ∀ x, x ∈ ts' ↔ x ≠ 0 ∧ t.Live x ∧ t.eType x = .thread)
      (handles : ∀ x, x ∈ hs' ↔ x ≠ 0 ∧ t.Live x ∧ t.eType x ≠ .thread) : Alone t ts' hs' :=
    { rings := rings
      threads := threads
      handles := handles
      kernel := ⟨(hlive 0).mpr (.inr a.kernel.1), (hold 0 hpos.symm).trans a.kernel.2⟩
      only := fun x hlt hx => by
        by_cases hxf : x = s.fresh
        · exact absurd (hnew.symm.trans (hxf ▸ hx)) htype
        · exact a.only x (by omega) (hold x hxf ▸ hx)
      count := fun x h0 hl => by
        by_cases hxf : x = s.fresh
        · rw [ht, hxf]
          exact Function.update_self ..
        · rw [ht]
          exact (Function.update_of_ne hxf ..).trans
            (a.count x h0 (((hlive x).mp hl).resolve_left hxf))
      once := fun x => by rw [ht]; exact a.once x
      destroyed := fun x hx => by rw [hclosed]; exact a.destroyed x (by rw [ht] at hx; exact hx)
      unborn := fun x hx => by rw [hclosed]; exact a.unborn x (by omega)
      walks := by rw [ht]; exact a.walks }
  have hmem {xs : List ℕ} {q : ListedType → Prop} (hxs : ∀ x, x ∈ xs ↔
      x ≠ 0 ∧ s.Live x ∧ q (s.eType x)) (x : ℕ)
      (hx : x ≠ s.fresh) : x ∈ xs ↔ x ≠ 0 ∧ t.Live x ∧ q (t.eType x) := by
    rw [hxs, hold x hx, hlive, or_iff_right hx]
  have hself : s.fresh ≠ 0 ∧ t.Live s.fresh := ⟨hpos, (hlive _).mpr (.inl rfl)⟩
  rw [← ht]
  by_cases hthread : eType = .thread
  · refine ⟨s.fresh :: ts, hs, hrest ?_ (fun x => ?_) fun x => ?_⟩
    · rw [ht, hthread]
      exact a.rings.addThread hts hhs hpos
    · by_cases hx : x = s.fresh
      · subst hx
        exact iff_of_true List.mem_cons_self ⟨hself.1, hself.2, hnew.trans hthread⟩
      · rw [List.mem_cons, or_iff_right hx]
        exact hmem (q := (· = .thread)) a.threads x hx
    · by_cases hx : x = s.fresh
      · subst hx
        exact iff_of_false hhs fun hne => hne.2.2 (hnew.trans hthread)
      · exact hmem (q := (· ≠ .thread)) a.handles x hx
  · refine ⟨ts, s.fresh :: hs, hrest ?_ (fun x => ?_) fun x => ?_⟩
    · have hlinks : t.links = s.links.insertAfter (.item s.fresh) (.handles 0) := by
        rw [ht]
        show s.links.insertAfter (.item s.fresh) (if eType = .thread then .threads 0
            else .handles 0) = _
        rw [if_neg hthread]
      rw [hlinks]
      exact a.rings.addHandle hts hhs hpos
    · by_cases hx : x = s.fresh
      · subst hx
        exact iff_of_false hts fun he => hthread (hnew.symm.trans he.2.2)
      · exact hmem (q := (· = .thread)) a.threads x hx
    · by_cases hx : x = s.fresh
      · subst hx
        exact iff_of_true List.mem_cons_self ⟨hself.1, hself.2,
          fun he => hthread (hnew.symm.trans he)⟩
      · rw [List.mem_cons, or_iff_right hx]
        exact hmem (q := (· ≠ .thread)) a.handles x hx

end Alone

/-! ## Handles that go

The last reference cleans up and destroys. On the way its cell is taken off its list, once. -/

/-- The last reference to a handle was given up: it left its list, once, and no other handle was
destroyed. -/
structure Gone (s t : HandleLists) (h : ℕ) : Prop where
  fresh : t.fresh = s.fresh
  eType : t.eType = s.eType
  /-- the handle has left its list -/
  links : t.links = s.links.unlink (.item h)
  count : ∀ x, x ≠ h → t.ulReferenceCount x = s.ulReferenceCount x
  /-- it has been closed and taken out -/
  closes : t.closes = Function.update s.closes h (s.closes h + 1)
  unlinks : t.unlinks = Function.update s.unlinks h (s.unlinks h + 1)
  /-- and no other handle was destroyed -/
  freed : ∀ x, x ≠ h → t.freed x = s.freed x
  walks : t.stale = s.stale

/-- The last reference to a handle is given up. -/
def unrefLast (s : HandleLists) (h : ℕ) : HandleLists :=
  { s.btUnrefHandle h with closes := Function.update s.closes h (s.closes h + 1) }

/-- The last reference is given up: the handle leaves its list, and is destroyed. -/
theorem btCloseHandle_last (hcount : s.ulReferenceCount h = 1) (own : Bool) :
    s.btCloseHandle own h =
      let t := (s.unrefLast h).pfnCleanup h
      if own = true ∧ t.eType h = .thread then t
      else if (t.btDetachHandle h).noDestroy h then t.btDetachHandle h
        else (t.btDetachHandle h).btDestroyHandle h := by
  have hzero : (s.btUnrefHandle h).ulReferenceCount h = 0 := by simp [btUnrefHandle, hcount]
  exact if_neg (not_not.mpr hzero)

theorem unrefLast_count {x : ℕ} (hx : x ≠ h) :
    (s.unrefLast h).ulReferenceCount x = s.ulReferenceCount x :=
  Function.update_of_ne hx ..

/-- `BT_CloseHandle` of a handle that is none of a thread -/
theorem Gone.close (hcount : s.ulReferenceCount h = 1) (htype : s.eType h ≠ .thread) :
    Gone s (s.btCloseHandle false h) h := by
  have hclean : (s.unrefLast h).pfnCleanup h = s.unrefLast h := if_neg htype
  rw [btCloseHandle_last hcount, hclean]
  dsimp only
  rw [if_neg (fun hown => Bool.false_ne_true hown.1)]
  split_ifs
  · exact ⟨rfl, rfl, rfl, fun x hx => unrefLast_count hx, rfl, rfl, fun x _ => rfl, rfl⟩
  · exact ⟨rfl, rfl, rfl, fun x hx => unrefLast_count hx, rfl, rfl,
      fun x hx => Function.update_of_ne hx .., rfl⟩

/-- `BT_CloseHandle` of its own handle by a thread -/
theorem Gone.own (hcount : s.ulReferenceCount h = 1) (htype : s.eType h = .thread) :
    Gone s (s.btCloseHandle true h) h := by
  have hclean : (s.unrefLast h).pfnCleanup h = (s.unrefLast h).threadCleanup h := if_pos htype
  rw [btCloseHandle_last hcount, hclean]
  dsimp only
  rw [if_pos ⟨rfl, htype⟩]
  exact ⟨rfl, rfl, rfl, fun x hx => unrefLast_count hx, rfl, rfl, fun x _ => rfl, rfl⟩

/-- `BT_CloseHandle` of a thread's handle by another thread -/
theorem close_thread_unlinks (hcount : s.ulReferenceCount h = 1) (htype : s.eType h = .thread) :
    (s.btCloseHandle false h).unlinks h = s.unlinks h + 2 := by
  have hclean : (s.unrefLast h).pfnCleanup h = (s.unrefLast h).threadCleanup h := if_pos htype
  have htwice : (((s.unrefLast h).threadCleanup h).btDetachHandle h).unlinks h =
      s.unlinks h + 2 := by
    simp [btDetachHandle, threadCleanup, btListDel, unrefLast, btUnrefHandle]
  rw [btCloseHandle_last hcount, hclean]
  dsimp only
  rw [if_neg (fun hown => Bool.false_ne_true hown.1)]
  split_ifs
  · exact htwice
  · exact htwice

/-- Without one of its members -/
theorem mem_cut {xs ys : List ℕ} {x : ℕ} (hnd : (xs ++ h :: ys).Nodup) :
    x ∈ xs ++ ys ↔ x ≠ h ∧ x ∈ xs ++ h :: ys := by
  have hh : h ∉ xs ++ ys := (List.nodup_middle.mp hnd).notMem
  simp only [List.mem_append, List.mem_cons] at hh ⊢
  constructor
  · exact fun hx => ⟨fun e => hh (e ▸ hx), hx.imp_right .inr⟩
  · rintro ⟨hne, hx⟩
    exact hx.imp_right (·.resolve_left hne)

theorem nodup_of_ring {L : Links HandleCell} {xs : List ℕ} (hr : Ring L c (xs.map .item)) :
    xs.Nodup :=
  (List.nodup_cons.mp hr.nodup).2.of_map

namespace Alone

theorem gone {t : HandleLists} (a : Alone s ts hs) (g : Gone s t h) (h0 : h ≠ 0) (hl : s.Live h) :
    ∃ ts hs, Alone t ts hs := by
  have hlive : ∀ x, t.Live x ↔ x ≠ h ∧ s.Live x := by
    intro x
    unfold Live
    rw [g.fresh, g.closes]
    by_cases hx : x = h
    · rw [hx, Function.update_self]
      simp
    · rw [Function.update_of_ne hx]
      simp [hx]
  -- what does not depend on the list it was on
  have hrest {ts' hs' : List ℕ} (rings : KernelRings t.links ts' hs')
      (threads : ∀ x, x ∈ ts' ↔ x ≠ h ∧ x ∈ ts) (handles : ∀ x, x ∈ hs' ↔
        x ≠ h ∧ x ∈ hs) : Alone t ts' hs' :=
    { rings := rings
      kernel := ⟨(hlive 0).mpr ⟨h0.symm, a.kernel.1⟩, by rw [g.eType]; exact a.kernel.2⟩
      only := fun x hlt hx => a.only x (g.fresh ▸ hlt) (g.eType ▸ hx)
      threads := fun x => by
        rw [threads, a.threads, hlive, g.eType]
        tauto
      handles := fun x => by
        rw [handles, a.handles, hlive, g.eType]
        tauto
      count := fun x hx0 hx => by
        obtain ⟨hne, hx⟩ := (hlive x).mp hx
        rw [g.count x hne]
        exact a.count x hx0 hx
      once := fun x => by
        rw [g.unlinks, g.closes, (a.once h).1]
        by_cases hx : x = h
        · rw [hx, Function.update_self, Function.update_self, hl.2]
          exact ⟨rfl, le_rfl⟩
        · rw [Function.update_of_ne hx, Function.update_of_ne hx]
          exact a.once x
      destroyed := fun x hx => by
        rw [g.closes]
        by_cases hxh : x = h
        · rw [hxh, Function.update_self]
          exact Nat.succ_ne_zero _
        · rw [Function.update_of_ne hxh]
          exact a.destroyed x (g.freed x hxh ▸ hx)
      unborn := fun x hx => by
        have hxh : x ≠ h := fun e => absurd hl.1 (not_lt.mpr (e ▸ g.fresh ▸ hx))
        rw [g.closes, Function.update_of_ne hxh]
        exact a.unborn x (g.fresh ▸ hx)
      walks := g.walks.trans a.walks }
  have hout {xs : List ℕ} (hx : h ∉ xs) (x : ℕ) : x ∈ xs ↔ x ≠ h ∧ x ∈ xs :=
    ⟨fun hmem => ⟨fun e => hx (e ▸ hmem), hmem⟩, And.right⟩
  by_cases htype : s.eType h = .thread
  · have hhs : h ∉ hs := fun hmem => ((a.handles h).mp hmem).2.2 htype
    obtain ⟨as, bs, rfl⟩ := List.append_of_mem ((a.threads h).mpr ⟨h0, hl, htype⟩)
    refine ⟨as ++ bs, hs, hrest ?_ (fun x => mem_cut (nodup_of_ring a.rings.threads)) (hout hhs)⟩
    rw [g.links]
    exact a.rings.removeThread
  · have hts : h ∉ ts := fun hmem => htype ((a.threads h).mp hmem).2.2
    obtain ⟨as, bs, rfl⟩ := List.append_of_mem ((a.handles h).mpr ⟨h0, hl, htype⟩)
    refine ⟨ts, as ++ bs, hrest ?_ (hout hts) fun x => mem_cut (nodup_of_ring a.rings.handles)⟩
    rw [g.links]
    exact a.rings.removeHandle

/-- Nothing in these lists depends on which threads are deleted. -/
theorem withEnded (a : Alone s ts hs) (ended : ℕ → Bool) : Alone { s with ended := ended } ts hs :=
  ⟨a.rings, a.kernel, a.only, a.threads, a.handles, a.count, a.once, a.destroyed, a.unborn, a.walks⟩

theorem exit (a : Alone s ts hs) (hl : s.Live h) (htype : s.eType h = .thread) :
    ∃ ts hs, Alone (s.threadExit h) ts hs := by
  have h0 : h ≠ 0 := by
    rintro rfl
    rw [a.kernel.2] at htype
    cases htype
  have hbefore : ∃ ts hs, Alone (if s.noCleanup h then s else s.btCloseHandle true h) ts hs := by
    split_ifs
    · exact ⟨ts, hs, a⟩
    · exact a.gone (Gone.own (a.count h h0 hl) htype) h0 hl
  obtain ⟨ts', hs', a'⟩ := hbefore
  exact ⟨ts', hs', a'.withEnded _⟩

/-- The cleanup of a thread that was closed is left with nothing to do. -/
theorem reap (a : Alone s ts hs) (hcloses : s.closes h ≠ 0) :
    Alone (s.btThreadCleanup h) ts hs where
  rings := a.rings
  kernel := a.kernel
  only := a.only
  threads := a.threads
  handles := a.handles
  count := a.count
  once := a.once
  destroyed x hx := by
    by_cases hxh : x = h
    · exact hxh ▸ hcloses
    · refine a.destroyed x ?_
      rw [← hx]
      exact (Function.update_of_ne hxh ..).symm
  unborn := a.unborn
  walks := a.walks

theorem step {op : HandleOp} (a : Alone s ts hs) (valid : s.Valid op) (careful : s.Careful op) :
    ∃ ts hs, Alone (s.step op) ts hs := by
  cases op with
  | create p noDestroy =>
    obtain rfl := a.isProcess_iff.mp valid
    exact a.create (by decide) _ _
  | createProcess p noCleanup => exact careful.elim
  | createThread p noCleanup =>
    obtain rfl := a.isProcess_iff.mp valid
    exact a.create (by decide) _ _
  | exit h => exact a.exit valid.1 valid.2.1
  | reap h => exact ⟨ts, hs, a.reap careful⟩
  | close h => exact a.gone (Gone.close (a.count h valid.2 valid.1) careful) valid.2 valid.1
  | destroyProcess p => exact absurd (a.isProcess_iff.mp valid.1) valid.2

/-- The lists, in every run of such steps -/
theorem run (reach : Reach Careful s) : ∃ ts hs, Alone s ts hs := by
  induction reach with
  | init L => exact ⟨[], [], init L⟩
  | step reach valid careful ih =>
    obtain ⟨ts, hs, a⟩ := ih
    exact a.step valid careful

/-! ## The steps that are not careful

For each of them, which of the conditions breaks. -/

/-- `BT_CreateProcess` has the handle of the process linked twice: the kernel's list of handles
leads into that of the processes. -/
theorem createProcess (a : Alone s ts hs) (noCleanup : Bool) :
    ¬(s.btCreateProcess 0 noCleanup).WellFormed := by
  intro hwf
  have hfresh : s.fresh ≠ 0 := Nat.ne_of_gt a.kernel.1.1
  have hnext : (s.btCreateProcess 0 noCleanup).links.next (.handles 0) = .item s.fresh := by
    simp [btCreateProcess, btCreateProcessThread, btCreateHandleAttached, btAttachHandle,
      Links.insertAfter, Links.link, Links.initHead, Links.setNext, Links.setPrev, hfresh.symm]
  have hprev : (s.btCreateProcess 0 noCleanup).links.prev (.item s.fresh) = .processes := by
    simp [btCreateProcess, Links.insertAfter, Links.link, Links.setNext, Links.setPrev]
  have hkernel : (s.btCreateProcess 0 noCleanup).IsProcess 0 := by
    refine ⟨⟨Nat.lt_succ_of_lt (Nat.lt_succ_of_lt a.kernel.1.1), a.kernel.1.2⟩, ?_⟩
    simp [btCreateProcess, btCreateProcessThread, btCreateHandleAttached, btAttachHandle,
      hfresh.symm, a.kernel.2]
  obtain ⟨ys, hring⟩ := hwf.rings (.handles 0) hkernel
  have hback := (show Ring _ _ ([] ++ ys) from hring).prev_at
  rw [← hring.fwd.first, hnext, hprev] at hback
  cases hback

/-- A thread's handle that another thread closes is unlinked by `thread_cleanup`, and by
`BT_DetachHandle`. -/
theorem closeThread (a : Alone s ts hs) (hl : s.Live h) (h0 : h ≠ 0) (htype : s.eType h = .thread) :
    ¬(s.btCloseHandle false h).WellFormed := by
  intro hwf
  have honce := hwf.once h
  rw [close_thread_unlinks (a.count h h0 hl) htype] at honce
  omega

/-- A thread that did not close its handle is on the list still when it is destroyed. -/
theorem reapLinked (a : Alone s ts hs) (hlt : h < s.fresh) (htype : s.eType h = .thread)
    (hcloses : s.closes h = 0) :
    ¬(s.btThreadCleanup h).WellFormed := by
  intro hwf
  have h0 : h ≠ 0 := by
    rintro rfl
    rw [a.kernel.2] at htype
    cases htype
  have hon : s.On (.threads 0) h := a.on_threads.mpr ⟨h0, ⟨hlt, hcloses⟩, htype⟩
  exact hwf.destroyed h (Function.update_self ..) (.threads 0) a.kernel hon

/-- A step does right exactly if it is careful. -/
theorem stepRight_iff {op : HandleOp} (a : Alone s ts hs) (valid : s.Valid op) :
    s.StepRight op ↔ s.Careful op := by
  constructor
  · intro hright
    have hwf := hright.1
    cases op with
    | create p noDestroy => trivial
    | createProcess p noCleanup =>
      obtain rfl := a.isProcess_iff.mp valid
      exact a.createProcess noCleanup hwf
    | createThread p noCleanup => trivial
    | exit h => trivial
    | reap h => exact fun hcloses => a.reapLinked valid.1 valid.2.1 hcloses hwf
    | close h => exact fun htype => a.closeThread valid.1 valid.2 htype hwf
    | destroyProcess p => exact absurd (a.isProcess_iff.mp valid.1) valid.2
  · intro careful
    obtain ⟨ts', hs', a'⟩ := a.step valid careful
    refine ⟨a'.wellFormed, ?_⟩
    rintro p rfl
    exact absurd (a.isProcess_iff.mp valid.1) valid.2

end Alone

end Alone

/-! ## The lists of a process that is destroyed

The link that the loop follows next lies in a cell that has been taken off its list. -/

section Destroy

variable {s : HandleLists} {h p : ℕ}

/-- Closing a handle does not itself read a stale cell. -/
theorem btCloseHandle_stale (s : HandleLists) (own : Bool) (h : ℕ) :
    (s.btCloseHandle own h).stale = s.stale := by
  have hclean : ∀ t : HandleLists, (t.pfnCleanup h).stale = t.stale := fun t => by
    unfold pfnCleanup
    split_ifs <;> rfl
  unfold btCloseHandle
  dsimp only
  split_ifs
  · rfl
  · exact hclean _
  · exact hclean _
  · exact hclean _

/-- That a link was followed which is out of its list is not forgotten. -/
theorem closeEach_stale (n : ℕ) (c : HandleCell) (hstale : s.stale = true) :
    (closeEach n c s).stale = true := by
  induction n generalizing c s with
  | zero => cases c <;> exact hstale
  | succ n ih =>
    cases c with
    | item h =>
      have hnext : ((s.btCloseHandle false h).follow h).stale = true := by
        simp [follow, btCloseHandle_stale, hstale]
      unfold closeEach
      dsimp only
      split_ifs
      · exact hnext
      · exact ih _ hnext
    | _ => exact hstale

/-- A walk that closes the handle it is at reads a cell that is off the list. -/
theorem closeEach_item (n : ℕ) (hcount : s.ulReferenceCount h = 1) :
    (closeEach (n + 1) (.item h) s).stale = true := by
  have hunlinked : (s.btCloseHandle false h).unlinks h ≠ 0 := by
    by_cases htype : s.eType h = .thread
    · rw [close_thread_unlinks hcount htype]
      omega
    · rw [(Gone.close hcount htype).unlinks, Function.update_self]
      omega
  have hnext : ((s.btCloseHandle false h).follow h).stale = true := by simp [follow, hunlinked]
  unfold closeEach
  dsimp only
  split_ifs
  · exact hnext
  · exact closeEach_stale _ _ hnext

/-- `BT_DestroyProcess` of a process that has a thread or a handle reads the link of what it has
closed. -/
theorem destroy_process_stale (hcount : s.ulReferenceCount h = 1)
    (hfirst : s.links.next (.threads p) = .item h ∨
      s.links.next (.threads p) = .threads p ∧ s.links.next (.handles p) = .item h) :
    (s.btDestroyProcess p).stale = true := by
  unfold btDestroyProcess
  rcases hfirst with hthread | ⟨hnone, hhandle⟩
  · rw [hthread]
    exact closeEach_stale _ _ (closeEach_item _ hcount)
  · rw [hnone]
    show (closeEach (s.fresh + 1) (s.links.next (.handles p)) s).stale = true
    rw [hhandle]
    exact closeEach_item _ hcount

end Destroy

/-! ## The runs

All steps up to the last are careful. The last one is right exactly if it is careful too. -/

/-- While no process is created, no thread's handle closed by another thread, and no thread cleaned
up that did not close its own, the lists are well formed; and after such a run these are the steps
that are right. -/
theorem handle_lists_iff {s : HandleLists} (reach : Reach Careful s) :
    s.WellFormed ∧ ∀ op, s.Valid op → (s.StepRight op ↔ s.Careful op) := by
  obtain ⟨ts, hs, a⟩ := Alone.run reach
  exact ⟨a.wellFormed, fun op valid => a.stepRight_iff valid⟩

/-- A thread of the kernel's process that runs to its end -/
theorem handle_lists_thread :
    Reach Careful (((btProcessInit ⟨id, id⟩).step (.createThread 0 false)).step (.exit 1)) ∧
      (((btProcessInit ⟨id, id⟩).step (.createThread 0 false)).step (.exit 1)).WellFormed := by
  have hreach : Reach Careful (((btProcessInit ⟨id, id⟩).step (.createThread 0 false)).step
      (.exit 1)) := by
    refine .step
      (.step (.init _)
      ⟨⟨by decide, by decide⟩, by decide⟩ trivial) ⟨⟨by decide, by decide⟩, ?_, by decide⟩ trivial
    decide
  exact ⟨hreach, (handle_lists_iff hreach).1⟩

/-- The kernel's process creates a process. -/
theorem create_process_breaks_list :
    Reach (fun _ _ => True) ((btProcessInit ⟨id, id⟩).step (.createProcess 0 false)) ∧
      ¬((btProcessInit ⟨id, id⟩).step (.createProcess 0 false)).WellFormed :=
  ⟨.step (.init _) ⟨⟨by decide, by decide⟩, by decide⟩ trivial, (Alone.init _).createProcess false⟩

end HandleLists

end BitThunder
