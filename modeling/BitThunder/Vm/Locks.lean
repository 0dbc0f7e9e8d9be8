import BitThunder.Vm.Space

/-!
# Lock balance

How often each mutex is held is a function of the log. `LockStep p s s' q` says that
a call that held `p` in the state `s` holds `q` in the state `s'`, and released
nothing in between that it did not hold; `Holds p x q` says so of a program,
whatever state it is started in. No assumption on the segment lists is made here:
the segment functions are followed through lists that are not well formed as well.

* `btSegmentAlloc_locks`: `bt_segment_alloc` is the one function that ends with a
  lock less than it was called with, and exactly when it cannot split;
* `locks_balanced_iff`: an operation releases what it acquired unless that happens.

`Holds p x q` is a Hoare triple over the locks alone, with a rule for sequencing, one for a branch
that may be left out, and one for programs whose frame says that they log nothing about locks. The
search loops are run on whatever the pointers are: they come back or they do not, and in neither
case take a lock. This is what makes the result one about every machine state.

`bt_segment_alloc` unlocks the map on its way out when `bt_segment_create` is refused, although it
did not lock it; its callers unlock too. Only the operations that ask for an address anywhere get
there, and the theorem's condition names the state of the heap in which they do.

The last part is about termination, for which lists have to be well formed. With shared segments it
is still not immediate, since a segment that is off the list is merged through its old pointers;
these lead to its former neighbours, which is enough for the walk to end.
-/

namespace BitThunder

variable {σ α β : Type}

/-! ## Holding locks

The log is read from its oldest event on. A mutex that is unlocked while it is not held leaves
nothing to count. -/

/-- How often the mutex `y` is held after the calls `evs` (the last one first), if it
was held `d` times before; `none` if one of them released it while it was not held. -/
def heldAfter (y : Mutex) (d : ℕ) : List Event → Option ℕ
  | [] => some d
  | .lock x :: evs => if x = y then (heldAfter y d evs).map (· + 1) else heldAfter y d evs
  | .unlock x :: evs =>
    if x = y then (heldAfter y d evs).bind fun n => if n = 0 then none else some (n - 1)
    else heldAfter y d evs
  | _ :: evs => heldAfter y d evs

/-- The locks that are held after a log, part by part. -/
theorem heldAfter_append (y : Mutex) (d : ℕ) (evs evs' : List Event) :
    heldAfter y d (evs' ++ evs) = (heldAfter y d evs).bind fun n => heldAfter y n evs' := by
  induction evs' with
  | nil => simp [heldAfter]
  | cons e evs' ih =>
    rw [List.cons_append]
    cases e with
    | lock x =>
      by_cases hx : x = y
      · simp [heldAfter, hx, ih, Option.map_bind]
      · simp [heldAfter, hx, ih]
    | unlock x =>
      by_cases hx : x = y
      · simp [heldAfter, hx, ih, Option.bind_assoc]
      · simp [heldAfter, hx, ih]
    | _ => exact ih

/-- The calls release every mutex as often as they acquire it, and never one that is
not held. -/
def LocksBalanced (evs : List Event) : Prop := ∀ y, heldAfter y 0 evs = some 0

/-- One more hold of `x`. -/
def holding (x : Mutex) (p : Mutex → ℕ) : Mutex → ℕ := Function.update p x (p x + 1)

/-- Between the two states the holds went from `p` to `q`. -/
def LockStep (p : Mutex → ℕ) (s s' : Machine σ) (q : Mutex → ℕ) : Prop :=
  ∃ evs, s'.log = evs ++ s.log ∧ ∀ y, heldAfter y (p y) evs = some (q y)

namespace LockStep

variable {p q r : Mutex → ℕ} {s s₁ s₂ : Machine σ}

theorem of_log_eq (h : s₁.log = s.log) : LockStep p s s₁ p := ⟨[], h, fun _ => rfl⟩

theorem trans (h : LockStep p s s₁ q) (h' : LockStep q s₁ s₂ r) : LockStep p s s₂ r := by
  obtain ⟨evs, he, hh⟩ := h
  obtain ⟨evs', he', hh'⟩ := h'
  refine ⟨evs' ++ evs, by rw [he', he, List.append_assoc], fun y => ?_⟩
  rw [heldAfter_append, hh y, Option.bind_some, hh' y]

theorem lock (x : Mutex) : LockStep p s (s.emit (.lock x)) (holding x p) := by
  refine ⟨[.lock x], rfl, fun y => ?_⟩
  by_cases hx : x = y
  · subst hx
    simp [heldAfter, holding]
  · simp [heldAfter, holding, hx, Function.update_of_ne (Ne.symm hx)]

/-- A lock that is given back is held once less. -/
theorem unlock (x : Mutex) : LockStep (holding x p) s (s.emit (.unlock x)) p := by
  refine ⟨[.unlock x], rfl, fun y => ?_⟩
  by_cases hx : x = y
  · subst hx
    simp [heldAfter, holding]
  · simp [heldAfter, holding, hx, Function.update_of_ne (Ne.symm hx)]

/-- Calls that are not about locks. -/
theorem of_calls {evs : List Event} (h : s₁.log = evs ++ s.log)
    (hn : ∀ e ∈ evs, ∀ x, e ≠ .lock x ∧ e ≠ .unlock x) : LockStep p s s₁ p := by
  refine ⟨evs, h, fun y => ?_⟩
  clear h
  induction evs with
  | nil => rfl
  | cons e evs ih =>
    have hrest := ih fun e' he' => hn e' (List.mem_cons_of_mem _ he')
    have hthis := hn e (List.mem_cons_self ..)
    cases e with
    | lock x => exact absurd rfl (hthis x).1
    | unlock x => exact absurd rfl (hthis x).2
    | _ => exact hrest

theorem of_call {e : Event} (h : s₁.log = e :: s.log) (hn : ∀ x, e ≠ .lock x ∧ e ≠ .unlock x) :
    LockStep p s s₁ p := by
  have h' : s₁.log = [e] ++ s.log := h
  refine of_calls h' fun e' he' => ?_
  obtain rfl := List.mem_singleton.mp he'
  exact hn

end LockStep

/-! ## Programs and locks

The rules, and the services, none of which takes a lock for longer than its call. -/

/-- Started with the holds `p`, the program ends with the holds `q`. -/
def Holds (p : Mutex → ℕ) (x : Prog (Machine σ) α) (q : Mutex → ℕ) : Prop :=
  ∀ s, x.Yields s fun _ s' => LockStep p s s' q

namespace Holds

variable {p q r : Mutex → ℕ} {x y : Prog (Machine σ) α}

theorem pure (a : α) : Holds p (pure a : Prog (Machine σ) α) p :=
  fun _ => Prog.yields_pure.mpr (.of_log_eq rfl)

/-- A sequence holds what its parts hold in turn. -/
theorem bind {f : α → Prog (Machine σ) β} (hx : Holds p x q) (hf : ∀ a, Holds q (f a) r) :
    Holds p (x >>= f) r := by
  intro s
  rw [Prog.yields_bind]
  refine (hx s).mono fun a s₁ h₁ => ?_
  exact (hf a s₁).mono fun _ s₂ h₂ => h₁.trans h₂

theorem read (f : Machine σ → α) : Holds p (Prog.read f) p :=
  fun _ => Prog.yields_read.mpr (.of_log_eq rfl)

theorem ofOption (f : Machine σ → Option α) : Holds p (Prog.ofOption f) p :=
  fun _ => Prog.yields_ofOption.mpr fun _ _ => .of_log_eq rfl

theorem stuck : Holds p (Prog.stuck : Prog (Machine σ) α) q := fun _ => Prog.yields_stuck

theorem update {f : Machine σ → Machine σ} (h : ∀ s, LockStep p s (f s) q) :
    Holds p (Prog.update f) q := fun s => Prog.yields_update.mpr (h s)

theorem service {f : Machine σ → α × Machine σ} (h : ∀ s, LockStep p s (f s).2 q) :
    Holds p (Prog.service f) q := fun s => Prog.yields_service.mpr (h s)

theorem ite {c : Prop} [Decidable c] (hx : Holds p x q) (hy : Holds p y q) :
    Holds p (if c then x else y) q :=
  fun s => Prog.yields_ite.mpr ⟨fun _ => hx s, fun _ => hy s⟩

/-- A step that may be left out has to give back what it takes. -/
theorem when {c : Prop} [Decidable c] {x : Prog (Machine σ) Unit} (hx : Holds p x p) :
    Holds p (Prog.when c x) p := ite hx (pure ())

/-- A program that is known to return and to be quiet about locks. -/
theorem of_frame (h : ∀ s, x.Ensures s fun _ s' => LockStep p s s' q) : Holds p x q :=
  fun s => (h s).yields

end Holds

variable {K : Kernel σ} {p : Mutex → ℕ}

theorem kMalloc_locks (n : ℕ) : Holds p (kMalloc K n) p := by
  refine Holds.service fun s => ?_
  by_cases hz : (K.kMalloc n s.env).1 = 0
  · rw [Machine.kMalloc_refused K hz]
    exact .of_call rfl (by simp)
  · rw [Machine.kMalloc_granted K hz]
    exact .of_call rfl (by simp)

theorem kFree_locks (i : ℕ) : Holds p (kFree K i) p :=
  .update fun _ => .of_call rfl (by simp)

theorem pageAlloc_locks (o : Owner) (n : ℕ) : Holds p (pageAlloc K o n) p := by
  refine Holds.service fun s => ?_
  refine .of_call rfl fun x => ?_
  split <;> simp

theorem pageFree_locks (o : Owner) (pa n : ℕ) : Holds p (pageFree K o pa n) p :=
  .update fun _ => .of_call rfl (by simp)

theorem modifySeg_locks (i : ℕ) (f : Segment → Segment) :
    Holds (σ := σ) p (modifySeg i f) p := .update fun _ => .of_log_eq rfl

theorem modifyMap_locks (m : ℕ) (f : VmMap → VmMap) :
    Holds (σ := σ) p (modifyMap m f) p := .update fun _ => .of_log_eq rfl

theorem memclear_locks (va n : ℕ) : Holds (σ := σ) p (memclear va n) p :=
  .update fun _ => .of_log_eq rfl

theorem memcpy_locks (dst src n : ℕ) : Holds (σ := σ) p (memcpy dst src n) p :=
  .update fun _ => .of_log_eq rfl

theorem btListInitHead_locks (c : Cell) : Holds (σ := σ) p (btListInitHead c) p :=
  .update fun _ => .of_log_eq rfl

theorem mapLock_locks (m : ℕ) : Holds (σ := σ) p (mapLock m) (holding (.map m) p) :=
  .update fun _ => .lock _

theorem mapUnlock_locks (m : ℕ) : Holds (σ := σ) (holding (.map m) p) (mapUnlock m) p :=
  .update fun _ => .unlock _

theorem sharedLock_locks : Holds (σ := σ) p sharedLock (holding .shared p) :=
  .update fun _ => .lock _

theorem sharedUnlock_locks : Holds (σ := σ) (holding .shared p) sharedUnlock p :=
  .update fun _ => .unlock _

theorem btListDel_locks (c : Cell) : Holds (σ := σ) p (btListDel c) p :=
  .update fun _ => .of_log_eq rfl

theorem btMmuMap_locks (h pa va size type : ℕ) : Holds p (btMmuMap K h pa va size type) p := by
  refine .of_frame fun s => (btMmuMap_frame h pa va size type).mono fun _ s' hf => ?_
  obtain ⟨evs, he, ht⟩ := hf.log
  refine .of_calls he fun e hm x => ⟨?_, ?_⟩
  · rintro rfl
    exact ht _ hm
  · rintro rfl
    exact ht _ hm

/-! ## The segment functions

They take no lock of a map. One of them releases one. -/

theorem findSegment_locks (m : ℕ) (t : Segment → Bool) : Holds (σ := σ) p (findSegment m t) p := by
  refine (Holds.ofOption _).bind fun r => ?_
  split
  · exact .pure _
  · exact .pure _

theorem btSegmentCreate_locks (i addr size : ℕ) : Holds p (btSegmentCreate K i addr size) p := by
  refine (kMalloc_locks _).bind fun r => ?_
  split
  · exact .pure _
  · refine Holds.bind (.update fun _ => .of_log_eq rfl) fun _ => ?_
    exact Holds.bind (.update fun _ => .of_log_eq rfl) fun _ => .pure _

theorem unshareLast_locks (i : ℕ) : Holds (σ := σ) p (unshareLast i) p := by
  refine (Holds.read _).bind fun next => (Holds.read _).bind fun prev => Holds.when ?_
  unfold clearShared
  split
  · exact modifySeg_locks _ _
  · exact modifySeg_locks _ _
  · exact modifyMap_locks _ _

theorem mergeNextSegment_locks (m i : ℕ) : Holds p (mergeNextSegment K m i) p := by
  refine (Holds.read _).bind fun c => ?_
  cases c with
  | list next =>
    refine (Holds.read _).bind fun v => Holds.when ?_
    refine (btListDel_locks _).bind fun _ => (modifySeg_locks _ _).bind fun _ => kFree_locks _
  | head m' => exact Holds.ite (.pure _) .stuck
  | shared _ => exact .stuck

theorem mergePrevSegment_locks (m i : ℕ) : Holds p (mergePrevSegment K m i) p := by
  refine (Holds.read _).bind fun c => ?_
  cases c with
  | list prev =>
    refine (Holds.read _).bind fun v => Holds.when ?_
    refine (btListDel_locks _).bind fun _ => (Holds.read _).bind fun w => ?_
    exact (modifySeg_locks _ _).bind fun _ => kFree_locks _
  | head m' => exact Holds.ite (.pure _) .stuck
  | shared _ => exact .stuck

/-- A segment that is freed takes the lock of the shared ones for as long as it needs it. -/
theorem btSegmentFree_locks (m i : ℕ) : Holds p (btSegmentFree K m i) p := by
  refine sharedLock_locks.bind fun _ => (Holds.read _).bind fun v => ?_
  refine (Holds.when ((btListDel_locks _).bind fun _ => unshareLast_locks _)).bind fun _ => ?_
  refine sharedUnlock_locks.bind fun _ => (modifySeg_locks _ _).bind fun _ => ?_
  exact (mergeNextSegment_locks _ _).bind fun _ => mergePrevSegment_locks _ _

theorem reserveTail_locks (m i size : ℕ) (prev : Bool) :
    Holds p (reserveIn.reserveTail K m i size prev) p := by
  refine (Holds.read _).bind fun v => Holds.ite ((btSegmentCreate_locks _ _ _).bind fun r => ?_) ?_
  · split
    · exact (Holds.when (btSegmentFree_locks _ _)).bind fun _ => .pure _
    · exact (modifySeg_locks _ _).bind fun _ => (modifySeg_locks _ _).bind fun _ => .pure _
  · exact (modifySeg_locks _ _).bind fun _ => .pure _

theorem btSegmentReserve_locks (m addr size : ℕ) : Holds p (btSegmentReserve K m addr size) p := by
  refine (findSegment_locks _ _).bind fun r => ?_
  split
  · exact .pure _
  · refine (Holds.read _).bind fun v => Holds.ite ?_ (.pure _)
    refine (Holds.read _).bind fun v => Holds.ite ?_ (reserveTail_locks _ _ _ _)
    refine (btSegmentCreate_locks _ _ _).bind fun r => ?_
    split
    · exact .pure _
    · exact (modifySeg_locks _ _).bind fun _ => reserveTail_locks _ _ _ _

/-- The segment the walk of `bt_segment_alloc` arrives at has to be split, and the
heap refuses. -/
def SplitRefused (K : Kernel σ) (m n : ℕ) (s : Machine σ) : Prop :=
  ∃ i, s.links.search (s.cellTest (allocTest n)) (.head m) s.fresh = some (some (.list i)) ∧
    (s.seg i).size ≠ n ∧ (K.kMalloc segmentBytes s.env).1 = 0

/-- A segment is not created exactly if there is no memory for it. -/
theorem btSegmentCreate_refused {s : Machine σ} (i addr size : ℕ) :
    (btSegmentCreate K i addr size).Yields s fun r _ =>
      r = none ↔ (K.kMalloc segmentBytes s.env).1 = 0 := by
  unfold btSegmentCreate kMalloc
  rw [Prog.yields_bind, Prog.yields_service]
  by_cases hz : (K.kMalloc segmentBytes s.env).1 = 0
  · rw [Machine.kMalloc_refused K hz]
    simp [hz]
  · rw [Machine.kMalloc_granted K hz]
    simp [putSeg, btListAdd, hz]

/-- `bt_segment_alloc` releases the map's mutex when it cannot split. -/
theorem btSegmentAlloc_locks (m size : ℕ) (s : Machine σ) :
    (btSegmentAlloc K m size).Yields s fun r s' =>
      (SplitRefused K m (btPageAlign size) s → r = none ∧
        LockStep (holding (.map m) p) s s' p) ∧
      (¬ SplitRefused K m (btPageAlign size) s → LockStep p s s' p) := by
  unfold btSegmentAlloc findSegment
  simp only [Prog.yields_bind, Prog.yields_ofOption]
  intro r hr
  have hmiss : (∀ i, r ≠ some (.list i)) → ¬ SplitRefused K m (btPageAlign size) s := by
    rintro hne ⟨i, hi, -⟩
    rw [hr] at hi
    exact hne i (Option.some.inj hi)
  split
  · rename_i i
    have hiff : SplitRefused K m (btPageAlign size) s ↔
        (s.seg i).size ≠ btPageAlign size ∧ (K.kMalloc segmentBytes s.env).1 = 0 := by
      constructor
      · rintro ⟨j, hj, hs⟩
        rw [hr] at hj
        cases hj
        exact hs
      · intro hs
        exact ⟨i, hr, hs⟩
    simp only [Prog.yields_pure, Prog.yields_bind, Prog.yields_read, Prog.yields_ite]
    refine ⟨fun hne => ?_, fun heq => ?_⟩
    · intro c s₁ hrun
      have hc := btSegmentCreate_refused _ _ _ _ _ hrun
      have hstep : ∀ q, LockStep q s s₁ q := fun q => btSegmentCreate_locks _ _ _ s _ _ hrun
      cases c with
      | none =>
        simp only [mapUnlock, Prog.yields_bind, Prog.yields_update, Prog.yields_pure]
        exact ⟨fun _ => ⟨trivial, (hstep _).trans (.unlock _)⟩,
          fun hn => absurd (hiff.mpr ⟨hne, hc.mp rfl⟩) hn⟩
      | some j =>
        simp only [modifySeg, Prog.yields_bind, Prog.yields_update, Prog.yields_pure]
        refine ⟨fun hs => ?_, fun _ => (hstep _).trans (.of_log_eq rfl)⟩
        cases hc.mpr (hiff.mp hs).2
    · exact ⟨fun hs => absurd (hiff.mp hs).1 heq, fun _ => .of_log_eq rfl⟩
  · rename_i hne
    have hn := hmiss fun i he => hne i he
    simp only [Prog.yields_pure]
    exact ⟨fun hs => absurd hs hn, fun _ => .of_log_eq rfl⟩

/-! ## The operations -/

theorem enterRegion_locks (m pa type : ℕ) : Holds p (enterRegion K m pa type) p := by
  unfold enterRegion
  refine (Holds.read _).bind fun r => ?_
  split
  · exact .pure _
  · refine (modifySeg_locks _ _).bind fun _ => (modifySeg_locks _ _).bind fun _ => ?_
    refine (Holds.read _).bind fun v => Holds.ite ?_ ?_
    · exact (btSegmentFree_locks _ _).bind fun _ => .pure _
    · refine (modifySeg_locks _ _).bind fun _ => (Holds.read _).bind fun v => ?_
      refine (Holds.read _).bind fun pgd => (btMmuMap_locks _ _ _ _ _).bind fun _ => .pure _

theorem staticSegAddr_locks : Holds (σ := σ) p staticSegAddr p := by
  unfold staticSegAddr
  refine (Holds.read _).bind fun r => ?_
  split
  · exact .stuck
  · exact .read _

theorem btVmUnmapRegion_locks (m va : ℕ) : Holds p (btVmUnmapRegion K m va) p := by
  unfold btVmUnmapRegion btSegmentLookup
  refine (mapLock_locks m).bind fun _ => (findSegment_locks _ _).bind fun r => ?_
  split
  · exact mapUnlock_locks m
  · refine (Holds.read _).bind fun v => Holds.ite ?_ (mapUnlock_locks m)
    refine (Holds.read _).bind fun pgd => (btMmuMap_locks _ _ _ _ _).bind fun _ => ?_
    exact (btSegmentFree_locks _ _).bind fun _ => mapUnlock_locks m

theorem allocateInto_locks (m i addr size : ℕ) :
    Holds (holding (.map m) p) (allocateInto K m i addr size) p := by
  unfold allocateInto
  refine (modifySeg_locks _ _).bind fun _ => (pageAlloc_locks _ _).bind fun pa => Holds.ite ?_ ?_
  · exact (btSegmentFree_locks _ _).bind fun _ => (mapUnlock_locks m).bind fun _ => .pure _
  · refine (Holds.read _).bind fun v => (Holds.read _).bind fun pgd => ?_
    refine (btMmuMap_locks _ _ _ _ _).bind fun r => Holds.ite ?_ ?_
    · refine (pageFree_locks _ _ _).bind fun _ => (btSegmentFree_locks _ _).bind fun _ => ?_
      exact (mapUnlock_locks m).bind fun _ => .pure _
    · refine (modifySeg_locks _ _).bind fun _ => (memclear_locks _ _).bind fun _ => ?_
      exact (modifyMap_locks _ _).bind fun _ => (mapUnlock_locks m).bind fun _ => .pure _

theorem doFree_locks (m addr : ℕ) : Holds p (doFree K m addr) p := by
  unfold doFree btSegmentLookup releasePages
  refine (mapLock_locks m).bind fun _ => (findSegment_locks _ _).bind fun r => ?_
  split
  · exact (mapUnlock_locks m).bind fun _ => .pure _
  · refine (Holds.read _).bind fun v => Holds.ite ?_ ?_
    · exact (mapUnlock_locks m).bind fun _ => .pure _
    · refine Holds.bind ?_ fun _ => (modifyMap_locks _ _).bind fun _ =>
        (btSegmentFree_locks _ _).bind fun _ => (mapUnlock_locks m).bind fun _ => .pure _
      refine (Holds.read _).bind fun v => (Holds.read _).bind fun pgd => ?_
      exact (btMmuMap_locks _ _ _ _ _).bind fun _ => Holds.when (pageFree_locks _ _ _)

theorem attributeShared_locks (m i type : ℕ) :
    Holds (holding .shared p) (attributeShared K m i type) p := by
  unfold attributeShared
  refine (Holds.read _).bind fun v => (Holds.read _).bind fun pgd => ?_
  refine (pageAlloc_locks _ _).bind fun pa => Holds.ite ?_ ?_
  · exact sharedUnlock_locks.bind fun _ => .pure _
  · refine (memcpy_locks _ _ _).bind fun _ => ?_
    refine (btMmuMap_locks _ _ _ _ _).bind fun r => Holds.ite ?_ ?_
    · exact sharedUnlock_locks.bind fun _ => (pageFree_locks _ _ _).bind fun _ => .pure _
    · refine (modifySeg_locks _ _).bind fun _ => (btListDel_locks _).bind fun _ => ?_
      refine (unshareLast_locks _).bind fun _ => sharedUnlock_locks.bind fun _ => ?_
      refine (modifySeg_locks _ _).bind fun _ => ?_
      exact (btListInitHead_locks _).bind fun _ => .pure _

theorem attributePrivate_locks (m i type : ℕ) :
    Holds (holding .shared p) (attributePrivate K m i type) p := by
  unfold attributePrivate
  refine sharedUnlock_locks.bind fun _ => (Holds.read _).bind fun v => ?_
  refine (Holds.read _).bind fun pgd => (btMmuMap_locks _ _ _ _ _).bind fun r => ?_
  exact Holds.ite (.pure _) (.pure _)

theorem doAttribute_locks (m addr attr : ℕ) : Holds p (doAttribute K m addr attr) p := by
  unfold doAttribute btSegmentLookup
  refine (findSegment_locks _ _).bind fun r => ?_
  split
  · exact .pure _
  · refine (Holds.read _).bind fun v => Holds.ite (.pure _) (Holds.ite (.pure _) ?_)
    refine Holds.ite (.pure _) (sharedLock_locks.bind fun _ => ?_)
    refine Holds.ite ((attributeShared_locks _ _ _).bind fun e => ?_)
      ((attributePrivate_locks _ _ _).bind fun e => ?_)
    · exact Holds.ite (.pure _) ((modifySeg_locks _ _).bind fun _ => .pure _)
    · exact Holds.ite (.pure _) ((modifySeg_locks _ _).bind fun _ => .pure _)

/-- The operation asks `bt_segment_alloc` for a segment, and that cannot split. -/
def VmOp.SplitRefused (K : Kernel σ) (m : ℕ) (s : Machine σ) : VmOp → Prop
  | .mapRegion _ va size _ => va = 0 ∧ BitThunder.SplitRefused K m (btPageAlign size) s
  | .allocate _ size flags => size ≠ 0 ∧ flags &&& btVmAllocAnywhere ≠ 0 ∧
      BitThunder.SplitRefused K m (btPageAlign size) s
  | _ => False

/-- Between the two states a mutex was released that was not held. -/
def OverReleased (s s' : Machine σ) : Prop :=
  ∃ evs, s'.log = evs ++ s.log ∧ ∃ y, heldAfter y 0 evs = none

/-- A lock that is given back twice is released too often. -/
theorem LockStep.over_release {s s₁ s₂ : Machine σ} {x : Mutex} (h : LockStep (fun _ => 0) s s₁
    fun _ => 0) (he : s₂.log = .unlock x :: s₁.log) : OverReleased s s₂ := by
  obtain ⟨evs, hl, hh⟩ := h
  refine ⟨.unlock x :: evs, by rw [he, hl, List.cons_append], x, ?_⟩
  simp [heldAfter, hh x]

/-- The verdict on an operation: balanced, or it released what it did not hold. -/
def Verdict (refused : Prop) (s s' : Machine σ) : Prop :=
  (refused → OverReleased s s') ∧ (¬ refused → LockStep (fun _ => 0) s s' fun _ => 0)

/-- The locks are balanced exactly if the split was not refused. -/
theorem Verdict.iff {refused : Prop} {s s' : Machine σ} (h : Verdict refused s s') :
    ∃ evs, s'.log = evs ++ s.log ∧ (LocksBalanced evs ↔ ¬ refused) := by
  by_cases hr : refused
  · obtain ⟨evs, hl, y, hy⟩ := h.1 hr
    refine ⟨evs, hl, fun hb => ?_, fun hn => absurd hr hn⟩
    have := hb y
    rw [hy] at this
    cases this
  · obtain ⟨evs, hl, hh⟩ := h.2 hr
    exact ⟨evs, hl, fun _ => hr, fun _ => hh⟩

/-- A program that gives back what it takes is balanced. -/
theorem Holds.verdict {x : Prog (Machine σ) α} {s : Machine σ}
    (h : Holds (fun _ => 0) x fun _ => 0) : x.Yields s fun _ s' => Verdict False s s' :=
  (h s).mono fun _ _ hs => ⟨False.elim, fun _ => hs⟩

/-- A region at any address is balanced unless the split is refused. -/
theorem btVmMapRegion_locks (m pa va size type : ℕ) (s : Machine σ) :
    (btVmMapRegion K m pa va size type).Yields s fun _ s' =>
      Verdict (va = 0 ∧ SplitRefused K m (btPageAlign size) s) s s' := by
  -- what follows once the segment is there
  have rest : ∀ r, Holds (holding (.map m) fun _ => 0) (do
      Prog.update fun s => s.setMapSeg r
      let ok ← enterRegion K m pa type
      mapUnlock m
      if ok then staticSegAddr else pure 0) fun _ => 0 := by
    intro r
    refine Holds.bind (.update fun _ => .of_log_eq rfl) fun _ => ?_
    refine (enterRegion_locks m pa type).bind fun b => (mapUnlock_locks m).bind fun _ => ?_
    exact Holds.ite staticSegAddr_locks (.pure _)
  unfold btVmMapRegion obtainRegion mapLock
  rw [Prog.yields_bind, Prog.yields_update, Prog.yields_bind, Prog.yields_ite]
  refine ⟨fun hva => ?_, fun hva => ?_⟩
  · intro r s₁ hrun
    obtain ⟨hyes, hno⟩ := btSegmentAlloc_locks (p := fun _ => 0) m size _ r s₁ hrun
    obtain ⟨-, hno'⟩ := btSegmentAlloc_locks (p := holding (.map m) fun _ => 0) m size _ r s₁ hrun
    by_cases hs : SplitRefused K m (btPageAlign size) s
    · obtain ⟨rfl, hstep⟩ := hyes hs
      simp only [enterRegion, mapUnlock, Prog.yields_bind, Prog.yields_update, Prog.yields_read,
        Machine.setMapSeg_mapSeg, Prog.yields_pure, Prog.yields_ite]
      refine ⟨fun hf => absurd hf (by decide), fun _ => ?_⟩
      refine ⟨fun _ => ?_, fun hn => absurd ⟨hva, hs⟩ hn⟩
      exact LockStep.over_release ((LockStep.lock _).trans hstep) rfl
    · refine (rest r s₁).mono fun _ s' hstep => ?_
      refine ⟨fun hn => absurd hn.2 hs, fun _ => ?_⟩
      exact ((LockStep.lock _).trans (hno' hs)).trans hstep
  · intro r s₁ hrun
    have hstep : LockStep (holding (.map m) fun _ => 0) (s.emit (.lock (.map m))) s₁ _ :=
      btSegmentReserve_locks m va size _ _ _ hrun
    refine (rest r s₁).mono fun _ s' hstep' => ?_
    refine ⟨fun hn => absurd hn.1 hva, fun _ => ?_⟩
    exact ((LockStep.lock _).trans hstep).trans hstep'

theorem doAllocate_locks (m addr size flags : ℕ) (s : Machine σ) :
    (doAllocate K m addr size flags).Yields s fun _ s' =>
      Verdict (size ≠ 0 ∧ flags &&& btVmAllocAnywhere ≠ 0 ∧
        SplitRefused K m (btPageAlign size) s) s s' := by
  -- what follows once it is known whether there is a segment
  have rest : ∀ n r, Holds (holding (.map m) fun _ => 0) (do
      match r with
      | none =>
        mapUnlock m
        pure (BtError.noMemory, addr)
      | some i => allocateInto K m i addr n) fun _ => 0 := by
    intro n r
    cases r with
    | none => exact (mapUnlock_locks m).bind fun _ => .pure _
    | some i => exact allocateInto_locks m i addr n
  unfold doAllocate mapLock
  rw [Prog.yields_ite]
  refine ⟨fun hz => ?_, fun hz => ?_⟩
  · rw [Prog.yields_pure]
    exact ⟨fun hn => absurd hz hn.1, fun _ => .of_log_eq rfl⟩
  rw [Prog.yields_bind, Prog.yields_update, Prog.yields_ite]
  refine ⟨fun hc => ?_, fun hc => ?_⟩
  · rw [Prog.yields_bind]
    intro r s₁ hrun
    obtain ⟨hyes, -⟩ := btSegmentAlloc_locks (p := fun _ => 0) m _ _ r s₁ hrun
    obtain ⟨-, hno⟩ := btSegmentAlloc_locks (p := holding (.map m) fun _ => 0) m _ _ r s₁ hrun
    rw [btPageAlign_btPageAlign] at hyes hno
    by_cases hs : SplitRefused K m (btPageAlign size) s
    · obtain ⟨rfl, hstep⟩ := hyes hs
      simp only [mapUnlock, Prog.yields_bind, Prog.yields_update, Prog.yields_pure]
      refine ⟨fun _ => ?_, fun hn => absurd ⟨hz, hc, hs⟩ hn⟩
      exact LockStep.over_release ((LockStep.lock _).trans hstep) rfl
    · refine (rest _ r s₁).mono fun _ s' hstep => ?_
      refine ⟨fun hn => absurd hn.2.2 hs, fun _ => ?_⟩
      exact ((LockStep.lock _).trans (hno hs)).trans hstep
  · rw [Prog.yields_bind]
    intro r s₁ hrun
    have hstep : LockStep (holding (.map m) fun _ => 0) (s.emit (.lock (.map m))) s₁ _ :=
      btSegmentReserve_locks m _ _ _ _ _ hrun
    refine (rest _ r s₁).mono fun _ s' hstep' => ?_
    refine ⟨fun hn => absurd hn.2.1 hc, fun _ => ?_⟩
    exact ((LockStep.lock _).trans hstep).trans hstep'

theorem VmOp.run_locks (op : VmOp) (m : ℕ) (s : Machine σ) :
    (op.run K m).Yields s fun _ s' => Verdict (op.SplitRefused K m s) s s' := by
  cases op with
  | mapRegion pa va size type =>
    rw [VmOp.run, Prog.yields_bind]
    exact (btVmMapRegion_locks m pa va size type s).mono fun _ _ h => Prog.yields_pure.mpr h
  | unmapRegion va =>
    exact ((btVmUnmapRegion_locks m va).bind fun _ => .pure _).verdict
  | allocate addr size flags => exact doAllocate_locks m addr size flags s
  | free addr => exact ((doFree_locks m addr).bind fun _ => .pure _).verdict
  | changeAttribute addr attr => exact ((doAttribute_locks m addr attr).bind fun _ => .pure
    _).verdict

/-! ## The operations return

On a map whose list is well formed every operation returns, shared segments or not:
`bt_segment_free` takes a shared segment off the list of segments first, but the
segment's own two pointers stay what they were. -/

/-- The program returns. -/
def Returns (x : Prog (Machine σ) α) (s : Machine σ) : Prop := x.Ensures s fun _ _ => True

/-- A cell the segment list of `m` may lead to. -/
def Cell.OnList (m : ℕ) : Cell → Prop
  | .list _ => True
  | .head m' => m' = m
  | .shared _ => False

section Total

variable {s : Machine σ} {m i : ℕ} {v : Segment} {xs as bs : List Entry}

theorem onList_headD (bs : List Entry) (m : ℕ) :
    ((bs.map fun x => Cell.list x.1).headD (.head m)).OnList m := by
  cases bs with
  | nil => exact rfl
  | cons x bs => exact trivial

theorem onList_getLastD (as : List Entry) (m : ℕ) :
    ((as.map fun x => Cell.list x.1).getLastD (.head m)).OnList m := by
  cases as using List.reverseRecOn with
  | nil => exact rfl
  | append_singleton as x =>
    rw [List.map_append, List.map_cons, List.map_nil, List.getLastD_concat]
    trivial

/-- The merges of `bt_segment_free`, for a segment that is off the list already. -/
theorem merges_return (L : Links Cell) (hs : s.links = L.unlink (.list i))
    (hn : (L.next (.list i)).OnList m) (hp : (L.prev (.list i)).OnList m) :
    Returns (do mergeNextSegment K m i; mergePrevSegment K m i) s := by
  have hprev : ∀ t : Machine σ, t.links.prev (.list i) = L.prev (.list i) →
      Returns (mergePrevSegment K m i) t := by
    intro t ht
    unfold mergePrevSegment Returns
    rw [Prog.ensures_bind, Prog.ensures_read, ht]
    cases hc : L.prev (.list i) with
    | list k =>
      simp only [btListDel, modifySeg, kFree, Prog.ensures_bind, Prog.ensures_read,
        Prog.ensures_when, Prog.ensures_update, implies_true, and_self]
    | head m' =>
      rw [hc] at hp
      obtain rfl : m' = m := hp
      simp
    | shared k =>
      rw [hc] at hp
      exact hp.elim
  unfold Returns
  rw [Prog.ensures_bind]
  unfold mergeNextSegment
  rw [Prog.ensures_bind, Prog.ensures_read, hs, (L.unlink_self _).1]
  cases hc : L.next (.list i) with
  | list k =>
    simp only [btListDel, modifySeg, kFree, Prog.ensures_bind, Prog.ensures_read,
      Prog.ensures_when, Prog.ensures_update]
    refine ⟨fun _ => hprev _ ?_, fun _ => hprev _ ?_⟩
    · have := L.unlink_unlink_prev (.list i)
      rw [hc] at this
      simpa [hs] using this
    · rw [hs]
      exact (L.unlink_self _).2
  | head m' =>
    rw [hc] at hn
    obtain rfl : m' = m := hn
    simp only [if_true, Prog.ensures_pure]
    refine hprev _ ?_
    rw [hs]
    exact (L.unlink_self _).2
  | shared k =>
    rw [hc] at hn
    exact hn.elim

/-- The segment has the same range, and is free if it was. -/
structure SameRange (v w : Segment) : Prop where
  addr : w.addr = v.addr
  size : w.size = v.size
  /-- whether it is free is the same as well -/
  free : w.has btSegFree = v.has btSegFree

/-- Between the two states no list pointer has changed, and no segment's range. -/
structure RangesKept (s s' : Machine σ) : Prop where
  links : s'.links = s.links
  fresh : s'.fresh = s.fresh
  /-- each segment has the range it had -/
  seg : ∀ i, SameRange (s.seg i) (s'.seg i)

theorem RangesKept.setSeg {w : Segment} (hw : SameRange (s.seg i) w) :
    RangesKept s (s.setSeg i w) where
  links := rfl
  fresh := rfl
  seg j := by
    rw [Machine.setSeg_seg]
    by_cases hj : j = i
    · subst hj
      rw [Function.update_self]
      exact hw
    · rw [Function.update_of_ne hj]
      exact ⟨rfl, rfl, rfl⟩

/-- Without the flag for sharers a segment is free if it was. -/
theorem has_free_unshared {a q n f : ℕ} :
    Segment.has ⟨a, q, n, f &&& wordNot btSegShared⟩ btSegFree = Segment.has
      ⟨a, q, n, f⟩ btSegFree := by
  have hmask : wordNot btSegShared &&& btSegFree = btSegFree := by decide
  simp only [Segment.has, Nat.land_assoc, hmask]

/-- The last owner of a shared segment changes no range. -/
theorem unshareLast_kept (j : ℕ) : (unshareLast j).Ensures s fun _ s' => RangesKept s s' := by
  unfold unshareLast
  simp only [Prog.ensures_bind, Prog.ensures_read, Prog.ensures_when]
  refine ⟨fun _ => ?_, fun _ => ⟨rfl, rfl, fun _ => ⟨rfl, rfl, rfl⟩⟩⟩
  unfold clearShared
  split
  · exact Prog.ensures_update.mpr (.setSeg ⟨rfl, rfl, has_free_unshared⟩)
  · exact Prog.ensures_update.mpr (.setSeg ⟨rfl, rfl, rfl⟩)
  · exact Prog.ensures_update.mpr ⟨rfl, rfl, fun _ => ⟨rfl, rfl, rfl⟩⟩

/-- The segment is on the list of the map. -/
def Linked (s : Machine σ) (m i : ℕ) : Prop := ∃ as v bs, Shows s m (as ++ (i, v) :: bs)

theorem btSegmentFree_returns (hi : Linked s m i) : Returns (btSegmentFree K m i) s := by
  obtain ⟨as, v, bs, h⟩ := hi
  by_cases hs : v.has btSegShared
  · unfold btSegmentFree Returns
    simp only [sharedLock, sharedUnlock, modifySeg, btListDel, Prog.ensures_bind,
      Prog.ensures_update, Prog.ensures_read, Prog.ensures_when, Machine.emit_seg, h.seg_at]
    refine ⟨fun _ => ?_, fun hn => absurd hs hn⟩
    refine (unshareLast_kept i).mono fun _ t ht => ?_
    have hl : t.links = s.links.unlink (.list i) := ht.links
    have hm := merges_return (K := K)
      (s := (t.emit (.unlock .shared)).setSeg i
        { (t.emit (.unlock .shared)).seg i with flags := btSegFree }) (m := m) s.links hl
      (h.next_at ▸ onList_headD bs m) (h.prev_at ▸ onList_getLastD as m)
    exact Prog.ensures_bind.mp hm
  · exact (btSegmentFree_spec h hs).mono fun _ _ _ => trivial

/-- A segment was obtained, or not; the list is well formed either way. -/
def Found (m : ℕ) (r : Option ℕ) (s : Machine σ) : Prop :=
  ∀ j, r = some j → Linked s m j

/-- The segment that is found is on the list. -/
theorem btSegmentAlloc_found (h : Shows s m xs) (size : ℕ) :
    (btSegmentAlloc K m size).Ensures s fun r s' => Found m r s' := by
  refine (btSegmentAlloc_spec h size).mono fun r s' hr j hj => ?_
  rcases hr with ⟨rfl, -⟩ | ⟨v, as, k, q, bs, rfl, -, -, -, e⟩
  · cases hj
  · cases hj
    exact ⟨_, _, _, e.shows⟩

theorem btSegmentReserve_found (h : Shows s m xs) (addr size : ℕ) :
    (btSegmentReserve K m addr size).Ensures s fun r s' => Found m r s' := by
  refine (btSegmentReserve_spec h addr size).mono fun r s' hr j hj => ?_
  rcases hr with ⟨rfl, -⟩ | ⟨v, as, k, q, bs, rfl, -, -, -, e⟩
  · cases hj
  · cases hj
    exact ⟨_, _, _, e.shows⟩

theorem allocateInto_returns (h : Shows s m (as ++ (i, v) :: bs)) (addr size : ℕ) :
    Returns (allocateInto K m i addr size) s := by
  have h₁ : ∀ (w : Segment) (t : Machine σ), t.links = s.links → t.seg = (s.setSeg i w).seg →
      t.fresh = s.fresh →
      Shows t m (as ++ (i, w) :: bs) := by
    intro w t hl hsg hf
    exact (h.setSeg w).congr hl (fun _ _ => by rw [hsg]) hf.ge
  unfold allocateInto Returns pageAlloc
  simp only [modifySeg, Prog.ensures_bind, Prog.ensures_update, Prog.ensures_service]
  rw [Prog.ensures_ite]
  refine ⟨fun _ => ?_, fun _ => ?_⟩
  · rw [Prog.ensures_bind]
    refine .mono (btSegmentFree_returns ?_) fun _ t _ => by simp [mapUnlock]
    exact ⟨_, _, _, h₁ _ _ rfl rfl rfl⟩
  · simp only [Prog.ensures_bind, Prog.ensures_read]
    refine (btMmuMap_frame _ _ _ _ _).mono fun r t hf => ?_
    rw [Prog.ensures_ite]
    refine ⟨fun _ => ?_, fun _ => ?_⟩
    · simp only [pageFree, Prog.ensures_bind, Prog.ensures_update]
      refine .mono (btSegmentFree_returns ?_) fun _ t' _ => by simp [mapUnlock]
      exact ⟨_, _, _, h₁ _ _ hf.links hf.seg hf.fresh⟩
    · simp [modifyMap, memclear, mapUnlock]

theorem doAllocate_returns (h : Shows s m xs) (addr size flags : ℕ) :
    Returns (doAllocate K m addr size flags) s := by
  have rest : ∀ (n : ℕ) (r : Option ℕ) (t : Machine σ), Found m r t →
      Returns (allocateWith K m addr n r) t := by
    intro n r t hr
    cases r with
    | none => simp [Returns, allocateWith, mapUnlock]
    | some i =>
      obtain ⟨as, v, bs, hsh⟩ := hr i rfl
      exact allocateInto_returns hsh addr n
  have h₀ : Shows (s.emit (.lock (.map m))) m xs := h.congr rfl (fun _ _ => rfl) (le_refl _)
  unfold doAllocate mapLock Returns
  rw [Prog.ensures_ite]
  refine ⟨fun _ => Prog.ensures_pure.mpr trivial, fun _ => ?_⟩
  rw [Prog.ensures_bind, Prog.ensures_update, Prog.ensures_ite]
  refine ⟨fun _ => ?_, fun _ => ?_⟩
  · rw [Prog.ensures_bind]
    exact (btSegmentAlloc_found h₀ _).mono fun r t hr => rest _ r t hr
  · rw [Prog.ensures_bind]
    exact (btSegmentReserve_found h₀ _ _).mono fun r t hr => rest _ r t hr

/-- How `do_free` ends, as far as the segments go, shared ones included. -/
theorem doFree_found {Q : BtError → Machine σ → Prop} {addr : ℕ} (h : Shows s m xs)
    (bad : (∀ x, (xs.find? fun x => lookupTest (btPageTrunc addr) 0 x.2) = some x →
        x.2.addr = btPageTrunc addr → x.2.has btSegFree) → ∀ s', Shows s' m xs → Q .generic s')
    (done : ∀ as i v bs t, xs = as ++ (i, v) :: bs → v.addr = btPageTrunc addr → ¬ v.has btSegFree →
      Shows t m xs →
      Prog.Ensures (btSegmentFree K m i) t fun _ s' => Q .none (s'.emit (.unlock (.map m)))) :
    Prog.Ensures (doFree K m addr) s Q := by
  have h₀ : Shows (s.emit (.lock (.map m))) m xs := h.congr rfl (fun _ _ => rfl) (le_refl _)
  have hend : Shows ((s.emit (.lock (.map m))).emit (.unlock (.map m))) m xs :=
    h.congr rfl (fun _ _ => rfl) (le_refl _)
  unfold doFree btSegmentLookup mapLock
  rw [Prog.ensures_bind, Prog.ensures_update, Prog.ensures_bind, h₀.ensures_find]
  cases hfind : xs.find? fun x => lookupTest (btPageTrunc addr) 0 x.2 with
  | none =>
    simp only [Option.map_none, mapUnlock, Prog.ensures_bind, Prog.ensures_update,
      Prog.ensures_pure]
    exact bad (fun x hx => absurd (hfind.symm.trans hx) (by simp)) _ hend
  | some x =>
    obtain ⟨i, v⟩ := x
    obtain ⟨-, as, bs, rfl, -⟩ := List.find?_eq_some_iff_append.mp hfind
    simp only [Option.map_some, Prog.ensures_bind, Prog.ensures_read, h₀.seg_at]
    rw [Prog.ensures_ite]
    refine ⟨fun hno => ?_, fun hok => ?_⟩
    · simp only [mapUnlock, Prog.ensures_bind, Prog.ensures_update, Prog.ensures_pure]
      refine bad (fun x hx hat => ?_) _ hend
      obtain rfl : (i, v) = x := Option.some.inj (hfind.symm.trans hx)
      exact hno.resolve_left (not_not.mpr hat)
    · have hok : v.addr = btPageTrunc addr ∧ ¬ v.has btSegFree := by
        simpa [not_or] using hok
      unfold releasePages
      simp only [Prog.ensures_bind, Prog.ensures_read]
      refine (btMmuMap_frame _ _ _ _ _).mono fun _ t hf => ?_
      have ht : ∀ t' : Machine σ, t'.links = t.links → t'.seg = t.seg → t'.fresh = t.fresh →
          Shows t' m (as ++ (i, v) :: bs) := by
        intro t' hl hsg hfr
        exact (hf.shows h₀).congr hl (fun _ _ => by rw [hsg]) hfr.ge
      simp only [pageFree, modifyMap, mapUnlock, Prog.ensures_when, Prog.ensures_update,
        Prog.ensures_pure]
      exact ⟨fun _ => done as i v bs _ rfl hok.1 hok.2 (ht _ rfl rfl rfl),
        fun _ => done as i v bs _ rfl hok.1 hok.2 (ht _ rfl rfl rfl)⟩

theorem doFree_returns (h : Shows s m xs) (addr : ℕ) : Returns (doFree K m addr) s := by
  refine doFree_found h (fun _ _ _ => trivial) fun as i v bs t hxs _ _ ht => ?_
  subst hxs
  exact (btSegmentFree_returns ⟨_, _, _, ht⟩).mono fun _ _ _ => trivial

theorem btVmUnmapRegion_returns (h : Shows s m xs) (va : ℕ) :
    Returns (btVmUnmapRegion K m va) s := by
  have h₀ : Shows (s.emit (.lock (.map m))) m xs := h.congr rfl (fun _ _ => rfl) (le_refl _)
  unfold btVmUnmapRegion btSegmentLookup mapLock Returns
  rw [Prog.ensures_bind, Prog.ensures_update, Prog.ensures_bind, h₀.ensures_find]
  cases hfind : xs.find? fun x => lookupTest va 0 x.2 with
  | none => simp [mapUnlock]
  | some x =>
    obtain ⟨i, v⟩ := x
    obtain ⟨-, as, bs, rfl, -⟩ := List.find?_eq_some_iff_append.mp hfind
    simp only [Option.map_some, Prog.ensures_bind, Prog.ensures_read]
    rw [Prog.ensures_ite]
    refine ⟨fun _ => ?_, fun _ => by simp [mapUnlock]⟩
    simp only [Prog.ensures_bind, Prog.ensures_read]
    refine (btMmuMap_frame _ _ _ _ _).mono fun _ t hf => ?_
    exact (btSegmentFree_returns ⟨_, _, _, hf.shows h₀⟩).mono fun _ _ _ => by simp [mapUnlock]

theorem btVmMapRegion_returns (h : Shows s m xs) (pa va size type : ℕ) :
    Returns (btVmMapRegion K m pa va size type) s := by
  have h₀ : Shows (s.emit (.lock (.map m))) m xs := h.congr rfl (fun _ _ => rfl) (le_refl _)
  have rest : ∀ (r : Option ℕ) (t : Machine σ), Found m r t → Returns (do
      let b ← enterRegion K m pa type
      mapUnlock m
      if b then staticSegAddr else pure 0) (t.setMapSeg r) := by
    intro r t hr
    unfold Returns enterRegion
    rw [Prog.ensures_bind, Prog.ensures_bind, Prog.ensures_read, Machine.setMapSeg_mapSeg]
    cases r with
    | none => simp [mapUnlock]
    | some i =>
      obtain ⟨as, v, bs, hsh⟩ := hr i rfl
      have h₁ : ∀ (w : Segment) (t' : Machine σ), t'.links = t.links →
          t'.seg = (t.setSeg i w).seg → t'.fresh = t.fresh → Shows t' m (as ++ (i, w) :: bs) := by
        intro w t' hl hsg hf
        exact (hsh.setSeg w).congr hl (fun _ _ => by rw [hsg]) hf.ge
      simp only [modifySeg, Prog.ensures_bind, Prog.ensures_update, Prog.ensures_read]
      rw [Prog.ensures_ite]
      refine ⟨fun _ => ?_, fun _ => ?_⟩
      · rw [Prog.ensures_bind]
        refine .mono (btSegmentFree_returns ?_) fun _ _ _ => by simp [mapUnlock]
        refine ⟨_, _, _, h₁ ⟨(t.seg i).addr, pa, (t.seg i).size, typeToSegflags type⟩ _ rfl ?_ rfl⟩
        funext k
        by_cases hk : k = i
        · simp [hk]
        · simp [Function.update_of_ne hk]
      · simp only [Prog.ensures_bind, Prog.ensures_update, Prog.ensures_read]
        refine (btMmuMap_frame _ _ _ _ _).mono fun _ t' hf => ?_
        have hstatic : t'.mapSeg = some i := hf.mapSeg
        simp [mapUnlock, staticSegAddr, hstatic]
  unfold btVmMapRegion obtainRegion mapLock Returns
  rw [Prog.ensures_bind, Prog.ensures_update, Prog.ensures_bind, Prog.ensures_ite]
  refine ⟨fun _ => ?_, fun _ => ?_⟩
  · refine (btSegmentAlloc_found h₀ _).mono fun r t hr => ?_
    exact Prog.ensures_bind.mpr (Prog.ensures_update.mpr (rest r t hr))
  · refine (btSegmentReserve_found h₀ _ _).mono fun r t hr => ?_
    exact Prog.ensures_bind.mpr (Prog.ensures_update.mpr (rest r t hr))

theorem doAttribute_returns (h : Shows s m xs) (addr attr : ℕ) :
    Returns (doAttribute K m addr attr) s := by
  unfold doAttribute btSegmentLookup Returns
  rw [Prog.ensures_bind, h.ensures_find]
  cases hfind : xs.find? fun x => lookupTest (btPageTrunc addr) 0 x.2 with
  | none => simp
  | some x =>
    simp only [Option.map_some, Prog.ensures_bind, Prog.ensures_read, Prog.ensures_ite,
      Prog.ensures_pure, implies_true, true_and, sharedLock, Prog.ensures_update]
    intro _ _ _
    refine ⟨fun _ => ?_, fun _ => ?_⟩
    · unfold attributeShared pageAlloc
      simp only [Prog.ensures_bind, Prog.ensures_read, Prog.ensures_service, Prog.ensures_ite]
      refine ⟨fun _ => by simp [sharedUnlock], fun _ => ?_⟩
      simp only [memcpy, Prog.ensures_update]
      refine (btMmuMap_frame _ _ _ _ _).mono fun _ t hf => ?_
      refine ⟨fun _ => by simp [sharedUnlock, pageFree], fun _ => ?_⟩
      simp only [modifySeg, btListDel, Prog.ensures_update]
      refine (unshareLast_kept _).mono fun _ t' _ => ?_
      simp [sharedUnlock, btListInitHead]
    · simp only [attributePrivate, sharedUnlock, Prog.ensures_bind, Prog.ensures_update,
        Prog.ensures_read]
      refine (btMmuMap_frame _ _ _ _ _).mono fun _ t hf => ?_
      rw [Prog.ensures_ite]
      exact ⟨fun _ => by simp, fun _ => by simp [modifySeg]⟩

theorem VmOp.run_returns (h : Shows s m xs) (op : VmOp) : Returns (op.run K m) s := by
  cases op with
  | mapRegion pa va size type =>
    exact Prog.ensures_bind.mpr
      ((btVmMapRegion_returns h pa va size type).mono fun _ _ _ => by simp)
  | unmapRegion va =>
    exact Prog.ensures_bind.mpr ((btVmUnmapRegion_returns h va).mono fun _ _ _ => by simp)
  | allocate addr size flags => exact doAllocate_returns h addr size flags
  | free addr => exact Prog.ensures_bind.mpr ((doFree_returns h addr).mono fun _ _ _ => by simp)
  | changeAttribute addr attr =>
    exact Prog.ensures_bind.mpr ((doAttribute_returns h addr attr).mono fun _ _ _ => by simp)

end Total

/-- **Every operation releases the locks it takes, except when a segment cannot be
split.** For every machine state, map, operation and argument: if the call returns,
it releases each mutex exactly as often as it acquires it, and never one it does not
hold, if and only if it does not ask `bt_segment_alloc` for a segment that has to be
split with the heap refusing. On a map with a well-formed list the call returns. -/
theorem locks_balanced_iff (K : Kernel σ) (m : ℕ) (op : VmOp) (s : Machine σ) :
    (∀ r s', op.run K m s = some (r, s') →
      ∃ evs, s'.log = evs ++ s.log ∧ (LocksBalanced evs ↔ ¬ op.SplitRefused K m s)) ∧
    ∀ xs, Shows s m xs → ∃ r s', op.run K m s = some (r, s') := by
  refine ⟨fun r s' hrun => (VmOp.run_locks op m s r s' hrun).iff, fun xs h => ?_⟩
  obtain ⟨r, s', hrun, -⟩ := VmOp.run_returns (K := K) h op
  exact ⟨r, s', hrun⟩

/-- Two pages are allocated in a new map: the calls that follow one another are
balanced. -/
theorem locks_balanced_two_pages : ∃ s r s' evs,
    (VmOp.allocate 0 5000 btVmAllocAnywhere).run stockKernel 1 s = some (r, s') ∧
      s'.log = evs ++ s.log ∧ LocksBalanced evs := by
  obtain ⟨s, hc⟩ : ∃ s, btVmCreate stockKernel
      (bootMachine ⟨10, 10, 0x10000000, 0x10100000, 10⟩) = some (some 1, s) := ⟨_, rfl⟩
  obtain ⟨-, hsh, -⟩ := create_shows hc 1 rfl
  have heap : (stockKernel.kMalloc segmentBytes s.env).1 ≠ 0 := by
    cases hc
    decide
  obtain ⟨hbal, hret⟩ := locks_balanced_iff stockKernel 1 (.allocate 0 5000 btVmAllocAnywhere) s
  obtain ⟨r, s', hrun⟩ := hret _ hsh
  obtain ⟨evs, hl, hiff⟩ := hbal r s' hrun
  refine ⟨s, r, s', evs, hrun, hl, hiff.mpr ?_⟩
  rintro ⟨-, -, i, -, -, hz⟩
  exact heap hz

/-- The heap has two blocks, for the map and its first segment: `bt_vm_allocate`
cannot split it and releases the map's mutex twice. -/
theorem locks_unbalanced : ∃ s r s',
    btVmCreate stockKernel (bootMachine ⟨2, 10, 0x10000000, 0x10100000, 10⟩) = some (some 1, s) ∧
    (VmOp.allocate 0 4096 btVmAllocAnywhere).run stockKernel 1 s = some (r, s') ∧
    ¬∃ evs, s'.log = evs ++ s.log ∧ LocksBalanced evs := by
  have heval : (((do
      let c ← btVmCreate stockKernel
      let before ← Prog.read fun s => s.log.length
      let r ← (VmOp.allocate 0 4096 btVmAllocAnywhere).run stockKernel 1
      Prog.read fun s => (c, r.1, heldAfter (.map 1) 0 (s.log.take (s.log.length - before)))) :
      Prog (Machine Stock) (Option ℕ × BtError × Option ℕ))
      (bootMachine ⟨2, 10, 0x10000000, 0x10100000, 10⟩)).map Prod.fst =
      some (some 1, .noMemory, none) := by decide +kernel
  obtain ⟨⟨_, t⟩, hrun, rfl⟩ := Option.map_eq_some_iff.mp heval
  obtain ⟨c, s₁, hc, hlen⟩ := Prog.bind_eq_some hrun
  obtain ⟨n, s₂, hn, hcall⟩ := Prog.bind_eq_some hlen
  obtain ⟨r, s₃, hop, hend⟩ := Prog.bind_eq_some hcall
  cases hn
  have hres : (c, r.1, heldAfter (.map 1) 0 (s₃.log.take (s₃.log.length - s₁.log.length))) =
      (some 1, .noMemory, none) := congrArg Prod.fst (Option.some.inj hend)
  obtain rfl := (Prod.mk.inj hres).1
  refine ⟨_, _, _, hc, hop, ?_⟩
  rintro ⟨evs, hl, hb⟩
  have hheld := (Prod.mk.inj (Prod.mk.inj hres).2).2
  have hevs : s₃.log.take (s₃.log.length - s₁.log.length) = evs := by
    rw [hl, List.length_append, Nat.add_sub_cancel, List.take_left]
  rw [hevs, hb (.map 1)] at hheld
  cases hheld

end BitThunder
