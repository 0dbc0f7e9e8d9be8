import BitThunder.Mm.Defs

/-!
# References to handles

`lib/src/handles/bt_handles.c` and the descriptors of `os/src/process/bt_process.c`. A handle
counts its references: one of its creator and one for every slot of a process that holds it.
With the last one it is cleaned up and, unless it says otherwise, destroyed.

To set a slot, the handle that is there is closed first and the new one is referenced then. If
both are the same, and this is the only reference, the slot holds a destroyed handle. The slots of a
process lie in its own handle: they go with it, and what they hold is not closed.

* `Tracks`: the counts are those of a given number of references; one lemma per operation;
* `Exact`: the number is that of creator and slots;
* `references_exact_iff`: it is, in every run that does neither.

References are counted over slots: a handle has one for its creator, while he has not closed it, and
one for each slot of each process. `Tracks` compares the counts with any function, so that an
operation in the middle, when the new handle is not in its slot yet or the old one still is, can be
told by adding or subtracting one. `Kept` is the same for the function that creator and slots give.

Processes own their slots. When the last reference to the handle of a process goes, its slots are
freed with it, without a call of `BT_UnrefHandle` for what they hold; so the counts stay exact only
if they were empty. Setting a slot drops one reference and takes one, in this order, and `Swap` is
the common part of this and of closing.
-/

namespace BitThunder

/-- The headers of the handles, by number; `fresh` handles have been created. -/
structure HandleState : Type where
  fresh : ℕ
  /-- `ulReferenceCount`. It does not wrap when it grows: memory has fewer slots than that. -/
  ulReferenceCount : ℕ → ℕ
  /-- `BT_HANDLE_FLAGS_NO_DESTROY` -/
  noDestroy : ℕ → Bool
  /-- calls of `pfnCleanup` -/
  cleanups : ℕ → ℕ
  /-- calls of `BT_DestroyHandle` -/
  destroyed : ℕ → ℕ
  /-- the creator has not closed it -/
  creator : ℕ → Bool

namespace HandleState

/-- `BT_CreateHandle`, with the reference of `BT_AttachHandle` -/
def btCreateHandle (s : HandleState) (noDestroy : Bool) : HandleState where
  fresh := s.fresh + 1
  ulReferenceCount := Function.update s.ulReferenceCount s.fresh 1
  noDestroy := Function.update s.noDestroy s.fresh noDestroy
  cleanups := Function.update s.cleanups s.fresh 0
  destroyed := Function.update s.destroyed s.fresh 0
  creator := Function.update s.creator s.fresh true

/-- `BT_RefHandle` -/
def btRefHandle (s : HandleState) : Option ℕ → HandleState
  | none => s
  | some h =>
    { s with
      ulReferenceCount := Function.update s.ulReferenceCount h (s.ulReferenceCount h + 1) }

/-- `BT_UnrefHandle` -/
def btUnrefHandle (s : HandleState) (h : ℕ) : HandleState :=
  let ulReferenceCount := if s.ulReferenceCount h = 0 then 2 ^ 32 - 1 else s.ulReferenceCount h - 1
  { s with ulReferenceCount := Function.update s.ulReferenceCount h ulReferenceCount }

/-- `BT_CloseHandle` -/
def btCloseHandle (s : HandleState) : Option ℕ → HandleState
  | none => s
  | some h =>
    let s := s.btUnrefHandle h
    if s.ulReferenceCount h ≠ 0 then s
    else
      { s with
        cleanups := Function.update s.cleanups h (s.cleanups h + 1)
        destroyed := Function.update s.destroyed h (s.destroyed h + if s.noDestroy h then 0
          else 1) }

/-- `BT_SetProcessFileDescriptor`, of a slot that holds `old` -/
def btSetProcessFileDescriptor (s : HandleState) (old h : Option ℕ) : HandleState :=
  (s.btCloseHandle old).btRefHandle h

/-- `BT_CreateProcess`, by a process with the descriptors `fds`. If the kernel has no room for
it, there is no `thread`. -/
def btCreateProcess (s : HandleState) (thread : Bool) (fds : List (Option ℕ)) : HandleState :=
  let s := s.btCreateHandle false
  let s := if thread then s.btCreateHandle true else s
  fds.foldl btRefHandle s

/-- The handle has been created and not cleaned up. -/
def Live (s : HandleState) (h : ℕ) : Prop := h < s.fresh ∧ s.cleanups h = 0

/-- The creator's reference, and the slots of all processes. -/
def refs (s : HandleState) (procs : List (List (Option ℕ))) (h : ℕ) : ℕ :=
  (if s.creator h then 1 else 0) + procs.flatten.count (some h)

/-- A process: its own handle (`none` for `kernel_handle`, which is never closed) and its
descriptors, which are stored in that handle. -/
structure Process : Type where
  handle : Option ℕ
  fds : List (Option ℕ)

/-- The processes whose handles have not been destroyed. `BT_DestroyHandle` frees the descriptors
with the handle; `bt_process_cleanup` does nothing before. -/
def survivors (s : HandleState) (procs : List Process) : List Process :=
  procs.filter fun p => p.handle.all fun h => s.destroyed h = 0

/-- `BT_SetProcessFileDescriptor` for the process `own`. No result if the call destroys that
process, whose slot it writes to afterwards. -/
def setSlot (s : HandleState) (own old h : Option ℕ) : Option HandleState :=
  let s' := s.btSetProcessFileDescriptor old h
  if own.all fun x => s'.destroyed x = 0 then some s' else none

/-- `BT_CloseHandle` by the creator -/
def closeOwn (s : HandleState) (h : ℕ) : HandleState :=
  { s.btCloseHandle (some h) with creator := Function.update s.creator h false }

/-- Handles and processes after a run. Where a reference to `old` is dropped and one to `h` taken,
it is as `ok` allows. -/
inductive Reach (ok : HandleState → List Process → Option ℕ → Option ℕ → Prop) :
    HandleState → List Process → Prop where
  | init : Reach ok ⟨0, fun _ => 0, fun _ => false, fun _ => 0, fun _ => 0, fun _ => false⟩
      [⟨none, List.replicate 8 none⟩]
  | create {s : HandleState} {procs : List Process} (noDestroy : Bool) (reach : Reach ok s procs) :
      Reach ok (s.btCreateHandle noDestroy) procs
  | process {s : HandleState} {procs : List Process} {parent : Process}
      (thread : Bool) (reach : Reach ok s procs) (hparent : parent ∈ procs) :
      Reach ok (s.btCreateProcess thread parent.fds) (procs ++ [⟨some s.fresh, parent.fds⟩])
  | set {s s' : HandleState} {as bs : List Process} {xs ys : List (Option ℕ)} {own old h : Option ℕ}
      (reach : Reach ok s (as ++ ⟨own, xs ++ old :: ys⟩ :: bs)) (live : ∀ x ∈ h, s.Live x)
      (careful : ok s (as ++ ⟨own, xs ++ old :: ys⟩ :: bs) old h)
        (run : s.setSlot own old h = some s') :
      Reach ok s' (s'.survivors (as ++ ⟨own, xs ++ h :: ys⟩ :: bs))
  | close {s : HandleState} {procs : List Process} {h : ℕ} (reach : Reach ok s procs)
      (own : s.creator h = true) (careful : ok s procs (some h) none) :
      Reach ok (s.closeOwn h) ((s.closeOwn h).survivors procs)

/-- Counts, clean-ups and slots are as they should be. -/
structure Exact (s : HandleState) (procs : List (List (Option ℕ))) : Prop where
  /-- a live handle has as many references as it counts -/
  count : ∀ h, s.Live h → s.ulReferenceCount h = s.refs procs h
  /-- it is cleaned up once, and exactly when there are none left -/
  cleanup : ∀ h < s.fresh, s.cleanups h = if s.refs procs h = 0 then 1 else 0
  /-- and destroyed, if it is one to be destroyed -/
  destroy : ∀ h < s.fresh, s.destroyed h = if s.refs procs h = 0 ∧ s.noDestroy h = false then 1
    else 0
  /-- the slots only hold live handles -/
  slots : ∀ fds ∈ procs, ∀ h, some h ∈ fds → s.Live h

/-- If this is the last reference to the old handle, the new one is another, and no process that
goes with the old handle has anything in its slots. -/
def Careful (s : HandleState) (procs : List Process) (old h : Option ℕ) : Prop :=
  ∀ x, old = some x → s.ulReferenceCount x = 1 →
    h ≠ some x ∧ ∀ p ∈ procs, p.handle = some x → ∀ y, some y ∉ p.fds

/-! ## Counting

One lemma for each function that changes a count, for any number of references that the counts are
compared with. -/

/-- Every handle has `r` references. -/
structure Tracks (s : HandleState) (r : ℕ → ℕ) : Prop where
  /-- a handle with references counts them -/
  count : ∀ h < s.fresh, r h ≠ 0 → s.ulReferenceCount h = r h
  /-- one without has been cleaned up, once -/
  cleanup : ∀ h < s.fresh, s.cleanups h = if r h = 0 then 1 else 0
  /-- and destroyed, if it is one to be destroyed -/
  destroy : ∀ h < s.fresh, s.destroyed h = if r h = 0 ∧ s.noDestroy h = false then 1 else 0
  /-- nothing refers to a handle that there is not yet -/
  unborn : ∀ h, s.fresh ≤ h → r h = 0

variable {s : HandleState} {r r' : ℕ → ℕ} {h x : ℕ} {procs : List (List (Option ℕ))}

theorem Tracks.lt_fresh (t : Tracks s r) (hr : r h ≠ 0) : h < s.fresh := by
  rcases Nat.lt_or_ge h s.fresh with hlt | hge
  · exact hlt
  · exact absurd (t.unborn h hge) hr

/-- A handle lives as long as it has references. -/
theorem Tracks.live_iff (t : Tracks s r) : s.Live h ↔ r h ≠ 0 := by
  constructor
  · rintro ⟨hlt, hclean⟩ hr
    rw [t.cleanup h hlt, if_pos hr] at hclean
    exact absurd hclean (by decide)
  · intro hr
    refine ⟨t.lt_fresh hr, ?_⟩
    rw [t.cleanup h (t.lt_fresh hr), if_neg hr]

/-- The creator has the first reference. -/
theorem Tracks.create (t : Tracks s r) (noDestroy : Bool) :
    Tracks (s.btCreateHandle noDestroy) (Function.update r s.fresh 1) := by
  have old {x : ℕ} (hx : x < s.fresh + 1) (hne : x ≠ s.fresh) : x < s.fresh := by omega
  constructor
  · intro x hx hr
    by_cases hxf : x = s.fresh
    · subst hxf
      simp [btCreateHandle]
    · simp only [btCreateHandle, Function.update_of_ne hxf] at hr ⊢
      exact t.count x (old hx hxf) hr
  · intro x hx
    by_cases hxf : x = s.fresh
    · subst hxf
      simp [btCreateHandle]
    · simp only [btCreateHandle, Function.update_of_ne hxf]
      exact t.cleanup x (old hx hxf)
  · intro x hx
    by_cases hxf : x = s.fresh
    · subst hxf
      simp [btCreateHandle]
    · simp only [btCreateHandle, Function.update_of_ne hxf]
      exact t.destroy x (old hx hxf)
  · intro x hx
    have hx : s.fresh + 1 ≤ x := hx
    rw [Function.update_of_ne (by omega)]
    exact t.unborn x (by omega)

/-- Only one handle changes, and has `n` references then. -/
theorem Tracks.change {s' : HandleState} {n : ℕ} (t : Tracks s r) (hlt : h < s.fresh)
    (hfresh : s'.fresh = s.fresh) (hne : ∀ x, x ≠ h → s'.ulReferenceCount x = s.ulReferenceCount x ∧
      s'.cleanups x = s.cleanups x ∧
      s'.destroyed x = s.destroyed x ∧ s'.noDestroy x = s.noDestroy x)
    (hcount : n ≠ 0 → s'.ulReferenceCount h = n) (hcleanup : s'.cleanups h = if n = 0 then 1 else 0)
    (hdestroy : s'.destroyed h = if n = 0 ∧ s'.noDestroy h = false then 1 else 0) :
    Tracks s' (Function.update r h n) := by
  constructor
  · intro x hx hr
    by_cases hxh : x = h
    · subst hxh
      rw [Function.update_self] at hr ⊢
      exact hcount hr
    · rw [Function.update_of_ne hxh] at hr ⊢
      rw [(hne x hxh).1]
      exact t.count x (hfresh ▸ hx) hr
  · intro x hx
    by_cases hxh : x = h
    · subst hxh
      rw [Function.update_self]
      exact hcleanup
    · rw [Function.update_of_ne hxh, (hne x hxh).2.1]
      exact t.cleanup x (hfresh ▸ hx)
  · intro x hx
    by_cases hxh : x = h
    · subst hxh
      rw [Function.update_self]
      exact hdestroy
    · rw [Function.update_of_ne hxh, (hne x hxh).2.2.1, (hne x hxh).2.2.2]
      exact t.destroy x (hfresh ▸ hx)
  · intro x hx
    rw [hfresh] at hx
    rw [Function.update_of_ne (by omega)]
    exact t.unborn x hx

theorem Tracks.not_destroyed (t : Tracks s r) (hr : r h ≠ 0) : s.destroyed h = 0 := by
  rw [t.destroy h (t.lt_fresh hr), if_neg]
  rintro ⟨h0, -⟩
  exact hr h0

/-- One more reference to a handle that has one. -/
theorem Tracks.ref (t : Tracks s r) (hr : r h ≠ 0) :
    Tracks (s.btRefHandle (some h)) (Function.update r h (r h + 1)) := by
  refine t.change (t.lt_fresh hr) rfl ?_ ?_ ?_ ?_
  · intro x hx
    exact ⟨Function.update_of_ne hx .., rfl, rfl, rfl⟩
  · intro _
    simp only [btRefHandle, Function.update_self]
    rw [t.count h (t.lt_fresh hr) hr]
  · rw [if_neg (Nat.succ_ne_zero _)]
    exact (t.live_iff.mpr hr).2
  · rw [if_neg]
    · exact t.not_destroyed hr
    · rintro ⟨h0, -⟩
      exact absurd h0 (Nat.succ_ne_zero _)

/-- One reference less; with the last one the handle goes. -/
theorem Tracks.close (t : Tracks s r) (hr : r h ≠ 0) :
    Tracks (s.btCloseHandle (some h)) (Function.update r h (r h - 1)) := by
  have hcount : s.ulReferenceCount h = r h := t.count h (t.lt_fresh hr) hr
  have hclean : s.cleanups h = 0 := (t.live_iff.mpr hr).2
  have hdestroy : s.destroyed h = 0 := t.not_destroyed hr
  have hunref : (s.btUnrefHandle h).ulReferenceCount =
      Function.update s.ulReferenceCount h (r h - 1) := by
    simp only [btUnrefHandle, hcount, if_neg hr]
  by_cases hlast : r h - 1 = 0
  · have hs : s.btCloseHandle (some h) =
        { s with
          ulReferenceCount := Function.update s.ulReferenceCount h (r h - 1)
          cleanups := Function.update s.cleanups h 1
          destroyed := Function.update s.destroyed h (if s.noDestroy h then 0 else 1) } := by
      simp only [btCloseHandle, hunref, Function.update_self, hlast, ne_eq, not_true_eq_false,
        if_false]
      simp [btUnrefHandle, hclean, hdestroy, hcount, hr, hlast]
    rw [hs]
    refine t.change (t.lt_fresh hr) rfl ?_ ?_ ?_ ?_
    · intro x hx
      exact ⟨Function.update_of_ne hx .., Function.update_of_ne hx .., Function.update_of_ne hx ..,
        rfl⟩
    · intro hn
      exact absurd hlast hn
    · rw [if_pos hlast]
      exact Function.update_self ..
    · cases hnd : s.noDestroy h <;> simp [hlast]
  · have hs : s.btCloseHandle (some h) =
        { s with ulReferenceCount := Function.update s.ulReferenceCount h (r h - 1) } := by
      simp only [btCloseHandle, hunref, Function.update_self, hlast, ne_eq, not_false_eq_true,
        if_true]
      simp [btUnrefHandle, hcount, hr]
    rw [hs]
    refine t.change (t.lt_fresh hr) rfl ?_ ?_ ?_ ?_
    · intro x hx
      exact ⟨Function.update_of_ne hx .., rfl, rfl, rfl⟩
    · intro _
      exact Function.update_self ..
    · rw [if_neg hlast]
      exact hclean
    · rw [if_neg]
      · exact hdestroy
      · rintro ⟨h0, -⟩
        exact hlast h0

theorem Tracks.congr (t : Tracks s r) (hr : ∀ x, r' x = r x) : Tracks s r' := by
  rw [funext hr]
  exact t

/-- A process that is created references all it inherits. -/
theorem Tracks.inherit {fds : List (Option ℕ)} (t : Tracks s r)
    (hfds : ∀ h, some h ∈ fds → r h ≠ 0) :
    Tracks (fds.foldl btRefHandle s) (fun x => r x + fds.count (some x)) := by
  induction fds generalizing s r with
  | nil => exact t.congr (fun x => by simp)
  | cons fd fds ih =>
    cases fd with
    | none =>
      apply (ih t (fun h hh => hfds h (List.mem_cons_of_mem _ hh))).congr
      intro x
      simp
    | some h =>
      have hr : r h ≠ 0 := hfds h (List.mem_cons_self ..)
      refine (ih (t.ref hr) ?_).congr ?_
      · intro x hx
        by_cases hxh : x = h
        · subst hxh
          simp
        · rw [Function.update_of_ne hxh]
          exact hfds x (List.mem_cons_of_mem _ hx)
      · intro x
        by_cases hxh : x = h
        · subst hxh
          simp only [List.count_cons_self, Function.update_self]
          omega
        · simp [Function.update_of_ne hxh, Ne.symm hxh]

/-- A reference does not change who created a handle. -/
@[simp] theorem btRefHandle_creator (fd : Option ℕ) : (s.btRefHandle fd).creator = s.creator := by
  cases fd <;> rfl

@[simp] theorem btCloseHandle_creator (fd : Option ℕ) :
    (s.btCloseHandle fd).creator = s.creator := by
  cases fd with
  | none => rfl
  | some h =>
    simp only [btCloseHandle]
    split_ifs <;> rfl

theorem foldl_btRefHandle_creator (fds : List (Option ℕ)) :
    (fds.foldl btRefHandle s).creator = s.creator := by
  induction fds generalizing s with
  | nil => rfl
  | cons fd fds ih =>
    rw [List.foldl_cons, ih]
    exact btRefHandle_creator fd

/-! ## References

What creator and slots have, as a number, and how it changes when a slot is set or the creator
closes. -/

/-- A handle in a slot of a process has a reference. -/
theorem refs_ne_zero_of_mem {fds : List (Option ℕ)} (hfds : fds ∈ procs) (hh : some h ∈ fds) :
    s.refs procs h ≠ 0 := by
  have hmem : some h ∈ procs.flatten := List.mem_flatten.mpr ⟨fds, hfds, hh⟩
  have hpos := List.count_pos_iff.mpr hmem
  simp only [refs]
  omega

/-- The count is exact, if it is that of creator and slots. -/
theorem Tracks.exact (t : Tracks s (s.refs procs)) : Exact s procs where
  count h hh := t.count h hh.1 (t.live_iff.mp hh)
  cleanup := t.cleanup
  destroy := t.destroy
  slots _ hfds _ hh := t.live_iff.mpr (refs_ne_zero_of_mem hfds hh)

/-- A new handle is in no slot. -/
theorem Tracks.create_refs (t : Tracks s (s.refs procs)) (noDestroy : Bool) :
    Tracks (s.btCreateHandle noDestroy) ((s.btCreateHandle noDestroy).refs procs) := by
  apply (t.create noDestroy).congr
  intro x
  by_cases hx : x = s.fresh
  · subst hx
    have h0 := t.unborn s.fresh le_rfl
    simp only [refs] at h0
    simp only [refs, btCreateHandle, Function.update_self, if_true]
    omega
  · simp [refs, btCreateHandle, Function.update_of_ne hx]

/-- The slot lets go of its old handle and takes the new one. -/
theorem Tracks.set {as bs : List (List (Option ℕ))} {xs ys : List (Option ℕ)} {old new : Option ℕ}
    (t : Tracks s (s.refs (as ++ (xs ++ old :: ys) :: bs))) (live : ∀ x ∈ new, s.Live x)
    (careful : ∀ x, old = some x → new = some x → s.ulReferenceCount x ≠ 1) :
    Tracks (s.btSetProcessFileDescriptor old new)
      ((s.btSetProcessFileDescriptor old new).refs (as ++ (xs ++ new :: ys) :: bs)) := by
  have hold : ∀ o, old = some o → s.refs (as ++ (xs ++ old :: ys) :: bs) o ≠ 0 := by
    rintro o rfl
    exact refs_ne_zero_of_mem (List.mem_append_right _ (List.mem_cons_self ..))
      (List.mem_append_right _ (List.mem_cons_self ..))
  have hcreator : (s.btSetProcessFileDescriptor old new).creator = s.creator := by
    simp [btSetProcessFileDescriptor]
  have hrefs : ∀ fd x, s.refs (as ++ (xs ++ fd :: ys) :: bs) x =
      (if fd = some x then 1 else 0) + s.refs (as ++ (xs ++ ys) :: bs) x := by
    intro fd x
    simp only [refs, List.flatten_append, List.flatten_cons, List.count_append, List.count_cons,
      beq_iff_eq]
    omega
  generalize hq : s.refs (as ++ (xs ++ ys) :: bs) = q at hrefs
  have hgoal : ∀ x, (s.btSetProcessFileDescriptor old new).refs (as ++ (xs ++ new :: ys) :: bs) x =
      (if new = some x then 1 else 0) + q x := by
    intro x
    rw [← hrefs]
    simp only [refs, hcreator]
  -- without the old handle
  have t1 : Tracks (s.btCloseHandle old) q := by
    cases old with
    | none => exact t.congr (fun x => by simp [hrefs])
    | some o =>
      apply (t.close (hold o rfl)).congr
      intro x
      by_cases hx : x = o
      · subst hx
        simp [hrefs]
      · simp [Function.update_of_ne hx, hrefs, Ne.symm hx]
  -- and with the new one
  cases new with
  | none => exact t1.congr (fun x => by simp [hgoal])
  | some n =>
    have hn : q n ≠ 0 := by
      have hlive := t.live_iff.mp (live n rfl)
      by_cases hon : old = some n
      · have hcount := t.count n (live n rfl).1 hlive
        have hone := careful n hon rfl
        rw [hcount, hrefs, if_pos hon] at hone
        omega
      · rw [hrefs, if_neg hon] at hlive
        omega
    apply (t1.ref hn).congr
    intro x
    by_cases hx : x = n
    · subst hx
      simp [hgoal, Nat.add_comm]
    · simp [hgoal, Function.update_of_ne hx, Ne.symm hx]

/-- The creator lets go of it. -/
theorem Tracks.closeOwn (t : Tracks s (s.refs procs)) (own : s.creator h = true) :
    Tracks (s.closeOwn h) ((s.closeOwn h).refs procs) := by
  have hr : s.refs procs h ≠ 0 := by
    simp [refs, own]
  have t1 := t.close hr
  have t2 : Tracks (s.closeOwn h) (Function.update (s.refs procs) h (s.refs procs h - 1)) :=
    ⟨t1.count, t1.cleanup, t1.destroy, t1.unborn⟩
  apply t2.congr
  intro x
  by_cases hx : x = h
  · subst hx
    simp [HandleState.closeOwn, refs, own]
  · simp [HandleState.closeOwn, refs, Function.update_of_ne hx]

/-! ## Processes

The handle of a process takes its slots along when it goes. Setting and closing a slot is one
reference less, and for the former one more. -/

/-- The slots of all processes. -/
def slots (procs : List Process) : List (List (Option ℕ)) := procs.map Process.fds

/-- The handles of the processes have been created, are to be destroyed, and have not been. -/
def Housed (s : HandleState) (procs : List Process) : Prop :=
  ∀ p ∈ procs, ∀ x, p.handle = some x → x < s.fresh ∧ s.noDestroy x = false ∧ s.destroyed x = 0

/-- Who is gone had a handle that is destroyed. -/
theorem mem_survivors {ps : List Process} {p : Process} :
    p ∈ s.survivors ps ↔ p ∈ ps ∧ ∀ x, p.handle = some x → s.destroyed x = 0 := by
  rw [survivors, List.mem_filter]
  refine and_congr_right fun _ => ?_
  cases p.handle with
  | none => simp
  | some x => simp

/-- Processes with empty slots can go: the references stay what they are. -/
theorem refs_survivors {ps : List Process}
    (hempty : ∀ p ∈ ps, ∀ x, p.handle = some x → s.destroyed x ≠ 0 → ∀ y, some y ∉ p.fds) (x : ℕ) :
    s.refs (slots (s.survivors ps)) x = s.refs (slots ps) x := by
  have hcount : (slots (s.survivors ps)).flatten.count (some x) =
      (slots ps).flatten.count (some x) := by
    induction ps with
    | nil => rfl
    | cons p ps ih =>
      have hrest := ih fun q hq => hempty q (List.mem_cons_of_mem _ hq)
      have hslots : ∀ ps, slots (p :: ps) = p.fds :: slots ps := fun _ => rfl
      by_cases hp : p.handle.all fun h => s.destroyed h = 0
      · have hkeep : s.survivors (p :: ps) = p :: s.survivors ps := List.filter_cons_of_pos hp
        simp only [hkeep, hslots, List.flatten_cons, List.count_append, hrest]
      · have hdrop : s.survivors (p :: ps) = s.survivors ps := List.filter_cons_of_neg hp
        have hnone : p.fds.count (some x) = 0 := by
          obtain ⟨y, hy, hy0⟩ : ∃ y, p.handle = some y ∧ s.destroyed y ≠ 0 := by
            cases hh : p.handle with
            | none => exact absurd (by simp [hh]) hp
            | some y => exact ⟨y, rfl, fun h0 => hp (by simp [hh, h0])⟩
          exact List.count_eq_zero.mpr (hempty p (List.mem_cons_self ..) y hy hy0 x)
        simp only [hdrop, hslots, List.flatten_cons, List.count_append, hnone, Nat.zero_add, hrest]
  simp only [refs, hcount]

/-- A slot that goes with a handle takes its reference along. -/
theorem refs_survivors_lt {ps : List Process} {p : Process} {x y : ℕ} (hp : p ∈ ps)
    (hx : p.handle = some x) (hgone : s.destroyed x ≠ 0) (hy : some y ∈ p.fds) :
    s.refs (slots (s.survivors ps)) y < s.refs (slots ps) y := by
  obtain ⟨as, bs, rfl⟩ := List.append_of_mem hp
  have hsub : ∀ qs, ((slots (s.survivors qs)).flatten.count (some y)) ≤
      (slots qs).flatten.count (some y) :=
    fun qs => ((List.filter_sublist.map _).flatten).count_le _
  have hpos := List.count_pos_iff.mpr hy
  have hdrop : s.survivors (as ++ p :: bs) = s.survivors as ++ s.survivors bs := by
    have hp : ¬(p.handle.all fun h => s.destroyed h = 0) = true := by simp [hx, hgone]
    have hmiddle : s.survivors (p :: bs) = s.survivors bs := List.filter_cons_of_neg hp
    rw [← hmiddle]
    exact List.filter_append ..
  have has := hsub as
  have hbs := hsub bs
  rw [hdrop]
  simp only [slots, refs, List.map_append, List.map_cons, List.flatten_append, List.flatten_cons,
    List.count_append] at has hbs ⊢
  omega

/-- A handle that is to be destroyed has been when it has no reference left. -/
theorem Tracks.destroyed_iff (t : Tracks s r) (hlt : x < s.fresh) (hnd : s.noDestroy x = false) :
    s.destroyed x ≠ 0 ↔ r x = 0 := by
  rw [t.destroy x hlt]
  by_cases hr : r x = 0
  · simp [hr, hnd]
  · simp [hr]

/-- What holds of handles and processes in every run. -/
structure Kept (s : HandleState) (procs : List Process) : Prop where
  /-- the counts are those of the references -/
  tracks : Tracks s (s.refs (slots procs))
  /-- and the handles of the processes have not been destroyed -/
  housed : Housed s procs

/-- A call dropped a reference to `old` and took one to `new`. The processes are `procs` before it,
and `ps` if none of them went. -/
structure Swap (s s' : HandleState) (procs ps : List Process) (old new : Option ℕ) : Prop where
  /-- the counts are those of the references -/
  tracks : Tracks s' (s'.refs (slots ps))
  fresh : s'.fresh = s.fresh
  noDestroy : s'.noDestroy = s.noDestroy
  /-- no process is new -/
  handle : ∀ p ∈ ps, ∃ p' ∈ procs, p'.handle = p.handle
  /-- there is one reference less to the old handle, and one more to the new -/
  refs : ∀ x, s'.refs (slots ps) x + (if old = some x then 1 else 0) =
    s.refs (slots procs) x + if new = some x then 1 else 0

namespace Swap

variable {s' : HandleState} {before ps : List Process} {old new : Option ℕ} {p : Process}

/-- A process goes if the call has dropped the last reference to its handle. -/
theorem gone_iff (w : Swap s s' before ps old new) (k : Kept s before) (hp : p ∈ ps)
    (hx : p.handle = some x) :
    s'.destroyed x ≠ 0 ↔ old = some x ∧ s.ulReferenceCount x = 1 ∧ new ≠ some x := by
  obtain ⟨p', hp', hh⟩ := w.handle p hp
  obtain ⟨hlt, hnd, hdestroyed⟩ := k.housed p' hp' x (hh.trans hx)
  have hr : s.refs (slots before) x ≠ 0 :=
    fun h0 => (k.tracks.destroyed_iff hlt hnd).mpr h0 hdestroyed
  rw [w.tracks.destroyed_iff (w.fresh ▸ hlt) (w.noDestroy ▸ hnd), k.tracks.count x hlt hr]
  have hrefs := w.refs x
  by_cases hold : old = some x
  · by_cases hnew : new = some x
    · rw [if_pos hold, if_pos hnew] at hrefs
      exact iff_of_false (by omega) fun h => h.2.2 hnew
    · rw [if_pos hold, if_neg hnew] at hrefs
      simp only [hold, hnew, ne_eq, not_false_eq_true, and_true, true_and]
      omega
  · rw [if_neg hold] at hrefs
    exact iff_of_false (by omega) fun h => hold h.1

/-- If those that went had nothing in their slots, nothing is lost. -/
theorem kept (w : Swap s s' before ps old new) (k : Kept s before)
    (hempty : ∀ p ∈ ps, ∀ x, p.handle = some x → s'.destroyed x ≠ 0 → ∀ y, some y ∉ p.fds) :
    Kept s' (s'.survivors ps) where
  tracks := w.tracks.congr (refs_survivors hempty)
  housed := by
    intro p hp x hx
    obtain ⟨hmem, hleft⟩ := mem_survivors.mp hp
    obtain ⟨p', hp', hh⟩ := w.handle p hmem
    obtain ⟨hlt, hnd, -⟩ := k.housed p' hp' x (hh.trans hx)
    exact ⟨w.fresh ▸ hlt, w.noDestroy ▸ hnd, hleft x hx⟩

/-- And if the counts are exact then, they had nothing in their slots. -/
theorem empty_of_exact (w : Swap s s' before ps old new)
    (exact : s'.Exact (slots (s'.survivors ps))) (hp : p ∈ ps) (hx : p.handle = some x)
    (hgone : s'.destroyed x ≠ 0) (y : ℕ) : some y ∉ p.fds := by
  intro hy
  have hr : s'.refs (slots ps) y ≠ 0 := refs_ne_zero_of_mem (List.mem_map_of_mem hp) hy
  have hlive := w.tracks.live_iff.mpr hr
  have hcount := exact.count y hlive
  have hlt := refs_survivors_lt hp hx hgone hy
  rw [w.tracks.count y hlive.1 hr] at hcount
  omega

end Swap

theorem btCloseHandle_fresh (fd : Option ℕ) :
    (s.btCloseHandle fd).fresh = s.fresh ∧ (s.btCloseHandle fd).noDestroy = s.noDestroy := by
  cases fd with
  | none => exact ⟨rfl, rfl⟩
  | some h =>
    simp only [btCloseHandle]
    split_ifs
    all_goals exact ⟨rfl, rfl⟩

theorem btRefHandle_fresh (fd : Option ℕ) : (s.btRefHandle fd).fresh = s.fresh ∧
    (s.btRefHandle fd).noDestroy = s.noDestroy ∧ (s.btRefHandle fd).destroyed = s.destroyed := by
  cases fd <;> exact ⟨rfl, rfl, rfl⟩

theorem foldl_btRefHandle_fresh (fds : List (Option ℕ)) :
    (fds.foldl btRefHandle s).fresh = s.fresh ∧ (fds.foldl btRefHandle s).noDestroy = s.noDestroy ∧
      (fds.foldl btRefHandle s).destroyed = s.destroyed := by
  induction fds generalizing s with
  | nil => exact ⟨rfl, rfl, rfl⟩
  | cons fd fds ih =>
    obtain ⟨h₁, h₂, h₃⟩ := btRefHandle_fresh (s := s) fd
    rw [List.foldl_cons, ← h₁, ← h₂, ← h₃]
    exact ih

section SetSlot

variable {as bs : List Process} {xs ys : List (Option ℕ)} {own old new : Option ℕ}

/-- To set a slot is to swap two references. -/
theorem Kept.swap_set (k : Kept s (as ++ ⟨own, xs ++ old :: ys⟩ :: bs)) (live : ∀ x ∈ new, s.Live x)
    (careful : ∀ x, old = some x → new = some x → s.ulReferenceCount x ≠ 1) :
    Swap s (s.btSetProcessFileDescriptor old new) (as ++ ⟨own, xs ++ old :: ys⟩ :: bs)
      (as ++ ⟨own, xs ++ new :: ys⟩ :: bs) old new := by
  have hslots : ∀ fd, slots (as ++ ⟨own, xs ++ fd :: ys⟩ :: bs) =
      slots as ++ (xs ++ fd :: ys) :: slots bs := fun fd => List.map_append
  have hclose := btCloseHandle_fresh (s := s) old
  have href := btRefHandle_fresh (s := s.btCloseHandle old) new
  refine ⟨?_, href.1.trans hclose.1, href.2.1.trans hclose.2, ?_, ?_⟩
  · have t := k.tracks
    rw [hslots] at t ⊢
    exact t.set live careful
  · intro p hp
    rcases List.mem_append.mp hp with hp | hp
    · exact ⟨p, List.mem_append_left _ hp, rfl⟩
    · rcases List.mem_cons.mp hp with rfl | hp
      · exact ⟨_, List.mem_append_right _ (List.mem_cons_self ..), rfl⟩
      · exact ⟨p, List.mem_append_right _ (List.mem_cons_of_mem _ hp), rfl⟩
  · intro x
    have hcreator : (s.btSetProcessFileDescriptor old new).creator = s.creator := by
      simp [btSetProcessFileDescriptor]
    simp only [hslots, HandleState.refs, hcreator, List.flatten_append, List.flatten_cons,
      List.count_append, List.count_cons, beq_iff_eq]
    omega

/-- What `setSlot` gives. -/
theorem setSlot_eq_some {s' : HandleState} : s.setSlot own old new = some s' ↔
    s' = s.btSetProcessFileDescriptor old new ∧ ∀ x, own = some x → s'.destroyed x = 0 := by
  unfold setSlot
  cases own with
  | none => simp [eq_comm]
  | some x =>
    simp only [Option.all_some, decide_eq_true_eq, Option.ite_none_right_eq_some, Option.some.injEq,
      forall_eq']
    constructor
    · rintro ⟨h0, rfl⟩
      exact ⟨rfl, h0⟩
    · rintro ⟨rfl, h0⟩
      exact ⟨h0, rfl⟩

/-- The process that is set is there afterwards, and is the only one that changed. -/
theorem mem_others {p : Process} {fd : Option ℕ} (hp : p ∈ as ++ ⟨own, xs ++ fd :: ys⟩ :: bs) :
    p.handle = own ∨ ∀ fd', p ∈ as ++ ⟨own, xs ++ fd' :: ys⟩ :: bs := by
  rcases List.mem_append.mp hp with hp | hp
  · exact .inr fun _ => List.mem_append_left _ hp
  · rcases List.mem_cons.mp hp with rfl | hp
    · exact .inl rfl
    · exact .inr fun _ => List.mem_append_right _ (List.mem_cons_of_mem _ hp)

/-- A slot that is set with care. -/
theorem Kept.set (k : Kept s (as ++ ⟨own, xs ++ old :: ys⟩ :: bs)) (live : ∀ x ∈ new, s.Live x)
    (careful : s.Careful (as ++ ⟨own, xs ++ old :: ys⟩ :: bs) old new) :
    ∃ s', s.setSlot own old new = some s' ∧
      Kept s' (s'.survivors (as ++ ⟨own, xs ++ new :: ys⟩ :: bs)) := by
  have w := k.swap_set live fun x hold hnew hone => (careful x hold hone).1 hnew
  have hown : ∀ x, own = some x → (s.btSetProcessFileDescriptor old new).destroyed x = 0 := by
    intro x hx
    by_contra hgone
    -- the slot itself would hold the handle of its process
    obtain ⟨hold, hone, -⟩ :=
      (w.gone_iff k (List.mem_append_right _ (List.mem_cons_self ..)) hx).mp hgone
    exact (careful x hold hone).2 _ (List.mem_append_right _ (List.mem_cons_self ..)) hx x
      (List.mem_append_right _ (hold ▸ List.mem_cons_self ..))
  refine ⟨_, setSlot_eq_some.mpr ⟨rfl, hown⟩, w.kept k fun p hp x hx hgone y => ?_⟩
  obtain ⟨hold, hone, -⟩ := (w.gone_iff k hp hx).mp hgone
  rcases mem_others hp with hp | hp
  · exact absurd (hown x (hp ▸ hx)) hgone
  · exact (careful x hold hone).2 p (hp old) hx y

/-- And what is exact afterwards has been set with care. -/
theorem Kept.careful_of_set {s' : HandleState} (k : Kept s (as ++ ⟨own, xs ++ old :: ys⟩ :: bs))
    (live : ∀ x ∈ new, s.Live x) (run : s.setSlot own old new = some s')
    (exact : s'.Exact (slots (s'.survivors (as ++ ⟨own, xs ++ new :: ys⟩ :: bs)))) :
    s.Careful (as ++ ⟨own, xs ++ old :: ys⟩ :: bs) old new := by
  obtain ⟨rfl, hown⟩ := setSlot_eq_some.mp run
  have hother : ∀ x, old = some x → s.ulReferenceCount x = 1 → new ≠ some x := by
    rintro x rfl hone rfl
    -- the slot has the handle that was just cleaned up
    have hleft : (⟨own, xs ++ some x :: ys⟩ : Process) ∈
        (s.btSetProcessFileDescriptor (some x) (some x)).survivors
        (as ++ ⟨own, xs ++ some x :: ys⟩ :: bs) :=
      mem_survivors.mpr ⟨List.mem_append_right _ (List.mem_cons_self ..), hown⟩
    have hslot := exact.slots _ (List.mem_map_of_mem hleft) x
      (List.mem_append_right _ (List.mem_cons_self ..))
    have hclean : (s.btSetProcessFileDescriptor (some x) (some x)).cleanups x =
        s.cleanups x + 1 := by
      simp [btSetProcessFileDescriptor, btCloseHandle, btUnrefHandle, btRefHandle, hone]
    have hzero := hslot.2
    omega
  have w := k.swap_set live fun x hold hnew hone => hother x hold hone hnew
  intro x hold hone
  refine ⟨hother x hold hone, fun p hp hx y => ?_⟩
  rcases mem_others hp with hown' | hp
  · have hgone :=
      (w.gone_iff k (List.mem_append_right as (List.mem_cons_self ..)) (hown'.symm.trans hx)).mpr
      ⟨hold, hone, hother x hold hone⟩
    exact absurd (hown x (hown'.symm.trans hx)) hgone
  · exact w.empty_of_exact exact (hp new) hx
      ((w.gone_iff k (hp new) hx).mpr ⟨hold, hone, hother x hold hone⟩) y

end SetSlot

/-- To close one's own handle is to drop a reference. -/
theorem Kept.swap_close {ps : List Process} (k : Kept s ps) (own : s.creator h = true) :
    Swap s (s.closeOwn h) ps ps (some h) none := by
  have hclose := btCloseHandle_fresh (s := s) (some h)
  refine ⟨k.tracks.closeOwn own, hclose.1, hclose.2, fun p hp => ⟨p, hp, rfl⟩, fun x => ?_⟩
  by_cases hx : x = h
  · subst hx
    simp [HandleState.closeOwn, HandleState.refs, own, Nat.add_comm]
  · simp [HandleState.closeOwn, HandleState.refs, Function.update_of_ne hx, Ne.symm hx]

/-- The creator closes a handle: the counts are exact for those that are left. -/
theorem Kept.close {ps : List Process} (k : Kept s ps) (own : s.creator h = true)
    (careful : s.Careful ps (some h) none) : Kept (s.closeOwn h) ((s.closeOwn h).survivors ps) := by
  have w := k.swap_close own
  refine w.kept k fun p hp x hx hgone y => ?_
  obtain ⟨hold, hone, -⟩ := (w.gone_iff k hp hx).mp hgone
  exact (careful x hold hone).2 p hp hx y

/-- A new process has a handle of its own, and references what it inherits. -/
theorem Kept.process {ps : List Process} {parent : Process} (k : Kept s ps) (thread : Bool)
    (hparent : parent ∈ ps) :
    Kept (s.btCreateProcess thread parent.fds) (ps ++ [⟨some s.fresh, parent.fds⟩]) := by
  obtain ⟨s1, hs1, t1, hlt, hnew, hold⟩ : ∃ s1 : HandleState,
      s.btCreateProcess thread parent.fds = parent.fds.foldl btRefHandle s1 ∧
      Tracks s1 (s1.refs (slots ps)) ∧ s.fresh < s1.fresh ∧
      (s1.noDestroy s.fresh = false ∧ s1.destroyed s.fresh = 0) ∧
      ∀ x < s.fresh, s1.noDestroy x = s.noDestroy x ∧ s1.destroyed x = s.destroyed x := by
    have t0 := k.tracks.create_refs false
    cases thread with
    | false =>
      refine ⟨_, rfl, t0, Nat.lt_succ_self _, ?_, fun x hx => ?_⟩
      · exact ⟨Function.update_self .., Function.update_self ..⟩
      · exact ⟨Function.update_of_ne hx.ne .., Function.update_of_ne hx.ne ..⟩
    | true =>
      have hne : s.fresh ≠ (s.btCreateHandle false).fresh := Nat.ne_of_lt (Nat.lt_succ_self _)
      refine ⟨_, rfl, t0.create_refs true, Nat.lt_succ_of_lt (Nat.lt_succ_self _), ?_,
        fun x hx => ?_⟩
      · exact ⟨(Function.update_of_ne hne ..).trans (Function.update_self ..),
          (Function.update_of_ne hne ..).trans (Function.update_self ..)⟩
      · have hne' : x ≠ (s.btCreateHandle false).fresh := (hx.trans (Nat.lt_succ_self _)).ne
        exact ⟨(Function.update_of_ne hne' ..).trans (Function.update_of_ne hx.ne ..),
          (Function.update_of_ne hne' ..).trans (Function.update_of_ne hx.ne ..)⟩
  obtain ⟨hfresh, hnd, hdestroyed⟩ := foldl_btRefHandle_fresh (s := s1) parent.fds
  rw [hs1]
  constructor
  · have hslots : slots (ps ++ [⟨some s.fresh, parent.fds⟩]) = slots ps ++ [parent.fds] :=
      List.map_append
    rw [hslots]
    apply (t1.inherit (fun h hh => refs_ne_zero_of_mem (List.mem_map_of_mem hparent) hh)).congr
    intro x
    simp only [refs, foldl_btRefHandle_creator, List.flatten_append, List.flatten_cons,
      List.flatten_nil, List.append_nil, List.count_append]
    omega
  · intro p hp x hx
    rw [hfresh, hnd, hdestroyed]
    rcases List.mem_append.mp hp with hp | hp
    · obtain ⟨hxlt, hxnd, hx0⟩ := k.housed p hp x hx
      rw [(hold x hxlt).1, (hold x hxlt).2]
      exact ⟨hxlt.trans hlt, hxnd, hx0⟩
    · obtain rfl := List.mem_singleton.mp hp
      obtain rfl : s.fresh = x := Option.some.inj hx
      exact ⟨hlt, hnew⟩

/-! ## Runs

The counts are exact in every run without the two steps that the condition excludes. -/

/-- The counts are those of creator and slots, in every run. -/
theorem Reach.kept {ps : List Process} (reach : Reach Careful s ps) : Kept s ps := by
  induction reach with
  | init =>
    refine ⟨?_, fun p hp x hx => ?_⟩
    · constructor <;> intro h hh <;> simp [refs, slots] at hh ⊢
    · obtain rfl := List.mem_singleton.mp hp
      exact absurd hx (by simp)
  | create noDestroy _ ih =>
    refine ⟨ih.tracks.create_refs noDestroy, fun p hp x hx => ?_⟩
    obtain ⟨hlt, hnd, h0⟩ := ih.housed p hp x hx
    exact ⟨Nat.lt_succ_of_lt hlt, (Function.update_of_ne hlt.ne ..).trans hnd,
      (Function.update_of_ne hlt.ne ..).trans h0⟩
  | process thread _ hparent ih => exact ih.process thread hparent
  | set _ live careful run ih =>
    obtain ⟨s', hs', k'⟩ := ih.set live careful
    obtain rfl := Option.some.inj (hs'.symm.trans run)
    exact k'
  | close _ own careful ih => exact ih.close own careful

/-- **When the counts are exact.** They are in every run in which no slot is set to the handle it
already holds as its only reference, and no process is destroyed while its slots hold something; and
a call that does either leaves them wrong, or writes to a slot that is gone. -/
theorem references_exact_iff {ps : List Process} (reach : Reach Careful s ps) :
    s.Exact (slots ps) ∧
    (∀ (as bs : List Process) (xs ys : List (Option ℕ)) (own old new : Option ℕ),
      ps = as ++ ⟨own, xs ++ old :: ys⟩ :: bs → (∀ x ∈ new, s.Live x) →
        ((∃ s', s.setSlot own old new = some s' ∧
            s'.Exact (slots (s'.survivors (as ++ ⟨own, xs ++ new :: ys⟩ :: bs)))) ↔
          s.Careful ps old new)) ∧
    ∀ h, s.creator h = true →
      ((s.closeOwn h).Exact (slots ((s.closeOwn h).survivors ps)) ↔
        s.Careful ps (some h) none) := by
  have k := reach.kept
  refine ⟨k.tracks.exact, ?_, fun h own => ⟨fun exact => ?_, fun careful => ?_⟩⟩
  · rintro as bs xs ys own old new rfl live
    constructor
    · rintro ⟨s', run, exact⟩
      exact k.careful_of_set live run exact
    · intro careful
      obtain ⟨s', run, k'⟩ := k.set live careful
      exact ⟨s', run, k'.tracks.exact⟩
  · have w := k.swap_close own
    intro x hold hone
    refine ⟨by simp, fun p hp hx y => ?_⟩
    exact w.empty_of_exact exact hp hx ((w.gone_iff k hp hx).mpr ⟨hold, hone, by simp⟩) y
  · exact (k.close own careful).tracks.exact

/-- The kernel, with the first handle in its first descriptor. -/
def holdingFirst : List Process := [⟨none, some 0 :: List.replicate 7 none⟩]

/-- The kernel opens a handle, has it in its first descriptor and closes its own: `s`, at the
end of the run. -/
theorem references_exact_iff_kernel :
    ∃ s : HandleState, Reach Careful s holdingFirst ∧ s.Exact (slots holdingFirst) ∧
      s.ulReferenceCount 0 = 1 ∧ ¬s.Careful holdingFirst (some 0) (some 0) := by
  have created : Reach Careful _ [⟨none, List.replicate 8 none⟩] := Reach.create false Reach.init
  have held := @Reach.set Careful _ _ [] [] [] (List.replicate 7 none) none none (some 0) created
    (by rintro x ⟨⟩; exact ⟨by decide, rfl⟩) (by rintro x ⟨⟩) rfl
  have run := @Reach.close Careful _ _ 0 held rfl (by
    rintro x ⟨⟩ hone
    exact absurd hone (by decide))
  exact ⟨_, run, (references_exact_iff run).1, rfl, fun careful => (careful 0 rfl rfl).1 rfl⟩

/-- If it then sets the descriptor again, the descriptor holds a handle that is destroyed. -/
theorem slot_holds_destroyed :
    ∃ s : HandleState, Reach (fun _ _ _ _ => True) s holdingFirst ∧ s.destroyed 0 = 1 ∧
      ¬s.Exact (slots holdingFirst) := by
  have created : Reach (fun _ _ _ _ => True) _ [⟨none, List.replicate 8 none⟩] :=
    Reach.create false Reach.init
  have held := @Reach.set (fun _ _ _ _ => True) _ _ [] [] [] (List.replicate 7 none) none none
    (some 0) created
    (by rintro x ⟨⟩; exact ⟨by decide, rfl⟩) trivial rfl
  have closed := @Reach.close (fun _ _ _ _ => True) _ _ 0 held rfl trivial
  have run := @Reach.set (fun _ _ _ _ => True) _ _ [] [] [] (List.replicate 7 none) none (some 0)
    (some 0) closed
    (by rintro x ⟨⟩; exact ⟨by decide, rfl⟩) trivial rfl
  refine ⟨_, run, rfl, fun exact => ?_⟩
  have hslot := exact.slots _ (List.mem_cons_self ..) 0 (List.mem_cons_self ..)
  exact absurd hslot.2 (by decide)

end HandleState

end BitThunder
