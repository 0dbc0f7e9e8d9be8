import Mathlib.Logic.Function.Basic
import Mathlib.Data.List.Basic

/-!
# Softirqs

`os/src/interrupts/bt_softirq.c`. A raise sets a bit in a word and releases a mutex; a thread waits
for the mutex, takes the word, clears it and calls the handler of each bit. The word is not
guarded. An interrupt can raise between any two accesses to it, and a raise from a thread reads it
and writes it back in two steps.

* `SoftirqState.Ok`, `Ok.step`: where a raise that has not been answered is kept;
* `softirq_answered`: no raise is lost if no bit is set behind the back of a thread that is about
  to write the word;
* `softirq_lost`: otherwise one can be.

`Due` is where a raise can be while it has not been answered: in the word, with the semaphore or
somebody who will still release it; in what the dispatcher has taken and not gone through yet; or
with a thread that has not set its bit. Each step moves a raise from one of these places to another
or answers it, unless a word is written back that was read before the bit was set. `Careful` says
that this does not happen.

The semaphore is binary, so that a release may be swallowed by another. This does no harm: the
dispatcher that takes it reads the word afterwards.
-/

namespace BitThunder

/-- Where `softirq_dispatcher` is, named for what it does next. -/
inductive Dispatcher : Type where
  /-- `BT_kMutexPend`, which blocks until the mutex is signalled -/
  | pend
  /-- `ulPending = g_ulPending` and the test of it -/
  | read
  /-- `g_ulPending = 0` -/
  | clear (ulPending : BitVec 32)
  /-- one round of the loop, with `p` the number of the softirq -/
  | loop (ulPending : BitVec 32) (p : ℕ)
  /-- it has called a handler that was never registered -/
  | fault
  deriving DecidableEq

/-- Where a thread is in `BT_RaiseSoftIRQ`, named for what it does next. -/
inductive Raiser : Type where
  /-- it is not in there -/
  | out
  /-- read `g_ulPending` -/
  | read (ulSoftIRQ : ℕ)
  /-- write it back, with a bit set in what was read -/
  | write (ulSoftIRQ : ℕ) (old : BitVec 32)
  /-- `BT_kMutexReleaseFromISR` -/
  | release
  deriving DecidableEq

/-- The softirqs, the dispatcher and the threads. A handler that raises a softirq counts as one of
the threads. -/
structure SoftirqState (τ : Type) : Type where
  /-- the softirqs whose `pfnHandler` is set -/
  registered : ℕ → Bool
  gUlPending : BitVec 32
  /-- the binary semaphore behind `g_pvMutex` -/
  signalled : Bool
  dispatcher : Dispatcher
  thread : τ → Raiser

/-- What can happen next. -/
inductive SoftirqAction (τ : Type) : Type where
  /-- a call of `BT_OpenSoftIRQ` -/
  | register (ulSoftIRQ : ℕ)
  /-- a call of `BT_RaiseSoftIRQFromISR` in an interrupt -/
  | isr (ulSoftIRQ : ℕ)
  /-- a thread enters `BT_RaiseSoftIRQ` -/
  | enter (t : τ) (ulSoftIRQ : ℕ)
  /-- a thread does its next step in there -/
  | go (t : τ)
  /-- the dispatcher does its next step -/
  | dispatch

/-- What a run is judged by. -/
inductive SoftirqEvent : Type where
  /-- a raise begins -/
  | raise (ulSoftIRQ : ℕ)
  /-- a handler is called -/
  | run (ulSoftIRQ : ℕ)
  deriving DecidableEq

namespace SoftirqState

variable {τ : Type} [DecidableEq τ]

/-- `BT_CONFIG_SOFTIRQ_MAX` -/
def btConfigSoftirqMax : ℕ := 32

/-- After `bt_softirq_init`, which takes the mutex. -/
def init (registered : ℕ → Bool) : SoftirqState τ := ⟨registered, 0, false, .pend, fun _ => .out⟩

/-- `BT_OpenSoftIRQ` -/
def btOpenSoftIRQ (s : SoftirqState τ) (ulSoftIRQ : ℕ) : SoftirqState τ :=
  { s with registered := Function.update s.registered ulSoftIRQ true }

/-- `BT_RaiseSoftIRQFromISR` -/
def btRaiseSoftIRQFromISR (s : SoftirqState τ) (ulSoftIRQ : ℕ) : SoftirqState τ :=
  if ulSoftIRQ < btConfigSoftirqMax then
    { s with gUlPending := s.gUlPending ||| 1#32 <<< ulSoftIRQ, signalled := true }
  else s

/-- The same steps one by one, as `BT_RaiseSoftIRQ` does them in a thread. -/
def btRaiseSoftIRQ (s : SoftirqState τ) (t : τ) : SoftirqState τ :=
  match s.thread t with
  | .out => s
  | .read n => { s with thread := Function.update s.thread t (.write n s.gUlPending) }
  | .write n old =>
    { s with gUlPending := old ||| 1#32 <<< n, thread := Function.update s.thread t .release }
  | .release => { s with signalled := true, thread := Function.update s.thread t .out }

/-- One step of `softirq_dispatcher` -/
def softirqDispatcher (s : SoftirqState τ) : SoftirqState τ :=
  match s.dispatcher with
  | .pend => if s.signalled then { s with signalled := false, dispatcher := .read } else s
  | .read => { s with dispatcher := if s.gUlPending = 0 then .pend else .clear s.gUlPending }
  | .clear ulPending => { s with gUlPending := 0, dispatcher := .loop ulPending 0 }
  | .loop ulPending p =>
    if ulPending.getLsbD 0 && !s.registered p then { s with dispatcher := .fault }
    else { s with
      dispatcher := if ulPending >>> 1 = 0 then .pend else .loop (ulPending >>> 1) (p + 1) }
  | .fault => s

/-- One step. A thread enters `BT_RaiseSoftIRQ` only if it is not in there, and leaves at once if
there is no such softirq. -/
def step (s : SoftirqState τ) : SoftirqAction τ → SoftirqState τ
  | .register n => s.btOpenSoftIRQ n
  | .isr n => s.btRaiseSoftIRQFromISR n
  | .enter t n =>
    if s.thread t = .out ∧ n < btConfigSoftirqMax then
      { s with thread := Function.update s.thread t (.read n) }
    else s
  | .go t => s.btRaiseSoftIRQ t
  | .dispatch => s.softirqDispatcher

/-- The event of a step, if it has one. -/
def event (s : SoftirqState τ) : SoftirqAction τ → Option SoftirqEvent
  | .isr n => if n < btConfigSoftirqMax then some (.raise n) else none
  | .enter t n => if s.thread t = .out ∧ n < btConfigSoftirqMax then some (.raise n) else none
  | .dispatch =>
    match s.dispatcher with
    | .loop ulPending p => if ulPending.getLsbD 0 && s.registered p then some (.run p) else none
    | _ => none
  | _ => none

/-- The runs whose steps all satisfy `ok`, with their events. -/
inductive Run (ok : SoftirqState τ → SoftirqAction τ → Prop) (registered : ℕ → Bool) :
    List SoftirqEvent → SoftirqState τ → Prop where
  | nil : Run ok registered [] (init registered)
  | cons {log : List SoftirqEvent} {s : SoftirqState τ} (run : Run ok registered log s)
      {a : SoftirqAction τ} (h : ok s a) : Run ok registered (log ++ (s.event a).toList) (s.step a)

/-- The dispatcher is blocked, and no thread is inside `BT_RaiseSoftIRQ`. -/
structure Quiet (s : SoftirqState τ) : Prop where
  /-- the dispatcher waits -/
  blocked : s.dispatcher = .pend
  /-- nobody has woken it -/
  unsignalled : s.signalled = false
  /-- no thread is about to raise anything -/
  out : ∀ t, s.thread t = .out

/-- No bit has been set behind the back of a thread that is about to write the word: those that are
set were in what it has read, or are the one it sets. -/
def Careful (s : SoftirqState τ) : SoftirqAction τ → Prop
  | .go t => ∀ n old, s.thread t = .write n old → s.gUlPending &&& ~~~(old ||| 1#32 <<< n) = 0
  | .dispatch => ∀ ulPending, s.dispatcher = .clear ulPending → s.gUlPending &&& ~~~ulPending = 0
  | _ => True

end SoftirqState

/-- Each raise is followed by a call of its handler. -/
def Answered (log : List SoftirqEvent) : Prop :=
  ∀ n before after, log = before ++ .raise n :: after → .run n ∈ after

/-- A raise of `n` is not. -/
def Unanswered (log : List SoftirqEvent) (n : ℕ) : Prop :=
  ∃ before after, log = before ++ .raise n :: after ∧ .run n ∉ after

/-- The last event decides: a raise is not answered yet, a call answers all of its number. -/
theorem unanswered_concat {log : List SoftirqEvent} {e : SoftirqEvent} {n : ℕ}
    (h : Unanswered (log ++ [e]) n) : e = .raise n ∨ Unanswered log n ∧ e ≠ .run n := by
  obtain ⟨before, after, hlog, hrun⟩ := h
  rcases List.eq_nil_or_concat after with rfl | ⟨init, last, rfl⟩
  · obtain ⟨-, heq⟩ := List.append_inj' hlog rfl
    exact .inl (List.singleton_inj.mp heq)
  · rw [List.concat_eq_append] at hlog hrun
    rw [← List.cons_append, ← List.append_assoc] at hlog
    obtain ⟨rfl, heq⟩ := List.append_inj' hlog rfl
    obtain rfl := List.singleton_inj.mp heq
    rw [List.mem_append, not_or, List.mem_singleton] at hrun
    exact .inr ⟨⟨before, init, rfl, hrun.1⟩, Ne.symm hrun.2⟩

/-- A log in which nothing is unanswered is answered. -/
theorem answered_of_not_unanswered {log : List SoftirqEvent} (h : ∀ n, ¬ Unanswered log n) :
    Answered log := by
  intro n before after hlog
  by_contra hrun
  exact h n ⟨before, after, hlog, hrun⟩

/-! ## Bits

A number is due if its bit is somewhere. The places are gone through for each step, with one lemma
for the threads and one for the dispatcher. -/

/-- A bit of a word is one of any word that it is part of. -/
theorem getLsbD_of_and_not {a b : BitVec 32} (h : a &&& ~~~b = 0) {i : ℕ} (hi : a.getLsbD i) :
    b.getLsbD i := by
  have hbit : (a &&& ~~~b).getLsbD i = false := by
    rw [h, BitVec.ofNat_eq_ofNat, BitVec.getLsbD_zero]
  rw [BitVec.getLsbD_and, hi, Bool.true_and, BitVec.getLsbD_not] at hbit
  have hlt := BitVec.lt_of_getLsbD hi
  simpa [hlt] using hbit

theorem getLsbD_or_one_shiftLeft (a : BitVec 32) {n : ℕ} (hn : n < 32) :
    (a ||| 1#32 <<< n).getLsbD n := by
  simp [hn]

namespace SoftirqState

variable {τ : Type} [DecidableEq τ] {s s' : SoftirqState τ} {a : SoftirqAction τ} {n : ℕ}

/-- The dispatcher will read the word again. -/
def Woken (s : SoftirqState τ) : Prop :=
  s.signalled = true ∨ s.dispatcher = .read ∨ ∃ t, s.thread t = .release

/-- Where a raise that is not answered is kept: in the word, in what the dispatcher has taken from
it, or with a thread that has not set the bit yet. -/
inductive Due (s : SoftirqState τ) (n : ℕ) : Prop where
  | pending (h : s.gUlPending.getLsbD n) (woken : s.Woken)
  | taken (v : BitVec 32) (h : s.dispatcher = .clear v) (bit : v.getLsbD n)
  | queued (v : BitVec 32) (p : ℕ) (h : s.dispatcher = .loop v p) (le : p ≤ n)
    (bit : v.getLsbD (n - p))
  | entering (t : τ) (h : s.thread t = .read n)
  | setting (t : τ) (old : BitVec 32) (h : s.thread t = .write n old)
  | fault (h : s.dispatcher = .fault)

/-- What holds after every step of a run. -/
def Ok (log : List SoftirqEvent) (s : SoftirqState τ) : Prop :=
  ∀ n, Unanswered log n → n < btConfigSoftirqMax ∧ s.Due n

omit [DecidableEq τ] in
/-- A step of neither the dispatcher nor of a thread inside. -/
theorem Due.mono (due : s.Due n) (hdispatcher : s'.dispatcher = s.dispatcher)
    (hpending : ∀ i, s.gUlPending.getLsbD i → s'.gUlPending.getLsbD i)
    (hsignalled : s.signalled = true → s'.signalled = true)
    (hthread : ∀ t, s.thread t ≠ .out → s'.thread t = s.thread t) : s'.Due n := by
  cases due with
  | pending h woken =>
    refine .pending (hpending n h) ?_
    rcases woken with hsig | hread | ⟨t, ht⟩
    · exact .inl (hsignalled hsig)
    · exact .inr (.inl (hdispatcher.trans hread))
    · exact .inr (.inr ⟨t, (hthread t (by simp [ht])).trans ht⟩)
  | taken v h bit => exact .taken v (hdispatcher.trans h) bit
  | queued v p h le bit => exact .queued v p (hdispatcher.trans h) le bit
  | entering t h => exact .entering t ((hthread t (by simp [h])).trans h)
  | setting t old h => exact .setting t old ((hthread t (by simp [h])).trans h)
  | fault h => exact .fault (hdispatcher.trans h)

omit [DecidableEq τ] in
/-- Another softirq raised by an interrupt does not make one less due. -/
theorem Due.isr (due : s.Due n) (m : ℕ) : (s.btRaiseSoftIRQFromISR m).Due n := by
  unfold btRaiseSoftIRQFromISR
  split_ifs
  · refine due.mono rfl (fun i hi => ?_) (fun _ => rfl) (fun _ _ => rfl)
    rw [BitVec.getLsbD_or, hi, Bool.true_or]
  · exact due

/-- A thread that is not outside keeps its place when another one moves. -/
theorem update_thread {t t' : τ} {r r' : Raiser} (h : s.thread t' = r) (hne : r ≠ s.thread t) :
    Function.update s.thread t r' t' = r := by
  rw [Function.update_of_ne, h]
  rintro rfl
  exact hne h.symm

/-- What a thread sets is kept in the word, and so is what was there. -/
theorem Due.go {t : τ} (careful : s.Careful (.go t)) (hn : n < btConfigSoftirqMax) (due : s.Due n) :
    (s.btRaiseSoftIRQ t).Due n := by
  unfold btRaiseSoftIRQ
  split
  next => exact due
  next m ht =>
    cases due with
    | pending h woken =>
      refine .pending h (woken.imp_right (Or.imp_right ?_))
      rintro ⟨t', ht'⟩
      exact ⟨t', update_thread ht' (by simp [ht])⟩
    | taken v h bit => exact .taken v h bit
    | queued v p h le bit => exact .queued v p h le bit
    | entering t' h =>
      by_cases heq : t' = t
      · subst heq
        obtain rfl : n = m := by simpa [h] using ht
        exact .setting t' s.gUlPending (Function.update_self _ _ _)
      · exact .entering t' ((Function.update_of_ne heq _ _).trans h)
    | setting t' old h => exact .setting t' old (update_thread h (by simp [ht]))
    | fault h => exact .fault h
  next m old ht =>
    -- the thread is about to release the mutex
    have hrelease : (Function.update s.thread t .release) t = .release := Function.update_self _ _ _
    cases due with
    | pending h woken =>
      exact .pending (getLsbD_of_and_not (careful m old ht) h) (.inr (.inr ⟨t, hrelease⟩))
    | taken v h bit => exact .taken v h bit
    | queued v p h le bit => exact .queued v p h le bit
    | entering t' h => exact .entering t' (update_thread h (by simp [ht]))
    | setting t' old' h =>
      by_cases heq : t' = t
      · subst heq
        obtain ⟨rfl, rfl⟩ : n = m ∧ old' = old := by simpa [h] using ht
        exact .pending (getLsbD_or_one_shiftLeft old' hn) (.inr (.inr ⟨t', hrelease⟩))
      · exact .setting t' old' ((Function.update_of_ne heq _ _).trans h)
    | fault h => exact .fault h
  next ht =>
    cases due with
    | pending h woken => exact .pending h (.inl rfl)
    | taken v h bit => exact .taken v h bit
    | queued v p h le bit => exact .queued v p h le bit
    | entering t' h => exact .entering t' (update_thread h (by simp [ht]))
    | setting t' old h => exact .setting t' old (update_thread h (by simp [ht]))
    | fault h => exact .fault h

omit [DecidableEq τ] in
/-- What the dispatcher takes is kept by it until it calls the handler. -/
theorem Due.dispatch (careful : s.Careful .dispatch) (hrun : s.event .dispatch ≠ some (.run n))
    (due : s.Due n) :
    s.softirqDispatcher.Due n := by
  unfold softirqDispatcher
  split
  next hpend =>
    split_ifs with hsig
    · cases due with
      | pending h woken => exact .pending h (.inr (.inl rfl))
      | entering t h => exact .entering t h
      | setting t old h => exact .setting t old h
      | taken v h bit => simp [hpend] at h
      | queued v p h le bit => simp [hpend] at h
      | fault h => simp [hpend] at h
    · exact due
  next hread =>
    cases due with
    | pending h woken =>
      have hne : s.gUlPending ≠ 0 := by
        intro hzero
        simp [hzero] at h
      exact .taken s.gUlPending (if_neg hne) h
    | entering t h => exact .entering t h
    | setting t old h => exact .setting t old h
    | taken v h bit => simp [hread] at h
    | queued v p h le bit => simp [hread] at h
    | fault h => simp [hread] at h
  next v hclear =>
    cases due with
    | pending h woken =>
      exact .queued v 0 rfl (Nat.zero_le n) (getLsbD_of_and_not (careful v hclear) h)
    | entering t h => exact .entering t h
    | setting t old h => exact .setting t old h
    | taken v' h bit =>
      obtain rfl : v = v' := by simpa [hclear] using h
      exact .queued v 0 rfl (Nat.zero_le n) bit
    | queued v' p h le bit => simp [hclear] at h
    | fault h => simp [hclear] at h
  next v p hloop =>
    by_cases hfault : v.getLsbD 0 && !s.registered p
    · rw [if_pos hfault]
      exact .fault rfl
    rw [if_neg hfault]
    cases due with
    | pending h woken =>
      refine .pending h (woken.imp_right (Or.imp_left ?_))
      rw [hloop]
      exact Dispatcher.noConfusion
    | entering t h => exact .entering t h
    | setting t old h => exact .setting t old h
    | taken v' h bit => simp [hloop] at h
    | queued v' p' h le bit =>
      obtain ⟨rfl, rfl⟩ : v = v' ∧ p = p' := by simpa [hloop] using h
      -- its handler is not the one called now, so the bit is not the lowest one
      have hne : p ≠ n := by
        rintro rfl
        rw [Nat.sub_self] at bit
        simp [event, hloop, bit] at hrun hfault
        simp [hrun] at hfault
      have hshift : (v >>> 1).getLsbD (n - (p + 1)) := by
        rw [BitVec.getLsbD_ushiftRight, (by omega : 1 + (n - (p + 1)) = n - p)]
        exact bit
      have hrest : v >>> 1 ≠ 0 := by
        intro hzero
        simp [hzero] at hshift
      exact .queued (v >>> 1) (p + 1) (if_neg hrest) (by omega) hshift
    | fault h => simp [hloop] at h
  next => exact due

/-- A raise is kept from the step it begins with. -/
theorem due_of_raise (hevent : s.event a = some (.raise n)) :
    n < btConfigSoftirqMax ∧ (s.step a).Due n := by
  cases a with
  | isr m =>
    simp only [event, Option.ite_none_right_eq_some, Option.some.injEq,
      SoftirqEvent.raise.injEq] at hevent
    obtain ⟨hm, rfl⟩ := hevent
    refine ⟨hm, ?_⟩
    simp only [step, btRaiseSoftIRQFromISR, if_pos hm]
    exact .pending (getLsbD_or_one_shiftLeft s.gUlPending hm) (.inl rfl)
  | enter t m =>
    simp only [event, Option.ite_none_right_eq_some, Option.some.injEq,
      SoftirqEvent.raise.injEq] at hevent
    obtain ⟨hm, rfl⟩ := hevent
    refine ⟨hm.2, ?_⟩
    simp only [step, if_pos hm]
    exact .entering t (Function.update_self _ _ _)
  | dispatch =>
    simp only [event] at hevent
    split at hevent <;> simp at hevent
  | register m => simp [event] at hevent
  | go t => simp [event] at hevent

/-- A raise that is kept still is after a step, unless the step answers it. -/
theorem Due.step (careful : s.Careful a) (hn : n < btConfigSoftirqMax)
    (hrun : s.event a ≠ some (.run n)) (due : s.Due n) : (s.step a).Due n := by
  cases a with
  | register m => exact due.mono rfl (fun _ h => h) id (fun _ _ => rfl)
  | isr m => exact due.isr m
  | enter t m =>
    simp only [SoftirqState.step]
    split_ifs with hm
    · refine due.mono rfl (fun _ h => h) id (fun t' ht' => ?_)
      refine Function.update_of_ne ?_ _ _
      rintro rfl
      exact ht' hm.1
    · exact due
  | go t => exact due.go careful hn
  | dispatch => exact due.dispatch careful hrun

theorem Ok.step {log : List SoftirqEvent} (ok : s.Ok log) (careful : s.Careful a) :
    (s.step a).Ok (log ++ (s.event a).toList) := by
  intro n hn
  rcases hevent : s.event a with - | e
  · rw [hevent, Option.toList_none, List.append_nil] at hn
    obtain ⟨hlt, due⟩ := ok n hn
    exact ⟨hlt, due.step careful hlt (by simp [hevent])⟩
  · rw [hevent] at hn
    rcases unanswered_concat hn with rfl | ⟨hold, hrun⟩
    · exact due_of_raise hevent
    · obtain ⟨hlt, due⟩ := ok n hold
      exact ⟨hlt, due.step careful hlt (by simpa [hevent] using hrun)⟩

theorem Run.ok {registered : ℕ → Bool} {log : List SoftirqEvent}
    (run : Run Careful registered log s) : s.Ok log := by
  induction run with
  | nil =>
    rintro n ⟨before, after, hlog, -⟩
    simp at hlog
  | cons run careful ih => exact ih.step careful

omit [DecidableEq τ] in
/-- Nothing is kept in a quiet state. -/
theorem Quiet.not_due (quiet : s.Quiet) : ¬ s.Due n := by
  intro due
  cases due with
  | pending h woken =>
    rcases woken with hsig | hread | ⟨t, ht⟩
    · simp [quiet.unsignalled] at hsig
    · simp [quiet.blocked] at hread
    · simp [quiet.out] at ht
  | taken v h bit => simp [quiet.blocked] at h
  | queued v p h le bit => simp [quiet.blocked] at h
  | entering t h => simp [quiet.out] at h
  | setting t old h => simp [quiet.out] at h
  | fault h => simp [quiet.blocked] at h

end SoftirqState

open SoftirqState in
/-- **No raised softirq is lost** in a run in which no bit is set between a read of the word and
the write that follows it, or only bits that the write sets as well: once all is quiet, a handler
has been called after each raise. -/
theorem softirq_answered {τ : Type} [DecidableEq τ] {registered : ℕ → Bool}
    {log : List SoftirqEvent} {s : SoftirqState τ} (run : Run Careful registered log s)
    (quiet : s.Quiet) : Answered log := by
  apply answered_of_not_unanswered
  intro n hn
  exact quiet.not_due (run.ok n hn).2

/-- An interrupt raises a softirq while a thread raises another, and the dispatcher calls both
handlers. -/
theorem softirq_answered_two : Answered [.raise 1, .raise 0, .run 0, .run 1] := by
  have h₀ : SoftirqState.Run SoftirqState.Careful (fun _ => true) []
      (SoftirqState.init fun _ => true) := .nil (τ := Unit)
  have h₁ := h₀.cons (a := .enter () 1) trivial
  have h₂ := h₁.cons (a := .isr 0) trivial
  have h₃ := h₂.cons (a := .go ()) nofun
  have h₄ := h₃.cons (a := .go ()) (by rintro n old ⟨⟩; decide)
  have h₅ := h₄.cons (a := .go ()) nofun
  have h₆ := h₅.cons (a := .dispatch) nofun
  have h₇ := h₆.cons (a := .dispatch) nofun
  have h₈ := h₇.cons (a := .dispatch) (by rintro v ⟨⟩; decide)
  have h₉ := h₈.cons (a := .dispatch) nofun
  have h₁₀ := h₉.cons (a := .dispatch) nofun
  exact softirq_answered h₁₀ ⟨rfl, rfl, fun _ => rfl⟩

/-- An interrupt raises a softirq when the dispatcher has read the word and has not cleared it: the
handler is not called, though nothing else goes on. -/
theorem softirq_lost :
    let s : SoftirqState Unit :=
  [.isr 0, .dispatch, .dispatch, .isr 1, .dispatch, .dispatch, .dispatch,
      .dispatch].foldl SoftirqState.step (SoftirqState.init fun _ => true)
    SoftirqState.Run (fun _ _ => True) (fun _ => true) [.raise 0, .raise 1, .run 0] s ∧ s.Quiet ∧
      ¬Answered [.raise 0, .raise 1, .run 0] := by
  have h₀ : SoftirqState.Run (fun _ _ => True) (fun _ => true) []
      (SoftirqState.init fun _ => true) :=
    .nil (τ := Unit)
  have h₁ := h₀.cons (a := .isr 0) trivial
  have h₂ := h₁.cons (a := .dispatch) trivial
  have h₃ := h₂.cons (a := .dispatch) trivial
  have h₄ := h₃.cons (a := .isr 1) trivial
  have h₅ := h₄.cons (a := .dispatch) trivial
  have h₆ := h₅.cons (a := .dispatch) trivial
  have h₇ := h₆.cons (a := .dispatch) trivial
  have h₈ := h₇.cons (a := .dispatch) trivial
  refine ⟨h₈, ⟨rfl, rfl, fun _ => rfl⟩, fun hanswered => ?_⟩
  exact absurd (hanswered 1 [.raise 0] [.run 0] rfl) (by decide)

end BitThunder
