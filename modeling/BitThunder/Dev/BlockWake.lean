import BitThunder.Dev.BlockOnce
import Mathlib.Data.Fintype.Basic

/-!
# A completion can go unnoticed

All completions are signalled by one bit of `g_event_group`, which a wait clears. A client tests
`bDone` first and waits then. If its request is done in between, the bit that says so may be
cleared by another client, and the client waits for a bit that nobody sets any more.

* `LostWake`: such a state; `lostWake_two`: it is reached;
* `Careful`: no step clears the bit while another client is between its test and its wait and
  its request is done;
* `woken_of_careful`: in a run of careful steps, every client whose request is done goes on.

The invariant for careful runs looks at the two places where a client can lose the signal: between
its test of `bDone` and the wait, and in the wait. In the first the bit has to be set or about to be
set, in the second it has to be about to be set, because a bit that is set ends the wait. The
scheduler owes a signal after each request. The bit is set for all, but the first client that waits
for it clears it; and this is a careful step only if no other client with a completed request is on
its way into the wait.
-/

namespace BitThunder

namespace BlockState

variable {ι : Type} [DecidableEq ι] {s s' s₀ : BlockState ι} {a : BlockAction ι} {c d : ι}
  {xs fl : List ι}

/-- The scheduler waits for a notification, and there is none and none to come; a client waits
for the bit, which is clear, although its request is done. -/
def LostWake (s : BlockState ι) : Prop :=
  s.sched = .take ∧ s.notifications = 0 ∧ (∀ c, (s.client c).phase.InFlight = false) ∧
  s.bit = false ∧
    ∃ c, (s.client c).phase = .blocked ∧ (s.client c).bDone = true

/-- Both clients have tested `bDone` when their requests are executed. One takes the bit, and
the other one waits. -/
def twoWaits : List (BlockAction Bool) :=
  [.start false ⟨3, false, 10, 2, 64⟩] ++ List.replicate 5 (.client false) ++
    [.start true ⟨4, true, 20, 1, 128⟩] ++ List.replicate 5 (.client true) ++
    List.replicate 20 (.sched 0) ++ [.client true, .client false]

/-- Both clients have tested `bDone` and are about to wait: the bit wakes one, and the other one
waits for ever. -/
theorem lostWake_two : Initial (booted : BlockState Bool) ∧
    ∃ s, Reachable (booted : BlockState Bool) s ∧ s.LostWake := by
  have hrun : ∃ s, booted.run twoWaits = some s ∧ s.LostWake :=
    ⟨_, rfl, rfl, rfl, by decide, rfl, false, rfl, rfl⟩
  obtain ⟨s, hs, hlost⟩ := hrun
  exact ⟨initial_booted, s, Reachable.init.run hs, hlost⟩

/-! ## Careful steps

A careful step is one that takes the signal away from nobody. That the signal is there for each
client who needs it is then kept by every step. -/

/-- The action clears the bit, and is not one of the client. -/
def clears (s : BlockState ι) (c : ι) : BlockAction ι → Bool
  | .client d => decide (d ≠ c ∧ (s.client d).phase = .wait) && s.bit
  | .sched _ =>
    match s.sched with
    | .setBits _ => !s.waiters.isEmpty
    | _ => false
  | .start _ _ | .reuse _ _ _ _ => false

/-- The bit is not cleared while another client, whose request is done, is about to wait for it. -/
def Careful (s : BlockState ι) (a : BlockAction ι) : Prop :=
  ∀ c, (s.client c).phase = .wait → (s.client c).bDone = true → s.clears c a = false

/-- A run of careful steps. -/
def CarefulRun (s : BlockState ι) : List (BlockAction ι) → Prop
  | [] => True
  | a :: as => s.Careful a ∧ ∀ s' ∈ s.step a, s'.CarefulRun as

instance decidableCareful [Fintype ι] (s : BlockState ι) (a : BlockAction ι) :
    Decidable (s.Careful a) :=
  inferInstanceAs (Decidable (∀ c, (s.client c).phase = .wait → (s.client c).bDone = true →
  s.clears c a = false))

instance decidableCarefulRun [Fintype ι] :
    (s : BlockState ι) → (as : List (BlockAction ι)) → Decidable (s.CarefulRun as)
  | _, [] => inferInstanceAs (Decidable True)
  | s, a :: as =>
    have := fun s' => decidableCarefulRun s' as
    inferInstanceAs (Decidable (s.Careful a ∧ ∀ s' ∈ s.step a, s'.CarefulRun as))

/-- The bit is set, or about to be, for those who are about to wait; about to be, for those who
wait. -/
structure Signalled (s : BlockState ι) : Prop where
  /-- who waits for a request that is done will find the bit set -/
  wait : ∀ c, (s.client c).phase = .wait → (s.client c).bDone = true →
    s.bit = true ∨ ∃ next, s.sched = .setBits next
  /-- who is blocked is still to be woken by the scheduler -/
  blocked : ∀ c, (s.client c).phase = .blocked → (s.client c).bDone = true →
    ∃ next, s.sched = .setBits next

namespace Signalled

/-- A client goes on: it neither begins to wait nor takes the bit. -/
theorem goto {t : BlockState ι} {phase : ClientPhase} (h : Signalled s)
    (hclient : t.client = s.client) (hsched : t.sched = s.sched) (hbit : t.bit = s.bit)
    (hw : phase = .wait → (s.client c).bDone = false)
    (hb : phase = .blocked → (s.client c).bDone = true → ∃ next, s.sched = .setBits next) :
    Signalled (t.goto c phase) := by
  have hself : (t.goto c phase).client c = { s.client c with phase := phase } := by
    rw [goto_self, hclient]
  have hother : ∀ d, d ≠ c → (t.goto c phase).client d = s.client d :=
    fun d hd => (goto_of_ne t c phase hd).trans (congrFun hclient d)
  have hs : (t.goto c phase).sched = s.sched := hsched
  have hbit' : (t.goto c phase).bit = s.bit := hbit
  refine ⟨fun d hp hd => ?_, fun d hp hd => ?_⟩
  · rw [hs, hbit']
    by_cases hdc : d = c
    · rw [hdc, hself] at hp hd
      have hfalse := hw hp
      rw [show (s.client c).bDone = true from hd] at hfalse
      simp at hfalse
    · rw [hother d hdc] at hp hd
      exact h.wait d hp hd
  · rw [hs]
    by_cases hdc : d = c
    · rw [hdc, hself] at hp hd
      exact hb hp hd
    · rw [hother d hdc] at hp hd
      exact h.blocked d hp hd

/-- The bit is taken by the only one who may be about to wait for it. -/
theorem consume (h : Signalled s) (hp : (s.client c).phase = .wait) (hb : s.bit = true)
    (hc : s.Careful (.client c)) :
    Signalled ({ s with bit := false }.goto c .test) := by
  refine ⟨fun d hd hdone => ?_, fun d hd hdone => ?_⟩
  · by_cases hdc : d = c
    · rw [hdc, goto_self] at hd
      simp at hd
    · rw [goto_of_ne _ c _ hdc] at hd hdone
      have hclear := hc d hd hdone
      simp [clears, hp, hb, Ne.symm hdc] at hclear
  · by_cases hdc : d = c
    · rw [hdc, goto_self] at hd
      simp at hd
    · rw [goto_of_ne _ c _ hdc] at hd hdone
      exact h.blocked d hd hdone

/-- A client's step leaves a signal for everyone who waits, if it is a careful one. -/
theorem client (h : Signalled s) (hc : s.Careful (.client c)) (hs : ClientMove s c s') :
    Signalled s' := by
  cases hs with
  | pend hp hm => exact h.goto rfl rfl rfl (by simp) (by simp)
  | insert hp => exact h.goto rfl rfl rfl (by simp) (by simp)
  | release hp => exact h.goto rfl rfl rfl (by simp) (by simp)
  | notify hp => exact h.goto rfl rfl rfl (by simp) (by simp)
  | finish hp hd => exact h.goto rfl rfl rfl (by simp) (by simp)
  | again hp hd => exact h.goto rfl rfl rfl (fun _ => hd) (by simp)
  | consume hp hb => exact h.consume hp hb hc
  | block hp hb =>
    refine h.goto rfl rfl rfl (by simp) fun _ hd => ?_
    obtain hbit | hnext := h.wait c hp hd
    · rw [hb] at hbit
      simp at hbit
    · exact hnext

omit [DecidableEq ι] in
/-- Away from the completion of a request the scheduler has nothing to do with the bit. -/
theorem of_sched (h : Signalled s) (hclient : s'.client = s.client) (hbit : s'.bit = s.bit)
    (hnot : ∀ next, s.sched ≠ .setBits next) : Signalled s' := by
  refine ⟨fun c hp hd => ?_, fun c hp hd => ?_⟩
  · rw [hclient] at hp hd
    obtain hb | ⟨next, hnext⟩ := h.wait c hp hd
    · exact .inl (hbit.trans hb)
    · exact absurd hnext (hnot next)
  · rw [hclient] at hp hd
    obtain ⟨next, hnext⟩ := h.blocked c hp hd
    exact absurd hnext (hnot next)

/-- The scheduler owes a signal for the request that it executes. -/
theorem exec {p : ι} {next : Option ι} {blkdev retval : ℕ} (log : List (Execution ι))
    (h : Signalled s) (hp : s.sched = .exec p next blkdev) :
    Signalled ({ s with sched := .repend p next, log := log }.setClient p
    { s.client p with retval := retval }) := by
  have hphase : ∀ c,
      (({ s with sched := .repend p next, log := log }.setClient p
      { s.client p with retval := retval }).client c).phase =
        (s.client c).phase ∧
      (({ s with sched := .repend p next, log := log }.setClient p
      { s.client p with retval := retval }).client c).bDone =
        (s.client c).bDone := by
    intro c
    by_cases hc : c = p
    · rw [hc, setClient_self]
      exact ⟨rfl, rfl⟩
    · rw [setClient_of_ne _ p _ hc]
      exact ⟨rfl, rfl⟩
  refine ⟨fun c hc hd => ?_, fun c hc hd => ?_⟩
  · rw [(hphase c).1] at hc
    rw [(hphase c).2] at hd
    obtain hb | ⟨next', hnext⟩ := h.wait c hc hd
    · exact .inl hb
    · rw [hp] at hnext
      simp at hnext
  · rw [(hphase c).1] at hc
    rw [(hphase c).2] at hd
    obtain ⟨next', hnext⟩ := h.blocked c hc hd
    rw [hp] at hnext
    simp at hnext

/-- The bit is set: who waits goes on, and if somebody did, nobody is about to. -/
theorem setBits {next : Option ι} (hshape : Shape s xs fl) (hp : s.sched = .setBits next)
    {retval : ℕ} (hc : s.Careful (.sched retval)) :
    Signalled { s.setBits with sched := .loop next (s.links.next next) } := by
  refine ⟨fun c hw hd => .inl ?_, fun c hb hd => ?_⟩
  · obtain ⟨he, -⟩ | ⟨he, -⟩ := hshape.setBits_client c
    · rw [he] at hw hd
      have hclear := hc c hw hd
      simp only [clears, hp, Bool.not_eq_false_eq_eq_true] at hclear
      exact hclear
    · rw [he] at hw
      simp at hw
  · obtain ⟨he, hne⟩ | ⟨he, -⟩ := hshape.setBits_client c
    · rw [he] at hb
      exact absurd hb hne
    · rw [he] at hb
      simp at hb

/-- A step of the scheduler leaves a signal for everyone who waits. -/
theorem sched {retval : ℕ} (h : Signalled s) (hshape : Shape s xs fl)
    (hc : s.Careful (.sched retval)) (hs : SchedMove s retval s') : Signalled s' := by
  cases hs with
  | take hp hn => exact h.of_sched rfl rfl (by simp [hp])
  | pend hp hm => exact h.of_sched rfl rfl (by simp [hp])
  | leave hp => exact h.of_sched rfl rfl (by simp [hp])
  | enter hp => exact h.of_sched rfl rfl (by simp [hp])
  | exec hp => exact h.exec _ hp
  | repend hp hm => exact h.of_sched rfl rfl (by simp [hp])
  | del hp => exact h.of_sched rfl rfl (by simp [hp])
  | @done p next hp => exact ⟨fun _ _ _ => .inr ⟨next, rfl⟩, fun _ _ _ => ⟨next, rfl⟩⟩
  | setBits hp => exact setBits hshape hp hc
  | release hp => exact h.of_sched rfl rfl (by simp [hp])

/-- A client outside of its call is not signalled. -/
theorem setClient {t : BlockState ι} {x : BlockClient} (h : Signalled s)
    (hclient : t.client = s.client) (hsched : t.sched = s.sched) (hbit : t.bit = s.bit)
    (hx : x.phase ≠ .wait ∧ x.phase ≠ .blocked) :
    Signalled (t.setClient c x) := by
  have hs : (t.setClient c x).sched = s.sched := hsched
  have hbit' : (t.setClient c x).bit = s.bit := hbit
  refine ⟨fun d hp hd => ?_, fun d hp hd => ?_⟩
  · rw [hs, hbit']
    by_cases hdc : d = c
    · rw [hdc, setClient_self] at hp
      exact absurd hp hx.1
    · rw [setClient_of_ne t c x hdc, hclient] at hp hd
      exact h.wait d hp hd
  · rw [hs]
    by_cases hdc : d = c
    · rw [hdc, setClient_self] at hp
      exact absurd hp hx.2
    · rw [setClient_of_ne t c x hdc, hclient] at hp hd
      exact h.blocked d hp hd

theorem step (h : Signalled s) (hshape : Shape s xs fl) (hc : s.Careful a)
    (hs : s.step a = some s') : Signalled s' := by
  cases a with
  | start c req =>
    simp only [BlockState.step] at hs
    split_ifs at hs with hp
    exact Option.some.inj hs ▸ h.setClient rfl rfl rfl (by simp)
  | reuse c frame next prev =>
    simp only [BlockState.step] at hs
    split_ifs at hs with hp
    exact Option.some.inj hs ▸ h.setClient rfl rfl rfl (by simp)
  | client c => exact h.client hc (stepClient_cases hs)
  | sched retval => exact h.sched hshape hc (stepSched_cases hs)

theorem run {as : List (BlockAction ι)} (h : Signalled s) (hshape : Shape s xs fl)
    (hc : s.CarefulRun as) (hs : s.run as = some s') : Signalled s' := by
  induction as generalizing s xs fl with
  | nil => exact Option.some.inj hs ▸ h
  | cons a as ih =>
    obtain ⟨t, ht, hrun⟩ := Option.bind_eq_some_iff.mp hs
    obtain ⟨xs', fl', hshape'⟩ := hshape.step ht
    exact ih (h.step hshape hc.1 ht) hshape' (hc.2 t ht) hrun

omit [DecidableEq ι] in
theorem initial (h : Initial s) : Signalled s where
  wait c hp := by simp [(h.client c).1] at hp
  blocked c hp := by simp [(h.client c).1] at hp

end Signalled

/-- In a run of careful steps no client waits for a bit that nobody sets any more. -/
theorem woken_of_careful {as : List (BlockAction ι)} (h₀ : Initial s₀) (hc : s₀.CarefulRun as)
    (hs : s₀.run as = some s) : ¬ s.LostWake := by
  rintro ⟨hp, -, -, -, c, hblocked, hdone⟩
  have hsignalled := (Signalled.initial h₀).run (Shape.initial h₀) hc hs
  obtain ⟨next, hnext⟩ := hsignalled.blocked c hblocked hdone
  rw [hp] at hnext
  simp at hnext

/-- One client waits when the requests are executed, and the other one has not tested `bDone`. -/
def oneWait : List (BlockAction Bool) :=
  [.start false ⟨3, false, 10, 2, 64⟩] ++ List.replicate 6 (.client false) ++
    [.start true ⟨4, true, 20, 1, 128⟩] ++ List.replicate 4 (.client true) ++
    List.replicate 20 (.sched 7) ++ [.client true, .client false]

/-- The client that waits takes the bit, and the other one finds its request done: both return. -/
theorem woken_of_careful_two : booted.CarefulRun oneWait ∧
    ∃ s, booted.run oneWait = some s ∧ s.returned = [(false, 1, 7), (true, 1, 7)] ∧
      ¬ s.LostWake := by
  have hcareful : booted.CarefulRun oneWait := by decide +kernel
  have hrun : (booted.run oneWait).map BlockState.returned =
      some [(false, 1, 7), (true, 1, 7)] := by decide +kernel
  obtain ⟨s, hs, hreturned⟩ := Option.map_eq_some_iff.mp hrun
  exact ⟨hcareful, s, hs, hreturned, woken_of_careful initial_booted hcareful hs⟩

end BlockState

end BitThunder
