import BitThunder.Vm.Space

/-!
# Two mappings at once

`bt_vm_map_region` on two different maps, interleaved at the lock operations. The
two calls hold different locks, so nothing orders them; the working segment of both
is the one `static` variable, and the result is read from it after the lock is
gone.

* `map_region_apart`: as long as no call starts its work while the other one still
  has to read the variable, each call writes to and returns the address of the
  segment it obtained;
* `map_region_interferes`: a call that is overtaken returns the address of the
  other's segment.

A call has four points at which the other one may run: before it takes its lock, before its work,
before it gives the lock back, and before it reads its result. The work under the lock is one step,
since the map is its own. The two calls can only meet in the static variable, which is written at
the beginning of the work and read again after the lock is gone.

`Apart` is what holds between the steps. The interesting part is `reads`: a call that still has to
read the variable will find in it the segment it obtained. A step of the other call keeps this
unless it starts its work, which is the step that the condition excludes, and the counterexample is
a run in which exactly that happens.
-/

namespace BitThunder

variable {σ : Type} {K : Kernel σ} {s : Machine σ} {m : ℕ} {xs : List Entry}

/-! ## Another map

An edit of one map leaves the list of another one alone, because their cells are different. -/

theorem Shows.apart {m' : ℕ} {ys : List Entry} (h : Shows s m xs) (h' : Shows s m' ys)
    (hm : m ≠ m') : ∀ c ∈ Cell.head m :: xs.map (fun x => Cell.list x.1),
      c ∉ Cell.head m' :: ys.map fun x => Cell.list x.1 := by
  refine h.ring.disjoint h'.ring ?_
  simpa using hm

/-- An edit of one map is not seen in another. -/
theorem Edit.other {s' : Machine σ} {m' : ℕ} {xs' ys : List Entry} (e : Edit K m xs s xs' s')
    (h : Shows s m xs) (h' : Shows s m' ys) (hm : m ≠ m') : Shows s' m' ys where
  ring := by
    refine e.ring _ _ h'.ring (h.apart h' hm) ?_
    intro i hi hmem
    obtain ⟨x, hx, he⟩ := List.mem_map.mp (List.mem_of_ne_of_mem (by simp) hmem)
    cases he
    exact absurd (h'.lt x hx) (by omega)
  seg x hx := by
    have hnot : x.1 ∉ xs.map Prod.fst := by
      intro hin
      obtain ⟨y, hy, he⟩ := List.mem_map.mp hin
      refine h.apart h' hm (.list x.1) ?_ ?_
      · exact List.mem_cons_of_mem _ (List.mem_map.mpr ⟨y, hy, by rw [he]⟩)
      · exact List.mem_cons_of_mem _ (List.mem_map.mpr ⟨x, hx, rfl⟩)
    rw [e.seg x.1 (h'.lt x hx) hnot]
    exact h'.seg x hx
  lt x hx := (h'.lt x hx).trans_le e.frame.fresh

/-! ## Calls

The phases of a call, and the steps of two of them. -/

/-- The arguments of a call of `bt_vm_map_region`. -/
structure RegionCall : Type where
  m : ℕ
  pa : ℕ
  va : ℕ
  size : ℕ
  type : ℕ

/-- How far a call has come. Once it is past its work, the segment it obtained and
whether it is on the way to `return seg->addr` are known. -/
inductive CallPhase : Type where
  | waiting
  | locked
  | entered (r : Option ℕ) (ok : Bool)
  | unlocked (r : Option ℕ) (ok : Bool)
  | returned (r : Option ℕ) (ok : Bool) (value : ℕ)

/-- The call still has to read the static variable. -/
def CallPhase.Pending : CallPhase → Prop
  | .entered _ ok | .unlocked _ ok => ok = true
  | _ => False

/-- The machine and the two calls. -/
abbrev Calls (σ : Type) : Type := Machine σ × (Bool → CallPhase)

/-- The call `b` moves on to its next lock operation, or from the last one to its end.
The maps are different, so the lock it takes is never held by the other call. -/
inductive RegionStep (K : Kernel σ) (c : Bool → RegionCall) (b : Bool) :
    Calls σ → Calls σ → Prop where
  | lock {s s' : Machine σ} {ph : Bool → CallPhase} : ph b = .waiting →
      mapLock (c b).m s = some ((), s') →
      RegionStep K c b (s, ph) (s', Function.update ph b .locked)
  | work {s s' : Machine σ} {ph : Bool → CallPhase} {r : Option ℕ} {ok : Bool} :
      ph b = .locked →
      mapBody K (c b).m (c b).pa (c b).va (c b).size (c b).type s = some ((r, ok), s') →
      RegionStep K c b (s, ph) (s', Function.update ph b (.entered r ok))
  | unlock {s s' : Machine σ} {ph : Bool → CallPhase} {r : Option ℕ} {ok : Bool} :
      ph b = .entered r ok → mapUnlock (c b).m s = some ((), s') →
      RegionStep K c b (s, ph) (s', Function.update ph b (.unlocked r ok))
  | ret {s s' : Machine σ} {ph : Bool → CallPhase} {r : Option ℕ} {ok : Bool} {v : ℕ} :
      ph b = .unlocked r ok → mapReturn ok s = some (v, s') →
      RegionStep K c b (s, ph) (s', Function.update ph b (.returned r ok v))

/-- The interleavings of the two calls whose steps pass a check. -/
inductive RegionRun (K : Kernel σ) (c : Bool → RegionCall) (may : (Bool → CallPhase) → Bool → Prop)
    (s₀ : Machine σ) : Calls σ → Prop where
  | start : RegionRun K c may s₀ (s₀, fun _ => .waiting)
  | step {x y : Calls σ} {b : Bool} : RegionRun K c may s₀ x → may x.2 b →
      RegionStep K c b x y → RegionRun K c may s₀ y

/-- A call does not start its work while the other one is pending. -/
def NotOvertaking (ph : Bool → CallPhase) (b : Bool) : Prop := ph b = .locked → ¬ (ph !b).Pending

/-- What a call that obtained `r` has done: if it is on the way to `return seg->addr`, the
segment it obtained is one of its own map, with its address, and carries the `phys` and
`flags` of the call; otherwise it returns `0`. -/
def RegionCall.Holds (c : RegionCall) (s : Machine σ) (r : Option ℕ) (ok : Bool) (a : ℕ) : Prop :=
  if ok then ∃ k xs, r = some k ∧ Shows s c.m xs ∧
    (k, ⟨a, c.pa, btPageAlign c.size, typeToSegflags c.type ||| btSegMapped⟩) ∈ xs
  else a = 0

/-- What a call has written, and what it returned, is about the segment it obtained. -/
def RegionCall.Own (c : RegionCall) (s : Machine σ) : CallPhase → Prop
  | .waiting | .locked => True
  | .entered r ok => ∃ a, c.Holds s r ok a
  | .unlocked r ok => ∃ a, c.Holds s r ok a
  | .returned r ok v => c.Holds s r ok v

/-! ## One step

One lemma for each step: what the call that takes it has then, and that the other one has what it
had. -/

variable {c : Bool → RegionCall} {ph : Bool → CallPhase} {b : Bool} {s' : Machine σ}

/-- What a call holds depends on its own map. -/
theorem RegionCall.Holds.mono {d : RegionCall} {r : Option ℕ} {ok : Bool} {a : ℕ}
    (h : d.Holds s r ok a) (hs : ∀ xs, Shows s d.m xs → Shows s' d.m xs) : d.Holds s' r ok a := by
  cases ok with
  | false => exact h
  | true =>
    obtain ⟨k, xs, hr, hx, hmem⟩ := h
    exact ⟨k, xs, hr, hs xs hx, hmem⟩

theorem RegionCall.Own.mono {d : RegionCall} {p : CallPhase} (h : d.Own s p)
    (hs : ∀ xs, Shows s d.m xs → Shows s' d.m xs) : d.Own s' p := by
  cases p with
  | waiting => trivial
  | locked => trivial
  | entered r ok =>
    obtain ⟨a, ha⟩ := h
    exact ⟨a, ha.mono hs⟩
  | unlocked r ok =>
    obtain ⟨a, ha⟩ := h
    exact ⟨a, ha.mono hs⟩
  | returned r ok v => exact RegionCall.Holds.mono h hs

/-- The variable a pending call is going to read holds the segment it obtained. -/
def CallPhase.Reads (s : Machine σ) : CallPhase → Prop
  | .entered r ok | .unlocked r ok => ok = true → s.mapSeg = r
  | _ => True

/-- A call reads the segment again where nobody else has written it. -/
theorem CallPhase.Reads.congr {p : CallPhase} (h : p.Reads s)
    (hs : p.Pending → s'.mapSeg = s.mapSeg) : p.Reads s' := by
  cases p with
  | waiting => trivial
  | locked => trivial
  | entered r ok => exact fun hok => (hs hok).trans (h hok)
  | unlocked r ok => exact fun hok => (hs hok).trans (h hok)
  | returned r ok v => trivial

/-- What the work of a call does: it fills in the segment it obtained, leaves it in the
static variable, and is not seen in another map. -/
theorem mapBody_spec (d : RegionCall) (h : Shows s d.m xs) :
    Prog.Ensures (mapBody K d.m d.pa d.va d.size d.type) s fun r s' =>
      (∃ xs', Shows s' d.m xs') ∧ d.Own s' (.entered r.1 r.2) ∧
        CallPhase.Reads s' (.entered r.1 r.2) ∧
        ∀ m' ≠ d.m, ∀ ys, Shows s m' ys → Shows s' m' ys := by
  have hset : ∀ {t : Machine σ} {m' : ℕ} {ys : List Entry} (r : Option ℕ), Shows t m' ys →
      Shows (t.setMapSeg r) m' ys :=
    fun _ ht => ht.congr rfl (fun _ _ => rfl) (le_refl _)
  refine mapBody_rule h ?_ ?_ ?_
  · intro xs' s₁ _ _ e
    refine ⟨⟨xs', hset none e.shows⟩, ⟨0, rfl⟩, fun hok => Bool.noConfusion hok, ?_⟩
    intro m' hm' ys hy
    exact hset none (e.other h hy hm'.symm)
  · intro v a as j p bs f s₁ _ _ e _ s' e'
    refine ⟨⟨_, e'.shows⟩, ⟨0, rfl⟩, fun hok => Bool.noConfusion hok, ?_⟩
    intro m' hm' ys hy
    have h₁ := hset (some j) (e.other h hy hm'.symm)
    exact e'.other (hset (some j) e.shows) h₁ hm'.symm
  · intro v a as j p bs f s₁ _ _ e _ s₂ e' t _ e₂ _ hframe
    have ht := hframe.shows e₂.shows
    refine ⟨⟨_, ht⟩, ⟨a, j, _, rfl, ht, by simp⟩, ?_, ?_⟩
    · exact fun _ => hframe.mapSeg.trans e₂.frame.mapSeg
    · intro m' hm' ys hy
      have h₁ := hset (some j) (e.other h hy hm'.symm)
      exact hframe.shows (e₂.other (hset (some j) e.shows) h₁ hm'.symm)

/-- A pending call whose variable was not overwritten reads the address of its segment. -/
theorem mapReturn_own {d : RegionCall} {r : Option ℕ} {ok : Bool} {a : ℕ} (h : d.Holds s r ok a)
    (hr : CallPhase.Reads s (.unlocked r ok)) : mapReturn ok s = some (a, s) := by
  cases ok with
  | false =>
    obtain rfl : a = 0 := h
    rfl
  | true =>
    obtain ⟨k, xs, rfl, hx, hmem⟩ := h
    have hread : Prog.Ensures (mapReturn true) s fun v s' => (v, s') = (a, s) := by
      have hstat : s.mapSeg = some k := hr rfl
      simp only [mapReturn, if_true, staticSegAddr, Prog.ensures_bind, Prog.ensures_read, hstat,
        hx.seg _ hmem]
    obtain ⟨v, s', hrun, he⟩ := hread
    rw [hrun, he]

/-- What holds between the steps: both maps are in order, and each call has written to its
own segment and will find it in the variable. -/
structure Apart (c : Bool → RegionCall) (x : Calls σ) : Prop where
  /-- each map has its segments -/
  shown : ∀ b, ∃ xs, Shows x.1 (c b).m xs
  /-- each call is at its own segment -/
  own : ∀ b, (c b).Own x.1 (x.2 b)
  /-- and what it has still to read of the static variable is its own -/
  reads : ∀ b, (x.2 b).Reads x.1

namespace Apart

/-- One call has moved, and the other has not noticed. -/
theorem move {p : CallPhase} (h : Apart c (s, ph)) (hshown : ∃ xs, Shows s' (c b).m xs)
    (hown : (c b).Own s' p) (hreads : p.Reads s')
    (hother : ∀ ys, Shows s (c !b).m ys → Shows s' (c !b).m ys)
    (hstatic : (ph !b).Pending → s'.mapSeg = s.mapSeg) :
    Apart c (s', Function.update ph b p) := by
  have hcase : ∀ b', b' = b ∨ b' = !b := by
    intro b'
    cases b <;> cases b' <;> simp
  have hne : (!b) ≠ b := by simp
  refine ⟨fun b' => ?_, fun b' => ?_, fun b' => ?_⟩
  · rcases hcase b' with rfl | rfl
    · exact hshown
    · obtain ⟨ys, hy⟩ := h.shown !b
      exact ⟨ys, hother ys hy⟩
  · rcases hcase b' with rfl | rfl
    · simpa using hown
    · change (c !b).Own s' (Function.update ph b p !b)
      rw [Function.update_of_ne hne]
      exact (h.own !b).mono hother
  · rcases hcase b' with rfl | rfl
    · simpa using hreads
    · change (Function.update ph b p !b).Reads s'
      rw [Function.update_of_ne hne]
      exact (h.reads !b).congr hstatic

/-- A lock operation moves a call without touching anything. -/
theorem lockStep {p : CallPhase} {e : Event} (h : Apart c (s, ph))
    (hown : (c b).Own s p) (hreads : p.Reads s) :
    Apart c (s.emit e, Function.update ph b p) := by
  have hemit : ∀ {m' : ℕ} (ys : List Entry), Shows s m' ys → Shows (s.emit e) m' ys :=
    fun _ hy => hy.congr rfl (fun _ _ => rfl) (le_refl _)
  obtain ⟨xs, hx⟩ := h.shown b
  refine h.move ⟨xs, hemit xs hx⟩ (hown.mono hemit) (hreads.congr fun _ => rfl) hemit fun _ => rfl

/-- The calls stay apart if neither overtakes the other. -/
theorem step {x y : Calls σ} (h : Apart c x) (hc : (c false).m ≠ (c true).m)
    (hmay : NotOvertaking x.2 b) (hstep : RegionStep K c b x y) : Apart c y := by
  cases hstep with
  | lock hp hrun =>
    cases hrun
    exact h.lockStep trivial trivial
  | @work s s' ph r ok hp hrun =>
    obtain ⟨xs, hx⟩ := h.shown b
    obtain ⟨hshown, hown, hreads, hother⟩ := (mapBody_spec (c b) hx).yields _ _ hrun
    refine h.move hshown hown hreads ?_ fun hpend => absurd hpend (hmay hp)
    refine hother _ ?_
    cases b
    · exact hc.symm
    · exact hc
  | @unlock s s' ph r ok hp hrun =>
    cases hrun
    have hown : (c b).Own s (ph b) := h.own b
    have hreads : (ph b).Reads s := h.reads b
    rw [hp] at hown hreads
    exact h.lockStep hown hreads
  | @ret s s' ph r ok v hp hrun =>
    have hown : (c b).Own s (ph b) := h.own b
    have hreads : (ph b).Reads s := h.reads b
    rw [hp] at hown hreads
    obtain ⟨a, ha⟩ := hown
    rw [mapReturn_own ha hreads] at hrun
    cases hrun
    exact h.move (h.shown b) ha trivial (fun _ hy => hy) fun _ => rfl

/-- No call is stuck: what it does next comes back. -/
theorem progress {x : Calls σ} (h : Apart c x) (hb : ∀ r ok v, x.2 b ≠ .returned r ok v) :
    ∃ y, RegionStep K c b x y := by
  obtain ⟨s, ph⟩ := x
  have hown : (c b).Own s (ph b) := h.own b
  have hreads : (ph b).Reads s := h.reads b
  cases hp : ph b with
  | waiting => exact ⟨_, .lock hp rfl⟩
  | locked =>
    obtain ⟨xs, hx⟩ := h.shown b
    obtain ⟨r, s', hrun, -⟩ := mapBody_spec (K := K) (c b) hx
    exact ⟨_, .work hp hrun⟩
  | entered r ok => exact ⟨_, .unlock hp rfl⟩
  | unlocked r ok =>
    rw [hp] at hown hreads
    obtain ⟨a, ha⟩ := hown
    exact ⟨_, .ret hp (mapReturn_own ha hreads)⟩
  | returned r ok v => exact absurd hp (hb r ok v)

end Apart

/-! ## Two fresh maps

Two maps that were created one after the other show their lists at the same time. -/

/-- The machine after two calls of `bt_vm_create`, which return the maps `1` and `3`. -/
def twoMaps : Machine Stock :=
  (((do
    let _ ← btVmCreate stockKernel
    let _ ← btVmCreate stockKernel
    pure ()) : Prog (Machine Stock) Unit) (bootMachine ⟨10, 10, 0x10000000, 0x10100000, 10⟩)).elim
      (bootMachine ⟨0, 0, 0, 0, 0⟩) Prod.snd

/-- One page anywhere in the map `1`, and one page at `0x100000` in the map `3`. -/
def twoCalls : Bool → RegionCall
  | false => ⟨1, 0x20000000, 0, 4096, btPageRead⟩
  | true => ⟨3, 0x30000000, 0x100000, 4096, btPageRead⟩

theorem twoMaps_shown : ∀ b, ∃ xs, Shows twoMaps (twoCalls b).m xs
  | false => ⟨_, .single (i := 2) (by decide +kernel) (by decide +kernel) (by decide +kernel)
      (by decide +kernel) (by decide +kernel)⟩
  | true => ⟨_, .single (i := 4) (by decide +kernel) (by decide +kernel) (by decide +kernel)
      (by decide +kernel) (by decide +kernel)⟩

/-! ## Whole runs

A run in which a call is overtaken, and all runs in which none is. -/

/-- The other call does its work between this call's and its return: this call returns
`0x100000`, where the other's segment is; its own segment is at `4096`. -/
theorem map_region_interferes : ∃ x : Calls Stock, (∀ b, ∃ xs, Shows twoMaps (twoCalls b).m xs) ∧
    RegionRun stockKernel twoCalls (fun _ _ => True) twoMaps x ∧
    ¬(twoCalls false).Own x.1 (x.2 false) := by
  have heval : (((do
      mapLock 1
      let r ← mapBody stockKernel 1 0x20000000 0 4096 btPageRead
      mapUnlock 1
      mapLock 3
      let q ← mapBody stockKernel 3 0x30000000 0x100000 4096 btPageRead
      let v ← mapReturn true
      Prog.read fun s => (r, q, v, (s.seg 2).addr)) :
        Prog (Machine Stock) ((Option ℕ × Bool) × (Option ℕ × Bool) × ℕ × ℕ)) twoMaps).map Prod.fst
        =
      some ((some 2, true), (some 6, true), 0x100000, 4096) := by decide +kernel
  obtain ⟨⟨_, s⟩, hrun, rfl⟩ := Option.map_eq_some_iff.mp heval
  obtain ⟨_, s₁, h₁, hrun⟩ := Prog.bind_eq_some hrun
  obtain ⟨r, s₂, h₂, hrun⟩ := Prog.bind_eq_some hrun
  obtain ⟨_, s₃, h₃, hrun⟩ := Prog.bind_eq_some hrun
  obtain ⟨_, s₄, h₄, hrun⟩ := Prog.bind_eq_some hrun
  obtain ⟨q, s₅, h₅, hrun⟩ := Prog.bind_eq_some hrun
  obtain ⟨v, s₆, h₆, hrun⟩ := Prog.bind_eq_some hrun
  have hres : (r, q, v, (s₆.seg 2).addr) = ((some 2, true), (some 6, true), 0x100000, 4096) :=
    congrArg Prod.fst (Option.some.inj hrun)
  clear hrun
  obtain ⟨hr, hres⟩ := Prod.mk.inj hres
  obtain ⟨hq, hres⟩ := Prod.mk.inj hres
  obtain ⟨hv, haddr⟩ := Prod.mk.inj hres
  subst hr hq hv
  have r₁ : RegionRun stockKernel twoCalls (fun _ _ => True) twoMaps _ :=
    .step (b := false) .start trivial (.lock rfl h₁)
  have r₂ := r₁.step (b := false) trivial (.work rfl h₂)
  have r₃ := r₂.step (b := false) trivial (.unlock rfl h₃)
  have r₄ := r₃.step (b := true) trivial (.lock rfl h₄)
  have r₅ := r₄.step (b := true) trivial (.work rfl h₅)
  have r₆ := r₅.step (b := false) trivial (.ret rfl h₆)
  refine ⟨_, twoMaps_shown, r₆, ?_⟩
  rintro ⟨k, xs, hk, hx, hmem⟩
  cases hk
  have hseg := congrArg Segment.addr (hx.seg _ hmem)
  rw [haddr] at hseg
  cases hseg

/-- In every interleaving in which no call starts its work while the other one still has to
read the static variable, each call writes to and returns the address of the segment it
obtained from its own map, and can always go on. -/
theorem map_region_apart {s₀ : Machine σ} {x : Calls σ} (hc : (c false).m ≠ (c true).m)
    (h₀ : ∀ b, ∃ xs, Shows s₀ (c b).m xs) (hrun : RegionRun K c NotOvertaking s₀ x) :
    ∀ b, (c b).Own x.1 (x.2 b) ∧
      ((∀ r ok v, x.2 b ≠ .returned r ok v) → ∃ y, RegionStep K c b x y) := by
  have hinv : Apart c x := by
    induction hrun with
    | start => exact ⟨h₀, fun _ => trivial, fun _ => trivial⟩
    | step _ hmay hstep ih => exact ih.step hc hmay hstep
  intro b
  exact ⟨hinv.own b, hinv.progress⟩

/-- Both calls take their locks, then one after the other works and returns. -/
theorem map_region_apart_twoMaps : ∃ x, RegionRun stockKernel twoCalls NotOvertaking twoMaps x ∧
    x.2 false = .returned (some 2) true 4096 ∧ x.2 true = .returned (some 6) true 0x100000 ∧
    ∀ b, (twoCalls b).Own x.1 (x.2 b) ∧
      ((∀ r ok v, x.2 b ≠ .returned r ok v) → ∃ y, RegionStep stockKernel twoCalls b x y) := by
  have heval : (((do
      mapLock 1
      mapLock 3
      let r ← mapBody stockKernel 1 0x20000000 0 4096 btPageRead
      mapUnlock 1
      let v ← mapReturn true
      let q ← mapBody stockKernel 3 0x30000000 0x100000 4096 btPageRead
      mapUnlock 3
      let w ← mapReturn true
      pure (r, q, v, w)) :
        Prog (Machine Stock) ((Option ℕ × Bool) × (Option ℕ × Bool) × ℕ × ℕ)) twoMaps).map Prod.fst
        =
      some ((some 2, true), (some 6, true), 4096, 0x100000) := by decide +kernel
  obtain ⟨⟨_, s⟩, hrun, rfl⟩ := Option.map_eq_some_iff.mp heval
  obtain ⟨_, s₁, h₁, hrun⟩ := Prog.bind_eq_some hrun
  obtain ⟨_, s₂, h₂, hrun⟩ := Prog.bind_eq_some hrun
  obtain ⟨r, s₃, h₃, hrun⟩ := Prog.bind_eq_some hrun
  obtain ⟨_, s₄, h₄, hrun⟩ := Prog.bind_eq_some hrun
  obtain ⟨v, s₅, h₅, hrun⟩ := Prog.bind_eq_some hrun
  obtain ⟨q, s₆, h₆, hrun⟩ := Prog.bind_eq_some hrun
  obtain ⟨_, s₇, h₇, hrun⟩ := Prog.bind_eq_some hrun
  obtain ⟨w, s₈, h₈, hrun⟩ := Prog.bind_eq_some hrun
  have hres : (r, q, v, w) = ((some 2, true), (some 6, true), 4096, 0x100000) :=
    congrArg Prod.fst (Option.some.inj hrun)
  clear hrun
  obtain ⟨hr, hres⟩ := Prod.mk.inj hres
  obtain ⟨hq, hres⟩ := Prod.mk.inj hres
  obtain ⟨hv, hw⟩ := Prod.mk.inj hres
  subst hr hq hv hw
  have r₁ : RegionRun stockKernel twoCalls NotOvertaking twoMaps _ :=
    .step (b := false) .start (fun h => nomatch h) (.lock rfl h₁)
  have r₂ := r₁.step (b := true) (fun h => nomatch h) (.lock rfl h₂)
  have r₃ := r₂.step (b := false) (fun _ h => h) (.work rfl h₃)
  have r₄ := r₃.step (b := false) (fun h => nomatch h) (.unlock rfl h₄)
  have r₅ := r₄.step (b := false) (fun h => nomatch h) (.ret rfl h₅)
  have r₆ := r₅.step (b := true) (fun _ h => h) (.work rfl h₆)
  have r₇ := r₆.step (b := true) (fun h => nomatch h) (.unlock rfl h₇)
  have r₈ := r₇.step (b := true) (fun h => nomatch h) (.ret rfl h₈)
  exact ⟨_, r₈, rfl, rfl, map_region_apart (by decide) twoMaps_shown r₈⟩

end BitThunder
