import BitThunder.Vm.Race
import BitThunder.Vm.Walk

/-!
# Duplicating a map

`bt_vm_duplicate` adds a copy of each segment of the original to a map that
`bt_vm_create` has just made, and that map already holds a segment: all user
addresses, free. The segment is never taken out.

Only the forward pointers of the two lists are followed here. Nothing initialises
the `shared_list` of a segment, so the linking loop stores through a pointer that
may lead anywhere; but what it stores there is a backward pointer.

* `duplicate_visits`: the list of the new map has one segment more than the
  original's;
* `duplicate_never_equal`: so it is never the original's.

Counting is enough to refute equality, and it can be done without knowing the contents of a single
segment. Each round of the copying loop puts one new block behind the head of the new map's list, or
destroys the map; the second loop writes backward pointers only. The new map starts with one segment
and the original has as many as it has, so that the copy is always one longer.

What equality would mean is nevertheless written out in full (`CopiedSegment`), contents,
translations and sharing included, so that it can be seen that the length is the first of several
things that would have to be right.
-/

namespace BitThunder

variable {σ : Type} {K : Kernel σ} {s s' : Machine σ} {m orig : ℕ} {xs : List Entry}

/-! ## Forward pointers

A list that can be visited has a length, and this is a function of the machine's state. -/

/-- The forward pointers of the map's list visit these segments. -/
def Visits (s : Machine σ) (m : ℕ) (is : List ℕ) : Prop :=
  Follows s.links.next (.head m) (is.map Cell.list) (.head m)

theorem Shows.visits (h : Shows s m xs) : Visits s m (xs.map Prod.fst) := by
  have hf := h.ring.fwd
  rwa [show (xs.map fun x => Cell.list x.1) = (xs.map Prod.fst).map Cell.list by simp] at hf

/-- A map's list is determined by the forward pointers. -/
theorem Visits.unique {is js : List ℕ} (h : Visits s m is) (h' : Visits s m js) : is = js := by
  have heq := Follows.unique h h' (by simp) (by simp)
  exact List.map_injective_iff.mpr (fun i j he => Cell.list.inj he) heq

/-- The two states have the same forward pointers in every `list` and every map. -/
def SameNext (s s' : Machine σ) : Prop :=
  ∀ c, (∀ i, c ≠ .shared i) → s'.links.next c = s.links.next c

theorem SameNext.refl (s : Machine σ) : SameNext s s := fun _ _ => rfl

/-- Steps that leave the links may follow each other. -/
theorem SameNext.trans {s₁ s₂ : Machine σ} (h : SameNext s s₁) (h' : SameNext s₁ s₂) :
    SameNext s s₂ := fun c hc => (h' c hc).trans (h c hc)

theorem SameNext.visits {is : List ℕ} (hs : SameNext s s') (h : Visits s m is) :
    Visits s' m is := by
  refine Follows.congr h fun c hc => hs c ?_
  rintro i rfl
  simp at hc

/-- Putting a segment in front. -/
theorem Visits.addFirst {is : List ℕ} {j : ℕ} (h : Visits s m is) (hj : j ∉ is) :
    Visits (s.setLinks (s.links.insertAfter (.list j) (.head m))) m (j :: is) := by
  have hnext : ∀ c, c ≠ .head m → c ≠ .list j →
      (s.links.insertAfter (.list j) (.head m)).next c = s.links.next c := by
    intro c hm hc
    simp [Links.insertAfter, Links.link, Links.setNext, Links.setPrev, Function.update_of_ne hm,
      Function.update_of_ne hc]
  refine ⟨by simp [Links.insertAfter, Links.link, Links.setNext, Links.setPrev], ?_⟩
  have hfirst : (s.links.insertAfter (.list j) (.head m)).next (.list j) =
      s.links.next (.head m) := by
    simp [Links.insertAfter, Links.link, Links.setNext, Links.setPrev]
  cases is with
  | nil => exact hfirst.trans h
  | cons i is =>
    refine ⟨hfirst.trans h.1, Follows.congr h.2 fun c hc => hnext c ?_ ?_⟩
    · rintro rfl
      simp at hc
    · rintro rfl
      exact hj (by simpa using hc)

/-! ## The copying loop

What the loop does between two links does not touch the lists of the two maps. -/

/-- The program leaves all list pointers alone, unless it ends with a result that does not
satisfy `P`. -/
def KeepsLists {α : Type} (P : α → Prop) (x : Prog (Machine σ) α) : Prop :=
  ∀ s, x.Yields s fun a s' => P a → s'.fresh = s.fresh ∧ s'.links = s.links

namespace KeepsLists

variable {α β : Type} {P : α → Prop} {x y : Prog (Machine σ) α}

theorem pure (a : α) : KeepsLists P (pure a : Prog (Machine σ) α) :=
  fun _ => Prog.yields_pure.mpr fun _ => ⟨rfl, rfl⟩

theorem read (f : Machine σ → α) : KeepsLists P (Prog.read f) :=
  fun _ => Prog.yields_read.mpr fun _ => ⟨rfl, rfl⟩

/-- A sequence keeps the lists if both parts do. -/
theorem bind {R : β → Prop} {f : α → Prog (Machine σ) β} (hx : KeepsLists (fun _ => True) x)
    (hf : ∀ a, KeepsLists R (f a)) : KeepsLists R (x >>= f) := by
  intro s
  rw [Prog.yields_bind]
  refine (hx s).mono fun a s₁ h₁ => (hf a s₁).mono fun b s₂ h₂ hb => ?_
  obtain ⟨hf₁, hl₁⟩ := h₁ trivial
  obtain ⟨hf₂, hl₂⟩ := h₂ hb
  exact ⟨hf₂.trans hf₁, hl₂.trans hl₁⟩

theorem ite {c : Prop} [Decidable c] (hx : KeepsLists P x) (hy : KeepsLists P y) :
    KeepsLists P (if c then x else y) :=
  fun s => Prog.yields_ite.mpr ⟨fun _ => hx s, fun _ => hy s⟩

theorem modifySeg {P : Unit → Prop} (i : ℕ) (f : Segment → Segment) :
    KeepsLists (σ := σ) P (modifySeg i f) :=
  fun _ => Prog.yields_update.mpr fun _ => ⟨rfl, rfl⟩

theorem memcpy {P : Unit → Prop} (dst src n : ℕ) : KeepsLists (σ := σ) P (memcpy dst src n) :=
  fun _ => Prog.yields_update.mpr fun _ => ⟨rfl, rfl⟩

theorem pageAlloc {P : ℕ → Prop} (o : Owner) (n : ℕ) : KeepsLists P (pageAlloc K o n) :=
  fun _ => Prog.yields_service.mpr fun _ => ⟨rfl, rfl⟩

theorem btMmuMap {P : ℤ → Prop} (h pa va size type : ℕ) :
    KeepsLists P (btMmuMap K h pa va size type) :=
  fun _ => (btMmuMap_frame h pa va size type).yields.mono fun _ _ hf _ => ⟨hf.fresh, hf.links⟩

/-- Destroying the new map ends the copying. -/
theorem giveUp : KeepsLists (fun ok => ok = true)
    (btVmDestroy K m >>= fun _ => (Pure.pure false : Prog (Machine σ) Bool)) := by
  intro s
  rw [Prog.yields_bind]
  intro _ t _
  exact Prog.yields_pure.mpr fun hf => nomatch hf

end KeepsLists

theorem copyPages_keeps (dest : ℕ) (v : Segment) :
    KeepsLists (fun _ => True) (duplicateSegment.copyPages K dest v) := by
  unfold duplicateSegment.copyPages
  refine .bind (.pageAlloc _ _) fun pa => .bind (.modifySeg _ _) fun _ => .ite (.pure _) ?_
  exact .bind (.memcpy _ _ _) fun _ => .pure _

/-- A segment that was copied is a new block in front of the new map's list. -/
theorem duplicateSegment_links (src : ℕ) :
    Prog.Yields (duplicateSegment K m src) s fun ok s' => ok = true → s'.fresh = s.fresh + 1 ∧
      SameNext (s.setLinks (s.links.insertAfter (.list s.fresh) (.head m))) s' := by
  unfold duplicateSegment kMalloc
  rw [Prog.yields_bind, Prog.yields_service]
  by_cases hz : (K.kMalloc segmentBytes s.env).1 = 0
  · rw [Machine.kMalloc_refused K hz, Prog.yields_bind]
    intro _ t _
    exact Prog.yields_pure.mpr fun hf => nomatch hf
  · rw [Machine.kMalloc_granted K hz]
    simp only
    rw [Prog.yields_bind, Prog.yields_update, Prog.yields_bind, Prog.yields_read, Prog.yields_bind,
      putSeg, Prog.yields_update, Prog.yields_bind, btListAdd, Prog.yields_update]
    refine Prog.Yields.mono ((?_ : KeepsLists (fun ok => ok = true) _) _) fun ok s' hkeep hok => ?_
    · -- behind the insertion the list pointers are not written any more
      have hmap : ∀ w : Segment, KeepsLists (fun ok => ok = true) (do
          let pgd ← Prog.read fun s => (s.map m).pgd
          let r ← btMmuMap K pgd w.phys w.addr w.size (segflagsToType w.flags)
          if r ≠ 0 then do
            btVmDestroy K m
            pure false
          else pure true) :=
        fun w => .bind (.read _) fun _ => .bind (.btMmuMap _ _ _ _ _) fun _ => .ite .giveUp
        (.pure _)
      refine .ite (.pure _) (.bind (.ite (.modifySeg _ _) (.pure _)) fun _ => .bind
        (.read _) fun w => ?_)
      refine .ite (.bind (copyPages_keeps _ _) fun ok => ?_) (.bind (.pure _) fun ok => ?_)
      · exact .ite .giveUp (.bind (.read _) hmap)
      · exact .ite .giveUp (.bind (.read _) hmap)
    · obtain ⟨hf, hl⟩ := hkeep hok
      refine ⟨hf, fun c hc => ?_⟩
      rw [hl]
      simp [Links.insertAfter, Links.link, Links.setNext, Links.setPrev, Function.update_apply,
        hc s.fresh]

/-- The copying loop puts one segment in front of the new map's list for each that is still
to come in the original's: `a` is the last cell it has left behind. -/
theorem duplicateFrom_visits (n : ℕ) {a : Cell} {is rs : List ℕ}
    (hnew : Visits s m is) (hlt : ∀ i ∈ is, i < s.fresh)
    (hrest : Follows s.links.next a (rs.map Cell.list) (.head orig))
    (hrlt : ∀ i ∈ rs, i < s.fresh) :
    Prog.Yields (duplicateFrom K m orig n (s.links.next a)) s fun ok s' => ok = true →
      ∃ js, js.length = rs.length ∧ Visits s' m (js ++ is) := by
  induction n generalizing s a is rs with
  | zero => exact Prog.yields_stuck
  | succ n ih =>
    cases rs with
    | nil =>
      rw [show s.links.next a = .head orig from hrest, duplicateFrom, if_pos rfl]
      exact Prog.yields_pure.mpr fun _ => ⟨[], rfl, hnew⟩
    | cons src rs =>
      obtain ⟨hsrc, hrest⟩ := hrest
      rw [hsrc, duplicateFrom, Prog.yields_bind]
      refine (duplicateSegment_links src).mono fun ok s₁ hseg => ?_
      cases ok with
      | false => exact Prog.yields_pure.mpr fun hf => nomatch hf
      | true =>
        obtain ⟨hf, hnext⟩ := hseg rfl
        have hfresh : s.fresh ∉ is := fun hin => absurd (hlt _ hin) (lt_irrefl _)
        -- the original's list goes on as before
        have hrest₁ : Follows s₁.links.next (.list src) (rs.map Cell.list) (.head orig) := by
          refine hrest.congr fun c hc => ?_
          have hcm : c ≠ .head m := by
            rintro rfl
            simp at hc
          have hcj : c ≠ .list s.fresh := by
            rintro rfl
            have hin : s.fresh ∈ src :: rs := by simpa using hc
            exact absurd (hrlt _ hin) (lt_irrefl _)
          have hcs : ∀ i, c ≠ .shared i := by
            rintro i rfl
            simp at hc
          rw [hnext c hcs]
          simp [Links.insertAfter, Links.link, Links.setNext, Links.setPrev,
            Function.update_of_ne hcm, Function.update_of_ne hcj]
        simp only [if_true, Prog.yields_bind, Prog.yields_read]
        refine (ih (hnext.visits (hnew.addFirst hfresh)) ?_ hrest₁ ?_).mono
          fun ok s₂ hrec hok => ?_
        · intro i hi
          rcases List.mem_cons.mp hi with rfl | hi
          · omega
          · exact (hlt i hi).trans (by omega)
        · intro i hi
          exact (hrlt i (List.mem_cons_of_mem _ hi)).trans (by omega)
        · obtain ⟨js, hlen, hv⟩ := hrec hok
          exact ⟨js ++ [s.fresh], by simp [hlen], by simpa using hv⟩

/-- The linking loop writes no forward pointer of a map's list. -/
theorem linkShared_next (n : ℕ) (c src : Cell) :
    Prog.Yields (linkShared m n c src) s fun _ s' => SameNext s s' := by
  induction n generalizing s c src with
  | zero => exact Prog.yields_stuck
  | succ n ih =>
    cases c with
    | head m' =>
      rw [linkShared, Prog.yields_ite]
      exact ⟨fun _ => Prog.yields_pure.mpr (.refl s), fun _ => Prog.yields_stuck⟩
    | shared i => exact Prog.yields_stuck
    | list dest =>
      unfold linkShared
      rw [Prog.yields_bind, Prog.yields_read, Prog.yields_ite]
      refine ⟨fun _ => ?_, fun _ => ?_⟩
      · cases src with
        | head m' => exact Prog.yields_stuck
        | shared i => exact Prog.yields_stuck
        | list i =>
          simp only [modifySeg, btListAdd, Prog.yields_bind, Prog.yields_update, Prog.yields_read]
          refine (ih _ _).mono fun _ s' h => SameNext.trans (fun c hc => ?_) h
          simp [Links.insertAfter, Links.link, Links.setNext, Links.setPrev, hc dest, hc i]
      · rw [Prog.yields_bind, Prog.yields_read]
        exact ih _ _

/-! ## The new map

It begins with one segment, and one is added for each segment of the original. -/

/-- Creating a map is not seen in another. -/
theorem create_other (h : Shows s orig xs) (ho : orig < s.fresh) :
    Prog.Ensures (btVmCreate K) s fun r s' => ∀ m, r = some m →
      m = s.fresh ∧ s'.fresh = s.fresh + 2 ∧ Shows s' m [(m + 1, initialSegment)] ∧
        Shows s' orig xs := by
  refine btVmCreate_rule ?_ ?_ ?_
  · intro _ m hm
    cases hm
  · intro _ _ s' _ _ m hm
    cases hm
  · intro _ _ s₁ hfresh hbegun _ hsh
    have hother : Shows s₁ orig xs := by
      refine ⟨hbegun.ring _ _ h.ring ?_ ?_, fun x hx => ?_, fun x hx => ?_⟩
      · simp [ho.ne']
      · intro hmem
        obtain ⟨x, hx, he⟩ := List.mem_map.mp (List.mem_of_ne_of_mem (by simp) hmem)
        have heq := Cell.list.inj he
        have hlt := h.lt x hx
        omega
      · rw [hbegun.seg x.1 (by have := h.lt x hx; omega)]
        exact h.seg x hx
      · have := h.lt x hx
        omega
    have hnew : ∀ pgd s₂, DirFrame s₁ s₂ → ∀ m, some s.fresh = some m →
        m = s.fresh ∧ (s₂.setMap s.fresh { s₂.map s.fresh with pgd := pgd }).fresh = s.fresh + 2 ∧
          Shows (s₂.setMap s.fresh { s₂.map s.fresh with pgd := pgd }) m
            [(m + 1, initialSegment)] ∧
          Shows (s₂.setMap s.fresh { s₂.map s.fresh with pgd := pgd }) orig xs := by
      intro pgd s₂ hf m hm
      cases hm
      refine ⟨rfl, hf.fresh.trans hfresh, (hf.shows hsh).congr rfl (fun _ _ => rfl) (le_refl _), ?_⟩
      exact (hf.shows hother).congr rfl (fun _ _ => rfl) (le_refl _)
    exact btMmuNewmap_rule (fun _ s₂ hf _ _ => hnew 0 s₂ hf) (fun _ _ s₂ hf _ _ => hnew 0 s₂ hf)
      fun pg _ _ _ s₂ hf _ _ _ => hnew _ s₂ hf

/-- The list of the new map has one segment more than the original's. -/
theorem duplicate_visits (h : Shows s orig xs) (ho : orig < s.fresh) :
    Prog.Yields (btVmDuplicate K orig) s fun r s' => ∀ m, r = some m →
      ∃ is, Visits s' m is ∧ is.length = xs.length + 1 := by
  unfold btVmDuplicate
  rw [Prog.yields_bind]
  refine (create_other h ho).yields.mono fun r s₁ hc => ?_
  cases r with
  | none => exact Prog.yields_pure.mpr fun m hm => nomatch hm
  | some m =>
    obtain ⟨rfl, hfresh, hsh, hother⟩ := hc m rfl
    simp only [modifyMap, Prog.yields_bind, Prog.yields_read, Prog.yields_update]
    refine (duplicateFrom_visits (s := s₁.setMap _ _) _ hsh.visits ?_ hother.visits ?_).mono
      fun ok s₂ hcopy => ?_
    · intro i hi
      obtain rfl : i = s.fresh + 1 := by simpa using hi
      simp [hfresh]
    · intro i hi
      obtain ⟨x, hx, rfl⟩ := List.mem_map.mp hi
      exact hother.lt x hx
    · cases ok with
      | false => exact Prog.yields_pure.mpr fun m hm => nomatch hm
      | true =>
        obtain ⟨js, hlen, hv⟩ := hcopy rfl
        simp only [if_true, sharedLock, sharedUnlock, Prog.yields_bind, Prog.yields_read,
          Prog.yields_update, Prog.yields_pure]
        refine (linkShared_next _ _ _).mono fun _ s₃ hnext m hm => ?_
        cases hm
        refine ⟨_, hnext.visits hv, ?_⟩
        simp [hlen]

/-! ## Equality with the original

The two lists have different lengths, and this is the end of it. -/

/-- The segment `y` of the new map `m` is a copy of the segment `x` of the original: the same
range and flags, up to `BT_SEG_SHARED`; if it is not free, mapped page by page to memory of
the same contents, its own if it is writable and the original's if it is not; and if it is
shared, so is its source, and of the new segments `ys` it alone is in the source's ring. -/
structure CopiedSegment (K : Kernel σ) (s' : Machine σ) (m : ℕ) (ys : List Entry) (x y : Entry) :
    Prop where
  /-- it has the same addresses -/
  addr : y.2.addr = x.2.addr
  size : y.2.size = x.2.size
  /-- and the same flags, but for the one that says that it is shared -/
  flags : y.2.flags &&& wordNot btSegShared = x.2.flags &&& wordNot btSegShared
  /-- its pages are mapped -/
  mapped : y.2.flags ≠ btSegFree → ∀ d < y.2.size, d % 4096 = 0 → ∃ attr,
    s'.walk K (getPgd (s'.map m).pgd) (y.2.addr + d) = some (y.2.phys + d, attr)
  /-- one that can be written has memory of its own, with the same contents -/
  own : y.2.flags ≠ btSegFree → y.2.has btSegWrite → y.2.phys ≠ x.2.phys ∧
    ∀ d < y.2.size, s'.ram (K.ram.physToVirt y.2.phys + d) = s'.ram (K.ram.physToVirt x.2.phys + d)
  /-- any other has the memory of the original -/
  same : y.2.flags ≠ btSegFree → ¬ y.2.has btSegWrite → y.2.phys = x.2.phys
  /-- and is on the list of those who share it if it is marked so -/
  shared : y.2.has btSegShared → (s'.seg x.1).has btSegShared ∧ ∃ cs,
    Ring s'.links (.shared x.1) cs ∧ ∀ z ∈ ys, Cell.shared z.1 ∈ cs ↔ z = y

/-- The new map equals the original, segment by segment in the order of the lists. -/
def DuplicateEqual (K : Kernel σ) (s' : Machine σ) (m : ℕ) (xs : List Entry) : Prop :=
  ∃ ys, Shows s' m ys ∧ List.Forall₂ (CopiedSegment K s' m ys) xs ys

/-- A duplicate has as many segments as the map. -/
theorem DuplicateEqual.length {is : List ℕ} (h : DuplicateEqual K s' m xs) (hv : Visits s' m is) :
    is.length = xs.length := by
  obtain ⟨ys, hy, hall⟩ := h
  rw [hv.unique hy.visits, List.length_map, hall.length_eq]

/-- A duplicated map is never equal to the original: its list still holds the free segment
`bt_vm_create` has put there. -/
theorem duplicate_never_equal (h : Shows s orig xs) (ho : orig < s.fresh)
    (hrun : btVmDuplicate K orig s = some (some m, s')) : ¬ DuplicateEqual K s' m xs := by
  intro heq
  obtain ⟨is, hv, hlen⟩ := duplicate_visits h ho _ _ hrun m rfl
  have hsame := heq.length hv
  omega

/-- A new map is duplicated: the copy has two segments. -/
theorem duplicate_never_equal_fresh_map : ∃ m s' xs, Shows twoMaps 1 xs ∧ 1 < twoMaps.fresh ∧
    btVmDuplicate stockKernel 1 twoMaps = some (some m, s') ∧
      ¬ DuplicateEqual stockKernel s' m xs := by
  have heval : (btVmDuplicate stockKernel 1 twoMaps).map Prod.fst = some (some 5) := by
    decide +kernel
  obtain ⟨⟨r, s'⟩, hrun, hr⟩ := Option.map_eq_some_iff.mp heval
  cases hr
  obtain ⟨xs, hx⟩ := twoMaps_shown false
  have hlt : 1 < twoMaps.fresh := by decide +kernel
  exact ⟨5, s', xs, hx, hlt, hrun, duplicate_never_equal hx hlt hrun⟩

/-- A map fresh from `bt_vm_create`, with its one free segment, duplicated. -/
theorem duplicate_keeps_initial_segment : ∃ s', Shows twoMaps 1 [(2, initialSegment)] ∧
    btVmDuplicate stockKernel 1 twoMaps = some (some 5, s') ∧
    ¬DuplicateEqual stockKernel s' 5 [(2, initialSegment)] := by
  have heval : (((do
      let r ← btVmDuplicate stockKernel 1
      Prog.read fun s => (r, s.links.next (.head 5), s.links.next (.list 7),
        s.links.next (.list 6))) : Prog (Machine Stock) (Option ℕ × Cell × Cell × Cell))
      twoMaps).map Prod.fst = some (some 5, .list 7, .list 6, .head 5) := by decide +kernel
  obtain ⟨⟨_, s'⟩, hrun, rfl⟩ := Option.map_eq_some_iff.mp heval
  obtain ⟨r, s₁, hdup, hread⟩ := Prog.bind_eq_some hrun
  have hres : (r, s₁.links.next (.head 5), s₁.links.next (.list 7), s₁.links.next (.list 6)) =
      (some 5, .list 7, .list 6, .head 5) := congrArg Prod.fst (Option.some.inj hread)
  simp only [Prod.mk.injEq] at hres
  obtain ⟨hr, hhead, hfirst, hsecond⟩ := hres
  subst hr
  have hx : Shows twoMaps 1 [(2, initialSegment)] := by
    have hseg : twoMaps.seg 2 = initialSegment := by decide +kernel
    have hsingle : Shows twoMaps 1 [(2, twoMaps.seg 2)] := .single (by decide +kernel)
      (by decide +kernel) (by decide +kernel) (by decide +kernel) (by decide +kernel)
    rwa [hseg] at hsingle
  refine ⟨s₁, hx, hdup, fun heq => ?_⟩
  have hv : Visits s₁ 5 [7, 6] := ⟨hhead, hfirst, hsecond⟩
  exact absurd (heq.length hv) (by simp)

end BitThunder
