import BitThunder.Lib.Tiling
import BitThunder.Vm.Segment

/-!
# Segments as lists

`Shows s m xs` says that in the machine state `s` the map `m` shows the list `xs`
of segments: names and contents, in list order. `Edit K m xs s xs' s'` says that
going from `s` to `s'` the map went from `xs` to `xs'` and nothing but segments,
list pointers and the kernel heap was touched, those of other maps excepted.

Every segment function gets one lemma that says which edit it makes; nothing above
this module looks at a list pointer of a map.

`Edit` is the relation that all operations on maps are told in. It forgets how the pointers were
written, and keeps what later modules need: which list the map shows now, that new segments are new
blocks, that whoever is not on the list kept its contents, that rings which do not go through the
cells of the map are still rings, and how many blocks the kernel heap is out by. Edits compose, and
the composition is an edit.

`Carve` says of a list what a reservation does to it, without naming a piece of code: the segment
`v` is replaced by up to three, of which the middle one has the range that was asked for. `Undone`
says what a call that fails later leaves: the list as it was, or the list with the piece given back.
That the two are the same list is a matter of the layout, not of the edits, and is shown in the next
module.
-/

namespace BitThunder

variable {σ : Type}

/-! ## Representation

A map shows a list if the cells from its head on are the segments of the list, in this order, in
both directions. -/

/-- A segment's name and contents. -/
abbrev Entry : Type := ℕ × Segment

/-- The map's list runs through these segments. -/
structure Shows (s : Machine σ) (m : ℕ) (xs : List Entry) : Prop where
  /-- the list of the map runs through the segments -/
  ring : Ring s.links (.head m) (xs.map fun x => .list x.1)
  /-- which are as they are said to be -/
  seg : ∀ x ∈ xs, s.seg x.1 = x.2
  /-- and have been allocated -/
  lt : ∀ x ∈ xs, x.1 < s.fresh

namespace Shows

variable {s s' : Machine σ} {m i j : ℕ} {v w : Segment} {xs as bs : List Entry}

theorem nodup (h : Shows s m xs) : (xs.map Prod.fst).Nodup := by
  have hn := (List.nodup_cons.mp h.ring.nodup).2
  rw [show (xs.map fun x => Cell.list x.1) = (xs.map Prod.fst).map Cell.list by simp] at hn
  exact List.Nodup.of_map _ hn

/-- A map has at most as many segments as there are blocks. -/
theorem length_le (h : Shows s m xs) : xs.length ≤ s.fresh := by
  have hsub : xs.map Prod.fst ⊆ List.range s.fresh := by
    intro i hi
    obtain ⟨x, hx, rfl⟩ := List.mem_map.mp hi
    exact List.mem_range.mpr (h.lt x hx)
  have := (List.subperm_of_subset h.nodup hsub).length_le
  simpa using this

theorem seg_at (h : Shows s m (as ++ (i, v) :: bs)) : s.seg i = v := h.seg (i, v) (by simp)

theorem lt_at (h : Shows s m (as ++ (i, v) :: bs)) : i < s.fresh := h.lt (i, v) (by simp)

/-- The name of a segment is not that of another. -/
theorem ne_of_mem {x : Entry} (h : Shows s m (as ++ (i, v) :: bs)) (hx : x ∈ as ++ bs) :
    x.1 ≠ i := by
  have hn := h.nodup
  rw [List.map_append, List.map_cons, List.nodup_middle] at hn
  have hni := (List.nodup_cons.mp hn).1
  have hm : x.1 ∈ as.map Prod.fst ++ bs.map Prod.fst := by
    rw [← List.map_append]
    exact List.mem_map_of_mem hx
  intro he
  exact hni (he ▸ hm)

/-- Only the list pointers and the contents of the segments matter. -/
theorem congr (h : Shows s m xs) (hl : s'.links = s.links) (hs : ∀ x ∈ xs, s'.seg x.1 = s.seg x.1)
    (hf : s.fresh ≤ s'.fresh) : Shows s' m xs where
  ring := hl ▸ h.ring
  seg x hx := (hs x hx).trans (h.seg x hx)
  lt x hx := (h.lt x hx).trans_le hf

/-- It is followed by the next one, or by the head. -/
theorem next_at (h : Shows s m (as ++ (i, v) :: bs)) :
    s.links.next (.list i) = (bs.map fun x => Cell.list x.1).headD (.head m) := by
  have hr := h.ring
  rw [List.map_append, List.map_cons] at hr
  exact hr.next_mem

/-- It comes behind the one before it, or behind the head. -/
theorem prev_at (h : Shows s m (as ++ (i, v) :: bs)) :
    s.links.prev (.list i) = (as.map fun x => Cell.list x.1).getLastD (.head m) := by
  have hr := h.ring
  rw [List.map_append, List.map_cons] at hr
  exact hr.prev_mem

/-- Replacing the contents of one segment. -/
theorem setSeg (h : Shows s m (as ++ (i, v) :: bs)) (w : Segment) :
    Shows (s.setSeg i w) m (as ++ (i, w) :: bs) where
  ring := by simpa using h.ring
  seg x hx := by
    rw [Machine.setSeg_seg]
    rcases List.mem_append.mp hx with hx | hx
    · rw [Function.update_of_ne (h.ne_of_mem (List.mem_append_left _ hx))]
      exact h.seg x (List.mem_append_left _ hx)
    · rcases List.mem_cons.mp hx with rfl | hx
      · rw [Function.update_self]
      · rw [Function.update_of_ne (h.ne_of_mem (List.mem_append_right _ hx))]
        exact h.seg x (List.mem_append_right _ (List.mem_cons_of_mem _ hx))
  lt x hx := by
    rcases List.mem_append.mp hx with hx | hx
    · exact h.lt x (List.mem_append_left _ hx)
    · rcases List.mem_cons.mp hx with rfl | hx
      · exact h.lt_at
      · exact h.lt x (List.mem_append_right _ (List.mem_cons_of_mem _ hx))

/-- Linking a segment that is not in the list right behind another. -/
theorem insert (h : Shows s m (as ++ (i, v) :: bs)) (hj : j ∉ (as ++ (i, v) :: bs).map Prod.fst)
    (hlt : j < s.fresh) (hw : s.seg j = w) :
    Shows (s.setLinks (s.links.insertAfter (.list j) (.list i))) m
      (as ++ (i, v) :: (j, w) :: bs) where
  ring := by
    have hr := h.ring
    rw [show as ++ (i, v) :: bs = (as ++ [(i, v)]) ++ bs by simp, List.map_append] at hr
    have hn : Cell.list j ∉ Cell.head m :: ((as ++ [(i, v)]).map (fun x => Cell.list x.1) ++
        bs.map fun x => Cell.list x.1) := by
      rw [← List.map_append]
      simpa using hj
    have := hr.insertAfter hn
    simpa using this
  seg x hx := by
    have hx' : x = (j, w) ∨ x ∈ as ++ (i, v) :: bs := by
      simp only [List.mem_append, List.mem_cons] at hx ⊢
      tauto
    rcases hx' with rfl | hx'
    · exact hw
    · exact h.seg x hx'
  lt x hx := by
    have hx' : x = (j, w) ∨ x ∈ as ++ (i, v) :: bs := by
      simp only [List.mem_append, List.mem_cons] at hx ⊢
      tauto
    rcases hx' with rfl | hx'
    · exact hlt
    · exact h.lt x hx'

/-- Unlinking a segment. -/
theorem remove (h : Shows s m (as ++ (i, v) :: bs)) :
    Shows (s.setLinks (s.links.unlink (.list i))) m (as ++ bs) where
  ring := by
    have hr := h.ring
    rw [List.map_append, List.map_cons] at hr
    rw [List.map_append]
    exact hr.unlink
  seg x hx := h.seg x (by
    simp only [List.mem_append, List.mem_cons] at hx ⊢
    tauto)
  lt x hx := h.lt x (by
    simp only [List.mem_append, List.mem_cons] at hx ⊢
    tauto)

/-- The search loop is `List.find?`. -/
theorem ensures_find {p : Segment → Bool} {Q : Option ℕ → Machine σ → Prop} (h : Shows s m xs) :
    Prog.Ensures (findSegment m p) s Q ↔ Q ((xs.find? fun x => p x.2).map Prod.fst) s := by
  have hfind : s.links.search (s.cellTest p) (.head m) s.fresh =
      some ((xs.find? fun x => p x.2).map fun x => Cell.list x.1) := by
    have hlen : (xs.map fun x => Cell.list x.1).length ≤ s.fresh := by
      simpa using h.length_le
    rw [h.ring.search hlen, List.find?_map]
    congr 2
    refine List.find?_congr fun x hx => ?_
    simp only [Function.comp_apply, Machine.cellTest, h.seg x hx]
  unfold findSegment
  rw [Prog.ensures_bind, Prog.ensures_ofOption, hfind]
  cases xs.find? fun x => p x.2 with
  | none => simp
  | some x => simp

end Shows

/-! ## Edits

The part about the kernel heap composes by itself, and an edit is this together with the lists. -/

/-- One call of the kernel heap. -/
inductive Kernel.HeapStep (K : Kernel σ) : σ → σ → Prop where
  | malloc (n : ℕ) (e : σ) : K.HeapStep e (K.kMalloc n e).2
  | free (p : ℕ) (e : σ) : K.HeapStep e (K.kFree p e)

/-- The calls a segment function makes: locks and the kernel heap. -/
def Event.Quiet : Event → Prop
  | .lock _ | .unlock _ | .malloc _ | .mallocRefused | .kfree _ => True
  | _ => False

/-- What a call does to the number of live heap blocks. -/
def Event.heap : Event → ℤ
  | .malloc _ => 1
  | .kfree _ => -1
  | _ => 0

/-- The live heap blocks a log accounts for. -/
def heapBalance (log : List Event) : ℤ := (log.map Event.heap).sum

/-- Each event changes the balance of the heap once. -/
@[simp] theorem heapBalance_cons {e : Event} {log : List Event} :
    heapBalance (e :: log) = e.heap + heapBalance log := by
  simp [heapBalance]

/-- Between the two states only segments, list pointers and the kernel heap were
touched. -/
structure HeapFrame (K : Kernel σ) (s s' : Machine σ) : Prop where
  /-- the services were asked for blocks of the heap only -/
  env : Relation.ReflTransGen K.HeapStep s.env s'.env
  /-- some of which are new -/
  fresh : s.fresh ≤ s'.fresh
  map : s'.map = s.map
  mapSeg : s'.mapSeg = s.mapSeg
  asid : s'.asid = s.asid
  dir : s'.dir = s.dir
  tbl : s'.tbl = s.tbl
  ram : s'.ram = s.ram
  task : s'.task = s.task
  /-- and no event is one of pages or tables -/
  log : ∃ evs, s'.log = evs ++ s.log ∧ ∀ e ∈ evs, e.Quiet

namespace HeapFrame

variable {K : Kernel σ} {s s₁ s₂ : Machine σ}

theorem refl (K : Kernel σ) (s : Machine σ) : HeapFrame K s s where
  env := .refl
  fresh := le_refl _
  map := rfl
  mapSeg := rfl
  asid := rfl
  dir := rfl
  tbl := rfl
  ram := rfl
  task := rfl
  log := ⟨[], rfl, by simp⟩

theorem trans (h : HeapFrame K s s₁) (h' : HeapFrame K s₁ s₂) : HeapFrame K s s₂ where
  env := h.env.trans h'.env
  fresh := h.fresh.trans h'.fresh
  map := h'.map.trans h.map
  mapSeg := h'.mapSeg.trans h.mapSeg
  asid := h'.asid.trans h.asid
  dir := h'.dir.trans h.dir
  tbl := h'.tbl.trans h.tbl
  ram := h'.ram.trans h.ram
  task := h'.task.trans h.task
  log := by
    obtain ⟨evs, he, hq⟩ := h.log
    obtain ⟨evs', he', hq'⟩ := h'.log
    refine ⟨evs' ++ evs, by rw [he', he, List.append_assoc], fun e hmem => ?_⟩
    rcases List.mem_append.mp hmem with hm | hm
    · exact hq' e hm
    · exact hq e hm

/-- What a quiet log leaves alone. -/
theorem sum_log {β : Type} [AddCommMonoid β] (h : HeapFrame K s s₁) (f : Event → β)
    (hf : ∀ e : Event, e.Quiet → f e = 0) : (s₁.log.map f).sum = (s.log.map f).sum := by
  obtain ⟨evs, he, hq⟩ := h.log
  have hz : (evs.map f).sum = 0 := by
    refine List.sum_eq_zero fun x hx => ?_
    obtain ⟨e, hm, rfl⟩ := List.mem_map.mp hx
    exact hf e (hq e hm)
  rw [he, List.map_append, List.sum_append, hz, zero_add]

end HeapFrame

/-- The map `m` went from showing `xs` to showing `xs'`; its new segments are new
blocks, what else there is of segments and rings stayed, and the heap was asked
for as many blocks as the list grew. -/
structure Edit (K : Kernel σ) (m : ℕ) (xs : List Entry) (s : Machine σ) (xs' : List Entry)
    (s' : Machine σ) : Prop where
  /-- the map has the new segments -/
  shows : Shows s' m xs'
  /-- nothing but segments has changed -/
  frame : HeapFrame K s s'
  /-- a segment is one of the old ones or was allocated meanwhile -/
  names : ∀ x ∈ xs', x.1 ∈ xs.map Prod.fst ∨ s.fresh ≤ x.1
  /-- segments of other maps are as they were -/
  seg : ∀ i < s.fresh, i ∉ xs.map Prod.fst → s'.seg i = s.seg i
  /-- so are other lists -/
  ring : ∀ h ys, Ring s.links h ys →
    (∀ c ∈ .head m :: xs.map (fun x => Cell.list x.1), c ∉ h :: ys) →
    (∀ i, s.fresh ≤ i → Cell.list i ∉ h :: ys) → Ring s'.links h ys
  /-- and as many blocks were taken as there are more segments -/
  heap : heapBalance s'.log + xs.length = heapBalance s.log + xs'.length

namespace Edit

variable {K : Kernel σ} {s s₁ s₂ : Machine σ} {m i j n : ℕ} {v w v' : Segment}
  {xs ys zs as bs : List Entry}

theorem refl (h : Shows s m xs) : Edit K m xs s xs s where
  shows := h
  frame := .refl K s
  names _ hx := .inl (List.mem_map_of_mem hx)
  seg _ _ _ := rfl
  ring _ _ hr _ _ := hr
  heap := rfl

theorem trans (h : Edit K m xs s ys s₁) (h' : Edit K m ys s₁ zs s₂) : Edit K m xs s zs s₂ where
  shows := h'.shows
  frame := h.frame.trans h'.frame
  names x hx := by
    rcases h'.names x hx with hm | hf
    · obtain ⟨y, hy, he⟩ := List.mem_map.mp hm
      rw [← he]
      exact h.names y hy
    · exact .inr (h.frame.fresh.trans hf)
  seg i hi hx := by
    have hy : i ∉ ys.map Prod.fst := by
      intro hm
      obtain ⟨y, hy, rfl⟩ := List.mem_map.mp hm
      rcases h.names y hy with hin | hf
      · exact hx hin
      · omega
    rw [h'.seg i (hi.trans_le h.frame.fresh) hy, h.seg i hi hx]
  ring c ds hr hdis hnew := by
    refine h'.ring c ds (h.ring c ds hr hdis hnew) ?_
      fun i hi => hnew i (h.frame.fresh.trans hi)
    intro d hd
    rcases List.mem_cons.mp hd with rfl | hd
    · exact hdis _ (List.mem_cons_self ..)
    · obtain ⟨y, hy, rfl⟩ := List.mem_map.mp hd
      rcases h.names y hy with hin | hf
      · obtain ⟨x, hx, he⟩ := List.mem_map.mp hin
        rw [← he]
        exact hdis _ (List.mem_cons_of_mem _ (List.mem_map_of_mem (f := fun x => Cell.list x.1) hx))
      · exact hnew _ hf
  heap := by
    have h₁ := h.heap
    have h₂ := h'.heap
    omega

/-- Taking or releasing a lock is no edit. -/
theorem emit (h : Shows s m xs) {e : Event} (hq : e.Quiet) (hh : e.heap = 0) :
    Edit K m xs s xs (s.emit e) where
  shows := h.congr rfl (fun _ _ => rfl) (le_refl _)
  frame := { HeapFrame.refl K s with log := ⟨[e], rfl, by simpa using hq⟩ }
  names x hx := .inl (List.mem_map_of_mem hx)
  seg _ _ _ := rfl
  ring _ _ hr _ _ := hr
  heap := by simp [hh]

/-- Storing into a segment of the map. -/
theorem setSeg (h : Shows s m (as ++ (i, v) :: bs)) (w : Segment) :
    Edit K m (as ++ (i, v) :: bs) s (as ++ (i, w) :: bs) (s.setSeg i w) where
  shows := h.setSeg w
  frame := { HeapFrame.refl K s with }
  names x hx := by
    left
    have : (as ++ (i, v) :: bs).map Prod.fst = (as ++ (i, w) :: bs).map Prod.fst := by simp
    rw [this]
    exact List.mem_map_of_mem hx
  seg k _ hk := by
    rw [Machine.setSeg_seg, Function.update_of_ne]
    rintro rfl
    simp at hk
  ring _ _ hr _ _ := hr
  heap := by simp

/-- A refused allocation. -/
theorem refused (h : Shows s m xs) (hz : (K.kMalloc n s.env).1 = 0) :
    Edit K m xs s xs (s.kMalloc K n).2 := by
  rw [Machine.kMalloc, if_pos hz]
  refine ⟨h.congr rfl (fun _ _ => rfl) (le_refl _), ?_, fun x hx => .inl (List.mem_map_of_mem hx),
    fun _ _ _ => rfl, fun _ _ hr _ _ => hr, by simp [Event.heap]⟩
  exact { HeapFrame.refl K s with
    env := .single (.malloc n s.env)
    log := ⟨[.mallocRefused], rfl, by simp [Event.Quiet]⟩ }

/-- A new block as a segment right behind `i`. -/
theorem insert (h : Shows s m (as ++ (i, v) :: bs)) (hz : (K.kMalloc n s.env).1 ≠ 0)
    (w : Segment) :
    Edit K m (as ++ (i, v) :: bs) s (as ++ (i, v) :: (s.fresh, w) :: bs)
      (((s.kMalloc K n).2.setSeg s.fresh w).setLinks
        (s.links.insertAfter (.list s.fresh) (.list i))) := by
  rw [Machine.kMalloc, if_neg hz]
  have hnew : s.fresh ∉ (as ++ (i, v) :: bs).map Prod.fst := by
    intro hm
    obtain ⟨x, hx, he⟩ := List.mem_map.mp hm
    exact absurd (h.lt x hx) (by omega)
  have hold : ∀ x ∈ as ++ (i, v) :: bs, x.1 ≠ s.fresh := fun x hx => (h.lt x hx).ne
  have h₁ : Shows (((((s.setEnv (K.kMalloc n s.env).2).newBlock (K.kMalloc n s.env).1).emit
      (.malloc s.fresh)).setSeg s.fresh w)) m (as ++ (i, v) :: bs) :=
    h.congr rfl (fun x hx => by simp [Function.update_of_ne (hold x hx)]) (Nat.le_succ _)
  refine ⟨h₁.insert hnew (Nat.lt_succ_self _) (by simp), ?_, ?_, ?_, ?_, ?_⟩
  · exact { HeapFrame.refl K s with
      env := .single (.malloc n s.env)
      fresh := Nat.le_succ _
      log := ⟨[.malloc s.fresh], rfl, by simp [Event.Quiet]⟩ }
  · intro x hx
    have hx' : x = (s.fresh, w) ∨ x ∈ as ++ (i, v) :: bs := by
      simp only [List.mem_append, List.mem_cons] at hx ⊢
      tauto
    rcases hx' with rfl | hx'
    · exact .inr (le_refl _)
    · exact .inl (List.mem_map_of_mem hx')
  · intro k hk _
    simp [Function.update_of_ne hk.ne]
  · intro c ds hr hdis hf
    refine Ring.insertAfter_frame h.ring ?_ hr hdis (hf _ (le_refl _))
    exact List.mem_cons_of_mem _ (by simp)
  · simp [Event.heap]
    omega

/-- Unlinking a segment, changing the one before it and giving the block back. -/
theorem absorb (h : Shows s m (as ++ (i, v) :: (j, w) :: bs)) (v' : Segment) :
    Edit K m (as ++ (i, v) :: (j, w) :: bs) s (as ++ (i, v') :: bs)
      ((((s.setLinks (s.links.unlink (.list j))).setSeg i v').setEnv
        (K.kFree (s.ptr j) s.env)).emit (.kfree j)) := by
  have hj : Shows s m ((as ++ [(i, v)]) ++ (j, w) :: bs) := by simpa using h
  have h₁ : Shows (s.setLinks (s.links.unlink (.list j))) m (as ++ (i, v) :: bs) := by
    simpa using hj.remove
  refine ⟨(h₁.setSeg v').congr rfl (fun _ _ => rfl) (le_refl _), ?_, ?_, ?_, ?_, ?_⟩
  · exact { HeapFrame.refl K s with
      env := .single (.free _ _)
      log := ⟨[.kfree j], rfl, by simp [Event.Quiet]⟩ }
  · intro x hx
    left
    simp only [List.map_append, List.map_cons, List.mem_append, List.mem_cons] at hx ⊢
    rcases hx with hx | rfl | hx
    · exact .inl (List.mem_map_of_mem hx)
    · simp
    · exact .inr (.inr (.inr (List.mem_map_of_mem hx)))
  · intro k _ hk
    have hki : k ≠ i := by
      rintro rfl
      simp at hk
    simp [Function.update_of_ne hki]
  · intro c ds hr hdis _
    exact Ring.unlink_frame h.ring (List.mem_cons_of_mem _ (by simp)) hr hdis
  · simp [Event.heap]
    omega

end Edit

/-! ## What the functions do to the list

Each function is told as an operation on lists, with the state of the services where a block is
needed. -/

/-- The segment takes over a free segment behind it. -/
def mergeAhead (v : Segment) : List Entry → Segment × List Entry
  | [] => (v, [])
  | (j, w) :: bs =>
    if w.has btSegFree then ({ v with size := wordAdd v.size w.size }, bs) else (v, (j, w) :: bs)

/-- A free segment in front takes over the segment. -/
def mergeBehind (as : List Entry) (i : ℕ) (v : Segment) (bs : List Entry) : List Entry :=
  match as.getLast? with
  | none => (i, v) :: bs
  | some (k, u) =>
    if u.has btSegFree then as.dropLast ++ (k, { u with size := wordAdd u.size v.size }) :: bs
    else as ++ (i, v) :: bs

/-- `bt_segment_free` on the list. -/
def freeAt (as : List Entry) (i : ℕ) (v : Segment) (bs : List Entry) : List Entry :=
  let r := mergeAhead { v with flags := btSegFree } bs
  mergeBehind as i r.1 r.2

theorem mergeBehind_nil {i : ℕ} {v : Segment} {bs : List Entry} :
    mergeBehind [] i v bs = (i, v) :: bs := rfl

/-- The segment before takes this one in, if it is free. -/
theorem mergeBehind_concat {as bs : List Entry} {k i : ℕ} {u v : Segment} :
    mergeBehind (as ++ [(k, u)]) i v bs =
      if u.has btSegFree then as ++ (k, { u with size := wordAdd u.size v.size }) :: bs
      else as ++ (k, u) :: (i, v) :: bs := by
  simp [mergeBehind]

/-- The free segment a split leaves behind the first `n` bytes of `v`; none if `v`
is no longer than that. -/
def tailOf (k : ℕ) (v : Segment) (n : ℕ) : List Entry :=
  if v.size = n then [] else [(k, ⟨wordAdd v.addr n, 0, wordSub v.size n, btSegFree⟩)]

/-- `[a, a + n)` is cut out of the free segment `v` of the list `xs`: the list is now
`as`, the segment `j` with that range and physical address `p`, and `bs`. The cut is
at the front of `v`, which then keeps its name, or further inside. -/
inductive Carve (xs : List Entry) (v : Segment) :
    ℕ → ℕ → List Entry → ℕ → ℕ → List Entry → Prop where
  | front {as bs : List Entry} {i k n : ℕ} : xs = as ++ (i, v) :: bs → v.has btSegFree →
      Carve xs v v.addr n as i v.phys (tailOf k v n ++ bs)
  | inner {as bs : List Entry} {i j k a n : ℕ} : xs = as ++ (i, v) :: bs → v.has btSegFree →
      v.addr ≠ a →
      Carve xs v a n (as ++ [(i, { v with size := wordSub a v.addr })]) j 0
        (tailOf k ⟨a, 0, wordSub v.size (wordSub a v.addr), btSegFree⟩ n ++ bs)

/-- A list that is `xs`, or `xs` with a segment cut out and given back. -/
inductive Undone (xs : List Entry) : List Entry → Prop where
  | same : Undone xs xs
  | freed {v : Segment} {a n j p f : ℕ} {as bs : List Entry} : Carve xs v a n as j p bs →
      n < 2 ^ 32 → Undone xs (freeAt as j ⟨a, p, n, f⟩ bs)

theorem not_has_shared_of_free {a p n : ℕ} : ¬ Segment.has ⟨a, p, n, btSegFree⟩ btSegShared := by
  change ¬ (btSegFree &&& btSegShared != 0) = true
  decide

section Functions

variable {K : Kernel σ} {s : Machine σ} {m i : ℕ} {v : Segment} {xs as bs : List Entry}

/-- `bt_segment_create` puts a free segment behind `i`, or the heap refuses. -/
theorem btSegmentCreate_spec (h : Shows s m (as ++ (i, v) :: bs)) (addr size : ℕ) :
    Prog.Ensures (btSegmentCreate K i addr size) s fun r s' =>
      (r = none ∧ (K.kMalloc segmentBytes s.env).1 = 0 ∧
        Edit K m (as ++ (i, v) :: bs) s (as ++ (i, v) :: bs) s') ∨
      (r = some s.fresh ∧ ((K.kMalloc segmentBytes s.env).1 ≠ 0 ∧
        s'.env = (K.kMalloc segmentBytes s.env).2) ∧
        Edit K m (as ++ (i, v) :: bs) s
          (as ++ (i, v) :: (s.fresh, ⟨addr, 0, size, btSegFree⟩) :: bs) s') := by
  unfold btSegmentCreate kMalloc
  rw [Prog.ensures_bind, Prog.ensures_service]
  by_cases hz : (K.kMalloc segmentBytes s.env).1 = 0
  · have hr := Edit.refused (K := K) (n := segmentBytes) h hz
    have h₁ : (s.kMalloc K segmentBytes).1 = none := by
      rw [Machine.kMalloc, if_pos hz]
    rw [h₁, Prog.ensures_pure]
    exact .inl ⟨rfl, hz, hr⟩
  · have hr := Edit.insert (K := K) (n := segmentBytes) h hz ⟨addr, 0, size, btSegFree⟩
    have h₁ : (s.kMalloc K segmentBytes).1 = some s.fresh := by
      rw [Machine.kMalloc, if_neg hz]
    have h₂ : (s.kMalloc K segmentBytes).2.links = s.links := by
      rw [Machine.kMalloc, if_neg hz]
      rfl
    have h₃ : (s.kMalloc K segmentBytes).2.env = (K.kMalloc segmentBytes s.env).2 := by
      rw [Machine.kMalloc, if_neg hz]
      rfl
    rw [h₁]
    simp only [putSeg, btListAdd, Prog.ensures_bind, Prog.ensures_update, Prog.ensures_pure,
      Machine.setSeg_links, h₂]
    right
    exact ⟨trivial, ⟨hz, h₃⟩, hr⟩

/-- The segment behind is taken in, if it is free. -/
theorem mergeNextSegment_spec (h : Shows s m (as ++ (i, v) :: bs)) :
    Prog.Ensures (mergeNextSegment K m i) s fun _ s' =>
      Edit K m (as ++ (i, v) :: bs) s (as ++ (i, (mergeAhead v bs).1) :: (mergeAhead v bs).2)
        s' := by
  unfold mergeNextSegment
  rw [Prog.ensures_bind, Prog.ensures_read, h.next_at]
  cases bs with
  | nil =>
    simp only [List.map_nil, List.headD_nil, if_true, Prog.ensures_pure]
    exact Edit.refl h
  | cons y bs =>
    obtain ⟨j, w⟩ := y
    have hw : s.seg j = w := h.seg (j, w) (by simp)
    have hv : (s.setLinks (s.links.unlink (.list j))).seg i = v := h.seg_at
    simp only [List.map_cons, List.headD_cons, Prog.ensures_bind, Prog.ensures_read, hw,
      Prog.ensures_when, mergeAhead]
    constructor
    · intro hf
      simp only [btListDel, modifySeg, kFree, Prog.ensures_update, hv, hf, if_true]
      exact Edit.absorb h _
    · intro hf
      rw [if_neg hf]
      exact Edit.refl h

/-- The segment before takes this one in, if it is free. -/
theorem mergePrevSegment_spec (h : Shows s m (as ++ (i, v) :: bs)) :
    Prog.Ensures (mergePrevSegment K m i) s fun _ s' =>
      Edit K m (as ++ (i, v) :: bs) s (mergeBehind as i v bs) s' := by
  unfold mergePrevSegment
  rw [Prog.ensures_bind, Prog.ensures_read, h.prev_at]
  cases as using List.reverseRecOn with
  | nil =>
    simp only [List.map_nil, List.getLastD_nil, if_true, Prog.ensures_pure, mergeBehind_nil]
    exact Edit.refl h
  | append_singleton as x =>
    obtain ⟨k, u⟩ := x
    have hk : Shows s m (as ++ (k, u) :: (i, v) :: bs) := by simpa using h
    have hi : (s.setLinks (s.links.unlink (.list i))).seg i = v := h.seg_at
    have hu : (s.setLinks (s.links.unlink (.list i))).seg k = u := hk.seg_at
    rw [List.map_append, List.map_cons, List.map_nil, List.getLastD_concat]
    simp only [Prog.ensures_bind, Prog.ensures_read, hk.seg_at, Prog.ensures_when,
      mergeBehind_concat]
    rw [List.append_assoc, List.singleton_append]
    constructor
    · intro hf
      simp only [btListDel, modifySeg, kFree, Prog.ensures_update, hi, hu, hf, if_true]
      exact Edit.absorb hk _
    · intro hf
      rw [if_neg hf]
      exact Edit.refl hk

/-- `bt_segment_free` of a segment nobody shares. -/
theorem btSegmentFree_spec (h : Shows s m (as ++ (i, v) :: bs)) (hs : ¬ v.has btSegShared) :
    Prog.Ensures (btSegmentFree K m i) s fun _ s' =>
      Edit K m (as ++ (i, v) :: bs) s (freeAt as i v bs) s' := by
  have e₁ : Edit K m (as ++ (i, v) :: bs) s (as ++ (i, v) :: bs) (s.emit (.lock .shared)) :=
    .emit h trivial rfl
  have e₂ := e₁.trans (Edit.emit (K := K) (e := .unlock .shared) e₁.shows trivial rfl)
  have e₃ := e₂.trans (Edit.setSeg (K := K) e₂.shows { v with flags := btSegFree })
  simp only [btSegmentFree, sharedLock, sharedUnlock, modifySeg, Prog.ensures_bind,
    Prog.ensures_update, Prog.ensures_read, Prog.ensures_when, Machine.emit_seg, h.seg_at]
  refine ⟨fun hf => absurd hf hs, fun _ => ?_⟩
  refine (mergeNextSegment_spec e₃.shows).mono fun _ s₁ e₄ => ?_
  refine (mergePrevSegment_spec e₄.shows).mono fun _ s₂ e₅ => ?_
  exact (e₃.trans e₄).trans e₅

/-- The free segment that a request for `n` bytes is cut from, and the state of the services
after that. -/
def allocTarget (K : Kernel σ) (e : σ) (xs : List Entry) (n : ℕ) : Option (Segment × σ) :=
  match xs.find? fun x => allocTest n x.2 with
  | none => none
  | some x =>
    if x.2.size = n then some (x.2, e)
    else if (K.kMalloc segmentBytes e).1 = 0 then none
    else some (x.2, (K.kMalloc segmentBytes e).2)

/-- `bt_segment_alloc` cuts the range off the front of the first free segment that
is large enough. -/
theorem btSegmentAlloc_spec (h : Shows s m xs) (size : ℕ) :
    Prog.Ensures (btSegmentAlloc K m size) s fun r s' =>
      (r = none ∧ allocTarget K s.env xs (btPageAlign size) = none ∧ Edit K m xs s xs s') ∨
      ∃ v as j p bs, r = some j ∧ allocTarget K s.env xs (btPageAlign size) = some (v, s'.env) ∧
        allocTest (btPageAlign size) v ∧ Carve xs v v.addr (btPageAlign size) as j p bs ∧
        Edit K m xs s (as ++ (j, ⟨v.addr, p, btPageAlign size, v.flags⟩) :: bs) s' := by
  unfold btSegmentAlloc
  rw [Prog.ensures_bind, h.ensures_find]
  cases hfind : xs.find? fun x => allocTest (btPageAlign size) x.2 with
  | none =>
    simp only [Option.map_none, Prog.ensures_pure]
    exact .inl ⟨trivial, by rw [allocTarget, hfind], Edit.refl h⟩
  | some x =>
    obtain ⟨i, v⟩ := x
    obtain ⟨hp, as, bs, rfl, -⟩ := List.find?_eq_some_iff_append.mp hfind
    have hfree : v.has btSegFree := by
      simp only [allocTest, Bool.and_eq_true] at hp
      exact hp.1
    simp only [Option.map_some, Prog.ensures_bind, Prog.ensures_read, h.seg_at, Prog.ensures_ite]
    constructor
    · intro hne
      refine (btSegmentCreate_spec h _ _).mono fun r s₁ hr => ?_
      rcases hr with ⟨rfl, hz, e⟩ | ⟨rfl, ⟨hz, henv⟩, e⟩
      · simp only [mapUnlock, Prog.ensures_bind, Prog.ensures_update, Prog.ensures_pure]
        refine .inl ⟨trivial, ?_, e.trans (.emit e.shows trivial rfl)⟩
        simp only [allocTarget, hfind, if_neg hne, if_pos hz]
      · have hv : s₁.seg i = v := e.shows.seg_at
        simp only [modifySeg, Prog.ensures_bind, Prog.ensures_update, Prog.ensures_pure, hv]
        refine .inr ⟨v, as, i, v.phys, tailOf s.fresh v (btPageAlign size) ++ bs, rfl, ?_, hp,
          .front rfl hfree, ?_⟩
        · simp only [allocTarget, hfind, if_neg hne, if_neg hz, Machine.setSeg_env, henv]
        rw [tailOf, if_neg hne, List.singleton_append]
        exact e.trans (.setSeg e.shows _)
    · intro heq
      have heq : v.size = btPageAlign size := not_not.mp heq
      rw [Prog.ensures_pure]
      refine .inr ⟨v, as, i, v.phys, tailOf s.fresh v (btPageAlign size) ++ bs, rfl, ?_, hp,
        .front rfl hfree, ?_⟩
      · simp only [allocTarget, hfind, if_pos heq]
      rw [tailOf, if_pos heq, List.nil_append, ← heq]
      exact Edit.refl h

/-- The state of the services once there is a block, where one is needed. -/
def blockFor (K : Kernel σ) (needed : Bool) (e : σ) : Option σ :=
  if needed then
    if (K.kMalloc segmentBytes e).1 = 0 then none else some (K.kMalloc segmentBytes e).2
  else some e

/-- What is left of a segment from `a` on. -/
def restFrom (v : Segment) (a : ℕ) : ℕ := if v.addr = a then v.size
    else wordSub v.size (wordSub a v.addr)

/-- The free segment that the range of `n` bytes at `a` is cut out of, and the state of the
services after that: a block is needed for what lies in front of the range, and one for what
lies behind it. -/
def reserveTarget (K : Kernel σ) (e : σ) (xs : List Entry) (a n : ℕ) : Option (Segment × σ) :=
  match xs.find? fun x => lookupTest (btPageTrunc a) n x.2 with
  | none => none
  | some x =>
    if x.2.has btSegFree then
      ((blockFor K (x.2.addr ≠ a) e).bind (blockFor K (restFrom x.2 a ≠ n))).map fun e' => (x.2, e')
    else none

/-- Splitting off what lies behind the first `size` bytes. -/
theorem reserveTail_spec (h : Shows s m (as ++ (i, v) :: bs)) (size : ℕ) (prev : Bool)
    (hs : prev → ¬ v.has btSegShared) :
    Prog.Ensures (reserveIn.reserveTail K m i size prev) s fun r s' =>
      (r = none ∧ blockFor K (v.size ≠ size) s.env = none ∧ Edit K m (as ++ (i, v) :: bs) s
        (if prev then freeAt as i v bs else as ++ (i, v) :: bs) s') ∨
      (r = some i ∧ blockFor K (v.size ≠ size) s.env = some s'.env ∧
        ∃ k, Edit K m (as ++ (i, v) :: bs) s
        (as ++ (i, { v with size := size, flags := 0 }) :: (tailOf k v size ++ bs)) s') := by
  unfold reserveIn.reserveTail
  simp only [Prog.ensures_bind, Prog.ensures_read, h.seg_at, Prog.ensures_ite]
  constructor
  · intro hne
    refine (btSegmentCreate_spec h _ _).mono fun r s₁ hr => ?_
    rcases hr with ⟨rfl, hz, e⟩ | ⟨rfl, ⟨hz, henv⟩, e⟩
    · have hno : blockFor K (v.size ≠ size) s.env = none := by
        rw [blockFor, if_pos (decide_eq_true hne), if_pos hz]
      simp only [Prog.ensures_bind, Prog.ensures_when, Prog.ensures_pure]
      refine ⟨fun hprev => ?_, fun hprev => ?_⟩
      · refine (btSegmentFree_spec e.shows (hs hprev)).mono fun _ s₂ e' => ?_
        rw [if_pos hprev]
        exact .inl ⟨trivial, hno, e.trans e'⟩
      · rw [if_neg hprev]
        exact .inl ⟨trivial, hno, e⟩
    · have hv : s₁.seg i = v := e.shows.seg_at
      have e₁ := e.trans (Edit.setSeg (K := K) e.shows { v with size := size })
      have e₂ := e₁.trans (Edit.setSeg (K := K) e₁.shows { v with size := size, flags := 0 })
      simp only [modifySeg, Prog.ensures_bind, Prog.ensures_update, Prog.ensures_pure, hv,
        Machine.setSeg_seg, Function.update_self]
      refine .inr ⟨trivial, ?_, s.fresh, ?_⟩
      · rw [blockFor, if_pos (decide_eq_true hne), if_neg hz, ← henv]
        rfl
      rw [tailOf, if_neg hne, List.singleton_append]
      exact e₂
  · intro heq
    have heq : v.size = size := not_not.mp heq
    simp only [modifySeg, Prog.ensures_update, Prog.ensures_pure, h.seg_at]
    refine .inr ⟨trivial, ?_, 0, ?_⟩
    · rw [blockFor, if_neg (by simp [heq])]
      rfl
    rw [tailOf, if_pos heq, List.nil_append, ← heq]
    exact Edit.setSeg h _

/-- `bt_segment_reserve` cuts the range out of the free segment the lookup finds. -/
theorem btSegmentReserve_spec (h : Shows s m xs) (addr size : ℕ) :
    Prog.Ensures (btSegmentReserve K m addr size) s fun r s' =>
      (r = none ∧ reserveTarget K s.env xs addr (btPageAlign size) = none ∧
        ∃ xs', Undone xs xs' ∧ Edit K m xs s xs' s') ∨
      ∃ v as j p bs, r = some j ∧
        reserveTarget K s.env xs addr (btPageAlign size) = some (v, s'.env) ∧
          lookupTest (btPageTrunc addr) (btPageAlign size) v ∧
        Carve xs v addr (btPageAlign size) as j p bs ∧
        Edit K m xs s (as ++ (j, ⟨addr, p, btPageAlign size, 0⟩) :: bs) s' := by
  unfold btSegmentReserve btSegmentLookup
  rw [Prog.ensures_bind, h.ensures_find]
  cases hfind : xs.find? fun x => lookupTest (btPageTrunc addr) (btPageAlign size) x.2 with
  | none =>
    simp only [Option.map_none, Prog.ensures_pure]
    exact .inl ⟨trivial, by rw [reserveTarget, hfind], xs, .same, Edit.refl h⟩
  | some x =>
    obtain ⟨i, v⟩ := x
    obtain ⟨hp, as, bs, rfl, -⟩ := List.find?_eq_some_iff_append.mp hfind
    simp only [Option.map_some, Prog.ensures_bind, Prog.ensures_read, h.seg_at, Prog.ensures_ite]
    refine ⟨fun hfree => ?_, fun hused => ?_⟩
    · have htarget : reserveTarget K s.env (as ++ (i, v) :: bs) addr (btPageAlign size) =
          ((blockFor K (v.addr ≠ addr) s.env).bind
            (blockFor K (restFrom v addr ≠ btPageAlign size))).map fun e' => (v, e') := by
        rw [reserveTarget, hfind]
        exact if_pos hfree
      rw [htarget]
      unfold reserveIn
      simp only [Prog.ensures_bind, Prog.ensures_read, h.seg_at, Prog.ensures_ite]
      refine ⟨fun hne => ?_, fun heq => ?_⟩
      · refine (btSegmentCreate_spec h _ _).mono fun r s₁ hr => ?_
        rcases hr with ⟨rfl, hz, e⟩ | ⟨rfl, ⟨hz, henv⟩, e⟩
        · rw [Prog.ensures_pure, blockFor, if_pos (decide_eq_true hne), if_pos hz]
          exact .inl ⟨rfl, rfl, _, .same, e⟩
        · rw [blockFor, if_pos (decide_eq_true hne), if_neg hz, restFrom, if_neg hne, ← henv]
          have hv : s₁.seg i = v := e.shows.seg_at
          have e₁ := e.trans (Edit.setSeg (K := K) e.shows
            { v with size := wordSub addr v.addr })
          simp only [modifySeg, Prog.ensures_bind, Prog.ensures_update, hv]
          have hsh : Shows (s₁.setSeg i { v with size := wordSub addr v.addr }) m
              ((as ++ [(i, { v with size := wordSub addr v.addr })]) ++
                (s.fresh, ⟨addr, 0, wordSub v.size (wordSub addr v.addr), btSegFree⟩) :: bs) := by
            simpa using e₁.shows
          refine (reserveTail_spec hsh _ _ fun _ => not_has_shared_of_free).mono fun r s₂ hr => ?_
          have happ : as ++ (i, { v with size := wordSub addr v.addr }) ::
              (s.fresh, ⟨addr, 0, wordSub v.size (wordSub addr v.addr), btSegFree⟩) :: bs =
              (as ++ [(i, { v with size := wordSub addr v.addr })]) ++
                (s.fresh, ⟨addr, 0, wordSub v.size (wordSub addr v.addr), btSegFree⟩) :: bs := by
            simp
          rw [happ] at e₁
          rcases hr with ⟨rfl, hno, e₂⟩ | ⟨rfl, hblock, k, e₂⟩
          · refine .inl ⟨rfl, ?_, _, ?_, e₁.trans e₂⟩
            · rw [Option.bind_some, show blockFor K _ s₁.env = none from hno]
              rfl
            have hc := Carve.inner (k := 0) (j := s.fresh)
              (n := wordSub v.size (wordSub addr v.addr)) (rfl : as ++ (i, v) :: bs = _) hfree hne
            rw [tailOf, if_pos rfl, List.nil_append] at hc
            exact .freed hc (wordSub_lt _ _)
          · refine .inr ⟨v, _, _, _, _, rfl, ?_, hp, .inner rfl hfree hne, e₁.trans e₂⟩
            rw [Option.bind_some, show blockFor K _ s₁.env = some s₂.env from hblock]
            rfl
      · have heq : v.addr = addr := not_not.mp heq
        subst heq
        rw [blockFor, if_neg (by simp), restFrom, if_pos rfl, Option.bind_some]
        refine (reserveTail_spec h _ _ fun hf => absurd hf (by decide)).mono fun r s₁ hr => ?_
        rcases hr with ⟨rfl, hno, e⟩ | ⟨rfl, hblock, k, e⟩
        · exact .inl ⟨rfl, by rw [hno]; rfl, _, .same, e⟩
        · exact .inr ⟨v, _, _, _, _, rfl, by rw [hblock]; rfl, hp, .front rfl hfree, e⟩
    · rw [Prog.ensures_pure]
      refine .inl ⟨rfl, ?_, _, .same, Edit.refl h⟩
      rw [reserveTarget, hfind]
      exact if_neg hused

end Functions

end BitThunder
