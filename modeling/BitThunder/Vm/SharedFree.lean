import BitThunder.Vm.Duplicate
import BitThunder.Vm.Locks
import BitThunder.Vm.Paged

/-!
# Giving a shared segment back

`bt_segment_free` takes a shared segment off the list of segments, not off the list of
sharers, and goes on to merge it with its neighbours. Its own two pointers still lead to
them.

* With a free segment in front, that one takes over the range, and the list is what it
  should be; unless a free segment behind is taken over too, which is then back on the
  list although it has been given to the heap.
* Without, the range belongs to no segment any more.

`btSegmentFree_shared` says when the list still tiles the addresses.

The segment is off the list before the merges begin, but its pointers are what they were. So the
merge with the next segment still finds that segment and unlinks it through its own pointers, which
is right; the merge with the previous one unlinks the segment once more, and this writes the old
pointers back into the list. If the segment behind has been taken over meanwhile, it is linked in
again.

The proof compares bytes. A list of segments without gaps has as many bytes as the interval, so that
a list in which a range is missing, or counted twice, does not tile it (`not_tiled`); for the one
good case the list is given.
-/

namespace BitThunder

variable {σ : Type} {K : Kernel σ} {s s' : Machine σ} {m i j lo hi : ℕ} {L : Links Cell}
  {v : Segment} {as bs is : List ℕ}

/-! ## Names and bytes

A list without gaps has as many bytes as its interval. -/

/-- What the segments of these names hold. -/
def Machine.entries (s : Machine σ) (is : List ℕ) : List Entry := is.map fun i => (i, s.seg i)

@[simp] theorem Machine.entries_append : s.entries (as ++ bs) = s.entries as ++ s.entries bs :=
  List.map_append

@[simp] theorem Machine.entries_cons : s.entries (i :: is) = (i, s.seg i) :: s.entries is := rfl

/-- How many bytes the segments of these names have. -/
def Machine.bytes (s : Machine σ) (is : List ℕ) : ℕ := (is.map fun i => (s.seg i).size).sum

@[simp] theorem Machine.bytes_append : s.bytes (as ++ bs) = s.bytes as + s.bytes bs := by
  simp [Machine.bytes]

@[simp] theorem Machine.bytes_cons : s.bytes (i :: is) = (s.seg i).size + s.bytes is := by
  simp [Machine.bytes]

@[simp] theorem Machine.bytes_nil : s.bytes [] = 0 := rfl

theorem Machine.bytes_congr (h : ∀ i ∈ is, s'.seg i = s.seg i) : s'.bytes is = s.bytes is := by
  unfold Machine.bytes
  congr 1
  exact List.map_congr_left fun i hi => by rw [h i hi]

theorem Machine.entries_congr (h : ∀ i ∈ is, s'.seg i = s.seg i) : s'.entries is = s.entries is :=
  List.map_congr_left fun i hi => by rw [h i hi]

/-- Segments without gaps have the bytes of their map. -/
theorem Paged.bytes (h : Paged lo hi (s.entries is)) : lo + s.bytes is = hi := by
  have hsum := h.tiles.add_sum
  rwa [Machine.entries, List.map_map] at hsum

/-- A list is known by the order in which it is visited. -/
theorem Shows.eq_entries {ys : List Entry} (h : Shows s m ys) (hv : Visits s m is) :
    ys = s.entries is := by
  rw [h.eq_map, h.visits.unique hv]
  rfl

/-- A ring of names is a list that is shown. -/
theorem Shows.of_ring (hr : Ring s.links (.head m) (is.map Cell.list))
    (hlt : ∀ i ∈ is, i < s.fresh) :
    Shows s m (s.entries is) where
  ring := by simpa [Machine.entries, Function.comp_def] using hr
  seg x hx := by
    obtain ⟨i, -, rfl⟩ := List.mem_map.mp hx
    rfl
  lt x hx := by
    obtain ⟨i, hi, rfl⟩ := List.mem_map.mp hx
    exact hlt i hi

/-- Only the ranges of the segments matter. -/
theorem Paged.map {xs : List Entry} {f : Entry → Entry} (h : Paged lo hi xs)
    (hf : ∀ x ∈ xs, (f x).2.addr = x.2.addr ∧ (f x).2.size = x.2.size) :
    Paged lo hi (xs.map f) := by
  induction xs generalizing lo with
  | nil => exact h
  | cons x xs ih =>
    obtain ⟨ha, hs⟩ := hf x (by simp)
    obtain ⟨h₁, h₂, h₃⟩ := paged_cons.mp h
    rw [List.map_cons, paged_cons, ha, hs]
    exact ⟨h₁, h₂, ih h₃ fun y hy => hf y (by simp [hy])⟩

/-- A list with bytes missing, or too many, does not tile the interval. -/
theorem not_tiled (hv : Visits s m is) (hne : lo + s.bytes is ≠ hi) :
    ¬ ∃ ys, Shows s m ys ∧ Paged lo hi ys := by
  rintro ⟨ys, hsh, hp⟩
  rw [hsh.eq_entries hv] at hp
  exact hne hp.bytes

/-! ## The two merges

What each merge does when its segment is off the list, but has its old pointers. -/

/-- The merge with the next segment, for a segment that is off the list. -/
theorem mergeNext_stale (hr : Ring L (.head m) ((as ++ i :: bs).map Cell.list))
    (hs : s.links = L.unlink (.list i)) :
    Prog.Ensures (mergeNextSegment K m i) s fun _ s' =>
      (s' = s ∧ ∀ j ∈ bs.head?, ¬ (s.seg j).has btSegFree) ∨
      ∃ j cs, bs = j :: cs ∧ (s.seg j).has btSegFree ∧
        s'.links = (L.unlink (.list i)).unlink (.list j) ∧ s'.fresh = s.fresh ∧
        s'.seg = Function.update s.seg i
          { s.seg i with size := wordAdd (s.seg i).size (s.seg j).size } := by
  rw [List.map_append, List.map_cons] at hr
  unfold mergeNextSegment
  rw [Prog.ensures_bind, Prog.ensures_read, hs, (L.unlink_self _).1, hr.next_mem]
  cases bs with
  | nil =>
    simp only [List.map_nil, List.headD_nil, if_true, Prog.ensures_pure]
    exact .inl ⟨trivial, by simp⟩
  | cons j bs =>
    simp only [List.map_cons, List.headD_cons, Prog.ensures_bind, Prog.ensures_read,
      Prog.ensures_when, btListDel, modifySeg, kFree, Prog.ensures_update]
    refine ⟨fun hf => .inr ⟨j, bs, rfl,
      hf, by rw [← hs]; rfl, rfl, rfl⟩, fun hf => .inl ⟨trivial, ?_⟩⟩
    rintro k hk
    obtain rfl : j = k := Option.some.inj hk
    exact hf

/-- The merge with the previous segment. -/
theorem mergePrev_stale (hp : s.links.prev (.list i) = (as.map Cell.list).getLastD (.head m)) :
    Prog.Ensures (mergePrevSegment K m i) s fun _ s' =>
      (s' = s ∧ ∀ k ∈ as.getLast?, ¬ (s.seg k).has btSegFree) ∨
      ∃ cs k, as = cs ++ [k] ∧ (s.seg k).has btSegFree ∧ s'.links = s.links.unlink (.list i) ∧
        s'.fresh = s.fresh ∧ s'.seg = Function.update s.seg k
          { s.seg k with size := wordAdd (s.seg k).size (s.seg i).size } := by
  unfold mergePrevSegment
  rw [Prog.ensures_bind, Prog.ensures_read, hp]
  cases as using List.reverseRecOn with
  | nil =>
    simp only [List.map_nil, List.getLastD_nil, if_true, Prog.ensures_pure]
    exact .inl ⟨trivial, by simp⟩
  | append_singleton as k =>
    rw [List.map_append, List.map_cons, List.map_nil, List.getLastD_concat]
    simp only [Prog.ensures_bind, Prog.ensures_read, Prog.ensures_when, btListDel, modifySeg, kFree,
      Prog.ensures_update]
    refine ⟨fun hf => .inr ⟨as, k, rfl, hf, rfl, rfl, rfl⟩, fun hf => .inl ⟨trivial, ?_⟩⟩
    rintro l hl
    obtain rfl : k = l := by simpa using hl
    exact hf

/-! ## The list afterwards

Which segments are on it, by whether the neighbours are free; and in which of these cases it is a
tiling. -/

/-- After the two merges the list tiles the interval if and only if the segment in front of
the removed one was free and the one behind it was not. -/
theorem merges_tile_iff (hb : Bounds lo hi) (hr : Ring L (.head m) ((as ++ i :: bs).map Cell.list))
    (hs : s.links = L.unlink (.list i)) (hlt : ∀ j ∈ as ++ i :: bs, j < s.fresh)
    (hp : Paged lo hi (s.entries (as ++ i :: bs))) :
    Prog.Ensures (do mergeNextSegment K m i; mergePrevSegment K m i) s fun _ s' =>
      (∃ ys, Shows s' m ys ∧ Paged lo hi ys) ↔
        (∃ k ∈ as.getLast?, (s.seg k).has btSegFree) ∧ ∀ j ∈ bs.head?,
          ¬ (s.seg j).has btSegFree := by
  have hlo := hb.pos
  have hhi := hb.le
  have hpos : 0 < (s.seg i).size := (hp.fits hb (x := (i, s.seg i)) (by simp)).2.1
  have hall := hp.bytes
  simp only [Machine.bytes_append, Machine.bytes_cons] at hall
  have hnd : (as ++ i :: bs).Nodup := (List.nodup_cons.mp hr.nodup).2.of_map _
  have hout : i ∉ as ++ bs := (List.nodup_cons.mp (List.nodup_middle.mp hnd)).1
  have hr' := hr
  rw [List.map_append, List.map_cons] at hr'
  have hrest : Ring (L.unlink (.list i)) (.head m) ((as ++ bs).map Cell.list) := by
    rw [List.map_append]
    exact hr'.unlink
  rw [Prog.ensures_bind]
  refine (mergeNext_stale hr hs).mono fun _ s₁ h₁ => ?_
  have hback : s₁.links.prev (.list i) = (as.map Cell.list).getLastD (.head m) := by
    rcases h₁ with ⟨rfl, -⟩ | ⟨j, cs, rfl, -, hl, -⟩
    · rw [hs, (L.unlink_self _).2, hr'.prev_mem]
    · have hj : L.next (.list i) = .list j := hr'.next_mem
      rw [hl, ← hj, L.unlink_unlink_prev, hr'.prev_mem]
  refine (mergePrev_stale hback).mono fun _ s₂ h₂ => ?_
  -- the names on the list are distinct, and `i` is not among them
  have hne : ∀ {j : ℕ}, j ∈ as ++ bs → j ≠ i := fun hj he => hout (he ▸ hj)
  rcases h₁ with ⟨rfl, hnext⟩ | ⟨j, cs, rfl, hjf, hl₁, hf₁, hseg₁⟩
  · rcases h₂ with ⟨rfl, hprev⟩ | ⟨ds, k, rfl, hkf, hl₂, hf₂, hseg₂⟩
    · -- nothing is merged: the range is lost
      have hv : Visits s₂ m (as ++ bs) := by
        rw [Visits, hs]
        exact hrest.fwd
      refine iff_of_false (not_tiled hv ?_) fun hcond => ?_
      · rw [Machine.bytes_append]
        omega
      · obtain ⟨k, hk, hkf⟩ := hcond.1
        exact hprev k hk hkf
    · -- the segment in front takes the range over
      rw [hs, Links.unlink_unlink] at hl₂
      have hsh : Shows s₂ m (s₂.entries (ds ++ k :: bs)) := by
        refine .of_ring ?_ fun j hj => ?_
        · rw [hl₂]
          simpa using hrest
        · rw [hf₂]
          exact hlt j (by simp at hj ⊢; tauto)
      refine iff_of_true ⟨_, hsh, ?_⟩ ⟨⟨k, by simp, hkf⟩, hnext⟩
      · have hk := List.nodup_middle.mp (by simpa using hnd : (ds ++ k :: i :: bs).Nodup)
        have hother : ∀ j ∈ ds ++ i :: bs, s₂.seg j = s₁.seg j := by
          intro j hj
          have hjk : j ≠ k := fun he => (List.nodup_cons.mp hk).1 (he ▸ hj)
          rw [hseg₂, Function.update_of_ne hjk]
        rw [Machine.entries_append, Machine.entries_cons,
          Machine.entries_congr fun j hj => hother j (by simp [hj]),
          Machine.entries_congr fun j hj => hother j (by simp [hj]), hseg₂, Function.update_self]
        have hp' : Paged lo hi (s₁.entries ds ++ (k, s₁.seg k) :: (i, s₁.seg i) ::
            s₁.entries bs) := by
          simpa [Machine.entries] using hp
        exact hp'.join hb rfl rfl
  · rcases h₂ with ⟨rfl, hprev⟩ | ⟨ds, k, rfl, hkf, hl₂, hf₂, hseg₂⟩
    · -- the segment behind is taken over by a segment that is not on the list
      have hother : ∀ l ∈ as ++ cs, s₂.seg l = s.seg l := by
        intro l hl
        have hli : l ≠ i := hne (by simp at hl ⊢; tauto)
        rw [hseg₁, Function.update_of_ne hli]
      have hv : Visits s₂ m (as ++ cs) := by
        have hr₂ := hrest
        rw [List.map_append, List.map_cons] at hr₂
        rw [Visits, hl₁, List.map_append]
        exact hr₂.unlink.fwd
      refine iff_of_false (not_tiled hv ?_) fun hcond => ?_
      · rw [Machine.bytes_congr hother, Machine.bytes_append]
        rw [Machine.bytes_cons] at hall
        omega
      · exact hcond.2 j (by simp) hjf
    · -- the segment behind is taken over, and put on the list again
      have hv : Visits s₂ m (ds ++ k :: j :: cs) := by
        rw [List.map_cons] at hr'
        rw [Visits, hl₂, hl₁, hr'.unlink_again]
        simpa using hrest.fwd
      have hk := List.nodup_middle.mp (by simpa using hnd : (ds ++ k :: i :: j :: cs).Nodup)
      have hother : ∀ l ∈ ds ++ j :: cs, s₂.seg l = s.seg l := by
        intro l hl
        have hlk : l ≠ k := fun he => (List.nodup_cons.mp hk).1 (he ▸ by simp at hl ⊢; tauto)
        have hli : l ≠ i := hne (by simp at hl ⊢; tauto)
        rw [hseg₂, Function.update_of_ne hlk, hseg₁, Function.update_of_ne hli]
      have hki : k ≠ i := hne (by simp)
      refine iff_of_false (not_tiled hv ?_) fun hcond => hcond.2 j (by simp) hjf
      have hds : s₂.bytes ds = s.bytes ds := Machine.bytes_congr fun l hl => hother l (by simp [hl])
      have hcs : s₂.bytes (j :: cs) = s.bytes (j :: cs) :=
        Machine.bytes_congr fun l hl => hother l (List.mem_append_right _ hl)
      have hj : 0 < (s.seg j).size := (hp.fits hb (x := (j, s.seg j)) (by simp)).2.1
      simp only [Machine.bytes_append, Machine.bytes_cons, Machine.bytes_nil] at hall hcs
      have hsize : (s₂.seg k).size = (s.seg k).size + ((s.seg i).size + (s.seg j).size) := by
        rw [hseg₂, Function.update_self, hseg₁, Function.update_self, Function.update_of_ne hki]
        simp only
        rw [wordAdd_of_lt (a := (s.seg i).size) (by omega), wordAdd_of_lt (by omega)]
      rw [Machine.bytes_append, Machine.bytes_cons, Machine.bytes_cons]
      omega

/-- **When a shared segment can be given back.** The list of segments still tiles the
interval if and only if the segment in front is free and the one behind is not. -/
theorem btSegmentFree_shared {as bs : List Entry} (hb : Bounds lo hi)
    (h : Shows s m (as ++ (i, v) :: bs)) (hp : Paged lo hi (as ++ (i, v) :: bs))
    (hs : v.has btSegShared) :
    Prog.Ensures (btSegmentFree K m i) s fun _ s' => (∃ ys, Shows s' m ys ∧ Paged lo hi ys) ↔
      (∃ x ∈ as.getLast?, x.2.has btSegFree) ∧ ∀ y ∈ bs.head?, ¬ y.2.has btSegFree := by
  unfold btSegmentFree
  simp only [sharedLock, sharedUnlock, modifySeg, btListDel, Prog.ensures_bind,
    Prog.ensures_update, Prog.ensures_read, Prog.ensures_when, Machine.emit_seg, h.seg_at]
  refine ⟨fun _ => ?_, fun hn => absurd hs hn⟩
  refine (unshareLast_kept i).mono fun _ t ht => ?_
  have hseg : ∀ x ∈ as ++ (i, v) :: bs, SameRange x.2 (t.seg x.1) := by
    intro x hx
    have := ht.seg x.1
    rwa [Machine.setLinks_seg, Machine.emit_seg, h.seg x hx] at this
  -- the state in which the merges start
  let u : Machine σ := (t.emit (.unlock .shared)).setSeg i { t.seg i with flags := btSegFree }
  have hother : ∀ x ∈ as ++ bs, u.seg x.1 = t.seg x.1 := fun x hx =>
    Function.update_of_ne (h.ne_of_mem hx) ..
  have hpaged : Paged lo hi (u.entries (as.map Prod.fst ++ i :: bs.map Prod.fst)) := by
    have hranges := hp.map (f := fun x => (x.1, u.seg x.1)) fun x hx => ?_
    · simpa [Machine.entries, Function.comp_def] using hranges
    · by_cases hxi : x.1 = i
      · rw [hxi, show u.seg i = { t.seg i with flags := btSegFree } from Function.update_self ..,
          ← hxi]
        exact ⟨(hseg x hx).addr, (hseg x hx).size⟩
      · have hx' : x ∈ as ++ bs := by
          simp only [List.mem_append, List.mem_cons] at hx ⊢
          rcases hx with hx | rfl | hx
          · exact .inl hx
          · exact absurd rfl hxi
          · exact .inr hx
        rw [hother x hx']
        exact ⟨(hseg x hx).addr, (hseg x hx).size⟩
  have hlinks : u.links = s.links.unlink (.list i) := ht.links
  have hlt : ∀ j ∈ as.map Prod.fst ++ i :: bs.map Prod.fst, j < u.fresh := by
    intro j hj
    have hj' : j ∈ (as ++ (i, v) :: bs).map Prod.fst := by simpa using hj
    obtain ⟨x, hx, rfl⟩ := List.mem_map.mp hj'
    exact (h.lt x hx).trans_eq ht.fresh.symm
  have hring : Ring s.links (.head m)
      ((as.map Prod.fst ++ i :: bs.map Prod.fst).map Cell.list) := by
    simpa [Function.comp_def] using h.ring
  have hmerges := merges_tile_iff (K := K) hb hring hlinks hlt hpaged
  have hfree : ∀ x ∈ as ++ bs, (u.seg x.1).has btSegFree = x.2.has btSegFree := by
    intro x hx
    rw [hother x hx]
    exact (hseg x (by simp at hx ⊢; tauto)).free
  have hcond : ((∃ k ∈ (as.map Prod.fst).getLast?, (u.seg k).has btSegFree) ∧
      ∀ j ∈ (bs.map Prod.fst).head?, ¬ (u.seg j).has btSegFree) ↔
      (∃ x ∈ as.getLast?, x.2.has btSegFree) ∧ ∀ y ∈ bs.head?, ¬ y.2.has btSegFree := by
    rw [List.getLast?_map, List.head?_map]
    simp only [Option.mem_def, Option.map_eq_some_iff]
    constructor
    · rintro ⟨⟨k, ⟨x, hx, rfl⟩, hk⟩, hnext⟩
      refine ⟨⟨x, hx, ?_⟩, fun y hy => ?_⟩
      · rwa [← hfree x (by simp [List.mem_of_getLast? hx])]
      · rw [← hfree y (by simp [List.mem_of_head? hy])]
        exact hnext _ ⟨y, hy, rfl⟩
    · rintro ⟨⟨x, hx, hxf⟩, hnext⟩
      refine ⟨⟨x.1, ⟨x, hx, rfl⟩, ?_⟩, ?_⟩
      · rwa [hfree x (by simp [List.mem_of_getLast? hx])]
      · rintro j ⟨y, hy, rfl⟩
        rw [hfree y (by simp [List.mem_of_head? hy])]
        exact hnext y hy
  rw [hcond] at hmerges
  exact Prog.ensures_bind.mp hmerges

end BitThunder
