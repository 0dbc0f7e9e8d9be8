import BitThunder.Vm.SegSpec

/-!
# The layout of an address space

`SegmentsOk lo hi xs` is what the segments of a map should look like: they tile the
interval from `lo` to `hi` in order, in whole pages, and no two free ones are
neighbours. Cutting a range out of a free segment and giving a segment back keep
it, and giving back what was just cut out is the identity.

While a call holds a segment it has just obtained, the flags of that segment may
still say that it is free; the invariant is then stated with those flags cleared.

The proofs are about lists of entries and use nothing of the machine. A segment's neighbours matter
for one thing only, the relation `NotBothFree`; cutting a list at a segment gives the two sides and
the two neighbours, and an operation on the segment has to answer for the new neighbours alone
(`rebuild`).

`Carve.restore` is why a failed call leaves no trace. The piece that was cut out is merged with what
it was cut from, on whichever sides that is, because the list was coalesced before: the segments
around the free one are in use, so that the merges go exactly as far as the cut did. It needs that a
free segment carries no other flag, since a segment that is given back has `BT_SEG_FREE` written
over the flags it had.
-/

namespace BitThunder

variable {lo hi i j k a n p f : ℕ} {v w u : Segment} {xs as bs : List Entry}

/-- Two neighbours that are not both free. -/
def NotBothFree (x y : Entry) : Prop := ¬ (x.2.has btSegFree ∧ y.2.has btSegFree)

/-- The segments tile `[lo, hi)` in whole pages, coalesced and unshared. -/
structure SegmentsOk (lo hi : ℕ) (xs : List Entry) : Prop where
  /-- in order, without gaps, none empty -/
  tiles : Tiles (fun x : Entry => x.2.addr) (fun x => x.2.size) lo xs hi
  /-- made of pages -/
  aligned : ∀ x ∈ xs, x.2.addr % 4096 = 0 ∧ x.2.size % 4096 = 0
  /-- no two neighbours are free -/
  apart : xs.IsChain NotBothFree
  /-- a free segment carries no other flag -/
  flags : ∀ x ∈ xs, x.2.has btSegFree → x.2.flags = btSegFree
  /-- and no segment is shared -/
  unshared : ∀ x ∈ xs, ¬ x.2.has btSegShared

/-- The ends of an address space: a non-zero, page-aligned start, and no more than
32 bits of addresses. -/
structure Bounds (lo hi : ℕ) : Prop where
  pos : 0 < lo
  aligned : lo % 4096 = 0
  le : hi ≤ 2 ^ 32

theorem user_bounds : Bounds btPageSize btMmUserLimit := ⟨by decide, by decide, by decide⟩

theorem not_has_free_zero : ¬ Segment.has ⟨a, p, n, 0⟩ btSegFree := by
  simp [Segment.has]

theorem not_has_shared_zero : ¬ Segment.has ⟨a, p, n, 0⟩ btSegShared := by
  simp [Segment.has]

theorem has_free_self : Segment.has ⟨a, p, n, btSegFree⟩ btSegFree := by
  change (btSegFree &&& btSegFree != 0) = true
  decide

/-- Sizes do not change what the flags say. -/
@[simp] theorem has_setSize {bits : ℕ} : Segment.has { v with size := n } bits = v.has bits := rfl

@[simp] theorem has_setPhys {bits : ℕ} : Segment.has { v with phys := p } bits = v.has bits := rfl

namespace SegmentsOk

/-- A segment lies within its map, and its size is a word. -/
theorem fits {x : Entry} (h : SegmentsOk lo hi xs) (hb : Bounds lo hi) (hx : x ∈ xs) :
    lo ≤ x.2.addr ∧ 0 < x.2.size ∧ x.2.addr + x.2.size ≤ hi ∧ x.2.size < 2 ^ 32 := by
  obtain ⟨h₁, h₂, h₃⟩ := h.tiles.bounds hx
  have := hb.pos
  have := hb.le
  exact ⟨h₁, h₂, h₃, by omega⟩

theorem mem_middle (h : SegmentsOk lo hi (as ++ (i, v) :: bs)) :
    v.addr % 4096 = 0 ∧ v.size % 4096 = 0 ∧ 0 < v.size ∧ lo ≤ v.addr ∧ v.addr + v.size ≤ hi := by
  have hm : (i, v) ∈ as ++ (i, v) :: bs := by simp
  obtain ⟨h₁, h₂⟩ := h.aligned _ hm
  obtain ⟨h₃, h₄, h₅⟩ := h.tiles.bounds hm
  exact ⟨h₁, h₂, h₄, h₃, h₅⟩

/-- The list may be changed: what has to be shown again is the tiling, the
neighbours, and the pieces that were not there before. -/
theorem rebuild {ys : List Entry} (h : SegmentsOk lo hi xs) (zs : List Entry)
    (hmem : ∀ x ∈ ys, x ∈ zs ∨ x ∈ xs)
    (ht : Tiles (fun x : Entry => x.2.addr) (fun x => x.2.size) lo ys hi)
    (hap : ys.IsChain NotBothFree)
    (hz : ∀ x ∈ zs, (x.2.addr % 4096 = 0 ∧ x.2.size % 4096 = 0) ∧
      (x.2.has btSegFree → x.2.flags = btSegFree) ∧ ¬ x.2.has btSegShared) :
    SegmentsOk lo hi ys := by
  refine ⟨ht, fun x hx => ?_, hap, fun x hx => ?_, fun x hx => ?_⟩
  · rcases hmem x hx with hm | hm
    · exact (hz x hm).1
    · exact h.aligned x hm
  · rcases hmem x hx with hm | hm
    · exact (hz x hm).2.1
    · exact h.flags x hm
  · rcases hmem x hx with hm | hm
    · exact (hz x hm).2.2
    · exact h.unshared x hm

/-- Another segment with the same range, if the neighbours agree. -/
theorem retag (h : SegmentsOk lo hi (as ++ (i, v) :: bs)) (ha : w.addr = v.addr)
    (hsz : w.size = v.size) (hf : w.has btSegFree → w.flags = btSegFree)
    (hs : ¬ w.has btSegShared) (hl : ∀ y ∈ as.getLast?, NotBothFree y (j, w))
    (hr : ∀ y ∈ bs.head?, NotBothFree (j, w) y) :
    SegmentsOk lo hi (as ++ (j, w) :: bs) := by
  obtain ⟨h₁, h₂, -, -, -⟩ := h.mem_middle
  refine h.rebuild [(j, w)] ?_ ?_ ?_ ?_
  · intro x hx
    simp only [List.mem_append, List.mem_cons, List.not_mem_nil, or_false] at hx ⊢
    tauto
  · rw [tiles_cut]
    simp only [ha, hsz]
    exact tiles_cut.mp h.tiles
  · obtain ⟨c₁, -, -, c₂⟩ := chain_middle.mp h.apart
    exact chain_middle.mpr ⟨c₁, hl, hr, c₂⟩
  · intro x hx
    obtain rfl := List.mem_singleton.mp hx
    refine ⟨?_, hf, hs⟩
    simp only [ha, hsz]
    exact ⟨h₁, h₂⟩

/-- A segment in use may take the place of any segment with its range. -/
theorem hold (h : SegmentsOk lo hi (as ++ (i, v) :: bs)) (ha : w.addr = v.addr)
    (hsz : w.size = v.size) (hf : ¬ w.has btSegFree) (hs : ¬ w.has btSegShared) :
    SegmentsOk lo hi (as ++ (j, w) :: bs) :=
  h.retag ha hsz (fun hf' => absurd hf' hf) hs (fun _ _ hy => hf hy.2) fun _ _ hy => hf hy.1

/-! ## Giving back

A segment becomes free and is joined with free neighbours, so that no two free ones are neighbours
again. -/

/-- Two neighbours become one. -/
theorem join (hb : Bounds lo hi) (h : SegmentsOk lo hi (as ++ (i, v) :: (j, w) :: bs))
    (ha : u.addr = v.addr) (hsz : u.size = wordAdd v.size w.size)
    (hf : u.has btSegFree → u.flags = btSegFree) (hs : ¬ u.has btSegShared)
    (hl : ∀ y ∈ as.getLast?, NotBothFree y (i, u))
    (hr : ∀ y ∈ bs.head?, NotBothFree (i, u) y) :
    SegmentsOk lo hi (as ++ (i, u) :: bs) := by
  have hle := hb.le
  have hpos := hb.pos
  obtain ⟨hva, hvs, hvp, hvlo, -⟩ := h.mem_middle
  obtain ⟨hwa, hws⟩ : w.addr % 4096 = 0 ∧ w.size % 4096 = 0 := h.aligned (j, w) (by simp)
  obtain ⟨t₁, -, t₂⟩ := tiles_cut.mp h.tiles
  obtain ⟨-, -, t₃⟩ := tiles_cons.mp t₂
  have hend : v.addr + v.size + w.size ≤ hi := t₃.le
  have hsum : u.size = v.size + w.size := by
    rw [hsz]
    exact wordAdd_of_lt (by omega)
  refine h.rebuild [(i, u)] ?_ ?_ ?_ ?_
  · intro x hx
    simp only [List.mem_append, List.mem_cons, List.not_mem_nil, or_false] at hx ⊢
    tauto
  · rw [tiles_cut]
    simp only [ha, hsum]
    exact ⟨t₁, by omega, by rw [← Nat.add_assoc]; exact t₃⟩
  · obtain ⟨c₁, -, -, c₂⟩ := chain_middle.mp h.apart
    exact chain_middle.mpr ⟨c₁, hl, hr, c₂.tail⟩
  · intro x hx
    obtain rfl := List.mem_singleton.mp hx
    refine ⟨?_, hf, hs⟩
    simp only [ha, hsum]
    omega

/-- No free segment follows a free one. -/
theorem not_free_of_free (h : SegmentsOk lo hi (as ++ (i, v) :: bs)) (hf : v.has btSegFree) :
    (∀ y ∈ as.getLast?, ¬ y.2.has btSegFree) ∧ ∀ y ∈ bs.head?, ¬ y.2.has btSegFree := by
  obtain ⟨-, c₂, c₃, -⟩ := chain_middle.mp h.apart
  exact ⟨fun y hy hyf => c₂ y hy ⟨hyf, hf⟩, fun y hy hyf => c₃ y hy ⟨hf, hyf⟩⟩

/-- Taking over the free segment behind: a held segment then has no free segment
behind it. -/
theorem mergeAhead (hb : Bounds lo hi) (h : SegmentsOk lo hi (as ++ (i, ⟨a, p, n, 0⟩) :: bs)) :
    ∃ n', mergeAhead ⟨a, p, n, f⟩ bs = (⟨a, p, n', f⟩, (mergeAhead ⟨a, p, n, f⟩ bs).2) ∧
      SegmentsOk lo hi (as ++ (i, ⟨a, p, n', 0⟩) :: (BitThunder.mergeAhead ⟨a, p, n, f⟩ bs).2) ∧
      ∀ y ∈ (BitThunder.mergeAhead ⟨a, p, n, f⟩ bs).2.head?, ¬ y.2.has btSegFree := by
  cases bs with
  | nil => exact ⟨n, rfl, h, by simp [BitThunder.mergeAhead]⟩
  | cons y bs =>
    obtain ⟨j, w⟩ := y
    by_cases hw : w.has btSegFree
    · simp only [BitThunder.mergeAhead, if_pos hw]
      have hj : SegmentsOk lo hi ((as ++ [(i, ⟨a, p, n, 0⟩)]) ++ (j, w) :: bs) := by simpa using h
      refine ⟨wordAdd n w.size, rfl, ?_, (hj.not_free_of_free hw).2⟩
      exact h.join hb rfl rfl (fun hf => absurd hf not_has_free_zero) not_has_shared_zero
        (fun _ _ hy => not_has_free_zero hy.2) fun _ _ hy => not_has_free_zero hy.1
    · simp only [BitThunder.mergeAhead, if_neg hw]
      exact ⟨n, rfl, h, by simpa using hw⟩

/-- Being taken over by the free segment in front, or becoming free alone. -/
theorem mergeBehind (hb : Bounds lo hi) (h : SegmentsOk lo hi (as ++ (i, ⟨a, p, n, 0⟩) :: bs))
    (hr : ∀ y ∈ bs.head?, ¬ y.2.has btSegFree) :
    SegmentsOk lo hi (mergeBehind as i ⟨a, p, n, btSegFree⟩ bs) := by
  cases as using List.reverseRecOn with
  | nil =>
    rw [mergeBehind_nil]
    have h' : SegmentsOk lo hi ([] ++ (i, ⟨a, p, n, 0⟩) :: bs) := h
    exact h'.retag rfl rfl (fun _ => rfl) not_has_shared_of_free (by simp)
      fun y hy hyf => hr y hy hyf.2
  | append_singleton as x =>
    obtain ⟨k, u⟩ := x
    rw [mergeBehind_concat]
    by_cases hu : u.has btSegFree
    · rw [if_pos hu]
      have hk : SegmentsOk lo hi (as ++ (k, u) :: (i, ⟨a, p, n, 0⟩) :: bs) := by simpa using h
      refine hk.join hb rfl rfl (fun _ => hk.flags (k, u) (by simp) hu)
        (hk.unshared (k, u) (by simp)) ?_ fun y hy hyf => hr y hy hyf.2
      exact fun y hy hyf => (hk.not_free_of_free hu).1 y hy hyf.1
    · rw [if_neg hu]
      have hk := h.retag (j := i) (w := ⟨a, p, n, btSegFree⟩) rfl rfl (fun _ => rfl)
        not_has_shared_of_free ?_ fun y hy hyf => hr y hy hyf.2
      · simpa using hk
      · intro y hy hyf
        obtain rfl : (k, u) = y := by simpa using hy
        exact hu hyf.1

/-- Giving back a segment keeps the layout. -/
theorem freeAt (hb : Bounds lo hi) (h : SegmentsOk lo hi (as ++ (i, ⟨a, p, n, 0⟩) :: bs)) :
    SegmentsOk lo hi (freeAt as i ⟨a, p, n, f⟩ bs) := by
  obtain ⟨n', he, h', hr⟩ := h.mergeAhead (f := btSegFree) hb
  have := h'.mergeBehind hb hr
  simp only [BitThunder.freeAt]
  rw [he]
  exact this

/-! ## Cutting out

What is left on either side of the range stays free, and may be empty. -/

/-- A held segment is cut after its first `n` bytes; what is left over is free. -/
theorem cutTail (hb : Bounds lo hi) (h : SegmentsOk lo hi (as ++ (i, ⟨a, p, v.size, 0⟩) :: bs))
    (hv : v.addr = a) (hr : ∀ y ∈ bs.head?, ¬ y.2.has btSegFree) (hpos : 0 < n)
    (hn : n % 4096 = 0) (hle : n ≤ v.size) :
    SegmentsOk lo hi (as ++ (i, ⟨a, p, n, 0⟩) :: (tailOf k v n ++ bs)) := by
  unfold tailOf
  split
  · rename_i heq
    rw [← heq, List.nil_append]
    exact h
  · rename_i hne
    have hhi := hb.le
    have hlo := hb.pos
    obtain ⟨haa, hsa, -, hal, hend⟩ := h.mem_middle
    simp only at haa hsa hal hend
    have hadd : wordAdd v.addr n = a + n := by
      rw [hv]
      exact wordAdd_of_lt (by omega)
    have hsub : wordSub v.size n = v.size - n := wordSub_of_le hle (by omega)
    obtain ⟨t₁, -, t₂⟩ := tiles_cut.mp h.tiles
    simp only at t₁ t₂
    have hrest : a + n + (v.size - n) = a + v.size := by omega
    refine h.rebuild [(i, ⟨a, p, n, 0⟩), (k, ⟨wordAdd v.addr n, 0, wordSub v.size n,
      btSegFree⟩)] ?_ ?_ ?_ ?_
    · intro x hx
      simp only [List.mem_append, List.mem_cons, List.not_mem_nil, or_false] at hx ⊢
      tauto
    · rw [tiles_cut, List.singleton_append, tiles_cons]
      simp only [hadd, hsub, hrest]
      exact ⟨t₁, hpos, trivial, by omega, t₂⟩
    · obtain ⟨c₁, -, -, c₂⟩ := chain_middle.mp h.apart
      refine chain_middle.mpr ⟨c₁, fun _ _ hy => not_has_free_zero hy.2,
        fun _ _ hy => not_has_free_zero hy.1, ?_⟩
      cases bs with
      | nil => simp
      | cons y bs =>
        exact List.isChain_cons_cons.mpr ⟨fun hy => hr y (by simp) hy.2, c₂⟩
    · intro x hx
      simp only [List.mem_cons, List.not_mem_nil, or_false] at hx
      rcases hx with rfl | rfl
      · exact ⟨⟨haa, hn⟩, fun hf => absurd hf not_has_free_zero, not_has_shared_zero⟩
      · refine ⟨?_, fun _ => rfl, not_has_shared_of_free⟩
        simp only [hadd, hsub]
        omega

/-- A free segment is cut before `a`; what lies from there on is held. -/
theorem cutHead {d r : ℕ} (h : SegmentsOk lo hi (as ++ (i, v) :: bs)) (hf : v.has btSegFree)
    (hd : v.addr + d = a) (hdr : d + r = v.size) (hdp : 0 < d) (hrp : 0 < r)
    (haa : a % 4096 = 0) :
    SegmentsOk lo hi ((as ++ [(i, { v with size := d })]) ++ (j, ⟨a, p, r, 0⟩) :: bs) := by
  obtain ⟨hva, hvs, -, -, -⟩ := h.mem_middle
  have happ : (as ++ [(i, { v with size := d })]) ++ (j, ⟨a, p, r, 0⟩) :: bs =
      as ++ (i, { v with size := d }) :: (j, ⟨a, p, r, 0⟩) :: bs := by simp
  have hend : a + r = v.addr + v.size := by omega
  rw [happ]
  obtain ⟨t₁, -, t₂⟩ := tiles_cut.mp h.tiles
  refine h.rebuild [(i, { v with size := d }), (j, ⟨a, p, r, 0⟩)] ?_ ?_ ?_ ?_
  · intro x hx
    simp only [List.mem_append, List.mem_cons, List.not_mem_nil, or_false] at hx ⊢
    tauto
  · rw [tiles_cut, tiles_cons]
    simp only [hd, hend]
    exact ⟨t₁, hdp, trivial, hrp, t₂⟩
  · obtain ⟨c₁, c₂, -, c₄⟩ := chain_middle.mp h.apart
    refine chain_middle.mpr ⟨c₁, c₂, ?_, ?_⟩
    · intro y hy
      obtain rfl : _ = y := by simpa using hy
      exact fun hyf => not_has_free_zero hyf.2
    · cases bs with
      | nil => simp
      | cons y bs => exact List.isChain_cons_cons.mpr ⟨fun hy => not_has_free_zero hy.1, c₄⟩
  · intro x hx
    simp only [List.mem_cons, List.not_mem_nil, or_false] at hx
    rcases hx with rfl | rfl
    · refine ⟨?_, fun _ => h.flags (i, v) (by simp) hf, h.unshared (i, v) (by simp)⟩
      simp only
      omega
    · refine ⟨?_, fun hf => absurd hf not_has_free_zero, not_has_shared_zero⟩
      simp only
      omega

/-- Cutting a range out of a free segment keeps the layout. -/
theorem carve (hb : Bounds lo hi) (h : SegmentsOk lo hi xs) (hc : Carve xs v a n as j p bs)
    (ha : v.addr ≤ a) (hend : a + n ≤ v.addr + v.size) (hpos : 0 < n) (hn : n % 4096 = 0)
    (haa : a % 4096 = 0) : SegmentsOk lo hi (as ++ (j, ⟨a, p, n, 0⟩) :: bs) := by
  cases hc with
  | front hxs hf =>
    subst hxs
    have hh := h.hold (j := j) (w := ⟨v.addr, v.phys, v.size, 0⟩) rfl rfl not_has_free_zero
      not_has_shared_zero
    exact hh.cutTail hb rfl (h.not_free_of_free hf).2 hpos hn (by omega)
  | inner hxs hf hne =>
    subst hxs
    have hlt : v.addr < a := by omega
    have hhi := hb.le
    have hlo := hb.pos
    obtain ⟨-, -, -, hvl, hve⟩ := h.mem_middle
    have hd : wordSub a v.addr = a - v.addr := wordSub_of_le ha (by omega)
    have hr : wordSub v.size (wordSub a v.addr) = v.addr + v.size - a := by
      rw [hd, wordSub_of_le (by omega) (by omega)]
      omega
    have hh := h.cutHead (j := j) (p := 0) (d := wordSub a v.addr)
      (r := wordSub v.size (wordSub a v.addr)) hf (by omega) (by omega) (by omega) (by omega) haa
    refine cutTail (v := ⟨a, 0, wordSub v.size (wordSub a v.addr), btSegFree⟩) hb hh rfl
      (h.not_free_of_free hf).2 hpos hn ?_
    simp only [hr]
    omega

end SegmentsOk

/-- What is cut comes from a free segment of the list. -/
theorem Carve.mem (hc : Carve xs v a n as j p bs) : ∃ x ∈ xs, x.2 = v ∧ v.has btSegFree := by
  cases hc with
  | front hxs hf =>
    subst hxs
    exact ⟨(j, v), by simp, rfl, hf⟩
  | inner hxs hf _ =>
    subst hxs
    exact ⟨(_, v), List.mem_append_right _ (List.mem_cons_self ..), rfl, hf⟩

/-- The tail a cut left behind is taken over again. -/
theorem mergeAhead_tailOf (w : Segment) (hbs : ∀ y ∈ bs.head?, ¬ y.2.has btSegFree)
    (hw : w.size < 2 ^ 32) (hn : n < 2 ^ 32) :
    mergeAhead ⟨a, p, n, btSegFree⟩ (tailOf k w n ++ bs) = (⟨a, p, w.size, btSegFree⟩, bs) := by
  unfold tailOf
  split
  · rename_i heq
    rw [List.nil_append, heq]
    cases bs with
    | nil => rfl
    | cons y bs => rw [mergeAhead, if_neg (hbs y (by simp))]
  · have hsum : wordAdd n (wordSub w.size n) = w.size := wordAdd_wordSub hw hn
    rw [List.singleton_append, mergeAhead, if_pos has_free_self]
    simp only [hsum]

/-- Giving back what was just cut out restores the list, whatever the range. -/
theorem Carve.restore (hc : Carve xs v a n as j p bs) (hap : xs.IsChain NotBothFree)
    (hfl : v.flags = btSegFree) (hsz : v.size < 2 ^ 32) (hn : n < 2 ^ 32) :
    freeAt as j ⟨a, p, n, f⟩ bs = xs := by
  cases hc with
  | front hxs hf =>
    subst hxs
    obtain ⟨-, c₂, c₃, -⟩ := chain_middle.mp hap
    have hv : (⟨v.addr, v.phys, v.size, btSegFree⟩ : Segment) = v := by rw [← hfl]
    simp only [freeAt]
    rw [mergeAhead_tailOf v (fun y hy hyf => c₃ y hy ⟨hf, hyf⟩) hsz hn, hv]
    cases as using List.reverseRecOn with
    | nil => rfl
    | append_singleton as x =>
      have hx : ¬ x.2.has btSegFree := fun hxf => c₂ x (by simp) ⟨hxf, hf⟩
      rw [mergeBehind_concat, if_neg hx]
      simp
  | inner hxs hf hne =>
    subst hxs
    obtain ⟨-, -, c₃, -⟩ := chain_middle.mp hap
    have hd := wordSub_lt a v.addr
    have hr := wordSub_lt v.size (wordSub a v.addr)
    have hsum := wordAdd_wordSub hsz hd
    -- the two lengths are words; nothing else about them matters here
    generalize wordSub a v.addr = d at *
    generalize wordSub v.size d = r at *
    simp only [freeAt]
    rw [mergeAhead_tailOf ⟨a, 0, r, btSegFree⟩ (fun y hy hyf => c₃ y hy ⟨hf, hyf⟩) hr hn,
      mergeBehind_concat, has_setSize, if_pos hf]
    simp only [hsum]

/-! ## The segments in use

Cutting and giving back change free segments only, so what a predicate that free
segments fail selects from the list stays what it was. -/

section InUse

variable {q : Entry → Bool} (hq : ∀ x : Entry, x.2.has btSegFree → q x = false)

include hq

theorem filter_tailOf : (tailOf k v n).filter q = [] := by
  unfold tailOf
  split
  · rfl
  · rw [List.filter_cons_of_neg (by simp [hq (k, _) has_free_self]), List.filter_nil]

/-- What is carved out of a free segment changes none of the others. -/
theorem Carve.filter (hc : Carve xs v a n as j p bs) : (as ++ bs).filter q = xs.filter q := by
  cases hc with
  | front hxs hf =>
    subst hxs
    simp only [List.filter_append, filter_tailOf hq, List.nil_append]
    rw [List.filter_cons_of_neg (by simp [hq (j, v) hf])]
  | inner hxs hf _ =>
    subst hxs
    simp only [List.filter_append, filter_tailOf hq, List.nil_append]
    rw [List.filter_cons_of_neg (by rw [hq _ (by rw [has_setSize]; exact hf)]; decide),
      List.filter_nil, List.append_nil, List.filter_cons_of_neg (by simp [hq (_, v) hf])]

theorem filter_mergeAhead : (mergeAhead v bs).2.filter q = bs.filter q := by
  cases bs with
  | nil => rfl
  | cons y bs =>
    rw [mergeAhead]
    split
    · rename_i hw
      rw [List.filter_cons_of_neg (by simp [hq y hw])]
    · rfl

theorem filter_freeAt : (freeAt as i v bs).filter q = (as ++ bs).filter q := by
  have hfree : ∀ {b : ℕ} {w : Segment} {cs : List Entry}, w.flags = btSegFree →
      ((b, w) :: cs).filter q = cs.filter q := by
    intro b w cs hw
    have hwf : w.has btSegFree := by
      rw [Segment.has, hw]
      decide
    rw [List.filter_cons_of_neg (by simp [hq (b, w) hwf])]
  have hflags : (mergeAhead { v with flags := btSegFree } bs).1.flags = btSegFree := by
    cases bs with
    | nil => rfl
    | cons y bs =>
      rw [mergeAhead]
      split <;> rfl
  have hbs : (mergeAhead { v with flags := btSegFree } bs).2.filter q = bs.filter q :=
    filter_mergeAhead hq
  unfold freeAt
  generalize mergeAhead { v with flags := btSegFree } bs = r at *
  simp only
  cases as using List.reverseRecOn with
  | nil => rw [mergeBehind_nil, hfree hflags, hbs, List.nil_append]
  | append_singleton as x =>
    rw [mergeBehind_concat]
    split
    · rename_i hu
      simp only [List.filter_append]
      rw [List.filter_cons_of_neg (by rw [hq _ (by rw [has_setSize]; exact hu)]; decide), hbs,
        List.filter_cons_of_neg (by simp [hq x hu]), List.filter_nil, List.append_nil]
    · rw [show as ++ (x.1, x.2) :: (i, r.1) :: r.2 = (as ++ [x]) ++ (i, r.1) :: r.2 by simp]
      rw [List.filter_append, hfree hflags, hbs, ← List.filter_append]

end InUse

/-- Cutting a segment out of a coalesced list and giving it back changes nothing. -/
theorem Undone.restored {xs' : List Entry} (h : Undone xs xs') (hap : xs.IsChain NotBothFree)
    (hfl : ∀ x ∈ xs, x.2.has btSegFree → x.2.flags = btSegFree)
    (hsz : ∀ x ∈ xs, x.2.size < 2 ^ 32) : xs' = xs := by
  cases h with
  | same => rfl
  | freed hc hn =>
    obtain ⟨x, hx, rfl, hf⟩ := hc.mem
    exact hc.restore hap (hfl x hx hf) (hsz x hx) hn

/-- A failed call that undid its cut left the list as it was. -/
theorem Undone.eq {xs' : List Entry} (h : Undone xs xs') (hok : SegmentsOk lo hi xs)
    (hb : Bounds lo hi) : xs' = xs :=
  h.restored hok.apart hok.flags fun _ hx => (hok.fits hb hx).2.2.2

end BitThunder
