import BitThunder.Vm.Reserve

/-!
# Tilings in whole pages

`Paged lo hi xs` is what is left of `SegmentsOk` without the flags: the segments tile the
interval from `lo` to `hi` in whole pages. It cuts at any segment (`paged_cut`).

* `Paged.freeAt`: giving a segment back keeps it, whatever the flags are;
* `Carve.paged_iff`: cutting a range out of a free segment keeps it if and only if the
  range is page-aligned, non-empty and inside the segment.

`Tiled` is `SegmentsOk` without the condition that segments are unshared. It is what remains of the
layout when requests are arbitrary, and what a request is asked to keep.
-/

namespace BitThunder

variable {lo hi i j k a n p q f : ℕ} {v w : Segment} {xs as bs : List Entry}

/-- The segments tile `[lo, hi)` in whole pages. -/
structure Paged (lo hi : ℕ) (xs : List Entry) : Prop where
  /-- the segments follow one another without gaps -/
  tiles : TilesMap lo xs hi
  /-- and are made of pages -/
  aligned : ∀ x ∈ xs, x.2.addr % 4096 = 0 ∧ x.2.size % 4096 = 0

/-- The segments tile `[lo, hi)` in whole pages, and the free ones are coalesced. Segments
in use may be shared. -/
structure Tiled (lo hi : ℕ) (xs : List Entry) : Prop extends Paged lo hi xs where
  /-- no two neighbours are free -/
  apart : xs.IsChain NotBothFree
  /-- a free segment carries no other flag -/
  flags : ∀ x ∈ xs, x.2.has btSegFree → x.2.flags = btSegFree

theorem SegmentsOk.tiled (h : SegmentsOk lo hi xs) : Tiled lo hi xs where
  tiles := h.tiles
  aligned := h.aligned
  apart := h.apart
  flags := h.flags

/-! ## Cutting the list

A tiling is cut between two segments or put together there, and an edit in the middle is an edit of
one part. -/

/-- A list of pages is cut at any segment. -/
theorem paged_cut {x : Entry} : Paged lo hi (as ++ x :: bs) ↔ Paged lo x.2.addr as ∧
    (x.2.addr % 4096 = 0 ∧ x.2.size % 4096 = 0 ∧ 0 < x.2.size) ∧
    Paged (x.2.addr + x.2.size) hi bs := by
  constructor
  · intro h
    obtain ⟨h₁, hpos, h₂⟩ := tiles_cut.mp h.tiles
    obtain ⟨ha, hs⟩ := h.aligned x (by simp)
    exact ⟨⟨h₁, fun y hy => h.aligned y (by simp [hy])⟩, ⟨ha, hs, hpos⟩,
      ⟨h₂, fun y hy => h.aligned y (by simp [hy])⟩⟩
  · rintro ⟨h₁, ⟨ha, hs, hpos⟩, h₂⟩
    refine ⟨tiles_cut.mpr ⟨h₁.tiles, hpos, h₂.tiles⟩, fun y hy => ?_⟩
    rcases List.mem_append.mp hy with hy | hy
    · exact h₁.aligned y hy
    · rcases List.mem_cons.mp hy with rfl | hy
      · exact ⟨ha, hs⟩
      · exact h₂.aligned y hy

theorem paged_nil : Paged lo hi [] ↔ lo = hi := ⟨fun h => h.tiles, fun h => ⟨h, nofun⟩⟩

theorem paged_cons {x : Entry} : Paged lo hi (x :: bs) ↔ lo = x.2.addr ∧
    (x.2.addr % 4096 = 0 ∧ x.2.size % 4096 = 0 ∧ 0 < x.2.size) ∧
    Paged (x.2.addr + x.2.size) hi bs := by
  rw [← List.nil_append (x :: bs), paged_cut, paged_nil]

namespace Paged

theorem le (h : Paged lo hi xs) : lo ≤ hi := h.tiles.le

/-- A segment lies within its map, and its size is a word. -/
theorem fits {x : Entry} (h : Paged lo hi xs) (hb : Bounds lo hi) (hx : x ∈ xs) :
    lo ≤ x.2.addr ∧ 0 < x.2.size ∧ x.2.addr + x.2.size ≤ hi ∧ x.2.size < 2 ^ 32 := by
  obtain ⟨h₁, h₂, h₃⟩ := h.tiles.bounds hx
  have := hb.pos
  have := hb.le
  exact ⟨h₁, h₂, h₃, by omega⟩

/-- A tiling that starts where addresses end is empty. -/
theorem eq_nil (h : Paged lo hi xs) (hle : hi ≤ lo) : xs = [] := by
  cases xs with
  | nil => rfl
  | cons x xs =>
    obtain ⟨rfl, ⟨-, -, hpos⟩, hrest⟩ := paged_cons.mp h
    have := hrest.le
    omega

/-- Another segment with the same range. -/
theorem retag (h : Paged lo hi (as ++ (i, v) :: bs)) (ha : w.addr = v.addr) (hs : w.size = v.size) :
    Paged lo hi (as ++ (j, w) :: bs) := by
  rw [paged_cut] at h ⊢
  simp only [ha, hs]
  exact h

/-- Two neighbours become one. -/
theorem join {u : Segment} (hb : Bounds lo hi) (h : Paged lo hi (as ++ (i, v) :: (j, w) :: bs))
    (ha : u.addr = v.addr) (hs : u.size = wordAdd v.size w.size) :
    Paged lo hi (as ++ (k, u) :: bs) := by
  have hlo := hb.pos
  have hhi := hb.le
  simp only [paged_cut, paged_cons] at h
  obtain ⟨h₁, ⟨hva, hvs, hvp⟩, hw, ⟨-, hws, -⟩, h₂⟩ := h
  rw [← hw] at h₂
  have hge := h₁.le
  have hle := h₂.le
  have hsum : u.size = v.size + w.size := by
    rw [hs]
    exact wordAdd_of_lt (by omega)
  rw [paged_cut]
  simp only [ha, hsum, ← Nat.add_assoc]
  exact ⟨h₁, ⟨hva, by omega, by omega⟩, h₂⟩

/-- A merge with the segment behind leaves whole pages. -/
theorem mergeAhead (hb : Bounds lo hi) (h : Paged lo hi (as ++ (i, v) :: bs)) :
    Paged lo hi (as ++ (i, (mergeAhead v bs).1) :: (BitThunder.mergeAhead v bs).2) := by
  cases bs with
  | nil => exact h
  | cons y bs =>
    obtain ⟨j, w⟩ := y
    rw [BitThunder.mergeAhead]
    split
    · exact h.join hb rfl rfl
    · exact h

theorem mergeBehind (hb : Bounds lo hi) (h : Paged lo hi (as ++ (i, v) :: bs)) :
    Paged lo hi (mergeBehind as i v bs) := by
  cases as using List.reverseRecOn with
  | nil => exact h
  | append_singleton as x =>
    obtain ⟨k, u⟩ := x
    rw [List.append_assoc, List.singleton_append] at h
    rw [mergeBehind_concat]
    split
    · exact h.join hb rfl rfl
    · exact h

/-- Giving a segment back keeps the tiling. -/
theorem freeAt (hb : Bounds lo hi) (h : Paged lo hi (as ++ (i, v) :: bs)) :
    Paged lo hi (freeAt as i v bs) :=
  ((h.retag (j := i) (w := { v with flags := btSegFree }) rfl rfl).mergeAhead hb).mergeBehind hb

end Paged

/-! ## Cutting out

A tiling is left exactly if the range is one of whole pages, is not empty and lies inside the
segment. -/

/-- What a cut leaves behind the first `n` bytes of a segment. -/
theorem paged_tailOf {w : Segment} (hlo : 0 < w.addr) (hend : w.addr + w.size ≤ 2 ^ 32)
    (ha : w.addr % 4096 = 0) (hs : w.size % 4096 = 0) (hn : n % 4096 = 0) (hle : n ≤ w.size)
    (hbs : Paged (w.addr + w.size) hi bs) : Paged (w.addr + n) hi (tailOf k w n ++ bs) := by
  unfold tailOf
  split
  · rename_i heq
    rw [← heq]
    exact hbs
  · rename_i hne
    have hadd : wordAdd w.addr n = w.addr + n := wordAdd_of_lt (by omega)
    have hsub : wordSub w.size n = w.size - n := wordSub_of_le hle (by omega)
    have hsum : w.addr + n + (w.size - n) = w.addr + w.size := by omega
    rw [List.singleton_append, paged_cons]
    simp only [hadd, hsub, hsum]
    exact ⟨trivial, ⟨by omega, by omega, by omega⟩, hbs⟩

/-- Nothing of a segment is left behind a range that reaches the end of the addresses. -/
theorem tailOf_eq_nil {w : Segment} (h : tailOf k w n ++ bs = []) : w.size = n := by
  unfold tailOf at h
  split at h
  · assumption
  · cases h

/-- **When a cut keeps the tiling.** The range may be any; where it does not reach the end of
the addresses, the call that cuts it out has checked that it ends inside the segment. -/
theorem Carve.paged_iff (hc : Carve xs v a n as j p bs) (hb : Bounds lo hi) (h : Paged lo hi xs)
    (ha : v.addr ≤ a) (hn : n % 4096 = 0)
    (hin : a % 4096 = 0 → a + n < 2 ^ 32 → a + n ≤ v.addr + v.size) :
    Paged lo hi (as ++ (j, ⟨a, q, n, f⟩) :: bs) ↔
      a % 4096 = 0 ∧ 0 < n ∧ a + n ≤ v.addr + v.size := by
  have hlo := hb.pos
  have hhi := hb.le
  obtain ⟨x, hx, rfl, -⟩ := hc.mem
  obtain ⟨hvl, hvp, hve, -⟩ := h.fits hb hx
  obtain ⟨hva, hvs⟩ := h.aligned x hx
  constructor
  · intro hcut
    obtain ⟨-, ⟨haa, -, hpos⟩, hrest⟩ := paged_cut.mp hcut
    simp only at haa hpos hrest
    have hle := hrest.le
    refine ⟨haa, hpos, ?_⟩
    by_cases hlt : a + n < 2 ^ 32
    · exact hin haa hlt
    · have hnil := hrest.eq_nil (by omega)
      cases hc with
      | front => rw [tailOf_eq_nil hnil]
      | inner =>
        -- what is left of the segment from `a` on has length `n`, also in 32 bits
        have hr : wordSub x.2.size (wordSub a x.2.addr) = n := tailOf_eq_nil hnil
        rw [wordSub_of_le ha (by omega)] at hr
        unfold wordSub at hr
        omega
  · rintro ⟨haa, hpos, hle⟩
    cases hc with
    | front hxs _ =>
      subst hxs
      obtain ⟨h₁, -, h₂⟩ := paged_cut.mp h
      refine paged_cut.mpr ⟨h₁, ⟨hva, hn, hpos⟩, ?_⟩
      exact paged_tailOf (by omega) (by omega) hva hvs hn (by simp only; omega) h₂
    | inner hxs _ hne =>
      subst hxs
      obtain ⟨h₁, -, h₂⟩ := paged_cut.mp h
      have hd : wordSub a x.2.addr = a - x.2.addr := wordSub_of_le ha (by omega)
      have hr : wordSub x.2.size (a - x.2.addr) = x.2.addr + x.2.size - a := by
        rw [wordSub_of_le (by omega) (by omega)]
        omega
      have hsum : x.2.addr + x.2.size = a + (x.2.addr + x.2.size - a) := by omega
      rw [hsum] at h₂
      rw [hd, hr, List.append_assoc, List.singleton_append, paged_cut, paged_cons]
      simp only
      refine ⟨h₁, ⟨hva, by omega, by omega⟩, by omega, ⟨haa, hn, hpos⟩, ?_⟩
      exact paged_tailOf (w := ⟨a, 0, x.2.addr + x.2.size - a, btSegFree⟩) (by simp only; omega)
        (by simp only; omega) haa (by simp only; omega) hn (by simp only; omega) h₂

end BitThunder
