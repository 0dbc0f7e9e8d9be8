import Mathlib.Data.List.Nodup
import Mathlib.Logic.Function.Basic
import Mathlib.Tactic

/-!
# Circular doubly linked lists

Intrusive circular lists over an arbitrary type of link cells. A `Links` is the
pair of pointer fields of every cell; `insertAfter` and `unlink` write them in
the order a C list macro does, and `Ring L h xs` says that the cells `xs` hang
off the head `h`: the forward pointers visit `xs` and come back, the backward
pointers visit `xs` in reverse and come back, and no cell occurs twice.

* `Ring.insertAfter`, `Ring.unlink`: the two edits, at any position;
* `Ring.insertAfter_frame`, `Ring.unlink_frame`: an edit of one ring leaves a
  disjoint ring alone;
* `Ring.search`: the search loop over a ring is `List.find?` on its cells;
* `Ring.unlink_again`: what is left when a cell is taken out twice;
* `Ring.eq_of_agree`, `Ring.mem_of_leads`: what a ring through pointers that were changed tells
  about the old one.

A ring is held by both of its directions, and an edit is proved for each of them by the same two
lemmas on paths, `Follows.splice` and `Follows.cut`; backwards the roles of the neighbours are
exchanged. That no cell occurs twice is part of the definition. Without it a path may pass the place
of the edit more than once.
-/

namespace BitThunder

universe u

variable {α : Type u}

/-! ## Following one pointer field -/

/-- Following `f` from `a` visits exactly `xs` and then arrives at `b`. -/
def Follows (f : α → α) : α → List α → α → Prop
  | a, [], b => f a = b
  | a, x :: xs, b => f a = x ∧ Follows f x xs b

@[simp] theorem follows_nil {f : α → α} {a b : α} : Follows f a [] b ↔ f a = b := Iff.rfl

/-- A path goes through its first cell and on from there. -/
@[simp] theorem follows_cons {f : α → α} {a x b : α} {xs : List α} :
    Follows f a (x :: xs) b ↔ f a = x ∧ Follows f x xs b := Iff.rfl

/-- A path splits at any of its cells. -/
theorem follows_append {f : α → α} {a x b : α} {xs ys : List α} :
    Follows f a (xs ++ x :: ys) b ↔ Follows f a xs x ∧ Follows f x ys b := by
  induction xs generalizing a with
  | nil => simp
  | cons y ys' ih => simp [ih, and_assoc]

/-- Only the pointers of the cells on the path, its end excluded, matter. -/
theorem Follows.congr {f g : α → α} {a b : α} {xs : List α} (h : Follows f a xs b)
    (hg : ∀ c ∈ a :: xs, g c = f c) : Follows g a xs b := by
  induction xs generalizing a with
  | nil =>
    rw [follows_nil, hg a (List.mem_cons_self ..)]
    exact h
  | cons x xs ih =>
    obtain ⟨hx, hrest⟩ := h
    refine ⟨?_, ih hrest fun c hc => hg c (List.mem_cons_of_mem _ hc)⟩
    rw [hg a (List.mem_cons_self ..), hx]

/-- The first step of a path. -/
theorem Follows.first {f : α → α} {a b : α} {xs : List α} (h : Follows f a xs b) :
    f a = xs.headD b := by
  cases xs with
  | nil => exact h
  | cons x xs => exact h.1

/-- A path cut after `xs` has its next cell at the cut. -/
theorem Follows.at_cut {f : α → α} {a b : α} {xs ys : List α} (h : Follows f a (xs ++ ys) b) :
    f (xs.getLastD a) = ys.headD b := by
  induction xs generalizing a with
  | nil => exact h.first
  | cons x xs ih =>
    rw [List.getLastD_cons]
    exact ih h.2

/-- Two paths along the same pointers that only end at `b` are the same. -/
theorem Follows.unique {f : α → α} {a b : α} {xs ys : List α} (hx : Follows f a xs b)
    (hy : Follows f a ys b) (hbx : b ∉ xs) (hby : b ∉ ys) : xs = ys := by
  induction xs generalizing a ys with
  | nil =>
    cases ys with
    | nil => rfl
    | cons y ys => exact absurd (hx.symm.trans hy.1) fun e => hby (by simp [e])
  | cons x xs ih =>
    cases ys with
    | nil => exact absurd (hy.symm.trans hx.1) fun e => hbx (by simp [e])
    | cons y ys =>
      obtain rfl : x = y := hx.1.symm.trans hy.1
      rw [ih hx.2 hy.2 (fun h => hbx (List.mem_cons_of_mem _ h))
        fun h => hby (List.mem_cons_of_mem _ h)]

/-- A path does not leave a set that is closed under the pointers. -/
theorem Follows.closed {f : α → α} {P : α → Prop} {a b : α} {xs : List α} (h : Follows f a xs b)
    (hP : ∀ c, P c → P (f c)) (ha : P a) : P b := by
  induction xs generalizing a with
  | nil => exact h ▸ hP a ha
  | cons x xs ih => exact ih h.2 (h.1 ▸ hP a ha)

section Edits

variable [DecidableEq α]

/-- Splice a new cell `n` into a path after its prefix `as`. -/
theorem Follows.splice {f : α → α} {a b n : α} {as bs : List α}
    (h : Follows f a (as ++ bs) b) (hnd : (a :: (as ++ bs)).Nodup)
    (hn : n ∉ a :: (as ++ bs)) :
    Follows (Function.update (Function.update f n (f (as.getLastD a))) (as.getLastD a) n)
      a (as ++ n :: bs) b := by
  induction as generalizing a with
  | nil =>
    have hna : n ≠ a := fun e => hn (by simp [e])
    rw [List.getLastD_nil]
    refine ⟨Function.update_self .., ?_⟩
    rw [List.nil_append] at h hnd hn
    cases bs with
    | nil =>
      rw [follows_nil, Function.update_of_ne hna, Function.update_self]
      exact h
    | cons y ys =>
      refine ⟨?_, h.2.congr fun c hc => ?_⟩
      · rw [Function.update_of_ne hna, Function.update_self]
        exact h.1
      · have hca : c ≠ a := fun e => (List.nodup_cons.mp hnd).1 (e ▸ hc)
        have hcn : c ≠ n := fun e => hn (List.mem_cons_of_mem _ (e ▸ hc))
        rw [Function.update_of_ne hca, Function.update_of_ne hcn]
  | cons x as ih =>
    have ha : a ≠ as.getLastD x := fun e =>
      (List.nodup_cons.mp hnd).1 (e ▸ List.mem_append_left _ List.getLastD_mem_cons)
    have han : a ≠ n := fun e => hn (by simp [e])
    rw [List.getLastD_cons]
    refine ⟨?_, ih h.2 (List.nodup_cons.mp hnd).2 fun hc => hn (List.mem_cons_of_mem _ hc)⟩
    rw [Function.update_of_ne ha, Function.update_of_ne han]
    exact h.1

/-- Cut the cell `e` out of a path. -/
theorem Follows.cut {f : α → α} {a b e : α} {as bs : List α}
    (h : Follows f a (as ++ e :: bs) b) (hnd : (a :: (as ++ e :: bs)).Nodup) :
    Follows (Function.update f (as.getLastD a) (f e)) a (as ++ bs) b := by
  induction as generalizing a with
  | nil =>
    simp only [List.nil_append, List.getLastD_nil] at h hnd ⊢
    have he : f e = bs.headD b := h.2.first
    cases bs with
    | nil => simpa using h.2
    | cons y ys =>
      refine ⟨by rw [Function.update_self]; exact he, h.2.2.congr fun c hc => ?_⟩
      have hca : c ≠ a := fun e' =>
        (List.nodup_cons.mp hnd).1 (List.mem_cons_of_mem _ (e' ▸ hc))
      rw [Function.update_of_ne hca]
  | cons x as ih =>
    have ha : a ≠ as.getLastD x := fun e' =>
      (List.nodup_cons.mp hnd).1 (e' ▸ List.mem_append_left _ List.getLastD_mem_cons)
    rw [List.getLastD_cons]
    refine ⟨?_, ih h.2 (List.nodup_cons.mp hnd).2⟩
    rw [Function.update_of_ne ha]
    exact h.1

/-! ## The search loop -/

/-- `for (pos = a; pos != h; pos = f pos) if (p pos) return pos;`, cut off after
`n` rounds. `none` is a loop that was cut off, `some none` one that came back to
`h` without a hit. -/
def searchFrom (f : α → α) (p : α → Bool) (h : α) : ℕ → α → Option (Option α)
  | 0, _ => none
  | n + 1, a => if a = h then some none else if p a then some (some a) else
      searchFrom f p h n (f a)

/-- On a path back to `h` the loop returns, with the first hit of the path. -/
theorem Follows.search {f : α → α} {h a : α} {xs : List α} (hf : Follows f a xs h)
    (hh : h ∉ xs) {n : ℕ} (hn : xs.length < n) (p : α → Bool) :
    searchFrom f p h n (f a) = some (xs.find? p) := by
  induction xs generalizing a n with
  | nil =>
    obtain ⟨m, rfl⟩ : ∃ m, n = m + 1 := ⟨n - 1, by simp at hn; omega⟩
    rw [follows_nil] at hf
    simp [searchFrom, hf]
  | cons x xs ih =>
    obtain ⟨m, rfl⟩ : ∃ m, n = m + 1 := ⟨n - 1, by simp at hn; omega⟩
    obtain ⟨hx, hrest⟩ := hf
    have hne : x ≠ h := fun e => hh (by simp [e])
    have hih := ih hrest (fun hc => hh (List.mem_cons_of_mem _ hc)) (n := m) (by simpa using hn)
    rw [hx, searchFrom, if_neg hne, hih]
    by_cases hp : p x <;> simp [hp]

end Edits

/-! ## Rings -/

/-- The two pointer fields of every link cell. -/
structure Links (α : Type u) : Type u where
  /-- the forward pointers -/
  next : α → α
  /-- the backward pointers -/
  prev : α → α

namespace Links

variable [DecidableEq α]

/-- Write one forward pointer. -/
def setNext (L : Links α) (a b : α) : Links α := { L with next := Function.update L.next a b }

/-- Write one backward pointer. -/
def setPrev (L : Links α) (a b : α) : Links α := { L with prev := Function.update L.prev a b }

/-- Put the new cell between two cells, in the order of the C macro. -/
def link (L : Links α) (new prev next : α) : Links α :=
  (((L.setPrev next new).setNext new next).setPrev new prev).setNext prev new

/-- Put the new cell right after `c`. -/
def insertAfter (L : Links α) (new c : α) : Links α := L.link new c (L.next c)

/-- Take a cell out; its own two pointers keep their values. -/
def unlink (L : Links α) (e : α) : Links α :=
  (L.setPrev (L.next e) (L.prev e)).setNext (L.prev e) (L.next e)

/-- Make a cell the head of an empty ring. -/
def initHead (L : Links α) (h : α) : Links α := (L.setNext h h).setPrev h h

/-- The search loop over the ring with head `h`, cut off after `n` cells. -/
def search (L : Links α) (p : α → Bool) (h : α) (n : ℕ) : Option (Option α) :=
  searchFrom L.next p h (n + 1) (L.next h)

end Links

/-- The cells `xs` hang off the head `h`, forwards and backwards, each once. -/
structure Ring (L : Links α) (h : α) (xs : List α) : Prop where
  /-- the forward pointers visit `xs` -/
  fwd : Follows L.next h xs h
  /-- the backward pointers visit `xs` in reverse -/
  bwd : Follows L.prev h xs.reverse h
  /-- no cell occurs twice -/
  nodup : (h :: xs).Nodup

namespace Ring

variable {L : Links α} {h : α} {xs as bs : List α}

/-- The head of a ring is not one of its members. -/
theorem head_notMem (hr : Ring L h xs) : h ∉ xs := (List.nodup_cons.mp hr.nodup).1

/-- Forward pointer at a cut: the cell before the cut points to the one after. -/
theorem next_at (hr : Ring L h (as ++ bs)) : L.next (as.getLastD h) = bs.headD h :=
  hr.fwd.at_cut

/-- Backward pointer at a cut. -/
theorem prev_at (hr : Ring L h (as ++ bs)) : L.prev (bs.headD h) = as.getLastD h := by
  have hb := hr.bwd
  rw [List.reverse_append] at hb
  simpa [List.head?_reverse, List.getLast?_reverse] using hb.at_cut

/-- A member is followed by the next one, and the last one by the head. -/
theorem next_mem (hr : Ring L h (as ++ a :: bs)) : L.next a = bs.headD h := by
  have := hr.fwd
  rw [follows_append] at this
  exact this.2.first

/-- It comes behind the one before it, and the first one behind the head. -/
theorem prev_mem (hr : Ring L h (as ++ a :: bs)) : L.prev a = as.getLastD h := by
  have hp := hr.prev_at
  rwa [List.headD_cons] at hp

theorem nodup_reverse (hr : Ring L h xs) : (h :: xs.reverse).Nodup := by
  obtain ⟨hh, hnd⟩ := List.nodup_cons.mp hr.nodup
  exact List.nodup_cons.mpr ⟨by simpa using hh, List.nodup_reverse.mpr hnd⟩

/-- The cell after a cell of a ring is a cell of the ring. -/
theorem next_mem_cells {c : α} (hr : Ring L h xs) (hc : c ∈ h :: xs) : L.next c ∈ h :: xs := by
  rcases List.mem_cons.mp hc with rfl | hc
  · rw [hr.fwd.first]
    cases xs <;> simp
  · obtain ⟨as, bs, rfl⟩ := List.append_of_mem hc
    rw [hr.next_mem]
    cases bs <;> simp

/-- The cell before a cell of a ring is a cell of the ring. -/
theorem prev_mem_cells {c : α} (hr : Ring L h xs) (hc : c ∈ h :: xs) : L.prev c ∈ h :: xs := by
  rcases List.mem_cons.mp hc with rfl | hc
  · rw [hr.bwd.first]
    cases xs using List.reverseRecOn <;> simp
  · obtain ⟨as, bs, rfl⟩ := List.append_of_mem hc
    rw [hr.prev_mem]
    cases as using List.reverseRecOn <;> simp

/-- Two rings through the same pointers share no cell, unless one runs through the head of
the other. -/
theorem disjoint {h' : α} {ys : List α} (hr : Ring L h xs) (hr' : Ring L h' ys)
    (hh : h ∉ h' :: ys) : ∀ x ∈ h :: xs, x ∉ h' :: ys := by
  intro x hx hy
  rcases List.mem_cons.mp hx with rfl | hx
  · exact hh hy
  · -- from `x` the pointers lead back to `h`, and never out of the second ring
    obtain ⟨as, bs, rfl⟩ := List.append_of_mem hx
    have hback : Follows L.next x bs h := (follows_append.mp hr.fwd).2
    exact hh (hback.closed (fun _ hc => hr'.next_mem_cells hc) hy)

/-- A ring only depends on the pointers of its own cells. -/
theorem congr {L' : Links α} (hr : Ring L h xs)
    (hn : ∀ c ∈ h :: xs, L'.next c = L.next c) (hp : ∀ c ∈ h :: xs, L'.prev c = L.prev c) :
    Ring L' h xs where
  fwd := hr.fwd.congr hn
  bwd := hr.bwd.congr fun c hc => hp c (by simpa using hc)
  nodup := hr.nodup

variable [DecidableEq α]

theorem initHead (L : Links α) (h : α) : Ring (L.initHead h) h [] where
  fwd := by simp [Links.initHead, Links.setNext, Links.setPrev]
  bwd := by simp [Links.initHead, Links.setNext, Links.setPrev]
  nodup := by simp

/-- The search loop over a ring is `List.find?` on its cells. -/
theorem search (hr : Ring L h xs) {n : ℕ} (hn : xs.length ≤ n) (p : α → Bool) :
    L.search p h n = some (xs.find? p) :=
  hr.fwd.search hr.head_notMem (Nat.lt_succ_of_le hn) p

/-- Inserting after the last cell of `as` (the head, if `as` is empty). -/
theorem insertAfter {n : α} (hr : Ring L h (as ++ bs)) (hn : n ∉ h :: (as ++ bs)) :
    Ring (L.insertAfter n (as.getLastD h)) h (as ++ n :: bs) := by
  have hnext := hr.next_at
  have hprev := hr.prev_at
  have hd : n ≠ bs.headD h := by
    rintro rfl
    cases bs <;> simp at hn
  refine ⟨?_, ?_, ?_⟩
  · -- forwards: `n` takes over the pointer of the cell it follows
    exact hr.fwd.splice hr.nodup hn
  · -- backwards: the mirror image, cut before the old successor
    have hb := hr.bwd
    have hnd := hr.nodup_reverse
    have hn' : n ∉ h :: (as ++ bs).reverse := by simpa [and_comm] using hn
    rw [List.reverse_append] at hb hnd hn'
    have hsp := hb.splice hnd hn'
    have hmir : bs.reverse.getLastD h = bs.headD h := by simp
    rw [hmir, hprev] at hsp
    rw [List.reverse_append, List.reverse_cons, List.append_assoc]
    refine hsp.congr fun c _ => ?_
    simp only [Links.insertAfter, Links.link, Links.setNext, Links.setPrev, hnext]
    rw [Function.update_comm hd]
  · have hp : (h :: (as ++ n :: bs)).Perm (n :: h :: (as ++ bs)) :=
      (List.perm_middle.cons h).trans (List.Perm.swap n h _)
    exact hp.nodup_iff.mpr (List.nodup_cons.mpr ⟨hn, hr.nodup⟩)

/-- Taking a cell out of a ring. -/
theorem unlink {e : α} (hr : Ring L h (as ++ e :: bs)) : Ring (L.unlink e) h (as ++ bs) := by
  have hnext := hr.next_mem
  have hprev := hr.prev_mem
  refine ⟨?_, ?_, ?_⟩
  · have hcut := hr.fwd.cut hr.nodup
    rw [← hprev] at hcut
    exact hcut
  · have hb := hr.bwd
    have hnd := hr.nodup_reverse
    rw [List.reverse_append, List.reverse_cons, List.append_assoc, List.singleton_append]
      at hb hnd
    have hcut := hb.cut hnd
    have hmir : bs.reverse.getLastD h = bs.headD h := by simp
    rw [hmir, ← hnext] at hcut
    rw [List.reverse_append]
    exact hcut
  · exact hr.nodup.sublist ((List.sublist_cons_self e bs).append_left as |>.cons_cons h)

/-! ### Frame: a disjoint ring is left alone -/

/-- An insertion only writes the pointers of the ring and of the new cell. -/
theorem insertAfter_outside {n c x : α} (hr : Ring L h xs) (hc : c ∈ h :: xs) (hx : x ∉ h :: xs)
    (hn : x ≠ n) :
    (L.insertAfter n c).next x = L.next x ∧ (L.insertAfter n c).prev x = L.prev x := by
  have hxc : x ≠ c := fun e => hx (e ▸ hc)
  have hxd : x ≠ L.next c := fun e => hx (e ▸ hr.next_mem_cells hc)
  constructor
  · simp [Links.insertAfter, Links.link, Links.setNext, Links.setPrev,
      Function.update_of_ne hn, Function.update_of_ne hxc]
  · simp [Links.insertAfter, Links.link, Links.setNext, Links.setPrev,
      Function.update_of_ne hn, Function.update_of_ne hxd]

/-- A removal only writes the pointers of the ring. -/
theorem unlink_outside {e x : α} (hr : Ring L h xs) (he : e ∈ h :: xs) (hx : x ∉ h :: xs) :
    (L.unlink e).next x = L.next x ∧ (L.unlink e).prev x = L.prev x := by
  have hxn : x ≠ L.next e := fun e' => hx (e' ▸ hr.next_mem_cells he)
  have hxp : x ≠ L.prev e := fun e' => hx (e' ▸ hr.prev_mem_cells he)
  constructor
  · simp [Links.unlink, Links.setNext, Links.setPrev, Function.update_of_ne hxp]
  · simp [Links.unlink, Links.setNext, Links.setPrev, Function.update_of_ne hxn]

variable {h' : α} {ys : List α}

/-- An insertion into one ring leaves another one as it is. -/
theorem insertAfter_frame {n c : α} (hr : Ring L h xs) (hc : c ∈ h :: xs)
    (hr' : Ring L h' ys) (hdis : ∀ x ∈ h :: xs, x ∉ h' :: ys) (hn : n ∉ h' :: ys) :
    Ring (L.insertAfter n c) h' ys := by
  have hout : ∀ x ∈ h' :: ys,
      (L.insertAfter n c).next x = L.next x ∧ (L.insertAfter n c).prev x = L.prev x :=
    fun x hx => hr.insertAfter_outside hc (fun hmem => hdis x hmem hx) fun e => hn (e ▸ hx)
  exact hr'.congr (fun x hx => (hout x hx).1) fun x hx => (hout x hx).2

theorem unlink_frame {e : α} (hr : Ring L h xs) (he : e ∈ h :: xs)
    (hr' : Ring L h' ys) (hdis : ∀ x ∈ h :: xs, x ∉ h' :: ys) :
    Ring (L.unlink e) h' ys := by
  have hout : ∀ x ∈ h' :: ys, (L.unlink e).next x = L.next x ∧ (L.unlink e).prev x = L.prev x :=
    fun x hx => hr.unlink_outside he fun hmem => hdis x hmem hx
  exact hr'.congr (fun x hx => (hout x hx).1) fun x hx => (hout x hx).2

end Ring

/-! ## Rings through pointers that were changed -/

/-- Of two paths along the same pointers, the one that ends where the other one does not come is the
longer one. -/
theorem Follows.extends {f : α → α} {a b t : α} {as ys : List α} (ht : Follows f a as t)
    (hy : Follows f a ys b) (hb : b ∉ as) (hne : t ≠ b) : ∃ zs, ys = as ++ t :: zs := by
  induction as generalizing a ys with
  | nil =>
    cases ys with
    | nil => exact absurd (ht.symm.trans hy) hne
    | cons y ys => exact ⟨ys, by rw [List.nil_append, ← hy.1, ht]⟩
  | cons x as ih =>
    cases ys with
    | nil => exact absurd (hy.symm.trans ht.1) fun e => hb (by simp [e])
    | cons y ys =>
      obtain rfl : y = x := hy.1.symm.trans ht.1
      obtain ⟨zs, rfl⟩ := ih ht.2 hy.2 fun h => hb (List.mem_cons_of_mem _ h)
      exact ⟨zs, rfl⟩

/-- A list splits at a cell that occurs once in one way only. -/
theorem eq_of_split {t : α} {as bs cs ds : List α} (hnd : (as ++ t :: bs).Nodup)
    (h : as ++ t :: bs = cs ++ t :: ds) :
    as = cs ∧ bs = ds := by
  induction as generalizing cs with
  | nil =>
    cases cs with
    | nil => exact ⟨rfl, (List.cons.inj h).2⟩
    | cons c cs =>
      obtain ⟨rfl, rfl⟩ := List.cons.inj h
      exact absurd (by simp) (List.nodup_cons.mp hnd).1
  | cons a as ih =>
    cases cs with
    | nil =>
      obtain ⟨rfl, -⟩ := List.cons.inj h
      exact absurd (by simp) (List.nodup_cons.mp hnd).1
    | cons c cs =>
      obtain ⟨rfl, hrest⟩ := List.cons.inj h
      obtain ⟨rfl, rfl⟩ := ih (List.nodup_cons.mp hnd).2 hrest
      exact ⟨rfl, rfl⟩

namespace Ring

variable {L L' : Links α} {h : α} {xs ys : List α}

/-- Changing the pointers of one cell leaves no other ring behind. -/
theorem eq_of_agree {t : α} (hr : Ring L h xs) (hr' : Ring L' h ys) (ht : t ≠ h)
    (hn : ∀ c, c ≠ t → L'.next c = L.next c) (hp : ∀ c, c ≠ t → L'.prev c = L.prev c) :
    ys = xs := by
  by_cases hmem : t ∈ xs
  · obtain ⟨as, bs, rfl⟩ := List.append_of_mem hmem
    obtain ⟨hhead, hnd⟩ := List.nodup_cons.mp hr.nodup
    have hcells : ∀ c ∈ h :: as, c ≠ t := by
      rintro c hc rfl
      rcases List.mem_cons.mp hc with rfl | hc
      · exact ht rfl
      · exact (List.nodup_append.mp hnd).2.2 c hc c (by simp) rfl
    have hcells' : ∀ c ∈ h :: bs.reverse, c ≠ t := by
      rintro c hc rfl
      rcases List.mem_cons.mp hc with rfl | hc
      · exact ht rfl
      · exact (List.nodup_cons.mp (List.nodup_append.mp hnd).2.1).1 (List.mem_reverse.mp hc)
    -- from either side the old path leads to the changed cell
    obtain ⟨zs, hz⟩ := ((follows_append.mp hr.fwd).1.congr fun c hc => hn c (hcells c hc)).extends
      hr'.fwd
      (fun hc => hhead (by simp [hc])) ht
    have hbwd := hr.bwd
    rw [List.reverse_append, List.reverse_cons, List.append_assoc, List.singleton_append] at hbwd
    obtain ⟨ws, hw⟩ := ((follows_append.mp hbwd).1.congr fun c hc => hp c (hcells' c hc)).extends
      hr'.bwd
      (fun hc => hhead (by simp [List.mem_reverse.mp hc])) ht
    have hw' : ys = ws.reverse ++ t :: bs := by
      have := congrArg List.reverse hw
      simpa using this
    have hnd' := (List.nodup_cons.mp hr'.nodup).2
    obtain ⟨-, rfl⟩ := eq_of_split (hz ▸ hnd') (hz.symm.trans hw')
    exact hz
  · have hcells : ∀ c ∈ h :: xs, c ≠ t := by
      rintro c hc rfl
      rcases List.mem_cons.mp hc with rfl | hc
      · exact ht rfl
      · exact hmem hc
    have hsame : Ring L' h xs :=
      hr.congr (fun c hc => hn c (hcells c hc)) fun c hc => hp c (hcells c hc)
    exact hr'.fwd.unique hsame.fwd hr'.head_notMem hsame.head_notMem

/-- Pointers that are old ones or lead to a cell of the old ring leave it on the new one. -/
theorem mem_of_leads {x : α} (hr : Ring L h xs) (hr' : Ring L' h ys) (hx : x ∈ xs)
    (hn : ∀ c ∈ h :: xs, c ≠ x → L'.next c = L.next c ∨ L'.next c = x) : x ∈ h :: ys := by
  obtain ⟨as, bs, rfl⟩ := List.append_of_mem hx
  have hpath : ∀ a ∈ h :: ys, ∀ cs, (∀ c ∈ a :: cs, c ∈ h :: (as ++ x :: bs)) →
      Follows L.next a cs x → x ∈ h :: ys := by
    intro a ha cs hcs hf
    induction cs generalizing a with
    | nil =>
      by_cases hax : a = x
      · exact hax ▸ ha
      · have hto : L'.next a = x := by
          rcases hn a (hcs a (by simp)) hax with hsame | hto
          · exact hsame.trans hf
          · exact hto
        exact hto ▸ hr'.next_mem_cells ha
    | cons c cs ih =>
      by_cases hax : a = x
      · exact hax ▸ ha
      · rcases hn a (hcs a (by simp)) hax with hsame | hto
        · exact ih c (hf.1 ▸ hsame ▸ hr'.next_mem_cells ha)
            (fun d hd => hcs d (List.mem_cons_of_mem _ hd)) hf.2
        · exact hto ▸ hr'.next_mem_cells ha
  refine hpath h (by simp) as (fun c hc => ?_) (follows_append.mp hr.fwd).1
  rcases List.mem_cons.mp hc with rfl | hc
  · simp
  · simp [hc]

/-- No cell of a ring points to itself. -/
theorem next_ne_self {c : α} (hr : Ring L h xs) (hc : c ∈ xs) : L.next c ≠ c := by
  obtain ⟨as, bs, rfl⟩ := List.append_of_mem hc
  have hnd := hr.nodup
  rw [hr.next_mem]
  cases bs with
  | nil =>
    rintro rfl
    exact hr.head_notMem (by simp)
  | cons b bs =>
    rintro rfl
    exact (List.nodup_cons.mp (List.nodup_append.mp (List.nodup_cons.mp hnd).2).2.1).1 (by simp)

/-- The cell behind a cell points back to it. -/
theorem prev_next {c : α} (hr : Ring L h xs) (hc : c ∈ h :: xs) : L.prev (L.next c) = c := by
  rcases List.mem_cons.mp hc with rfl | hc
  · rw [hr.fwd.first]
    exact (show Ring L c ([] ++ xs) from hr).prev_at
  · obtain ⟨as, bs, rfl⟩ := List.append_of_mem hc
    have hr₂ : Ring L h ((as ++ [c]) ++ bs) := by rwa [List.append_assoc, List.singleton_append]
    rw [hr.next_mem, hr₂.prev_at]
    simp

end Ring

namespace Links

variable [DecidableEq α] {L : Links α} {t u c : α}

/-- Putting a cell in and taking it out again changes the pointers of that cell only. -/
theorem unlink_insertAfter (htc : t ≠ c) (hback : L.prev (L.next c) = c) {x : α} (hx : x ≠ t) :
    ((L.insertAfter t c).unlink t).next x = L.next x ∧
    ((L.insertAfter t c).unlink t).prev x = L.prev x := by
  have hnext : (L.insertAfter t c).next t = L.next c := by
    simp [insertAfter, link, setNext, setPrev, Function.update_of_ne htc]
  have hprev : (L.insertAfter t c).prev t = c := by simp [insertAfter, link, setNext, setPrev]
  simp only [unlink, setNext, setPrev, hnext, hprev]
  constructor
  · by_cases hxc : x = c
    · rw [hxc, Function.update_self]
    · rw [Function.update_of_ne hxc]
      simp [insertAfter, link, setNext, setPrev, Function.update_of_ne hxc,
        Function.update_of_ne hx]
  · by_cases hxd : x = L.next c
    · rw [hxd, Function.update_self, hback]
    · rw [Function.update_of_ne hxd]
      simp [insertAfter, link, setNext, setPrev, Function.update_of_ne hxd,
        Function.update_of_ne hx]

/-- Taking a cell out of a list leaves its own pointers alone. -/
theorem unlink_self (L : Links α) (e : α) :
    (L.unlink e).next e = L.next e ∧ (L.unlink e).prev e = L.prev e := by
  constructor
  · by_cases h : e = L.prev e
    · simp [unlink, setNext, setPrev, ← h]
    · simp [unlink, setNext, setPrev, Function.update_of_ne h]
  · by_cases h : e = L.next e
    · simp [unlink, setNext, setPrev, ← h]
    · simp [unlink, setNext, setPrev, Function.update_of_ne h]

/-- Taking out the cell behind `e` as well leaves the back pointer of `e` alone. -/
theorem unlink_unlink_prev (L : Links α) (e : α) :
    ((L.unlink e).unlink (L.next e)).prev e = L.prev e := by
  have hp : (L.unlink e).prev (L.next e) = L.prev e := by
    simp [unlink, setNext, setPrev]
  by_cases h : e = (L.unlink e).next (L.next e)
  · conv_lhs => rw [unlink]
    simp only [setNext, setPrev]
    rw [← h, Function.update_self, hp]
  · conv_lhs => rw [unlink]
    simp only [setNext, setPrev]
    rw [Function.update_of_ne h]
    exact (unlink_self L e).2

/-- Taking a cell out a second time changes nothing, as long as its neighbours are still there. -/
theorem unlink_unlink (L : Links α) (e : α) : (L.unlink e).unlink e = L.unlink e := by
  rw [unlink, (L.unlink_self e).1, (L.unlink_self e).2]
  simp only [unlink, setNext, setPrev, Function.update_idem]

end Links

/-- When the cell behind a removed cell is removed too, removing the first one again brings
the second one back, forwards. -/
theorem Ring.unlink_again [DecidableEq α] {L : Links α} {h e f : α} {as bs : List α}
    (hr : Ring L h (as ++ e :: f :: bs)) :
    (((L.unlink e).unlink f).unlink e).next = (L.unlink e).next := by
  have hr₁ : Ring (L.unlink e) h (as ++ f :: bs) := hr.unlink
  have hnext : L.next e = f := hr.next_mem
  have hprev : L.prev e = as.getLastD h := hr.prev_mem
  have hout : e ∉ h :: (as ++ f :: bs) := by
    have hnd := hr.nodup
    rw [← List.cons_append, List.nodup_middle] at hnd
    exact (List.nodup_cons.mp hnd).1
  have hep : e ≠ as.getLastD h := fun he =>
    hout (List.cons_append ▸ List.mem_append_left _ (he ▸ List.getLastD_mem_cons))
  have hback : ((L.unlink e).unlink f).prev e = as.getLastD h := by
    rw [← hnext, Links.unlink_unlink_prev, hprev]
  have hahead : ((L.unlink e).unlink f).next e = f := by
    rw [Links.unlink, hr₁.prev_mem]
    simp only [Links.setNext, Links.setPrev]
    rw [Function.update_of_ne hep, (L.unlink_self e).1, hnext]
  have hfirst : (L.unlink e).next (as.getLastD h) = f := hr₁.next_at
  rw [Links.unlink, hback, hahead]
  simp only [Links.setNext, Links.setPrev]
  rw [Links.unlink, hr₁.prev_mem]
  simp only [Links.setNext, Links.setPrev]
  rw [Function.update_idem, ← hfirst, Function.update_eq_self]

end BitThunder
