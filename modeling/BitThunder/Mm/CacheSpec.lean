import BitThunder.Lib.Extent
import BitThunder.Mm.Slab

/-!
# A slab cache, over whole runs

`CacheRep` ties a cache to the lists of its free and live objects: the free list runs
through the free objects, all objects lie in the blocks the cache was extended by and do
not overlap, and the counters count them. Every operation keeps it.

The page allocator is asked for fresh pages only (`PagesLaw`), and may fail at any
call.

* `initAttachBlock_spec`: a new block is cut into objects;
* `cache_sound`: the invariant over runs.

A cache never gives pages back, so its blocks only grow in number, and each of them is cut into
objects once. Objects are apart because the slots of one block are, and because blocks are: a new
block was not in use before, and blocks that the cache has are in use. This is the only property of
the page allocator that is needed, besides that a block does not start at address `0` and does not
wrap around.

The counters count: `allocated` the live objects, `available` these and the free ones. They are
words, and they do not wrap, since objects that do not overlap are fewer than there are addresses
(`length_lt_of_apart`).
-/

namespace BitThunder

open Memory

variable {σ : Type} {P : Pages σ} {taken : σ → ℕ → Prop}

/-- What is asked of the page allocator, in virtual addresses: pages that were not in
use, that do not start at `0` (`bt_page_pool_alloc` takes a block there for no block) and
do not wrap around; and freeing a run leaves other pages alone. `taken` is known to the
proofs only. Nothing but failure is asked of a request for `0` bytes, and little of one
that wraps around when it is rounded up. -/
structure PagesLaw (P : Pages σ) (taken : σ → ℕ → Prop) : Prop where
  /-- no pages are asked for, and none come -/
  zero : ∀ e, (P.alloc 0 e).1 = 0
  lt : ∀ n e, (P.alloc n e).1 < 2 ^ 32
  /-- what is granted lies above the first page -/
  start : ∀ n e, (P.alloc n e).1 ≠ 0 → 4096 ≤ P.ram.physToVirt (P.alloc n e).1
  /-- and ends within the address space -/
  stop : ∀ n e, n + 4095 < 2 ^ 32 → (P.alloc n e).1 ≠ 0 →
    P.ram.physToVirt (P.alloc n e).1 + btPageAlign n ≤ 2 ^ 32
  /-- it is nobody's -/
  fresh : ∀ n e x, n + 4095 < 2 ^ 32 → (P.alloc n e).1 ≠ 0 →
    P.ram.physToVirt (P.alloc n e).1 ≤ x →
    x < P.ram.physToVirt (P.alloc n e).1 + btPageAlign n → ¬ taken e x
  /-- afterwards it is somebody's -/
  take : ∀ n e x, n + 4095 < 2 ^ 32 → (P.alloc n e).1 ≠ 0 →
    P.ram.physToVirt (P.alloc n e).1 ≤ x →
    x < P.ram.physToVirt (P.alloc n e).1 + btPageAlign n → taken (P.alloc n e).2 x
  /-- nobody loses a byte by it -/
  keep : ∀ n e x, n + 4095 < 2 ^ 32 → taken e x → taken (P.alloc n e).2 x
  /-- a free takes away no other bytes than those it is given -/
  free : ∀ p n e x, n + 4095 < 2 ^ 32 →
    (∀ y, P.ram.physToVirt p ≤ y → y < P.ram.physToVirt p + btPageAlign n → taken e y) →
    taken e x → x < P.ram.physToVirt p ∨ P.ram.physToVirt p + btPageAlign n ≤ x →
    taken (P.free p n e) x

/-! ## Objects

The objects of a block, as addresses. Two objects are apart if one ends before the other begins. -/

/-- `n` objects of the given size, one after the other from `a` on. -/
def slots (size : ℕ) : ℕ → ℕ → List ℕ
  | _, 0 => []
  | a, n + 1 => a :: slots size (a + size) n

variable {size : ℕ}

/-- The slots follow each other in steps of the object's size. -/
theorem mem_slots {a n o : ℕ} : o ∈ slots size a n ↔ ∃ i < n, o = a + i * size := by
  induction n generalizing a with
  | zero => simp [slots]
  | succ n ih =>
    rw [slots, List.mem_cons, ih]
    constructor
    · rintro (rfl | ⟨i, hi, rfl⟩)
      · exact ⟨0, by omega, by simp⟩
      · exact ⟨i + 1, by omega, by ring⟩
    · rintro ⟨i, hi, rfl⟩
      cases i with
      | zero => exact .inl (by simp)
      | succ i => exact .inr ⟨i, by omega, by ring⟩

theorem slots_length (a n : ℕ) : (slots size a n).length = n := by
  induction n generalizing a with
  | zero => rfl
  | succ n ih => rw [slots, List.length_cons, ih]

/-- The objects at the two addresses do not overlap. -/
def ObjApart (size o o' : ℕ) : Prop := o + size ≤ o' ∨ o' + size ≤ o

theorem ObjApart.symm {o o' : ℕ} (h : ObjApart size o o') : ObjApart size o' o := Or.symm h

theorem slots_bounds {a n o : ℕ} (h : o ∈ slots size a n) : a ≤ o ∧ o + size ≤ a + n * size := by
  obtain ⟨i, hi, rfl⟩ := mem_slots.mp h
  have : (i + 1) * size ≤ n * size := Nat.mul_le_mul_right _ hi
  rw [Nat.succ_mul] at this
  omega

theorem slots_pairwise (a n : ℕ) : (slots size a n).Pairwise (ObjApart size) := by
  induction n generalizing a with
  | zero => exact .nil
  | succ n ih =>
    refine List.pairwise_cons.mpr ⟨fun o ho => ?_, ih _⟩
    exact .inl (slots_bounds ho).1

/-- A list runs through consecutive objects if each has the address of the next one, and
then goes on at `p`. -/
theorem threads_slots {m : Memory} {a n p : ℕ} {fl : List ℕ} (ha : a ≠ 0)
    (hnext : ∀ i < n, m.load (a + i * size) = a + (i + 1) * size)
    (hlast : m.load (a + n * size) = p) (h : m.Threads p fl) :
    m.Threads a (slots size a (n + 1) ++ fl) := by
  induction n generalizing a with
  | zero =>
    rw [Nat.zero_mul, Nat.add_zero] at hlast
    exact ⟨rfl, ha, by rw [hlast]; exact h⟩
  | succ n ih =>
    have hfirst := hnext 0 (by omega)
    rw [Nat.zero_mul, Nat.add_zero, Nat.zero_add, Nat.one_mul] at hfirst
    refine ⟨rfl, ha, ?_⟩
    rw [hfirst]
    refine ih (by omega) (fun i hi => ?_) ?_
    · have := hnext (i + 1) (by omega)
      rw [show a + size + i * size = a + (i + 1) * size by ring, this]
      ring
    · rw [show a + size + n * size = a + (n + 1) * size by ring]
      exact hlast

/-! ## A new block

The loop writes a link into each object, so that the new objects come out as one free list in front
of the old one. -/

/-- The loop of `init_attach_block`. -/
theorem attachLoop_spec (hsize : 4 ≤ size) {n a : ℕ} (m : Memory) (hlt : a < 2 ^ 32)
    (hend : a + n * size ≤ 2 ^ 32) :
    (attachLoop size n a m).1 = (a + n * size) % 2 ^ 32 ∧
    (∀ i < n, (attachLoop size n a m).2.load (a + i * size) = (a + (i + 1) * size) % 2 ^ 32) ∧
    ∀ x, x < a ∨ a + n * size ≤ x → (attachLoop size n a m).2 x = m x := by
  induction n generalizing a m with
  | zero =>
    refine ⟨?_, nofun, fun _ _ => rfl⟩
    rw [Nat.zero_mul, Nat.add_zero, Nat.mod_eq_of_lt hlt]
    rfl
  | succ n ih =>
    rw [Nat.succ_mul] at hend
    by_cases hn : n = 0
    · subst hn
      rw [attachLoop, attachLoop]
      refine ⟨by rw [wordAdd]; simp, fun i hi => ?_, fun x hx => ?_⟩
      · obtain rfl : i = 0 := by omega
        rw [Nat.zero_mul, Nat.add_zero, load_store (wordAdd_lt _ _), wordAdd]
        simp
      · exact store_of_out (by omega)
    · have hpos : size ≤ n * size := Nat.le_mul_of_pos_left _ (by omega)
      have hnext : wordAdd a size = a + size := wordAdd_of_lt (by omega)
      rw [attachLoop, hnext]
      obtain ⟨h₁, h₂, h₃⟩ := ih (m.store a (a + size)) (a := a + size) (by omega) (by omega)
      refine ⟨?_, fun i hi => ?_, fun x hx => ?_⟩
      · rw [h₁, Nat.succ_mul]
        congr 1
        omega
      · cases i with
        | zero =>
          rw [Nat.zero_mul, Nat.add_zero, load_congr (m := m.store a (a + size)),
            load_store (by omega), Nat.zero_add, Nat.one_mul, Nat.mod_eq_of_lt (by omega)]
          exact fun x hlo hhi => h₃ x (by omega)
        | succ i =>
          have := h₂ i (by omega)
          rw [show a + size + i * size = a + (i + 1) * size by ring,
            show a + size + (i + 1) * size = a + (i + 1 + 1) * size by ring] at this
          exact this
      · rw [h₃ x (by rw [Nat.succ_mul] at hx; omega)]
        exact store_of_out (by rw [Nat.succ_mul] at hx; omega)

/-- Objects that do not overlap are fewer than there are addresses. -/
theorem length_lt_of_apart {os : List ℕ} (hsize : 0 < size) (h : os.Pairwise (ObjApart size))
    (hlt : ∀ o ∈ os, 0 < o ∧ o < 2 ^ 32) : os.length < 2 ^ 32 := by
  have hnd : os.Nodup := h.imp fun {a b} hab he => by
    subst he
    unfold ObjApart at hab
    omega
  have hsub : os.toFinset ⊆ Finset.Ioo 0 (2 ^ 32) := by
    intro o ho
    exact Finset.mem_Ioo.mpr (hlt o (List.mem_toFinset.mp ho))
  have hcard := Finset.card_le_card hsub
  rw [List.toFinset_card_of_nodup hnd, Nat.card_Ioo] at hcard
  omega

/-! ## The invariant

Everything that a run may rely on is in one structure, and it is kept when memory outside the blocks
changes. -/

/-- The cache has the given free and live objects, in the blocks at the given
addresses. -/
structure CacheRep (c : Cache) (m : Memory) (blocks fl live : List ℕ) : Prop where
  /-- an object has room for a link -/
  size_ge : 4 ≤ c.objectSize
  size_lt : c.objectSize < 2 ^ 32
  /-- the free objects are on a list through their first words -/
  list : m.Threads c.free fl
  /-- the blocks are in the address space -/
  block : ∀ b ∈ blocks, 4096 ≤ b ∧ b + btPageAlign c.objectSize ≤ 2 ^ 32
  /-- each object lies in a block -/
  inside : ∀ o ∈ fl ++ live, ∃ b ∈ blocks, b ≤ o ∧ o + c.objectSize ≤ b + btPageAlign c.objectSize
  /-- no two objects overlap -/
  apart : (fl ++ live).Pairwise (ObjApart c.objectSize)
  /-- the counters count the objects -/
  allocated : c.allocated = live.length
  available : c.available = c.allocated + fl.length

namespace CacheRep

variable {c : Cache} {m m' : Memory} {blocks fl live : List ℕ}

/-- Where an object can be. -/
theorem bounds (h : CacheRep c m blocks fl live) {o : ℕ} (ho : o ∈ fl ++ live) :
    4096 ≤ o ∧ o + c.objectSize ≤ 2 ^ 32 := by
  obtain ⟨b, hb, hlo, hhi⟩ := h.inside o ho
  have := h.block b hb
  omega

theorem length_lt (h : CacheRep c m blocks fl live) : (fl ++ live).length < 2 ^ 32 := by
  have hge := h.size_ge
  refine length_lt_of_apart (by omega) h.apart fun o ho => ?_
  have := h.bounds ho
  omega

/-- The list starts at an address. -/
theorem free_lt (h : CacheRep c m blocks fl live) : c.free < 2 ^ 32 := by
  have hlist := h.list
  cases fl with
  | nil =>
    rw [show c.free = 0 from hlist]
    decide
  | cons o fl =>
    have := h.bounds (o := o) List.mem_cons_self
    have := h.size_ge
    rw [hlist.1]
    omega

/-- Only the links of the free objects matter. -/
theorem congr (h : CacheRep c m blocks fl live)
    (hm : ∀ o ∈ fl, ∀ x, o ≤ x → x < o + 4 → m' x = m x) : CacheRep c m' blocks fl live :=
  { h with list := h.list.congr fun o ho => load_congr (hm o ho) }

/-- Objects that do not overlap, in another order. -/
theorem apart_of_perm {os os' : List ℕ} (h : os.Pairwise (ObjApart size)) (hp : os.Perm os') :
    os'.Pairwise (ObjApart size) := (hp.pairwise_iff fun hab => hab.symm).mp h

end CacheRep

/-- `init_attach_block` on a block that is new to the cache: its objects come first in
the free list, and nothing outside the block is written. -/
theorem initAttachBlock_spec {c : Cache} {m : Memory} {blocks fl live : List ℕ} {blk : ℕ}
    (h : CacheRep c m blocks fl live) (hround : c.objectSize + 4095 < 2 ^ 32)
    (hlo : 4096 ≤ blk) (hhi : blk + btPageAlign c.objectSize ≤ 2 ^ 32)
    (hnew : ∀ b ∈ blocks, ObjApart (btPageAlign c.objectSize) blk b) :
    ∃ new, CacheRep (initAttachBlock c m blk (btPageAlign c.objectSize)).1
        (initAttachBlock c m blk (btPageAlign c.objectSize)).2 (blk :: blocks) (new ++ fl) live ∧
      new ≠ [] ∧
      (initAttachBlock c m blk (btPageAlign c.objectSize)).1.objectSize = c.objectSize ∧
      ∀ x, x < blk ∨ blk + btPageAlign c.objectSize ≤ x →
        (initAttachBlock c m blk (btPageAlign c.objectSize)).2 x = m x := by
  obtain ⟨hal, hle, -⟩ := btPageAlign_of_lt hround
  have hge := h.size_ge
  set len := btPageAlign c.objectSize with hlen
  obtain ⟨k, hk⟩ : ∃ k, len / c.objectSize = k + 1 :=
    ⟨len / c.objectSize - 1, by have := Nat.div_pos hle (by omega); omega⟩
  have hfit : (k + 1) * c.objectSize ≤ len := by
    rw [← hk]
    exact Nat.div_mul_le_self _ _
  have hfit' : k * c.objectSize + c.objectSize ≤ len := by
    rw [← Nat.succ_mul]
    exact hfit
  have hmeta : wordAdd blk 8 = blk + 8 := wordAdd_of_lt (by omega)
  obtain ⟨h₁, h₂, h₃⟩ := attachLoop_spec hge (m.store (blk + 8) len) (n := k + 1) (a := blk)
    (by omega) (by omega)
  set r := attachLoop c.objectSize (k + 1) blk (m.store (blk + 8) len) with hr
  have hlast : wordSub r.1 c.objectSize = blk + k * c.objectSize := by
    rw [h₁, Nat.succ_mul]
    unfold wordSub
    omega
  have hinit : initAttachBlock c m blk len =
      ({ c with free := blk, available := wordAdd c.available (k + 1) },
        r.2.store (blk + k * c.objectSize) c.free) := by
    unfold initAttachBlock
    dsimp only
    rw [hk, hmeta, ← hr, hlast]
  have hout : ∀ x, x < blk ∨ blk + len ≤ x → r.2.store (blk + k * c.objectSize) c.free x = m x := by
    intro x hx
    rw [store_of_out (by omega), h₃ x (by rw [Nat.succ_mul]; omega), store_of_out (by omega)]
  -- the old objects are in other blocks
  have hold : ∀ o ∈ fl ++ live, o + c.objectSize ≤ blk ∨ blk + len ≤ o := by
    intro o ho
    obtain ⟨b, hb, hbo, hob⟩ := h.inside o ho
    have := hnew b hb
    unfold ObjApart at this
    omega
  have hthread : (r.2.store (blk + k * c.objectSize) c.free).Threads blk
      (slots c.objectSize blk (k + 1) ++ fl) := by
    refine threads_slots (by omega) (fun i hi => ?_) (load_store h.free_lt)
      (h.list.congr fun o ho => ?_)
    · have hik : (i + 1) * c.objectSize ≤ k * c.objectSize := Nat.mul_le_mul_right _ (by omega)
      have hik' := hik
      rw [Nat.succ_mul] at hik'
      rw [load_store_of_out (by omega), h₂ i (by omega), Nat.mod_eq_of_lt (by omega)]
    · have := hold o (List.mem_append_left _ ho)
      exact load_congr fun x hxl hxh => hout x (by omega)
  have hnewIn : ∀ o ∈ slots c.objectSize blk (k + 1), blk ≤ o ∧ o + c.objectSize ≤ blk + len := by
    intro o ho
    have := slots_bounds ho
    omega
  have hapart : ((slots c.objectSize blk (k + 1) ++ fl) ++ live).Pairwise
      (ObjApart c.objectSize) := by
    rw [List.append_assoc]
    refine List.pairwise_append.mpr ⟨slots_pairwise _ _, h.apart, fun o ho o' ho' => ?_⟩
    have h₄ := hnewIn o ho
    have h₅ := hold o' ho'
    unfold ObjApart
    omega
  have hbound : ∀ o ∈ (slots c.objectSize blk (k + 1) ++ fl) ++ live, 0 < o ∧ o < 2 ^ 32 := by
    intro o ho
    rw [List.append_assoc] at ho
    rcases List.mem_append.mp ho with ho | ho
    · have := hnewIn o ho
      omega
    · have := h.bounds ho
      omega
  have hcount := length_lt_of_apart (by omega) hapart hbound
  simp only [List.length_append, slots_length] at hcount
  have havail := h.available
  have halloc := h.allocated
  rw [hinit]
  refine ⟨slots c.objectSize blk (k + 1), ?_, nofun, rfl, hout⟩
  constructor
  · exact hge
  · exact h.size_lt
  · exact hthread
  · exact List.forall_mem_cons.mpr ⟨⟨hlo, hhi⟩, h.block⟩
  · intro o ho
    rw [List.append_assoc] at ho
    rcases List.mem_append.mp ho with ho | ho
    · exact ⟨blk, List.mem_cons_self, hnewIn o ho⟩
    · obtain ⟨b, hb, hob⟩ := h.inside o ho
      exact ⟨b, List.mem_cons_of_mem _ hb, hob⟩
  · exact hapart
  · exact halloc
  · change wordAdd c.available (k + 1) = c.allocated + (slots c.objectSize blk (k + 1) ++ fl).length
    rw [wordAdd_of_lt (by omega), List.length_append, slots_length]
    omega

/-! ## The operations

Taking an object moves it from the free list to the live ones, and giving it back moves it in the
other direction. When there is none the cache is extended first, which may fail. -/

section Operations

variable {c : Cache} {m : Memory} {blocks fl live : List ℕ}

/-- An empty free list. -/
theorem CacheRep.popFree_nil (h : CacheRep c m blocks [] live) : popFree c m = (0, c) := by
  have hz : c.free = 0 := h.list
  rw [popFree, if_neg (by simp [hz])]

/-- The first free object becomes live. -/
theorem CacheRep.popFree_cons {o : ℕ} (h : CacheRep c m blocks (o :: fl) live) :
    (popFree c m).1 = o ∧ o ≠ 0 ∧ (popFree c m).2.objectSize = c.objectSize ∧
      CacheRep (popFree c m).2 m blocks fl (o :: live) := by
  obtain ⟨hfree, hne, hrest⟩ := h.list
  have hcount := h.length_lt
  have halloc := h.allocated
  have havail := h.available
  simp only [List.length_append, List.length_cons] at hcount havail
  have hnext : wordAdd c.allocated 1 = c.allocated + 1 := wordAdd_of_lt (by omega)
  have hpop : popFree c m = (o, { c with free := m.load o, allocated := c.allocated + 1 }) := by
    rw [popFree, hfree, if_pos hne, hnext]
  have hperm : (o :: fl ++ live).Perm (fl ++ o :: live) := List.perm_middle.symm
  rw [hpop]
  refine ⟨rfl, hne, rfl, h.size_ge, h.size_lt, hrest, h.block, fun x hx => ?_,
    CacheRep.apart_of_perm h.apart hperm, ?_, ?_⟩
  · exact h.inside x (hperm.mem_iff.mpr hx)
  · rw [List.length_cons, halloc]
  · change c.available = c.allocated + 1 + fl.length
    omega

/-- A live object becomes the first free one; only its link is written. -/
theorem CacheRep.pushFree {p : ℕ} (h : CacheRep c m blocks fl live) (hp : p ∈ live) :
    (pushFree c m p).1.objectSize = c.objectSize ∧
      CacheRep (BitThunder.pushFree c m p).1 (BitThunder.pushFree c m p).2 blocks (p :: fl)
      (live.erase p) ∧
      ∀ x, x < p ∨ p + 4 ≤ x → (BitThunder.pushFree c m p).2 x = m x := by
  have hge := h.size_ge
  have hperm : (fl ++ live).Perm (p :: fl ++ live.erase p) :=
    ((List.perm_cons_erase hp).append_left fl).trans List.perm_middle
  have hapart := CacheRep.apart_of_perm h.apart hperm
  have hbound := h.bounds (List.mem_append_right fl hp)
  have hlen := List.length_pos_of_mem hp
  have herase := List.length_erase_of_mem hp
  have halloc := h.allocated
  have havail := h.available
  have hcount := h.length_lt
  rw [List.length_append] at hcount
  have hdec : wordSub c.allocated 1 = c.allocated - 1 := wordSub_of_le (by omega) (by omega)
  refine ⟨rfl, ⟨hge, h.size_lt, ⟨rfl, by omega, ?_⟩, h.block, fun x hx => ?_, hapart, ?_, ?_⟩,
    fun x hx => store_of_out hx⟩
  · -- the freed object is none of the free ones
    change (m.store p c.free).Threads ((m.store p c.free).load p) fl
    rw [load_store h.free_lt]
    refine h.list.congr fun o ho => load_store_of_out ?_
    have := (List.pairwise_cons.mp hapart).1 o (List.mem_append_left _ ho)
    unfold ObjApart at this
    omega
  · exact h.inside x (hperm.mem_iff.mpr hx)
  · change wordSub c.allocated 1 = (live.erase p).length
    omega
  · change c.available = wordSub c.allocated 1 + (p :: fl).length
    rw [List.length_cons]
    omega

/-- The blocks are in use. -/
def BlocksTaken (taken : σ → ℕ → Prop) (len : ℕ) (blocks : List ℕ) (e : σ) : Prop :=
  ∀ b ∈ blocks, ∀ x, b ≤ x → x < b + len → taken e x

/-- A cache keeps its blocks as long as nothing is taken away from it. -/
theorem BlocksTaken.keep {e e' : σ} {len : ℕ} (h : BlocksTaken taken len blocks e)
    (hk : ∀ x, taken e x → taken e' x) : BlocksTaken taken len blocks e' :=
  fun b hb x hlo hhi => hk x (h b hb x hlo hhi)

/-- The block `extend_cache` gets, if any. -/
def extension (P : Pages σ) (c : Cache) (e : σ) : List ℕ :=
  let r := P.alloc (btPageAlign c.objectSize) e
  if r.1 = 0 then [] else [P.ram.physToVirt r.1]

/-- What an operation that may extend the cache by the blocks `new` does to the rest:
the blocks were free and are in use, and only they are written to. -/
structure Extends (taken : σ → ℕ → Prop) (len : ℕ) (new : List ℕ) (s s' : Store σ) : Prop where
  /-- nobody loses a byte -/
  keep : ∀ x, taken s.env x → taken s'.env x
  /-- the new blocks were nobody's -/
  fresh : ∀ b ∈ new, ∀ x, b ≤ x → x < b + len → ¬ taken s.env x
  /-- they are somebody's now -/
  take : BlocksTaken taken len new s'.env
  /-- nothing is written outside of them -/
  frame : ∀ x, (∀ b ∈ new, x < b ∨ b + len ≤ x) → s'.mem x = s.mem x

/-- `extend_cache` -/
theorem extendCache_spec (law : PagesLaw P taken) {s : Store σ}
    (h : CacheRep c s.mem blocks fl live)
    (ht : BlocksTaken taken (btPageAlign c.objectSize) blocks s.env) :
    ∃ new, CacheRep (extendCache P c s).2.1 (extendCache P c s).2.2.mem
        (extension P c s.env ++ blocks) (new ++ fl) live ∧
      (extension P c s.env = [] → (extendCache P c s).2.1 = c ∧ new = []) ∧
      (extension P c s.env ≠ [] → new ≠ []) ∧
      (extendCache P c s).2.1.objectSize = c.objectSize ∧
      Extends taken (btPageAlign c.objectSize) (extension P c s.env) s (extendCache P c s).2.2 := by
  have hlt := h.size_lt
  have hreq : btPageAlign c.objectSize + 4095 < 2 ^ 32 := by
    have h₁ := btPageAlign_mod c.objectSize
    have h₂ := btPageAlign_lt c.objectSize
    omega
  have hidem := btPageAlign_btPageAlign c.objectSize
  by_cases hz : (P.alloc (btPageAlign c.objectSize) s.env).1 = 0
  · have hno : extension P c s.env = [] := by rw [extension, if_pos hz]
    have hext : extendCache P c s =
        (.noMemory, c, { s with env := (P.alloc (btPageAlign c.objectSize) s.env).2 }) := by
      rw [extendCache, if_pos hz]
    rw [hno, hext]
    exact ⟨[], h, fun _ => ⟨rfl, rfl⟩, fun hne => absurd rfl hne, rfl,
      fun x hx => law.keep _ _ _ hreq hx, nofun, nofun, fun _ _ => rfl⟩
  · have hsome : extension P c s.env =
        [P.ram.physToVirt (P.alloc (btPageAlign c.objectSize) s.env).1] := by
      rw [extension, if_neg hz]
    have hround : c.objectSize + 4095 < 2 ^ 32 := by
      -- a size that wraps around is rounded to `0`, for which there are no pages
      by_contra hover
      have hzero : btPageAlign c.objectSize = 0 := by
        rw [btPageAlign_eq]
        omega
      rw [hzero] at hz
      exact hz (law.zero _)
    have hlo := law.start _ _ hz
    have hhi := law.stop _ _ hreq hz
    have hfresh := fun x => law.fresh _ s.env x hreq hz
    have htake := fun x => law.take _ s.env x hreq hz
    rw [hidem] at hhi hfresh htake
    have hlen : c.objectSize ≤ btPageAlign c.objectSize := (btPageAlign_of_lt hround).2.1
    have hge := h.size_ge
    set blk := P.ram.physToVirt (P.alloc (btPageAlign c.objectSize) s.env).1 with hblk
    -- an overlap with a block of the cache would be taken and fresh
    have hnew : ∀ b ∈ blocks, ObjApart (btPageAlign c.objectSize) blk b := by
      intro b hb
      by_contra hover
      unfold ObjApart at hover
      exact hfresh (max blk b) (by omega) (by omega) (ht b hb _ (by omega) (by omega))
    obtain ⟨new, hrep, hne, hsize, hframe⟩ := initAttachBlock_spec h hround hlo hhi hnew
    have hext : extendCache P c s = (.none,
        (initAttachBlock c s.mem blk (btPageAlign c.objectSize)).1,
        ⟨(initAttachBlock c s.mem blk (btPageAlign c.objectSize)).2,
          (P.alloc (btPageAlign c.objectSize) s.env).2⟩) := by
      rw [extendCache, if_neg hz]
    rw [hsome, hext]
    refine ⟨new, hrep, nofun, fun _ => hne, hsize, fun x hx => law.keep _ _ _ hreq hx, ?_, ?_, ?_⟩
    · rintro b hb x hbx hxb
      obtain rfl := List.mem_singleton.mp hb
      exact hfresh x hbx hxb
    · rintro b hb x hbx hxb
      obtain rfl := List.mem_singleton.mp hb
      exact htake x hbx hxb
    · intro x hx
      exact hframe x (hx blk (List.mem_singleton_self _))

/-- The block `BT_CacheAlloc` gets, if any. -/
def growth (P : Pages σ) (c : Cache) (e : σ) : List ℕ := if c.free = 0 then extension P c e else []

/-- `BT_CacheAlloc`: an object that was free becomes live, or there is none. -/
theorem btCacheAlloc_spec (law : PagesLaw P taken) {s : Store σ}
    (h : CacheRep c s.mem blocks fl live)
    (ht : BlocksTaken taken (btPageAlign c.objectSize) blocks s.env) :
    ∃ fl', CacheRep (btCacheAlloc P c s).2.1 (btCacheAlloc P c s).2.2.mem
        (growth P c s.env ++ blocks) fl'
        (if (btCacheAlloc P c s).1 = 0 then live else (btCacheAlloc P c s).1 :: live) ∧
      (btCacheAlloc P c s).2.1.objectSize = c.objectSize ∧
      Extends taken (btPageAlign c.objectSize) (growth P c s.env) s (btCacheAlloc P c s).2.2 := by
  cases hfl : fl with
  | cons o fl =>
    rw [hfl] at h
    obtain ⟨ho, hne, hsize, hrep⟩ := h.popFree_cons
    have hfree : c.free ≠ 0 := by
      rw [h.list.1]
      exact h.list.2.1
    have halloc : btCacheAlloc P c s = (o, (popFree c s.mem).2, s) := by
      rw [btCacheAlloc, if_neg (by rw [ho]; exact hne), ho]
    rw [halloc, growth, if_neg hfree, if_neg hne]
    exact ⟨fl, hrep, hsize, fun _ hx => hx, nofun, nofun, fun _ _ => rfl⟩
  | nil =>
    rw [hfl] at h
    have hfree : c.free = 0 := h.list
    obtain ⟨new, hrep, hnone, hsome, hsize, hext⟩ := extendCache_spec law h ht
    rw [List.append_nil] at hrep
    have halloc : btCacheAlloc P c s =
        ((popFree (extendCache P c s).2.1 (extendCache P c s).2.2.mem).1,
          (popFree (extendCache P c s).2.1 (extendCache P c s).2.2.mem).2,
          (extendCache P c s).2.2) := by
      rw [btCacheAlloc, if_pos (by rw [h.popFree_nil]), h.popFree_nil]
    rw [halloc, growth, if_pos hfree]
    cases hnew : new with
    | nil =>
      rw [hnew] at hrep
      rw [hrep.popFree_nil, if_pos rfl]
      exact ⟨[], hrep, hsize, hext⟩
    | cons o new =>
      rw [hnew] at hrep
      obtain ⟨ho, hne, hsize', hrep'⟩ := hrep.popFree_cons
      rw [ho, if_neg hne]
      exact ⟨new, hrep', hsize'.trans hsize, hext⟩

end Operations

/-! ## Runs

Besides the calls, owners write into their objects and others take pages, in any order. -/

/-- The states of one cache: it is set up with cleared counters, objects are taken and
given back in any order, their owners write to them, others take pages and write outside
the cache's blocks. `blocks` are the blocks `extend_cache` got, `live` the objects that are
out. -/
inductive CacheReach (P : Pages σ) (taken : σ → ℕ → Prop) (size : ℕ) :
    Cache → Store σ → List ℕ → List ℕ → Prop
  | init {c : Cache} {s : Store σ} (clear : c.available = 0) :
    CacheReach P taken size (initCache P c size s).2.1 (initCache P c size s).2.2
      (extension P { c with objectSize := size, free := 0, allocated := 0 } s.env) []
  | alloc {c : Cache} {s : Store σ} {blocks live : List ℕ} {p : ℕ} {c' : Cache} {s' : Store σ}
    (reach : CacheReach P taken size c s blocks live) (run : btCacheAlloc P c s = (p, c', s')) :
    CacheReach P taken size c' s' (growth P c s.env ++ blocks) (if p = 0 then live else p :: live)
  | free {c : Cache} {s : Store σ} {blocks live : List ℕ} {p : ℕ} {err : BtError} {c' : Cache}
    {s' : Store σ} (reach : CacheReach P taken size c s blocks live) (own : p ∈ live)
    (run : btCacheFree c s p = (err, c', s')) :
    CacheReach P taken size c' s' blocks (live.erase p)
  | write {c : Cache} {s : Store σ} {blocks live : List ℕ} {m : Memory}
    (reach : CacheReach P taken size c s blocks live)
    (out : ∀ b ∈ blocks, ∀ x, b ≤ x → x < b + btPageAlign size →
      (∀ o ∈ live, x < o ∨ o + size ≤ x) → m x = s.mem x) :
    CacheReach P taken size c { s with mem := m } blocks live
  | pages {c : Cache} {s : Store σ} {blocks live : List ℕ} {e : σ}
    (reach : CacheReach P taken size c s blocks live) (keep : ∀ x, taken s.env x → taken e x) :
    CacheReach P taken size c { s with env := e } blocks live

variable {c : Cache} {s : Store σ} {blocks live : List ℕ}

/-- The invariant holds in every state. -/
theorem CacheReach.inv (law : PagesLaw P taken) (hge : 4 ≤ size) (hlt : size < 2 ^ 32)
    (h : CacheReach P taken size c s blocks live) : ∃ fl, c.objectSize = size ∧
      CacheRep c s.mem blocks fl live ∧ BlocksTaken taken (btPageAlign size) blocks s.env := by
  induction h with
  | @init c s clear =>
    have h₀ : CacheRep { c with objectSize := size, free := 0, allocated := 0 } s.mem [] [] [] :=
      ⟨hge, hlt, rfl, nofun, nofun, .nil, rfl, clear⟩
    obtain ⟨new, hrep, -, -, hsize, hext⟩ := extendCache_spec law h₀ nofun
    rw [List.append_nil] at hrep
    exact ⟨_, hsize, hrep, hext.take⟩
  | alloc _ run ih =>
    obtain ⟨fl, rfl, hrep, ht⟩ := ih
    obtain ⟨fl', hrep', hsize, hext⟩ := btCacheAlloc_spec law hrep ht
    rw [run] at hrep' hsize hext
    refine ⟨fl', hsize, hrep', ?_⟩
    intro b hb
    rcases List.mem_append.mp hb with hb | hb
    · exact hext.take b hb
    · exact ht.keep hext.keep b hb
  | free _ own run ih =>
    obtain ⟨fl, rfl, hrep, ht⟩ := ih
    obtain ⟨hsize, hrep', -⟩ := hrep.pushFree own
    cases run
    exact ⟨_, hsize, hrep', ht⟩
  | write _ out ih =>
    obtain ⟨fl, rfl, hrep, ht⟩ := ih
    refine ⟨fl, rfl, hrep.congr fun o ho x hlo hhi => ?_, ht⟩
    obtain ⟨b, hb, hbo, hob⟩ := hrep.inside o (List.mem_append_left _ ho)
    have hge := hrep.size_ge
    refine out b hb x (by omega) (by omega) fun o' ho' => ?_
    have := (List.pairwise_append.mp hrep.apart).2.2 o ho o' ho'
    unfold ObjApart at this
    omega
  | pages _ keep ih =>
    obtain ⟨fl, rfl, hrep, ht⟩ := ih
    exact ⟨fl, rfl, hrep, ht.keep keep⟩

/-- **The slab cache invariant.** For every object size from the size of a pointer on, in
every state of a run: the free list ends and repeats no object, every free or live
object lies in a block the cache was extended by, no two of them overlap, and the
counters count them. -/
theorem cache_sound (law : PagesLaw P taken) (hge : 4 ≤ size) (hlt : size < 2 ^ 32)
    (h : CacheReach P taken size c s blocks live) : ∃ fl, s.mem.Threads c.free fl ∧ fl.Nodup ∧
      (∀ o ∈ fl ++ live, ∃ b ∈ blocks, b ≤ o ∧ o + size ≤ b + btPageAlign size) ∧
      (fl ++ live).Pairwise (ObjApart size) ∧
      c.allocated = live.length ∧ c.available = c.allocated + fl.length := by
  obtain ⟨fl, rfl, hrep, -⟩ := h.inv law hge hlt
  refine ⟨fl, hrep.list, ?_, hrep.inside, hrep.apart, hrep.allocated, hrep.available⟩
  refine (List.pairwise_append.mp hrep.apart).1.imp fun {o o'} hoo he => ?_
  subst he
  unfold ObjApart at hoo
  omega

/-! ## A page allocator in which the law holds

The simplest one: it hands out page after page, and forgets what comes back. -/

/-- Pages from a given page on, without translation; nothing that is given back is
handed out again. -/
def bumpPages : Pages ℕ where
  ram := identityRam
  alloc n e :=
    if n = 0 ∨ e < 4096 ∨ e % 4096 ≠ 0 ∨ 2 ^ 32 ≤ e ∨ 2 ^ 32 < e + btPageAlign n then (0, e)
    else (e, e + btPageAlign n)
  free _ _ e := e

/-- What lies below the next page. -/
def belowNext (e x : ℕ) : Prop := x < e

/-- A page allocator that only goes upwards: what it gives lies behind all it gave before. -/
theorem bumpPages_alloc {n e : ℕ} (h : (bumpPages.alloc n e).1 ≠ 0) :
    bumpPages.alloc n e = (e, e + btPageAlign n) ∧ e % 4096 = 0 ∧ 4096 ≤ e ∧ e < 2 ^ 32 ∧
      e + btPageAlign n ≤ 2 ^ 32 ∧ bumpPages.ram.physToVirt (bumpPages.alloc n e).1 = e := by
  have hcond : ¬ (n = 0 ∨ e < 4096 ∨ e % 4096 ≠ 0 ∨ 2 ^ 32 ≤ e ∨ 2 ^ 32 < e + btPageAlign n) := by
    intro hc
    refine h ?_
    unfold bumpPages
    dsimp only
    rw [if_pos hc]
  have halloc : bumpPages.alloc n e = (e, e + btPageAlign n) := by
    unfold bumpPages
    dsimp only
    rw [if_neg hcond]
  refine ⟨halloc, by omega, by omega, by omega, by omega, ?_⟩
  rw [halloc]
  change (e + 2 ^ 32 - 0 + 0) % 2 ^ 32 = e
  omega

theorem bumpPages_refused {n e : ℕ} (h : (bumpPages.alloc n e).1 = 0) :
    (bumpPages.alloc n e).2 = e := by
  unfold bumpPages at h ⊢
  dsimp only at h ⊢
  split at h
  · rw [if_pos ‹_›]
  · dsimp only at h
    omega

theorem bumpPages_keep {n e x : ℕ} (hx : belowNext e x) : belowNext (bumpPages.alloc n e).2 x := by
  by_cases h : (bumpPages.alloc n e).1 = 0
  · rw [bumpPages_refused h]
    exact hx
  · obtain ⟨halloc, -⟩ := bumpPages_alloc h
    rw [halloc]
    exact Nat.lt_of_lt_of_le hx (Nat.le_add_right _ _)

theorem bumpPages_law : PagesLaw bumpPages belowNext where
  zero e := rfl
  lt n e := by
    by_cases h : (bumpPages.alloc n e).1 = 0
    · rw [h]
      decide
    · obtain ⟨halloc, -, -, hlt, -⟩ := bumpPages_alloc h
      rw [halloc]
      exact hlt
  start n e h := by
    obtain ⟨-, -, hlo, -, -, hv⟩ := bumpPages_alloc h
    rw [hv]
    exact hlo
  stop n e _ h := by
    obtain ⟨-, -, -, -, hend, hv⟩ := bumpPages_alloc h
    rw [hv]
    exact hend
  fresh n e x _ h hlo _ := by
    obtain ⟨-, -, -, -, -, hv⟩ := bumpPages_alloc h
    rw [hv] at hlo
    exact Nat.not_lt.mpr hlo
  take n e x _ h _ hhi := by
    obtain ⟨halloc, -, -, -, -, hv⟩ := bumpPages_alloc h
    rw [hv] at hhi
    rw [halloc]
    exact hhi
  keep _ _ _ _ hx := bumpPages_keep hx
  free p n e x _ _ hx _ := hx

/-- A cache of objects of 100 bytes, one of which is out. -/
theorem cache_sound_hundred : ∃ (c : Cache) (s : Store ℕ) (fl : List ℕ),
    CacheReach bumpPages belowNext 100 c s [4096] [4096] ∧ s.mem.Threads c.free fl ∧
      c.available = c.allocated + fl.length ∧ c.allocated = 1 := by
  have hinit : CacheReach bumpPages belowNext 100
      (initCache bumpPages ⟨0, 0, 0, 0⟩ 100 ⟨fun _ => 0, 4096⟩).2.1
      (initCache bumpPages ⟨0, 0, 0, 0⟩ 100 ⟨fun _ => 0, 4096⟩).2.2 [4096] [] := .init rfl
  have hreach := CacheReach.alloc hinit rfl
  obtain ⟨fl, hlist, -, -, -, halloc, havail⟩ :=
    cache_sound bumpPages_law (by decide) (by decide) hreach
  exact ⟨_, _, fl, hreach, hlist, havail, halloc⟩

end BitThunder
