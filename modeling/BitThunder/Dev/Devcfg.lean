import BitThunder.Lib.Groups
import BitThunder.Mm.Defs

/-!
# Loading the FPGA

`devcfg_write` of `arch/arm/mach/zynq/devcfg.c`. A bitstream is written in chunks of any size and
goes to the DMA engine in words. The first call looks for the sync word, drops what is before it,
and finds out whether the bytes of each word have to be swapped; every call keeps the 0 to 3 bytes
that do not make a word for the next one. The search stops one position early, and it is the first
call only as long as `offset` has not wrapped to 0.

* `loadOf`: what should get to the engine, from the stream alone;
* `devcfg_load_iff`: when it does, for every way to cut the stream into chunks;
* `devcfg_misses_last_sync`: a sync word at the end of the first chunk is not found.

The reference is a function of the stream and knows no chunks. Between two calls the state of the
driver should be what has not made a word yet, and the order of the bytes: the proof that it is goes
by induction over the chunks, with the library's lemma that whole groups of what has waited and what
is new are whole groups of the stream.

The first call is different, and so is every later one that finds `offset` at zero, since that is
how the first call is recognised. The conditions name what such a call may find. A search that stops
a position early misses a sync word at the end of the chunk, and then neither drops nor swaps.
-/

namespace BitThunder

/-- The sync word -/
def syncNormal : List UInt8 := [0x66, 0x55, 0x99, 0xAA]

/-- The sync word, byte-swapped -/
def syncSwapped : List UInt8 := [0xAA, 0x99, 0x55, 0x66]

/-- `struct _BT_OPAQUE_HANDLE`. `residue` are the first `residue_len` bytes of `residue_buf`. -/
structure Devcfg : Type where
  bEndianSwap : Bool
  residue : List UInt8
  offset : ℕ

/-- The handle, as `BT_CreateHandle` clears it. -/
def Devcfg.init : Devcfg := ⟨false, [], 0⟩

/-- The comparisons of the search: the value that `bEndianSwap` gets -/
def syncAt (buf : List UInt8) (i : ℕ) : Option Bool :=
  if (buf.drop i).take 4 = syncNormal then some false
  else if (buf.drop i).take 4 = syncSwapped then some true
  else none

/-- The search, over `n` positions -/
def findSync (buf : List UInt8) (n : ℕ) : Option (ℕ × Bool) :=
  (List.range n).findSome? fun i => (syncAt buf i).map fun swap => (i, swap)

/-- "Check if header?": the value of `bEndianSwap`, and what of `buf` is left with its size -/
def checkHeader (h : Devcfg) (buf : List UInt8) (ulSize : ℕ) : Bool × List UInt8 × ℕ :=
  if h.offset = 0 ∧ 4 < ulSize then
    match findSync buf (ulSize - 4) with
    | some (i, swap) => (swap, buf.drop i, ulSize - i)
    | none => (h.bEndianSwap, buf, ulSize)
  else (h.bEndianSwap, buf, ulSize)

/-- "Fixup the endianness" -/
def fixup (bEndianSwap : Bool) (data : List UInt8) : List UInt8 :=
  if bEndianSwap then mapGroups 4 List.reverse (data.length / 4) data else data

/-- `devcfg_write`: the bytes of the words that go to the DMA engine, and the handle after the call
-/
def devcfgWrite (h : Devcfg) (pBuffer : List UInt8) : List UInt8 × Devcfg :=
  let buf := h.residue ++ pBuffer
  let ulSize := wordAdd pBuffer.length h.residue.length
  let (swap, buf, ulSize) := checkHeader h buf ulSize
  let residueLen := ulSize % 4
  let ulSize := ulSize - residueLen
  (fixup swap (buf.take ulSize), ⟨swap, (buf.drop ulSize).take residueLen,
    wordAdd h.offset pBuffer.length⟩)

/-- What gets to the engine in some calls -/
def devcfgLoad (h : Devcfg) : List (List UInt8) → List UInt8
  | [] => []
  | c :: cs => (devcfgWrite h c).1 ++ devcfgLoad (devcfgWrite h c).2 cs

/-! ## What should get there

The stream is known as a whole: its first sync word decides what is dropped and whether words are
swapped. -/

/-- The bytes of a word, in the order the engine wants them -/
def fixWord (swap : Bool) : List UInt8 → List UInt8 := if swap then List.reverse else id

/-- The first sync word of a stream: where it is, and which of the two -/
def firstSync (stream : List UInt8) : Option (ℕ × Bool) := findSync stream (stream.length - 3)

/-- The stream from its sync word on, cut to whole words, each of them swapped or not -/
def loadOf (stream : List UInt8) (p : ℕ) (swap : Bool) : List UInt8 :=
  whole 4 (fixWord swap) (stream.drop p)

/-- The calls after the first, with `stream` what has been written from the sync word on and
`offset` bytes written in all. In none of them the size wraps; and if `offset` has come back to 0, a
sync word that is found is the first word, and the same as before. -/
def LaterSafe (swap : Bool) (stream : List UInt8) (offset : ℕ) : List (List UInt8) → Prop
  | [] => True
  | c :: cs =>
    ((left 4 stream ++ c).length < 2 ^ 32 ∧
      (offset % 2 ^ 32 = 0 → 4 < (left 4 stream ++ c).length →
        ∀ r, findSync (left 4 stream ++ c) ((left 4 stream ++ c).length - 4) = some r →
          r = (0, swap))) ∧
    LaterSafe swap (stream ++ c) (offset + c.length) cs

/-- The first call finds the sync word, or is just that word and needs nothing of it. -/
def FirstSafe (p : ℕ) (swap : Bool) (c : List UInt8) : Prop :=
  p + 4 < c.length ∨ c.length = 4 ∧ swap = false

/-! ## The search

The search of the source goes over the positions of the first chunk, all but the last one at which
the word would fit. -/

variable {buf xs ys : List UInt8} {n i p : ℕ} {swap : Bool}

/-- There is no sync word exactly if there is none at any position searched. -/
theorem findSync_eq_none : findSync buf n = none ↔ ∀ i < n, syncAt buf i = none := by
  simp [findSync]

/-- The search gives the first match. -/
theorem findSync_eq_some :
    findSync buf n = some (i, swap) ↔ i < n ∧ syncAt buf i = some swap ∧
      ∀ j < i, syncAt buf j = none := by
  induction n with
  | zero => simp [findSync]
  | succ n ih =>
    have hsucc : findSync buf (n + 1) = (findSync buf n).or
        ((syncAt buf n).map fun swap => (n, swap)) := by
      simp [findSync, List.range_succ, List.findSome?_append]
    rw [hsucc]
    cases hfind : findSync buf n with
    | none =>
      have hnone := findSync_eq_none.mp hfind
      rw [Option.none_or]
      constructor
      · intro h
        obtain ⟨swap', hs, he⟩ := Option.map_eq_some_iff.mp h
        obtain ⟨rfl, rfl⟩ := Prod.mk.inj he
        exact ⟨Nat.lt_succ_self n, hs, hnone⟩
      · rintro ⟨hlt, hs, -⟩
        rcases Nat.lt_succ_iff_lt_or_eq.mp hlt with hlt | rfl
        · rw [hnone i hlt] at hs
          exact absurd hs (by simp)
        · rw [hs]
          rfl
    | some r =>
      rw [Option.some_or, ← hfind, ih]
      obtain ⟨j, swap'⟩ := r
      constructor
      · rintro ⟨hlt, h⟩
        exact ⟨Nat.lt_succ_of_lt hlt, h⟩
      · rintro ⟨hlt, hs, hmin⟩
        refine ⟨?_, hs, hmin⟩
        rcases Nat.lt_succ_iff_lt_or_eq.mp hlt with hlt | rfl
        · exact hlt
        · rw [findSync_eq_none.mpr hmin] at hfind
          exact absurd hfind (by simp)

/-- A match looks at four bytes. -/
theorem syncAt_append (h : i + 4 ≤ xs.length) : syncAt (xs ++ ys) i = syncAt xs i := by
  have htake : ((xs ++ ys).drop i).take 4 = (xs.drop i).take 4 := by
    rw [List.drop_append_of_le_length (by omega), List.take_append_of_le_length]
    rw [List.length_drop]
    omega
  rw [syncAt, syncAt, htake]

/-- A word that matches is the sync word, once it is put in order; and no other word is. -/
theorem syncAt_eq_some : syncAt buf i = some swap ↔
    fixWord swap ((buf.drop i).take 4) = syncNormal := by
  unfold syncAt fixWord
  generalize (buf.drop i).take 4 = w
  have hswap : w.reverse = syncNormal ↔ w = syncSwapped := List.reverse_eq_iff
  have hne : syncNormal ≠ syncSwapped := by decide
  cases swap with
  | false =>
    rw [if_neg Bool.false_ne_true, id]
    split_ifs with h₁ h₂
    · simp [h₁]
    · simp [h₁]
    · simp [h₁]
  | true =>
    rw [if_pos rfl, hswap]
    split_ifs with h₁ h₂
    · simp [h₁, hne]
    · simp [h₂]
    · simp [h₂]

/-! ## One call

What has waited and what is new are one list of bytes. Whole words of it go to the engine, and the
rest waits. -/

/-- A swapped word is as long as the word. -/
theorem length_fixWord (swap : Bool) (w : List UInt8) : (fixWord swap w).length = w.length := by
  cases swap with
  | false => rfl
  | true => exact List.length_reverse

/-- What a call does with what the check for a header leaves: whole words go to the engine, and the
rest waits. -/
theorem fixup_whole (swap : Bool) (buf : List UInt8) :
    fixup swap (buf.take (buf.length - buf.length % 4)) = whole 4 (fixWord swap) buf ∧
      (buf.drop (buf.length - buf.length % 4)).take (buf.length % 4) = left 4 buf := by
  have hsub : buf.length - buf.length % 4 = buf.length / 4 * 4 := by omega
  have hlen : (buf.take (buf.length / 4 * 4)).length = buf.length / 4 * 4 := by
    rw [List.length_take]
    omega
  rw [hsub]
  constructor
  · cases swap with
    | false => exact (mapGroups_id _ _).symm
    | true =>
      change mapGroups 4 List.reverse _ _ = mapGroups 4 List.reverse _ _
      rw [hlen, Nat.mul_div_cancel _ (by decide), mapGroups_take _ _ _ _ (Nat.le_refl _)]
  · rw [← length_left]
    exact List.take_length

/-- A call whose size does not wrap and which finds no header: the words go on where they stopped.
-/
theorem devcfgWrite_of_none {h : Devcfg} {c : List UInt8} (hlen : (h.residue ++ c).length < 2 ^ 32)
    (hno : h.offset = 0 → 4 < (h.residue ++ c).length →
      ∀ r, findSync (h.residue ++ c) ((h.residue ++ c).length - 4) = some r →
        r = (0, h.bEndianSwap)) :
    devcfgWrite h c = (whole 4 (fixWord h.bEndianSwap) (h.residue ++ c),
      ⟨h.bEndianSwap, left 4 (h.residue ++ c), wordAdd h.offset c.length⟩) := by
  have hsize : wordAdd c.length h.residue.length = (h.residue ++ c).length := by
    rw [List.length_append] at hlen ⊢
    rw [wordAdd_of_lt (by omega), Nat.add_comm]
  have hcheck : checkHeader h (h.residue ++ c) (h.residue ++ c).length =
      (h.bEndianSwap, h.residue ++ c, (h.residue ++ c).length) := by
    unfold checkHeader
    split_ifs with hc
    · cases hfind : findSync (h.residue ++ c) ((h.residue ++ c).length - 4) with
      | none => rfl
      | some r =>
        rw [hno hc.1 hc.2 r hfind]
        rfl
    · rfl
  obtain ⟨hout, hleft⟩ := fixup_whole h.bEndianSwap (h.residue ++ c)
  simp only [devcfgWrite, hsize, hcheck, hout, hleft]

/-- A call that finds a header. -/
theorem devcfgWrite_of_some {h : Devcfg} {c : List UInt8} (hlen : (h.residue ++ c).length < 2 ^ 32)
    (hoff : h.offset = 0) (hlong : 4 < (h.residue ++ c).length)
    (hfind : findSync (h.residue ++ c) ((h.residue ++ c).length - 4) = some (i, swap)) :
    devcfgWrite h c = (whole 4 (fixWord swap) ((h.residue ++ c).drop i),
      ⟨swap, left 4 ((h.residue ++ c).drop i), wordAdd h.offset c.length⟩) := by
  have hsize : wordAdd c.length h.residue.length = (h.residue ++ c).length := by
    rw [List.length_append] at hlen ⊢
    rw [wordAdd_of_lt (by omega), Nat.add_comm]
  have hcheck : checkHeader h (h.residue ++ c) (h.residue ++ c).length =
      (swap, (h.residue ++ c).drop i, ((h.residue ++ c).drop i).length) := by
    rw [checkHeader, if_pos ⟨hoff, hlong⟩, hfind, List.length_drop]
  obtain ⟨hout, hleft⟩ := fixup_whole swap ((h.residue ++ c).drop i)
  simp only [devcfgWrite, hsize, hcheck, hout, hleft]

theorem length_fixup_le (swap : Bool) (data : List UInt8) :
    (fixup swap data).length ≤ data.length := by
  unfold fixup
  split_ifs
  · rw [length_mapGroups (fun _ => List.length_reverse) _ _ (Nat.div_mul_le_self _ _)]
    exact Nat.div_mul_le_self _ _
  · exact Nat.le_refl _

/-- Looking for the header never makes the chunk longer. -/
theorem checkHeader_size_le (h : Devcfg) (buf : List UInt8) (ulSize : ℕ) :
    (checkHeader h buf ulSize).2.2 ≤ ulSize := by
  unfold checkHeader
  split_ifs
  · split
    · exact Nat.sub_le _ _
    · exact Nat.le_refl _
  · exact Nat.le_refl _

/-- No call makes bytes. -/
theorem devcfgWrite_length (h : Devcfg) (c : List UInt8) :
    (devcfgWrite h c).1.length + (devcfgWrite h c).2.residue.length ≤
      wordAdd c.length h.residue.length := by
  have hsize := checkHeader_size_le h (h.residue ++ c) (wordAdd c.length h.residue.length)
  simp only [devcfgWrite]
  generalize hr : checkHeader h (h.residue ++ c) (wordAdd c.length h.residue.length) = r
  rw [hr] at hsize
  clear hr
  obtain ⟨swap, buf, ulSize⟩ := r
  simp only at hsize ⊢
  have hout := length_fixup_le swap (buf.take (ulSize - ulSize % 4))
  simp only [List.length_take] at hout ⊢
  omega

theorem devcfgLoad_length : ∀ (cs : List (List UInt8)) (h : Devcfg),
    (devcfgLoad h cs).length ≤ h.residue.length + cs.flatten.length
  | [], _ => Nat.zero_le _
  | c :: cs, h => by
    have hcall := devcfgWrite_length h c
    have hrest := devcfgLoad_length cs (devcfgWrite h c).2
    have hword : wordAdd c.length h.residue.length ≤ c.length + h.residue.length := Nat.mod_le _ _
    rw [devcfgLoad, List.length_append, List.flatten_cons, List.length_append]
    omega

/-! ## All calls

The later calls are an induction over the chunks. The first call is put in front of it, and decides
with which bytes and in which order the others go on. -/

/-- The words of a list begin with its first word. -/
theorem take_whole (swap : Bool) (h : 4 ≤ xs.length) (ys : List UInt8) :
    (whole 4 (fixWord swap) xs ++ ys).take 4 = fixWord swap (xs.take 4) := by
  obtain ⟨n, hn⟩ : ∃ n, xs.length / 4 = n + 1 := ⟨xs.length / 4 - 1, by omega⟩
  have hlen : (fixWord swap (xs.take 4)).length = 4 := by
    rw [length_fixWord, List.length_take]
    omega
  rw [whole, hn, mapGroups, List.append_assoc]
  nth_rewrite 1 [← hlen]
  exact List.take_left

/-- The calls after the first. -/
theorem devcfgLoad_later : ∀ (cs : List (List UInt8)) (stream : List UInt8) (offset : ℕ),
    devcfgLoad ⟨swap, left 4 stream, offset % 2 ^ 32⟩ cs = whole 4 (fixWord swap)
    (left 4 stream ++ cs.flatten) ↔
      LaterSafe swap stream offset cs
  | [], stream, offset => by
    have hnil : whole 4 (fixWord swap) (left 4 stream ++ [].flatten) = [] := by
      refine List.eq_nil_of_length_eq_zero ?_
      rw [length_whole (length_fixWord swap), List.flatten_nil, List.append_nil, length_left]
      omega
    rw [hnil]
    exact ⟨fun _ => trivial, fun _ => rfl⟩
  | c :: cs, stream, offset => by
    rw [LaterSafe, List.flatten_cons, ← List.append_assoc, devcfgLoad]
    have hpos : 0 < 4 := by decide
    by_cases hlen : (left 4 stream ++ c).length < 2 ^ 32
    · by_cases hfound : offset % 2 ^ 32 = 0 → 4 < (left 4 stream ++ c).length →
          ∀ r, findSync (left 4 stream ++ c) ((left 4 stream ++ c).length - 4) = some r →
            r = (0, swap)
      · -- the call goes on where the last one stopped
        have hoffset : wordAdd (offset % 2 ^ 32) c.length = (offset + c.length) % 2 ^ 32 := by
          unfold wordAdd
          omega
        have hcall := devcfgWrite_of_none (h := ⟨swap, left 4 stream, offset % 2 ^ 32⟩) hlen hfound
        simp only [← left_append hpos, hoffset] at hcall
        rw [hcall, whole_append hpos (fixWord swap) (left 4 stream ++ c), ← left_append hpos,
          List.append_cancel_left_eq, devcfgLoad_later cs]
        exact ⟨fun h => ⟨⟨hlen, hfound⟩, h⟩, fun h => h.2⟩
      · -- a sync word where there is none
        refine iff_of_false (fun heq => hfound ?_) fun h => hfound h.1.2
        rintro hoff hlong ⟨i, swap'⟩ hfind
        have hcall := devcfgWrite_of_some (h := ⟨swap, left 4 stream, offset % 2 ^ 32⟩) hlen hoff
          hlong hfind
        obtain ⟨hi, hsync, -⟩ := findSync_eq_some.mp hfind
        have htake := congrArg (List.take 4) heq
        rw [hcall, take_whole, syncAt_eq_some.mp hsync, ← List.append_nil (whole _ _ _), take_whole,
          List.take_append_of_le_length hlong.le] at htake
        · have hfirst : findSync (left 4 stream ++ c) ((left 4 stream ++ c).length - 4) =
              some (0, swap) :=
            findSync_eq_some.mpr ⟨Nat.sub_pos_of_lt hlong, syncAt_eq_some.mpr htake.symm,
            fun _ => nofun⟩
          exact Option.some.inj (hfind.symm.trans hfirst)
        · rw [List.length_append]
          omega
        · change 4 ≤ ((left 4 stream ++ c).drop i).length
          rw [List.length_drop]
          omega
    · -- the size wraps
      refine iff_of_false (fun heq => ?_) fun h => hlen h.1.1
      have hcall := devcfgWrite_length ⟨swap, left 4 stream, offset % 2 ^ 32⟩ c
      have hrest := devcfgLoad_length cs (devcfgWrite ⟨swap, left 4 stream, offset % 2 ^ 32⟩ c).2
      have htotal := congrArg List.length heq
      rw [length_whole (length_fixWord swap), List.length_append, List.length_append] at htotal
      rw [List.length_append] at hlen htotal
      simp only [wordAdd] at hcall
      omega

/-- What the first call has to find, in the first chunk alone -/
theorem syncAt_of_firstSync {c rest : List UInt8} (hfirst : firstSync (c ++ rest) = some (p, swap))
    (hp : p + 4 ≤ c.length) : syncAt c p = some swap ∧ ∀ j < p, syncAt c j = none := by
  obtain ⟨-, hsync, hmin⟩ := findSync_eq_some.mp hfirst
  rw [syncAt_append hp] at hsync
  refine ⟨hsync, fun j hj => ?_⟩
  have hj' := hmin j hj
  rwa [syncAt_append (by omega)] at hj'

/-- A safe first call -/
theorem devcfgWrite_first {c : List UInt8} (hsync : syncAt c p = some swap)
    (hmin : ∀ j < p, syncAt c j = none) (hp : p + 4 ≤ c.length) (hsize : c.length < 2 ^ 32)
    (hsafe : FirstSafe p swap c) :
    devcfgWrite .init c = (whole 4 (fixWord swap) (c.drop p),
      ⟨swap, left 4 (c.drop p), c.length % 2 ^ 32⟩) := by
  have hoffset : wordAdd 0 c.length = c.length % 2 ^ 32 := by rw [wordAdd, Nat.zero_add]
  rcases hsafe with hroom | ⟨hfour, rfl⟩
  · have hcall := devcfgWrite_of_some (h := Devcfg.init) (c := c) hsize rfl
      (by change 4 < c.length; omega)
      (findSync_eq_some.mpr ⟨by change p < c.length - 4; omega, hsync, hmin⟩)
    rw [hcall]
    exact congrArg _ (congrArg _ hoffset)
  · obtain rfl : p = 0 := by omega
    have hcall := devcfgWrite_of_none (h := Devcfg.init) (c := c) hsize fun _ hlong => by
      change 4 < c.length at hlong
      omega
    rw [hcall]
    exact congrArg _ (congrArg _ hoffset)

/-- An unsafe first call begins with something else than the sync word. -/
theorem devcfgWrite_first_unsafe {c : List UInt8} (hsync : syncAt c p = some swap)
    (hmin : ∀ j < p, syncAt c j = none) (hp : p + 4 ≤ c.length) (hsize : c.length < 2 ^ 32)
    (hsafe : ¬FirstSafe p swap c) (rest : List UInt8) :
    ((devcfgWrite .init c).1 ++ rest).take 4 ≠ syncNormal := by
  have hend : c.length = p + 4 := by
    by_contra hne
    exact hsafe (.inl (by omega))
  have hcall := devcfgWrite_of_none (h := Devcfg.init) (c := c) hsize fun _ _ r hfind => by
    have hnone : findSync c (c.length - 4) = none :=
      findSync_eq_none.mpr fun i hi => hmin i (by omega)
    exact absurd (hnone.symm.trans hfind) (by simp)
  have hout : (devcfgWrite .init c).1 = whole 4 (fixWord false) c := congrArg Prod.fst hcall
  rw [hout, take_whole _ (by omega)]
  intro heq
  have hzero : syncAt c 0 = some false := syncAt_eq_some.mpr heq
  rcases Nat.eq_zero_or_pos p with rfl | hpos
  · obtain rfl : swap = false := Option.some.inj (hsync.symm.trans hzero)
    exact hsafe (.inr ⟨hend, rfl⟩)
  · rw [hmin 0 hpos] at hzero
    exact absurd hzero (by simp)

/-- **When loading does not depend on the chunks.** Let a stream be cut into chunks of which the
first holds the first sync word. What gets to the engine is the stream from that word on, in whole
words and swapped if need be, if and only if the sync word is not the end of the first chunk (unless
it is all of it, and not swapped), no later call's size wraps with the bytes that wait, and no later
call that comes at a multiple of `2 ^ 32` bytes finds another sync word. -/
theorem devcfg_load_iff {c : List UInt8} {cs : List (List UInt8)}
    (hfirst : firstSync (c ++ cs.flatten) = some (p, swap)) (hp : p + 4 ≤ c.length)
    (hsize : c.length < 2 ^ 32) :
    devcfgLoad .init (c :: cs) = loadOf (c ++ cs.flatten) p swap ↔
      FirstSafe p swap c ∧ LaterSafe swap (c.drop p) c.length cs := by
  obtain ⟨hsync, hmin⟩ := syncAt_of_firstSync hfirst hp
  have hdrop : (c ++ cs.flatten).drop p = c.drop p ++ cs.flatten :=
    List.drop_append_of_le_length (by omega)
  rw [loadOf, hdrop, devcfgLoad]
  by_cases hsafe : FirstSafe p swap c
  · rw [devcfgWrite_first hsync hmin hp hsize hsafe,
      whole_append (by decide), List.append_cancel_left_eq,
      devcfgLoad_later]
    exact ⟨fun h => ⟨hsafe, h⟩, fun h => h.2⟩
  · refine iff_of_false (fun heq => ?_) fun h => hsafe h.1
    have hother := devcfgWrite_first_unsafe hsync hmin hp hsize hsafe
      (devcfgLoad (devcfgWrite .init c).2 cs)
    rw [heq] at hother
    refine hother ?_
    have hlong : 4 ≤ (c.drop p).length := by
      rw [List.length_drop]
      omega
    rw [← List.append_nil (whole _ _ _), take_whole _ (by rw [List.length_append]; omega),
      List.take_append_of_le_length hlong]
    exact syncAt_eq_some.mp hsync

/-- A preamble of one byte, the swapped sync word and one word more, in chunks of six, two and one
-/
theorem devcfg_load_iff_three_chunks :
    devcfgLoad .init [[0xFF, 0xAA, 0x99, 0x55, 0x66, 1], [2, 3], [4]] =
    [0x66, 0x55, 0x99, 0xAA, 4, 3, 2, 1] := by
  have hfirst : firstSync ([0xFF, 0xAA, 0x99, 0x55, 0x66, 1] ++ [[2, 3], [4]].flatten) =
      some (1, true) := by decide
  refine (devcfg_load_iff hfirst (by decide) (by decide)).mpr ⟨.inl (by decide), ?_, ?_, trivial⟩
  · exact ⟨by decide, fun h => absurd h (by decide)⟩
  · exact ⟨by decide, fun h => absurd h (by decide)⟩

/-- The same stream with the end of the first chunk behind the sync word: nothing is dropped, and
nothing swapped. -/
theorem devcfg_misses_last_sync :
    let c : List UInt8 := [0xFF, 0xAA, 0x99, 0x55, 0x66]
    let cs : List (List UInt8) := [[1, 2, 3, 4]]
    firstSync (c ++ cs.flatten) = some (1, true) ∧ 1 + 4 ≤ c.length ∧
      devcfgLoad .init (c :: cs) ≠ loadOf (c ++ cs.flatten) 1 true :=
  ⟨by decide, by decide, by decide⟩

end BitThunder
