import BitThunder.Fs.Path
import BitThunder.Lib.CString

/-!
# The buffer of an absolute path

`to_absolute_path` once more, now on the bytes of the buffer of `BT_PATH_MAX` bytes that its
callers allocate. Offsets count from the start of the buffer, as words; which of them the
function writes and reads is recorded, those outside of the buffer too.

The length test is made before the separators are appended.

* `toAbsolutePathBytes_filled`: what the function leaves, if it does not read in front of the
  buffer;
* `absolute_path_fits_iff`: for which strings everything stays in the buffer;
* `Spells.toAbsolutePath_fault_iff`, `Spells.toAbsolutePath_ok`: the function on lists says the
  same.

`strncpy` fills the buffer with zeros, so that a path that is as long as the buffer is not
terminated in it, and the string functions that follow run on into whatever comes behind. What they
do there is determined: the offsets are words, and the memory behind the buffer is arbitrary but
given. The invariant `Filled` says that the buffer holds a string and that what was written is the
buffer and the string; if the string is longer than the buffer, that is the overrun.

The last section ties this to the function on lists. The two are about the same strings, character
by character, and a list that does not fit corresponds to an offset outside of the buffer that was
read or written. So nothing was lost by working with lists everywhere else.
-/

namespace BitThunder

open Memory

/-! ## The function

The same function on bytes. What is written and what is read is recorded, since a read in front of
the buffer leaves no other trace. -/

/-- `'/'` -/
def slash : UInt8 := 0x2F

/-- `'\\'` -/
def backslash : UInt8 := 0x5C

/-- The bytes from the start of a buffer on, and the offsets that were written and read. -/
structure PathBuffer : Type where
  bytes : Memory
  wrote : ℕ → Bool
  looked : ℕ → Bool

namespace PathBuffer

/-- A buffer that has just been allocated. -/
def fresh (bytes : Memory) : PathBuffer := ⟨bytes, fun _ => false, fun _ => false⟩

/-- `buf[i]` is read. -/
def look (b : PathBuffer) (i : ℕ) : PathBuffer := { b with looked := fun j => b.looked j || j = i }

/-- `buf[i] = c` -/
def put (b : PathBuffer) (i : ℕ) (c : UInt8) : PathBuffer :=
  { b with
    bytes := fun j => if j = i then c else b.bytes j
    wrote := fun j => b.wrote j || j = i }

/-- `strncpy(buf, src, len)` -/
def strncpy (b : PathBuffer) (src : Memory) (len : ℕ) : PathBuffer :=
  { b with
    bytes := b.bytes.strncpy src len
    wrote := fun j => b.wrote j || decide (j < len) }

/-- `strcat(buf, src)`: the end of the string is looked for, and `src` is copied there with
its zero. -/
def strcat (b : PathBuffer) (src : Memory) : PathBuffer where
  bytes := b.bytes.overlay b.bytes.strlen (src.strlen + 1) src
  wrote j := b.wrote j || decide (b.bytes.strlen ≤ j ∧ j ≤ b.bytes.strlen + src.strlen)
  looked j := b.looked j || decide (j ≤ b.bytes.strlen)

/-- The last loop of `to_absolute_path`, from the offset `p` on. In a memory of `2 ^ 32` bytes
it ends somewhere. -/
def slashLoop : ℕ → ℕ → PathBuffer → PathBuffer
  | 0, _, b => b
  | fuel + 1, p, b =>
    if b.bytes p = 0 then b.look p
    else slashLoop fuel (p + 1) (if b.bytes p = backslash then (b.look p).put p slash else b.look p)

end PathBuffer

/-- The string `"/"` -/
def slashText : Memory := ofText [slash]

/-- `to_absolute_path`, up to its last loop, once the lengths have passed the test. -/
def buildPath (cwd path : Memory) (len : ℕ) (isDir : Bool) (b : PathBuffer) : PathBuffer :=
  let b :=
    if path 0 ≠ slash ∧ path 0 ≠ backslash then
      let b := b.strncpy cwd len
      let last := wordSub cwd.strlen 1
      let b := if b.bytes last ≠ slash then (b.look last).strcat slashText else b.look last
      b.strcat path
    else b.strncpy path len
  if isDir ∧ 1 < path.strlen then b.strcat slashText else b

/-- `to_absolute_path`: its error, and the buffer. -/
def toAbsolutePathBytes (cwd path : Memory) (len : ℕ) (isDir : Bool) (b : PathBuffer) :
    ℕ × PathBuffer :=
  if btPathMax ≤ wordAdd path.strlen cwd.strlen then (errGeneric, b)
  else (0, (buildPath cwd path len isDir b).slashLoop (2 ^ 32) 0)

/-! ## What should be in the buffer

The texts are as long as they are, and the conditions on their lengths are in natural numbers. -/

/-- The two strings of a call, in a memory of `2 ^ 32` bytes. -/
structure PathTexts : Type where
  cwd : List UInt8
  path : List UInt8
  cwd_noNul : 0 ∉ cwd
  path_noNul : 0 ∉ path
  cwd_lt : cwd.length < btPathMax
  short : path.length + cwd.length < 2 ^ 32

namespace PathTexts

variable (t : PathTexts) (isDir : Bool)

/-- The path starts with a separator. -/
def Absolute : Prop := t.path.head? = some slash ∨ t.path.head? = some backslash

instance : Decidable t.Absolute := inferInstanceAs (Decidable (_ ∨ _))

/-- The path, or the current directory, one separator (the one it ends in, if it does) and
the path. -/
def joined : List UInt8 :=
  if t.Absolute then t.path
  else if t.cwd.getLast? = some slash then t.cwd ++ t.path
  else t.cwd ++ [slash] ++ t.path

/-- The same with the separator of a directory. -/
def full : List UInt8 := if isDir ∧ 1 < t.path.length then t.joined ++ [slash] else t.joined

/-- The absolute path: with every backslash turned around. -/
def absolute : List UInt8 := (t.full isDir).map fun c => if c = backslash then slash else c

/-- Its length. -/
def fullLength : ℕ :=
  (if t.Absolute then 0 else t.cwd.length + if t.cwd.getLast? = some slash then 0 else 1) +
  t.path.length +
    if isDir ∧ 1 < t.path.length then 1 else 0

/-- A relative path needs room for the working directory and a separator as well. -/
theorem length_joined : t.joined.length = (if t.Absolute then 0 else
    t.cwd.length + if t.cwd.getLast? = some slash then 0 else 1) + t.path.length := by
  unfold joined
  split_ifs
  · rw [Nat.zero_add]
  · rw [List.length_append, Nat.add_zero]
  · rw [List.length_append, List.length_append, List.length_singleton]

theorem length_full : (t.full isDir).length = t.fullLength isDir := by
  unfold full fullLength
  rw [← length_joined]
  split_ifs
  · rw [List.length_append, List.length_singleton]
  · rfl

/-- The text has the length that the conditions are about. -/
theorem length_absolute : (t.absolute isDir).length = t.fullLength isDir := by
  rw [absolute, List.length_map, length_full]

end PathTexts

/-- The buffer after a call that went well. -/
structure PathInBuffer (text : List UInt8) (b : PathBuffer) : Prop where
  /-- the buffer holds the text -/
  holds : b.bytes.HoldsText text
  /-- it fits, with its terminator -/
  short : text.length < btPathMax
  /-- nothing was written outside of the buffer -/
  wrote : ∀ j, b.wrote j = true → j < btPathMax
  /-- and nothing was read there -/
  looked : ∀ j, b.looked j = true → j < btPathMax

/-- Wherever the strings are and whatever is in the buffer: `to_absolute_path` returns an error
or leaves the absolute path, and stays in the buffer. -/
def AbsolutePathFits (t : PathTexts) (isDir : Bool) : Prop :=
  ∀ cwd path bytes : Memory, cwd.HoldsText t.cwd → path.HoldsText t.path →
    (toAbsolutePathBytes cwd path btPathMax isDir (.fresh bytes)).1 ≠ 0 ∨
      PathInBuffer (t.absolute isDir)
      (toAbsolutePathBytes cwd path btPathMax isDir (.fresh bytes)).2

/-- The test refuses the strings; or a path that is not absolute has a current directory to
start from, and what is built is shorter than the buffer. -/
def BufferSuffices (t : PathTexts) (isDir : Bool) : Prop :=
  btPathMax ≤ t.path.length + t.cwd.length ∨
    (t.Absolute ∨ t.cwd ≠ []) ∧ t.fullLength isDir < btPathMax

/-! ## What is left in the buffer

Each string function is followed on a buffer that holds a text, whether or not this text ends within
the buffer. -/

section Buffer

variable {m src bytes : Memory} {b : PathBuffer} {l r : List UInt8} {c : UInt8} {len n i : ℕ}

/-- A buffer holds a text if it has its characters and then a terminator. -/
theorem holdsText_iff_getD : m.HoldsText l ↔ ∀ i ≤ l.length, m i = l.getD i 0 := by
  constructor
  · rintro ⟨hbegins, hend⟩ i hi
    rcases hi.lt_or_eq with hlt | rfl
    · rw [hbegins i hlt, List.getD_eq_getElem]
    · rw [hend, List.getD_eq_default _ _ le_rfl]
  · intro h
    refine ⟨fun i hi => ?_, ?_⟩
    · rw [h i hi.le, List.getD_eq_getElem]
    · rw [h _ le_rfl, List.getD_eq_default _ _ le_rfl]

/-- The buffer holds a string, and what has been written is the buffer and the string. -/
structure Filled (b : PathBuffer) (l : List UInt8) : Prop where
  /-- the buffer holds the text -/
  holds : b.bytes.HoldsText l
  /-- all of the buffer was written, and as far as the text goes -/
  wrote : ∀ j, b.wrote j = true ↔ j < btPathMax ∨ j ≤ l.length

/-- Nothing from `n` on has been read. -/
def LooksBelow (b : PathBuffer) (n : ℕ) : Prop := ∀ j, b.looked j = true → j < n

theorem LooksBelow.mono {k : ℕ} (h : LooksBelow b n) (hle : n ≤ k) : LooksBelow b k :=
  fun j hj => (h j hj).trans_le hle

/-- To look at a byte within the bound stays within it. -/
theorem LooksBelow.look (h : LooksBelow b n) (hi : i < n) : LooksBelow (b.look i) n := by
  intro j hj
  rcases Bool.or_eq_true_iff.mp hj with hj | hj
  · exact h j hj
  · rw [decide_eq_true_eq] at hj
    omega

/-- To append to a string that ends within the bound looks no further. -/
theorem LooksBelow.strcat (h : LooksBelow b n) (hlt : b.bytes.strlen < n) :
    LooksBelow (b.strcat src) n := by
  intro j hj
  rcases Bool.or_eq_true_iff.mp hj with hj | hj
  · exact h j hj
  · rw [decide_eq_true_eq] at hj
    omega

theorem Filled.look (h : Filled b l) : Filled (b.look i) l := ⟨h.holds, h.wrote⟩

/-- A string that is shorter than the buffer is copied with its zero. -/
theorem filled_strncpy (hnul : 0 ∉ l) (hlt : l.length < btPathMax) (h : src.HoldsText l) :
    Filled ((PathBuffer.fresh bytes).strncpy src btPathMax) l := by
  refine ⟨strncpy_holds hnul hlt h, fun j => ?_⟩
  change (false || decide (j < btPathMax)) = true ↔ _
  rw [Bool.false_or, decide_eq_true_eq]
  omega

/-- A string is appended with its zero. -/
theorem Filled.strcat (h : Filled b l) (hl : 0 ∉ l) (hr : 0 ∉ r) (hsrc : src.HoldsText r)
    (hlt : l.length + r.length < 2 ^ 32) : Filled (b.strcat src) (l ++ r) := by
  have hstop : b.bytes.strlen = l.length := strlen_of_holds hl (by omega) h.holds
  have hn : src.strlen = r.length := strlen_of_holds hr (by omega) hsrc
  constructor
  · rw [holdsText_iff_getD, List.length_append]
    intro i hi
    change b.bytes.overlay b.bytes.strlen (src.strlen + 1) src i = _
    rw [hstop, hn]
    by_cases hil : i < l.length
    · rw [overlay_of_out (.inl hil), List.getD_append _ _ _ _ hil]
      exact holdsText_iff_getD.mp h.holds i hil.le
    · obtain ⟨k, rfl⟩ : ∃ k, i = l.length + k := ⟨i - l.length, by omega⟩
      rw [overlay_of_in
        (by omega), List.getD_append_right _ _ _ _ (by omega), Nat.add_sub_cancel_left]
      exact holdsText_iff_getD.mp hsrc k (by omega)
  · intro j
    change (b.wrote j || decide (b.bytes.strlen ≤ j ∧ j ≤ b.bytes.strlen + src.strlen)) = true ↔ _
    rw [Bool.or_eq_true_iff, h.wrote j, decide_eq_true_eq, hstop, hn, List.length_append]
    omega

theorem PathBuffer.put_self {p : ℕ} : (b.put p c).bytes p = c := if_pos rfl

theorem PathBuffer.put_of_ne {p : ℕ} (h : i ≠ p) : (b.put p c).bytes i = b.bytes i := if_neg h

/-- A byte in the middle of the string is overwritten. -/
theorem Filled.put (h : Filled b (l ++ c :: r)) (c' : UInt8) :
    Filled (b.put l.length c') (l ++ c' :: r) := by
  have hlen : (l ++ c' :: r).length = (l ++ c :: r).length := by simp
  constructor
  · rw [holdsText_iff_getD, hlen]
    intro i hi
    rcases lt_trichotomy i l.length with hlt | rfl | hgt
    · rw [PathBuffer.put_of_ne hlt.ne, List.getD_append _ _ _ _ hlt,
        holdsText_iff_getD.mp h.holds i hi, List.getD_append _ _ _ _ hlt]
    · rw [List.getD_append_right _ _ _ _ le_rfl, Nat.sub_self, List.getD_cons_zero,
        PathBuffer.put_self]
    · obtain ⟨k, rfl⟩ : ∃ k, i = l.length + (k + 1) := ⟨i - l.length - 1, by omega⟩
      rw [PathBuffer.put_of_ne hgt.ne', holdsText_iff_getD.mp h.holds _ hi,
        List.getD_append_right _ _ _ _ (by omega), List.getD_append_right _ _ _ _ (by omega),
        Nat.add_sub_cancel_left, List.getD_cons_succ, List.getD_cons_succ]
  · intro j
    change (b.wrote j || decide (j = l.length)) = true ↔ _
    rw [Bool.or_eq_true_iff, h.wrote j, decide_eq_true_eq, hlen]
    have : l.length < (l ++ c :: r).length := by simp
    omega

/-- The last loop turns the backslashes of the rest of the string around. -/
theorem Filled.slashLoop (h : Filled b (l ++ r)) (fuel : ℕ) (hr : 0 ∉ r) (hfuel : r.length < fuel)
    (hlook : LooksBelow b n) (hn : l.length + r.length < n) :
    Filled (b.slashLoop fuel l.length) (l ++ r.map fun c => if c = backslash then slash else c) ∧
      LooksBelow (b.slashLoop fuel l.length) n := by
  induction r generalizing l b fuel with
  | nil =>
    obtain ⟨fuel, rfl⟩ := Nat.exists_eq_succ_of_ne_zero (Nat.ne_of_gt hfuel)
    have hzero : b.bytes l.length = 0 := by
      have := h.holds.2
      rwa [List.append_nil] at this
    rw [PathBuffer.slashLoop, if_pos hzero]
    exact ⟨h.look, hlook.look (by simpa using hn)⟩
  | cons c r ih =>
    obtain ⟨fuel, rfl⟩ := Nat.exists_eq_succ_of_ne_zero (Nat.ne_of_gt (Nat.zero_lt_of_lt hfuel))
    rw [List.length_cons] at hn hfuel
    have hc : b.bytes l.length = c := by
      have := holdsText_iff_getD.mp h.holds l.length (by simp)
      rwa [List.getD_append_right _ _ _ _ le_rfl, Nat.sub_self, List.getD_cons_zero] at this
    have hne : c ≠ 0 := fun he => hr (he ▸ List.mem_cons_self)
    have hlook' : LooksBelow (b.look l.length) n := hlook.look (by omega)
    -- the byte that is left behind
    have key : ∀ (b' : PathBuffer) (c' : UInt8), Filled b' (l ++ c' :: r) → LooksBelow b' n →
        Filled (b'.slashLoop fuel (l.length + 1)) (l ++ c' :: r.map fun c => if c = backslash
        then slash else c) ∧
          LooksBelow (b'.slashLoop fuel (l.length + 1)) n := by
      intro b' c' hb' hlk
      have := ih (l := l ++ [c']) (b := b') (by simpa using hb') fuel
        (fun hm => hr (List.mem_cons_of_mem _ hm)) (by omega) hlk (by simp; omega)
      simpa using this
    rw [PathBuffer.slashLoop, hc, if_neg hne, List.map_cons]
    by_cases hb : c = backslash
    · rw [if_pos hb, if_pos hb]
      exact key _ slash (h.look.put slash) hlook'
    · rw [if_neg hb, if_neg hb]
      exact key _ c h.look hlook'

end Buffer

/-! ## The whole function

The steps are put together for a path that is absolute and for one that is joined to the current
directory. -/

section Build

variable {t : PathTexts} {isDir : Bool} {cwd path bytes src : Memory} {b : PathBuffer}
  {i j fuel p : ℕ}

theorem slashText_holds : slashText.HoldsText [slash] := ofText_holds [slash]

theorem slash_noNul : (0 : UInt8) ∉ [slash] := by decide

theorem PathTexts.joined_noNul (t : PathTexts) : 0 ∉ t.joined := by
  have h₁ := t.cwd_noNul
  have h₂ := t.path_noNul
  unfold joined
  split_ifs
  · exact h₂
  · simp [h₁, h₂]
  · simp [h₁, h₂, slash]

/-- The test on the first byte. -/
theorem path_relative_iff (hp : path.HoldsText t.path) :
    (path 0 ≠ slash ∧ path 0 ≠ backslash) ↔ ¬ t.Absolute := by
  have h₀ := holdsText_iff_getD.mp hp 0 (Nat.zero_le _)
  unfold PathTexts.Absolute
  rw [h₀]
  cases t.path with
  | nil => simp [slash, backslash]
  | cons c l => simp

/-- The length of the path is that of its text. -/
theorem strlen_path (hp : path.HoldsText t.path) : path.strlen = t.path.length := by
  have := t.short
  exact strlen_of_holds t.path_noNul (by omega) hp

theorem strlen_cwd (hc : cwd.HoldsText t.cwd) : cwd.strlen = t.cwd.length := by
  have := t.short
  exact strlen_of_holds t.cwd_noNul (by omega) hc

/-- The path, or the current directory and the path, is in the buffer. -/
theorem joined_filled (bytes : Memory) (hc : cwd.HoldsText t.cwd) (hp : path.HoldsText t.path)
    (hlen : t.path.length + t.cwd.length < btPathMax) (hstart : t.Absolute ∨ t.cwd ≠ []) :
    ∃ b : PathBuffer, (∀ isDir : Bool, buildPath cwd path btPathMax isDir (.fresh bytes) =
        if isDir ∧ 1 < t.path.length then b.strcat slashText else b) ∧
      Filled b t.joined ∧ LooksBelow b (t.joined.length + 1) := by
  have hnone : ∀ n, LooksBelow (PathBuffer.fresh bytes) n := fun n j hj => by cases hj
  have hcwd := t.cwd_lt
  unfold btPathMax at *
  unfold buildPath
  rw [strlen_path hp, strlen_cwd hc]
  by_cases habs : t.Absolute
  · rw [if_neg fun h => (path_relative_iff hp).mp h habs]
    refine ⟨_, fun _ => rfl, ?_⟩
    rw [PathTexts.joined, if_pos habs]
    exact ⟨filled_strncpy t.path_noNul (by unfold btPathMax; omega) hp, hnone _⟩
  · have hne : t.cwd ≠ [] := hstart.resolve_left habs
    have hpos := List.length_pos_of_ne_nil hne
    rw [if_pos ((path_relative_iff hp).mpr habs), wordSub_of_le hpos (by omega)]
    have h₁ : Filled ((PathBuffer.fresh bytes).strncpy cwd 2600) t.cwd :=
      filled_strncpy t.cwd_noNul t.cwd_lt hc
    have hlast : ((PathBuffer.fresh bytes).strncpy cwd 2600).bytes (t.cwd.length - 1) = slash ↔
        t.cwd.getLast? = some slash := by
      rw [holdsText_iff_getD.mp h₁.holds _ (Nat.sub_le _ _), List.getLast?_eq_getElem?,
        List.getD_eq_getElem?_getD]
      rw [List.getElem?_eq_getElem (by omega)]
      simp
    have hlook : LooksBelow (((PathBuffer.fresh bytes).strncpy cwd 2600).look (t.cwd.length - 1))
        t.cwd.length :=
      LooksBelow.look (hnone _) (by omega)
    have hstop : ((PathBuffer.fresh bytes).strncpy cwd 2600).bytes.strlen = t.cwd.length :=
      strlen_of_holds t.cwd_noNul (by omega) h₁.holds
    refine ⟨_, fun _ => rfl, ?_⟩
    dsimp only
    rw [PathTexts.joined, if_neg habs]
    by_cases hs : t.cwd.getLast? = some slash
    · rw [if_pos hs, if_neg (not_not.mpr (hlast.mpr hs))]
      refine ⟨h₁.look.strcat t.cwd_noNul t.path_noNul hp (by omega), ?_⟩
      refine (hlook.mono ?_).strcat ?_
      · rw [List.length_append]
        omega
      · rw [List.length_append]
        exact (hstop.trans_lt (by omega))
    · rw [if_neg hs, if_pos fun h => hs (hlast.mp h)]
      have h₂ := h₁.look (i := t.cwd.length - 1) |>.strcat t.cwd_noNul slash_noNul slashText_holds
        (by simp; omega)
      have hnul : 0 ∉ t.cwd ++ [slash] := by simp [t.cwd_noNul, slash]
      have hstop₂ := strlen_of_holds hnul (by simp; omega) h₂.holds
      refine ⟨h₂.strcat hnul t.path_noNul hp (by simp; omega), ?_⟩
      refine LooksBelow.strcat ?_ ?_
      · refine (hlook.mono ?_).strcat ?_
        · simp
          omega
        · exact hstop.trans_lt (by simp)
      · exact hstop₂.trans_lt (by simp)

/-- **What the function leaves**, unless it refuses the strings or reads in front of the
buffer: the absolute path, from the start of the buffer on. -/
theorem toAbsolutePathBytes_filled (bytes : Memory) (hc : cwd.HoldsText t.cwd)
    (hp : path.HoldsText t.path) (hlen : t.path.length + t.cwd.length < btPathMax)
    (hstart : t.Absolute ∨ t.cwd ≠ []) (isDir : Bool) :
    ∃ b, toAbsolutePathBytes cwd path btPathMax isDir (.fresh bytes) = (0, b) ∧
      Filled b (t.absolute isDir) ∧ LooksBelow b (t.fullLength isDir + 1) := by
  obtain ⟨b, hbuild, hb, hlook⟩ := joined_filled bytes hc hp hlen hstart
  have hfull : Filled (buildPath cwd path btPathMax isDir (.fresh bytes)) (t.full isDir) ∧
      LooksBelow (buildPath cwd path btPathMax isDir (.fresh bytes)) ((t.full isDir).length + 1) ∧
      0 ∉ t.full isDir := by
    have hjoined := t.length_joined
    have hcwd := t.cwd_lt
    have hlt : t.joined.length < 2 ^ 31 := by
      unfold btPathMax at *
      rw [hjoined]
      split_ifs <;> omega
    rw [hbuild isDir]
    unfold PathTexts.full
    split_ifs
    · have hstop := strlen_of_holds t.joined_noNul (by omega) hb.holds
      refine ⟨hb.strcat t.joined_noNul slash_noNul slashText_holds (by simp; omega), ?_, ?_⟩
      · refine (hlook.mono ?_).strcat ?_
        · simp
        · exact hstop.trans_lt (by simp)
      · simp [t.joined_noNul, slash]
    · exact ⟨hb, hlook, t.joined_noNul⟩
  obtain ⟨h₁, h₂, h₃⟩ := hfull
  have hlen' := t.length_absolute isDir
  have hfit : (t.full isDir).length < 2 ^ 32 := by
    have hcwd := t.cwd_lt
    unfold PathTexts.absolute at hlen'
    rw [List.length_map] at hlen'
    unfold btPathMax at *
    unfold PathTexts.fullLength at hlen'
    split_ifs at hlen' <;> omega
  have hloop := h₁.slashLoop (l := []) (2 ^ 32) h₃ hfit h₂ (by
    rw [List.length_nil, Nat.zero_add]
    exact Nat.lt_succ_self _)
  unfold toAbsolutePathBytes
  rw [strlen_path hp, strlen_cwd hc, wordAdd_of_lt t.short, if_neg (not_le.mpr hlen)]
  refine ⟨_, rfl, hloop.1, ?_⟩
  unfold PathTexts.absolute at hlen'
  rw [List.length_map] at hlen'
  rw [← hlen']
  exact hloop.2

/-! ## When everything stays in the buffer

Three things can happen outside: a read in front of the buffer, a text that is as long as the
buffer, and a separator that is put behind a text which just fits. -/

theorem looked_strcat (h : b.looked j = true) : (b.strcat src).looked j = true := by
  change (b.looked j || _) = true
  rw [h, Bool.true_or]

/-- The loop over the backslashes does not take it back. -/
theorem looked_slashLoop (fuel p : ℕ) (h : b.looked j = true) :
    (b.slashLoop fuel p).looked j = true := by
  induction fuel generalizing p b with
  | zero => exact h
  | succ fuel ih =>
    have hlook : (b.look p).looked j = true := by
      change (b.looked j || _) = true
      rw [h, Bool.true_or]
    unfold PathBuffer.slashLoop
    split_ifs
    · exact hlook
    · exact ih _ hlook
    · exact ih _ hlook

/-- Without a current directory to start from, the byte in front of the buffer is read. -/
theorem looked_in_front (bytes : Memory) (hc : cwd.HoldsText t.cwd) (hp : path.HoldsText t.path)
    (hrel : ¬ t.Absolute) (hnil : t.cwd = []) (isDir : Bool) :
    (buildPath cwd path btPathMax isDir (.fresh bytes)).looked (2 ^ 32 - 1) = true := by
  have hlast : wordSub cwd.strlen 1 = 2 ^ 32 - 1 := by
    rw [strlen_cwd hc, hnil]
    decide
  have hlook : ∀ b : PathBuffer, (b.look (2 ^ 32 - 1)).looked (2 ^ 32 - 1) = true := by
    intro b
    change (b.looked _ || decide (_ = _)) = true
    simp
  unfold buildPath
  rw [if_pos ((path_relative_iff hp).mpr hrel), hlast]
  dsimp only
  split_ifs
  · exact looked_strcat (looked_strcat (looked_strcat (hlook _)))
  · exact looked_strcat (looked_strcat (hlook _))
  · exact looked_strcat (looked_strcat (hlook _))
  · exact looked_strcat (hlook _)

/-- Strings that are too long together are refused. -/
theorem toAbsolutePathBytes_refused (hc : cwd.HoldsText t.cwd) (hp : path.HoldsText t.path)
    (hlen : btPathMax ≤ t.path.length + t.cwd.length) :
    (toAbsolutePathBytes cwd path btPathMax isDir b).1 ≠ 0 := by
  unfold toAbsolutePathBytes
  rw [strlen_path hp, strlen_cwd hc, wordAdd_of_lt t.short, if_pos hlen]
  exact errGeneric_ne_zero

/-- **When the absolute path fits its buffer.** For every current directory and every path. -/
theorem absolute_path_fits_iff (t : PathTexts) (isDir : Bool) :
    AbsolutePathFits t isDir ↔ BufferSuffices t isDir := by
  constructor
  · intro h
    refine or_iff_not_imp_left.mpr fun hlen => ?_
    have hlen : t.path.length + t.cwd.length < btPathMax := not_le.mp hlen
    have hc := ofText_holds t.cwd
    have hp := ofText_holds t.path
    have hstart : t.Absolute ∨ t.cwd ≠ [] := by
      by_contra hno
      obtain ⟨hrel, hnil⟩ := not_or.mp hno
      have hnil : t.cwd = [] := not_not.mp hnil
      have hfront := looked_slashLoop (2 ^ 32) 0
        (looked_in_front (fun _ => 0) hc hp hrel hnil isDir)
      have hrun := h _ _ (fun _ => 0) hc hp
      unfold toAbsolutePathBytes at hrun
      rw [strlen_path hp, strlen_cwd hc, wordAdd_of_lt t.short, if_neg (not_le.mpr hlen)] at hrun
      rcases hrun with hne | hin
      · exact hne rfl
      · exact absurd (hin.looked _ hfront) (by decide)
    obtain ⟨b, hrun, hb, -⟩ := toAbsolutePathBytes_filled (fun _ => 0) hc hp hlen hstart isDir
    have hsound := h _ _ (fun _ => 0) hc hp
    rw [hrun] at hsound
    rcases hsound with hne | hin
    · exact absurd rfl hne
    · rw [← t.length_absolute isDir]
      exact ⟨hstart, hin.short⟩
  · rintro (hlen | ⟨hstart, hfit⟩) cwd path bytes hc hp
    · exact .inl (toAbsolutePathBytes_refused hc hp hlen)
    · by_cases hlen : t.path.length + t.cwd.length < btPathMax
      · obtain ⟨b, hrun, hb, hlook⟩ := toAbsolutePathBytes_filled bytes hc hp hlen hstart isDir
        have hlength := t.length_absolute isDir
        rw [hrun]
        refine .inr ⟨hb.holds, by omega, fun j hj => ?_, fun j hj => ?_⟩
        · have := (hb.wrote j).mp hj
          omega
        · have := hlook j hj
          omega
      · exact .inl (toAbsolutePathBytes_refused hc hp (not_lt.mp hlen))

end Build

/-! ## The function on lists

Characters and bytes, lists and memories are compared here, once for all users of the function on
lists. -/

/-- The byte of a character. -/
def byteOf (c : Char) : UInt8 := UInt8.ofNat c.toNat

/-- Two lists of characters that are bytes, as the strings of a call. -/
structure Spells (t : PathTexts) (cwd path : List Char) : Prop where
  cwd_eq : t.cwd = cwd.map byteOf
  path_eq : t.path = path.map byteOf
  cwd_byte : ∀ c ∈ cwd, c.toNat < 2 ^ 8
  path_byte : ∀ c ∈ path, c.toNat < 2 ^ 8

section Lists

variable {t : PathTexts} {cwd path text : List Char} {isDir : Bool}

/-- Characters of one byte are told apart by it. -/
theorem byteOf_eq_iff {c d : Char} (hc : c.toNat < 2 ^ 8) (hd : d.toNat < 2 ^ 8) :
    byteOf c = byteOf d ↔ c = d := by
  refine ⟨fun h => ?_, fun h => h ▸ rfl⟩
  have h' := congrArg UInt8.toNat h
  unfold byteOf at h'
  rw [UInt8.toNat_ofNat', UInt8.toNat_ofNat', Nat.mod_eq_of_lt hc, Nat.mod_eq_of_lt hd] at h'
  exact Char.toNat_inj.mp h'

namespace Spells

variable (h : Spells t cwd path)

include h

/-- Both models agree on what an absolute path is. -/
theorem absolute_iff : t.Absolute ↔ startsAbsolute path = true := by
  have hbyte := h.path_byte
  unfold PathTexts.Absolute startsAbsolute
  rw [h.path_eq]
  cases path with
  | nil => simp
  | cons c path =>
    have hc := hbyte c List.mem_cons_self
    have hslash : byteOf c = slash ↔ c = '/' := byteOf_eq_iff (d := '/') hc (by decide)
    have hback : byteOf c = backslash ↔ c = '\\' := byteOf_eq_iff (d := '\\') hc (by decide)
    simp [isSeparator, hslash, hback]

theorem ends_iff : t.cwd.getLast? = some slash ↔ cwd.getLast? = some '/' := by
  have hbyte := h.cwd_byte
  rw [h.cwd_eq, List.getLast?_map]
  cases hl : cwd.getLast? with
  | none => simp
  | some c =>
    have hc := hbyte c (List.mem_of_getLast? hl)
    have hslash : byteOf c = slash ↔ c = '/' := byteOf_eq_iff (d := '/') hc (by decide)
    simpa using hslash

theorem joined_eq : t.joined = (if startsAbsolute path then path
    else joinPath cwd path).map byteOf := by
  unfold PathTexts.joined joinPath
  by_cases habs : t.Absolute
  · rw [if_pos habs, if_pos (h.absolute_iff.mp habs), h.path_eq]
  · rw [if_neg habs, if_neg fun ha => habs (h.absolute_iff.mpr ha)]
    by_cases hend : t.cwd.getLast? = some slash
    · rw [if_pos hend, if_pos (h.ends_iff.mp hend), List.map_append, h.cwd_eq, h.path_eq]
    · rw [if_neg hend, if_neg fun he => hend (h.ends_iff.mpr he), List.map_append, List.map_cons,
        h.cwd_eq, h.path_eq, List.append_assoc]
      rfl

theorem full_eq : t.full isDir =
    ((if isDir ∧ 1 < path.length then (if startsAbsolute path then path else joinPath cwd path) ++
    ['/']
      else if startsAbsolute path then path else joinPath cwd path)).map byteOf := by
  have hlen : t.path.length = path.length := by rw [h.path_eq, List.length_map]
  unfold PathTexts.full
  rw [hlen, h.joined_eq]
  by_cases hd : isDir ∧ 1 < path.length
  · rw [if_pos hd, if_pos hd, List.map_append]
    rfl
  · rw [if_neg hd, if_neg hd]

theorem byte_of_mem {c : Char} (hc : c ∈ if isDir ∧ 1 < path.length then
      (if startsAbsolute path then path else joinPath cwd path) ++ ['/']
    else if startsAbsolute path then path else joinPath cwd path) : c.toNat < 2 ^ 8 := by
  have hslash : '/'.toNat < 2 ^ 8 := by decide
  have hjoin : c ∈ joinPath cwd path → c.toNat < 2 ^ 8 := by
    unfold joinPath
    split_ifs
    · intro hm
      rcases List.mem_append.mp hm with hm | hm
      · exact h.cwd_byte c hm
      · exact h.path_byte c hm
    · intro hm
      rcases List.mem_append.mp hm with hm | hm
      · exact h.cwd_byte c hm
      · rcases List.mem_cons.mp hm with rfl | hm
        · exact hslash
        · exact h.path_byte c hm
  have hbase : c ∈ (if startsAbsolute path then path else joinPath cwd path) → c.toNat < 2 ^ 8 := by
    split_ifs
    · exact h.path_byte c
    · exact hjoin
  by_cases hd : isDir ∧ 1 < path.length
  · rw [if_pos hd] at hc
    rcases List.mem_append.mp hc with hm | hm
    · exact hbase hm
    · obtain rfl := List.mem_singleton.mp hm
      exact hslash
  · rw [if_neg hd] at hc
    exact hbase hc

/-- What the function on lists does not say, the bytes do: it fails for the strings for which
something happens outside of the buffer. -/
theorem toAbsolutePath_fault_iff : toAbsolutePath cwd path isDir = .fault ↔
    ¬ BufferSuffices t isDir := by
  have hcwd : t.cwd.length = cwd.length := by rw [h.cwd_eq, List.length_map]
  have hpath : t.path.length = path.length := by rw [h.path_eq, List.length_map]
  have hnil : t.cwd = [] ↔ cwd = [] := by rw [h.cwd_eq, List.map_eq_nil_iff]
  have hlen := t.length_full isDir
  rw [h.full_eq, List.length_map] at hlen
  unfold toAbsolutePath BufferSuffices
  dsimp only
  rw [hlen, hpath, hcwd, h.absolute_iff, ne_eq, hnil]
  split_ifs with h₁ h₂ h₃
  · simp [h₁]
  · exact iff_of_true rfl fun hor => hor.elim h₁ fun hx => hx.1.elim h₂.1 fun hn => hn h₂.2
  · exact iff_of_true rfl fun hor => hor.elim h₁ fun hx => absurd hx.2 (not_lt.mpr h₃)
  · refine iff_of_false (by simp) (not_not.mpr (.inr ⟨?_, not_le.mp h₃⟩))
    tauto

/-- Where it succeeds, its path is the one in the buffer. -/
theorem toAbsolutePath_ok (hok : toAbsolutePath cwd path isDir = .ok text) :
    t.absolute isDir = text.map byteOf := by
  have hfull : t.full isDir = _ := h.full_eq
  have hbytes : ∀ c ∈ (if isDir ∧ 1 < path.length then
      (if startsAbsolute path then path else joinPath cwd path) ++ ['/']
      else if startsAbsolute path then path else joinPath cwd path), c.toNat < 2 ^ 8 :=
    fun _ => h.byte_of_mem
  unfold toAbsolutePath at hok
  dsimp only at hok
  generalize (if isDir ∧ 1 < path.length
    then (if startsAbsolute path then path else joinPath cwd path) ++ ['/']
    else if startsAbsolute path then path else joinPath cwd path) = buf at hok hfull hbytes
  split_ifs at hok
  obtain rfl := Reply.ok.inj hok
  unfold PathTexts.absolute unbackslash
  rw [hfull, List.map_map, List.map_map]
  refine List.map_congr_left fun c hc => ?_
  have hback : byteOf c = backslash ↔ c = '\\' :=
    byteOf_eq_iff (d := '\\') (hbytes c hc) (by decide)
  simp only [Function.comp_apply, hback]
  split_ifs
  · rfl
  · rfl

end Spells

end Lists

/-- A name of 2595 characters in the directory `/mnt`. -/
def longName : PathTexts where
  cwd := [0x2F, 0x6D, 0x6E, 0x74]
  path := List.replicate 2595 0x61
  cwd_noNul := by decide
  path_noNul h := absurd (List.eq_of_mem_replicate h) (by decide)
  cwd_lt := by decide
  short := by
    rw [List.length_replicate]
    decide

/-- Both are let through, and the zero that ends the absolute path is written behind the buffer. -/
theorem long_name_written_behind : ∃ b,
    toAbsolutePathBytes (ofText longName.cwd) (ofText longName.path) btPathMax false
    (.fresh fun _ => 0) = (0, b) ∧
      b.wrote btPathMax = true ∧ ¬ AbsolutePathFits longName false := by
  have hpath : longName.path.length = 2595 := List.length_replicate
  have hcwd : longName.cwd.length = 4 := rfl
  have hlen : longName.path.length + longName.cwd.length < btPathMax := by
    rw [hpath, hcwd]
    decide
  have hrel : ¬ longName.Absolute := by
    change ¬ ((List.replicate 2595 0x61).head? = _ ∨ (List.replicate 2595 0x61).head? = _)
    rw [List.head?_replicate, if_neg (by decide)]
    decide
  have hfull : longName.fullLength false = btPathMax := by
    unfold PathTexts.fullLength
    rw [if_neg hrel, hpath, hcwd]
    decide
  obtain ⟨b, hrun, hb, -⟩ := toAbsolutePathBytes_filled (fun _ => 0) (ofText_holds _)
    (ofText_holds _)
    hlen (.inr (List.cons_ne_nil _ _)) false
  have hwrote : b.wrote btPathMax = true :=
    (hb.wrote _).mpr (.inr (by rw [longName.length_absolute, hfull]))
  refine ⟨b, hrun, hwrote, fun h => ?_⟩
  have hsound := h _ _ (fun _ => 0) (ofText_holds _) (ofText_holds _)
  rw [hrun] at hsound
  rcases hsound with hne | hin
  · exact hne rfl
  · exact absurd (hin.wrote _ hwrote) (lt_irrefl _)

end BitThunder
