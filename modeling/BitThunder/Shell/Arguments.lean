import BitThunder.Lib.CString
import BitThunder.Shell.Script
import Mathlib.Data.List.TakeWhile

/-!
# The arguments of a shell command

`BT_ShellCommand` of `os/src/shell/bt_shell.c` goes over the line twice: once to count the
arguments, once to cut the line into them. Both passes look at quotes and white space, and each in
its own way: the first one begins inside of an argument, the second one does not; the second one
stores nothing at a space even where it is quoted, leaves an opening quote in the text, and ends the
text at the first closing one.

`btShellCommand_arguments_iff`: they agree, with each other and with the words of the line, if
quotes stand around whole words only.

Each pass is characterised on its own, over the words of the line. A word is a text without white
space outside of quotes, and the induction is over a list of them: the first pass counts the words
after the first that have a character other than a quote, the second one stores a pointer where it
finds an argument, and which argument that is depends on the word alone. What is left is to compare
the two on one word, and the words for which nothing goes wrong are `PlainWord`.

The terminators that the second pass writes go into the line itself. A pointer is to a string that
ends where the pass has written a zero behind it, so that what a pointer stands for is only known
when the pass has come by. In the model the line that has been cut is built from its end.
-/

namespace BitThunder

/-- `'"'` -/
def quoteChar : UInt8 := 0x22

/-! ## The two passes

Each pass has two flags and goes on character by character. The line comes without white space at
its beginning, which only the first pass relies on. -/

/-- The loop that counts -/
def countLoop : (bIsArg bIgnoreSpace : Bool) → (ulArguments : ℕ) → List UInt8 → ℕ
  | bIsArg, _, ulArguments, [] => if bIsArg then wordAdd ulArguments 1 else ulArguments
  | bIsArg, bIgnoreSpace, ulArguments, c :: input =>
    if !bIgnoreSpace && c = quoteChar then countLoop bIsArg true ulArguments input
    else if c = quoteChar then countLoop bIsArg false ulArguments input
    else if bIsArg then
      if !bIgnoreSpace && isSpace c then countLoop false bIgnoreSpace (wordAdd ulArguments 1) input
      else countLoop bIsArg bIgnoreSpace ulArguments input
    else if bIgnoreSpace || !isSpace c then countLoop true bIgnoreSpace ulArguments input
    else countLoop bIsArg bIgnoreSpace ulArguments input

/-- A line that has been cut: what is in the buffer, and the pointers into it -/
structure CutLine : Type where
  buffer : List UInt8
  pargs : List ℕ
  deriving DecidableEq

namespace CutLine

/-- The line with a character before it -/
def step (c : UInt8) (l : CutLine) : CutLine := ⟨c :: l.buffer, l.pargs.map (· + 1)⟩

/-- The line with a pointer to its beginning -/
def point (l : CutLine) : CutLine := ⟨l.buffer, 0 :: l.pargs⟩

/-- The strings that are pointed to -/
def args (l : CutLine) : List (List UInt8) :=
  l.pargs.map fun p => (l.buffer.drop p).takeWhile (· ≠ 0)

end CutLine

/-- The loop that cuts, from `input` on -/
def cutLoop : (bIsArg bIgnoreSpace : Bool) → List UInt8 → CutLine
  | _, _, [] => ⟨[], []⟩
  | bIsArg, bIgnoreSpace, c :: input =>
    if !bIgnoreSpace && c = quoteChar then (cutLoop bIsArg true input).step c
    else if c = quoteChar then (cutLoop bIsArg false input).step (if bIsArg then 0 else c)
    else if !bIsArg then
      if !isSpace c then ((cutLoop true bIgnoreSpace input).step c).point
      else (cutLoop bIsArg bIgnoreSpace input).step c
    else if !bIgnoreSpace && isSpace c then (cutLoop false bIgnoreSpace input).step 0
    else (cutLoop bIsArg bIgnoreSpace input).step c

/-- `ulArguments` -/
def ulArguments (copy : List UInt8) : ℕ := countLoop true false 0 (eatSpace copy)

/-- What is cut, with the pointers in `pargs` -/
def cutArguments (copy : List UInt8) : CutLine := cutLoop false false (eatSpace copy)

/-- The size of `pargs` -/
def pargsSize (copy : List UInt8) : ℕ := 4 * ulArguments copy % 2 ^ 32

/-! ## The words of a line

This is what the line means: words are separated by white space outside of quotes, and the quotes
around a word are not a part of it. -/

/-- The line at the white space outside of quotes, from inside a word on -/
def splitWords : (quoted : Bool) → (word : List UInt8) → List UInt8 → List (List UInt8)
  | _, word, [] => if word = [] then [] else [word]
  | quoted, word, c :: line =>
    if !quoted && isSpace c then
      if word = [] then splitWords false [] line else word :: splitWords false [] line
    else splitWords (quoted ^^ decide (c = quoteChar)) (word ++ [c]) line

/-- A word without its quotes -/
def unquoteWord (word : List UInt8) : List UInt8 := word.filter (· ≠ quoteChar)

/-- The words as they stand in the line -/
def rawWords (line : List UInt8) : List (List UInt8) := splitWords false [] line

/-- As many pointers are stored as were counted and at least one, there is room for them, and they
are to the words. -/
structure ArgumentsRight (copy : List UInt8) : Prop where
  /-- as many pointers are stored as were counted -/
  stored : (cutArguments copy).pargs.length = ulArguments copy
  /-- and there is room for them -/
  room : 4 * (cutArguments copy).pargs.length ≤ pargsSize copy
  /-- there is a command -/
  some : 0 < (cutArguments copy).pargs.length
  /-- the pointers are to the words of the line -/
  words : (cutArguments copy).args = (rawWords copy).map unquoteWord

/-- A word with no quotes in it, or with quotes around it; in the quotes it does not begin with a
space. -/
def PlainWord (word : List UInt8) : Prop :=
  ∃ (opening : List UInt8) (c : UInt8) (text closing : List UInt8),
  word = opening ++ c :: text ++ closing ∧
    (∀ d ∈ opening, d = quoteChar) ∧ (∀ d ∈ closing, d = quoteChar) ∧
    (∀ d ∈ c :: text, d ≠ quoteChar) ∧
    isSpace c = false ∧ (closing = [] ∨ opening.length % 2 = 1)

/-- All words are such, and a pointer to each fits in the memory. -/
def SuitsArguments (copy : List UInt8) : Prop :=
  (∀ w ∈ rawWords copy, PlainWord w) ∧ (rawWords copy).length < 2 ^ 30

/-! ## One word

A word is followed through each of the passes, from a state outside of quotes to the next one.
Whether a quote opens or closes depends on how many there were before. -/

/-- A text without white space outside of quotes, with how the quotes are at its beginning and end
-/
inductive Unbroken : Bool → List UInt8 → Bool → Prop where
  | nil (q : Bool) : Unbroken q [] q
  | quote {q q' : Bool} {w : List UInt8} (rest : Unbroken (!q) w q') : Unbroken q
    (quoteChar :: w) q'
  | char {q q' : Bool} {w : List UInt8} {c : UInt8} (plain : c ≠ quoteChar)
    (kept : (!q && isSpace c) = false)
      (rest : Unbroken q w q') : Unbroken q (c :: w) q'

/-- What the second pass leaves of an argument, from inside of it on -/
def argText : Bool → List UInt8 → List UInt8
  | _, [] => []
  | q, c :: w => if c = quoteChar then if q then [] else c :: argText true w else c :: argText q w

/-- The argument that the second pass finds in a word -/
def argOf : Bool → List UInt8 → Option (List UInt8)
  | _, [] => none
  | q, c :: w => if c = quoteChar then argOf (!q) w else if isSpace c then argOf q w
    else some (c :: argText q w)

/-- There is something else than quotes in the word. -/
def hasChar (w : List UInt8) : Bool := w.any (· ≠ quoteChar)

theorem quoteChar_not_space : isSpace quoteChar = false := by decide

namespace Unbroken

variable {q q' : Bool} {w rest : List UInt8}

theorem splitWords (h : Unbroken q w q') (word : List UInt8) :
    BitThunder.splitWords q word (w ++ rest) = BitThunder.splitWords q' (word ++ w) rest := by
  induction h generalizing word with
  | nil q => rw [List.append_nil]; rfl
  | @quote q q' w _ ih =>
    rw [List.cons_append, BitThunder.splitWords, if_neg (by simp [quoteChar_not_space])]
    rw [show (q ^^ decide (quoteChar = quoteChar)) = !q by simp, ih, List.append_assoc]
    rfl
  | @char q q' w c hplain hkept _ ih =>
    rw [List.cons_append, BitThunder.splitWords, if_neg (by simp [hkept])]
    rw [show (q ^^ decide (c = quoteChar)) = q by simp [hplain], ih, List.append_assoc]
    rfl

/-- The first pass is inside of an argument behind a word with a character. -/
theorem countLoop (h : Unbroken q w q') (isArg : Bool) (n : ℕ) :
    BitThunder.countLoop isArg q n (w ++ rest) = BitThunder.countLoop
    (isArg || hasChar w) q' n rest := by
  induction h generalizing isArg with
  | nil q => simp [hasChar]
  | @quote q q' w _ ih =>
    have hchar : hasChar (quoteChar :: w) = hasChar w := by simp [hasChar]
    rw [List.cons_append, BitThunder.countLoop, hchar]
    cases q with
    | false => simpa using ih isArg
    | true => simpa using ih isArg
  | @char q q' w c hplain hkept _ ih =>
    have hchar : hasChar (c :: w) = true := by simp [hasChar, hplain]
    rw [List.cons_append, BitThunder.countLoop, hchar,
      if_neg (by simp [hplain]), if_neg hplain, hkept, Bool.or_true]
    cases isArg with
    | false =>
      have henter : (q || !isSpace c) = true := by
        cases q with
        | false => simpa using hkept
        | true => rfl
      simpa [henter] using ih true
    | true => simpa using ih true

/-- Where the pass goes on behind a word: at the next character but one, or nowhere -/
def Behind (q : Bool) (rest : List UInt8) : Prop :=
  rest = [] ∨ q = false ∧ ∃ c r, rest = c :: r ∧ isSpace c = true

theorem args_step (c : UInt8) (l : CutLine) : (l.step c).args = l.args := by
  simp only [CutLine.args, CutLine.step, List.map_map]
  rfl

/-- An argument is the buffer up to its terminator. -/
theorem args_point (l : CutLine) : l.point.args = l.buffer.takeWhile (· ≠ 0) :: l.args := rfl

/-- Inside of an argument -/
theorem cutLoop_inside (h : Unbroken q w q') (hbehind : Behind q' rest) (hnul : 0 ∉ w) :
    (cutLoop true q (w ++ rest)).buffer.takeWhile (· ≠ 0) = argText q w ∧
      (cutLoop true q (w ++ rest)).args = (cutLoop false false rest.tail).args := by
  induction h with
  | nil q =>
    rcases hbehind with rfl | ⟨rfl, c, r, rfl, hc⟩
    · exact ⟨rfl, rfl⟩
    · have hquote : c ≠ quoteChar := by
        rintro rfl
        exact absurd hc (by decide)
      have hcut : cutLoop true false (c :: r) = (cutLoop false false r).step 0 := by
        rw [cutLoop,
          if_neg (by simp [hquote]), if_neg hquote, if_neg (by decide), if_pos (by simp [hc])]
      rw [List.nil_append, hcut, args_step]
      exact ⟨rfl, rfl⟩
  | @quote q q' w _ ih =>
    obtain ⟨hbuffer, hargs⟩ := ih hbehind fun h => hnul (List.mem_cons_of_mem _ h)
    cases q with
    | false =>
      have hcut : cutLoop true false (quoteChar :: (w ++ rest)) =
          (cutLoop true true (w ++ rest)).step quoteChar := by
        rw [cutLoop, if_pos (by decide)]
      rw [List.cons_append, hcut, args_step]
      refine ⟨?_, hargs⟩
      change quoteChar :: (cutLoop true true (w ++ rest)).buffer.takeWhile (· ≠ 0) = _
      rw [argText, if_pos rfl, if_neg (by decide)]
      exact congrArg _ hbuffer
    | true =>
      have hcut : cutLoop true true (quoteChar :: (w ++ rest)) =
          (cutLoop true false (w ++ rest)).step 0 := by
        rw [cutLoop, if_neg (by decide), if_pos rfl, if_pos rfl]
      rw [List.cons_append, hcut, args_step, argText, if_pos rfl, if_pos rfl]
      exact ⟨rfl, hargs⟩
  | @char q q' w c hplain hkept _ ih =>
    obtain ⟨hbuffer, hargs⟩ := ih hbehind fun h => hnul (List.mem_cons_of_mem _ h)
    have hzero : c ≠ 0 := fun h => hnul (h ▸ List.mem_cons_self)
    have hcut : cutLoop true q (c :: (w ++ rest)) = (cutLoop true q (w ++ rest)).step c := by
      rw [cutLoop,
        if_neg (by simp [hplain]), if_neg hplain, if_neg (by decide), if_neg (by simp [hkept])]
    rw [List.cons_append, hcut, args_step, argText, if_neg hplain, ← hbuffer]
    refine ⟨?_, hargs⟩
    rw [CutLine.step, List.takeWhile_cons_of_pos (by simpa using hzero)]

/-- The second pass stores a pointer for a word if it finds an argument in it. -/
theorem cutLoop_outside (h : Unbroken q w q') (hbehind : Behind q' rest) (hnul : 0 ∉ w) :
    (cutLoop false q (w ++ rest)).args = (argOf q w).toList ++
    (cutLoop false false rest.tail).args := by
  induction h with
  | nil q =>
    rcases hbehind with rfl | ⟨rfl, c, r, rfl, hc⟩
    · rfl
    · have hquote : c ≠ quoteChar := by
        rintro rfl
        exact absurd hc (by decide)
      have hcut : cutLoop false false (c :: r) = (cutLoop false false r).step c := by
        rw [cutLoop,
          if_neg (by simp [hquote]), if_neg hquote, if_pos (by decide), if_neg (by simp [hc])]
      rw [List.nil_append, hcut, args_step]
      rfl
  | @quote q q' w _ ih =>
    have hargs := ih hbehind fun h => hnul (List.mem_cons_of_mem _ h)
    have hcut : cutLoop false q (quoteChar :: (w ++ rest)) =
        (cutLoop false (!q) (w ++ rest)).step quoteChar := by
      cases q <;> rfl
    rw [List.cons_append, hcut, args_step, argOf, if_pos rfl, hargs]
  | @char q q' w c hplain hkept hrest ih =>
    have hnul' : 0 ∉ w := fun h => hnul (List.mem_cons_of_mem _ h)
    by_cases hspace : isSpace c = true
    · have hcut : cutLoop false q (c :: (w ++ rest)) = (cutLoop false q (w ++ rest)).step c := by
        rw [cutLoop,
          if_neg (by simp [hplain]), if_neg hplain, if_pos (by decide), if_neg (by simp [hspace])]
      rw [List.cons_append, hcut, args_step, argOf, if_neg hplain, if_pos hspace, ih hbehind hnul']
    · have hzero : c ≠ 0 := fun h => hnul (h ▸ List.mem_cons_self)
      obtain ⟨hbuffer, hargs⟩ := hrest.cutLoop_inside hbehind hnul'
      have hcut : cutLoop false q (c :: (w ++ rest)) =
          ((cutLoop true q (w ++ rest)).step c).point := by
        rw [cutLoop,
          if_neg (by simp [hplain]), if_neg hplain, if_pos (by decide), if_pos (by simp [hspace])]
      rw [List.cons_append, hcut, args_point, args_step, argOf, if_neg hplain, if_neg hspace, hargs,
        CutLine.step, List.takeWhile_cons_of_pos (by simpa using hzero), hbuffer]
      rfl

end Unbroken

/-! ## Plain words

The text that a word becomes is compared with the word without its quotes. They are the same if the
quotes are around all of it, and differ as soon as one stands inside. -/

/-- Within quotes an argument ends at the next one. -/
theorem argText_quoted (w : List UInt8) : argText true w = w.takeWhile (· ≠ quoteChar) := by
  induction w with
  | nil => rfl
  | cons c w ih =>
    by_cases hc : c = quoteChar
    · rw [argText, if_pos hc, if_pos rfl, List.takeWhile_cons_of_neg (by simp [hc])]
    · rw [argText, if_neg hc, List.takeWhile_cons_of_pos (by simp [hc]), ih]

/-- A word without quotes is an argument as it is. -/
theorem argText_unquoted {w : List UInt8} (h : ∀ d ∈ w, d ≠ quoteChar) (q : Bool) :
    argText q w = w := by
  induction w with
  | nil => rfl
  | cons c w ih =>
    rw [argText, if_neg (h c List.mem_cons_self), ih fun d hd => h d (List.mem_cons_of_mem c hd)]

/-- An opening quote stays in the text. -/
theorem quote_mem_argText {w : List UInt8} (h : quoteChar ∈ w) : quoteChar ∈ argText false w := by
  induction w with
  | nil => cases h
  | cons c w ih =>
    by_cases hc : c = quoteChar
    · rw [argText, if_pos hc, if_neg (by decide), hc]
      exact List.mem_cons_self
    · rw [argText, if_neg hc]
      refine List.mem_cons_of_mem c (ih ?_)
      rcases List.mem_cons.mp h with h | h
      · exact absurd h.symm hc
      · exact h

theorem unquoteWord_quotes {w : List UInt8} (h : ∀ d ∈ w, d = quoteChar) : unquoteWord w = [] :=
  List.filter_eq_nil_iff.mpr fun d hd => by simp [h d hd]

theorem unquoteWord_text {w : List UInt8} (h : ∀ d ∈ w, d ≠ quoteChar) : unquoteWord w = w :=
  List.filter_eq_self.mpr fun d hd => by simp [h d hd]

theorem unquoteWord_append (v w : List UInt8) :
    unquoteWord (v ++ w) = unquoteWord v ++ unquoteWord w :=
  List.filter_append ..

/-- Quotes at the beginning only turn quoting on and off. -/
theorem argOf_quotes {v : List UInt8} (h : ∀ d ∈ v, d = quoteChar) (q : Bool) (w : List UInt8) :
    argOf q (v ++ w) = argOf (q ^^ decide (v.length % 2 = 1)) w := by
  induction v generalizing q with
  | nil => simp
  | cons c v ih =>
    rw [List.cons_append, argOf, if_pos (h c List.mem_cons_self),
      ih fun d hd => h d (List.mem_cons_of_mem c hd)]
    congr 1
    rw [List.length_cons]
    by_cases hodd : v.length % 2 = 1
    · have heven : ¬(v.length + 1) % 2 = 1 := by omega
      simp [hodd, heven]
    · have hodd' : (v.length + 1) % 2 = 1 := by omega
      simp [hodd, hodd']

/-- The argument is the word without its quotes exactly if the quotes are at its end. -/
theorem argText_eq_iff (q : Bool) (w : List UInt8) : argText q w = unquoteWord w ↔
    ∃ text closing, w = text ++ closing ∧ (∀ d ∈ closing, d = quoteChar) ∧
    (∀ d ∈ text, d ≠ quoteChar) ∧
      (closing = [] ∨ q = true) := by
  constructor
  · intro h
    cases q with
    | false =>
      have hnone : quoteChar ∉ w := by
        intro hmem
        have := h ▸ quote_mem_argText hmem
        simp [unquoteWord] at this
      refine ⟨w, [], (List.append_nil w).symm, by simp, ?_, .inl rfl⟩
      rintro d hd rfl
      exact hnone hd
    | true =>
      rw [argText_quoted] at h
      refine ⟨w.takeWhile (· ≠ quoteChar), w.dropWhile (· ≠ quoteChar),
        List.takeWhile_append_dropWhile.symm, ?_, ?_,
        .inr rfl⟩
      · have htake : unquoteWord (w.takeWhile (· ≠ quoteChar)) = w.takeWhile (· ≠ quoteChar) :=
          unquoteWord_text fun d hd => by simpa using List.mem_takeWhile_imp hd
        have hsplit := unquoteWord_append (w.takeWhile (· ≠ quoteChar))
          (w.dropWhile (· ≠ quoteChar))
        rw [List.takeWhile_append_dropWhile, ← h, htake] at hsplit
        intro d hd
        have hnil := List.append_right_eq_self.mp hsplit.symm
        simpa using List.filter_eq_nil_iff.mp hnil d hd
      · intro d hd
        simpa using List.mem_takeWhile_imp hd
  · rintro ⟨text, closing, rfl, hclosing, htext, hend⟩
    rw [unquoteWord_append, unquoteWord_text htext, unquoteWord_quotes hclosing, List.append_nil]
    rcases hend with rfl | rfl
    · rw [List.append_nil, argText_unquoted htext]
    · rw [argText_quoted, List.takeWhile_append_of_pos fun d hd => by simpa using htext d hd]
      cases closing with
      | nil => simp
      | cons c closing => simp [hclosing c List.mem_cons_self]

/-- No argument begins with a space. -/
theorem argOf_ne_space {c : UInt8} (hc : isSpace c = true) (q : Bool) (w r : List UInt8) :
    argOf q w ≠ some (c :: r) := by
  induction w generalizing q with
  | nil => exact nofun
  | cons d w ih =>
    rw [argOf]
    split
    · exact ih _
    · split
      · exact ih _
      · rename_i hd
        intro h
        obtain ⟨rfl, -⟩ := List.cons.inj (Option.some.inj h)
        exact hd hc

/-- The argument that is found is the word exactly if the word is plain. -/
theorem argOf_eq_iff (w : List UInt8) : argOf false w = some (unquoteWord w) ↔ PlainWord w := by
  have hopening : ∀ d ∈ w.takeWhile (· = quoteChar), d = quoteChar := fun d hd => by
    simpa using List.mem_takeWhile_imp hd
  have hsplit : w = w.takeWhile (· = quoteChar) ++ w.dropWhile (· = quoteChar) :=
    List.takeWhile_append_dropWhile.symm
  constructor
  · intro h
    rw [hsplit, argOf_quotes hopening, unquoteWord_append, unquoteWord_quotes hopening,
      List.nil_append] at h
    cases hrest : w.dropWhile (· = quoteChar) with
    | nil =>
      rw [hrest] at h
      exact nomatch h
    | cons c r =>
      have hc : c ≠ quoteChar := by
        have := List.head?_dropWhile_not (· = quoteChar) w
        rw [hrest] at this
        simpa using this
      have hfirst : unquoteWord (c :: r) = c :: unquoteWord r :=
        List.filter_cons_of_pos (by simp [hc])
      rw [hrest, argOf, if_neg hc, hfirst] at h
      by_cases hspace : isSpace c = true
      · rw [if_pos hspace] at h
        exact absurd h (argOf_ne_space hspace _ _ _)
      · rw [if_neg hspace] at h
        obtain ⟨text, closing, rfl, hclosing, htext, hend⟩ :=
          (argText_eq_iff _ _).mp (List.cons.inj (Option.some.inj h)).2
        refine ⟨_, c, text, closing, hsplit.trans ?_, hopening, hclosing,
          ?_, by simpa using hspace, ?_⟩
        · rw [hrest, List.append_assoc]
          rfl
        · intro d hd
          rcases List.mem_cons.mp hd with rfl | hd
          · exact hc
          · exact htext d hd
        · refine hend.imp_right fun hodd => ?_
          simpa using hodd
  · rintro ⟨opening, c, text, closing, rfl, hopening, hclosing, htext, hspace, hend⟩
    have hc : c ≠ quoteChar := htext c List.mem_cons_self
    have hrest : argText (false ^^ decide (opening.length % 2 = 1)) (text ++ closing) =
        unquoteWord (text ++ closing) := by
      refine (argText_eq_iff _ _).mpr ⟨text, closing, rfl, hclosing,
        fun d hd => htext d (List.mem_cons_of_mem c hd), ?_⟩
      exact hend.imp_right fun hodd => by simp [hodd]
    have hfirst : unquoteWord (c :: (text ++ closing)) = c :: unquoteWord (text ++ closing) :=
      List.filter_cons_of_pos (by simp [hc])
    rw [List.append_assoc, List.cons_append, unquoteWord_append opening,
      unquoteWord_quotes hopening, List.nil_append,
      hfirst, argOf_quotes hopening, argOf, if_neg hc, if_neg (by simp [hspace]), hrest]

/-! ## Lines

A line is a list of words with spaces between them. The induction is over this list, with one lemma
for what a pass does to a word and to what follows. -/

/-- A line, cut at the white space outside of quotes; between two spaces there is nothing. -/
inductive Splits : List UInt8 → List (List UInt8) → Prop where
  | last {w : List UInt8} {q : Bool} (unbroken : Unbroken false w q) : Splits w [w]
  | more {w r : List UInt8} {c : UInt8} {ws : List (List UInt8)} (unbroken : Unbroken false w false)
      (space : isSpace c = true) (rest : Splits r ws) : Splits (w ++ c :: r) (w :: ws)

/-- A text goes up to the first white space outside of quotes. -/
theorem unbroken_cases (q : Bool) (l : List UInt8) : (∃ q', Unbroken q l q') ∨
    ∃ w c r, l = w ++ c :: r ∧ Unbroken q w false ∧ isSpace c = true := by
  induction l generalizing q with
  | nil => exact .inl ⟨q, .nil q⟩
  | cons c l ih =>
    by_cases hc : c = quoteChar
    · subst hc
      rcases ih (!q) with ⟨q', h⟩ | ⟨w, d, r, rfl, h, hd⟩
      · exact .inl ⟨q', .quote h⟩
      · exact .inr ⟨quoteChar :: w, d, r, rfl, .quote h, hd⟩
    · cases hkept : !q && isSpace c with
      | true =>
        simp only [Bool.and_eq_true, Bool.not_eq_true'] at hkept
        exact .inr ⟨[], c, l, rfl, hkept.1 ▸ .nil false, hkept.2⟩
      | false =>
        rcases ih q with ⟨q', h⟩ | ⟨w, d, r, rfl, h, hd⟩
        · exact .inl ⟨q', .char hc hkept h⟩
        · exact .inr ⟨c :: w, d, r, rfl, .char hc hkept h, hd⟩

theorem splits_exists (l : List UInt8) : ∃ ws, Splits l ws := by
  induction hn : l.length using Nat.strong_induction_on generalizing l with
  | _ n ih =>
    rcases unbroken_cases false l with ⟨q, h⟩ | ⟨w, c, r, rfl, h, hc⟩
    · exact ⟨[l], .last h⟩
    · have hlt : r.length < n := by
        rw [← hn, List.length_append, List.length_cons]
        omega
      obtain ⟨ws, hws⟩ := ih r.length hlt r rfl
      exact ⟨w :: ws, .more h hc hws⟩

namespace Splits

variable {l : List UInt8} {ws : List (List UInt8)}

theorem rawWords (h : Splits l ws) : BitThunder.rawWords l = ws.filter (· ≠ []) := by
  unfold BitThunder.rawWords
  induction h with
  | @last w q h =>
    have := @Unbroken.splitWords _ _ _ [] h []
    rw [List.append_nil, List.nil_append] at this
    rw [this, splitWords]
    by_cases hw : w = [] <;> simp [hw]
  | @more w r c ws h hc _ ih =>
    rw [h.splitWords, List.nil_append, splitWords, if_pos (by simp [hc])]
    by_cases hw : w = []
    · rw [if_pos hw, ih, List.filter_cons_of_neg (by simp [hw])]
    · rw [if_neg hw, ih, List.filter_cons_of_pos (by simp [hw])]

/-- The second pass goes through the words one after the other. -/
theorem args (h : Splits l ws) (hnul : 0 ∉ l) :
    (cutLoop false false l).args = ws.filterMap (argOf false) := by
  induction h with
  | @last w q h =>
    have := @Unbroken.cutLoop_outside _ _ _ [] h (.inl rfl) hnul
    rw [List.append_nil] at this
    rw [this]
    cases hfound : argOf false w <;> simp [cutLoop, CutLine.args, hfound]
  | @more w r c ws h hc _ ih =>
    rw [h.cutLoop_outside (.inr ⟨rfl, c, r, rfl, hc⟩) fun h => hnul (List.mem_append_left _ h),
      List.tail_cons, ih fun h => hnul (List.mem_append_right _ (List.mem_cons_of_mem c h))]
    cases hfound : argOf false w <;> simp [hfound]

/-- The first pass counts the first word, and those after it that have a character. -/
theorem count (h : Splits l ws) (isArg : Bool) (n : ℕ) (hlen : n + l.length + 1 < 2 ^ 32) :
    countLoop isArg false n l = n + ((ws.head?.map fun w => isArg || hasChar w).getD false).toNat +
      (ws.tail.filter hasChar).length := by
  induction h generalizing isArg n with
  | @last w q h =>
    have := @Unbroken.countLoop _ _ _ [] h isArg n
    rw [List.append_nil] at this
    rw [this, countLoop, List.head?_cons, Option.map_some, Option.getD_some]
    cases isArg || hasChar w <;> simp [wordAdd_of_lt (show n + 1 < 2 ^ 32 by omega)]
  | @more w r c ws h hc hrest ih =>
    have hquote : c ≠ quoteChar := by
      rintro rfl
      exact absurd hc (by decide)
    rw [List.length_append, List.length_cons] at hlen
    have hword : wordAdd n 1 = n + 1 := wordAdd_of_lt (by omega)
    have hstep : countLoop (isArg || hasChar w) false n (c :: r) =
        countLoop false false (n + (isArg || hasChar w).toNat) r := by
      rw [countLoop, if_neg (by simp [hquote]), if_neg hquote]
      cases isArg || hasChar w <;> simp [hc, hword]
    rw [h.countLoop, hstep, ih false _ (by cases isArg || hasChar w <;> simp <;> omega)]
    have hws : ((ws.head?.map fun w => false || hasChar w).getD false).toNat +
        (ws.tail.filter hasChar).length =
        (ws.filter hasChar).length := by
      cases ws with
      | nil => rfl
      | cons v ws => cases hv : hasChar v <;> simp [hv, Nat.add_comm]
    simp only [List.head?_cons, Option.map_some, Option.getD_some, List.tail_cons]
    omega

end Splits

theorem filterMap_eq_map_iff {α β : Type} {f : α → Option β} {g : α → β} {l : List α} :
    l.filterMap f = l.map g ↔ ∀ a ∈ l, f a = some (g a) := by
  constructor
  · intro h
    induction l with
    | nil => exact fun a ha => nomatch ha
    | cons b l ih =>
      cases hb : f b with
      | none =>
        -- there are too few of them
        have hlen := congrArg List.length h
        rw [List.filterMap_cons_none hb, List.length_map, List.length_cons] at hlen
        have := List.length_filterMap_le f l
        omega
      | some c =>
        rw [List.filterMap_cons_some hb, List.map_cons, List.cons.injEq] at h
        intro a ha
        rcases List.mem_cons.mp ha with rfl | ha
        · rw [hb, h.1]
        · exact ih h.2 a ha
  · intro h
    induction l with
    | nil => rfl
    | cons b l ih =>
      rw [List.filterMap_cons_some (h b List.mem_cons_self), List.map_cons,
        ih fun a ha => h a (List.mem_cons_of_mem b ha)]

/-- A plain word has a character that is no quote. -/
theorem PlainWord.hasChar {w : List UInt8} (h : PlainWord w) : hasChar w = true := by
  obtain ⟨opening, c, text, closing, rfl, -, -, htext, -⟩ := h
  exact List.any_eq_true.mpr ⟨c, by simp, by simpa using htext c List.mem_cons_self⟩

/-- White space at the beginning separates nothing. -/
theorem rawWords_eatSpace (l : List UInt8) : rawWords (eatSpace l) = rawWords l := by
  induction l with
  | nil => rfl
  | cons c l ih =>
    by_cases hc : isSpace c = true
    · rw [eatSpace, List.dropWhile_cons_of_pos hc]
      refine ih.trans ?_
      rw [rawWords, rawWords, splitWords, if_pos (by simp [hc]), if_pos rfl]
    · rw [eatSpace, List.dropWhile_cons_of_neg hc]

/-! ## The result

Counting and cutting are compared with each other and with the words. A word that is not plain makes
one of the comparisons fail, whatever the other words are. -/

/-- What the two passes come to in a line that begins with a word -/
theorem passes_eq {copy : CString} (hchar : ∃ c ∈ copy.chars, isSpace c = false) :
    (cutArguments copy.chars).args = (rawWords copy.chars).filterMap (argOf false) ∧
      ∃ w ws, rawWords copy.chars = w :: ws ∧ ulArguments copy.chars =
        1 + (ws.filter hasChar).length := by
  obtain ⟨ws, hws⟩ := splits_exists (eatSpace copy.chars)
  have hsub : ∀ c ∈ eatSpace copy.chars, c ∈ copy.chars :=
    fun c hc => (List.dropWhile_sublist _).subset hc
  have hlen : (eatSpace copy.chars).length ≤ copy.chars.length :=
    (List.dropWhile_sublist _).length_le
  have hshort := copy.short
  rw [← rawWords_eatSpace, hws.rawWords]
  constructor
  · rw [cutArguments, hws.args fun h => copy.noNul (hsub 0 h), List.filterMap_filter]
    refine List.filterMap_congr fun w _ => ?_
    by_cases hw : w = []
    · simp [hw, argOf]
    · simp [hw]
  · rw [ulArguments, hws.count true 0 (by omega)]
    have hfirst : ∃ c r, eatSpace copy.chars = c :: r ∧ isSpace c = false := by
      cases heat : eatSpace copy.chars with
      | nil =>
        obtain ⟨c, hc, hspace⟩ := hchar
        exact absurd (List.dropWhile_eq_nil_iff.mp heat c hc) (by simp [hspace])
      | cons c r =>
        have := List.head?_dropWhile_not isSpace copy.chars
        rw [show copy.chars.dropWhile isSpace = c :: r from heat] at this
        exact ⟨c, r, rfl, by simpa using this⟩
    obtain ⟨c, r, heat, hspace⟩ := hfirst
    have hfilter (ws : List (List UInt8)) : (ws.filter (· ≠ [])).filter hasChar =
        ws.filter hasChar := by
      rw [List.filter_filter]
      refine List.filter_congr fun w _ => ?_
      by_cases hw : w = []
      · simp [hw, hasChar]
      · simp [hw]
    generalize eatSpace copy.chars = l at hws heat
    cases hws with
    | last h =>
      refine ⟨l, [], ?_, ?_⟩
      · rw [heat]
        rfl
      · simp
    | @more w r' d ws h hd hrest =>
      have hw : w ≠ [] := by
        rintro rfl
        rw [List.nil_append] at heat
        rw [(List.cons.inj heat).1, hspace] at hd
        cases hd
      refine ⟨w, ws.filter (· ≠ []), List.filter_cons_of_pos (by simp [hw]), ?_⟩
      rw [hfilter]
      simp

/-- **The pointers are as many as were counted, and they are to the words of the line, exactly if**
every word is plain or has its quotes around it. -/
theorem btShellCommand_arguments_iff (copy : CString)
    (hchar : ∃ c ∈ copy.chars, isSpace c = false) :
    ArgumentsRight copy.chars ↔ SuitsArguments copy.chars := by
  obtain ⟨hargs, w, ws, hraw, hcount⟩ := passes_eq hchar
  have hlength : (cutArguments copy.chars).pargs.length = (cutArguments copy.chars).args.length :=
    (List.length_map _).symm
  have hplain : (cutArguments copy.chars).args = (rawWords copy.chars).map unquoteWord ↔
      ∀ w ∈ rawWords copy.chars, PlainWord w := by
    rw [hargs, filterMap_eq_map_iff]
    exact forall₂_congr fun w _ => argOf_eq_iff w
  constructor
  · rintro ⟨hstored, hroom, -, hwords⟩
    refine ⟨hplain.mp hwords, ?_⟩
    rw [pargsSize, ← hstored, hlength, hwords, List.length_map] at hroom
    omega
  · rintro ⟨hall, hfew⟩
    have hwords := hplain.mpr hall
    have hstored : (cutArguments copy.chars).pargs.length = ws.length + 1 := by
      rw [hlength, hwords, List.length_map, hraw, List.length_cons]
    have hcounted : ulArguments copy.chars = ws.length + 1 := by
      rw [hcount, List.filter_eq_self.mpr fun v
        hv => (hall v (hraw ▸ List.mem_cons_of_mem w hv)).hasChar, Nat.add_comm]
    rw [hraw, List.length_cons] at hfew
    refine ⟨hstored.trans hcounted.symm, ?_, ?_, hwords⟩
    · rw [pargsSize, hcounted, hstored, Nat.mod_eq_of_lt (by omega)]
    · rw [hstored]
      exact Nat.succ_pos _

/-- `echo "a b" c` -/
theorem btShellCommand_arguments_iff_quoted :
    ArgumentsRight [0x65, 0x63, 0x68, 0x6f, 0x20, 0x22, 0x61, 0x20, 0x62, 0x22, 0x20, 0x63] ↔
      SuitsArguments [0x65, 0x63, 0x68, 0x6f, 0x20, 0x22, 0x61, 0x20, 0x62, 0x22, 0x20, 0x63] :=
  btShellCommand_arguments_iff
    ⟨[0x65, 0x63, 0x68, 0x6f, 0x20, 0x22, 0x61, 0x20, 0x62, 0x22, 0x20, 0x63], by decide, by decide⟩
    ⟨0x65, by simp, by decide⟩

/-- `"" a`: two arguments are counted, and one is stored. -/
theorem btShellCommand_counts_more :
    (∃ c ∈ [(0x22 : UInt8), 0x22, 0x20, 0x61], isSpace c = false) ∧
      ¬ArgumentsRight [0x22, 0x22, 0x20, 0x61] := by
  refine ⟨⟨0x61, by simp, by decide⟩, fun hright => ?_⟩
  exact absurd hright.stored (by decide)

end BitThunder
