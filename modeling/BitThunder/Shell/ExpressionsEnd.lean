import BitThunder.Shell.Expressions
import Mathlib.Logic.Relation

/-!
# Whether a shell line comes to its end

`replace_expressions` looks for the first `'$'` again after every step. It stays where it is at a
`'$'` without a bracket, it goes on from `NULL` behind a bracket that is not closed, and it goes
round for ever where a value brings back what it was put in for.

What a line can come to is told here by the variables and the commands alone: `Becomes` replaces the
first expression of a text. `replace_expressions_ends_iff`: the loop ends safely, whatever memory it
is granted for the texts, exactly if these replacements come to an end, go through texts whose
brackets are closed, and make none that is too long.

The loop works on the memory, and the condition is to speak of the line and of what the names stand
for. `Becomes` has no memory at all: it is a relation between texts, and the loop simulates it as
long as every request is granted. Where the request for the text is refused the loop returns. Where
there is no memory for the number that a command returned the text goes on without it, which
`AtText` allows for: the digits have no `'$'`, so that what is still to be done is the same.

For the other direction the memory is taken to grant everything. Then the loop takes exactly the
steps of `Becomes`, and what would make these go on for ever, or run into an unclosed bracket, the
loop does too.
-/

namespace BitThunder

variable {σ ω μ : Type}

/-- `replace_expressions` returns, and does not read or write outside of its strings. -/
def EndsSafely (S : Substitutor σ) (input : List UInt8) (s : σ) : Prop :=
  (∃ n, (∃ text s', replaceExpressions S input s n = .done text s') ∨
    ∃ s', replaceExpressions S input s n = .noMemory s') ∧
  ∀ n, replaceExpressions S input s n ≠ .fault

/-! ## The first dollar of a text

A text is of one of four kinds by its first dollar sign, and what the loop does next depends on the
kind alone. -/

/-- The first `'$'` is not followed by a bracket. -/
def LoneDollar (text : List UInt8) : Prop :=
  ∃ q r, text = q ++ 0x24 :: r ∧ 0x24 ∉ q ∧ ∀ b : Bracket, r.head? ≠ some b.opening

/-- The first `'$'` is followed by a bracket that is not closed. -/
structure Unclosed (b : Bracket) (q r text : List UInt8) : Prop where
  text_eq : text = q ++ 0x24 :: b.opening :: r
  /-- there is no `'$'` before this one -/
  first : 0x24 ∉ q
  /-- and nothing closes the bracket -/
  unclosed : b.closing ∉ r

/-- The first `'$'` starts an expression. -/
structure Closed (b : Bracket) (q name r text : List UInt8) : Prop where
  text_eq : text = q ++ 0x24 :: b.opening :: (name ++ b.closing :: r)
  /-- there is no `'$'` before this one -/
  first : 0x24 ∉ q
  /-- and the bracket is closed where it is said to be -/
  closed : b.closing ∉ name

/-- There is no `'$'`, or the first one starts an expression. -/
def Bracketed (text : List UInt8) : Prop :=
  ¬LoneDollar text ∧ ∀ b q r, ¬Unclosed b q r text

/-- How many bytes are asked for where the bracket is not closed: `reduced` is the string from the
`'$'` on for a variable and empty for a command, and `item_end` is `NULL`. -/
def unclosedRequest (b : Bracket) (q r : List UInt8) (last : StringBlock) : ℕ :=
  let reduced := match b with
    | .brace => r.length + 2
    | .paren => 0
  (last.text.length + reduced + last.addr + q.length + 1) % 2 ^ 32

/-! ## The variables and the commands

All that the condition may speak of is here: what the variables hold, and what commands return and
do to the variables. Memory is kept apart, since the condition is to hold for any. -/

/-- What is around a line apart from the memory: the variables, and the commands, which return an
error and may change the variables -/
structure Surroundings (ω : Type) where
  env : ω → ShellEnv
  entries : ω → List EnvEntry
  rep : ∀ w, EnvRep (env w) (entries w)
  command : List UInt8 → ω → ℤ × ω

/-- The kernel's memory, and what a command leaves of it -/
structure Allocator (ω μ : Type) where
  kMalloc : ℕ → μ → ℕ × μ
  kFree : ℕ → μ → μ
  used : List UInt8 → ω → μ → μ

namespace Surroundings

variable (E : Surroundings ω)

/-- The surroundings with some memory -/
def system (A : Allocator ω μ) : Substitutor (ω × μ) where
  env s := E.env s.1
  entries s := E.entries s.1
  rep s := E.rep s.1
  command name s := ((E.command name s.1).1, (E.command name s.1).2, A.used name s.1 s.2)
  kMalloc n s := ((A.kMalloc n s.2).1, s.1, (A.kMalloc n s.2).2)
  kFree p s := (s.1, A.kFree p s.2)

/-- The string of a variable, empty if there is none -/
def value (name : List UInt8) (w : ω) : List UInt8 := ((E.env w).getString name).getD []

/-- The first expression of a text is replaced: a variable by its value, a command by the error it
returned. -/
inductive Becomes : List UInt8 × ω → List UInt8 × ω → Prop where
  | replaced {text q name r w} (h : Closed .brace q name r text) :
      Becomes (text, w) (q ++ E.value name w ++ r, w)
  | evaluated {text q name r w} (h : Closed .paren q name r text) :
      Becomes (text, w)
        (q ++ decimalText (E.command name w).1 ++ r, (E.command name w).2)

/-- The references of a text come to an end, none leads back to itself for ever, and all the `'$'`
that are met start an expression. -/
def Proceeds (text : List UInt8) (w : ω) : Prop :=
  Acc (flip E.Becomes) (text, w) ∧
    ∀ x, Relation.ReflTransGen E.Becomes (text, w) x → Bracketed x.1

/-- And no text on the way is too long for a memory of `2 ^ 32` bytes. -/
structure Settles (input : List UInt8) (w : ω) : Prop where
  /-- the replacements come to an end, with their brackets closed -/
  proceeds : E.Proceeds input w
  /-- and every text on the way fits into a memory -/
  lengths : ∀ x, Relation.ReflTransGen E.Becomes (input, w) x → x.1.length + 2 < 2 ^ 32

/-- `replace_expressions` ends safely whatever is granted of the memory behind the copy of the
line. -/
def AlwaysEnds (input : List UInt8) (w : ω) : Prop :=
  ∀ (μ : Type) (A : Allocator ω μ) (m : μ), (A.kMalloc (input.length + 1) m).1 ≠ 0 →
    EndsSafely (E.system A) input (w, m)

end Surroundings

/-- A text has no `'$'`, or the first one is one of these. -/
theorem dollar_cases (text : List UInt8) :
    0x24 ∉ text ∨ LoneDollar text ∨ (∃ b q r, Unclosed b q r text) ∨
    ∃ b q name r, Closed b q name r text := by
  rcases strchr_cases text 0x24 with h | ⟨q, r, htext, hq⟩
  · exact .inl h
  · right
    by_cases hlone : ∀ b : Bracket, r.head? ≠ some b.opening
    · exact .inl ⟨q, r, htext, hq, hlone⟩
    · right
      obtain ⟨b, hb⟩ := not_forall.mp hlone
      obtain ⟨r', rfl⟩ := List.head?_eq_some_iff.mp (not_not.mp hb)
      rcases strchr_cases r' b.closing with h | ⟨name, rest, rfl, hname⟩
      · exact .inl ⟨b, q, r', htext, hq, h⟩
      · exact .inr ⟨b, q, name, rest, htext, hq, hname⟩

section Steps

variable {S : Substitutor σ} {last : StringBlock} {s : σ} {q r : List UInt8} {b : Bracket}

/-- An unclosed bracket: `NULL` is returned, or read from. -/
theorem replaceStep_unclosed (h : Unclosed b q r last.text) :
    replaceStep S last s = if (S.kMalloc (unclosedRequest b q r last) s).1 = 0 then
      .noMemory (S.kFree last.addr (S.kMalloc (unclosedRequest b q r last) s).2) else .fault := by
  have hitem : last.text.drop q.length = 0x24 :: b.opening :: r := by rw [h.text_eq, List.drop_left]
  have hclose : (if (0x24 :: b.opening :: r)[1]? = some 0x7b then some (0x7d : UInt8)
      else if (0x24 :: b.opening :: r)[1]? = some 0x28 then some 0x29 else none) =
        some b.closing := by
    cases b <;> rfl
  have hend : strchr (0x24 :: b.opening :: r) b.closing = none := by
    have hne : b.closing ≠ 0x24 ∧ b.closing ≠ b.opening := by cases b <;> decide
    exact strchr_eq_none.mpr (by simp [hne, h.unclosed])
  have hnone : strchr r b.closing = none := strchr_eq_none.mpr h.unclosed
  have hreduce : ∃ text : List UInt8, reduceValue S (0x24 :: b.opening :: r) s = (⟨text, none⟩, s) ∧
      wordAdd (wordAdd last.text.length
      (wordSub text.length (wordSub 0 (wordAdd last.addr q.length)))) 1 =
        unclosedRequest b q r last := by
    cases b with
    | brace =>
      refine ⟨0x24 :: 0x7b :: r, ?_, ?_⟩
      · simp [reduceValue, replaceVar, Bracket.opening, show strchr r 0x7d = none from hnone]
      · simp only [unclosedRequest, wordAdd, wordSub, List.length_cons]
        omega
    | paren =>
      refine ⟨[], ?_, ?_⟩
      · simp [reduceValue, evaluateCommand, Bracket.opening, show strchr r 0x29 = none from hnone]
      · simp only [unclosedRequest, wordAdd, wordSub, List.length_nil]
        omega
  obtain ⟨text, hreduce, hsize⟩ := hreduce
  unfold replaceStep
  rw [show strchr last.text 0x24 = some q.length by rw [h.text_eq, strchr_append h.first]]
  simp only [hitem, hclose, hend, hreduce, Option.getD_none, hsize]
  rfl

end Steps

/-! ## Texts that differ in what is done

A text behind a plain one has the same first expression. This is what lets the loop's text and the
text of the relation differ in their beginnings. -/

section Texts

variable {p q q' r r' name name' text : List UInt8} {b b' : Bracket}

/-- The first occurrence splits a text in one way. -/
theorem first_unique {c : UInt8} (h : q ++ c :: r = q' ++ c :: r') (hq : c ∉ q) (hq' : c ∉ q') :
    q = q' ∧ r = r' := by
  have hlen : q.length = q'.length := by
    have := strchr_append (r := r) hq
    rw [h, strchr_append hq'] at this
    exact (Option.some.inj this).symm
  obtain ⟨hfirst, hrest⟩ := List.append_inj h hlen
  exact ⟨hfirst, (List.cons.inj hrest).2⟩

theorem Closed.unique (h : Closed b q name r text) (h' : Closed b' q' name' r' text) :
    b = b' ∧ q = q' ∧ name = name' ∧ r = r' := by
  obtain ⟨hq, hrest⟩ := first_unique (h.text_eq.symm.trans h'.text_eq) h.first h'.first
  obtain ⟨hopening, hrest⟩ := List.cons.inj hrest
  have hb : b = b' := by
    cases b <;> cases b' <;> first | rfl | exact absurd hopening (by decide)
  subst hb
  obtain ⟨hname, hr⟩ := first_unique hrest h.closed h'.closed
  exact ⟨rfl, hq, hname, hr⟩

/-- A text without a `'$'` before it does not change what the first expression is. -/
theorem Closed.behind (h : Closed b q name r text) (hp : 0x24 ∉ p) :
    Closed b (p ++ q) name r (p ++ text) where
  text_eq := by rw [h.text_eq, List.append_assoc]
  first := by
    rw [List.mem_append]
    exact not_or.mpr ⟨hp, h.first⟩
  closed := h.closed

/-- An expression without its bracket is one behind a plain text too. -/
theorem Unclosed.behind (h : Unclosed b q r text) (hp : 0x24 ∉ p) :
    Unclosed b (p ++ q) r (p ++ text) where
  text_eq := by rw [h.text_eq, List.append_assoc]
  first := by
    rw [List.mem_append]
    exact not_or.mpr ⟨hp, h.first⟩
  unclosed := h.unclosed

theorem LoneDollar.behind (h : LoneDollar text) (hp : 0x24 ∉ p) : LoneDollar (p ++ text) := by
  obtain ⟨q, r, rfl, hq, hr⟩ := h
  refine ⟨p ++ q, r, (List.append_assoc ..).symm, ?_, hr⟩
  rw [List.mem_append]
  exact not_or.mpr ⟨hp, hq⟩

theorem Closed.not_plain (h : Closed b q name r text) : 0x24 ∈ text := by
  rw [h.text_eq]
  exact List.mem_append_right _ List.mem_cons_self

theorem Bracketed.of_plain (h : 0x24 ∉ text) : Bracketed text := by
  constructor
  · rintro ⟨q, r, rfl, -, -⟩
    exact h (List.mem_append_right _ List.mem_cons_self)
  · intro b q r hopen
    rw [hopen.text_eq] at h
    exact h (List.mem_append_right _ List.mem_cons_self)

theorem Bracketed.of_closed (h : Closed b q name r text) : Bracketed text := by
  constructor
  · rintro ⟨q', r', htext, hq', hr'⟩
    obtain ⟨-, rfl⟩ := first_unique (h.text_eq.symm.trans htext) h.first hq'
    exact hr' b rfl
  · intro b' q' r' hopen
    obtain ⟨-, hrest⟩ := first_unique (h.text_eq.symm.trans hopen.text_eq) h.first hopen.first
    obtain ⟨hopening, rfl⟩ := List.cons.inj hrest
    have hb : b = b' := by
      cases b <;> cases b' <;> first | rfl | exact absurd hopening (by decide)
    subst hb
    exact hopen.unclosed (List.mem_append_right _ List.mem_cons_self)

/-- The behind of a text without a `'$'` -/
theorem Bracketed.behind_iff (hp : 0x24 ∉ p) : Bracketed (p ++ text) ↔ Bracketed text := by
  constructor
  · rintro ⟨hlone, hopen⟩
    exact ⟨fun h => hlone (h.behind hp), fun b q r h => hopen b _ r (h.behind hp)⟩
  · intro h
    rcases dollar_cases text with hplain | hlone | ⟨b, q, r, hopen⟩ | ⟨b, q, name, r, hclosed⟩
    · refine .of_plain ?_
      rw [List.mem_append]
      exact not_or.mpr ⟨hp, hplain⟩
    · exact absurd hlone h.1
    · exact absurd hopen (h.2 b q r)
    · exact .of_closed (hclosed.behind hp)

/-- The digits of a number have no `'$'`. -/
theorem decimalText_plain (z : ℤ) : 0x24 ∉ decimalText z := by
  unfold decimalText
  rw [List.mem_append, List.mem_map]
  rintro (hsign | ⟨c, hc, heq⟩)
  · split at hsign
    · exact absurd hsign (by decide)
    · exact List.not_mem_nil hsign
  · have hdigit : c.isDigit := Nat.isDigit_of_mem_toDigits (by decide) (by decide) hc
    rw [Char.isDigit_iff_toNat] at hdigit
    have hnat := congrArg UInt8.toNat heq
    rw [UInt8.toNat_ofNat'] at hnat
    have : (0x24 : UInt8).toNat = 36 := rfl
    have : '0'.toNat = 48 ∧ '9'.toNat = 57 := ⟨rfl, rfl⟩
    omega

end Texts

/-! ## What the loop comes to

An induction over the replacements, which come to an end. In each step the loop either returns or
goes on at a text that is the next one but for its beginning. -/

section Loop

variable {E : Surroundings ω} {A : Allocator ω μ} {last : StringBlock} {s : ω × μ}
  {x y : List UInt8 × ω}

/-- The string in the loop is the text, but for what is done already: the number that a command
returned is missing where there was no memory to write it down. -/
structure AtText (last : StringBlock) (s : ω × μ) (x : List UInt8 × ω) : Prop where
  /-- the string is shorter than a memory -/
  short : last.text.length + 2 < 2 ^ 32
  /-- the variables and commands are where the text is -/
  world : s.1 = x.2
  /-- the two differ in a beginning that has nothing to replace -/
  split : ∃ p p' rest, last.text = p ++ rest ∧ x.1 = p' ++ rest ∧ 0x24 ∉ p ∧ 0x24 ∉ p' ∧
    p.length ≤ p'.length

namespace Surroundings.Becomes

theorem closed (h : E.Becomes x y) : ∃ b q name r, Closed b q name r x.1 := by
  cases h with
  | replaced h => exact ⟨_, _, _, _, h⟩
  | evaluated h => exact ⟨_, _, _, _, h⟩

/-- There is one first expression. -/
theorem unique {z : List UInt8 × ω} (h : E.Becomes x y) (h' : E.Becomes x z) : y = z := by
  cases h with
  | replaced h =>
    cases h' with
    | replaced h' =>
      obtain ⟨-, rfl, rfl, rfl⟩ := h.unique h'
      rfl
    | evaluated h' => exact absurd (h.unique h').1 (by decide)
  | evaluated h =>
    cases h' with
    | replaced h' => exact absurd (h.unique h').1 (by decide)
    | evaluated h' =>
      obtain ⟨-, rfl, rfl, rfl⟩ := h.unique h'
      rfl

end Surroundings.Becomes

/-- An expression is reduced to what the surroundings say, or to nothing in the place of a
number. -/
theorem reduce_becomes {b : Bracket} {q name r text : List UInt8}
    (h : Closed b q name r text) (s : ω × μ) :
    ∃ v', E.Becomes (text, s.1) (q ++ v' ++ r, ((E.system A).reduce b name s).2.1) ∧
      (((E.system A).reduce b name s).1.text = v' ∨
        ((E.system A).reduce b name s).1.text = [] ∧ 0x24 ∉ v' ∧
          ∃ m, (A.kMalloc 64 m).1 = 0) := by
  cases b with
  | brace => exact ⟨E.value name s.1, .replaced h, .inl rfl⟩
  | paren =>
    refine ⟨decimalText (E.command name s.1).1, .evaluated h, ?_⟩
    unfold Substitutor.reduce
    dsimp only
    split
    · rename_i hnull
      exact .inr ⟨rfl, decimalText_plain _, _, hnull⟩
    · exact .inl rfl

/-- One time through the loop, as long as the brackets are closed and the text is not too long -/
theorem AtText.step (h : AtText last s x) (hbracket : Bracketed x.1)
    (hshort : ∀ y, E.Becomes x y → y.1.length + 2 < 2 ^ 32) :
    (∃ text s', replaceStep (E.system A) last s = .done text s') ∨
    (∃ s', replaceStep (E.system A) last s = .noMemory s') ∨
    ∃ last' s' y, replaceStep (E.system A) last s = .nextItem last' s' ∧ E.Becomes x y ∧
      AtText last' s' y := by
  obtain ⟨hlast, hworld, p, p', rest, htext, htext', hp, hp', hle⟩ := h
  have hrest : Bracketed rest := by
    rw [htext'] at hbracket
    exact (Bracketed.behind_iff hp').mp hbracket
  rcases dollar_cases rest with hplain | hlone | ⟨b, q, r, hopen⟩ | ⟨b, q, name, r, hclosed⟩
  · refine .inl ⟨_, _, replaceStep_plain ?_⟩
    rw [htext, List.mem_append]
    exact not_or.mpr ⟨hp, hplain⟩
  · exact absurd hlone hrest.1
  · exact absurd hopen (hrest.2 b q r)
  · right
    have hhere : Closed b (p ++ q) name r last.text := htext ▸ hclosed.behind hp
    have hthere : Closed b (p' ++ q) name r x.1 := htext' ▸ hclosed.behind hp'
    obtain ⟨v', hbecomes, hvalue⟩ := reduce_becomes (E := E) (A := A) hthere s
    rw [hworld, Prod.mk.eta] at hbecomes
    have hlength := hshort _ hbecomes
    generalize hred : (E.system A).reduce b name s = red at hbecomes hvalue
    -- what is done may be shorter than it is told
    have hnext : ∃ P P' rest', p ++ q ++ red.1.text ++ r = P ++ rest' ∧
        p' ++ q ++ v' ++ r = P' ++ rest' ∧ 0x24 ∉ P ∧ 0x24 ∉ P' ∧ P.length ≤ P'.length := by
      rcases hvalue with hvalue | ⟨hvalue, hplain, -⟩
      · refine ⟨p ++ q, p' ++ q, v' ++ r, ?_, ?_, hhere.first, hthere.first, ?_⟩
        · rw [hvalue, List.append_assoc (p ++ q)]
        · rw [List.append_assoc (p' ++ q)]
        · rw [List.length_append, List.length_append]
          omega
      · refine ⟨p ++ q, p' ++ q ++ v', r, ?_, rfl, hhere.first, ?_, ?_⟩
        · rw [hvalue, List.append_nil]
        · rw [List.mem_append]
          exact not_or.mpr ⟨hthere.first, hplain⟩
        · simp only [List.length_append]
          omega
    obtain ⟨P, P', rest', hP, hP', hplain, hplain', hle'⟩ := hnext
    have hroom : (p ++ q ++ red.1.text ++ r).length + 2 < 2 ^ 32 := by
      change (p' ++ q ++ v' ++ r).length + 2 < 2 ^ 32 at hlength
      rw [hP', List.length_append] at hlength
      rw [hP, List.length_append]
      omega
    rw [replaceStep_complete hhere.text_eq hhere.first hhere.closed (by omega),
      Substitutor.rewrite, hred]
    simp only [Nat.mod_eq_of_lt hroom]
    split
    · exact .inl ⟨_, rfl⟩
    · rw [if_pos (Nat.le_succ _)]
      refine .inr ⟨_, _, _, rfl, hbecomes, hroom, ?_, P, P', rest', hP, hP',
        hplain, hplain', hle'⟩
      unfold freeReduced
      split <;> rfl

/-- Where the replacements come to an end the loop does. -/
theorem AtText.ends (hacc : Acc (flip E.Becomes) x) (h : AtText last s x)
    (hbrackets : ∀ y, Relation.ReflTransGen E.Becomes x y → Bracketed y.1)
    (hlengths : ∀ y, Relation.ReflTransGen E.Becomes x y → y.1.length + 2 < 2 ^ 32) :
    ∃ n, (∃ text s', replaceLoop (E.system A) n (.nextItem last s) = .done text s') ∨
      ∃ s', replaceLoop (E.system A) n (.nextItem last s) = .noMemory s' := by
  induction hacc generalizing last s with
  | intro x _ ih =>
    rcases h.step (A := A) (hbrackets x .refl) fun y hy => hlengths y (.single hy) with
      ⟨text, s', hstep⟩ | ⟨s', hstep⟩ | ⟨last', s', y, hstep, hy, h'⟩
    · exact ⟨1, .inl ⟨text, s', by rw [replaceLoop, hstep]; rfl⟩⟩
    · exact ⟨1, .inr ⟨s', by rw [replaceLoop, hstep]; rfl⟩⟩
    · obtain ⟨n, hend⟩ := ih y hy h' (fun z hz => hbrackets z (.head hy hz))
        fun z hz => hlengths z (.head hy hz)
      refine ⟨n + 1, ?_⟩
      rw [replaceLoop, hstep]
      exact hend

end Loop

/-! ## What a loop that ends says

With memory that never runs out the loop takes all the steps that there are. The number of its
rounds is what the induction is on. -/

section Necessary

variable {E : Surroundings ω} {x y : List UInt8 × ω}

/-- Memory that never runs out -/
def Allocator.generous : Allocator ω ℕ where
  kMalloc _ k := (k + 1, k + 1)
  kFree _ k := k
  used _ _ k := k

namespace Surroundings

theorem generous_grants (n : ℕ) (s : ω × ℕ) : ((E.system .generous).kMalloc n s).1 ≠ 0 :=
  Nat.succ_ne_zero s.2

/-- A text proceeds if all that it becomes does. -/
theorem Proceeds.of_next {text : List UInt8} {w : ω} (hbracket : Bracketed text)
    (hnext : ∀ y, E.Becomes (text, w) y → E.Proceeds y.1 y.2) : E.Proceeds text w := by
  refine ⟨Acc.intro _ fun y hy => (hnext y hy).1, fun x hx => ?_⟩
  rcases hx.cases_head with rfl | ⟨z, hz, hx⟩
  · exact hbracket
  · exact (hnext z hz).2 x hx

/-- It settles if all that it becomes does, and it is not too long. -/
theorem Settles.of_next {text : List UInt8} {w : ω} (hbracket : Bracketed text)
    (hlength : text.length + 2 < 2 ^ 32)
    (hnext : ∀ y, E.Becomes (text, w) y → E.Settles y.1 y.2) : E.Settles text w where
  proceeds := .of_next hbracket fun y hy => (hnext y hy).proceeds
  lengths := by
    intro x hx
    rcases hx.cases_head with rfl | ⟨z, hz, hx⟩
    · exact hlength
    · exact (hnext z hz).lengths x hx

end Surroundings

/-- Where all memory is granted, a loop that ends safely has gone through all the replacements. -/
theorem settles_of_ends {m : ℕ} {last : StringBlock} {s : ω × ℕ} {a : ReplaceState (ω × ℕ)}
    (hlast : last.text.length + 2 < 2 ^ 32)
    (hend : replaceLoop (E.system .generous) m (.nextItem last s) = a)
    (hfinal : a.Final) (hfault : a ≠ .fault) : E.Settles last.text s.1 := by
  induction m generalizing last s with
  | zero =>
    rw [← hend] at hfinal
    exact hfinal.elim
  | succ m ih =>
    rw [replaceLoop] at hend
    rcases dollar_cases last.text with hplain | ⟨q, r, htext, hq, hlone⟩ | ⟨b, q, r, hopen⟩ |
      ⟨b, q, name, r, hclosed⟩
    · refine Surroundings.Settles.of_next (.of_plain hplain) hlast ?_
      intro y hy
      obtain ⟨b, q, name, r, hclosed⟩ := hy.closed
      exact absurd hclosed.not_plain hplain
    · -- the loop stays where it is
      rw [replaceStep_lone htext hq hlone] at hend
      exact ih hlast hend
    · refine absurd ?_ hfault
      rw [replaceStep_unclosed hopen, if_neg (Surroundings.generous_grants _ s)] at hend
      rw [← hend, replaceLoop_final (r := .fault) trivial]
    · obtain ⟨v', hbecomes, hvalue⟩ := reduce_becomes (E := E) (A := .generous) hclosed s
      rcases hvalue with hvalue | ⟨-, -, k, hnull⟩
      · rw [replaceStep_complete hclosed.text_eq hclosed.first hclosed.closed (by omega),
          Substitutor.rewrite, hvalue] at hend
        rw [if_neg (Surroundings.generous_grants _ _)] at hend
        split at hend
        · rename_i hfits
          have hshort : (q ++ v' ++ r).length + 2 < 2 ^ 32 := by omega
          have hnext := ih hshort hend
          refine Surroundings.Settles.of_next (.of_closed hclosed) hlast ?_
          intro y hy
          rw [hy.unique hbecomes]
          convert hnext using 1
          unfold freeReduced
          split <;> rfl
        · refine absurd ?_ hfault
          rw [← hend, replaceLoop_final (r := .fault) trivial]
      · exact absurd hnull (Nat.succ_ne_zero k)

end Necessary

/-! ## References between variables

A condition that can be checked on the values: if the references between names are well-founded, the
replacements of any line come to an end. -/

section References

variable {E : Surroundings ω} {w : ω}

namespace Surroundings

/-- What is behind a text without a `'$'` is replaced as it is alone. -/
theorem Proceeds.behind {p text : List UInt8} (h : E.Proceeds text w) (hp : 0x24 ∉ p) :
    E.Proceeds (p ++ text) w := by
  obtain ⟨hacc, hbrackets⟩ := h
  generalize hx : (text, w) = x at hacc
  induction hacc generalizing p text w with
  | intro x _ ih =>
    subst hx
    refine .of_next ((Bracketed.behind_iff hp).mpr (hbrackets _ .refl)) fun y hy => ?_
    have hlater (z) (hz : E.Becomes (text, w) z) :
        ∀ x, Relation.ReflTransGen E.Becomes z x → Bracketed x.1 :=
      fun x hx => hbrackets x (.head hz hx)
    obtain ⟨b, q, name, r, hclosed⟩ : ∃ b q name r, Closed b q name r text := by
      rcases dollar_cases text with hplain | hlone | ⟨b, q, r, hopen⟩ | hclosed
      · obtain ⟨b, q, name, r, hclosed⟩ := hy.closed
        refine absurd hclosed.not_plain ?_
        rw [List.mem_append]
        exact not_or.mpr ⟨hp, hplain⟩
      · exact absurd hlone (hbrackets _ .refl).1
      · exact absurd hopen ((hbrackets _ .refl).2 b q r)
      · exact hclosed
    cases b with
    | brace =>
      have hz : E.Becomes (text, w) (q ++ E.value name w ++ r, w) := .replaced hclosed
      rw [hy.unique (.replaced (hclosed.behind hp)), List.append_assoc p, List.append_assoc p]
      exact ih _ hz hp (hlater _ hz) rfl
    | paren =>
      have hz : E.Becomes (text, w)
        (q ++ decimalText (E.command name w).1 ++ r, (E.command name w).2) := .evaluated hclosed
      rw [hy.unique (.evaluated (hclosed.behind hp)), List.append_assoc p, List.append_assoc p]
      exact ih _ hz hp (hlater _ hz) rfl

end Surroundings

/-- Names, and what their values are made of -/
structure Referring (es : List EnvEntry) (refers : CString → CString → Prop) : Prop where
  /-- a value is made of parts, and its names are referred to -/
  values : ∀ e ∈ es, ∃ parts : List LinePart, e.value.chars = parts.flatMap LinePart.raw ∧
    ∀ name plain, .var name plain ∈ parts → refers name e.name
  /-- and no name comes back to itself -/
  wellFounded : WellFounded refers

/-- Where the references between the variables are well-founded every line of names comes to its
end. -/
theorem Referring.proceeds {refers : CString → CString → Prop}
    (h : Referring (E.entries w) refers) (parts : List LinePart) :
    E.Proceeds (parts.flatMap LinePart.raw) w := by
  -- parts whose names come to an end, before something that does
  have hparts : ∀ parts : List LinePart, (∀ name plain, .var name plain ∈ parts →
      ∀ rest, E.Proceeds rest w → E.Proceeds ((LinePart.var name plain).raw ++ rest) w) →
      ∀ rest, E.Proceeds rest w → E.Proceeds (parts.flatMap LinePart.raw ++ rest) w := by
    intro parts hnames rest hrest
    induction parts with
    | nil => exact hrest
    | cons part parts ih =>
      have hlater := ih fun name plain hmem => hnames name plain (List.mem_cons_of_mem _ hmem)
      rw [List.flatMap_cons, List.append_assoc]
      cases part with
      | text chars plain => exact hlater.behind plain
      | var name plain => exact hnames name plain List.mem_cons_self _ hlater
  have hname : ∀ name plain rest, E.Proceeds rest w →
      E.Proceeds ((LinePart.var name plain).raw ++ rest) w := by
    intro name
    induction name using h.wellFounded.induction with
    | _ name ih =>
      intro plain rest hrest
      have hclosed : Closed .brace [] name.chars rest ((LinePart.var name plain).raw ++ rest) :=
        ⟨by simp [LinePart.raw, Bracket.opening, Bracket.closing], List.not_mem_nil, plain.2⟩
      refine .of_next (.of_closed hclosed) fun y hy => ?_
      rw [hy.unique (.replaced hclosed), List.nil_append, Surroundings.value,
        (E.rep w).getString plain.1]
      rcases EnvRep.find_cases (E.entries w) name with ⟨hfind, -⟩ | ⟨as, e, bs, heq, heqname, hfind⟩
      · rw [entryValue, hfind]
        exact hrest
      · obtain ⟨parts, hvalue, hrefers⟩ := h.values e (by simp [heq])
        rw [entryValue, hfind]
        change E.Proceeds (e.value.chars ++ rest) w
        rw [hvalue]
        refine hparts parts (fun name' plain' hmem => ih name' ?_ plain') rest hrest
        exact heqname ▸ hrefers name' plain' hmem
  have hnil : E.Proceeds [] w := .of_next (.of_plain List.not_mem_nil) fun y hy => by
    obtain ⟨b, q, name, r, hclosed⟩ := hy.closed
    exact absurd hclosed.not_plain List.not_mem_nil
  have hall := hparts parts (fun name plain _ => hname name plain) [] hnil
  rwa [List.append_nil] at hall

end References

/-! ## The result

Both directions, for a line as it was given. -/

/-- **`replace_expressions` ends safely whatever memory is granted exactly if** the references of
the line come to an end in the variables and commands around it, with their brackets closed and
their texts short enough. -/
theorem replace_expressions_ends_iff (E : Surroundings ω) (input : CString) (w : ω) :
    E.AlwaysEnds input.chars w ↔ E.Settles input.chars w := by
  have hinput := input.short
  have hsize : wordAdd input.chars.length 1 = input.chars.length + 1 := wordAdd_of_lt (by omega)
  have hstart {μ : Type} {A : Allocator ω μ} {m : μ}
      (hcopy : (A.kMalloc (input.chars.length + 1) m).1 ≠ 0) :
      replaceStart (E.system A) input.chars (w, m) =
        .nextItem ⟨(A.kMalloc (input.chars.length + 1) m).1, input.chars.length + 1, input.chars⟩
          (w, (A.kMalloc (input.chars.length + 1) m).2) := by
    rw [replaceStart, hsize]
    exact if_neg (not_or.mpr ⟨hcopy, lt_irrefl _⟩)
  constructor
  · intro h
    have hcopy : ((Allocator.generous (ω := ω)).kMalloc (input.chars.length + 1) 0).1 ≠ 0 :=
      Nat.succ_ne_zero 0
    obtain ⟨⟨n, hend⟩, -⟩ := h ℕ .generous 0 hcopy
    rw [replaceExpressions, hstart hcopy] at hend
    rcases hend with ⟨text, s', hend⟩ | ⟨s', hend⟩
    · exact settles_of_ends
        (by change input.chars.length + 2 < 2 ^ 32; omega) hend trivial (by simp)
    · exact settles_of_ends
        (by change input.chars.length + 2 < 2 ^ 32; omega) hend trivial (by simp)
  · intro h μ A m hcopy
    have hat : AtText ⟨(A.kMalloc (input.chars.length + 1) m).1, input.chars.length + 1,
        input.chars⟩
        (w, (A.kMalloc (input.chars.length + 1) m).2) (input.chars, w) :=
      ⟨h.lengths _ .refl, rfl, [], [], input.chars, rfl, rfl, by simp, by simp, le_rfl⟩
    obtain ⟨n, hends⟩ := hat.ends (A := A) h.proceeds.1 h.proceeds.2 h.lengths
    unfold EndsSafely replaceExpressions
    rw [hstart hcopy]
    refine ⟨⟨n, hends⟩, fun k hfault => ?_⟩
    rcases hends with ⟨text, s', hend⟩ | ⟨s', hend⟩
    · exact absurd (replaceLoop_unique hend trivial hfault trivial) (by simp)
    · exact absurd (replaceLoop_unique hend trivial hfault trivial) (by simp)

/-- `5$`: the `'$'` is looked at for ever. -/
theorem replace_expressions_stuck : ¬EndsSafely oneVariableSystem [0x35, 0x24] 0 := by
  rintro ⟨⟨n, hend⟩, -⟩
  have hstay : ∀ n, replaceExpressions oneVariableSystem [0x35, 0x24] 0 n =
      .nextItem ⟨1, 3, [0x35, 0x24]⟩ 1 := by
    intro n
    change replaceLoop oneVariableSystem n (.nextItem ⟨1, 3, [0x35, 0x24]⟩ 1) = _
    induction n with
    | zero => rfl
    | succ n ih =>
      rw [replaceLoop, replaceStep_lone (q := [0x35]) (r := []) rfl (by decide) fun b => by simp]
      exact ih
  rcases hend with ⟨text, s', hend⟩ | ⟨s', hend⟩
  · exact absurd ((hstay n).symm.trans hend) (by simp)
  · exact absurd ((hstay n).symm.trans hend) (by simp)

end BitThunder
