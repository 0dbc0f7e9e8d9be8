import BitThunder.Shell.Env

/-!
# Expressions in a shell line

`replace_expressions` of `os/src/shell/bt_shell.c`. The line is copied, and as long as there is a
`'$'` in the copy the first one is looked at, its expression is reduced, and the string is written
anew with what came of it. Strings are the texts they hold; a block has the size it was asked for,
and writing behind it or reading from `NULL` is a `fault`.

`replace_expressions_substitutes`: where every `'$'` of the line starts a `${name}` and no value has
a `'$'`, all the names are replaced, and what is written fits.

The line is a list of parts, and the loop replaces the parts one after the other. `Rests` is what a
round finds: a text with nothing to do, and then parts that are as they were in the line. The text
grows by the value that was put in and no `'$'` gets into it, since no value has one, so that a
round never comes back to what it has replaced.

How much is asked for is computed from the two strings that the expression stands between and from
the value, and each is counted as it stands; one byte is left for the end. A string in its block
with room for this byte is the other half of `Rests`.
-/

namespace BitThunder

/-- `strchr`: how far the character is from the beginning -/
def strchr (text : List UInt8) (c : UInt8) : Option ℕ := text.findIdx? (· = c)

/-- `%d` -/
def decimalText (z : ℤ) : List UInt8 :=
  (if z < 0 then [0x2d] else []) ++ (Nat.toDigits 10 z.natAbs).map fun c => UInt8.ofNat c.toNat

/-- What `BT_ShellGetEnv` gives for a name: the string of the variable -/
def ShellEnv.getString (s : ShellEnv) (name : List UInt8) : Option (List UInt8) :=
  match btShellGetEnv (Memory.ofText name) s with
  | some (some env, _) =>
    let m := (s.str (s.var env).string).s
    some ((List.range m.strlen).map fun i => m i)
  | _ => none

/-- The system around `replace_expressions`: the environment, commands that return an error, and the
kernel's memory -/
structure Substitutor (σ : Type) where
  env : σ → ShellEnv
  entries : σ → List EnvEntry
  rep : ∀ s, EnvRep (env s) (entries s)
  command : List UInt8 → σ → ℤ × σ
  kMalloc : ℕ → σ → ℕ × σ
  kFree : ℕ → σ → σ

/-- A string in a block of its own -/
structure StringBlock : Type where
  addr : ℕ
  size : ℕ
  text : List UInt8
  deriving DecidableEq

/-- A string that an expression was reduced to, and the block to give back -/
structure Reduced : Type where
  text : List UInt8
  alloced : Option ℕ

/-- Where `replace_expressions` is: at `next_item`, behind a return, or outside of its strings -/
inductive ReplaceState (σ : Type) : Type where
  | nextItem (last : StringBlock) (s : σ)
  | done (text : List UInt8) (s : σ)
  /-- `NULL` is returned. -/
  | noMemory (s : σ)
  | fault

/-- The function has been left. -/
def ReplaceState.Final {σ : Type} : ReplaceState σ → Prop
  | nextItem .. => False
  | _ => True

section Code

variable {σ : Type} (S : Substitutor σ)

/-- `replace_var` -/
def replaceVar (input : List UInt8) (s : σ) : List UInt8 :=
  let start := input.drop 2
  match strchr start 0x7d with
  | none => input
  | some e => ((S.env s).getString (start.take e)).getD []

/-- `evaluate_command`: the string and its block, unless it returns `NULL` -/
def evaluateCommand (input : List UInt8) (s : σ) : Option (ℕ × List UInt8) × σ :=
  let start := input.drop 2
  match strchr start 0x29 with
  | none => (none, s)
  | some e =>
    let r := S.command (start.take e) s
    let output := S.kMalloc 64 r.2
    if output.1 = 0 then (none, output.2) else (some (output.1, decimalText r.1), output.2)

/-- `reduce_value` -/
def reduceValue (value : List UInt8) (s : σ) : Reduced × σ :=
  if value[0]? = some 0x24 ∧ value[1]? = some 0x7b then (⟨replaceVar S value s, none⟩, s)
  else if value[0]? = some 0x24 ∧ value[1]? = some 0x28 then
    match evaluateCommand S value s with
    | (none, s) => (⟨[], none⟩, s)
    | (some (p, text), s) => (⟨text, some p⟩, s)
  else (⟨value, none⟩, s)

/-- `if(bAlloced) BT_kFree(reduced)` -/
def freeReduced (reduced : Reduced) (s : σ) : σ :=
  match reduced.alloced with
  | none => s
  | some p => S.kFree p s

/-- From `next_item` through the body of the loop -/
def replaceStep (last : StringBlock) (s : σ) : ReplaceState σ :=
  match strchr last.text 0x24 with
  | none => .done last.text s
  | some i =>
    let item := last.text.drop i
    let close : Option UInt8 :=
      if item[1]? = some 0x7b then some 0x7d else if item[1]? = some 0x28 then some 0x29 else none
    match close with
    | none => .nextItem last s
    | some c =>
      let itemEnd := strchr item c
      let (reduced, s) := reduceValue S item s
      -- without an end, `item_end` is `NULL`
      let origLen := itemEnd.getD (wordSub 0 (wordAdd last.addr i))
      let diff := wordSub reduced.text.length origLen
      let size := wordAdd (wordAdd last.text.length diff) 1
      let (replaced, s) := S.kMalloc size s
      if replaced = 0 then .noMemory (freeReduced S reduced (S.kFree last.addr s))
      else
        match itemEnd with
        | none => .fault
        | some e =>
          let text := last.text.take i ++ reduced.text ++ item.drop (e + 1)
          if text.length + 1 ≤ size then
            .nextItem ⟨replaced, size, text⟩ (S.kFree last.addr (freeReduced S reduced s))
          else .fault

/-- The copy of the line; it is not looked at whether there is memory for it. -/
def replaceStart (input : List UInt8) (s : σ) : ReplaceState σ :=
  let size := wordAdd input.length 1
  let (last, s) := S.kMalloc size s
  if last = 0 ∨ size < input.length + 1 then .fault else .nextItem ⟨last, size, input⟩ s

/-- At most `n` times through the loop -/
def replaceLoop : ℕ → ReplaceState σ → ReplaceState σ
  | n + 1, .nextItem last s => replaceLoop n (replaceStep S last s)
  | _, r => r

/-- `replace_expressions`, up to some point -/
def replaceExpressions (input : List UInt8) (s : σ) (n : ℕ) : ReplaceState σ :=
  replaceLoop S n (replaceStart S input s)

end Code

/-! ## Lines with variables

A part of a line is text without a dollar sign or a name in brackets, so that what the line means is
read off its parts and needs no search. -/

/-- A part of a line in which every `'$'` starts a `${name}` -/
inductive LinePart : Type where
  | text (chars : List UInt8) (plain : 0x24 ∉ chars)
  | var (name : CString) (plain : 0x24 ∉ name.chars ∧ 0x7d ∉ name.chars)

namespace LinePart

/-- The part in the line -/
def raw : LinePart → List UInt8
  | text chars _ => chars
  | var name _ => 0x24 :: 0x7b :: (name.chars ++ [0x7d])

/-- What is to stand there -/
def meaning (values : CString → Option CString) : LinePart → List UInt8
  | text chars _ => chars
  | var name _ => ((values name).map CString.chars).getD []

end LinePart

/-- What the rest of the kernel promises: the environment is left alone, and a block that was
granted and the value of any variable lie beside each other in a memory of `2 ^ 32` bytes. -/
structure Substitutor.Separate {σ : Type} (S : Substitutor σ) : Prop where
  /-- an allocation leaves the variables alone -/
  malloc_entries : ∀ n s, S.entries (S.kMalloc n s).2 = S.entries s
  /-- so does giving a block back -/
  free_entries : ∀ p s, S.entries (S.kFree p s) = S.entries s
  /-- a block and any value have room beside each other -/
  beside : ∀ n s, (S.kMalloc n s).1 ≠ 0 → ∀ e ∈ S.entries s, n + (e.value.chars.length + 1) ≤ 2 ^ 32

/-! ## Characters

The search for a character splits a text at its first occurrence, and this is the only thing that is
used of it. -/

section Strings

variable {c : UInt8} {l r : List UInt8}

theorem strchr_eq_none : strchr l c = none ↔ c ∉ l := by
  unfold strchr
  rw [List.findIdx?_eq_none_iff]
  constructor
  · intro h hc
    exact absurd (h c hc) (by simp)
  · intro h x hx
    exact decide_eq_false fun heq => h (heq ▸ hx)

theorem strchr_append (h : c ∉ l) : strchr (l ++ c :: r) c = some l.length := by
  have hnone : l.findIdx? (· = c) = none := strchr_eq_none.mpr h
  unfold strchr
  rw [List.findIdx?_append, hnone, List.findIdx?_cons]
  simp

/-- The string from the first occurrence on -/
theorem strchr_cases (l : List UInt8) (c : UInt8) : c ∉ l ∨ ∃ q r, l = q ++ c :: r ∧ c ∉ q := by
  by_cases h : c ∈ l
  · obtain ⟨q, r, rfl, hq⟩ := List.eq_append_cons_of_mem h
    exact .inr ⟨q, r, rfl, hq⟩
  · exact .inl h

/-- The characters of a text, one after the other. -/
theorem Memory.map_range {m : Memory} {value : CString} (h : m.HoldsText value.chars) :
    ((List.range m.strlen).map fun i => m i) = value.chars := by
  rw [CString.strlen_holds h]
  refine List.ext_getElem (by simp) fun i hi hi' => ?_
  rw [List.getElem_map, List.getElem_range]
  exact h.1 i hi'

end Strings

/-! ## One expression

The step of the loop is computed for a text that begins with a plain part and then has an
expression. What is asked for is compared with what is written. -/

/-- The brackets of an expression -/
inductive Bracket : Type where
  | brace
  | paren
  deriving DecidableEq

namespace Bracket

def opening : Bracket → UInt8
  | brace => 0x7b
  | paren => 0x28

def closing : Bracket → UInt8
  | brace => 0x7d
  | paren => 0x29

end Bracket

section Step

variable {σ : Type} {S : Substitutor σ} {last : StringBlock} {s : σ} {q r name : List UInt8}
  {b : Bracket}

/-- What `reduce_value` makes of a complete expression -/
def Substitutor.reduce (S : Substitutor σ) (b : Bracket) (name : List UInt8) (s : σ) :
    Reduced × σ :=
  match b with
  | .brace => (⟨((S.env s).getString name).getD [], none⟩, s)
  | .paren =>
    let r := S.command name s
    let output := S.kMalloc 64 r.2
    (if output.1 = 0 then ⟨[], none⟩ else ⟨decimalText r.1, some output.1⟩, output.2)

/-- An expression with its closing bracket is replaced by the value of its name. -/
theorem reduceValue_complete (h : b.closing ∉ name) :
    reduceValue S (0x24 :: b.opening :: (name ++ b.closing :: r)) s = S.reduce b name s := by
  cases b with
  | brace =>
    have hend : strchr (name ++ 0x7d :: r) 0x7d = some name.length := strchr_append h
    simp [reduceValue, replaceVar, Substitutor.reduce, Bracket.opening, Bracket.closing, hend]
  | paren =>
    have hend : strchr (name ++ 0x29 :: r) 0x29 = some name.length := strchr_append h
    by_cases hnull : (S.kMalloc 64 (S.command name s).2).1 = 0
    · simp [reduceValue, evaluateCommand, Substitutor.reduce, Bracket.opening, Bracket.closing,
        hend, hnull]
    · simp [reduceValue, evaluateCommand, Substitutor.reduce, Bracket.opening, Bracket.closing,
        hend, hnull]

theorem replaceStep_plain (h : 0x24 ∉ last.text) : replaceStep S last s = .done last.text s := by
  rw [replaceStep, strchr_eq_none.mpr h]

/-- A `'$'` that starts no expression is looked at for ever. -/
theorem replaceStep_lone (htext : last.text = q ++ 0x24 :: r) (hq : 0x24 ∉ q)
    (hr : ∀ b : Bracket, r.head? ≠ some b.opening) :
    replaceStep S last s = .nextItem last s := by
  have hitem : last.text.drop q.length = 0x24 :: r := by rw [htext, List.drop_left]
  have hbrace : (0x24 :: r)[1]? ≠ some 0x7b := by
    rw [List.getElem?_cons_succ, ← List.head?_eq_getElem?]
    exact hr .brace
  have hparen : (0x24 :: r)[1]? ≠ some 0x28 := by
    rw [List.getElem?_cons_succ, ← List.head?_eq_getElem?]
    exact hr .paren
  unfold replaceStep
  rw [show strchr last.text 0x24 = some q.length by rw [htext, strchr_append hq]]
  simp only [hitem, if_neg hbrace, if_neg hparen]

/-- What the string is replaced by, as far as there is memory for it -/
def Substitutor.rewrite (S : Substitutor σ) (b : Bracket) (q name r : List UInt8)
    (last : StringBlock) (s : σ) :
    ReplaceState σ :=
  let reduced := S.reduce b name s
  let text := q ++ reduced.1.text ++ r
  let size := (text.length + 2) % 2 ^ 32
  let replaced := S.kMalloc size reduced.2
  if replaced.1 = 0 then .noMemory (freeReduced S reduced.1 (S.kFree last.addr replaced.2))
  else if text.length + 1 ≤ size then
    .nextItem ⟨replaced.1, size, text⟩ (S.kFree last.addr (freeReduced S reduced.1 replaced.2))
  else .fault

theorem replaceStep_complete
    (htext : last.text = q ++ 0x24 :: b.opening :: (name ++ b.closing :: r)) (hq : 0x24 ∉ q)
    (hname : b.closing ∉ name) (hlen : last.text.length < 2 ^ 32) :
    replaceStep S last s = S.rewrite b q name r last s := by
  have hitem : last.text.drop q.length = 0x24 :: b.opening :: (name ++ b.closing :: r) := by
    rw [htext, List.drop_left]
  have htake : last.text.take q.length = q := by rw [htext, List.take_left]
  have hclose : (if (0x24 :: b.opening :: (name ++ b.closing :: r))[1]? = some 0x7b
      then some (0x7d : UInt8)
      else if (0x24 :: b.opening :: (name ++ b.closing :: r))[1]? = some 0x28 then some 0x29
        else none) =
      some b.closing := by
    cases b <;> rfl
  have hend : strchr (0x24 :: b.opening :: (name ++ b.closing :: r)) b.closing =
      some (name.length + 2) := by
    have hmem : b.closing ∉ 0x24 :: b.opening :: name := by
      have hne : b.closing ≠ 0x24 ∧ b.closing ≠ b.opening := by cases b <;> decide
      simp [hne, hname]
    exact strchr_append hmem
  have hdrop : (0x24 :: b.opening :: (name ++ b.closing :: r)).drop (name.length + 2 + 1) = r := by
    simp [List.drop_append]
  have hsize : wordAdd (wordAdd last.text.length
      (wordSub (S.reduce b name s).1.text.length (name.length + 2))) 1 =
      ((q ++ (S.reduce b name s).1.text ++ r).length + 2) % 2 ^ 32 := by
    rw [htext] at hlen ⊢
    simp only [List.length_append, List.length_cons] at hlen ⊢
    unfold wordAdd wordSub
    omega
  unfold replaceStep
  rw [show strchr last.text 0x24 = some q.length by rw [htext, strchr_append hq]]
  simp only [hitem, htake, hclose, hend, reduceValue_complete hname, Option.getD_some, hdrop, hsize]
  rfl

end Step

/-! ## All expressions

The loop is followed part by part. A part without an expression is passed over, and one with an
expression takes one step. -/

theorem EnvRep.getString {s : ShellEnv} {es : List EnvEntry} {name : CString} (rep : EnvRep s es)
    (hplain : 0x24 ∉ name.chars) :
    s.getString name.chars = (entryValue es name).map CString.chars := by
  have hno : ¬[0x24, 0x7b] <+: name.chars := fun h => hplain (h.subset List.mem_cons_self)
  have hgets := rep.get hno (Memory.ofText_holds name.chars)
  unfold ShellEnv.getString
  cases hvalue : entryValue es name with
  | none =>
    rw [hvalue] at hgets
    obtain ⟨r, s', hrun, rfl, -⟩ := hgets
    rw [hrun]
    rfl
  | some value =>
    rw [hvalue] at hgets
    obtain ⟨r, s', hrun, rfl, env, rfl, hholds⟩ := hgets
    rw [hrun]
    exact congrArg some (Memory.map_range hholds)

section Substitution

variable {σ : Type} {S : Substitutor σ} {es : List EnvEntry}

/-- Nothing more happens to a text that is done. -/
theorem replaceLoop_final {r : ReplaceState σ} (h : r.Final) (n : ℕ) : replaceLoop S n r = r := by
  cases r with
  | nextItem last s => exact h.elim
  | done text s => cases n <;> rfl
  | noMemory s => cases n <;> rfl
  | fault => cases n <;> rfl

/-- The steps of the loop, one after the other. -/
theorem replaceLoop_add (m n : ℕ) (r : ReplaceState σ) :
    replaceLoop S (m + n) r = replaceLoop S n (replaceLoop S m r) := by
  induction m generalizing r with
  | zero =>
    rw [Nat.zero_add]
    rfl
  | succ m ih =>
    rw [Nat.add_right_comm]
    cases r with
    | nextItem last s => exact ih _
    | done text s => exact (replaceLoop_final (r := .done text s) trivial n).symm
    | noMemory s => exact (replaceLoop_final (r := .noMemory s) trivial n).symm
    | fault => exact (replaceLoop_final (r := .fault) trivial n).symm

/-- The loop comes to one end. -/
theorem replaceLoop_unique {m n : ℕ} {r a b : ReplaceState σ} (hm : replaceLoop S m r = a)
    (ha : a.Final) (hn : replaceLoop S n r = b) (hb : b.Final) : a = b := by
  subst hm hn
  rcases Nat.le_total m n with h | h
  · obtain ⟨k, rfl⟩ := Nat.exists_eq_add_of_le h
    rw [replaceLoop_add, replaceLoop_final ha]
  · obtain ⟨k, rfl⟩ := Nat.exists_eq_add_of_le h
    rw [replaceLoop_add, replaceLoop_final hb]

/-- A string in the loop: nothing to do up to some point, then parts of the line, and it fits with
the value of any variable beside it. -/
structure Rests (S : Substitutor σ) (es : List EnvEntry) (q : List UInt8) (parts : List LinePart)
    (last : StringBlock) (s : σ) : Prop where
  /-- the string is some text and then the parts -/
  text : last.text = q ++ parts.flatMap LinePart.raw
  /-- the text has nothing to replace -/
  plain : 0x24 ∉ q
  /-- the string fits into its block -/
  fits : last.text.length + 1 ≤ last.size
  size : last.size < 2 ^ 32
  /-- beside which there is room for any value -/
  beside : ∀ e ∈ es, last.size + (e.value.chars.length + 1) ≤ 2 ^ 32
  /-- the variables are as they were -/
  entries : S.entries s = es

/-- What is behind some text is to be looked at next. -/
theorem Rests.skip {q chars : List UInt8} {plain : 0x24 ∉ chars} {parts : List LinePart}
    {last : StringBlock} {s : σ} (h : Rests S es q (.text chars plain :: parts) last s) :
    Rests S es (q ++ chars) parts last s where
  text := by
    rw [h.text, List.flatMap_cons, List.append_assoc]
    rfl
  plain := by
    intro hmem
    rcases List.mem_append.mp hmem with hmem | hmem
    · exact h.plain hmem
    · exact plain hmem
  fits := h.fits
  size := h.size
  beside := h.beside
  entries := h.entries

/-- One name is replaced, if there is memory for the string. -/
theorem Rests.step (hsep : S.Separate) (hvalues : ∀ e ∈ es, 0x24 ∉ e.value.chars) {q : List UInt8}
    {name : CString} {plain : 0x24 ∉ name.chars ∧ 0x7d ∉ name.chars} {parts : List LinePart}
    {last : StringBlock} {s : σ}
    (h : Rests S es q (.var name plain :: parts) last s) :
    (∃ s', replaceStep S last s = .noMemory s') ∨ ∃ last' s',
      replaceStep S last s = .nextItem last' s' ∧
      Rests S es (q ++ (LinePart.var name plain).meaning (entryValue es)) parts last' s' := by
  have htext : last.text = q ++ 0x24 :: Bracket.brace.opening ::
      (name.chars ++ Bracket.brace.closing :: parts.flatMap LinePart.raw) := by
    rw [h.text, List.flatMap_cons, LinePart.raw]
    simp [Bracket.opening, Bracket.closing]
  have hlen : last.text.length < 2 ^ 32 := by
    have := h.fits
    have := h.size
    omega
  have hreduce : S.reduce .brace name.chars s =
      (⟨(LinePart.var name plain).meaning (entryValue es), none⟩, s) := by
    rw [Substitutor.reduce, (S.rep s).getString plain.1, h.entries]
    rfl
  generalize hvalue : (LinePart.var name plain).meaning (entryValue es) = value at hreduce ⊢
  have hshort : 0x24 ∉ value ∧ last.size + value.length < 2 ^ 32 := by
    rw [← hvalue, LinePart.meaning]
    rcases EnvRep.find_cases es name with ⟨hfind, -⟩ | ⟨as, e, bs, heq, -, hfind⟩
    · rw [entryValue, hfind]
      exact ⟨List.not_mem_nil, h.size⟩
    · have he : e ∈ es := by simp [heq]
      rw [entryValue, hfind]
      refine ⟨hvalues e he, ?_⟩
      have := h.beside e he
      change last.size + e.value.chars.length < 2 ^ 32
      omega
  generalize hrest : parts.flatMap LinePart.raw = rest at htext
  have hroom : (q ++ value ++ rest).length + 2 < 2 ^ 32 := by
    have hfits := h.fits
    rw [htext] at hfits
    simp only [List.length_append, List.length_cons] at hfits ⊢
    omega
  rw [replaceStep_complete htext h.plain plain.2 hlen, Substitutor.rewrite, hreduce]
  simp only [Nat.mod_eq_of_lt hroom, freeReduced]
  by_cases hnull : (S.kMalloc ((q ++ value ++ rest).length + 2) s).1 = 0
  · rw [if_pos hnull]
    exact .inl ⟨_, rfl⟩
  · rw [if_neg hnull, if_pos (Nat.le_succ _)]
    refine .inr ⟨_, _, rfl, ?_⟩
    exact {
      text := by rw [hrest]
      plain := by
        intro hmem
        rcases List.mem_append.mp hmem with hmem | hmem
        · exact h.plain hmem
        · exact hshort.1 hmem
      fits := Nat.le_succ _
      size := hroom
      beside := fun e he => hsep.beside _ s hnull e (by rw [h.entries]; exact he)
      entries := by rw [hsep.free_entries, hsep.malloc_entries, h.entries] }

/-- Where memory is granted, the loop comes to its end with the values in place, and every string
fits. -/
theorem Rests.run (hsep : S.Separate) (hvalues : ∀ e ∈ es, 0x24 ∉ e.value.chars)
    {parts : List LinePart} {q : List UInt8} {last : StringBlock} {s : σ}
    (h : Rests S es q parts last s)
    (hgrant : ∀ n s', replaceLoop S n (.nextItem last s) ≠ .noMemory s') :
    (∃ n s', replaceLoop S n (.nextItem last s) =
      .done (q ++ parts.flatMap (LinePart.meaning (entryValue es))) s') ∧
    ∀ n, replaceLoop S n (.nextItem last s) ≠ .fault ∧
      ∀ last' s', replaceLoop S n (.nextItem last s) = .nextItem last' s' →
        last'.text.length + 1 ≤ last'.size := by
  induction parts generalizing q last s with
  | nil =>
    have htext : last.text = q := by rw [h.text, List.flatMap_nil, List.append_nil]
    have hstep : replaceStep S last s = .done q s := by
      rw [← htext]
      exact replaceStep_plain (htext ▸ h.plain)
    have hloop (n : ℕ) : replaceLoop S (n + 1) (.nextItem last s) = .done q s := by
      rw [replaceLoop, hstep, replaceLoop_final (r := .done q s) trivial]
    refine ⟨⟨1, s, ?_⟩, fun n => ?_⟩
    · rw [hloop, List.flatMap_nil, List.append_nil]
    · cases n with
      | zero =>
        refine ⟨nofun, ?_⟩
        rintro last' s' heq
        cases heq
        exact h.fits
      | succ n =>
        rw [hloop]
        exact ⟨nofun, nofun⟩
  | cons part parts ih =>
    cases part with
    | text chars plain =>
      rw [List.flatMap_cons, ← List.append_assoc]
      exact ih h.skip hgrant
    | var name plain =>
      rcases h.step hsep hvalues with ⟨s', hstep⟩ | ⟨last', s', hstep, h'⟩
      · refine absurd ?_ (hgrant 1 s')
        change replaceLoop S 0 (replaceStep S last s) = .noMemory s'
        rw [hstep]
        rfl
      · have hloop (n : ℕ) : replaceLoop S (n + 1) (.nextItem last s) =
            replaceLoop S n (.nextItem last' s') := by
          rw [replaceLoop, hstep]
        obtain ⟨⟨n, t, hdone⟩, hfits⟩ := ih h' fun n t => by
          rw [← hloop]
          exact hgrant (n + 1) t
        refine ⟨⟨n + 1, t, ?_⟩, fun n => ?_⟩
        · rw [hloop, hdone, List.flatMap_cons, List.append_assoc]
        · cases n with
          | zero =>
            refine ⟨nofun, ?_⟩
            rintro last' s' heq
            cases heq
            exact h.fits
          | succ n =>
            rw [hloop]
            exact hfits n

/-- **The names of a line are replaced by their values, all at once**, if memory is granted and no
value has a `'$'`. -/
theorem replace_expressions_substitutes (hsep : S.Separate) (input : CString) (s : σ)
    (parts : List LinePart) (hline : input.chars = parts.flatMap LinePart.raw)
    (hvalues : ∀ e ∈ S.entries s, 0x24 ∉ e.value.chars)
    (hcopy : (S.kMalloc (input.chars.length + 1) s).1 ≠ 0)
    (hgrant : ∀ n s', replaceExpressions S input.chars s n ≠ .noMemory s') :
    (∃ n s', replaceExpressions S input.chars s n =
      .done (parts.flatMap (LinePart.meaning (entryValue (S.entries s)))) s') ∧
    ∀ n, replaceExpressions S input.chars s n ≠ .fault ∧
      ∀ last s', replaceExpressions S input.chars s n = .nextItem last s' →
        last.text.length + 1 ≤ last.size := by
  have hshort := input.short
  have hsize : wordAdd input.chars.length 1 = input.chars.length + 1 := wordAdd_of_lt (by omega)
  have hstart : replaceStart S input.chars s =
      .nextItem ⟨(S.kMalloc (input.chars.length + 1) s).1, input.chars.length + 1, input.chars⟩
        (S.kMalloc (input.chars.length + 1) s).2 := by
    rw [replaceStart, hsize]
    exact if_neg (not_or.mpr ⟨hcopy, lt_irrefl _⟩)
  unfold replaceExpressions at hgrant ⊢
  rw [hstart] at hgrant ⊢
  refine Rests.run (q := []) hsep hvalues ⟨hline, List.not_mem_nil, le_rfl, ?_, ?_,
    hsep.malloc_entries _ s⟩ hgrant
  · change input.chars.length + 1 < 2 ^ 32
    omega
  · exact fun e he => hsep.beside _ s hcopy e he

end Substitution

/-! ### One variable -/

theorem nameA_noNul : (0 : UInt8) ∉ [(0x61 : UInt8)] := by decide

theorem nameA_short : [(0x61 : UInt8)].length + 4 < 2 ^ 32 := by decide

theorem text10_noNul : (0 : UInt8) ∉ [(0x31 : UInt8), 0x30] := by decide

theorem text10_short : [(0x31 : UInt8), 0x30].length + 4 < 2 ^ 32 := by decide

/-- `a` is `10`. -/
def oneVariable : EnvEntry where
  var := 1
  string := 2
  name := ⟨[0x61], nameA_noNul, nameA_short⟩
  value := ⟨[0x31, 0x30], text10_noNul, text10_short⟩

/-- The environment with that variable -/
def oneVariableEnv : ShellEnv where
  vars := ⟨fun c => if c = .vars then .entry 1 else .vars, fun c => if c = .vars then .entry 1
    else .vars⟩
  var _ := ⟨.string, 2, 2, Memory.ofText [0x61]⟩
  str _ := ⟨3, Memory.ofText [0x31, 0x30]⟩
  blocks := {1, 2}
  asked := 0

theorem oneVariableEnv_rep : EnvRep oneVariableEnv [oneVariable] where
  lists := ⟨⟨rfl, rfl⟩, ⟨rfl, rfl⟩, by decide⟩
  stored := by
    intro e he
    rw [List.mem_singleton.mp he]
    exact ⟨rfl, rfl, Memory.ofText_holds _, Memory.ofText_holds _, by decide⟩
  names := List.nodup_singleton _
  apart := by decide
  blocks := by decide

/-- Memory is granted as long as there is room beside the value. -/
def oneVariableSystem : Substitutor ℕ where
  env _ := oneVariableEnv
  entries _ := [oneVariable]
  rep _ := oneVariableEnv_rep
  command _ k := (0, k)
  kMalloc n k := if n + 3 ≤ 2 ^ 32 then (k + 1, k + 1) else (0, k)
  kFree _ k := k

/-- The blocks that are allocated are not the environment's. -/
theorem oneVariableSystem_separate : oneVariableSystem.Separate where
  malloc_entries _ _ := rfl
  free_entries _ _ := rfl
  beside := by
    intro n s hgrant e he
    rw [List.mem_singleton.mp he]
    by_contra hno
    exact hgrant (congrArg Prod.fst (if_neg hno))

/-- `x${a}y` -/
def bracedLine : List LinePart :=
  [.text [0x78] (by decide), .var oneVariable.name (by decide), .text [0x79] (by decide)]

theorem bracedLine_granted (n s' : ℕ) :
    replaceExpressions oneVariableSystem (bracedLine.flatMap LinePart.raw) 0 n ≠ .noMemory s' := by
  intro hnull
  have hdone : replaceExpressions oneVariableSystem (bracedLine.flatMap LinePart.raw) 0 2 =
      .done [0x78, 0x31, 0x30, 0x79] 2 := rfl
  exact nomatch replaceLoop_unique hdone trivial hnull trivial

/-- `x${a}y` becomes `x10y`. -/
theorem replace_expressions_substitutes_one :
    (∃ n s', replaceExpressions oneVariableSystem (bracedLine.flatMap LinePart.raw) 0 n =
      .done [0x78, 0x31, 0x30, 0x79] s') ∧
    ∀ n, replaceExpressions oneVariableSystem (bracedLine.flatMap LinePart.raw) 0 n ≠ .fault ∧
      ∀ last s',
      replaceExpressions oneVariableSystem (bracedLine.flatMap LinePart.raw) 0 n =
        .nextItem last s' →
        last.text.length + 1 ≤ last.size :=
  replace_expressions_substitutes oneVariableSystem_separate
  ⟨bracedLine.flatMap LinePart.raw, by decide, by decide⟩ 0
    bracedLine rfl (by decide) (by decide) bracedLine_granted

end BitThunder
