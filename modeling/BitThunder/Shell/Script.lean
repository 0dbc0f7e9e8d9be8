import BitThunder.Mm.Defs

/-!
# Scripts

`BT_ShellScript` of `os/src/shell/bt_shell.c`, and `BT_GetS` of `os/src/fs/bt_file.c` that reads its
lines. What a condition comes to and what a command does is up to the system. The script counts the
branches that are not taken in one number, and it knows the keywords by the first letters of a line.

A `Script` is what a file says whose conditionals are nested; `meaning` is what it is to do, and
`Clean` is asked of one that is followed.

Two definitions read the same file. `btShellScript` goes line by line with a number, as the source
does; `Script.meaning` goes by the nesting, and takes or leaves whole branches. Both record what
they came to as a list of entries, so that what was executed can be compared without looking at what
the commands do to the system.

Reading is a part of it. A line of 254 characters fills the buffer, and what ends it is read as a
blank line. A shorter line that the file breaks off in is not given back at all.
-/

namespace BitThunder

/-! ## Lines

A line has a kind by its first word, and another one by its first letters, which is what the code
goes by. They differ for words that begin like a keyword. -/

/-- What a line is taken for, if it is not blank and no comment -/
inductive LineKind : Type where
  | ifLine | elseLine | endifLine | command
  deriving DecidableEq

/-- `isspace` -/
def isSpace (c : UInt8) : Bool := c = 32 || (9 ≤ c && c ≤ 13)

/-- `eatspace` -/
def eatSpace (line : List UInt8) : List UInt8 := line.dropWhile isSpace

/-- `"if"` -/
def ifWord : List UInt8 := [0x69, 0x66]

/-- `"else"` -/
def elseWord : List UInt8 := [0x65, 0x6c, 0x73, 0x65]

/-- `"endif"` -/
def endifWord : List UInt8 := [0x65, 0x6e, 0x64, 0x69, 0x66]

/-- What `BT_ShellScript` takes a line for; `strncmp` compares the first letters. -/
def codeKind (p : List UInt8) : Option LineKind :=
  if p.head? = some 0x23 then none
  else if p = [] then none
  else if ifWord.isPrefixOf p then some .ifLine
  else if elseWord.isPrefixOf p then some .elseLine
  else if endifWord.isPrefixOf p then some .endifLine
  else some .command

/-- What a line is by its first word -/
def wordKind (p : List UInt8) : Option LineKind :=
  let word := p.takeWhile fun c => !isSpace c
  if p.head? = some 0x23 then none
  else if p = [] then none
  else if word = ifWord then some .ifLine
  else if word = elseWord then some .elseLine
  else if word = endifWord then some .endifLine
  else some .command

/-! ## Runs

A run keeps a record of the lines it came to, so that the two readings can be compared line by line,
together with the state that conditions and commands work on. -/

/-- A line that was come to, what it was taken for, and whether its condition was evaluated or its
command executed -/
structure ScriptEntry : Type where
  line : List UInt8
  kind : LineKind
  active : Bool
  deriving DecidableEq

/-- A run: the lines it came to, the error it ended with, and the state behind it -/
structure ScriptRun (τ : Type) : Type where
  entries : List ScriptEntry
  error : ℤ
  state : τ

/-- What conditions and commands do; a command returns an error or `0`. -/
structure ShellSystem (σ : Type) : Type where
  condition : List UInt8 → σ → Bool × σ
  command : List UInt8 → σ → ℤ × σ

namespace ScriptRun

variable {τ υ : Type}

/-- Go on, unless there was an error. -/
def andThen (r : ScriptRun τ) (f : τ → ScriptRun τ) : ScriptRun τ :=
  if r.error ≠ 0 then r
  else
    { entries := r.entries ++ (f r.state).entries
      error := (f r.state).error
      state := (f r.state).state }

/-- The same run, of something with more in its state -/
def lift (r : ScriptRun τ) (g : τ → υ) : ScriptRun υ where
  entries := r.entries
  error := r.error
  state := g r.state

/-- A run over lines without a command -/
def quiet (entries : List ScriptEntry) (t : τ) : ScriptRun τ where
  entries := entries
  error := 0
  state := t

theorem andThen_assoc (r : ScriptRun τ) (f g : τ → ScriptRun τ) :
    (r.andThen f).andThen g = r.andThen fun t => (f t).andThen g := by
  unfold andThen
  by_cases hr : r.error = 0
  · by_cases hf : (f r.state).error = 0
    · simp [hr, hf]
    · simp [hr, hf]
  · simp [hr]

end ScriptRun

section Code

variable {σ : Type} (S : ShellSystem σ)

/-- One line in the loop of `BT_ShellScript`, with `if_false_depth` in the state -/
def scriptLine (line : List UInt8) (t : ℕ × σ) : ScriptRun (ℕ × σ) :=
  let p := eatSpace line
  match codeKind p with
  | none => .quiet [] t
  | some .ifLine =>
    let r := S.condition p t.2
    .quiet [⟨p, .ifLine, true⟩] (if r.1 then t.1 else wordAdd t.1 1, r.2)
  | some .elseLine => .quiet [⟨p, .elseLine, false⟩] (if t.1 = 1 then t.1 ^^^ 1
    else wordAdd t.1 1, t.2)
  | some .endifLine => .quiet [⟨p, .endifLine, false⟩] (if t.1 ≠ 0 then t.1 - 1 else t.1, t.2)
  | some .command =>
    if t.1 = 0 then
      let r := S.command p t.2
      ⟨[⟨p, .command, true⟩], r.1, (t.1, r.2)⟩
    else .quiet [⟨p, .command, false⟩] t

/-- The loop, over lines that have been read -/
def runLines : List (List UInt8) → ℕ × σ → ScriptRun (ℕ × σ)
  | [], t => .quiet [] t
  | line :: lines, t => (scriptLine S line t).andThen (runLines lines)

/-! ## Reading lines

The buffer, the character that ended the loop and the rest of the file go through the function as
they do in the source. -/

/-- `BT_GetC`: a byte, or an error at the end of the file -/
def btGetC : List UInt8 → ℤ × List UInt8
  | [] => (toS32 errGeneric, [])
  | c :: file => (c.toNat, file)

/-- The loop of `BT_GetS`; `ulSize` is not `0`. It ends with `ulSize`, `c`, what is behind `t`, and
the file. -/
def getSLoop : ℕ → List UInt8 → ℤ → List UInt8 → ℕ × ℤ × List UInt8 × List UInt8
  | 0, s, c, file => (0, c, s, file)
  | ulSize + 1, s, c, file =>
    if ulSize > 1 then
      let r := btGetC file
      if r.1 ≠ 0 ∧ (r.1 ≠ 10 ∧ r.1 ≠ 13) ∧ r.1 ≥ 0
        then getSLoop ulSize (s ++ [UInt8.ofNat r.1.toNat]) r.1 r.2
      else (ulSize, r.1, s, r.2)
    else (ulSize, c, s, file)

/-- `BT_GetS`: what it returns, the line, and the rest of the file -/
def btGetS (ulSize : ℕ) (file : List UInt8) : ℤ × List UInt8 × List UInt8 :=
  match getSLoop ulSize [] 0 file with
  | (ulSize, c, s, file) =>
    if c < 0 then (c, s, file)
    else
      let s := if c = 10 ∨ c = 13 then s ++ [UInt8.ofNat c.toNat] else if ulSize = 1 then s ++ [10]
        else s
      (s.length, s, file)

/-- The line without what ends it -/
def stripLine (line : List UInt8) : List UInt8 :=
  if line.getLast? = some 10 ∨ line.getLast? = some 13 then line.dropLast else line

theorem getSLoop_rest (ulSize : ℕ) (s : List UInt8) (c : ℤ) (file : List UInt8) :
    (getSLoop ulSize s c file).2.2.2.length ≤ file.length := by
  induction ulSize generalizing s c file with
  | zero => exact le_rfl
  | succ ulSize ih =>
    have hget : (btGetC file).2.length ≤ file.length := by
      cases file with
      | nil => exact le_rfl
      | cons a file => exact Nat.le_succ _
    rw [getSLoop]
    split
    · dsimp only
      split
      · exact (ih ..).trans hget
      · exact hget
    · exact le_rfl

/-- A line that was read has been taken from the file. -/
theorem btGetS_rest (file : List UInt8) (h : (btGetS 256 file).1 > 0) :
    (btGetS 256 file).2.2.length < file.length := by
  cases file with
  | nil => exact absurd h (by decide)
  | cons a file =>
    have hloop : (getSLoop 256 [] 0 (a :: file)).2.2.2.length ≤ file.length := by
      rw [getSLoop, if_pos (by decide)]
      dsimp only
      split
      · exact getSLoop_rest ..
      · exact le_rfl
    refine Nat.lt_succ_of_le ?_
    unfold btGetS
    split
    rename_i heq
    rw [heq] at hloop
    split
    · exact hloop
    · exact hloop

/-- The loop of `BT_ShellScript` -/
def scriptLoop (file : List UInt8) (t : ℕ × σ) : ScriptRun (ℕ × σ) :=
  if _h : (btGetS 256 file).1 > 0 then
    (scriptLine S (stripLine (btGetS 256 file).2.1) t).andThen (scriptLoop (btGetS 256 file).2.2)
  else .quiet [] t
termination_by file.length
decreasing_by exact btGetS_rest file _h

/-- `BT_ShellScript`: of a file that may not be there, with a buffer for the lines or without -/
def btShellScript (file : Option (List UInt8)) (granted : Bool) (s : σ) : ScriptRun (ℕ × σ) :=
  match file with
  | none => ⟨[], toS32 errGeneric, (0, s)⟩
  | some file => if granted then scriptLoop S file (0, s) else ⟨[], toS32 errNoMemory, (0, s)⟩

end Code

/-! ## Scripts and their meaning

A script is a tree, and its meaning is a recursion over it. A branch that is not taken leaves no
trace, and behind a command that fails nothing is done. -/

/-- A line of at most 254 characters -/
structure ScriptLine : Type where
  chars : List UInt8
  text : ∀ c ∈ chars, c ≠ 0 ∧ c ≠ 10 ∧ c ≠ 13
  short : chars.length ≤ 254

/-- The line from its first letter on -/
def ScriptLine.eaten (l : ScriptLine) : List UInt8 := eatSpace l.chars

/-- What a line is -/
def ScriptLine.kind (l : ScriptLine) : Option LineKind := wordKind l.eaten

/-- Lines whose conditionals are nested -/
inductive Script : Type where
  | done
  | line (l : ScriptLine) (plain : l.kind = none ∨ l.kind = some .command) (rest : Script)
  | ifThen (l : ScriptLine) (isIf : l.kind = some .ifLine) (body : Script)
      (fi : ScriptLine) (isFi : fi.kind = some .endifLine) (rest : Script)
  | ifElse (l : ScriptLine) (isIf : l.kind = some .ifLine) (body : Script)
      (el : ScriptLine) (isElse : el.kind = some .elseLine) (orelse : Script)
      (fi : ScriptLine) (isFi : fi.kind = some .endifLine) (rest : Script)

namespace Script

/-- The lines, in order -/
def lines : Script → List ScriptLine
  | done => []
  | line l _ rest => l :: rest.lines
  | ifThen l _ body fi _ rest => l :: (body.lines ++ fi :: rest.lines)
  | ifElse l _ body el _ orelse fi _ rest => l ::
  (body.lines ++ el :: (orelse.lines ++ fi :: rest.lines))

/-- The lines of a branch that is not taken -/
def passed : Script → List ScriptEntry
  | done => []
  | line l _ rest => l.kind.toList.map (⟨l.eaten, ·, false⟩) ++ rest.passed
  | ifThen l _ body fi _ rest => ⟨l.eaten, .ifLine, false⟩ ::
  (body.passed ++ ⟨fi.eaten, .endifLine, false⟩ :: rest.passed)
  | ifElse l _ body el _ orelse fi _ rest =>
    ⟨l.eaten, .ifLine, false⟩ :: (body.passed ++ ⟨el.eaten, .elseLine, false⟩ ::
      (orelse.passed ++ ⟨fi.eaten, .endifLine, false⟩ :: rest.passed))

variable {σ : Type} (S : ShellSystem σ)

/-- A line that is no keyword, where it is reached -/
def plainRun (l : ScriptLine) (s : σ) : ScriptRun σ :=
  if l.kind = none then .quiet [] s
  else
    let r := S.command l.eaten s
    ⟨[⟨l.eaten, .command, true⟩], r.1, r.2⟩

/-- What the script means: the branches that are taken, up to the first command that fails. -/
def meaning : Script → σ → ScriptRun σ
  | done, s => .quiet [] s
  | line l _ rest, s => (plainRun S l s).andThen rest.meaning
  | ifThen l _ body fi _ rest, s =>
    let r := S.condition l.eaten s
    (ScriptRun.quiet [⟨l.eaten, .ifLine, true⟩] r.2).andThen fun s =>
      (if r.1 then body.meaning s else .quiet body.passed s).andThen fun s =>
        (ScriptRun.quiet [⟨fi.eaten, .endifLine, false⟩] s).andThen rest.meaning
  | ifElse l _ body el _ orelse fi _ rest, s =>
    let r := S.condition l.eaten s
    (ScriptRun.quiet [⟨l.eaten, .ifLine, true⟩] r.2).andThen fun s =>
      (if r.1 then body.meaning s else .quiet body.passed s).andThen fun s =>
        (ScriptRun.quiet [⟨el.eaten, .elseLine, false⟩] s).andThen fun s =>
          (if r.1 then .quiet orelse.passed s else orelse.meaning s).andThen fun s =>
            (ScriptRun.quiet [⟨fi.eaten, .endifLine, false⟩] s).andThen rest.meaning

/-- The file: every line is ended, the last one perhaps not. -/
def file (t : Script) (ended : Bool) : List UInt8 :=
  let bytes := t.lines.flatMap fun l => l.chars ++ [10]
  if ended then bytes else bytes.dropLast

/-! ### What is asked of a run, and when it is so

`Meets` allows the meaning to name lines that the run did not come to, as long as nothing was to be
done there. -/

/-- The run came to the lines of the script, took each for what its first word says, and evaluated
and executed what the script means; lines it did not come to are ones where nothing is to be done.
-/
structure Meets (m : ScriptRun σ) (run : ScriptRun (ℕ × σ)) : Prop where
  /-- what is meant is what was done, and behind it there is nothing to do -/
  entries : ∃ rest, m.entries = run.entries ++ rest ∧ ∀ e ∈ rest, e.active = false
  /-- and the error is the same -/
  error : run.error = m.error

/-- `BT_ShellScript` takes the line for what it is. -/
def Named (l : ScriptLine) : Prop := codeKind l.eaten = l.kind

/-- No conditional stands in a branch that is not taken, and all its lines are taken for what they
are. -/
def Flat : Script → Prop
  | done => True
  | line l _ rest => Named l ∧ rest.Flat
  | ifThen .. | ifElse .. => False

/-- A branch that is taken or passed over -/
def branch (t : Script) (taken : Bool) (s : σ) : ScriptRun σ :=
  if taken then t.meaning S s else .quiet t.passed s

/-- Up to the first command that fails, no conditional stands in a branch that is not taken, and no
line is taken for something else. -/
def Clean : Script → σ → Prop
  | done, _ => True
  | line l _ rest, s => Named l ∧ ((plainRun S l s).error = 0 → rest.Clean (plainRun S l s).state)
  | ifThen l _ body _ _ rest, s =>
    let r := S.condition l.eaten s
    let run := body.branch S r.1 r.2
    (if r.1 then body.Clean r.2 else body.Flat) ∧ (run.error = 0 → rest.Clean run.state)
  | ifElse l _ body _ _ orelse _ _ rest, s =>
    let r := S.condition l.eaten s
    let run := body.branch S r.1 r.2
    (if r.1 then body.Clean r.2 else body.Flat) ∧ (run.error = 0 →
      let run' := orelse.branch S (!r.1) run.state
      (if !r.1 then orelse.Clean run.state else orelse.Flat) ∧
        (run'.error = 0 → rest.Clean run'.state))

end Script

/-! ## Kinds -/

theorem takeWhile_prefix_eq {p w : List UInt8} {f : UInt8 → Bool} (h : p.takeWhile f = w) :
    ∃ rest, p = w ++ rest :=
  ⟨p.dropWhile f, by rw [← h, List.takeWhile_append_dropWhile]⟩

/-- A line with a keyword or a command is code. -/
theorem codeKind_eq_none {p : List UInt8} : codeKind p = none ↔ wordKind p = none := by
  unfold codeKind wordKind
  dsimp only
  split_ifs <;> simp

/-- A line that begins with a keyword is taken for that. -/
theorem codeKind_of_word {p : List UInt8} {k : LineKind} (h : wordKind p = some k)
    (hk : k ≠ .command) :
    codeKind p = some k := by
  unfold wordKind at h
  dsimp only at h
  split_ifs at h with h₁ h₂ h₃ h₄ h₅
  · obtain ⟨rest, rfl⟩ := takeWhile_prefix_eq h₃
    rw [← Option.some.inj h]
    rfl
  · obtain ⟨rest, rfl⟩ := takeWhile_prefix_eq h₄
    rw [← Option.some.inj h]
    rfl
  · obtain ⟨rest, rfl⟩ := takeWhile_prefix_eq h₅
    rw [← Option.some.inj h]
    rfl
  · exact absurd (Option.some.inj h).symm hk

/-! ## The lines of a file

Each way a line can lie in a file is followed through the loop that reads it: ended and short, as
long as the buffer, or broken off by the end of the file. -/

/-- No line ends at such a character. -/
def IsText (c : UInt8) : Prop := c ≠ 0 ∧ c ≠ 10 ∧ c ≠ 13

/-- Characters are read while there is room for more. -/
theorem getSLoop_chars {cs : List UInt8} (hcs : ∀ c ∈ cs, IsText c) {m : ℕ} (hm : 2 ≤ m)
    (s : List UInt8) (c : ℤ) (tail : List UInt8) :
    ∃ c', (cs = [] ∧ c' = c ∨ 0 < c' ∧ c' ≠ 10 ∧ c' ≠ 13) ∧
      getSLoop (m + cs.length) s c (cs ++ tail) = getSLoop m (s ++ cs) c' tail := by
  induction cs generalizing s c with
  | nil => exact ⟨c, .inl ⟨rfl, rfl⟩, by simp⟩
  | cons a cs ih =>
    have ha : IsText a := hcs a List.mem_cons_self
    have h0 : (a.toNat : ℤ) ≠ 0 := fun h => ha.1 (UInt8.toNat_inj.mp (by simpa using h))
    have h10 : (a.toNat : ℤ) ≠ 10 := fun h => ha.2.1 (UInt8.toNat_inj.mp (by exact_mod_cast h))
    have h13 : (a.toNat : ℤ) ≠ 13 := fun h => ha.2.2 (UInt8.toNat_inj.mp (by exact_mod_cast h))
    obtain ⟨c', hc', hloop⟩ := ih (fun b hb => hcs b (List.mem_cons_of_mem a hb)) (s ++ [a]) a.toNat
    refine ⟨c', ?_, ?_⟩
    · rcases hc' with ⟨-, rfl⟩ | hc'
      · exact .inr ⟨by omega, h10, h13⟩
      · exact .inr hc'
    · have hsize : m + (a :: cs).length = m + cs.length + 1 := rfl
      rw [hsize, getSLoop, if_pos (by omega), List.cons_append]
      dsimp only [btGetC]
      rw [if_pos ⟨h0, ⟨h10, h13⟩, by omega⟩]
      have hofNat : UInt8.ofNat (a.toNat : ℤ).toNat = a := by simp
      rw [hofNat, hloop, List.append_assoc, List.singleton_append]

/-- A line that fits is read with what ends it. -/
theorem btGetS_line {l : List UInt8} (hl : ∀ c ∈ l, IsText c) {ulSize : ℕ}
    (hlen : l.length + 3 ≤ ulSize) {e : UInt8} (he : e = 10 ∨ e = 13) (rest : List UInt8) :
    btGetS ulSize (l ++ e :: rest) = ((l.length : ℤ) + 1, l ++ [e], rest) := by
  obtain ⟨c, -, hloop⟩ := getSLoop_chars hl (m := ulSize - l.length) (by omega) [] 0 (e :: rest)
  have hstep : getSLoop (ulSize - l.length) l c (e :: rest) =
      (ulSize - l.length - 1, (e.toNat : ℤ), l, rest) := by
    obtain ⟨m, hm⟩ : ∃ m, ulSize - l.length = m + 1 := ⟨ulSize - l.length - 1, by omega⟩
    rw [hm, getSLoop, if_pos (by omega)]
    rcases he with rfl | rfl <;> rfl
  rw [show ulSize - l.length + l.length = ulSize by omega, List.nil_append, hstep] at hloop
  rw [btGetS, hloop]
  rcases he with rfl | rfl <;> simp

/-- A shorter line that the file ends in is not read. -/
theorem btGetS_unended {l : List UInt8} (hl : ∀ c ∈ l, IsText c) {ulSize : ℕ}
    (hlen : l.length + 3 ≤ ulSize) :
    btGetS ulSize l = (toS32 errGeneric, l, []) := by
  obtain ⟨c, -, hloop⟩ := getSLoop_chars hl (m := ulSize - l.length) (by omega) [] 0 []
  have hstep : getSLoop (ulSize - l.length) l c [] =
      (ulSize - l.length - 1, toS32 errGeneric, l, []) := by
    obtain ⟨m, hm⟩ : ∃ m, ulSize - l.length = m + 1 := ⟨ulSize - l.length - 1, by omega⟩
    rw [hm, getSLoop, if_pos (by omega)]
    rfl
  rw [show ulSize - l.length + l.length =
    ulSize by omega, List.nil_append, List.append_nil, hstep] at hloop
  rw [btGetS, hloop]
  rfl

/-- A line that does not fit is read up to where the buffer is full. -/
theorem btGetS_cut {l : List UInt8} (hl : ∀ c ∈ l, IsText c) {ulSize : ℕ}
    (hlen : l.length + 2 = ulSize) (rest : List UInt8) :
    btGetS ulSize (l ++ rest) = ((l.length : ℤ) + 1, l ++ [10], rest) := by
  obtain ⟨c, hc, hloop⟩ := getSLoop_chars hl (m := 2) le_rfl [] 0 rest
  have hstep : getSLoop 2 l c rest = (1, c, l, rest) := by
    rw [getSLoop, if_neg (by decide)]
  rw [Nat.add_comm, hlen, List.nil_append, hstep] at hloop
  have hplain : ¬ c < 0 ∧ ¬ (c = 10 ∨ c = 13) := by
    rcases hc with ⟨-, rfl⟩ | ⟨hpos, h10, h13⟩
    · exact ⟨by decide, by decide⟩
    · exact ⟨not_lt.mpr hpos.le, by simp [h10, h13]⟩
  rw [btGetS, hloop]
  dsimp only
  rw [if_neg hplain.1, if_neg hplain.2, if_pos rfl]
  simp

/-- A line shorter than 254 characters is read with what ends it. -/
theorem btGetS_ended {l : List UInt8} (hl : ∀ c ∈ l, IsText c) (hlen : l.length < 254)
    (rest : List UInt8) :
    btGetS 256 (l ++ 10 :: rest) = ((l.length : ℤ) + 1, l ++ [10], rest) :=
  btGetS_line hl (by omega) (.inl rfl) rest

/-- At the end of the file a shorter line is not read. -/
theorem btGetS_lost {l : List UInt8} (hl : ∀ c ∈ l, IsText c) (hlen : l.length < 254) :
    ¬ (btGetS 256 l).1 > 0 := by
  rw [btGetS_unended hl (by omega)]
  exact (by decide : ¬ toS32 errGeneric > 0)

/-- A line of 254 characters is read without what ends it. -/
theorem btGetS_full {l : List UInt8} (hl : ∀ c ∈ l, IsText c) (hlen : l.length = 254)
    (rest : List UInt8) :
    btGetS 256 (l ++ rest) = (255, l ++ [10], rest) := by
  rw [btGetS_cut hl (by omega), hlen]
  rfl

@[simp] theorem stripLine_newline (l : List UInt8) : stripLine (l ++ [10]) = l := by
  simp [stripLine]

namespace ScriptRun

variable {τ : Type}

@[simp] theorem quiet_nil_andThen (t : τ) (f : τ → ScriptRun τ) : (quiet [] t).andThen f = f t :=
  rfl

@[simp] theorem andThen_quiet_nil (r : ScriptRun τ) : r.andThen (quiet []) = r := by
  unfold andThen quiet
  split_ifs with h
  · rfl
  · obtain ⟨entries, error, state⟩ := r
    obtain rfl : error = 0 := not_not.mp h
    simp

end ScriptRun

section Files

variable {σ : Type} (S : ShellSystem σ)

/-- A line that is read is run, and the rest after it. -/
theorem scriptLoop_read {file line rest : List UInt8} {n : ℤ} (hn : 0 < n)
    (h : btGetS 256 file = (n, line, rest)) (t : ℕ × σ) :
    scriptLoop S file t = (scriptLine S (stripLine line) t).andThen (scriptLoop S rest) := by
  rw [scriptLoop, dif_pos (by rw [h]; exact hn), h]

theorem scriptLoop_short {l : List UInt8} (hl : ∀ c ∈ l, IsText c) (hlen : l.length < 254)
    (rest : List UInt8) (t : ℕ × σ) :
    scriptLoop S (l ++ 10 :: rest) t = (scriptLine S l t).andThen (scriptLoop S rest) := by
  rw [scriptLoop_read S (by positivity) (btGetS_ended hl hlen rest) t, stripLine_newline]

theorem scriptLoop_full {l : List UInt8} (hl : ∀ c ∈ l, IsText c) (hlen : l.length = 254)
    (rest : List UInt8) (t : ℕ × σ) :
    scriptLoop S (l ++ rest) t = (scriptLine S l t).andThen (scriptLoop S rest) := by
  rw [scriptLoop_read S (by decide) (btGetS_full hl hlen rest) t, stripLine_newline]

/-- Behind a line of 254 characters there is a blank one, and it is passed over. -/
theorem scriptLoop_blank (rest : List UInt8) : scriptLoop S (10 :: rest) = scriptLoop S rest := by
  funext t
  exact scriptLoop_short S (l := []) (by simp) (by decide) rest t

theorem scriptLoop_line (l : ScriptLine) (rest : List UInt8) (t : ℕ × σ) :
    scriptLoop S (l.chars ++ 10 :: rest) t = (scriptLine S l.chars t).andThen
    (scriptLoop S rest) := by
  rcases l.short.lt_or_eq with hlen | hlen
  · exact scriptLoop_short S l.text hlen rest t
  · rw [scriptLoop_full S l.text hlen (10 :: rest) t, scriptLoop_blank]

theorem scriptLoop_lines (ls : List ScriptLine) (tail : List UInt8) (t : ℕ × σ) :
    scriptLoop S ((ls.flatMap fun l => l.chars ++ [10]) ++ tail) t =
      (runLines S (ls.map ScriptLine.chars) t).andThen (scriptLoop S tail) := by
  induction ls generalizing t with
  | nil => rfl
  | cons l ls ih =>
    have hfile : (((l :: ls).flatMap fun l => l.chars ++ [10]) ++ tail) =
        l.chars ++ 10 :: ((ls.flatMap fun l => l.chars ++ [10]) ++ tail) := by
      simp
    rw [hfile, scriptLoop_line, List.map_cons, runLines, ScriptRun.andThen_assoc]
    exact congrArg _ (funext ih)

/-- Nothing is done at the end of the file. -/
theorem scriptLoop_nil (t : ℕ × σ) : scriptLoop S [] t = .quiet [] t := by
  rw [scriptLoop, dif_neg (by decide)]

end Files

end BitThunder
