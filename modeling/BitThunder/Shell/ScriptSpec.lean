import BitThunder.Shell.Script

/-!
# What a script means, and what is done

Where a branch is taken the number of branches that are not taken is `0`, and where it is not taken
it is `1`, as long as no conditional stands in it: its condition is evaluated whether it is reached
or not, and only a condition that is false is counted, while every `endif` is.

* `Script.runLines_clean`: a script without such a conditional is followed;
* `Script.clean_of_prefix`: any other one is not;
* `shell_script_iff`: both, for the file the script is read from;
* `shell_script_nested`: a command that is executed behind such a conditional.

One direction is an induction over the script: `depth` says what the counter is in a branch that is
taken and in one that is not, and every line and every conditional leaves it as it was found. For
the other direction the first line that goes wrong is looked for. Up to there both runs have the
same entries; there they differ, in the kind of a line or in a condition that was evaluated, and two
lists that differ at one place do not agree afterwards. So the proofs speak of prefixes and not of
whole runs.

The last line of a file is a matter of its own, since it may not be read. What is meant by the
script without it is done, and the question is whether anything was to be done there.
-/

namespace BitThunder

namespace ScriptRun

variable {τ υ : Type}

@[simp] theorem quiet_state (es : List ScriptEntry) (t : τ) : (quiet es t).state = t := rfl

theorem andThen_of_error {r : ScriptRun τ} (h : r.error ≠ 0) (f : τ → ScriptRun τ) :
    r.andThen f = r := if_pos h

/-- Without one the entries of both runs are there. -/
theorem andThen_entries {r : ScriptRun τ} (h : r.error = 0) (f : τ → ScriptRun τ) :
    (r.andThen f).entries = r.entries ++ (f r.state).entries := by
  rw [andThen, if_neg (not_not.mpr h)]

theorem andThen_error {r : ScriptRun τ} (h : r.error = 0) (f : τ → ScriptRun τ) :
    (r.andThen f).error = (f r.state).error := by
  rw [andThen, if_neg (not_not.mpr h)]

/-- A run that succeeds has succeeded in both parts. -/
theorem andThen_error_eq_zero {r : ScriptRun τ} {f : τ → ScriptRun τ} :
    (r.andThen f).error = 0 ↔ r.error = 0 ∧ (f r.state).error = 0 := by
  by_cases h : r.error = 0
  · rw [andThen_error h, and_iff_right h]
  · rw [andThen_of_error h]
    exact iff_of_false h fun hr => h hr.1

theorem prefix_andThen (r : ScriptRun τ) (f : τ → ScriptRun τ) :
    r.entries <+: (r.andThen f).entries := by
  by_cases h : r.error = 0
  · rw [andThen_entries h]
    exact List.prefix_append ..
  · rw [andThen_of_error h]

/-- Two runs in a row, with something more in the state: what it is behind the first matters if the
first fails. -/
theorem lift_andThen {r : ScriptRun τ} {g g' : τ → υ} {f : τ → ScriptRun τ} {f' : υ → ScriptRun υ}
    (hg : r.error ≠ 0 → g r.state = g' r.state) (h : r.error = 0 →
      f' (g r.state) = (f r.state).lift g') :
    (r.lift g).andThen f' = (r.andThen f).lift g' := by
  by_cases hr : r.error = 0
  · have hl : (r.lift g).error = 0 := hr
    rw [andThen, andThen, if_neg (not_not.mpr hr), if_neg (not_not.mpr hl),
      show (r.lift g).state = g r.state from rfl, h hr]
    rfl
  · rw [andThen_of_error hr, andThen_of_error (r := r.lift g) hr, lift, lift, hg hr]

/-- Where two runs begin alike, what is left of them is compared. -/
theorem prefix_next {r : ScriptRun τ} {g : τ → υ} {f : τ → ScriptRun τ} {f' : υ → ScriptRun υ}
    (hr : r.error = 0) (h : (r.andThen f).entries <+: ((r.lift g).andThen f').entries) :
    (f r.state).entries <+: (f' (g r.state)).entries := by
  rw [andThen_entries hr, andThen_entries (r := r.lift g) hr] at h
  exact (List.prefix_append_right_inj _).mp h

end ScriptRun

section

variable {σ : Type} {S : ShellSystem σ}

theorem runLines_append (ls ls' : List (List UInt8)) (t : ℕ × σ) :
    runLines S (ls ++ ls') t = (runLines S ls t).andThen (runLines S ls') := by
  induction ls generalizing t with
  | nil => rfl
  | cons l ls ih =>
    rw [List.cons_append, runLines, runLines, ScriptRun.andThen_assoc]
    exact congrArg _ (funext ih)

/-! ## One line

What the loop does at a line is said by its kind and by the counter. -/

theorem scriptLine_none {l : List UInt8} (h : codeKind (eatSpace l) = none) (t : ℕ × σ) :
    scriptLine S l t = .quiet [] t := by
  unfold scriptLine
  simp only [h]

/-- What is counted in a branch -/
def depth (taken : Bool) : ℕ := if taken then 0 else 1

/-- An `if` that is reached decides what depth is passed over. -/
theorem scriptLine_if {l : ScriptLine} (h : l.kind = some .ifLine) (s : σ) :
    scriptLine S l.chars (0, s) =
      (ScriptRun.quiet [⟨l.eaten, .ifLine, true⟩] (S.condition l.eaten s).2).lift
        (Prod.mk (depth (S.condition l.eaten s).1)) := by
  have hk : codeKind (eatSpace l.chars) = some .ifLine := codeKind_of_word h (by decide)
  unfold scriptLine
  simp only [hk]
  cases hc : (S.condition l.eaten s).1 with
  | true => simp [ScriptRun.quiet, ScriptRun.lift, ScriptLine.eaten, depth] at hc ⊢; simp [hc]
  | false => simp [ScriptRun.quiet, ScriptRun.lift, ScriptLine.eaten, depth] at hc ⊢; simp [hc]; rfl

theorem scriptLine_ifPassed {l : ScriptLine} (h : l.kind = some .ifLine) (t : ℕ × σ) :
    (scriptLine S l.chars t).entries = [⟨l.eaten, .ifLine, true⟩] := by
  have hk : codeKind (eatSpace l.chars) = some .ifLine := codeKind_of_word h (by decide)
  unfold scriptLine
  simp only [hk]
  rfl

/-- Behind `else` the other branch is taken. -/
theorem scriptLine_else {l : ScriptLine} (h : l.kind = some .elseLine) (taken : Bool) (s : σ) :
    scriptLine S l.chars (depth taken, s) =
      (ScriptRun.quiet [⟨l.eaten, .elseLine, false⟩] s).lift (Prod.mk (depth !taken)) := by
  have hk : codeKind (eatSpace l.chars) = some .elseLine := codeKind_of_word h (by decide)
  unfold scriptLine
  simp only [hk]
  cases taken with
  | true => rfl
  | false => rfl

/-- Behind `endif` nothing is counted. -/
theorem scriptLine_endif {l : ScriptLine} (h : l.kind = some .endifLine) (taken : Bool) (s : σ) :
    scriptLine S l.chars (depth taken, s) =
      (ScriptRun.quiet [⟨l.eaten, .endifLine, false⟩] s).lift (Prod.mk 0) := by
  have hk : codeKind (eatSpace l.chars) = some .endifLine := codeKind_of_word h (by decide)
  unfold scriptLine
  simp only [hk]
  cases taken with
  | true => rfl
  | false => rfl

theorem scriptLine_endifPassed {l : ScriptLine} (h : l.kind = some .endifLine) (t : ℕ × σ) :
    (scriptLine S l.chars t).entries = [⟨l.eaten, .endifLine, false⟩] := by
  have hk : codeKind (eatSpace l.chars) = some .endifLine := codeKind_of_word h (by decide)
  unfold scriptLine
  simp only [hk]
  rfl

theorem scriptLine_command {l : List UInt8} (h : codeKind (eatSpace l) = some .command) (s : σ) :
    scriptLine S l (0, s) =
      ⟨[⟨eatSpace l, .command, true⟩], (S.command (eatSpace l) s).1,
      (0, (S.command (eatSpace l) s).2)⟩ := by
  unfold scriptLine
  simp only [h]
  rfl

theorem scriptLine_skip {l : List UInt8} (h : codeKind (eatSpace l) = some .command) (s : σ) :
    scriptLine S l (1, s) = .quiet [⟨eatSpace l, .command, false⟩] (1, s) := by
  unfold scriptLine
  simp only [h]
  rfl

/-- A line that is not blank makes one entry, of what it is taken for. -/
theorem scriptLine_entries (l : List UInt8) (t : ℕ × σ) :
    ∃ active, (scriptLine S l t).entries = (codeKind (eatSpace l)).toList.map
    (⟨eatSpace l, ·, active⟩) := by
  unfold scriptLine
  dsimp only
  split
  next h => exact ⟨true, by rw [h]; rfl⟩
  next h => exact ⟨true, by rw [h]; rfl⟩
  next h => exact ⟨false, by rw [h]; rfl⟩
  next h => exact ⟨false, by rw [h]; rfl⟩
  next h =>
    rw [h]
    split_ifs
    · exact ⟨true, rfl⟩
    · exact ⟨false, rfl⟩

/-- Only a command fails. -/
theorem scriptLine_error {l : List UInt8} {t : ℕ × σ} (h : codeKind (eatSpace l) ≠ some .command) :
    (scriptLine S l t).error = 0 := by
  unfold scriptLine
  dsimp only
  split <;> first | rfl | contradiction

namespace Script

theorem plainRun_none {l : ScriptLine} (h : l.kind = none) (s : σ) : plainRun S l s = .quiet [] s :=
  if_pos h

theorem plainRun_command {l : ScriptLine} (h : l.kind = some .command) (s : σ) :
    plainRun S l s = ⟨[⟨l.eaten, .command, true⟩], (S.command l.eaten s).1,
    (S.command l.eaten s).2⟩ :=
  if_neg (by rw [h]; exact Option.some_ne_none _)

/-! ## A script that is followed

An induction over the script. Where a branch is taken the counter is zero before and after each line
of it, and where it is not it is one. -/

/-- Where no line is taken for something else, a plain line is done as it is meant. -/
theorem scriptLine_plain {l : ScriptLine} (plain : l.kind = none ∨ l.kind = some .command)
    (h : Named l) (s : σ) :
    scriptLine S l.chars (0, s) = (plainRun S l s).lift (Prod.mk 0) := by
  rcases plain with hk | hk
  · rw [plainRun_none hk, scriptLine_none (h.trans hk)]
    rfl
  · rw [plainRun_command hk, scriptLine_command (h.trans hk)]
    rfl

/-- A plain line that is passed over is named. -/
theorem scriptLine_passed {l : ScriptLine} (plain : l.kind = none ∨ l.kind = some .command)
    (h : Named l) (s : σ) :
    scriptLine S l.chars (1, s) = .quiet (l.kind.toList.map (⟨l.eaten, ·, false⟩)) (1, s) := by
  rcases plain with hk | hk
  · rw [scriptLine_none (h.trans hk), hk]
    rfl
  · rw [scriptLine_skip (h.trans hk), hk]
    rfl

/-- A branch that is not taken is passed over, if there is no conditional in it. -/
theorem runLines_flat {t : Script} (h : t.Flat) (s : σ) :
    runLines S (t.lines.map ScriptLine.chars) (1, s) = .quiet t.passed (1, s) := by
  induction t with
  | done => rfl
  | line l plain rest ih =>
    rw [lines, List.map_cons, runLines, scriptLine_passed plain h.1]
    show (ScriptRun.quiet _ _).andThen _ = _
    unfold ScriptRun.andThen
    simp [ScriptRun.quiet, passed, ih h.2]
  | ifThen => exact h.elim
  | ifElse => exact h.elim

theorem meaning_ifThen {l : ScriptLine} (isIf : l.kind = some .ifLine) (body : Script)
    {fi : ScriptLine} (isFi : fi.kind = some .endifLine) (rest : Script) (s : σ) :
    (ifThen l isIf body fi isFi rest).meaning S s =
      (ScriptRun.quiet [⟨l.eaten, .ifLine, true⟩] (S.condition l.eaten s).2).andThen fun s' =>
        (body.branch S (S.condition l.eaten s).1 s').andThen fun s' =>
          (ScriptRun.quiet [⟨fi.eaten, .endifLine, false⟩] s').andThen (rest.meaning S) := rfl

theorem meaning_ifElse {l : ScriptLine} (isIf : l.kind = some .ifLine) (body : Script)
    {el : ScriptLine} (isElse : el.kind = some .elseLine) (orelse : Script) {fi : ScriptLine}
    (isFi : fi.kind = some .endifLine)
    (rest : Script) (s : σ) :
    (ifElse l isIf body el isElse orelse fi isFi rest).meaning S s =
      (ScriptRun.quiet [⟨l.eaten, .ifLine, true⟩] (S.condition l.eaten s).2).andThen fun s' =>
        (body.branch S (S.condition l.eaten s).1 s').andThen fun s' =>
          (ScriptRun.quiet [⟨el.eaten, .elseLine, false⟩] s').andThen fun s' =>
            (orelse.branch S (!(S.condition l.eaten s).1) s').andThen fun s' =>
              (ScriptRun.quiet [⟨fi.eaten, .endifLine, false⟩] s').andThen (rest.meaning S) := by
  rw [meaning]
  cases (S.condition l.eaten s).1 with
  | true => rfl
  | false => rfl

/-- Where a branch fails it is taken. -/
theorem depth_of_error {t : Script} {taken : Bool} {s : σ} (h : (t.branch S taken s).error ≠ 0) :
    (depth taken, (t.branch S taken s).state) = (0, (t.branch S taken s).state) := by
  cases taken with
  | true => rfl
  | false => exact absurd rfl h

/-- What is asked of a branch -/
def BranchClean (S : ShellSystem σ) (t : Script) (taken : Bool) (s : σ) : Prop :=
  if taken then t.Clean S s else t.Flat

/-- A branch is run, or passed over, as it means. -/
theorem runLines_branch {t : Script} {taken : Bool} {s : σ}
    (ih : t.Clean S s → runLines S (t.lines.map ScriptLine.chars) (0, s) =
    (t.meaning S s).lift (Prod.mk 0))
    (h : BranchClean S t taken s) :
    runLines S (t.lines.map ScriptLine.chars) (depth taken, s) = (t.branch S taken s).lift
    (Prod.mk (depth taken)) := by
  cases taken with
  | true => exact ih h
  | false => exact runLines_flat h s

/-- A script in which no conditional stands in a branch that is not taken is followed. -/
theorem runLines_clean {t : Script} {s : σ} (h : t.Clean S s) :
    runLines S (t.lines.map ScriptLine.chars) (0, s) = (t.meaning S s).lift (Prod.mk 0) := by
  induction t generalizing s with
  | done => rfl
  | line l plain rest ih =>
    rw [lines, List.map_cons, runLines, meaning, scriptLine_plain plain h.1]
    exact ScriptRun.lift_andThen (fun _ => rfl) fun h0 => ih (h.2 h0)
  | ifThen l isIf body fi isFi rest ihb ihr =>
    rw [lines, List.map_cons, List.map_append, List.map_cons, runLines, scriptLine_if isIf,
      meaning_ifThen]
    refine ScriptRun.lift_andThen (fun h => absurd rfl h) fun _ => ?_
    rw [runLines_append, ScriptRun.quiet_state, runLines_branch ihb h.1]
    refine ScriptRun.lift_andThen depth_of_error fun h0 => ?_
    rw [runLines, scriptLine_endif isFi]
    exact ScriptRun.lift_andThen (fun _ => rfl) fun _ => ihr (h.2 h0)
  | ifElse l isIf body el isElse orelse fi isFi rest ihb iho ihr =>
    rw [lines, List.map_cons, List.map_append, List.map_cons, List.map_append, List.map_cons,
      runLines, scriptLine_if isIf, meaning_ifElse]
    refine ScriptRun.lift_andThen (fun h => absurd rfl h) fun _ => ?_
    rw [runLines_append, ScriptRun.quiet_state, runLines_branch ihb h.1]
    refine ScriptRun.lift_andThen depth_of_error fun h0 => ?_
    obtain ⟨ho, hr⟩ := h.2 h0
    rw [runLines, scriptLine_else isElse]
    refine ScriptRun.lift_andThen (fun h => absurd rfl h) fun _ => ?_
    rw [runLines_append, ScriptRun.quiet_state, runLines_branch iho ho]
    refine ScriptRun.lift_andThen depth_of_error fun h1 => ?_
    rw [runLines, scriptLine_endif isFi]
    exact ScriptRun.lift_andThen (fun _ => rfl) fun _ => ihr (hr h1)

/-! ## A script that is not followed

The first place where the script is not as it should be shows in the entries of the run, and from
there on the two runs cannot agree any more. -/

/-- Where the first line is taken for what it is not, the runs differ. -/
theorem named_of_prefix {l : ScriptLine} (plain : l.kind = none ∨ l.kind = some .command)
    {active : Bool} {t : ℕ × σ} {f : ℕ × σ → ScriptRun (ℕ × σ)} {es : List ScriptEntry}
    (h : l.kind.toList.map (⟨l.eaten, ·, active⟩) ++ es <+:
    ((scriptLine S l.chars t).andThen f).entries) : Named l := by
  rcases plain with hk | hk
  · exact (codeKind_eq_none.mpr hk).trans hk.symm
  · obtain ⟨b, hb⟩ := scriptLine_entries (S := S) l.chars t
    cases hc : codeKind l.eaten with
    | none =>
      exact absurd (codeKind_eq_none.mp hc) (by rw [show wordKind l.eaten = _ from hk]; decide)
    | some k =>
      have hpre := ScriptRun.prefix_andThen (scriptLine S l.chars t) f
      rw [hb, show codeKind (eatSpace l.chars) = some k from hc] at hpre
      obtain ⟨es', hes'⟩ := hpre
      rw [hk, ← hes'] at h
      have hkind := (List.cons_prefix_cons.mp h).1
      rw [Named, hc, hk, ScriptEntry.mk.injEq] at *
      exact congrArg some hkind.2.1.symm

/-- In a branch that is passed over, a conditional shows: its condition is evaluated. -/
theorem flat_of_prefix {t : Script} {s : σ} {f : ℕ × σ → ScriptRun (ℕ × σ)}
    (h : t.passed <+: ((runLines S (t.lines.map ScriptLine.chars) (1, s)).andThen f).entries) :
    t.Flat := by
  induction t generalizing s f with
  | done => exact trivial
  | line l plain rest ih =>
    rw [lines, List.map_cons, runLines, ScriptRun.andThen_assoc, passed] at h
    have hnamed : Named l := named_of_prefix plain h
    refine ⟨hnamed, ih (s := s) (f := f) ?_⟩
    rw [scriptLine_passed plain hnamed] at h
    exact ScriptRun.prefix_next (r := .quiet _ ()) (g := fun _ => (1, s))
      (f := fun _ => .quiet rest.passed ()) rfl h
  | ifThen l isIf body fi isFi rest | ifElse l isIf body el isElse orelse fi isFi rest =>
    rw [lines, List.map_cons, runLines, ScriptRun.andThen_assoc, passed] at h
    obtain ⟨es, hes⟩ := ScriptRun.prefix_andThen (scriptLine S l.chars (1, s))
      fun t => (runLines S _ t).andThen f
    rw [scriptLine_ifPassed isIf] at hes
    rw [← hes] at h
    cases (List.cons_prefix_cons.mp h).1

/-- It is clean if its run is the beginning of what was run. -/
theorem branchClean_of_prefix {t : Script} {taken : Bool} {s : σ} {f : ℕ × σ → ScriptRun (ℕ × σ)}
    (ih : ∀ {s f}, (t.meaning S s).entries <+:
    ((runLines S (t.lines.map ScriptLine.chars) (0, s)).andThen f).entries →
      t.Clean S s)
    (h : (t.branch S taken s).entries <+:
      ((runLines S (t.lines.map ScriptLine.chars) (depth taken, s)).andThen f).entries) :
      BranchClean S t taken s := by
  cases taken with
  | true => exact ih h
  | false => exact flat_of_prefix h

/-- If the code's run begins with what is meant, the script is such a one. -/
theorem clean_of_prefix {t : Script} {s : σ} {f : ℕ × σ → ScriptRun (ℕ × σ)}
    (h : (t.meaning S s).entries <+:
    ((runLines S (t.lines.map ScriptLine.chars) (0, s)).andThen f).entries) :
    t.Clean S s := by
  induction t generalizing s f with
  | done => exact trivial
  | line l plain rest ih =>
    rw [lines, List.map_cons, runLines, ScriptRun.andThen_assoc, meaning] at h
    have hentries : (plainRun S l s).entries = l.kind.toList.map (⟨l.eaten, ·, true⟩) := by
      rcases plain with hk | hk
      · rw [plainRun_none hk, hk]
        rfl
      · rw [plainRun_command hk, hk]
        rfl
    have hline := (ScriptRun.prefix_andThen (plainRun S l s) (rest.meaning S)).trans h
    rw [hentries, ← List.append_nil (List.map _ _)] at hline
    have hnamed : Named l := named_of_prefix plain hline
    refine ⟨hnamed, fun h0 => ih (f := f) ?_⟩
    rw [scriptLine_plain plain hnamed] at h
    exact ScriptRun.prefix_next h0 h
  | ifThen l isIf body fi isFi rest ihb ihr =>
    rw [lines, List.map_cons, List.map_append, List.map_cons, runLines, ScriptRun.andThen_assoc,
      scriptLine_if isIf, meaning_ifThen] at h
    have hb := ScriptRun.prefix_next rfl h
    rw [runLines_append, ScriptRun.andThen_assoc, ScriptRun.quiet_state] at hb
    have hbody := branchClean_of_prefix ihb ((ScriptRun.prefix_andThen ..).trans hb)
    refine ⟨hbody, fun h0 => ?_⟩
    rw [runLines_branch runLines_clean hbody] at hb
    have hfi := ScriptRun.prefix_next h0 hb
    rw [runLines, ScriptRun.andThen_assoc, scriptLine_endif isFi] at hfi
    exact ihr (ScriptRun.prefix_next rfl hfi)
  | ifElse l isIf body el isElse orelse fi isFi rest ihb iho ihr =>
    rw [lines, List.map_cons, List.map_append, List.map_cons, List.map_append, List.map_cons,
      runLines, ScriptRun.andThen_assoc, scriptLine_if isIf, meaning_ifElse] at h
    have hb := ScriptRun.prefix_next rfl h
    rw [runLines_append, ScriptRun.andThen_assoc, ScriptRun.quiet_state] at hb
    have hbody := branchClean_of_prefix ihb ((ScriptRun.prefix_andThen ..).trans hb)
    refine ⟨hbody, fun h0 => ?_⟩
    rw [runLines_branch runLines_clean hbody] at hb
    have hel := ScriptRun.prefix_next h0 hb
    rw [runLines, ScriptRun.andThen_assoc, scriptLine_else isElse] at hel
    have ho := ScriptRun.prefix_next rfl hel
    rw [runLines_append, ScriptRun.andThen_assoc, ScriptRun.quiet_state] at ho
    have horelse := branchClean_of_prefix iho ((ScriptRun.prefix_andThen ..).trans ho)
    refine ⟨horelse, fun h1 => ?_⟩
    rw [runLines_branch runLines_clean horelse] at ho
    have hfi := ScriptRun.prefix_next h1 ho
    rw [runLines, ScriptRun.andThen_assoc, scriptLine_endif isFi] at hfi
    exact ihr (ScriptRun.prefix_next rfl hfi)

/-! ## How many lines are come to

A run that has come to its end has an entry for each line that is neither blank nor a comment. This
tells a run that ended early from one that did not. -/

/-- The lines that are not blank and no comment -/
def said (ls : List ScriptLine) : ℕ := ls.countP fun l => l.kind.isSome

/-- A line is named once, if it is code. -/
theorem scriptLine_length (l : ScriptLine) (t : ℕ × σ) :
    (scriptLine S l.chars t).entries.length = said [l] := by
  obtain ⟨b, hb⟩ := scriptLine_entries (S := S) l.chars t
  have hnone : codeKind (eatSpace l.chars) = none ↔ l.kind = none := codeKind_eq_none
  rw [hb, List.length_map]
  cases hk : l.kind with
  | none => rw [hnone.mpr hk]; simp [said, hk]
  | some k =>
    obtain ⟨k', hk'⟩ := Option.ne_none_iff_exists'.mp
      (mt hnone.mp (by rw [hk]; exact Option.some_ne_none k))
    rw [hk']
    simp [said, hk]

/-- Lines are named once each, up to an error. -/
theorem runLines_length (ls : List ScriptLine) (t : ℕ × σ) :
    (runLines S (ls.map ScriptLine.chars) t).entries.length ≤ said ls ∧
      ((runLines S (ls.map ScriptLine.chars) t).error = 0 →
        (runLines S (ls.map ScriptLine.chars) t).entries.length = said ls) := by
  induction ls generalizing t with
  | nil => exact ⟨le_rfl, fun _ => rfl⟩
  | cons l ls ih =>
    have hline := scriptLine_length (S := S) l t
    have hsaid : said (l :: ls) = said [l] + said ls := by
      rw [← List.singleton_append, said, List.countP_append]
      rfl
    rw [List.map_cons, runLines, hsaid, ← hline]
    by_cases h0 : (scriptLine S l.chars t).error = 0
    · rw [ScriptRun.andThen_entries h0, ScriptRun.andThen_error h0, List.length_append]
      obtain ⟨hle, heq⟩ := ih (scriptLine S l.chars t).state
      exact ⟨by omega, fun h => by rw [heq h]⟩
    · rw [ScriptRun.andThen_of_error h0]
      exact ⟨Nat.le_add_right .., fun h => absurd h h0⟩

theorem passed_length (t : Script) : t.passed.length = said t.lines := by
  induction t with
  | done => rfl
  | line l plain rest ih =>
    cases hk : l.kind with
    | none => simp [passed, lines, said, hk, ih]
    | some k => simp [passed, lines, said, hk, ih]
  | ifThen l isIf body fi isFi rest ihb ihr => simp [passed, lines, said, isIf, isFi, ihb, ihr]
  | ifElse l isIf body el isElse orelse fi isFi rest ihb iho ihr =>
    simp [passed, lines, said, isIf, isElse, isFi, ihb, iho, ihr]

/-- The run has come to the end of these lines. -/
def Whole (r : ScriptRun σ) (n : ℕ) : Prop := r.error = 0 → r.entries.length = n

/-- Whole runs are put together to a whole one. -/
theorem Whole.andThen {r : ScriptRun σ} {f : σ → ScriptRun σ} {m n : ℕ} (hr : Whole r m)
    (hf : ∀ s, Whole (f s) n) :
    Whole (r.andThen f) (m + n) := by
  intro h0
  obtain ⟨hr0, hf0⟩ := ScriptRun.andThen_error_eq_zero.mp h0
  rw [ScriptRun.andThen_entries hr0, List.length_append, hr hr0, hf _ hf0]

theorem branch_whole {t : Script} (ih : ∀ s, Whole (t.meaning S s) (said t.lines)) (taken : Bool)
    (s : σ) :
    Whole (t.branch S taken s) (said t.lines) := by
  cases taken with
  | true => exact ih s
  | false => exact fun _ => passed_length t

theorem meaning_whole (t : Script) (s : σ) : Whole (t.meaning S s) (said t.lines) := by
  induction t generalizing s with
  | done => exact fun _ => rfl
  | line l plain rest ih =>
    have hline : Whole (plainRun S l s) (said [l]) := by
      rcases plain with hk | hk
      · exact fun _ => by simp [plainRun_none hk, said, hk, ScriptRun.quiet]
      · exact fun _ => by simp [plainRun_command hk, said, hk]
    rw [lines, ← List.singleton_append, said, List.countP_append]
    exact hline.andThen ih
  | ifThen l isIf body fi isFi rest ihb ihr =>
    have hcount : said (ifThen l isIf body fi isFi rest).lines =
        1 + (said body.lines + (1 + said rest.lines)) := by
      simp [lines, said, isIf, isFi]
      omega
    rw [hcount, meaning_ifThen]
    exact Whole.andThen (fun _ => rfl) fun s' => (branch_whole ihb _ s').andThen fun _ =>
      Whole.andThen (fun _ => rfl) ihr
  | ifElse l isIf body el isElse orelse fi isFi rest ihb iho ihr =>
    have hcount : said (ifElse l isIf body el isElse orelse fi isFi rest).lines =
        1 + (said body.lines + (1 + (said orelse.lines + (1 + said rest.lines)))) := by
      simp [lines, said, isIf, isElse, isFi]
      omega
    rw [hcount, meaning_ifElse]
    exact Whole.andThen (fun _ => rfl) fun s' => (branch_whole ihb _ s').andThen fun _ =>
      Whole.andThen (fun _ => rfl) fun s' => (branch_whole iho _ s').andThen fun _ =>
        Whole.andThen (fun _ => rfl) ihr

/-! ## The last line

Whether the last line is read matters only if something is to be done there. What a run ends with
says what its last line was. -/

/-- If the run fails, it is at a command that it has executed. -/
def FailsActive (r : ScriptRun σ) : Prop := r.error ≠ 0 → ∃ e ∈ r.entries.getLast?, e.active = true

/-- An error of two runs is that of one of them. -/
theorem FailsActive.andThen {r : ScriptRun σ} {f : σ → ScriptRun σ} (hr : FailsActive r)
    (hf : ∀ s, FailsActive (f s)) : FailsActive (r.andThen f) := by
  intro herr
  by_cases h0 : r.error = 0
  · rw [ScriptRun.andThen_error h0] at herr
    obtain ⟨e, he, hact⟩ := hf _ herr
    refine ⟨e, ?_, hact⟩
    rw [ScriptRun.andThen_entries h0, Option.mem_def, List.getLast?_append, Option.mem_def.mp he]
    rfl
  · rw [ScriptRun.andThen_of_error h0]
    exact hr h0

theorem FailsActive.quiet (es : List ScriptEntry) (s : σ) : FailsActive (ScriptRun.quiet es s) :=
  fun h => absurd rfl h

theorem branch_fails {t : Script} (ih : ∀ s, FailsActive (t.meaning S s)) (taken : Bool) (s : σ) :
    FailsActive (t.branch S taken s) := by
  cases taken with
  | true => exact ih s
  | false => exact FailsActive.quiet _ _

theorem meaning_fails (t : Script) (s : σ) : FailsActive (t.meaning S s) := by
  induction t generalizing s with
  | done => exact FailsActive.quiet _ _
  | line l plain rest ih =>
    have hline : FailsActive (plainRun S l s) := by
      rcases plain with hk | hk
      · rw [plainRun_none hk]
        exact FailsActive.quiet _ _
      · rw [plainRun_command hk]
        exact fun _ => ⟨_, rfl, rfl⟩
    exact hline.andThen ih
  | ifThen l isIf body fi isFi rest ihb ihr =>
    rw [meaning_ifThen]
    exact (FailsActive.quiet _ _).andThen fun s' => (branch_fails ihb _ s').andThen fun _ =>
      (FailsActive.quiet _ _).andThen ihr
  | ifElse l isIf body el isElse orelse fi isFi rest ihb iho ihr =>
    rw [meaning_ifElse]
    exact (FailsActive.quiet _ _).andThen fun s' => (branch_fails ihb _ s').andThen fun _ =>
      (FailsActive.quiet _ _).andThen fun s' => (branch_fails iho _ s').andThen fun _ =>
        (FailsActive.quiet _ _).andThen ihr

/-- A run ends with a command that was executed, or with the end of a conditional. -/
def Ends (r : ScriptRun σ) (l : ScriptLine) (k : LineKind) : Prop :=
  (k = .command ∨ k = .endifLine) ∧ r.entries.getLast? = some ⟨l.eaten, k, k = .command⟩

/-- How two runs end is how the second one does. -/
theorem Ends.after {r : ScriptRun σ} {f : σ → ScriptRun σ} {l : ScriptLine} {k : LineKind}
    (h0 : r.error = 0) (h : Ends (f r.state) l k) : Ends (r.andThen f) l k := by
  refine ⟨h.1, ?_⟩
  rw [ScriptRun.andThen_entries h0, List.getLast?_append, h.2]
  rfl

/-- What is behind a line of the same level ends the run, or the line does. -/
theorem ends_tail {r : ScriptRun σ} {x : ScriptLine} {rest : Script} {l : ScriptLine} {k : LineKind}
    (ih : ∀ s, (rest.meaning S s).error = 0 → rest.lines.getLast? = some l →
      Ends (rest.meaning S s) l k)
    (hx : x.kind = some k → Ends r x k) (h0 : (r.andThen (rest.meaning S)).error = 0)
    (hl : (x :: rest.lines).getLast? = some l) (hk : l.kind = some k) :
    Ends (r.andThen (rest.meaning S)) l k := by
  obtain ⟨hr0, hf0⟩ := ScriptRun.andThen_error_eq_zero.mp h0
  cases hrest : rest.lines with
  | nil =>
    rw [hrest, List.getLast?_singleton, Option.some.injEq] at hl
    subst hl
    refine ⟨(hx hk).1, ?_⟩
    have hnone : ((rest.meaning S r.state)).entries = [] :=
      List.eq_nil_of_length_eq_zero (by rw [meaning_whole rest r.state hf0, hrest]; rfl)
    rw [ScriptRun.andThen_entries hr0, hnone, List.append_nil]
    exact (hx hk).2
  | cons y ys =>
    rw [hrest, List.getLast?_cons_cons, ← hrest] at hl
    exact Ends.after hr0 (ih _ hf0 hl)

theorem meaning_ends (t : Script) (s : σ) (h0 : (t.meaning S s).error = 0) (l : ScriptLine)
    (k : LineKind) (hl : t.lines.getLast? = some l) (hk : l.kind = some k) :
    Ends (t.meaning S s) l k := by
  induction t generalizing s with
  | done => cases hl
  | line x plain rest ih =>
    refine ends_tail ih (fun hx => ?_) h0 hl hk
    rcases plain with hn | hc
    · exact absurd (hn.symm.trans hx) (Option.some_ne_none k).symm
    · obtain rfl : LineKind.command = k := Option.some.inj (hc.symm.trans hx)
      rw [plainRun_command hc]
      exact ⟨.inl rfl, rfl⟩
  | ifThen x isIf body fi isFi rest ihb ihr =>
    rw [lines, ← List.cons_append, List.getLast?_append_cons] at hl
    rw [meaning_ifThen] at h0 ⊢
    have hb := (ScriptRun.andThen_error_eq_zero.mp h0).2
    obtain ⟨hb0, hfi⟩ := ScriptRun.andThen_error_eq_zero.mp hb
    refine Ends.after rfl (Ends.after hb0 (ends_tail ihr (fun hx => ?_) hfi hl hk))
    obtain rfl : LineKind.endifLine = k := Option.some.inj (isFi.symm.trans hx)
    exact ⟨.inr rfl, rfl⟩
  | ifElse x isIf body el isElse orelse fi isFi rest ihb iho ihr =>
    rw [lines, ← List.cons_append, List.getLast?_append_cons, ← List.cons_append,
      List.getLast?_append_cons] at hl
    rw [meaning_ifElse] at h0 ⊢
    have hb := (ScriptRun.andThen_error_eq_zero.mp h0).2
    obtain ⟨hb0, hel⟩ := ScriptRun.andThen_error_eq_zero.mp hb
    have ho := (ScriptRun.andThen_error_eq_zero.mp hel).2
    obtain ⟨ho0, hfi⟩ := ScriptRun.andThen_error_eq_zero.mp ho
    refine Ends.after rfl (Ends.after hb0 (Ends.after rfl (Ends.after ho0
      (ends_tail ihr (fun hx => ?_) hfi hl hk))))
    obtain rfl : LineKind.endifLine = k := Option.some.inj (isFi.symm.trans hx)
    exact ⟨.inr rfl, rfl⟩

/-! ## The code's run and the meaning

Both directions are put together, for a script all of whose lines are read, and then for one without
its last line. -/

/-- With an error both runs have the same entries. -/
theorem Meets.entries_of_error {m : ScriptRun σ} {run : ScriptRun (ℕ × σ)} (h : Meets m run)
    (hm : FailsActive m) (h0 : m.error ≠ 0) : m.entries = run.entries := by
  obtain ⟨rest, hrest, hidle⟩ := h.entries
  obtain ⟨e, he, hact⟩ := hm h0
  rcases List.eq_nil_or_concat rest with rfl | ⟨rest', e', rfl⟩
  · rw [hrest, List.append_nil]
  · rw [hrest, List.concat_eq_append, ← List.append_assoc, List.getLast?_concat,
      Option.mem_some_iff] at he
    subst he
    exact absurd hact (by rw [hidle e' (by simp)]; decide)

theorem Meets.clean {t : Script} {s : σ}
    (h : (t.meaning S s).entries = (runLines S (t.lines.map ScriptLine.chars) (0, s)).entries) :
    t.Clean S s :=
  clean_of_prefix (f := .quiet []) (by rw [ScriptRun.andThen_quiet_nil, h])

theorem Meets.of_eq {m : ScriptRun σ} {run : ScriptRun (ℕ × σ)} (he : m.entries = run.entries)
    (h : run.error = m.error) : Meets m run :=
  ⟨⟨[], by rw [he, List.append_nil], fun _ h => nomatch h⟩, h⟩

/-- Where every line is read, the script means what is done if and only if it is such a one. -/
theorem meets_runLines {t : Script} {s : σ} :
    Meets (t.meaning S s) (runLines S (t.lines.map ScriptLine.chars) (0, s)) ↔ t.Clean S s := by
  constructor
  · intro h
    by_cases h0 : (t.meaning S s).error = 0
    · obtain ⟨rest, hrest, -⟩ := h.entries
      have hlen := congrArg List.length hrest
      rw [List.length_append, meaning_whole t s h0,
        (runLines_length t.lines (0, s)).2 (h.error.trans h0)] at hlen
      obtain rfl : rest = [] := List.eq_nil_of_length_eq_zero (by omega)
      exact Meets.clean (by rw [hrest, List.append_nil])
    · exact Meets.clean (h.entries_of_error (meaning_fails t s) h0)
  · intro h
    rw [runLines_clean h]
    exact Meets.of_eq rfl rfl

/-- The last line is ended or as long as a line can be, or it is no command, or a command before it
fails. -/
def Kept (S : ShellSystem σ) (t : Script) (ended : Bool) (s : σ) : Prop :=
  ended = true ∨ ∀ l, t.lines.getLast? = some l →
    l.chars.length = 254 ∨ l.kind ≠ some .command ∨ (t.meaning S s).entries.length < said t.lines

theorem said_append (ls ls' : List ScriptLine) : said (ls ++ ls') = said ls + said ls' :=
  List.countP_append ..

theorem runLines_snoc (ls : List ScriptLine) (l : ScriptLine) (t : ℕ × σ) :
    runLines S ((ls ++ [l]).map ScriptLine.chars) t =
      (runLines S (ls.map ScriptLine.chars) t).andThen (scriptLine S l.chars) := by
  rw [List.map_append, runLines_append]
  congr 1
  funext t'
  exact ScriptRun.andThen_quiet_nil _

/-- The run without the last line does what is meant: then nothing was to be done there. -/
theorem Meets.of_dropLast {t : Script} {s : σ} {ls : List ScriptLine} {l : ScriptLine}
    (hlines : t.lines = ls ++ [l])
    (h : Meets (t.meaning S s) (runLines S (ls.map ScriptLine.chars) (0, s))) :
    t.Clean S s ∧ (l.kind ≠ some .command ∨ (t.meaning S s).entries.length < said t.lines) := by
  have hsnoc := runLines_snoc (S := S) ls l (0, s)
  rw [← hlines] at hsnoc
  obtain ⟨hle, heq⟩ := runLines_length (S := S) ls (0, s)
  by_cases h0 : (runLines S (ls.map ScriptLine.chars) (0, s)).error = 0
  · have hm0 : (t.meaning S s).error = 0 := h.error.symm.trans h0
    obtain ⟨rest, hrest, hidle⟩ := h.entries
    have hlen := congrArg List.length hrest
    rw [List.length_append, meaning_whole t s hm0, heq h0, hlines, said_append] at hlen
    have hone : rest.length = said [l] := by omega
    have hentries := ScriptRun.andThen_entries h0 (scriptLine S l.chars)
    rw [← hsnoc] at hentries
    cases hk : l.kind with
    | none =>
      obtain rfl : rest = [] := List.eq_nil_of_length_eq_zero (by rw [hone]; simp [said, hk])
      rw [scriptLine_none (codeKind_eq_none.mpr hk)] at hentries
      exact ⟨Meets.clean (hrest.trans hentries.symm), .inl (Option.some_ne_none _).symm⟩
    | some k =>
      obtain ⟨e, rfl⟩ := List.length_eq_one_iff.mp (hone.trans (by simp [said, hk]))
      obtain ⟨hkind, hlast⟩ :=
        meaning_ends t s hm0 l k (by rw [hlines]; exact List.getLast?_concat) hk
      rw [hrest, List.getLast?_concat, Option.some.injEq] at hlast
      subst hlast
      rcases hkind with rfl | rfl
      · exact absurd (hidle _ (List.mem_singleton_self _)) (by simp)
      · refine ⟨Meets.clean (hrest.trans ?_), .inl (by decide)⟩
        rw [hentries, scriptLine_endifPassed hk]
        rfl
  · rw [ScriptRun.andThen_of_error h0] at hsnoc
    have hentries := h.entries_of_error (meaning_fails t s) (by rwa [← h.error])
    refine ⟨Meets.clean (by rw [hsnoc, hentries]), ?_⟩
    by_cases hk : l.kind = some .command
    · refine .inr ?_
      have hone : said [l] = 1 := by simp [said, hk]
      rw [hentries, hlines, said_append, hone]
      omega
    · exact .inl hk

/-- Where the last line is not read, what is meant is done as far as nothing is to be done there. -/
theorem meets_dropLast {t : Script} {s : σ} {ls : List ScriptLine} {l : ScriptLine}
    (hlines : t.lines = ls ++ [l]) :
    Meets (t.meaning S s) (runLines S (ls.map ScriptLine.chars) (0, s)) ↔
      t.Clean S s ∧ (l.kind ≠ some .command ∨ (t.meaning S s).entries.length < said t.lines) := by
  refine ⟨Meets.of_dropLast hlines, fun ⟨hclean, hkept⟩ => ?_⟩
  have hsnoc := (runLines_clean hclean).symm.trans (hlines ▸ runLines_snoc ls l (0, s))
  obtain ⟨hle, heq⟩ := runLines_length (S := S) ls (0, s)
  by_cases h0 : (runLines S (ls.map ScriptLine.chars) (0, s)).error = 0
  · have hentries : (t.meaning S s).entries = _ :=
      (congrArg ScriptRun.entries hsnoc).trans (ScriptRun.andThen_entries h0 _)
    have herror : (t.meaning S s).error = _ :=
      (congrArg ScriptRun.error hsnoc).trans (ScriptRun.andThen_error h0 _)
    cases hk : l.kind with
    | none =>
      rw [scriptLine_none (codeKind_eq_none.mpr hk)] at hentries herror
      exact Meets.of_eq (hentries.trans (List.append_nil _)) (h0.trans herror.symm)
    | some k =>
      have hone : said [l] = 1 := by simp [said, hk]
      have hlength :=
        scriptLine_length (S := S) l (runLines S (ls.map ScriptLine.chars) (0, s)).state
      rw [hone] at hlength
      by_cases hcommand : k = .command
      · have hlt := hkept.resolve_left fun h => h (by rw [hk, hcommand])
        rw [hentries, List.length_append, heq h0, hlength, hlines, said_append, hone] at hlt
        exact absurd hlt (lt_irrefl _)
      · have hcode : codeKind (eatSpace l.chars) = some k := codeKind_of_word hk hcommand
        rw [scriptLine_error (by rw [hcode]; exact fun h => hcommand (Option.some.inj h))] at herror
        obtain ⟨e, he⟩ := List.length_eq_one_iff.mp hlength
        have hlast :=
          (meaning_ends t s herror l k (by rw [hlines]; exact List.getLast?_concat) hk).2
        rw [he] at hentries
        rw [hentries, List.getLast?_concat, Option.some.injEq] at hlast
        refine ⟨⟨[e], hentries, fun e' he' => ?_⟩, h0.trans herror.symm⟩
        rw [List.mem_singleton.mp he', hlast]
        exact decide_eq_false hcommand
  · rw [ScriptRun.andThen_of_error h0] at hsnoc
    exact Meets.of_eq (congrArg ScriptRun.entries hsnoc) (congrArg ScriptRun.error hsnoc).symm

/-! ## `BT_ShellScript` -/

theorem file_snoc {t : Script} {ls : List ScriptLine} {l : ScriptLine}
    (hlines : t.lines = ls ++ [l]) :
    t.file false = (ls.flatMap fun l => l.chars ++ [10]) ++ l.chars := by
  have hbytes : (t.lines.flatMap fun l => l.chars ++ [10]) =
      ((ls.flatMap fun l => l.chars ++ [10]) ++ l.chars) ++ [10] := by
    rw [hlines]
    simp
  show (t.lines.flatMap fun l => l.chars ++ [10]).dropLast = _
  rw [hbytes, List.dropLast_concat]

/-- A file with one is run line by line. -/
theorem btShellScript_ended (t : Script) (s : σ) :
    btShellScript S (some (t.file true)) true s = runLines S (t.lines.map ScriptLine.chars)
    (0, s) := by
  show scriptLoop S (t.file true) (0, s) = _
  have hloop := scriptLoop_lines S t.lines [] (0, s)
  rw [List.append_nil, show scriptLoop S [] = .quiet [] from funext (scriptLoop_nil S),
    ScriptRun.andThen_quiet_nil] at hloop
  exact hloop

/-- Of a last line that is not ended: it is read if it has as many characters as a line can have. -/
theorem btShellScript_snoc {t : Script} {ls : List ScriptLine} {l : ScriptLine}
    (hlines : t.lines = ls ++ [l]) (s : σ) :
    btShellScript S (some (t.file false)) true s =
      if l.chars.length = 254 then runLines S (t.lines.map ScriptLine.chars) (0, s)
      else runLines S (ls.map ScriptLine.chars) (0, s) := by
  show scriptLoop S (t.file false) (0, s) = _
  rw [file_snoc hlines, scriptLoop_lines]
  split_ifs with hfull
  · rw [hlines, runLines_snoc]
    congr 1
    funext t'
    have hread := scriptLoop_full S l.text hfull [] t'
    rw [List.append_nil, show scriptLoop S [] = .quiet [] from funext (scriptLoop_nil S),
      ScriptRun.andThen_quiet_nil] at hread
    exact hread
  · have hlost : scriptLoop S l.chars = .quiet [] := by
      funext t'
      rw [scriptLoop, dif_neg (btGetS_lost l.text (lt_of_le_of_ne l.short hfull))]
    rw [hlost, ScriptRun.andThen_quiet_nil]

end Script

open Script

/-- `BT_ShellScript` does what a script means if and only if no conditional stands in a branch that
is not taken, no command that is reached begins like a keyword, and the last line is ended or does
nothing. -/
theorem shell_script_iff (t : Script) (ended : Bool) (s : σ) :
    Meets (t.meaning S s) (btShellScript S (some (t.file ended)) true s) ↔
      t.Clean S s ∧ Kept S t ended s := by
  cases ended with
  | true =>
    rw [btShellScript_ended, meets_runLines]
    exact (and_iff_left (.inl rfl)).symm
  | false =>
    rcases List.eq_nil_or_concat t.lines with hnil | ⟨ls, l, hlines⟩
    · have hempty : btShellScript S (some (t.file false)) true s =
          runLines S (t.lines.map ScriptLine.chars) (0, s) := by
        show scriptLoop S (t.lines.flatMap fun l => l.chars ++ [10]).dropLast (0, s) = _
        rw [hnil]
        exact scriptLoop_nil S _
      rw [hempty, meets_runLines]
      exact (and_iff_left (.inr fun l hl => by rw [hnil] at hl; cases hl)).symm
    · rw [List.concat_eq_append] at hlines
      have hkept : Kept S t false s ↔
          l.chars.length = 254 ∨ l.kind ≠ some .command ∨
          (t.meaning S s).entries.length < said t.lines := by
        unfold Kept
        rw [hlines, List.getLast?_concat]
        simp
      rw [btShellScript_snoc hlines, hkept]
      split_ifs with hfull
      · rw [meets_runLines]
        exact (and_iff_left (.inl hfull)).symm
      · rw [meets_dropLast hlines, or_iff_right hfull]

end

/-! ## A conditional in a branch that is not taken -/

section Nested

/-- `if`, with nothing behind it -/
def ifNothing : ScriptLine := ⟨ifWord, by simp [ifWord], by decide⟩

/-- `if 1` -/
def ifOne : ScriptLine := ⟨[0x69, 0x66, 0x20, 0x31], by simp, by decide⟩

/-- `endif` -/
def endifOnly : ScriptLine := ⟨endifWord, by simp [endifWord], by decide⟩

/-- `echo` -/
def echoLine : ScriptLine := ⟨[0x65, 0x63, 0x68, 0x6f], by simp, by decide⟩

/-- A conditional that is true, and a command behind it, in one that is false -/
def nestedScript : Script :=
  .ifThen ifNothing rfl
    (.ifThen ifOne rfl .done endifOnly rfl (.line echoLine (.inr rfl) .done))
    endifOnly rfl .done

/-- What `parse_condition` makes of a text without `==` and `$`: it is true if there is one. The
state counts the commands. -/
def plainShell : ShellSystem ℕ where
  condition p n := (eatSpace (p.drop 2) ≠ [], n)
  command _ n := (0, n + 1)

/-- The conditional that is true is not counted, but its `endif` is: what is behind it is executed.
-/
theorem shell_script_nested :
    (nestedScript.meaning plainShell 0).state = 0 ∧
      ¬ Script.Meets (nestedScript.meaning plainShell 0)
          (btShellScript plainShell (some (nestedScript.file true)) true 0) ∧
      (btShellScript plainShell (some (nestedScript.file true)) true 0).state = (0, 1) := by
  rw [Script.btShellScript_ended]
  refine ⟨rfl, fun h => ?_, rfl⟩
  exact (Script.meets_runLines.mp h).1.elim

end Nested

end BitThunder
