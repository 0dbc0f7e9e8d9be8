import BitThunder.Lib.CString
import BitThunder.Lib.Prog
import BitThunder.Lib.Ring
import BitThunder.Mm.Defs

/-!
# The environment of the shell

`os/src/shell/bt_env.c`. The variables hang off a list; a variable has its name behind it in the
same block and its value in a block of its own. A value that fits is written over the old one, any
other gets a new block, and the old one is given back before that.

* `setEnv_cases`: what a call of `BT_ShellSetEnv` can do to the entries;
* `shell_env_is_map`: with memory enough, the environment holds the last value of every name;
* `env_failure_atomic_iff`: without, a failed call leaves everything as it was except where it loses
  the old value.

`EnvRep` is the invariant: the list holds the variables, no name is there twice, and every variable
and every value has blocks of its own, all of them given out. The last part is what makes a write to
one variable harmless to the others, and it is why the rest of the system has to keep its hands off
these blocks and can do anything else.

A call is described by its outcomes, and an outcome by what becomes of the entries: a new one in
front, a value replaced, one gone, or all as they were. Only the third is not a map's way to behave,
and it is reached by one path, on which the old value has been given back and the new one gets no
memory. Each result about a run is then an induction over the calls, with `SetOutcome` in hand.
-/

namespace BitThunder

/-- The head of the list, or the link in a variable -/
inductive EnvCell : Type where
  | vars
  | entry (env : ℕ)
  deriving DecidableEq

/-- `BT_ENV_TYPE` -/
inductive EnvType : Type where
  | integer
  | string
  deriving DecidableEq

/-- `BT_ENV_STRING` -/
structure EnvString : Type where
  length : ℕ
  s : Memory

/-- `BT_ENV_VARIABLE`, without the link -/
structure EnvVariable : Type where
  eType : EnvType
  /-- `o.string` -/
  string : ℕ
  len : ℕ
  s : Memory

/-- The list, what is in the blocks, and which blocks are given out -/
structure ShellEnv : Type where
  vars : Links EnvCell
  var : ℕ → EnvVariable
  str : ℕ → EnvString
  blocks : Finset ℕ
  /-- how often `BT_kMalloc` was asked -/
  asked : ℕ

/-- Which requests `BT_kMalloc` grants, and where -/
structure EnvAllocator : Type where
  grants : ℕ → Bool
  pick : ℕ → Finset ℕ → ℕ
  ne_null : ∀ n blocks, pick n blocks ≠ 0
  fresh : ∀ n blocks, pick n blocks ∉ blocks

/-- The variable of a link -/
def EnvCell.env? : EnvCell → Option ℕ
  | vars => none
  | entry env => some env

namespace ShellEnv

/-- `BT_kMalloc` -/
def kMalloc (A : EnvAllocator) : Prog ShellEnv ℕ :=
  Prog.service fun s =>
    let p := A.pick s.asked s.blocks
    if A.grants s.asked then (p, { s with blocks := insert p s.blocks, asked := s.asked + 1 })
    else (0, { s with asked := s.asked + 1 })

/-- `BT_kFree` -/
def kFree (p : ℕ) : Prog ShellEnv Unit := Prog.update fun s => { s with blocks := s.blocks.erase p }

/-- Write a variable, its link excepted -/
def setVar (s : ShellEnv) (p : ℕ) (v : EnvVariable) : ShellEnv :=
  { s with var := Function.update s.var p v }

/-- Write a value -/
def setStr (s : ShellEnv) (p : ℕ) (v : EnvString) : ShellEnv :=
  { s with str := Function.update s.str p v }

/-- What `find_var` compares -/
def isNamed (s : ShellEnv) (name : Memory) (length : ℕ) : EnvCell → Bool
  | .vars => false
  | .entry env => (s.var env).s.strlen = length && Memory.strncmp length (s.var env).s name

/-- `find_var`; `none` is `NULL`. There are no more variables than blocks. -/
def findVar (name : Memory) (length : ℕ) : Prog ShellEnv (Option ℕ) := do
  let pos ← Prog.ofOption fun s => s.vars.search (s.isNamed name length) .vars s.blocks.card
  return pos.bind EnvCell.env?

/-- `BT_ShellSetEnv`; the type it is given is not looked at. -/
def btShellSetEnv (A : EnvAllocator) (name value : Memory) : Prog ShellEnv BtError := do
  let len := wordAdd value.strlen 1
  let namelen := wordAdd name.strlen 1
  match ← findVar name (wordSub namelen 1) with
  | none =>
    let var ← kMalloc A
    if var = 0 then return .noMemory
    else
      Prog.update fun s => s.setVar var
        { s.var var with
          eType := .string, len := namelen, s := Memory.strncpy (s.var var).s name namelen }
      let string ← kMalloc A
      Prog.update fun s => s.setVar var { s.var var with string := string }
      if string = 0 then
        kFree var
        return .noMemory
      else
        Prog.update fun s =>
          s.setStr string { length := len, s := Memory.strncpy (s.str string).s value len }
        Prog.update fun s => { s with vars := s.vars.insertAfter (.entry var) .vars }
        return .none
  | some var =>
    let v ← Prog.read fun s => s.var var
    let length ← Prog.read fun s => (s.str v.string).length
    if v.eType = .string ∧ len ≤ length then
      Prog.update fun s =>
        s.setStr v.string { length := length, s := Memory.strncpy (s.str v.string).s value length }
      return .none
    else
      kFree v.string
      let string ← kMalloc A
      Prog.update fun s => s.setVar var { s.var var with string := string }
      if string = 0 then
        Prog.update fun s => { s with vars := s.vars.unlink (.entry var) }
        kFree var
        return .noMemory
      else
        Prog.update fun s =>
          s.setStr string { length := len, s := Memory.strncpy (s.str string).s value len }
        return .none

/-- `BT_ShellGetEnv` -/
def btShellGetEnv (name : Memory) : Prog ShellEnv (Option ℕ) :=
  if name 0 = 0x24 ∧ name 1 = 0x7b then findVar (name.advance 2) (wordSub name.strlen 3)
    else findVar name name.strlen

/-- `BT_ShellGetNextEnv` -/
def btShellGetNextEnv (s : ShellEnv) : Option ℕ → Option ℕ
  | none => (s.vars.next .vars).env?
  | some env => (s.vars.next (.entry env)).env?

/-! ## Runs

A run is made of calls and of steps of the rest of the system, which allocates and frees blocks of
its own meanwhile. What a call is given lies in the memory of its caller. -/

/-- The variables, in the order of the list -/
def Lists (s : ShellEnv) (ps : List ℕ) : Prop := Ring s.vars .vars (ps.map .entry)

/-- A block of the environment -/
def Owns (s : ShellEnv) (p : ℕ) : Prop :=
  ∃ ps, s.Lists ps ∧ ∃ env ∈ ps, p = env ∨ p = (s.var env).string

/-- What the rest of the system can do: it leaves the blocks of the environment alone. -/
structure Others (s s' : ShellEnv) : Prop where
  /-- the head of the list is left alone -/
  head : s'.vars.next .vars = s.vars.next .vars ∧ s'.vars.prev .vars = s.vars.prev .vars
  /-- so are the links of the variables -/
  links : ∀ p, s.Owns p →
    s'.vars.next (.entry p) = s.vars.next (.entry p) ∧
    s'.vars.prev (.entry p) = s.vars.prev (.entry p)
  /-- and what is in their blocks -/
  content : ∀ p, s.Owns p → s'.var p = s.var p ∧ s'.str p = s.str p
  /-- which are not given back -/
  blocks : ∀ p, s.Owns p → p ∈ s.blocks → p ∈ s'.blocks

end ShellEnv

/-- A call of `BT_ShellSetEnv` -/
structure EnvCall : Type where
  name : CString
  value : CString
  nameAt : Memory
  valueAt : Memory
  name_holds : nameAt.HoldsText name.chars
  value_holds : valueAt.HoldsText value.chars

/-- What the environment can become, and the calls that made it so -/
inductive EnvRun (A : EnvAllocator) : List EnvCall → ShellEnv → Prop where
  | init {s : ShellEnv} (empty : s.Lists []) : EnvRun A [] s
  | set {calls : List EnvCall} {s s' : ShellEnv} {e : BtError} (run : EnvRun A calls s)
    (c : EnvCall)
      (call : ShellEnv.btShellSetEnv A c.nameAt c.valueAt s = some (e, s')) : EnvRun A
        (calls ++ [c]) s'
  | others {calls : List EnvCall} {s s' : ShellEnv} (run : EnvRun A calls s)
    (step : s.Others s') : EnvRun A calls s'

/-! ## The entries

The abstract environment is a list of entries in the order of the list in memory. It is a relation
and not a function: where the blocks are is a part of an entry. -/

/-- A variable, with the text of its name and of its value -/
structure EnvEntry : Type where
  var : ℕ
  string : ℕ
  name : CString
  value : CString

/-- The blocks of some variables -/
def envBlocks (es : List EnvEntry) : List ℕ := es.flatMap fun e => [e.var, e.string]

/-- The variable is in the blocks. -/
structure ShellEnv.Stores (s : ShellEnv) (e : EnvEntry) : Prop where
  eType : (s.var e.var).eType = .string
  /-- the variable has its value in that block -/
  string : (s.var e.var).string = e.string
  /-- its name is behind it -/
  name : (s.var e.var).s.HoldsText e.name.chars
  /-- the value is in the block -/
  value : (s.str e.string).s.HoldsText e.value.chars
  /-- which is long enough for it -/
  length : e.value.chars.length < (s.str e.string).length

/-- The list holds the variables, each once, and each has its own blocks. -/
structure EnvRep (s : ShellEnv) (es : List EnvEntry) : Prop where
  /-- the list runs through the variables -/
  lists : s.Lists (es.map EnvEntry.var)
  /-- each is stored -/
  stored : ∀ e ∈ es, s.Stores e
  /-- no name is there twice -/
  names : (es.map EnvEntry.name).Nodup
  /-- no block is used twice -/
  apart : (envBlocks es).Nodup
  /-- and all of them are given out -/
  blocks : ∀ p ∈ envBlocks es, p ∈ s.blocks

variable {A : EnvAllocator} {s s' : ShellEnv} {es as bs : List EnvEntry} {e : EnvEntry} {m : Memory}
  {name : CString} {p q : ℕ}

/-- A block of the environment is that of an entry or of its string. -/
theorem mem_envBlocks : p ∈ envBlocks es ↔ ∃ e ∈ es, p = e.var ∨ p = e.string := by
  simp [envBlocks]

/-- The blocks of an entry may be taken out of their place. -/
theorem envBlocks_perm : (envBlocks (as ++ e :: bs)).Perm
    (e.var :: e.string :: envBlocks (as ++ bs)) := by
  have hsplit : envBlocks (as ++ e :: bs) = envBlocks as ++
      ([e.var, e.string] ++ envBlocks bs) := by
    simp [envBlocks]
  have hrest : envBlocks (as ++ bs) = envBlocks as ++ envBlocks bs := by simp [envBlocks]
  rw [hsplit, hrest, ← List.append_assoc]
  exact List.perm_append_comm.append_right (envBlocks bs)

/-- An entry is stored as long as its two blocks are not written to. -/
theorem ShellEnv.Stores.congr (h : s.Stores e) (hvar : s'.var e.var = s.var e.var)
    (hstr : s'.str e.string = s.str e.string) :
    s'.Stores e := by
  constructor
  · rw [hvar]
    exact h.eType
  · rw [hvar]
    exact h.string
  · rw [hvar]
    exact h.name
  · rw [hstr]
    exact h.value
  · rw [hstr]
    exact h.length

namespace EnvRep

theorem length_le (rep : EnvRep s es) : es.length ≤ s.blocks.card := by
  have hsub : (es.map EnvEntry.var).toFinset ⊆ s.blocks := by
    intro p hp
    obtain ⟨e, he, rfl⟩ := List.mem_map.mp (List.mem_toFinset.mp hp)
    exact rep.blocks e.var (mem_envBlocks.mpr ⟨e, he, .inl rfl⟩)
  have hnd : (es.map EnvEntry.var).Nodup :=
    List.Nodup.of_map _ (List.nodup_cons.mp (show Ring _ _ _ from rep.lists).nodup).2
  calc es.length = (es.map EnvEntry.var).toFinset.card := by
        rw [List.toFinset_card_of_nodup hnd, List.length_map]
    _ ≤ s.blocks.card := Finset.card_le_card hsub

/-- The search goes through the variables. -/
theorem findVar_eq (rep : EnvRep s es) (m : Memory) (n : ℕ) :
    ShellEnv.findVar m n s = some
    ((es.find? fun e => s.isNamed m n (.entry e.var)).map EnvEntry.var, s) := by
  have hring : Ring s.vars .vars (es.map fun e => EnvCell.entry e.var) := by
    have := rep.lists
    rw [ShellEnv.Lists, List.map_map] at this
    exact this
  have hcells : (es.map fun e => EnvCell.entry e.var).length ≤ s.blocks.card := by
    rw [List.length_map]
    exact rep.length_le
  have hsearch := hring.search hcells (s.isNamed m n)
  rw [List.find?_map] at hsearch
  have hgoal : (ShellEnv.findVar m n).Ensures s fun r t =>
      r = (es.find? fun e => s.isNamed m n (.entry e.var)).map EnvEntry.var ∧ t = s := by
    rw [ShellEnv.findVar, Prog.ensures_bind, Prog.ensures_ofOption]
    refine ⟨_, hsearch, Prog.ensures_pure.mpr ⟨?_, rfl⟩⟩
    rw [Option.bind_map]
    change (es.find? fun e => s.isNamed m n (.entry e.var)).bind _ = _
    cases es.find? fun e => s.isNamed m n (.entry e.var) with
    | none => rfl
    | some e => rfl
  obtain ⟨r, t, hrun, rfl, rfl⟩ := hgoal
  exact hrun

theorem isNamed_iff (hstored : s.Stores e) (hm : m.Begins name.chars) :
    s.isNamed m name.chars.length (.entry e.var) = true ↔ e.name = name := by
  have hlen : (s.var e.var).s.strlen = e.name.chars.length :=
    Memory.strlen_of_holds e.name.noNul (by have := e.name.short; omega) hstored.name
  rw [ShellEnv.isNamed, hlen, Bool.and_eq_true, decide_eq_true_eq, CString.ext_iff]
  constructor
  · rintro ⟨heq, hcmp⟩
    rw [← heq] at hcmp
    exact (Memory.strncmp_iff e.name.noNul heq hstored.name.1 hm).mp hcmp
  · intro heq
    refine ⟨congrArg List.length heq, ?_⟩
    rw [← heq] at hm ⊢
    exact (Memory.strncmp_iff e.name.noNul rfl hstored.name.1 hm).mpr rfl

/-- A search for a text finds the variable with that name. -/
theorem findVar_named (rep : EnvRep s es) (hm : m.Begins name.chars) :
    ShellEnv.findVar m name.chars.length s = some
    ((es.find? fun e => e.name = name).map EnvEntry.var, s) := by
  rw [rep.findVar_eq]
  congr 3
  refine List.find?_congr fun e he => ?_
  rw [Bool.eq_iff_iff, isNamed_iff (rep.stored e he) hm, decide_eq_true_eq]

/-- Whether a variable with the name is there. -/
theorem find_cases (es : List EnvEntry) (name : CString) :
    (es.find? (fun e => e.name = name) = none ∧ name ∉ es.map EnvEntry.name) ∨
      ∃ as e bs, es = as ++ e :: bs ∧ e.name = name ∧ es.find?
      (fun e => e.name = name) = some e := by
  cases hfind : es.find? fun e => e.name = name with
  | none =>
    left
    refine ⟨rfl, fun hmem => ?_⟩
    obtain ⟨e, he, rfl⟩ := List.mem_map.mp hmem
    have := List.find?_eq_none.mp hfind e he
    simp at this
  | some e =>
    right
    obtain ⟨heq, as, bs, rfl, -⟩ := List.find?_eq_some_iff_append.mp hfind
    exact ⟨as, e, bs, rfl, of_decide_eq_true heq, rfl⟩

/-! ### What the calls do to the entries

Each change of the list in memory is a change of the list of entries, and leaves the other entries
stored, since it writes to no block of theirs. -/

/-- A new variable comes first. -/
theorem insert (rep : EnvRep s es) (hvars : s'.vars = s.vars.insertAfter (.entry e.var) .vars)
    (hvar : e.var ∉ s.blocks) (hstring : e.string ∉ insert e.var s.blocks)
    (hblocks : s'.blocks = insert e.string (insert e.var s.blocks))
    (hsame : ∀ x ∈ s.blocks, s'.var x = s.var x ∧ s'.str x = s.str x) (hstored : s'.Stores e)
    (hname : e.name ∉ es.map EnvEntry.name) : EnvRep s' (e :: es) where
  lists := by
    have hnew : EnvCell.entry e.var ∉ EnvCell.vars :: (es.map EnvEntry.var).map EnvCell.entry := by
      intro hmem
      rcases List.mem_cons.mp hmem with h | h
      · cases h
      · obtain ⟨p, hp, hpe⟩ := List.mem_map.mp h
        obtain ⟨x, hx, rfl⟩ := List.mem_map.mp hp
        exact hvar (rep.blocks _ (mem_envBlocks.mpr ⟨x, hx, .inl (EnvCell.entry.inj hpe).symm⟩))
    have hring : Ring s.vars .vars ([] ++ (es.map EnvEntry.var).map EnvCell.entry) := rep.lists
    rw [ShellEnv.Lists, hvars]
    exact hring.insertAfter hnew
  stored := by
    intro x hx
    rcases List.mem_cons.mp hx with rfl | hx
    · exact hstored
    · exact (rep.stored x hx).congr (hsame _ (rep.blocks _ (mem_envBlocks.mpr ⟨x, hx, .inl rfl⟩))).1
        (hsame _ (rep.blocks _ (mem_envBlocks.mpr ⟨x, hx, .inr rfl⟩))).2
  names := List.nodup_cons.mpr ⟨hname, rep.names⟩
  apart := by
    have hold : ∀ x ∈ envBlocks es, x ∈ s.blocks := rep.blocks
    rw [Finset.mem_insert, not_or] at hstring
    refine List.nodup_cons.mpr ⟨fun hmem => ?_,
      List.nodup_cons.mpr ⟨fun hmem => hstring.2 (hold _ hmem), rep.apart⟩⟩
    rcases List.mem_cons.mp hmem with h | h
    · exact hstring.1 h.symm
    · exact hvar (hold _ h)
  blocks := by
    intro x hx
    rw [hblocks, Finset.mem_insert, Finset.mem_insert]
    rcases List.mem_cons.mp hx with rfl | hx
    · exact .inr (.inl rfl)
    · rcases List.mem_cons.mp hx with rfl | hx
      · exact .inl rfl
      · exact .inr (.inr (rep.blocks x hx))

/-- The variables beside one -/
theorem beside (rep : EnvRep s (as ++ e :: bs)) :
    (∀ x ∈ envBlocks (as ++ bs), x ≠ e.var ∧ x ≠ e.string ∧ x ∈ s.blocks) ∧ e.var ≠ e.string ∧
      e.var ∈ s.blocks ∧ e.string ∈ s.blocks := by
  have hmem : ∀ x, x ∈ envBlocks (as ++ e :: bs) ↔ x = e.var ∨ x = e.string ∨
      x ∈ envBlocks (as ++ bs) := by
    intro x
    rw [envBlocks_perm.mem_iff, List.mem_cons, List.mem_cons]
  obtain ⟨hvar, hrest⟩ := List.nodup_cons.mp (envBlocks_perm.nodup_iff.mp rep.apart)
  obtain ⟨hstring, -⟩ := List.nodup_cons.mp hrest
  refine ⟨fun x hx => ⟨?_, ?_, rep.blocks x ((hmem x).mpr (.inr (.inr hx)))⟩, ?_, ?_, ?_⟩
  · rintro rfl
    exact hvar (List.mem_cons_of_mem _ hx)
  · rintro rfl
    exact hstring hx
  · intro h
    exact hvar (h ▸ List.mem_cons_self)
  · exact rep.blocks _ ((hmem _).mpr (.inl rfl))
  · exact rep.blocks _ ((hmem _).mpr (.inr (.inl rfl)))

theorem stored_beside (rep : EnvRep s (as ++ e :: bs))
    (hsame : ∀ x ∈ envBlocks (as ++ bs), s'.var x = s.var x ∧ s'.str x = s.str x) :
    ∀ x ∈ as ++ bs, s'.Stores x := by
  intro x hx
  have hold : x ∈ as ++ e :: bs := by
    rcases List.mem_append.mp hx with h | h
    · exact List.mem_append_left _ h
    · exact List.mem_append_right _ (List.mem_cons_of_mem _ h)
  exact (rep.stored x hold).congr (hsame _ (mem_envBlocks.mpr ⟨x, hx, .inl rfl⟩)).1
    (hsame _ (mem_envBlocks.mpr ⟨x, hx, .inr rfl⟩)).2

/-- A variable gets another value, in the same block or in one that is free. -/
theorem replace (rep : EnvRep s (as ++ e :: bs)) (e' : EnvEntry) (hvars : s'.vars = s.vars)
    (hvar : e'.var = e.var) (hname : e'.name = e.name)
    (hstring : e'.string ∉ s.blocks.erase e.string)
    (hblocks : s'.blocks = Insert.insert e'.string (s.blocks.erase e.string))
    (hsame : ∀ x ∈ envBlocks (as ++ bs), s'.var x = s.var x ∧ s'.str x = s.str x)
    (hstored : s'.Stores e') :
    EnvRep s' (as ++ e' :: bs) where
  lists := by
    have := rep.lists
    simp only [List.map_append, List.map_cons] at this ⊢
    rw [ShellEnv.Lists, hvars, hvar]
    exact this
  stored := by
    intro x hx
    rcases List.mem_append.mp hx with h | h
    · exact rep.stored_beside hsame x (List.mem_append_left _ h)
    · rcases List.mem_cons.mp h with rfl | h
      · exact hstored
      · exact rep.stored_beside hsame x (List.mem_append_right _ h)
  names := by
    have := rep.names
    simp only [List.map_append, List.map_cons, hname] at this ⊢
    exact this
  apart := by
    obtain ⟨hbeside, hne, hmem, -⟩ := rep.beside
    have hnd := (envBlocks_perm.nodup_iff.mp rep.apart)
    rw [Finset.mem_erase, not_and] at hstring
    refine envBlocks_perm.nodup_iff.mpr
      (List.nodup_cons.mpr ⟨fun h => ?_, List.nodup_cons.mpr ⟨fun h => ?_, ?_⟩⟩)
    · rw [hvar] at h
      rcases List.mem_cons.mp h with h | h
      · exact hstring (h ▸ hne) (h ▸ hmem)
      · exact (hbeside _ h).1 rfl
    · exact hstring (hbeside _ h).2.1 (hbeside _ h).2.2
    · exact (List.nodup_cons.mp (List.nodup_cons.mp hnd).2).2
  blocks := by
    intro x hx
    obtain ⟨hbeside, hne, hmem, -⟩ := rep.beside
    rw [hblocks, Finset.mem_insert, Finset.mem_erase]
    rw [envBlocks_perm.mem_iff, List.mem_cons, List.mem_cons] at hx
    rcases hx with rfl | rfl | hx
    · rw [hvar]
      exact .inr ⟨hne, hmem⟩
    · exact .inl rfl
    · exact .inr ⟨(hbeside x hx).2.1, (hbeside x hx).2.2⟩

/-- A variable goes, with its blocks. -/
theorem remove (rep : EnvRep s (as ++ e :: bs)) (hvars : s'.vars = s.vars.unlink (.entry e.var))
    (hblocks : s'.blocks = (s.blocks.erase e.string).erase e.var)
    (hsame : ∀ x ∈ envBlocks (as ++ bs), s'.var x = s.var x ∧ s'.str x = s.str x) :
    EnvRep s' (as ++ bs) where
  lists := by
    have := rep.lists
    rw [ShellEnv.Lists, hvars]
    simp only [ShellEnv.Lists, List.map_append, List.map_cons] at this ⊢
    exact this.unlink
  stored := rep.stored_beside hsame
  names := by
    have := rep.names
    simp only [List.map_append, List.map_cons] at this ⊢
    exact this.sublist ((List.sublist_cons_self _ _).append_left _)
  apart := (List.nodup_cons.mp (List.nodup_cons.mp (envBlocks_perm.nodup_iff.mp rep.apart)).2).2
  blocks := by
    intro x hx
    obtain ⟨hbeside, -⟩ := rep.beside
    rw [hblocks, Finset.mem_erase, Finset.mem_erase]
    exact hbeside x hx

end EnvRep

/-! ## A call

A call searches first and then goes one of two ways. Its outcomes are collected here, with what must
have been the case for each of them. -/

/-- The blocks hold what they held. -/
structure ShellEnv.Keeps (s s' : ShellEnv) : Prop where
  vars : s'.vars = s.vars
  blocks : s'.blocks = s.blocks
  content : ∀ p ∈ s.blocks, s'.var p = s.var p ∧ s'.str p = s.str p

/-- What a call can do to the entries -/
inductive SetOutcome (A : EnvAllocator) (c : EnvCall) (s : ShellEnv) :
    List EnvEntry → BtError → ShellEnv → List EnvEntry → Prop where
  | created {s' : ShellEnv} {es : List EnvEntry} (var string : ℕ)
    (new : c.name ∉ es.map EnvEntry.name)
      (length : (s'.str string).length = c.value.chars.length + 1)
        (asked : s'.asked = s.asked + 2) :
      SetOutcome A c s es .none s' (⟨var, string, c.name, c.value⟩ :: es)
  | stored {s' : ShellEnv} {as bs : List EnvEntry} {e : EnvEntry} (string : ℕ)
    (name : e.name = c.name)
      (room : c.value.chars.length < (s.str e.string).length ∨ A.grants s.asked = true) :
      SetOutcome A c s (as ++ e :: bs) .none s' (as ++ ⟨e.var, string, e.name, c.value⟩ :: bs)
  | refused {s' : ShellEnv} {es : List EnvEntry} (new : c.name ∉ es.map EnvEntry.name)
      (denied : A.grants s.asked = false ∨ A.grants (s.asked + 1) = false) (keeps : s.Keeps s') :
      SetOutcome A c s es .noMemory s' es
  | lost {s' : ShellEnv} {as bs : List EnvEntry} {e : EnvEntry} (name : e.name = c.name)
      (short : (s.str e.string).length ≤ c.value.chars.length) (denied : A.grants s.asked = false) :
      SetOutcome A c s (as ++ e :: bs) .noMemory s' (as ++ bs)

variable {c : EnvCall}

/-- A step that keeps the blocks keeps the environment. -/
theorem EnvRep.keeps (rep : EnvRep s es) (h : s.Keeps s') : EnvRep s' es where
  lists := by
    rw [ShellEnv.Lists, h.vars]
    exact rep.lists
  stored := by
    intro e he
    exact (rep.stored e he).congr
      (h.content _ (rep.blocks _ (mem_envBlocks.mpr ⟨e, he, .inl rfl⟩))).1
      (h.content _ (rep.blocks _ (mem_envBlocks.mpr ⟨e, he, .inr rfl⟩))).2
  names := rep.names
  apart := rep.apart
  blocks := by
    rw [h.blocks]
    exact rep.blocks

/-- A new variable that gets no memory is not entered. -/
theorem EnvRep.refused (rep : EnvRep s es) (hnew : c.name ∉ es.map EnvEntry.name)
    (hdenied : A.grants s.asked = false ∨ A.grants (s.asked + 1) = false) (h : s.Keeps s') :
    ∃ es', EnvRep s' es' ∧ SetOutcome A c s es .noMemory s' es' :=
  ⟨es, rep.keeps h, .refused hnew hdenied h⟩

/-- An allocation is granted, with a block that is not taken, or refused. -/
theorem ensures_kMalloc {Q : ℕ → ShellEnv → Prop} : (ShellEnv.kMalloc A).Ensures s Q ↔
    (A.grants s.asked = true → Q (A.pick s.asked s.blocks)
      { s with blocks := insert (A.pick s.asked s.blocks) s.blocks, asked := s.asked + 1 }) ∧
    (A.grants s.asked = false → Q 0 { s with asked := s.asked + 1 }) := by
  rw [ShellEnv.kMalloc, Prog.ensures_service]
  by_cases h : A.grants s.asked = true
  · simp [h]
  · simp [h]

theorem CString.strlen_holds (h : m.HoldsText name.chars) : m.strlen = name.chars.length :=
  Memory.strlen_of_holds name.noNul (by have := name.short; omega) h

theorem CString.wordAdd_strlen (h : m.HoldsText name.chars) :
    wordAdd m.strlen 1 = name.chars.length + 1 := by
  rw [CString.strlen_holds h, wordAdd, Nat.mod_eq_of_lt]
  have := name.short
  omega

theorem CString.wordSub_one (name : CString) :
    wordSub (name.chars.length + 1) 1 = name.chars.length := by
  have := name.short
  unfold wordSub
  omega

/-- What happens to a variable that there is not. -/
theorem setEnv_new (rep : EnvRep s es) (c : EnvCall) (hnew : c.name ∉ es.map EnvEntry.name)
    (hfind : (es.find? fun e => e.name = c.name) = none) :
    (ShellEnv.btShellSetEnv A c.nameAt c.valueAt).Ensures s fun r s' =>
      ∃ es', EnvRep s' es' ∧ SetOutcome A c s es r s' es' := by
  unfold ShellEnv.btShellSetEnv
  simp only [CString.wordAdd_strlen c.name_holds, CString.wordAdd_strlen c.value_holds,
    CString.wordSub_one, Prog.ensures_bind]
  refine ⟨_, s, rep.findVar_named c.name_holds.1, ?_⟩
  rw [hfind]
  simp only [Option.map_none, Prog.ensures_bind, ensures_kMalloc, Prog.ensures_ite,
    Prog.ensures_pure, Prog.ensures_update, ShellEnv.kFree]
  have hnull (n : ℕ) (blocks : Finset ℕ) : A.pick n blocks ≠ 0 := A.ne_null n blocks
  have hp := A.fresh s.asked s.blocks
  have hne : ∀ x ∈ s.blocks, x ≠ A.pick s.asked s.blocks := fun x hx h => hp (h ▸ hx)
  refine ⟨fun _ => ⟨fun h => absurd h (hnull _ _),
    fun _ => ⟨fun _ => ⟨fun h => absurd h (hnull _ _), fun _ => ?_⟩,
    fun hdenied => ⟨fun _ => ?_, fun h => absurd trivial h⟩⟩⟩,
    fun hdenied => ⟨fun _ => ?_, fun h => absurd trivial h⟩⟩
  · -- both blocks are there
    have hq := A.fresh (s.asked + 1) (insert (A.pick s.asked s.blocks) s.blocks)
    have hneq : ∀ x ∈ s.blocks, x ≠ A.pick (s.asked + 1)
        (insert (A.pick s.asked s.blocks) s.blocks) :=
      fun x hx h => hq (Finset.mem_insert_of_mem (h ▸ hx))
    refine ⟨_, rep.insert (e := ⟨_, _, c.name, c.value⟩) rfl hp hq rfl
      (fun x hx => ⟨?_, ?_⟩) ?_ hnew,
      .created _ _ hnew ?_ rfl⟩
    · simp only [ShellEnv.setVar, ShellEnv.setStr, Function.update_of_ne (hne x hx)]
    · exact Function.update_of_ne (hneq x hx) ..
    · constructor
      all_goals simp only [ShellEnv.setVar, ShellEnv.setStr, Function.update_self]
      · exact Memory.strncpy_holds c.name.noNul (Nat.lt_succ_self _) c.name_holds
      · exact Memory.strncpy_holds c.value.noNul (Nat.lt_succ_self _) c.value_holds
      · exact Nat.lt_succ_self _
    · simp only [ShellEnv.setVar, ShellEnv.setStr, Function.update_self]
  · -- the first one is given back
    refine rep.refused hnew (.inr hdenied) ⟨rfl, Finset.erase_insert hp, fun x hx => ⟨?_, rfl⟩⟩
    simp only [ShellEnv.setVar, Function.update_of_ne (hne x hx)]
  · exact rep.refused hnew (.inl hdenied) ⟨rfl, rfl, fun _ _ => ⟨rfl, rfl⟩⟩

theorem setEnv_old (rep : EnvRep s (as ++ e :: bs)) (c : EnvCall) (hname : e.name = c.name)
    (hfind : ((as ++ e :: bs).find? fun e => e.name = c.name) = some e) :
    (ShellEnv.btShellSetEnv A c.nameAt c.valueAt).Ensures s fun r s' =>
      ∃ es', EnvRep s' es' ∧ SetOutcome A c s (as ++ e :: bs) r s' es' := by
  have hstored := rep.stored e (by simp)
  obtain ⟨hbeside, hne, hvar, hstring⟩ := rep.beside
  unfold ShellEnv.btShellSetEnv
  simp only [CString.wordAdd_strlen c.name_holds, CString.wordAdd_strlen c.value_holds,
    CString.wordSub_one, Prog.ensures_bind]
  refine ⟨_, s, rep.findVar_named c.name_holds.1, ?_⟩
  rw [hfind]
  simp only [Option.map_some, Prog.ensures_bind, Prog.ensures_read, ensures_kMalloc,
    Prog.ensures_ite, Prog.ensures_pure, Prog.ensures_update, ShellEnv.kFree, hstored.eType,
    hstored.string, true_and]
  have hq := A.fresh s.asked (s.blocks.erase e.string)
  refine ⟨fun hroom => ?_,
    fun hshort => ⟨fun hgrant => ⟨fun h => absurd h (A.ne_null _ _), fun _ => ?_⟩,
    fun hdenied => ⟨fun _ => ?_, fun h => absurd trivial h⟩⟩⟩
  · -- the value is written over the old one
    refine ⟨_, rep.replace ⟨e.var, e.string, e.name, c.value⟩ rfl rfl rfl (Finset.notMem_erase _ _)
      (Finset.insert_erase hstring).symm
        (fun x hx => ⟨rfl, Function.update_of_ne (hbeside x hx).2.1 ..⟩) ?_,
      .stored _ hname (.inl hroom)⟩
    constructor
    all_goals simp only [ShellEnv.setStr, Function.update_self]
    · exact hstored.eType
    · exact hstored.string
    · exact hstored.name
    · exact Memory.strncpy_holds c.value.noNul hroom c.value_holds
    · exact hroom
  · -- it gets a new block
    refine ⟨_, rep.replace ⟨e.var, _, e.name, c.value⟩ rfl rfl rfl hq rfl (fun x hx => ⟨?_, ?_⟩) ?_,
      .stored _ hname (.inr hgrant)⟩
    · exact Function.update_of_ne (hbeside x hx).1 ..
    · refine Function.update_of_ne (fun h => hq ?_) ..
      rw [← h]
      exact Finset.mem_erase.mpr (hbeside x hx).2
    · constructor
      all_goals simp only [ShellEnv.setVar, ShellEnv.setStr, Function.update_self]
      · exact hstored.name
      · exact Memory.strncpy_holds c.value.noNul (Nat.lt_succ_self _) c.value_holds
      · exact Nat.lt_succ_self _
  · -- there is none, and the old one is gone
    have hsame (v : EnvVariable) : ∀ x ∈ envBlocks (as ++ bs),
        Function.update s.var e.var v x = s.var x :=
      fun x hx => Function.update_of_ne (hbeside x hx).1 ..
    exact ⟨as ++ bs, rep.remove rfl rfl fun x hx => ⟨hsame _ x hx, rfl⟩,
      .lost hname (Nat.not_lt.mp hshort) hdenied⟩

/-- What a call of `BT_ShellSetEnv` can do. -/
theorem setEnv_cases (rep : EnvRep s es) (c : EnvCall) :
    (ShellEnv.btShellSetEnv A c.nameAt c.valueAt).Ensures s fun r s' =>
      ∃ es', EnvRep s' es' ∧ SetOutcome A c s es r s' es' := by
  rcases EnvRep.find_cases es c.name with ⟨hfind, hnew⟩ | ⟨as, e, bs, rfl, hname, hfind⟩
  · exact setEnv_new rep c hnew hfind
  · exact setEnv_old rep c hname hfind

/-! ## All calls

The values of a run are a function from names, and the last call for a name decides. What
`BT_ShellGetEnv` and the loop over the variables say has to agree with it. -/

/-- The values after some calls: that of a name is the one it was given last. -/
def envValues (calls : List EnvCall) : CString → Option CString :=
  calls.foldl (fun values c => Function.update values c.name (some c.value)) fun _ => none

/-- The value of the entry with a name -/
def entryValue (es : List EnvEntry) (name : CString) : Option CString :=
  (es.find? fun e => e.name = name).map EnvEntry.value

namespace ShellEnv

/-- What `BT_ShellGetEnv` says of a name -/
def Gets (s : ShellEnv) (m : Memory) : Option CString → Prop
  | none => (btShellGetEnv m).Ensures s fun r s' => r = none ∧ s' = s
  | some value => (btShellGetEnv m).Ensures s fun r s' =>
      s' = s ∧ ∃ env, r = some env ∧ (s.str (s.var env).string).s.HoldsText value.chars

/-- `BT_ShellGetNextEnv` from a variable on -/
def Visits (s : ShellEnv) : Option ℕ → List ℕ → Prop
  | env, [] => s.btShellGetNextEnv env = none
  | env, p :: ps => s.btShellGetNextEnv env = some p ∧ Visits s (some p) ps

/-- The environment holds these values and no others. -/
structure IsMap (A : EnvAllocator) (s : ShellEnv) (values : CString → Option CString) : Prop where
  /-- a name by itself -/
  get : ∀ (name : CString) (m : Memory), ¬[0x24, 0x7b] <+: name.chars → m.HoldsText name.chars →
    s.Gets m (values name)
  /-- a name in braces -/
  braced : ∀ (name : CString) (m : Memory), m.HoldsText (0x24 :: 0x7b :: (name.chars ++ [0x7d])) →
    s.Gets m (values name)
  /-- The list has one entry for each name, all are visited once, and each value ends in its buffer.
  -/
  entries : ∃ ps, s.Lists ps ∧ s.Visits none ps ∧ ps.Nodup ∧
    (∀ name, values name ≠ none → ∃! env, env ∈ ps ∧ (s.var env).s.HoldsText name.chars) ∧
    ∀ env ∈ ps, ∃ name value, values name = some value ∧ (s.var env).s.HoldsText name.chars ∧
      (s.str (s.var env).string).s.HoldsText value.chars ∧
      value.chars.length < (s.str (s.var env).string).length
  /-- The next call succeeds as well. -/
  set : ∀ c : EnvCall, (btShellSetEnv A c.nameAt c.valueAt).Ensures s fun r _ => r = .none

/-- What `BT_ShellGetEnv` returns, with what is there -/
def answer (s : ShellEnv) (m : Memory) : Option (Option (ℕ × EnvVariable × EnvString)) :=
  (btShellGetEnv m s).map fun r => r.1.map fun env => (env, s.var env, s.str (s.var env).string)

/-- Every name has the answer it had, and no block has been lost. -/
structure Unchanged (s s' : ShellEnv) : Prop where
  /-- every name has the answer that it had -/
  answers : ∀ (m : Memory) (text : List UInt8), 0 ∉ text → text.length < 2 ^ 32 → m.HoldsText text →
    s'.answer m = s.answer m
  /-- and a block that the environment had, or that is new, belongs to it -/
  noLeak : ∀ p ∈ s'.blocks, s.Owns p ∨ p ∉ s.blocks → s'.Owns p

/-- The name has a value, the new one does not fit over it, and there is no memory for it. -/
def LosesOld (A : EnvAllocator) (s : ShellEnv) (c : EnvCall) : Prop :=
  ∃ ps, s.Lists ps ∧ ∃ env ∈ ps, (s.var env).s.HoldsText c.name.chars ∧
    (s.str (s.var env).string).length ≤ c.value.chars.length ∧ A.grants s.asked = false

end ShellEnv

variable {calls : List EnvCall}

theorem EnvRep.owns_iff (rep : EnvRep s es) : s.Owns p ↔ p ∈ envBlocks es := by
  rw [mem_envBlocks]
  constructor
  · rintro ⟨ps, hlists, env, henv, hp⟩
    have heq : ps.map EnvCell.entry = (es.map EnvEntry.var).map EnvCell.entry :=
      hlists.fwd.unique rep.lists.fwd hlists.head_notMem rep.lists.head_notMem
    have hmem : EnvCell.entry env ∈ (es.map EnvEntry.var).map EnvCell.entry :=
      heq ▸ List.mem_map_of_mem henv
    obtain ⟨x, hx, hxe⟩ := List.mem_map.mp hmem
    obtain rfl := EnvCell.entry.inj hxe
    obtain ⟨e, he, rfl⟩ := List.mem_map.mp hx
    exact ⟨e, he, (rep.stored e he).string ▸ hp⟩
  · rintro ⟨e, he, hp⟩
    exact ⟨_, rep.lists, e.var, List.mem_map_of_mem he, (rep.stored e he).string.symm ▸ hp⟩

theorem EnvRep.others (rep : EnvRep s es) (h : s.Others s') : EnvRep s' es where
  lists := by
    have hlink : ∀ x ∈ EnvCell.vars :: (es.map EnvEntry.var).map EnvCell.entry,
        s'.vars.next x = s.vars.next x ∧ s'.vars.prev x = s.vars.prev x := by
      intro x hx
      rcases List.mem_cons.mp hx with rfl | hx
      · exact h.head
      · obtain ⟨y, hy, rfl⟩ := List.mem_map.mp hx
        obtain ⟨e, he, rfl⟩ := List.mem_map.mp hy
        exact h.links _ (rep.owns_iff.mpr (mem_envBlocks.mpr ⟨e, he, .inl rfl⟩))
    exact Ring.congr rep.lists (fun x hx => (hlink x hx).1) fun x hx => (hlink x hx).2
  stored := by
    intro e he
    exact (rep.stored e he).congr
      (h.content _ (rep.owns_iff.mpr (mem_envBlocks.mpr ⟨e, he, .inl rfl⟩))).1
      (h.content _ (rep.owns_iff.mpr (mem_envBlocks.mpr ⟨e, he, .inr rfl⟩))).2
  names := rep.names
  apart := rep.apart
  blocks := fun p hp => h.blocks p (rep.owns_iff.mpr hp) (rep.blocks p hp)

theorem EnvRep.empty (h : s.Lists []) : EnvRep s [] where
  lists := h
  stored := by simp
  names := List.nodup_nil
  apart := List.nodup_nil
  blocks := by simp [envBlocks]

/-- In every run the list holds some variables. -/
theorem EnvRun.rep (run : EnvRun A calls s) : ∃ es, EnvRep s es := by
  induction run with
  | init h => exact ⟨[], .empty h⟩
  | set run c hcall ih =>
    obtain ⟨es, rep⟩ := ih
    obtain ⟨es', rep', -⟩ := (setEnv_cases rep c).yields _ _ hcall
    exact ⟨es', rep'⟩
  | others run step ih =>
    obtain ⟨es, rep⟩ := ih
    exact ⟨es, rep.others step⟩

/-! ## A first call -/

/-- No variables, and no block given out -/
def emptyEnv : ShellEnv where
  vars := ⟨fun _ => .vars, fun _ => .vars⟩
  var _ := ⟨.string, 0, 0, fun _ => 0⟩
  str _ := ⟨0, fun _ => 0⟩
  blocks := ∅
  asked := 0

/-- Blocks in a row -/
def rowAllocator (grants : ℕ → Bool) : EnvAllocator where
  grants := grants
  pick _ blocks := blocks.sup id + 1
  ne_null _ _ := Nat.succ_ne_zero _
  fresh _ _ h := absurd (Finset.le_sup (f := id) h) (Nat.not_succ_le_self _)

/-- A call with texts that lie apart -/
def EnvCall.ofTexts (name value : CString) : EnvCall where
  name := name
  value := value
  nameAt := Memory.ofText name.chars
  valueAt := Memory.ofText value.chars
  name_holds := Memory.ofText_holds _
  value_holds := Memory.ofText_holds _

theorem emptyEnv_lists : emptyEnv.Lists [] where
  fwd := rfl
  bwd := rfl
  nodup := List.nodup_singleton _

/-- `BT_ShellSetEnv("a", "1")` -/
def setShort : EnvCall := .ofTexts ⟨[0x61], by decide, by decide⟩ ⟨[0x31], by decide, by decide⟩

/-- `BT_ShellSetEnv("a", "10")` -/
def setLong : EnvCall :=
  .ofTexts ⟨[0x61], by decide, by decide⟩ ⟨[0x31, 0x30], by decide, by decide⟩

/-- A value of two characters is set, with two allocations. -/
theorem run_setShort (hgrant : A.grants 0 = true ∧ A.grants 1 = true) :
    ∃ s es, EnvRun A [setShort] s ∧ EnvRep s es ∧ s.asked = 2 ∧
      ∃ e ∈ es, e.name = setShort.name ∧ (s.str e.string).length = 2 := by
  have rep := EnvRep.empty emptyEnv_lists
  obtain ⟨r, s, hrun, es', rep', hout⟩ := setEnv_cases (A := A) rep setShort
  have hreach : EnvRun A [setShort] s := .set (.init emptyEnv_lists) setShort hrun
  generalize hes : ([] : List EnvEntry) = es at hout
  cases hout with
  | created var string hnew hlength hasked => exact ⟨s, _, hreach, rep', hasked, _,
    List.mem_cons_self, rfl, hlength⟩
  | stored string hname hroom => exact absurd hes (by simp)
  | refused hnew hdenied hkeeps =>
    rcases hdenied with h | h
    · exact absurd (hgrant.1.symm.trans h) (by decide)
    · exact absurd (hgrant.2.symm.trans h) (by decide)
  | lost hname hshort hdenied => exact absurd hes (by simp)

/-! ## With memory enough

Two of the four outcomes are about memory that is refused and do not occur. The others do to the
values of the entries what the call does to the map. -/

/-- The entry in front gives the value of its name. -/
theorem entryValue_cons : entryValue (e :: es) = Function.update (entryValue es) e.name
    (some e.value) := by
  funext name
  rw [entryValue, List.find?_cons]
  by_cases h : e.name = name
  · rw [decide_eq_true h, ← h, Function.update_self]
    rfl
  · rw [decide_eq_false h, Function.update_of_ne (Ne.symm h)]
    rfl

/-- An entry gives the value of its name if none before it has the same. -/
theorem entryValue_append (hname : e.name ∉ as.map EnvEntry.name) :
    entryValue (as ++ e :: bs) = Function.update (entryValue (as ++ bs)) e.name (some e.value) := by
  induction as with
  | nil => exact entryValue_cons
  | cons a as ih =>
    rw [List.map_cons, List.mem_cons, not_or] at hname
    rw [List.cons_append, List.cons_append, entryValue_cons, entryValue_cons, ih hname.2,
      Function.update_comm (Ne.symm hname.1)]

theorem EnvRep.name_apart (rep : EnvRep s (as ++ e :: bs)) : e.name ∉ as.map EnvEntry.name := by
  intro hmem
  have hnd := rep.names
  rw [List.map_append, List.map_cons] at hnd
  exact (List.nodup_append.mp hnd).2.2 _ hmem _ List.mem_cons_self rfl

/-- With memory the call sets the value and no other. -/
theorem SetOutcome.entryValue (hgrant : ∀ n, A.grants n = true) (rep : EnvRep s es) {r : BtError}
    {es' : List EnvEntry} (h : SetOutcome A c s es r s' es') :
    r = .none ∧ entryValue es' = Function.update (entryValue es) c.name (some c.value) := by
  cases h with
  | created var string hnew hlength hasked => exact ⟨rfl, entryValue_cons⟩
  | @stored _ as bs e string hname hroom =>
    have hnew : entryValue (as ++ ⟨e.var, string, e.name, c.value⟩ :: bs) =
        Function.update (entryValue (as ++ bs)) e.name (some c.value) :=
        entryValue_append rep.name_apart
    refine ⟨rfl, hnew.trans ?_⟩
    rw [entryValue_append rep.name_apart, ← hname, Function.update_idem]
  | refused hnew hdenied hkeeps =>
    rcases hdenied with h | h
    · exact absurd ((hgrant _).symm.trans h) (by decide)
    · exact absurd ((hgrant _).symm.trans h) (by decide)
  | lost hname hshort hdenied => exact absurd ((hgrant _).symm.trans hdenied) (by decide)

/-- With memory the environment has the values that were set last. -/
theorem EnvRun.values (hgrant : ∀ n, A.grants n = true) (run : EnvRun A calls s) :
    ∃ es, EnvRep s es ∧ entryValue es = envValues calls := by
  induction run with
  | init h => exact ⟨[], .empty h, rfl⟩
  | set run c hcall ih =>
    obtain ⟨es, rep, hvalues⟩ := ih
    obtain ⟨es', rep', hout⟩ := (setEnv_cases rep c).yields _ _ hcall
    refine ⟨es', rep', ?_⟩
    rw [(hout.entryValue hgrant rep).2, hvalues, envValues, envValues, List.foldl_append]
    rfl
  | others run step ih =>
    obtain ⟨es, rep, hvalues⟩ := ih
    exact ⟨es, rep.others step, hvalues⟩

namespace EnvRep

theorem gets (rep : EnvRep s es) (hm : m.Begins name.chars) {m' : Memory}
    (h : ShellEnv.btShellGetEnv m' = ShellEnv.findVar m name.chars.length) :
    s.Gets m' (entryValue es name) := by
  have hrun := h ▸ rep.findVar_named hm
  rcases find_cases es name with ⟨hfind, -⟩ | ⟨as, e, bs, rfl, hname, hfind⟩
  · rw [entryValue, hfind]
    rw [hfind] at hrun
    exact ⟨_, _, hrun, rfl, rfl⟩
  · have hstored := rep.stored e (by simp)
    rw [entryValue, hfind]
    rw [hfind] at hrun
    exact ⟨_, _, hrun, rfl, e.var, rfl, hstored.string ▸ hstored.value⟩

theorem get (rep : EnvRep s es) (hplain : ¬[0x24, 0x7b] <+: name.chars)
    (hm : m.HoldsText name.chars) :
    s.Gets m (entryValue es name) := by
  refine rep.gets hm.1 ?_
  rw [ShellEnv.btShellGetEnv, CString.strlen_holds hm, if_neg]
  rintro ⟨h₀, h₁⟩
  match hchars : name.chars with
  | [] =>
    have := hm.2
    rw [hchars, List.length_nil, h₀] at this
    exact absurd this (by decide)
  | [a] =>
    have := hm.2
    rw [hchars, List.length_singleton, h₁] at this
    exact absurd this (by decide)
  | a :: b :: l =>
    have ha := hm.1 0 (by simp [hchars])
    have hb := hm.1 1 (by simp [hchars])
    simp only [hchars, List.getElem_cons_zero, List.getElem_cons_succ, h₀, h₁] at ha hb
    exact hplain ⟨l, by rw [hchars, ← ha, ← hb]; rfl⟩

theorem braced (rep : EnvRep s es) (hm : m.HoldsText (0x24 :: 0x7b :: (name.chars ++ [0x7d]))) :
    s.Gets m (entryValue es name) := by
  have hbegins : (m.advance 2).Begins name.chars := by
    intro i hi
    have hbyte := hm.1 (i + 2) (by simp; omega)
    change m (i + 2) = _
    rw [hbyte]
    simp [hi]
  have hnul : 0 ∉ 0x24 :: 0x7b :: (name.chars ++ [0x7d]) := by
    have := name.noNul
    simpa using this
  have hshort := name.short
  have hlen : m.strlen = name.chars.length + 3 := by
    rw [Memory.strlen_of_holds hnul (by simp; omega) hm]
    simp
  have hword : wordSub (name.chars.length + 3) 3 = name.chars.length := by
    unfold wordSub
    omega
  refine rep.gets hbegins ?_
  rw [ShellEnv.btShellGetEnv, if_pos ⟨hm.1 0 (by simp), hm.1 1 (by simp)⟩, hlen, hword]

/-- The loop over the variables -/
theorem visits (rep : EnvRep s es) : s.Visits none (es.map EnvEntry.var) := by
  have hpath : ∀ (a : Option ℕ) (ps : List ℕ),
      Follows s.vars.next (a.elim .vars .entry) (ps.map .entry) .vars → s.Visits a ps := by
    intro a ps hf
    induction ps generalizing a with
    | nil =>
      have hnext : s.vars.next (a.elim .vars .entry) = .vars := hf
      cases a with
      | none => exact congrArg EnvCell.env? hnext
      | some p => exact congrArg EnvCell.env? hnext
    | cons p ps ih =>
      refine ⟨?_, ih (some p) hf.2⟩
      cases a with
      | none => exact congrArg EnvCell.env? hf.1
      | some q => exact congrArg EnvCell.env? hf.1
  exact hpath none _ rep.lists.fwd

theorem name_eq (rep : EnvRep s es) (he : e ∈ es) (h : (s.var e.var).s.HoldsText name.chars) :
    e.name = name :=
  CString.ext (Memory.holdsText_unique e.name.noNul name.noNul (rep.stored e he).name h)

/-- One variable for each name -/
theorem existsUnique (rep : EnvRep s es) (hvalue : entryValue es name ≠ none) :
    ∃! env, env ∈ es.map EnvEntry.var ∧ (s.var env).s.HoldsText name.chars := by
  rcases find_cases es name with ⟨hfind, -⟩ | ⟨as, e, bs, heq, hname, hfind⟩
  · rw [entryValue, hfind] at hvalue
    exact absurd rfl hvalue
  · have he : e ∈ es := by simp [heq]
    refine ⟨e.var, ⟨List.mem_map_of_mem he, hname ▸ (rep.stored e he).name⟩, ?_⟩
    rintro env ⟨henv, hholds⟩
    obtain ⟨x, hx, rfl⟩ := List.mem_map.mp henv
    have hsame : x.name = e.name := (rep.name_eq hx hholds).trans hname.symm
    rw [List.inj_on_of_nodup_map rep.names hx he hsame]

theorem entryValue_of_mem (rep : EnvRep s es) (he : e ∈ es) :
    entryValue es e.name = some e.value := by
  obtain ⟨as, bs, rfl⟩ := List.append_of_mem he
  rw [entryValue_append rep.name_apart, Function.update_self]

end EnvRep

/-- With memory enough, the environment is a map: `BT_ShellGetEnv` gives the last value of every
name. -/
theorem shell_env_is_map (hgrant : ∀ n, A.grants n = true) (run : EnvRun A calls s) :
    s.IsMap A (envValues calls) := by
  obtain ⟨es, rep, hvalues⟩ := run.values hgrant
  rw [← hvalues]
  refine ⟨fun _ _ => rep.get, fun _ _ => rep.braced, ⟨_, rep.lists, rep.visits, ?_, ?_, ?_⟩,
    fun c => ?_⟩
  · exact List.Nodup.of_map _ (List.nodup_cons.mp (show Ring _ _ _ from rep.lists).nodup).2
  · exact fun _ => rep.existsUnique
  · intro env henv
    obtain ⟨e, he, rfl⟩ := List.mem_map.mp henv
    have hstored := rep.stored e he
    refine ⟨e.name, e.value, rep.entryValue_of_mem he, hstored.name, ?_⟩
    rw [hstored.string]
    exact ⟨hstored.value, hstored.length⟩
  · exact (setEnv_cases rep c).mono fun r s' ⟨es', rep', hout⟩ => (hout.entryValue hgrant rep).1

/-- One name, set to a short and then to a longer value -/
theorem shell_env_is_map_twice : ∃ s, EnvRun (rowAllocator fun _ => true) [setShort, setLong] s ∧
    s.IsMap (rowAllocator fun _ => true) (envValues [setShort, setLong]) := by
  obtain ⟨s, es, run, rep, -⟩ := run_setShort (A := rowAllocator fun _ => true) ⟨rfl, rfl⟩
  obtain ⟨r, s', hrun, -⟩ := setEnv_cases (A := rowAllocator fun _ => true) rep setLong
  have run' : EnvRun (rowAllocator fun _ => true) [setShort, setLong] s' := .set run setLong hrun
  exact ⟨s', run', shell_env_is_map (fun _ => rfl) run'⟩

/-! ## Without

Where a new variable is refused nothing has been entered. Where a new value is refused the old one
has been given back already, and the variable goes with it. -/

theorem getEnv_eq (m : Memory) : ∃ m' n, ShellEnv.btShellGetEnv m = ShellEnv.findVar m' n := by
  unfold ShellEnv.btShellGetEnv
  split
  · exact ⟨_, _, rfl⟩
  · exact ⟨_, _, rfl⟩

/-- A step that keeps the blocks changes no answer. -/
theorem EnvRep.unchanged (rep : EnvRep s es) (h : s.Keeps s') : s.Unchanged s' where
  answers := by
    intro m text _ _ _
    obtain ⟨m', n, hquery⟩ := getEnv_eq m
    have hsame : ∀ e ∈ es, s'.var e.var = s.var e.var ∧ s'.str e.string = s.str e.string :=
      fun e he =>
      ⟨(h.content _ (rep.blocks _ (mem_envBlocks.mpr ⟨e, he, .inl rfl⟩))).1,
        (h.content _ (rep.blocks _ (mem_envBlocks.mpr ⟨e, he, .inr rfl⟩))).2⟩
    have hfind : (es.find? fun e => s'.isNamed m' n (.entry e.var)) =
        es.find? fun e => s.isNamed m' n (.entry e.var) :=
      List.find?_congr fun e he => by simp only [ShellEnv.isNamed, (hsame e he).1]
    rw [ShellEnv.answer, ShellEnv.answer, hquery, (rep.keeps h).findVar_eq, rep.findVar_eq, hfind]
    cases hf : es.find? fun e => s.isNamed m' n (.entry e.var) with
    | none => rfl
    | some e =>
      have he : e ∈ es := List.mem_of_find?_eq_some hf
      simp only [Option.map_some, (hsame e he).1, (rep.stored e he).string, (hsame e he).2]
  noLeak := by
    rintro p hp (howns | hnew)
    · exact (rep.keeps h).owns_iff.mpr (rep.owns_iff.mp howns)
    · exact absurd (h.blocks ▸ hp) hnew

/-- What is found is the value, if there is one. -/
theorem ShellEnv.Gets.answer {value : Option CString} (h : s.Gets m value) :
    (s.answer m).map Option.isSome = some value.isSome := by
  cases value with
  | none =>
    obtain ⟨r, s', hrun, rfl, rfl⟩ := h
    rw [ShellEnv.answer, hrun]
    rfl
  | some value =>
    obtain ⟨r, s', hrun, rfl, env, rfl, -⟩ := h
    rw [ShellEnv.answer, hrun]
    rfl

/-- The variable that was lost has an answer before and none after. -/
theorem EnvRep.not_unchanged (rep : EnvRep s (as ++ e :: bs)) (rep' : EnvRep s' (as ++ bs)) :
    ¬s.Unchanged s' := by
  intro h
  have hholds := Memory.ofText_holds (0x24 :: 0x7b :: (e.name.chars ++ [0x7d]))
  have hshort := e.name.short
  have hnul : 0 ∉ 0x24 :: 0x7b :: (e.name.chars ++ [0x7d]) := by
    have := e.name.noNul
    simpa using this
  have hsame := h.answers _ _ hnul (by simp; omega) hholds
  have hgone : entryValue (as ++ bs) e.name = none := by
    rw [entryValue, List.find?_eq_none.mpr fun x hx => ?_]
    · rfl
    · intro hname
      have hnd := rep.names
      have hperm : ((as ++ e :: bs).map EnvEntry.name).Perm ((e :: (as ++ bs)).map EnvEntry.name) :=
        List.perm_middle.map _
      exact (List.nodup_cons.mp (hperm.nodup_iff.mp hnd)).1
        (List.mem_map.mpr ⟨x, hx, of_decide_eq_true hname⟩)
  have hbefore := (rep.braced hholds).answer
  have hafter := (rep'.braced hholds).answer
  rw [rep.entryValue_of_mem (by simp)] at hbefore
  rw [hgone, hsame, hbefore] at hafter
  exact absurd hafter (by simp)

/-- The old value is lost where the new one is not shorter and gets no memory. -/
theorem EnvRep.losesOld_iff (rep : EnvRep s es) : s.LosesOld A c ↔ ∃ e ∈ es, e.name = c.name ∧
    (s.str e.string).length ≤ c.value.chars.length ∧ A.grants s.asked = false := by
  constructor
  · rintro ⟨ps, hlists, env, henv, hname, hshort, hdenied⟩
    have heq : ps.map EnvCell.entry = (es.map EnvEntry.var).map EnvCell.entry :=
      hlists.fwd.unique rep.lists.fwd hlists.head_notMem rep.lists.head_notMem
    have hmem : EnvCell.entry env ∈ (es.map EnvEntry.var).map EnvCell.entry :=
      heq ▸ List.mem_map_of_mem henv
    obtain ⟨x, hx, hxe⟩ := List.mem_map.mp hmem
    obtain rfl := EnvCell.entry.inj hxe
    obtain ⟨e, he, rfl⟩ := List.mem_map.mp hx
    exact ⟨e, he, rep.name_eq he hname, (rep.stored e he).string ▸ hshort, hdenied⟩
  · rintro ⟨e, he, hname, hshort, hdenied⟩
    have hstored := rep.stored e he
    exact ⟨_, rep.lists, e.var, List.mem_map_of_mem he, hname ▸ hstored.name,
      hstored.string.symm ▸ hshort, hdenied⟩

/-- A failed call leaves everything as it was, except where it loses the old value. -/
theorem EnvRep.set_unchanged_iff (rep : EnvRep s es) (c : EnvCall) :
    ((ShellEnv.btShellSetEnv A c.nameAt c.valueAt).Ensures s fun r s' => r ≠ .none →
      s.Unchanged s') ↔
      ¬s.LosesOld A c := by
  obtain ⟨r, s', hrun, es', rep', hout⟩ := setEnv_cases (A := A) rep c
  have hgoal : ((ShellEnv.btShellSetEnv A c.nameAt c.valueAt).Ensures s fun r s' => r ≠ .none →
      s.Unchanged s') ↔
      (r ≠ .none → s.Unchanged s') :=
    ⟨fun h => h.yields _ _ hrun, fun h => ⟨_, _, hrun, h⟩⟩
  rw [hgoal, rep.losesOld_iff]
  cases hout with
  | created var string hnew hlength hasked =>
    refine iff_of_true (fun h => absurd rfl h) ?_
    rintro ⟨e, he, hname, -⟩
    exact hnew (hname ▸ List.mem_map_of_mem he)
  | @stored _ as bs e string hname hroom =>
    refine iff_of_true (fun h => absurd rfl h) ?_
    rintro ⟨x, hx, hxname, hshort, hdenied⟩
    obtain rfl := List.inj_on_of_nodup_map rep.names hx (by simp) (hxname.trans hname.symm)
    rcases hroom with hroom | hgrant
    · exact absurd hroom (Nat.not_lt.mpr hshort)
    · exact absurd (hgrant.symm.trans hdenied) (by decide)
  | refused hnew hdenied hkeeps =>
    refine iff_of_true (fun _ => rep.unchanged hkeeps) ?_
    rintro ⟨e, he, hname, -⟩
    exact hnew (hname ▸ List.mem_map_of_mem he)
  | @lost _ as bs e hname hshort hdenied =>
    refine iff_of_false (fun h => rep.not_unchanged rep' (h nofun)) ?_
    exact not_not.mpr ⟨e, by simp, hname, hshort, hdenied⟩

/-- When a failed call of `BT_ShellSetEnv` leaves everything as it was. -/
theorem env_failure_atomic_iff (run : EnvRun A calls s) (c : EnvCall) :
    ((ShellEnv.btShellSetEnv A c.nameAt c.valueAt).Ensures s fun r s' => r ≠ .none →
      s.Unchanged s') ↔
      ¬s.LosesOld A c := by
  obtain ⟨es, rep⟩ := run.rep
  exact rep.set_unchanged_iff c

/-- A value that fits is stored, with memory or without. -/
theorem env_failure_atomic_iff_fits : ∃ s, EnvRun (rowAllocator fun n => n < 2) [setShort] s ∧
    (((ShellEnv.btShellSetEnv (rowAllocator fun n => n < 2) setShort.nameAt
      setShort.valueAt).Ensures s fun r s' =>
      r ≠ .none → s.Unchanged s') ↔ ¬s.LosesOld (rowAllocator fun n => n < 2) setShort) := by
  obtain ⟨s, es, run, -⟩ := run_setShort (A := rowAllocator fun n => n < 2) ⟨rfl, rfl⟩
  exact ⟨s, run, env_failure_atomic_iff run setShort⟩

/-- A longer value for a variable, and no memory for it: the variable is gone. -/
theorem env_failure_loses_value : ∃ s, EnvRun (rowAllocator fun n => n != 2) [setShort] s ∧
    ¬(ShellEnv.btShellSetEnv (rowAllocator fun n => n != 2) setLong.nameAt setLong.valueAt).Ensures
      s
      fun r s' => r ≠ .none → s.Unchanged s' := by
  obtain ⟨s, es, run, rep, hasked, e, he, hname, hlength⟩ :=
    run_setShort (A := rowAllocator fun n => n != 2) ⟨rfl, rfl⟩
  refine ⟨s, run, fun hkept => ?_⟩
  refine (rep.set_unchanged_iff setLong).mp hkept (rep.losesOld_iff.mpr ⟨e, he, hname, ?_, ?_⟩)
  · exact hlength.le
  · rw [hasked]
    rfl

end BitThunder
