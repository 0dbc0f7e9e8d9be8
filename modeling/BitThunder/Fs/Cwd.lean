import Mathlib.Data.List.TakeWhile
import BitThunder.Fs.Open

/-!
# The current directory

`BT_ChDir` of `os/src/fs/bt_fs.c`. A path is opened as a directory, made absolute on the way
by the current directory; but what is stored in `curtask->cwd` is the path as it came.

* `btChDir_absolute`: a path that starts with a separator is stored without loss;
* `btChDir_relative`: any other one, once opened, is stored as a relative path, or nothing
  is there to be looked at;
* `cwd_absolute_iff`: the runs along which the current directory stays absolute.

What should be stored is a path that names the directory whatever is current later. The buffer is
compared with the directory through its components, since a separator at the end or two in a row say
nothing, and through the way in which relative paths are joined to it.

A path that begins with a separator is stored as it is, but for its end, and names the directory
that was opened. Any other path was opened relative to the buffer and is stored without it, so that
from then on the buffer is relative, or empty, and relative paths are looked up somewhere else. A
call that fails leaves the buffer alone. The theorem is by induction over the calls, and one call
keeps the buffer right exactly if it is safe.
-/

namespace BitThunder

/-! ## The buffer

The buffer is the bytes that the task has, and a string is read from it up to its terminator, if
there is one. -/

/-- The byte that ends a string. -/
def nul : Char := Char.ofNat 0

/-- `curtask->cwd` -/
structure CwdBuffer : Type where
  chars : List Char
  length_eq : chars.length = btPathMax

namespace CwdBuffer

/-- The string in the buffer. -/
def str (b : CwdBuffer) : List Char := b.chars.takeWhile (· ≠ nul)

/-- `strncpy` of a path that fits, with `NUL`s behind it. -/
def ofPath (path : List Char) (h : path.length ≤ btPathMax) : CwdBuffer where
  chars := path ++ List.replicate (btPathMax - path.length) nul
  length_eq := by
    rw [List.length_append, List.length_replicate]
    omega

/-- `'/'` -/
def root : CwdBuffer := ofPath ['/'] (by decide)

/-- The last test of `BT_ChDir`: a separator at the end goes, if it is not all there is. -/
def strip (b : CwdBuffer) (len : ℕ) : CwdBuffer :=
  if b.chars[len - 1]? = some '/' ∧ 1 < len then
    ⟨b.chars.set (len - 1) nul, by rw [List.length_set]; exact b.length_eq⟩
  else b

end CwdBuffer

/-- A call of `BT_ChDir`, and what it finds. -/
structure ChDirCall : Type where
  path : List Char
  /-- the path is a string -/
  path_str : nul ∉ path
  mountpoints : List MountPoint
  malloc : Bool
  fs : FsCalls

namespace ChDirCall

variable (c : ChDirCall)

/-- What the path is looked up in. -/
def env (b : CwdBuffer) : PathEnv := ⟨c.mountpoints, some b.str, c.malloc⟩

/-- The absolute path that `BT_OpenDir` looks up. -/
def opened (b : CwdBuffer) : Reply (List Char) := (c.env b).absolutePath errNoMemory true c.path

/-- `BT_OpenDir` -/
def openDir (b : CwdBuffer) : Option (Option ℕ × ℕ) := btOpenDir (c.env b) c.fs c.path 0

end ChDirCall

theorem length_unbackslash (path : List Char) : (unbackslash path).length = path.length :=
  List.length_map _

/-- A path that is short enough still fits into the buffer once its backslashes are replaced. -/
theorem ChDirCall.unbackslash_fits {c : ChDirCall} (h : ¬ btPathMax ≤ c.path.length) :
    (unbackslash c.path).length ≤ btPathMax := by
  rw [length_unbackslash]
  omega

/-- `BT_ChDir`. For an empty path the last test reads `cwd[0xFFFFFFFF]`. -/
def btChDir (c : ChDirCall) (b : CwdBuffer) : Option (ℕ × CwdBuffer) :=
  if h : btPathMax ≤ c.path.length then some (errGeneric, b)
  else
    match c.openDir b with
    | none => none
    | some (none, _) => some (errGeneric, b)
    | some (some _, _) =>
      let b := CwdBuffer.ofPath (unbackslash c.path) (ChDirCall.unbackslash_fits h)
      if c.path.length = 0 then none
      else some (0, b.strip c.path.length)

/-! ## Components

Two texts name the same place if they have the same components. Joining a path to a directory puts
the components one behind the other, which is why they are the right measure. -/

/-- The names a path is made of. -/
def components (path : List Char) : List (List Char) := (path.splitOnP (· = '/')).filter (· ≠ [])

theorem components_nil : components [] = [] := rfl

theorem components_append (a b : List Char) :
    components (a ++ '/' :: b) = components a ++ components b := by
  unfold components
  rw [List.splitOnP_append_cons a b (by simp), List.filter_append]

/-- A separator at the end says nothing. -/
theorem components_concat (a : List Char) : components (a ++ ['/']) = components a := by
  rw [components_append, components_nil, List.append_nil]

/-- A path that ends with a separator is what comes before it, and the separator. -/
theorem eq_concat_of_getLast? {a : List Char} (h : a.getLast? = some '/') :
    a = a.dropLast ++ ['/'] :=
  (List.dropLast_append_getLast? '/' h).symm

theorem components_dropLast {a : List Char} (h : a.getLast? = some '/') :
    components a.dropLast = components a := by
  conv_rhs => rw [eq_concat_of_getLast? h]
  rw [components_concat]

/-- A path joined to the working directory has the components of both. -/
theorem components_joinPath (cwd path : List Char) :
    components (joinPath cwd path) = components cwd ++ components path := by
  unfold joinPath
  split_ifs with h
  · conv_lhs => rw [eq_concat_of_getLast? h, List.append_assoc, List.singleton_append]
    rw [components_append, components_dropLast h]
  · exact components_append cwd path

/-! ## What is stored

The copy, the replacement of backslashes and the removal of the last separator are followed on the
text. None of them changes a component. -/

section Stored

variable {b b' : CwdBuffer} {c : ChDirCall} {e : ℕ} {path : List Char}

/-- The path without a separator at its end. -/
def trimmed (path : List Char) : List Char :=
  if path.getLast? = some '/' ∧ 1 < path.length then path.dropLast else path

theorem takeWhile_nul {path rest : List Char} (h : nul ∉ path) :
    (path ++ nul :: rest).takeWhile (· ≠ nul) = path := by
  rw [List.takeWhile_append_of_pos, List.takeWhile_cons_of_neg (by simp), List.append_nil]
  intro c hc
  simp only [ne_eq, decide_not, Bool.not_eq_true', decide_eq_false_iff_not]
  exact fun hn => h (hn ▸ hc)

theorem replicate_nul_succ {n : ℕ} (h : 0 < n) :
    List.replicate n nul = nul :: List.replicate (n - 1) nul := by
  conv_lhs => rw [show n = n - 1 + 1 by omega, List.replicate_succ]

/-- A path that fits is read back from the buffer. -/
theorem str_ofPath (h : path.length < btPathMax) (hnul : nul ∉ path) :
    (CwdBuffer.ofPath path h.le).str = path := by
  unfold CwdBuffer.str CwdBuffer.ofPath
  dsimp only
  rw [replicate_nul_succ (by omega), takeWhile_nul hnul]

/-- The last test takes a separator off the end of the string. -/
theorem str_strip (h : path.length < btPathMax) (hnul : nul ∉ path) (hne : path ≠ []) :
    ((CwdBuffer.ofPath path h.le).strip path.length).str = trimmed path := by
  have hlen : 0 < path.length := List.length_pos_of_ne_nil hne
  have hlast : (CwdBuffer.ofPath path h.le).chars[path.length - 1]? = path.getLast? := by
    unfold CwdBuffer.ofPath
    dsimp only
    rw [List.getElem?_append_left (by omega), List.getLast?_eq_getElem?]
  unfold CwdBuffer.strip trimmed
  rw [hlast]
  split_ifs with hsep
  · have hpath := eq_concat_of_getLast? hsep.1
    have hdrop : path.dropLast.length = path.length - 1 := List.length_dropLast
    unfold CwdBuffer.str CwdBuffer.ofPath
    dsimp only
    rw [List.set_append_left _ _ (by omega)]
    have hset : path.set (path.length - 1) nul = path.dropLast ++ [nul] := by
      conv_lhs => rw [hpath, List.length_append, List.length_singleton, Nat.add_sub_cancel]
      rw [List.set_append_right _ _ le_rfl, Nat.sub_self]
      rfl
    rw [hset, List.append_assoc, List.singleton_append]
    exact takeWhile_nul fun hn => hnul (List.mem_of_mem_dropLast hn)
  · exact str_ofPath h hnul

/-- To take a separator off the end leaves the components. -/
theorem components_trimmed (path : List Char) : components (trimmed path) = components path := by
  unfold trimmed
  split_ifs with h
  · exact components_dropLast h.1
  · rfl

theorem unbackslash_no_backslash (path : List Char) : '\\' ∉ unbackslash path := by
  intro h
  obtain ⟨c, -, hc⟩ := List.mem_map.mp h
  split_ifs at hc with hsep
  · exact absurd hc (by decide)
  · exact hsep hc

theorem unbackslash_eq_self (h : '\\' ∉ path) : unbackslash path = path := by
  unfold unbackslash
  conv_rhs => rw [← List.map_id path]
  refine List.map_congr_left fun c hc => ?_
  exact if_neg fun heq : c = '\\' => h (heq ▸ hc)

theorem nul_not_mem_unbackslash (h : nul ∉ path) : nul ∉ unbackslash path := by
  intro hn
  obtain ⟨c, hc, heq⟩ := List.mem_map.mp hn
  split_ifs at heq
  · exact absurd heq (by decide)
  · exact h (heq ▸ hc)

/-- An absolute path begins with a slash once its backslashes are replaced. -/
theorem head_unbackslash (h : startsAbsolute path = true) :
    (unbackslash path).head? = some '/' := by
  cases path with
  | nil => simp [startsAbsolute] at h
  | cons c path =>
    have hsep : c = '/' ∨ c = '\\' := by simpa [startsAbsolute, isSeparator] using h
    unfold unbackslash
    rw [List.map_cons, List.head?_cons]
    obtain rfl | rfl := hsep
    · rfl
    · rfl

theorem head_unbackslash_ne (h : startsAbsolute path = false) :
    (unbackslash path).head? ≠ some '/' := by
  cases path with
  | nil => simp [unbackslash]
  | cons c path =>
    have hsep : ¬ (c = '/' ∨ c = '\\') := by simpa [startsAbsolute, isSeparator] using h
    unfold unbackslash
    rw [List.map_cons, List.head?_cons, if_neg fun hc => hsep (.inr hc)]
    exact fun hc => hsep (.inl (Option.some.inj hc))

theorem head_trimmed (path : List Char) : (trimmed path).head? = path.head? := by
  unfold trimmed
  split_ifs with h
  · cases path with
    | nil => rfl
    | cons c path =>
      cases path with
      | nil => simp at h
      | cons d path => rfl
  · rfl

theorem trimmed_subset {d : Char} (h : d ∈ trimmed path) : d ∈ path := by
  unfold trimmed at h
  split_ifs at h
  · exact List.mem_of_mem_dropLast h
  · exact h

theorem length_trimmed_le (path : List Char) : (trimmed path).length ≤ path.length := by
  unfold trimmed
  split_ifs
  · rw [List.length_dropLast]
    omega
  · exact le_rfl

end Stored

/-! ## The current directory of a run

A safe call leaves the buffer naming the directory that it opened. A call that is not safe leaves a
relative path in it, and this is shown for any buffer, so that the two directions fit together over
a run. -/

/-- The buffer names a directory, given by its components, and every relative path is looked
up in it. -/
structure CwdBuffer.Names (b : CwdBuffer) (dir : List (List Char)) : Prop where
  /-- the buffer holds a string -/
  terminated : nul ∈ b.chars
  /-- which begins with a separator -/
  absolute : b.str.head? = some '/'
  /-- and is shorter than the buffer -/
  short : b.str.length < btPathMax
  /-- its components are those of the directory -/
  names : components b.str = dir
  /-- a path behind it is taken from this directory on -/
  relative : ∀ path, components (unbackslash (joinPath b.str path)) =
    dir ++ components (unbackslash path)

/-- Along the calls, the buffer names the directory that was opened last; a call that fails
changes nothing, and none reads or writes outside of the buffer. -/
def Stays : List ChDirCall → CwdBuffer → List (List Char) → Prop
  | [], b, dir => b.Names dir
  | c :: calls, b, dir => b.Names dir ∧ ∃ e b', btChDir c b = some (e, b') ∧
    (e ≠ 0 → b' = b ∧ Stays calls b' dir) ∧
    (e = 0 → ∃ path, c.opened b = .ok path ∧ Stays calls b' (components path))

/-- A path that does not start with a separator is not opened. -/
def ChDirCall.Safe (c : ChDirCall) (b : CwdBuffer) : Prop :=
  btPathMax ≤ c.path.length ∨ startsAbsolute c.path = true ∨ ∃ e, c.openDir b = some (none, e)

/-- Every call is safe where it is made. -/
def AllSafe : List ChDirCall → CwdBuffer → Prop
  | [], _ => True
  | c :: calls, b => c.Safe b ∧ ∀ e b', btChDir c b = some (e, b') → AllSafe calls b'

section Run

variable {b b' : CwdBuffer} {c : ChDirCall} {calls : List ChDirCall} {dir : List (List Char)}

/-- A buffer with an absolute path in it names the directory of that path's components. -/
theorem names_of_str {path : List Char} (hstr : b.str = path) (hlen : path.length < btPathMax)
    (habs : path.head? = some '/') (hsep : '\\' ∉ path) : b.Names (components path) := by
  subst hstr
  refine ⟨?_, habs, hlen, rfl, fun path => ?_⟩
  · by_contra hnot
    have hall : b.str = b.chars := by
      unfold CwdBuffer.str
      rw [List.takeWhile_eq_self_iff]
      intro d hd
      simpa using fun hn : d = nul => hnot (hn ▸ hd)
    rw [hall, b.length_eq] at hlen
    exact lt_irrefl _ hlen
  · have hjoin : unbackslash (joinPath b.str path) = joinPath b.str (unbackslash path) := by
      unfold joinPath
      split_ifs
      · rw [unbackslash_append, unbackslash_eq_self hsep]
      · rw [unbackslash_append, unbackslash_eq_self hsep]
        rfl
    rw [hjoin, components_joinPath]

theorem names_root : CwdBuffer.root.Names [] := by
  have hstr : CwdBuffer.root.str = ['/'] := str_ofPath (by decide) (by decide)
  exact names_of_str hstr (by decide) rfl (by decide)

/-- A directory that was opened had an absolute path. -/
theorem opened_of_handle {h e : ℕ} (ho : c.openDir b = some (some h, e)) :
    ∃ path, c.opened b = .ok path := by
  unfold ChDirCall.openDir btOpenDir PathEnv.openDirTarget PathEnv.resolve at ho
  unfold ChDirCall.opened
  cases ha : (c.env b).absolutePath errNoMemory true c.path with
  | ok path => exact ⟨path, rfl⟩
  | error e' =>
    rw [ha] at ho
    simp [answer] at ho
  | fault =>
    rw [ha] at ho
    simp [answer] at ho

/-- What is stored for a path that was opened. -/
theorem btChDir_opened {h e : ℕ} (hlen : c.path.length < btPathMax) (hne : c.path ≠ [])
    (ho : c.openDir b = some (some h, e)) :
    ∃ b', btChDir c b = some (0, b') ∧ b'.str = trimmed (unbackslash c.path) := by
  have hlen' : (unbackslash c.path).length < btPathMax := by rwa [length_unbackslash]
  have hne' : unbackslash c.path ≠ [] := by
    intro hnil
    exact hne (List.map_eq_nil_iff.mp hnil)
  refine ⟨_, ?_, str_strip hlen' (nul_not_mem_unbackslash c.path_str) hne'⟩
  unfold btChDir
  rw [dif_neg (not_le.mpr hlen), ho]
  dsimp only
  rw [if_neg fun h => hne (List.length_eq_zero_iff.mp h)]
  exact congrArg (fun len => some (0, CwdBuffer.strip _ len)) (length_unbackslash c.path).symm

/-- An absolute path, as `to_absolute_path` hands it on: with a separator at its end. -/
theorem toAbsolutePath_of_absolute {cwd path : List Char} (hcwd : 0 < cwd.length)
    (h : startsAbsolute path = true) :
    (∃ e, toAbsolutePath cwd path true = .error e) ∨
      ∃ d, toAbsolutePath cwd path true = .ok d ∧ components d = components (unbackslash path) := by
  unfold toAbsolutePath
  by_cases hlen : btPathMax ≤ path.length + cwd.length
  · rw [if_pos hlen]
    exact .inl ⟨_, rfl⟩
  · rw [if_neg hlen, if_neg (by simp [h]), h]
    simp only [if_true, true_and]
    right
    split_ifs with h₁ h₂ h₃
    · rw [List.length_append, List.length_singleton] at h₂
      omega
    · refine ⟨_, rfl, ?_⟩
      rw [unbackslash_append]
      exact components_concat _
    · omega
    · exact ⟨_, rfl, rfl⟩

/-- The outcomes of a call of `BT_OpenDir`. -/
theorem openDir_cases (c : ChDirCall) (b : CwdBuffer) :
    c.openDir b = none ∧ c.opened b = .fault ∨ (∃ e, c.openDir b = some (none, e)) ∨
      ∃ h e, c.openDir b = some (some h, e) := by
  cases ho : c.openDir b with
  | none =>
    refine .inl ⟨rfl, ?_⟩
    unfold ChDirCall.openDir btOpenDir PathEnv.openDirTarget PathEnv.resolve at ho
    unfold ChDirCall.opened
    cases ha : (c.env b).absolutePath errNoMemory true c.path with
    | fault => rfl
    | error e =>
      rw [ha] at ho
      simp [answer] at ho
    | ok path =>
      rw [ha] at ho
      cases hm : btGetMountPoint (c.env b).mountpoints path with
      | none => simp [answer, hm] at ho
      | some m => simp [answer, hm] at ho
  | some r =>
    obtain ⟨h, e⟩ := r
    cases h with
    | none => exact .inr (.inl ⟨e, rfl⟩)
    | some h => exact .inr (.inr ⟨h, e, rfl⟩)

/-- A call that is safe keeps the buffer right. -/
theorem btChDir_safe (hb : b.Names dir) (hsafe : c.Safe b) :
    ∃ e b', btChDir c b = some (e, b') ∧
      (e ≠ 0 ∧ b' = b ∨ e = 0 ∧ ∃ path, c.opened b = .ok path ∧ b'.Names (components path)) := by
  by_cases hlen : btPathMax ≤ c.path.length
  · refine ⟨errGeneric, b, ?_, .inl ⟨errGeneric_ne_zero, rfl⟩⟩
    unfold btChDir
    rw [dif_pos hlen]
  · have hcwd : 0 < b.str.length := by
      have habs := hb.absolute
      cases hstr : b.str with
      | nil => simp [hstr] at habs
      | cons d rest => exact Nat.succ_pos _
    obtain ⟨ho, hfault⟩ | ⟨e, ho⟩ | ⟨h, e, ho⟩ := openDir_cases c b
    · -- a path that starts with a separator fits into the buffer it is copied to
      have habs : startsAbsolute c.path = true := by
        obtain h | h | ⟨e, h⟩ := hsafe
        · exact absurd h hlen
        · exact h
        · rw [ho] at h
          simp at h
      unfold ChDirCall.opened PathEnv.absolutePath ChDirCall.env at hfault
      dsimp only at hfault
      split_ifs at hfault
      obtain ⟨e, h⟩ | ⟨d, h, -⟩ := toAbsolutePath_of_absolute hcwd habs
      · rw [h] at hfault
        simp at hfault
      · rw [h] at hfault
        simp at hfault
    · refine ⟨errGeneric, b, ?_, .inl ⟨errGeneric_ne_zero, rfl⟩⟩
      unfold btChDir
      rw [dif_neg hlen, ho]
    · have habs : startsAbsolute c.path = true := by
        obtain h | h | ⟨e, h⟩ := hsafe
        · exact absurd h hlen
        · exact h
        · rw [ho] at h
          simp at h
      have hne : c.path ≠ [] := by
        intro hnil
        rw [hnil] at habs
        simp [startsAbsolute] at habs
      obtain ⟨b', hrun, hstr⟩ := btChDir_opened (not_le.mp hlen) hne ho
      obtain ⟨path, hpath⟩ := opened_of_handle ho
      refine ⟨0, b', hrun, .inr ⟨rfl, path, hpath, ?_⟩⟩
      have hcomp : components path = components (trimmed (unbackslash c.path)) := by
        rw [components_trimmed]
        unfold ChDirCall.opened PathEnv.absolutePath ChDirCall.env at hpath
        dsimp only at hpath
        split_ifs at hpath
        obtain ⟨e, h⟩ | ⟨d, h, hd⟩ := toAbsolutePath_of_absolute hcwd habs
        · rw [h] at hpath
          simp at hpath
        · rw [h] at hpath
          exact Reply.ok.inj hpath ▸ hd
      rw [hcomp]
      refine names_of_str hstr ?_ ?_ fun hsep => unbackslash_no_backslash c.path
        (trimmed_subset hsep)
      · have hle := length_trimmed_le (unbackslash c.path)
        rw [length_unbackslash] at hle
        omega
      · rw [head_trimmed]
        exact head_unbackslash habs

/-- A call that keeps the buffer right was safe. -/
theorem safe_of_btChDir {e : ℕ} (hrun : btChDir c b = some (e, b'))
    (h : e = 0 → ∃ dir, b'.Names dir) : c.Safe b := by
  by_cases hlen : btPathMax ≤ c.path.length
  · exact .inl hlen
  · obtain ⟨ho, -⟩ | ⟨e', ho⟩ | ⟨handle, e', ho⟩ := openDir_cases c b
    · unfold btChDir at hrun
      rw [dif_neg hlen, ho] at hrun
      simp at hrun
    · exact .inr (.inr ⟨e', ho⟩)
    · by_cases habs : startsAbsolute c.path = true
      · exact .inr (.inl habs)
      · exfalso
        by_cases hne : c.path = []
        · unfold btChDir at hrun
          rw [dif_neg hlen, ho] at hrun
          dsimp only at hrun
          rw [if_pos (by rw [hne, List.length_nil])] at hrun
          simp at hrun
        · obtain ⟨b'', hrun', hstr⟩ := btChDir_opened (not_le.mp hlen) hne ho
          obtain ⟨rfl, rfl⟩ := Prod.mk.inj (Option.some.inj (hrun'.symm.trans hrun))
          obtain ⟨dir, hdir⟩ := h rfl
          have hhead := hdir.absolute
          rw [hstr, head_trimmed] at hhead
          exact head_unbackslash_ne (by simpa using habs) hhead

/-- After calls that stay within their bounds the buffer names the directory that they lead to. -/
theorem Stays.names (h : Stays calls b dir) : b.Names dir := by
  cases calls with
  | nil => exact h
  | cons c calls => exact h.1

/-- From any directory: the buffer stays right exactly along the calls that are safe. -/
theorem stays_iff (hb : b.Names dir) : Stays calls b dir ↔ AllSafe calls b := by
  induction calls generalizing b dir with
  | nil => exact iff_of_true hb trivial
  | cons c calls ih =>
    constructor
    · rintro ⟨-, e, b', hrun, hfail, hdone⟩
      have hsafe : c.Safe b := by
        refine safe_of_btChDir hrun fun he => ?_
        obtain ⟨path, -, hstays⟩ := hdone he
        exact ⟨_, hstays.names⟩
      refine ⟨hsafe, fun e₁ b₁ hrun₁ => ?_⟩
      obtain ⟨rfl, rfl⟩ := Prod.mk.inj (Option.some.inj (hrun.symm.trans hrun₁))
      by_cases he : e = 0
      · obtain ⟨path, -, hstays⟩ := hdone he
        exact (ih hstays.names).mp hstays
      · exact (ih (hfail he).2.names).mp (hfail he).2
    · rintro ⟨hsafe, hall⟩
      obtain ⟨e, b', hrun, ⟨he, rfl⟩ | ⟨rfl, path, hpath, hnames⟩⟩ := btChDir_safe hb hsafe
      · exact ⟨hb, e, b', hrun, fun _ => ⟨rfl, (ih hb).mpr (hall e b' hrun)⟩, fun h => absurd h he⟩
      · exact ⟨hb, 0, b', hrun, fun h => absurd rfl h,
          fun _ => ⟨path, hpath, (ih hnames).mpr (hall 0 b' hrun)⟩⟩

/-- From `/`, the current directory stays absolute exactly as long as only paths that start
with a separator are opened. -/
theorem cwd_absolute_iff (calls : List ChDirCall) :
    Stays calls CwdBuffer.root [] ↔ AllSafe calls CwdBuffer.root := stays_iff names_root

/-- A filesystem that has every directory. -/
def anyDirFs : FsCalls where
  pfnOpen _ _ _ := ⟨some 1, none⟩
  pfnOpenDir _ _ := ⟨some 1, none⟩
  pfnGetInode _ := none

/-- `BT_ChDir("foo")`, with a filesystem at the root. -/
def chDirFoo : ChDirCall where
  path := "foo".toList
  path_str := by decide
  mountpoints := rootEnv.mountpoints
  malloc := true
  fs := anyDirFs

/-- The first relative change leaves a relative path behind. -/
theorem cwd_turns_relative :
    ((btChDir chDirFoo CwdBuffer.root).map fun r => (r.1, r.2.str)) = some (0, "foo".toList) ∧
      ¬ Stays [chDirFoo] CwdBuffer.root [] := by
  have hroot : CwdBuffer.root.str = ['/'] := str_ofPath (by decide) (by decide)
  have henv : chDirFoo.env CwdBuffer.root = rootEnv := by
    unfold ChDirCall.env
    rw [hroot]
    rfl
  have hopen : chDirFoo.openDir CwdBuffer.root = some (some 1, 0) := by
    unfold ChDirCall.openDir
    rw [henv]
    decide
  obtain ⟨b', hrun, hstr⟩ := btChDir_opened (by decide) (by decide) hopen
  have hfoo : b'.str = "foo".toList := hstr.trans (by decide)
  refine ⟨?_, ?_⟩
  · rw [hrun, Option.map_some, hfoo]
  · rintro ⟨-, e, b₁, hrun₁, -, hdone⟩
    obtain ⟨rfl, rfl⟩ := Prod.mk.inj (Option.some.inj (hrun.symm.trans hrun₁))
    obtain ⟨path, -, hstays⟩ := hdone rfl
    have habs := hstays.names.absolute
    rw [hfoo] at habs
    exact absurd habs (by decide)

end Run

end BitThunder
