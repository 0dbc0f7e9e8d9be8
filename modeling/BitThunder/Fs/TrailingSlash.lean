import Mathlib.Data.List.DropRight
import BitThunder.Fs.PathSpec

/-!
# Separators at the end of a directory

`BT_OpenDir` adds a separator to the path of a directory, whether it has one or not, and
`devfs_opendir` of `os/src/fs/bt_devfs.c` knows its root by the text `/` only. So the root of
a mounted device filesystem is listed as `/dev`, while `/dev/` is looked for under the name `//`.

* `opensAlike_iff`: when the three ways to write a directory open the same one.

`BT_OpenDir` makes a path absolute with a separator at its end, which it adds even if there is one.
A name with none, with one and with a backslash therefore are looked up with one separator, two and
two. As long as no mountpoint is at the path or at the path with separators behind it, the lookups
find the same mountpoint and differ only in the end of the rest, which filesystems are assumed to
ignore. Something mounted right there makes the difference visible, and if it is the device
filesystem, its root is known by one text only.
-/

namespace BitThunder

/-- `devfs_opendir`; `hDir` is what `BT_CreateHandle` comes back with. -/
def devfsOpendir (hDir : Option ℕ) (szpPath : List Char) : Option ℕ :=
  if szpPath ≠ ['/'] then none else hDir

theorem devfsOpendir_root (hDir : Option ℕ) : devfsOpendir hDir ['/'] = hDir := rfl

theorem devfsOpendir_other {path : List Char} (h : path ≠ ['/']) (hDir : Option ℕ) :
    devfsOpendir hDir path = none :=
  if_pos h

/-! ## Opening the same directory

What filesystems make of a separator at the end is not known, so that two targets count as the same
if they differ in this only. -/

/-- A path without the separators at its end. -/
def bare (path : List Char) : List Char := path.rdropWhile isSeparator

/-- The absolute form of a path, with no separator added. -/
def absoluteForm (cwd p : List Char) : List Char :=
  unbackslash (if startsAbsolute p then p else joinPath cwd p)

/-- Two replies that lead to one directory. -/
def SameDirectory : Reply (MountPoint × List Char) → Reply (MountPoint × List Char) → Prop
  | .ok (m, path), .ok (m', path') =>
    m = m' ∧ bare path = bare path' ∧ ∀ hDir, devfsOpendir hDir path = devfsOpendir hDir path'
  | .error e, .error e' => e = e'
  | _, _ => False

/-- The reply leads to what is mounted at `root`, and a device filesystem there lists it. -/
def ListsRoot (root : List Char) : Reply (MountPoint × List Char) → Prop
  | .ok (m, path) => m.szpPath = root ∧ ∀ hDir, devfsOpendir hDir path = hDir
  | _ => False

/-- A directory path that is open to being written with a separator at its end. -/
structure DirectoryPath (cwd p : List Char) : Prop where
  ne_nil : p ≠ []
  /-- it does not end in a separator -/
  last : p.getLast?.any isSeparator = false
  /-- a relative path has a directory to be taken from -/
  cwd_ne_nil : startsAbsolute p = false → cwd ≠ []
  /-- it is short enough for the check -/
  short : p.length + 1 + cwd.length < btPathMax
  /-- and so is the absolute path with two more characters -/
  fits : (absoluteForm cwd p).length + 2 < btPathMax

/-- The directory opens alike with no separator at its end, with `/` and with a backslash. -/
structure OpensAlike (k : PathEnv) (cwd p : List Char) : Prop where
  /-- with a separator at the end -/
  slash : SameDirectory (k.openDirTarget p) (k.openDirTarget (p ++ ['/']))
  /-- or a backslash -/
  backslash : SameDirectory (k.openDirTarget p) (k.openDirTarget (p ++ ['\\']))
  /-- where a filesystem is mounted at the path, its root is listed for each way to write it -/
  root : k.malloc = true → (∃ m ∈ k.mountpoints, m.szpPath = absoluteForm cwd p) →
    ∀ q ∈ [p, p ++ ['/'], p ++ ['\\']], ListsRoot (absoluteForm cwd p) (k.openDirTarget q)

/-! ## What is looked up

The absolute form of a directory has one separator at its end, or two if it was given one. -/

/-- The rest of an operation, once the path is absolute. -/
def targetOf (mountpoints : List MountPoint) (path : List Char) : Reply (MountPoint × List Char) :=
  match btGetMountPoint mountpoints path with
  | some m => .ok (m, getRelativePath m path)
  | none => .error errGeneric

section LookedUp

variable {k : PathEnv} {cwd p : List Char} {c : Char}

theorem unbackslash_separator (hc : isSeparator c = true) : unbackslash [c] = ['/'] := by
  obtain rfl | rfl : c = '/' ∨ c = '\\' := by simpa [isSeparator] using hc
  · rfl
  · rfl

/-- Whether a path is absolute does not depend on its end. -/
theorem startsAbsolute_append (hp : p ≠ []) (b : List Char) :
    startsAbsolute (p ++ b) = startsAbsolute p := by
  cases p with
  | nil => exact absurd rfl hp
  | cons c p => rfl

/-- What is added to the path is at the end of the joined one. -/
theorem joinPath_append (cwd p b : List Char) : joinPath cwd (p ++ b) = joinPath cwd p ++ b := by
  unfold joinPath
  split_ifs
  · rw [List.append_assoc]
  · rw [List.append_assoc, List.cons_append]

theorem absoluteForm_append (hp : p ≠ []) (b : List Char) :
    absoluteForm cwd (p ++ b) = absoluteForm cwd p ++ unbackslash b := by
  unfold absoluteForm
  rw [startsAbsolute_append hp, joinPath_append]
  split_ifs
  · exact unbackslash_append p b
  · exact unbackslash_append (joinPath cwd p) b

/-- `to_absolute_path` of a directory, where everything fits. -/
theorem toAbsolutePath_dir (hcwd : startsAbsolute p = false → cwd ≠ [])
    (hshort : p.length + cwd.length < btPathMax)
    (hfits : (absoluteForm cwd p).length + 1 < btPathMax) :
    toAbsolutePath cwd p true = .ok (absoluteForm cwd p ++ if 1 < p.length then ['/'] else []) := by
  have hlen : (if startsAbsolute p = true then p else joinPath cwd p).length + 1 < btPathMax := by
    simpa [absoluteForm, unbackslash] using hfits
  unfold toAbsolutePath
  rw [if_neg (not_le.mpr hshort), if_neg fun h => hcwd (by simpa using h.1) h.2]
  dsimp only
  by_cases h : 1 < p.length
  · rw [if_pos (show true = true ∧ 1 < p.length from ⟨rfl, h⟩), if_pos h,
      if_neg (by rw [List.length_append, List.length_singleton]; omega), unbackslash_append]
    rfl
  · rw [if_neg (show ¬ (true = true ∧ 1 < p.length) from fun h' => h h'.2), if_neg h,
      if_neg (by omega), List.append_nil]
    rfl

/-- The mountpoint that `BT_OpenDir` asks, where the path fits and there is memory for it. -/
theorem openDirTarget_eq (hcwd : k.cwd = some cwd) (hmalloc : k.malloc = true)
    (hstart : startsAbsolute p = false → cwd ≠ []) (hshort : p.length + cwd.length < btPathMax)
    (hfits : (absoluteForm cwd p).length + 1 < btPathMax) :
    k.openDirTarget p = targetOf k.mountpoints (absoluteForm cwd p ++ if 1 < p.length then ['/']
      else []) := by
  unfold PathEnv.openDirTarget PathEnv.resolve PathEnv.absolutePath
  rw [hcwd]
  dsimp only
  rw [if_pos hmalloc, toAbsolutePath_dir hstart hshort hfits]
  rfl

/-- Without memory for the path both forms fail alike. -/
theorem openDirTarget_noMemory (hcwd : k.cwd = some cwd) (hmalloc : k.malloc = false)
    (p : List Char) :
    k.openDirTarget p = .error errNoMemory := by
  unfold PathEnv.openDirTarget PathEnv.resolve PathEnv.absolutePath
  rw [hcwd]
  dsimp only
  rw [hmalloc]
  rfl

/-- With a separator at its end, the path is looked up with two of them. -/
theorem openDirTarget_separated (h : DirectoryPath cwd p) (hcwd : k.cwd = some cwd)
    (hmalloc : k.malloc = true) (hc : isSeparator c = true) :
    k.openDirTarget (p ++ [c]) = targetOf k.mountpoints (absoluteForm cwd p ++ ['/', '/']) := by
  have hpos := List.length_pos_of_ne_nil h.ne_nil
  have hshort := h.short
  have hfits := h.fits
  have hform : absoluteForm cwd (p ++ [c]) = absoluteForm cwd p ++ ['/'] := by
    rw [absoluteForm_append h.ne_nil, unbackslash_separator hc]
  rw [openDirTarget_eq hcwd hmalloc (startsAbsolute_append h.ne_nil [c] ▸ h.cwd_ne_nil)
    (by rw [List.length_append, List.length_singleton]; omega)
    (by rw [hform, List.length_append, List.length_singleton]; omega), hform,
    if_pos (by rw [List.length_append, List.length_singleton]; omega), List.append_assoc]
  rfl

/-- With none, it is looked up with one at most. -/
theorem openDirTarget_bare (h : DirectoryPath cwd p) (hcwd : k.cwd = some cwd)
    (hmalloc : k.malloc = true) :
    ∃ s, (s = [] ∨ s = ['/']) ∧ k.openDirTarget p = targetOf k.mountpoints
    (absoluteForm cwd p ++ s) := by
  have hshort := h.short
  have hfits := h.fits
  refine ⟨_, ?_, openDirTarget_eq hcwd hmalloc h.cwd_ne_nil (by omega) (by omega)⟩
  split_ifs
  · exact .inr rfl
  · exact .inl rfl

/-- The absolute form ends in the last character of the path. -/
theorem DirectoryPath.ends (h : DirectoryPath cwd p) :
    ∃ a c, absoluteForm cwd p = a ++ [c] ∧ isSeparator c = false := by
  obtain hnil | ⟨q, c, rfl⟩ := List.eq_nil_or_concat' p
  · exact absurd hnil h.ne_nil
  · have hc : isSeparator c = false := by simpa using h.last
    have hkeep : unbackslash [c] = [c] := by
      have hne : c ≠ '\\' := by
        rintro rfl
        exact absurd hc (by decide)
      simp [unbackslash, hne]
    unfold absoluteForm
    rw [joinPath_append]
    split_ifs
    · exact ⟨_, c, by rw [unbackslash_append, hkeep], hc⟩
    · exact ⟨_, c, by rw [unbackslash_append, hkeep], hc⟩

end LookedUp

/-! ## The lookup

Longer texts have more prefixes, and so a mountpoint that ends in the separators can come in.
Without one both texts are found below the same mountpoint. -/

section Lookup

variable {mountpoints : List MountPoint} {a b s : List Char} {m : MountPoint}

/-- Two paths that lie under the same mountpoints, and are not one themselves, are looked up alike.
-/
theorem getMountPointLoop_congr {l : List MountPoint} {target : Option MountPoint} {n : ℕ}
    (hsame : ∀ m ∈ l, m.szpPath <+: a ↔ m.szpPath <+: b) (ha : ∀ m ∈ l, m.szpPath ≠ a)
    (hb : ∀ m ∈ l, m.szpPath ≠ b) :
    getMountPointLoop a l target n = getMountPointLoop b l target n := by
  induction l generalizing target n with
  | nil => rfl
  | cons m l ih =>
    have hrest : ∀ target n, getMountPointLoop a l target n = getMountPointLoop b l target n :=
      fun target n =>
      ih (fun m' hm' => hsame m' (List.mem_cons_of_mem m hm'))
        (fun m' hm' => ha m' (List.mem_cons_of_mem m hm'))
        fun m' hm' => hb m' (List.mem_cons_of_mem m hm')
    unfold getMountPointLoop
    by_cases hm : m.szpPath <+: a
    · have hm' : m.szpPath <+: b := (hsame m List.mem_cons_self).mp hm
      have hlen : m.szpPath.length ≠ a.length :=
        fun h => ha m List.mem_cons_self (hm.eq_of_length h)
      have hlen' : m.szpPath.length ≠ b.length :=
        fun h => hb m List.mem_cons_self (hm'.eq_of_length h)
      rw [if_pos (strstr_eq_zero.mpr hm), if_pos (strstr_eq_zero.mpr hm'),
        if_neg (not_lt.mpr hm.length_le), if_neg (not_lt.mpr hm'.length_le)]
      dsimp only
      rw [if_neg hlen, if_neg hlen']
      exact hrest _ _
    · have hm' : ¬ m.szpPath <+: b := fun h => hm ((hsame m List.mem_cons_self).mpr h)
      rw [if_neg fun h => hm (strstr_eq_zero.mp h), if_neg fun h => hm' (strstr_eq_zero.mp h)]
      exact hrest _ _

/-- Nothing is mounted at a path, nor there with one or two separators behind it. -/
def Unmounted (mountpoints : List MountPoint) (path : List Char) : Prop :=
  ∀ m ∈ mountpoints, m.szpPath ≠ path ∧ m.szpPath ≠ path ++ ['/'] ∧ m.szpPath ≠ path ++ ['/', '/']

/-- What is looked up: the path with at most two separators added. -/
def Added (s : List Char) : Prop := s = [] ∨ s = ['/'] ∨ s = ['/', '/']

/-- No mountpoint is at the path, with or without the separator. -/
theorem Unmounted.ne (h : Unmounted mountpoints a) (hs : Added s) (hm : m ∈ mountpoints) :
    m.szpPath ≠ a ++ s := by
  obtain ⟨hzero, hone, htwo⟩ := h m hm
  obtain rfl | rfl | rfl := hs
  · rwa [List.append_nil]
  · exact hone
  · exact htwo

/-- Behind the path no mountpoint ends. -/
theorem Unmounted.isPrefix_iff (h : Unmounted mountpoints a) (hs : Added s) (hm : m ∈ mountpoints) :
    m.szpPath <+: a ++ s ↔ m.szpPath <+: a := by
  obtain ⟨-, hone, htwo⟩ := h m hm
  have hstep : m.szpPath <+: a ++ ['/'] ↔ m.szpPath <+: a := by
    rw [List.prefix_concat_iff]
    exact or_iff_right hone
  obtain rfl | rfl | rfl := hs
  · rw [List.append_nil]
  · exact hstep
  · have hsplit : a ++ ['/', '/'] = a ++ ['/'] ++ ['/'] := by simp
    rw [← hstep, hsplit, List.prefix_concat_iff, ← hsplit]
    exact or_iff_right htwo

/-- Then the separator does not change which mountpoint is found. -/
theorem Unmounted.lookup_eq (h : Unmounted mountpoints a) (hs : Added s) (ht : Added b) :
    btGetMountPoint mountpoints (a ++ s) = btGetMountPoint mountpoints (a ++ b) :=
  getMountPointLoop_congr
    (fun _ hm => (h.isPrefix_iff hs hm).trans (h.isPrefix_iff ht hm).symm)
    (fun _ hm => h.ne hs hm) fun _ hm => h.ne ht hm

/-- Below a mountpoint, what is added stays at the end of the rest. -/
theorem getRelativePath_append (hm : m.szpPath <+: a) (hne : m.szpPath ≠ a) (ha : a ≠ []) :
    ∃ r, r ≠ [] ∧ r <:+ a ∧ ∀ s, getRelativePath m (a ++ s) = r ++ s := by
  unfold getRelativePath
  split_ifs
  · obtain ⟨r, rfl⟩ := hm
    refine ⟨r, ?_, List.suffix_append _ _, fun s => ?_⟩
    · rintro rfl
      exact hne (List.append_nil _).symm
    · rw [List.append_assoc, List.drop_left]
  · exact ⟨a, ha, List.suffix_refl a, fun _ => rfl⟩

/-- The path without its separators does not depend on those that were added. -/
theorem bare_append (hs : Added s) (r : List Char) : bare (r ++ s) = bare r := by
  have hone : ∀ r, bare (r ++ ['/']) = bare r := fun r => List.rdropWhile_concat_pos _ _ _ rfl
  obtain rfl | rfl | rfl := hs
  · rw [List.append_nil]
  · exact hone r
  · have hsplit : r ++ ['/', '/'] = r ++ ['/'] ++ ['/'] := by simp
    rw [hsplit, hone, hone]

/-- The rest of a path that ends in no separator is not the root. -/
theorem append_ne_root {c : Char} {r : List Char} (hr : r ≠ []) (hc : isSeparator c = false)
    (hsuffix : r <:+ a ++ [c]) (s : List Char) : r ++ s ≠ ['/'] := by
  intro h
  obtain ⟨x, r', rfl⟩ := List.exists_cons_of_ne_nil hr
  rw [List.cons_append, List.cons.injEq, List.append_eq_nil_iff] at h
  obtain ⟨rfl, rfl, -⟩ := h
  obtain ⟨u, hu⟩ := hsuffix
  obtain ⟨-, hlast⟩ := List.append_inj' hu rfl
  obtain rfl : '/' = c := by simpa using hlast
  exact absurd hc (by decide)

/-- Where nothing is mounted at the path, what is added makes no difference. -/
theorem Unmounted.sameDirectory {c : Char} (h : Unmounted mountpoints (a ++ [c]))
    (hc : isSeparator c = false) (hs : Added s) (ht : Added b) :
    SameDirectory (targetOf mountpoints (a ++ [c] ++ s))
    (targetOf mountpoints (a ++ [c] ++ b)) := by
  have heq := h.lookup_eq hs ht
  unfold targetOf
  cases hr : btGetMountPoint mountpoints (a ++ [c] ++ s) with
  | none =>
    rw [← heq, hr]
    rfl
  | some m =>
    rw [← heq, hr]
    have hlongest := btGetMountPoint_longest mountpoints (a ++ [c] ++ s)
    rw [hr] at hlongest
    obtain ⟨hmem, hpre, -⟩ := hlongest
    obtain ⟨r, hne, hsuffix, hrel⟩ :=
      getRelativePath_append ((h.isPrefix_iff hs hmem).mp hpre) (h m hmem).1
      (by simp)
    dsimp only [SameDirectory]
    rw [hrel, hrel]
    refine ⟨rfl, by rw [bare_append hs, bare_append ht], fun hDir => ?_⟩
    rw [devfsOpendir_other (append_ne_root hne hc hsuffix s),
      devfsOpendir_other (append_ne_root hne hc hsuffix b)]

/-- Something mounted behind the path takes the lookup with two separators, and only that one. -/
theorem SameDirectory.unmounted_behind (ha : a ≠ []) (hs : s = [] ∨ s = ['/'])
    (h : SameDirectory (targetOf mountpoints (a ++ s)) (targetOf mountpoints (a ++ ['/', '/'])))
    (hm : m ∈ mountpoints) (hpre : m.szpPath <+: a ++ ['/', '/']) :
    m.szpPath.length ≤ a.length := by
  by_contra hlong
  have hone := btGetMountPoint_longest mountpoints (a ++ s)
  have htwo := btGetMountPoint_longest mountpoints (a ++ ['/', '/'])
  have hpos := List.length_pos_of_ne_nil ha
  unfold targetOf at h
  cases hr : btGetMountPoint mountpoints (a ++ ['/', '/']) with
  | none =>
    rw [hr] at htwo
    exact htwo m hm hpre
  | some t =>
    rw [hr] at htwo h
    cases hr' : btGetMountPoint mountpoints (a ++ s) with
    | none =>
      rw [hr'] at h
      exact h
    | some t' =>
      rw [hr'] at hone h
      obtain ⟨rfl, -, hlist⟩ := h
      have hle := htwo.2.2 m hm hpre
      have hfit := hone.2.1.length_le
      obtain rfl | rfl := hs
      · rw [List.append_nil] at hfit
        omega
      · -- the whole of the one is the mountpoint, and the other is left with its root
        have hfull : t'.szpPath = a ++ ['/'] := hone.2.1.eq_of_length (by
          rw [List.length_append, List.length_singleton] at hfit ⊢
          omega)
        have hlen : 1 < t'.szpPath.length := by omega
        have hempty : getRelativePath t' (a ++ ['/']) = [] := by
          unfold getRelativePath
          rw [if_pos hlen, hfull, List.drop_length]
        have hroot : getRelativePath t' (a ++ ['/', '/']) = ['/'] := by
          have hsplit : a ++ ['/', '/'] = a ++ ['/'] ++ ['/'] := by simp
          unfold getRelativePath
          rw [if_pos hlen, hfull, hsplit, List.drop_left]
        have hdir := hlist (some 0)
        rw [hempty, hroot] at hdir
        exact absurd hdir (by decide)

/-- With two separators the root of a mountpoint is not listed. -/
theorem not_listsRoot_separated (ha : a ≠ []) :
    ¬ ListsRoot a (targetOf mountpoints (a ++ ['/', '/'])) := by
  unfold targetOf
  intro h
  cases hr : btGetMountPoint mountpoints (a ++ ['/', '/']) with
  | none =>
    rw [hr] at h
    exact h
  | some t =>
    rw [hr] at h
    obtain ⟨rfl, hlist⟩ := h
    have hne : getRelativePath t (t.szpPath ++ ['/', '/']) ≠ ['/'] := by
      unfold getRelativePath
      split_ifs
      · rw [List.drop_left]
        decide
      · intro heq
        have hlen := congrArg List.length heq
        rw [List.length_append] at hlen
        simp at hlen
    have hdir := hlist (some 0)
    rw [devfsOpendir_other hne] at hdir
    exact absurd hdir (by decide)

end Lookup

/-! ## The directory

Both directions: a mountpoint in the way makes a difference that can be seen, and without one there
is none. -/

section Directory

variable {k : PathEnv} {cwd p : List Char}

/-- What is mounted has a path that a separator does not change. -/
theorem unmounted_of_opensAlike (h : DirectoryPath cwd p) (hcwd : k.cwd = some cwd)
    (hmalloc : k.malloc = true) (halike : OpensAlike k cwd p) :
    Unmounted k.mountpoints (absoluteForm cwd p) := by
  obtain ⟨a, c, hform, -⟩ := h.ends
  have hne : absoluteForm cwd p ≠ [] := by
    rw [hform]
    simp
  obtain ⟨s, hs, hbare⟩ := openDirTarget_bare h hcwd hmalloc
  have hslash := halike.slash
  have hseparated := openDirTarget_separated h hcwd hmalloc (c := '/') rfl
  rw [hbare, hseparated] at hslash
  intro m hm
  refine ⟨fun hmounted => ?_, fun hbehind => ?_, fun hbehind => ?_⟩
  · have hroot := halike.root hmalloc ⟨m, hm, hmounted⟩ (p ++ ['/']) (by simp)
    rw [hseparated] at hroot
    exact not_listsRoot_separated hne hroot
  · have hle := hslash.unmounted_behind hne hs hm (hbehind ▸ by simp)
    rw [hbehind, List.length_append, List.length_singleton] at hle
    omega
  · have hle := hslash.unmounted_behind hne hs hm (hbehind ▸ List.prefix_refl _)
    rw [hbehind, List.length_append] at hle
    simp at hle

/-- Then the directory opens the same way with and without the separator. -/
theorem opensAlike_of_unmounted (h : DirectoryPath cwd p) (hcwd : k.cwd = some cwd)
    (hmalloc : k.malloc = true) (hfree : Unmounted k.mountpoints (absoluteForm cwd p)) :
    OpensAlike k cwd p := by
  obtain ⟨a, c, hform, hc⟩ := h.ends
  obtain ⟨s, hs, hbare⟩ := openDirTarget_bare h hcwd hmalloc
  have hadded : Added s := hs.imp_right .inl
  have hsame : ∀ d, isSeparator d = true →
      SameDirectory (k.openDirTarget p) (k.openDirTarget (p ++ [d])) := by
    intro d hd
    rw [hbare, openDirTarget_separated h hcwd hmalloc hd, hform]
    rw [hform] at hfree
    exact hfree.sameDirectory hc hadded (.inr (.inr rfl))
  exact ⟨hsame '/' rfl, hsame '\\' rfl, fun _ ⟨m, hm, hmounted⟩ => absurd hmounted (hfree m hm).1⟩

/-- A directory opens alike however it is written exactly if there is no memory for its path,
or nothing is mounted at it, nor there with one or two separators behind it. -/
theorem opensAlike_iff (h : DirectoryPath cwd p) (hcwd : k.cwd = some cwd) :
    OpensAlike k cwd p ↔ (k.malloc = true → Unmounted k.mountpoints (absoluteForm cwd p)) := by
  constructor
  · exact fun halike hmalloc => unmounted_of_opensAlike h hcwd hmalloc halike
  · intro hfree
    cases hmalloc : k.malloc with
    | true => exact opensAlike_of_unmounted h hcwd hmalloc (hfree hmalloc)
    | false =>
      refine ⟨?_, ?_, fun hmalloc' => absurd hmalloc' (by simp [hmalloc])⟩
      · rw [openDirTarget_noMemory hcwd hmalloc, openDirTarget_noMemory hcwd hmalloc]
        rfl
      · rw [openDirTarget_noMemory hcwd hmalloc, openDirTarget_noMemory hcwd hmalloc]
        rfl

end Directory

/-- A directory below `/mnt`. -/
theorem opensAlike_iff_below_mnt :
    DirectoryPath "/".toList "/mnt/a".toList ∧ OpensAlike
      ⟨[mntPoint], some "/".toList, true⟩ "/".toList "/mnt/a".toList := by
  have hpath : DirectoryPath "/".toList "/mnt/a".toList :=
    ⟨by decide, by decide, by decide, by decide, by decide⟩
  exact ⟨hpath, (opensAlike_iff hpath rfl).mpr fun _ => by unfold Unmounted; decide⟩

/-- The device filesystem, at `/dev`. -/
def devPoint : MountPoint := ⟨"/dev".toList, ⟨"devfs".toList, btFsFlagNodev⟩, 9, none⟩

/-- It is mounted when the system starts. Then `/dev` is listed and `/dev/` is not. -/
theorem dev_slash_not_listed :
    Mounting [devPoint] ∧ DirectoryPath "/".toList "/dev".toList ∧
      (PathEnv.mk [devPoint] (some "/".toList) true).openDirTarget "/dev".toList = .ok
      (devPoint, "/".toList) ∧
      (PathEnv.mk [devPoint] (some "/".toList) true).openDirTarget "/dev/".toList = .ok
      (devPoint, "//".toList) ∧
      (∀ hDir, devfsOpendir hDir "/".toList = hDir ∧ devfsOpendir hDir "//".toList = none) ∧
      ¬ OpensAlike ⟨[devPoint], some "/".toList, true⟩ "/".toList "/dev".toList := by
  have hrun : btMount { noMemoryWorld with mallocPoint := true, mountPseudo := fun _ => some 9 }
    none
      (some "/dev/".toList) (some "devfs".toList) ⟨[devPoint.pFS], [], [], []⟩ =
      some (0, ⟨[devPoint.pFS], [devPoint], [], [9]⟩) := by decide
  have hbare : (PathEnv.mk [devPoint] (some "/".toList) true).openDirTarget "/dev".toList =
      .ok (devPoint, "/".toList) := by decide
  have hslash : (PathEnv.mk [devPoint] (some "/".toList) true).openDirTarget "/dev/".toList =
      .ok (devPoint, "//".toList) := by decide
  refine ⟨Mounting.boot.mount hrun,
    ⟨by decide, by decide, by decide, by decide, by decide⟩, hbare, hslash,
    fun hDir => ⟨rfl, rfl⟩, fun h => ?_⟩
  have hsame : SameDirectory (.ok (devPoint, "/".toList)) (.ok (devPoint, "//".toList)) :=
    hbare ▸ hslash ▸ h.slash
  exact absurd (hsame.2.2 (some 0)) (by decide)

end BitThunder
