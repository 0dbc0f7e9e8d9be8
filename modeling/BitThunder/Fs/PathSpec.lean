import BitThunder.Lib.Prefix
import BitThunder.Fs.MountSpec

/-!
# Looking up paths

`BT_GetMountPoint` finds the mountpoint that is the longest prefix of a path, character by
character: `/mnt` is found for `/mntfoo`.

* `btGetMountPoint_longest`: what is found;
* `mount_lookup_iff`: when it is the longest prefix by components;
* `relative_agrees_iff`: which operations treat a relative path like the absolute one.

The search is a fold that keeps the better of two mountpoints, so that its result is the longest one
that is a prefix; prefixes of one string are comparable, which is why the order of the table does
not matter. What it should be is the longest one that ends at a separator or at the end of the path.
The two agree unless some mountpoint ends within a component and is longer than all that do not.

For relative paths, each operation is compared with itself on the joined path. Most of them go
through `to_absolute_path` in the same way in both cases. The exceptions are a directory whose name
is at most one character, because of the way in which separators are added, and the two operations
that look a path up as it comes.
-/

namespace BitThunder

/-! ## What is found

The fold is described by the specification of the longest prefix, with the entries it has seen. -/

/-- A string is found at the start of those that it is a prefix of. -/
theorem strstr_eq_zero {s t : List Char} : strstr s t = some 0 ↔ t <+: s := by
  cases s with
  | nil =>
    unfold strstr
    rw [← List.isPrefixOf_iff_prefix]
    split_ifs with h
    · simp [h]
    · simp [h]
  | cons c s =>
    unfold strstr
    rw [← List.isPrefixOf_iff_prefix]
    split_ifs with h
    · simp [h]
    · simp [h]

section Lookup

variable {p : List Char} {done rest mountpoints : List MountPoint} {m : MountPoint}
  {target : Option MountPoint} {n : ℕ}

/-- One step of the search keeps the longest mountpoint so far. -/
theorem betterTarget_longest (h : Longest MountPoint.szpPath p done target)
    (hn : ∀ t, target = some t → n = t.szpPath.length) (hm : m.szpPath <+: p) :
    Longest MountPoint.szpPath p (done ++ [m]) (betterTarget target n m).1 ∧
      ∃ t, (betterTarget target n m).1 = some t ∧ (betterTarget target n m).2 = t.szpPath.length ∧
        m.szpPath.length ≤ t.szpPath.length := by
  cases target with
  | none => exact ⟨h.take hm (by simp), m, rfl, rfl, le_rfl⟩
  | some t =>
    obtain rfl := hn t rfl
    unfold betterTarget
    dsimp only
    by_cases hlt : t.szpPath.length < m.szpPath.length
    · rw [if_pos hlt]
      refine ⟨h.take hm fun c hc => ?_, m, rfl, rfl, le_rfl⟩
      exact Option.some.inj hc ▸ hlt
    · rw [if_neg hlt]
      exact ⟨h.keep (not_lt.mp hlt), t, rfl, rfl, not_lt.mp hlt⟩

/-- The loop: over what is done, the target is the longest match. -/
theorem getMountPointLoop_longest (h : Longest MountPoint.szpPath p done target)
    (hn : ∀ t, target = some t → n = t.szpPath.length) :
    Longest MountPoint.szpPath p (done ++ rest) (getMountPointLoop p rest target n) := by
  induction rest generalizing done target n with
  | nil =>
    rw [List.append_nil]
    exact h
  | cons m rest ih =>
    have hsplit : done ++ m :: rest = done ++ [m] ++ rest := by simp
    rw [hsplit]
    unfold getMountPointLoop
    by_cases hm : m.szpPath <+: p
    · rw [if_pos (strstr_eq_zero.mpr hm), if_neg (not_lt.mpr hm.length_le)]
      obtain ⟨hbest, t, ht, hlen, hle⟩ := betterTarget_longest h hn hm
      dsimp only
      split_ifs with hfull
      · rw [ht] at hbest ⊢
        exact hbest.stop (hfull ▸ hle)
      · refine ih hbest fun t' ht' => ?_
        rw [ht] at ht'
        exact Option.some.inj ht' ▸ hlen
    · rw [if_neg fun hs => hm (strstr_eq_zero.mp hs)]
      exact ih (h.skip hm) hn

/-- The search finds the longest mountpoint whose path is a prefix. -/
theorem btGetMountPoint_longest (mountpoints : List MountPoint) (p : List Char) :
    Longest MountPoint.szpPath p mountpoints (btGetMountPoint mountpoints p) :=
  getMountPointLoop_longest Longest.nil (by simp)

/-- It finds none exactly if no mountpoint's path is a prefix. -/
theorem btGetMountPoint_eq_none :
    btGetMountPoint mountpoints p = none ↔ ∀ m ∈ mountpoints, ¬ m.szpPath <+: p := by
  have h := btGetMountPoint_longest mountpoints p
  constructor
  · intro hnone
    rw [hnone] at h
    exact h
  · intro hall
    cases hr : btGetMountPoint mountpoints p with
    | none => rfl
    | some m =>
      rw [hr] at h
      exact absurd h.2.1 (hall m h.1)

/-- In what order the mountpoints stand does not matter. -/
theorem btGetMountPoint_perm {mountpoints' : List MountPoint}
    (hd : (mountpoints.map MountPoint.szpPath).Nodup)
    (hperm : mountpoints'.Perm mountpoints) :
    btGetMountPoint mountpoints' p = btGetMountPoint mountpoints p :=
  Longest.unique hd ((btGetMountPoint_longest mountpoints' p).congr fun _ => hperm.mem_iff)
    (btGetMountPoint_longest mountpoints p)

end Lookup

/-! ## Prefixes by components

A prefix is one by components if what is left is empty or begins with a separator. The longest
prefix by characters is the longest by components if none that is not one is longer. -/

/-- A mountpoint that a path lies under: the root, the path itself, or followed by a separator. -/
def Covers (m p : List Char) : Prop := m = ['/'] ∨ m = p ∨ m ++ ['/'] <+: p

/-- The mountpoint a path should be looked up in; what is left of the path starts a component. -/
def Resolves (mountpoints : List MountPoint) (p : List Char) : Option MountPoint → Prop
  | none => ∀ m ∈ mountpoints, ¬ Covers m.szpPath p
  | some m => m ∈ mountpoints ∧ Covers m.szpPath p ∧
    (∀ m' ∈ mountpoints, Covers m'.szpPath p → m'.szpPath.length ≤ m.szpPath.length) ∧
    (getRelativePath m p = [] ∨ (getRelativePath m p).head? = some '/')

/-- The lookup resolves the path, in whatever order the filesystems were mounted. -/
def LooksUp (mountpoints : List MountPoint) (p : List Char) : Prop :=
  Resolves mountpoints p (btGetMountPoint mountpoints p) ∧
    ∀ mountpoints', mountpoints'.Perm mountpoints →
      btGetMountPoint mountpoints' p = btGetMountPoint mountpoints p

section Components

variable {m p : List Char} {mountpoints : List MountPoint}

/-- A mountpoint that a path is below is a prefix of it. -/
theorem Covers.isPrefix (h : Covers m p) (habs : p.head? = some '/') : m <+: p := by
  obtain rfl | rfl | h := h
  · cases p with
    | nil => simp at habs
    | cons c p =>
      obtain rfl : c = '/' := by simpa using habs
      exact List.prefix_append ['/'] p
  · exact List.prefix_refl m
  · exact (List.prefix_append m ['/']).trans h

/-- Behind a mountpoint that covers the path, a component starts. -/
theorem Covers.relative {m : MountPoint} (h : Covers m.szpPath p) (habs : p.head? = some '/') :
    getRelativePath m p = [] ∨ (getRelativePath m p).head? = some '/' := by
  unfold getRelativePath
  split_ifs with hlen
  · obtain hroot | heq | hsep := h
    · rw [hroot] at hlen
      simp at hlen
    · left
      rw [heq, List.drop_length]
    · right
      obtain ⟨rest, rfl⟩ := hsep
      rw [List.append_assoc, List.drop_left]
      rfl
  · exact .inr habs

/-- A path is looked up by components exactly if every mountpoint that ends within one of
its components is beaten by one that does not. -/
theorem mount_lookup_iff (h : Mounting mountpoints) (habs : p.head? = some '/') :
    LooksUp mountpoints p ↔
      ∀ m ∈ mountpoints, m.szpPath <+: p → ¬ Covers m.szpPath p →
        ∃ m' ∈ mountpoints, Covers m'.szpPath p ∧ m.szpPath.length < m'.szpPath.length := by
  have hlongest := btGetMountPoint_longest mountpoints p
  constructor
  · rintro ⟨hres, -⟩ m hm hpre hnot
    cases hr : btGetMountPoint mountpoints p with
    | none =>
      rw [hr] at hlongest
      exact absurd hpre (hlongest m hm)
    | some t =>
      rw [hr] at hlongest hres
      obtain ⟨hmem, hcov, -, -⟩ := hres
      refine ⟨t, hmem, hcov, lt_of_le_of_ne (hlongest.2.2 m hm hpre) fun hlen => hnot ?_⟩
      rw [Longest.key_eq hpre hlongest.2.1 hlen]
      exact hcov
  · intro hall
    refine ⟨?_, fun _ hperm => btGetMountPoint_perm h.distinct hperm⟩
    cases hr : btGetMountPoint mountpoints p with
    | none =>
      rw [hr] at hlongest
      exact fun m hm hcov => hlongest m hm (hcov.isPrefix habs)
    | some t =>
      rw [hr] at hlongest
      have hcov : Covers t.szpPath p := by
        by_contra hnot
        obtain ⟨m', hm', hcov', hlt⟩ := hall t hlongest.1 hlongest.2.1 hnot
        exact absurd (hlongest.2.2 m' hm' (hcov'.isPrefix habs)) (not_le.mpr hlt)
      exact ⟨hlongest.1, hcov, fun m' hm' hcov' => hlongest.2.2 m' hm' (hcov'.isPrefix habs),
        hcov.relative habs⟩

/-- A volume mounted at `/mnt`. -/
def mntPoint : MountPoint := ⟨"/mnt".toList, vfat, 9, some 7⟩

theorem mounting_mnt : Mounting [mntPoint] := by
  have hrun : btMount { noMemoryWorld with mallocPoint := true } (some "/dev/sda0".toList)
      (some "/mnt/".toList) (some "vfat".toList) ⟨[vfat], [], [], []⟩ =
      some (0, ⟨[vfat], [mntPoint], [7], [9]⟩) := by decide
  exact Mounting.boot.mount hrun

/-- Another volume mounted below it. -/
def usbPoint : MountPoint := ⟨"/mnt/usb".toList, vfat, 10, some 8⟩

theorem mounting_usb : Mounting [usbPoint, mntPoint] := by
  have hrun : btMount ⟨some 8, fun _ _ => some 10, fun _ => none, true, true⟩
      (some "/dev/sdb0".toList) (some "/mnt/usb".toList) (some "vfat".toList)
      ⟨[vfat], [mntPoint], [7], [9]⟩ =
        some (0, ⟨[vfat], [usbPoint, mntPoint], [8, 7], [10, 9]⟩) := by
    decide
  exact Mounting.mount (s := ⟨[vfat], [mntPoint], [7], [9]⟩) mounting_mnt hrun

/-- Both mountpoints lead to the path, and the longer one is taken. -/
theorem mount_lookup_below_mnt : LooksUp [usbPoint, mntPoint] "/mnt/usb/a".toList ∧
    btGetMountPoint [usbPoint, mntPoint] "/mnt/usb/a".toList = some usbPoint := by
  refine ⟨(mount_lookup_iff mounting_usb (by decide)).mpr fun m hm _ hnot => ?_, by decide⟩
  rcases List.mem_pair.mp hm with rfl | rfl
  · exact absurd (.inr (.inr (by decide))) hnot
  · exact absurd (.inr (.inr (by decide))) hnot

/-- A directory beside `/mnt` is looked up below it. -/
theorem mount_lookup_beside_mnt :
    Mounting [mntPoint] ∧ "/mntfoo".toList.head? = some '/' ∧
      btGetMountPoint [mntPoint] "/mntfoo".toList = some mntPoint ∧
      ¬ LooksUp [mntPoint] "/mntfoo".toList := by
  have hfound : btGetMountPoint [mntPoint] "/mntfoo".toList = some mntPoint := by decide
  refine ⟨mounting_mnt, by decide, hfound, ?_⟩
  rintro ⟨hres, -⟩
  rw [hfound] at hres
  obtain h | h | h := hres.2.1
  · exact absurd h (by decide)
  · exact absurd h (by decide)
  · exact absurd h (by decide)

end Components

/-! ## Relative paths

Each operation is followed twice, with the relative path and with the absolute one, and its targets
are compared. -/

/-- The operations that take a path. -/
inductive PathOp : Type where
  | open | mkDir | rmDir | openDir | getInode | unlink | rename | getFilesystemInfo | uTime
  deriving DecidableEq

/-- The mountpoint that an operation reaches and the paths that it hands to its filesystem;
the second path is that of `BT_Rename`. -/
def PathEnv.dispatch (k : PathEnv) (op : PathOp) (p q : List Char) :
    Reply (MountPoint × List (List Char)) :=
  match op with
  | .open => (k.openTarget p).map fun r => (r.1, [r.2])
  | .mkDir => (k.mkDirTarget p).map fun r => (r.1, [r.2])
  | .rmDir => (k.rmDirTarget p).map fun r => (r.1, [r.2])
  | .openDir => (k.openDirTarget p).map fun r => (r.1, [r.2])
  | .getInode => (k.getInodeTarget p).map fun r => (r.1, [r.2])
  | .unlink => (k.unlinkTarget p).map fun r => (r.1, [r.2])
  | .uTime => (k.uTimeTarget p).map fun r => (r.1, [r.2])
  | .rename => (k.renameTarget p q).map fun r => (r.1, [r.2.1, r.2.2])
  | .getFilesystemInfo => (k.getFilesystemInfoTarget p).map fun m => (m, [])

/-- Both paths lie below the same mountpoint. -/
def SameMount (mountpoints : List MountPoint) (p q : List Char) : Prop :=
  ∃ m, btGetMountPoint mountpoints p = some m ∧ btGetMountPoint mountpoints q = some m

/-- What it takes for an operation to treat relative paths like the absolute ones. -/
def Agreeing (k : PathEnv) (cwd : List Char) (p q : List Char) : PathOp → Prop
  | .rename =>
    ¬ SameMount k.mountpoints p q ∧ ¬ SameMount k.mountpoints (joinPath cwd p) (joinPath cwd q)
  | .getFilesystemInfo =>
    ∀ m ∈ k.mountpoints, m.szpPath ≠ [] → ¬ m.szpPath <+: p ∧ ¬ m.szpPath <+: joinPath cwd p
  | .openDir => 1 < p.length ∨ (cwd = ['/'] ∧ p = []) ∨ k.malloc = false ∨
    btGetMountPoint k.mountpoints (unbackslash (joinPath cwd p) ++ ['/']) = none
  | _ => True

section Relative

variable {k : PathEnv} {cwd p q : List Char} {mountpoints : List MountPoint}

theorem length_joinPath (cwd p : List Char) :
    cwd.length + p.length ≤ (joinPath cwd p).length := by
  unfold joinPath
  split_ifs
  · rw [List.length_append]
  · rw [List.length_append, List.length_cons]
    omega

/-- A path joined to an absolute one is absolute. -/
theorem head_joinPath (habs : cwd.head? = some '/') (p : List Char) :
    (joinPath cwd p).head? = some '/' := by
  cases cwd with
  | nil => simp at habs
  | cons c cwd =>
    unfold joinPath
    split_ifs
    · exact habs
    · exact habs

theorem length_pos_of_head (habs : cwd.head? = some '/') : 0 < cwd.length := by
  cases cwd with
  | nil => simp at habs
  | cons c cwd => exact Nat.succ_pos _

/-- A path that begins with a slash is absolute. -/
theorem startsAbsolute_of_head (habs : p.head? = some '/') : startsAbsolute p = true := by
  unfold startsAbsolute
  rw [habs]
  rfl

/-- Only the empty path in the root is joined to one character. -/
theorem joinPath_singleton (habs : cwd.head? = some '/') :
    (joinPath cwd p).length ≤ 1 ↔ cwd = ['/'] ∧ p = [] := by
  constructor
  · intro hlen
    have hjoin := length_joinPath cwd p
    have hpos := length_pos_of_head habs
    obtain rfl : p = [] := List.length_eq_zero_iff.mp (by omega)
    obtain ⟨c, rfl⟩ := List.length_eq_one_iff.mp (show cwd.length = 1 by omega)
    obtain rfl : c = '/' := by simpa using habs
    exact ⟨rfl, rfl⟩
  · rintro ⟨rfl, rfl⟩
    decide

/-- A relative path, in front of the current directory. -/
theorem toAbsolutePath_relative {isDir : Bool} (habs : cwd.head? = some '/')
    (hp : startsAbsolute p = false) (hlen : (joinPath cwd p).length + cwd.length < btPathMax) :
    toAbsolutePath cwd p isDir =
      .ok (unbackslash (joinPath cwd p ++ if isDir ∧ 1 < p.length then ['/'] else [])) := by
  have hjoin := length_joinPath cwd p
  have hpos := length_pos_of_head habs
  have hne : cwd ≠ [] := List.ne_nil_of_length_pos hpos
  unfold toAbsolutePath
  rw [if_neg (by omega), if_neg (by simp [hne]), hp]
  simp only [Bool.false_eq_true, if_false]
  by_cases h : isDir = true ∧ 1 < p.length
  · rw [if_pos h, if_pos h, if_neg (by rw [List.length_append, List.length_singleton]; omega)]
  · rw [if_neg h, if_neg h, List.append_nil, if_neg (by omega)]

/-- The same path, as an absolute one. -/
theorem toAbsolutePath_absolute {isDir : Bool} (habs : cwd.head? = some '/')
    (hlen : (joinPath cwd p).length + cwd.length < btPathMax) :
    toAbsolutePath cwd (joinPath cwd p) isDir =
      .ok (unbackslash (joinPath cwd p ++ if isDir ∧ 1 < (joinPath cwd p).length then ['/']
        else [])) := by
  have hpos := length_pos_of_head habs
  have hstart := startsAbsolute_of_head (head_joinPath habs p)
  unfold toAbsolutePath
  rw [if_neg (by omega), if_neg (by simp [hstart]), hstart]
  simp only [if_true]
  by_cases h : isDir = true ∧ 1 < (joinPath cwd p).length
  · rw [if_pos h, if_pos h, if_neg (by rw [List.length_append, List.length_singleton]; omega)]
  · rw [if_neg h, if_neg h, List.append_nil, if_neg (by omega)]

/-- Wherever no separator is added at the end, the two are the same. -/
theorem resolve_agrees (hcwd : k.cwd = some cwd) (habs : cwd.head? = some '/')
    (hp : startsAbsolute p = false) (hlen : (joinPath cwd p).length + cwd.length < btPathMax)
    (noMemory : ℕ) {isDir : Bool}
    (hdir : isDir = true → (1 < p.length ↔ 1 < (joinPath cwd p).length)) :
    k.resolve noMemory isDir p = k.resolve noMemory isDir (joinPath cwd p) := by
  have hsame : (if isDir = true ∧ 1 < p.length then ['/'] else []) =
      if isDir = true ∧ 1 < (joinPath cwd p).length then ['/'] else [] :=
    if_congr (and_congr_right hdir) rfl rfl
  unfold PathEnv.resolve PathEnv.absolutePath
  rw [hcwd]
  dsimp only
  rw [toAbsolutePath_relative habs hp hlen, toAbsolutePath_absolute habs hlen, hsame]

/-- Whatever is found for two paths, what is left of the longer one is longer. -/
theorem getRelativePath_ne {m : MountPoint} {a b : List Char} (ha : m.szpPath <+: a)
    (hlt : a.length < b.length) : getRelativePath m a ≠ getRelativePath m b := by
  intro h
  have hle := ha.length_le
  unfold getRelativePath at h
  split_ifs at h
  · have hlen := congrArg List.length h
    rw [List.length_drop, List.length_drop] at hlen
    omega
  · exact absurd (congrArg List.length h) hlt.ne

/-- What is found is a mountpoint, and the longest one that leads to the path. -/
theorem mem_of_lookup {m : MountPoint} (h : btGetMountPoint mountpoints p = some m) :
    m ∈ mountpoints ∧ m.szpPath <+: p ∧
      ∀ m' ∈ mountpoints, m'.szpPath <+: p → m'.szpPath.length ≤ m.szpPath.length := by
  have hlongest := btGetMountPoint_longest mountpoints p
  rw [h] at hlongest
  exact hlongest

/-- A directory: with at most one character, the relative path misses the separator at the end. -/
theorem resolve_dir_iff (hcwd : k.cwd = some cwd) (habs : cwd.head? = some '/')
    (hp : startsAbsolute p = false) (hlen : (joinPath cwd p).length + cwd.length < btPathMax)
    (hshort : p.length ≤ 1) (hlong : 1 < (joinPath cwd p).length) (hmalloc : k.malloc = true)
    (noMemory : ℕ) :
    k.resolve noMemory true p = k.resolve noMemory true (joinPath cwd p) ↔
      btGetMountPoint k.mountpoints (unbackslash (joinPath cwd p) ++ ['/']) = none := by
  have hsep : unbackslash (joinPath cwd p ++ ['/']) = unbackslash (joinPath cwd p) ++ ['/'] := by
    unfold unbackslash
    rw [List.map_append]
    rfl
  unfold PathEnv.resolve PathEnv.absolutePath
  rw [hcwd]
  dsimp only
  rw [if_pos hmalloc, if_pos hmalloc, toAbsolutePath_relative habs hp hlen,
    toAbsolutePath_absolute habs hlen,
    if_neg (by omega), if_pos ⟨rfl, hlong⟩, List.append_nil, hsep]
  generalize unbackslash (joinPath cwd p) = a
  dsimp only
  have hnone : btGetMountPoint k.mountpoints (a ++ ['/']) = none →
      btGetMountPoint k.mountpoints a = none := by
    intro h
    rw [btGetMountPoint_eq_none] at h ⊢
    exact fun m hm hpre => h m hm (hpre.trans (List.prefix_append a ['/']))
  cases hb : btGetMountPoint k.mountpoints (a ++ ['/']) with
  | none =>
    rw [hnone hb]
    exact iff_of_true rfl rfl
  | some b =>
    refine iff_of_false (fun h => ?_) (by simp)
    cases ha : btGetMountPoint k.mountpoints a with
    | none =>
      rw [ha] at h
      exact absurd h (by simp)
    | some m =>
      rw [ha] at h
      obtain ⟨rfl, hrel⟩ := Prod.mk.inj (Reply.ok.inj h)
      exact getRelativePath_ne (mem_of_lookup ha).2.1 (by simp) hrel

theorem openDir_agrees_iff (hcwd : k.cwd = some cwd) (habs : cwd.head? = some '/')
    (hp : startsAbsolute p = false) (hlen : (joinPath cwd p).length + cwd.length < btPathMax) :
    k.openDirTarget p = k.openDirTarget (joinPath cwd p) ↔ Agreeing k cwd p q .openDir := by
  unfold PathEnv.openDirTarget Agreeing
  have hjoin := length_joinPath cwd p
  have hpos := length_pos_of_head habs
  by_cases hmalloc : k.malloc = true
  · by_cases hlong : 1 < p.length
    · exact iff_of_true (resolve_agrees hcwd habs hp hlen _ fun _ => iff_of_true hlong
        (by omega)) (.inl hlong)
    · by_cases hroot : cwd = ['/'] ∧ p = []
      · have hone := (joinPath_singleton habs).mpr hroot
        exact iff_of_true (resolve_agrees hcwd habs hp hlen _ fun _ => iff_of_false hlong
          (by omega))
          (.inr (.inl hroot))
      · have hone := mt (joinPath_singleton habs).mp hroot
        rw [resolve_dir_iff hcwd habs hp hlen (by omega) (by omega) hmalloc]
        simp [hlong, hroot, hmalloc]
  · refine iff_of_true ?_ (.inr (.inr (.inl (by simpa using hmalloc))))
    unfold PathEnv.resolve PathEnv.absolutePath
    rw [hcwd]
    dsimp only
    rw [if_neg hmalloc, if_neg hmalloc]

/-- A rename within one mountpoint goes to its filesystem. -/
theorem renameTarget_of_same {m : MountPoint} (hp : btGetMountPoint k.mountpoints p = some m)
    (hq : btGetMountPoint k.mountpoints q = some m) :
    k.renameTarget p q = .ok (m, getRelativePath m p, getRelativePath m q) := by
  unfold PathEnv.renameTarget
  rw [hp, hq]
  dsimp only
  rw [if_neg (by simp)]

theorem renameTarget_of_not_same (h : ¬ SameMount k.mountpoints p q) :
    k.renameTarget p q = .error errGeneric := by
  unfold PathEnv.renameTarget
  cases hp : btGetMountPoint k.mountpoints p with
  | none => rfl
  | some a =>
    cases hq : btGetMountPoint k.mountpoints q with
    | none => rfl
    | some b =>
      dsimp only
      rw [if_pos]
      rintro rfl
      exact h ⟨a, hp, hq⟩

/-- `BT_Rename` never does the same with a relative path, unless it does nothing. -/
theorem rename_agrees_iff (habs : cwd.head? = some '/') :
    k.renameTarget p q = k.renameTarget (joinPath cwd p) (joinPath cwd q) ↔
      Agreeing k cwd p q .rename := by
  have hjoin := length_joinPath cwd p
  have hpos := length_pos_of_head habs
  unfold Agreeing
  by_cases h₁ : SameMount k.mountpoints p q
  · refine iff_of_false (fun h => ?_) (by simp [h₁])
    obtain ⟨m, hp, hq⟩ := h₁
    rw [renameTarget_of_same hp hq] at h
    by_cases h₂ : SameMount k.mountpoints (joinPath cwd p) (joinPath cwd q)
    · obtain ⟨m', hp', hq'⟩ := h₂
      rw [renameTarget_of_same hp' hq'] at h
      obtain ⟨rfl, hrel⟩ := Prod.mk.inj (Reply.ok.inj h)
      exact getRelativePath_ne (mem_of_lookup hp).2.1 (by omega) (Prod.mk.inj hrel).1
    · rw [renameTarget_of_not_same h₂] at h
      exact absurd h (by simp)
  · rw [renameTarget_of_not_same h₁]
    by_cases h₂ : SameMount k.mountpoints (joinPath cwd p) (joinPath cwd q)
    · refine iff_of_false (fun h => ?_) (by simp [h₂])
      obtain ⟨m', hp', hq'⟩ := h₂
      rw [renameTarget_of_same hp' hq'] at h
      exact absurd h (by simp)
    · rw [renameTarget_of_not_same h₂]
      exact iff_of_true rfl ⟨h₁, h₂⟩

/-- A relative and an absolute path only have the empty prefix in common. -/
theorem eq_nil_of_prefixes {m : List Char} (habs : cwd.head? = some '/')
    (hp : startsAbsolute p = false) (hm : m <+: p) (hm' : m <+: joinPath cwd p) : m = [] := by
  cases m with
  | nil => rfl
  | cons c m =>
    obtain ⟨rest, rfl⟩ := hm
    obtain ⟨rest', hrest'⟩ := hm'
    have hhead := head_joinPath habs (c :: m ++ rest)
    rw [← hrest'] at hhead
    obtain rfl : c = '/' := by simpa using hhead
    exact absurd hp (by simp [startsAbsolute, isSeparator])

/-- `BT_GetFilesystemInfo` can only agree where nothing but an empty mount path is met. -/
theorem lookup_agrees_iff (hd : (mountpoints.map MountPoint.szpPath).Nodup)
    (habs : cwd.head? = some '/') (hp : startsAbsolute p = false) :
    btGetMountPoint mountpoints p = btGetMountPoint mountpoints (joinPath cwd p) ↔
      ∀ m ∈ mountpoints, m.szpPath ≠ [] → ¬ m.szpPath <+: p ∧ ¬ m.szpPath <+: joinPath cwd p := by
  constructor
  · intro h m hm hne
    have key : ∀ t, btGetMountPoint mountpoints p = some t → t.szpPath = [] := fun t ht =>
      eq_nil_of_prefixes habs hp (mem_of_lookup ht).2.1 (mem_of_lookup (h ▸ ht)).2.1
    cases hr : btGetMountPoint mountpoints p with
    | none => exact ⟨btGetMountPoint_eq_none.mp hr m hm, btGetMountPoint_eq_none.mp (h ▸ hr) m hm⟩
    | some t =>
      have ht := key t hr
      constructor
      · intro hpre
        have hle := (mem_of_lookup hr).2.2 m hm hpre
        rw [ht] at hle
        exact hne (List.length_eq_zero_iff.mp (Nat.le_zero.mp hle))
      · intro hpre
        have hle := (mem_of_lookup (h ▸ hr)).2.2 m hm hpre
        rw [ht] at hle
        exact hne (List.length_eq_zero_iff.mp (Nat.le_zero.mp hle))
  · intro h
    refine Longest.unique hd (btGetMountPoint_longest mountpoints p) ?_
    have hlongest := btGetMountPoint_longest mountpoints (joinPath cwd p)
    cases hr : btGetMountPoint mountpoints (joinPath cwd p) with
    | none =>
      rw [hr] at hlongest
      intro m hm hpre
      by_cases hne : m.szpPath = []
      · exact hlongest m hm (hne ▸ List.nil_prefix)
      · exact (h m hm hne).1 hpre
    | some t =>
      rw [hr] at hlongest
      have ht : t.szpPath = [] := by
        by_contra hne
        exact (h t hlongest.1 hne).2 hlongest.2.1
      refine ⟨hlongest.1, ht ▸ List.nil_prefix, fun m hm hpre => ?_⟩
      by_cases hne : m.szpPath = []
      · rw [hne]
        exact Nat.zero_le _
      · exact absurd hpre (h m hm hne).1

/-- `BT_GetFilesystemInfo` looks the path up as it is given: the forms agree only where both lead to
one mountpoint. -/
theorem getFilesystemInfo_agrees_iff (hd : (k.mountpoints.map MountPoint.szpPath).Nodup)
    (habs : cwd.head? = some '/') (hp : startsAbsolute p = false) :
    k.getFilesystemInfoTarget p = k.getFilesystemInfoTarget (joinPath cwd p) ↔
      Agreeing k cwd p q .getFilesystemInfo := by
  have hiff := lookup_agrees_iff hd habs hp
  unfold Agreeing
  rw [← hiff]
  unfold PathEnv.getFilesystemInfoTarget
  cases btGetMountPoint k.mountpoints p with
  | none =>
    cases btGetMountPoint k.mountpoints (joinPath cwd p) with
    | none => simp
    | some b => simp
  | some a =>
    cases btGetMountPoint k.mountpoints (joinPath cwd p) with
    | none => simp
    | some b => simp

/-- Which operations do with a relative path what they do with the absolute one. -/
theorem relative_agrees_iff (op : PathOp) (hmount : Mounting k.mountpoints)
    (hcwd : k.cwd = some cwd) (habs : cwd.head? = some '/') (hp : startsAbsolute p = false)
    (hlen : (joinPath cwd p).length + cwd.length < btPathMax) :
    k.dispatch op p q = k.dispatch op (joinPath cwd p) (joinPath cwd q) ↔
      Agreeing k cwd p q op := by
  have hone : Function.Injective fun r : MountPoint × List Char => (r.1, [r.2]) := fun a b h => by
    simpa [Prod.ext_iff] using h
  have hplain : ∀ noMemory, k.resolve noMemory false p =
      k.resolve noMemory false (joinPath cwd p) :=
    fun noMemory => resolve_agrees hcwd habs hp hlen noMemory (by simp)
  cases op with
  | «open» => exact (Reply.map_inj hone).trans (iff_of_true (hplain _) trivial)
  | mkDir => exact (Reply.map_inj hone).trans (iff_of_true (hplain _) trivial)
  | rmDir => exact (Reply.map_inj hone).trans (iff_of_true (hplain _) trivial)
  | getInode => exact (Reply.map_inj hone).trans (iff_of_true (hplain _) trivial)
  | unlink => exact (Reply.map_inj hone).trans (iff_of_true (hplain _) trivial)
  | uTime => exact (Reply.map_inj hone).trans (iff_of_true (hplain _) trivial)
  | openDir => exact (Reply.map_inj hone).trans (openDir_agrees_iff hcwd habs hp hlen)
  | rename =>
    refine (Reply.map_inj fun a b h => ?_).trans (rename_agrees_iff habs)
    simpa [Prod.ext_iff] using h
  | getFilesystemInfo =>
    refine (Reply.map_inj fun a b h => ?_).trans
      (getFilesystemInfo_agrees_iff hmount.distinct habs hp)
    exact (Prod.mk.inj h).1

/-- A task in `/mnt`, on the volume mounted there. -/
def mntEnv : PathEnv := ⟨[mntPoint], some "/mnt".toList, true⟩

theorem relative_agrees_open :
    mntEnv.dispatch .open "a".toList "b".toList =
      mntEnv.dispatch .open (joinPath "/mnt".toList "a".toList)
      (joinPath "/mnt".toList "b".toList) := by
  have hiff : _ ↔ Agreeing mntEnv "/mnt".toList "a".toList "b".toList .open :=
    relative_agrees_iff .open mounting_mnt rfl (by decide) (by decide) (by decide)
  exact hiff.mpr trivial

/-- In `/mnt`, `BT_Rename` finds the files by their absolute names only. -/
theorem relative_rename_fails :
    Mounting mntEnv.mountpoints ∧ startsAbsolute "a".toList = false ∧
      startsAbsolute "b".toList = false ∧
      (joinPath "/mnt".toList "a".toList).length + "/mnt".toList.length < btPathMax ∧
      mntEnv.dispatch .rename "a".toList "b".toList = .error errGeneric ∧
      mntEnv.dispatch .rename (joinPath "/mnt".toList "a".toList)
      (joinPath "/mnt".toList "b".toList) =
        .ok (mntPoint, ["/a".toList, "/b".toList]) ∧
      mntEnv.dispatch .rename "a".toList "b".toList ≠
        mntEnv.dispatch .rename (joinPath "/mnt".toList "a".toList)
        (joinPath "/mnt".toList "b".toList) :=
  ⟨mounting_mnt, by decide, by decide, by decide, by decide, by decide, by decide⟩

end Relative

end BitThunder
