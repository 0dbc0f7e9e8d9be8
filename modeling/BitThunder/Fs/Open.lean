import BitThunder.Fs.Mount
import BitThunder.Dev.Partition

/-!
# Opening, and who relies on it

`BT_Open`, `BT_OpenDir` and `BT_GetInode` of `os/src/fs/bt_fs.c` hand a resolved path to the
filesystem and then write their own `Error` to `*pError`, over what the filesystem has put
there. `BT_Format` and `BT_Partition` return that error when nothing was opened.

* `answer_handle`: what a call comes back with;
* `failures_reported_iff`: when a failure can be told from the error.

`Error` starts as `BT_ERR_NONE`, is set by the layer of the paths, and is written to `*pError` at
the end of each function, over what the filesystem wrote there. So a failure is visible only if it
comes from the paths. `BT_Format` and `BT_Partition` open a device first and return that error,
which says nothing about a refusal by the filesystem.

A path that runs out of its buffer counts as a failure that is not reported: there is no saying what
the call does then.
-/

namespace BitThunder

/-- `BT_ERR_NULL_POINTER` as a word -/
def errNullPointer : ℕ := 0x80000002

theorem errNullPointer_ne_zero : errNullPointer ≠ 0 := by decide

/-! ## The calls

The functions of the filesystems are parameters and may answer what they like, an error with a
handle and no error without one included. -/

/-- What a function of a filesystem comes back with: a handle, and the error it has written. -/
structure FsAnswer : Type where
  handle : Option ℕ
  error : Option ℕ
  deriving DecidableEq

/-- The functions of the filesystems, by the mountpoint they are called for. -/
structure FsCalls : Type where
  pfnOpen : MountPoint → List Char → ℕ → FsAnswer
  pfnOpenDir : MountPoint → List Char → FsAnswer
  /-- may be `NULL` -/
  pfnGetInode : MountPoint → Option (List Char → FsAnswer)

/-- The end of the three functions: `*pError`, which holds `cell` before, and the handle.
`Error` is `BT_ERR_NONE` once the path has been resolved. -/
def answer (target : Reply (MountPoint × List Char)) (call : MountPoint → List Char → FsAnswer)
    (cell : ℕ) :
    Option (Option ℕ × ℕ) :=
  let store := fun (Error _cell : ℕ) => Error
  match target with
  | .fault => none
  | .error e => some (none, store e cell)
  | .ok (m, path) =>
    let r := call m path
    some (r.handle, store 0 (r.error.getD cell))

variable (k : PathEnv) (fs : FsCalls)

/-- `BT_Open` -/
def btOpen (szpPath : List Char) (mode cell : ℕ) : Option (Option ℕ × ℕ) :=
  answer (k.openTarget szpPath) (fun m path => fs.pfnOpen m path mode) cell

/-- `BT_OpenDir` -/
def btOpenDir (szpPath : List Char) (cell : ℕ) : Option (Option ℕ × ℕ) :=
  answer (k.openDirTarget szpPath) fs.pfnOpenDir cell

/-- `pfnGetInode`, or nothing if there is none. -/
def FsCalls.inodeAnswer (m : MountPoint) (path : List Char) : FsAnswer :=
  match fs.pfnGetInode m with
  | some f => f path
  | none => ⟨none, none⟩

/-- `BT_GetInode` -/
def btGetInode (szpPath : List Char) (cell : ℕ) : Option (Option ℕ × ℕ) :=
  answer (k.getInodeTarget szpPath) fs.inodeAnswer cell

/-- `BT_Format` of a device that can be opened ends without an error, whatever `pfnFormat` says. -/
def btFormat (filesystems : List Filesystem) (hasFormat : Filesystem → Bool)
    (device filesystem : List Char) :
    Option ℕ :=
  match getfs filesystems filesystem with
  | none => some errInvalidValue
  | some f =>
    if ¬ hasFormat f then some errUnimplemented
    else
      match btOpen k fs device 0 0 with
      | none => none
      | some (none, e) => some e
      | some (some _, _) => some 0

/-- `BT_Partition`; `blocks` is the geometry of a handle that is a block device. -/
def btPartitionDevice (blocks : ℕ → Option BlockGeometry) (device : List Char)
    (params : Option PartitionParams) (services : PartitionServices) (medium : Memory) :
    Option (ℕ × Memory) :=
  match params with
  | none => some (errNullPointer, medium)
  | some params =>
    match btOpen k fs device 0 0 with
    | none => none
    | some (none, e) => some (e, medium)
    | some (some h, _) =>
      match blocks h with
      | none => some (errInvalidValue, medium)
      | some geom => btPartition geom params services medium

/-! ## What is reported

A failure is reported if the caller can tell it from the error that it is given. -/

variable {k fs}

/-- The filesystem is asked, and gives no handle. -/
def Refused (target : Reply (MountPoint × List Char)) (call : MountPoint → List Char → FsAnswer) :
    Prop :=
  ∃ m path, target = .ok (m, path) ∧ (call m path).handle = none

/-- The call comes back, and whenever there is no handle there is an error, the one of the
filesystem if it has one. A call that runs out of its buffer reports nothing. -/
def Reports (target : Reply (MountPoint × List Char)) (call : MountPoint → List Char → FsAnswer)
    (r : Option (Option ℕ × ℕ)) : Prop :=
  r ≠ none ∧ ∀ e, r = some (none, e) → e ≠ 0 ∧
    ∀ m path own, target = .ok (m, path) → (call m path).error = some own → own ≠ 0 → e = own

/-- The functions that open something, or depend on it. -/
inductive EntryPoint : Type where
  | open (mode cell : ℕ)
  | openDir (cell : ℕ)
  | getInode (cell : ℕ)
  | format (filesystems : List Filesystem) (hasFormat : Filesystem → Bool) (filesystem : List Char)
  | partition (blocks : ℕ → Option BlockGeometry) (params : Option PartitionParams)
    (services : PartitionServices) (medium : Memory)

/-- Its failures are reported. A device that cannot be opened is neither formatted nor
partitioned without an error. -/
def EntryPoint.Reported (k : PathEnv) (fs : FsCalls) (p : List Char) : EntryPoint → Prop
  | .open mode cell =>
    Reports (k.openTarget p) (fun m path => fs.pfnOpen m path mode) (btOpen k fs p mode cell)
  | .openDir cell => Reports (k.openDirTarget p) fs.pfnOpenDir (btOpenDir k fs p cell)
  | .getInode cell => Reports (k.getInodeTarget p) fs.inodeAnswer (btGetInode k fs p cell)
  | .format filesystems hasFormat filesystem =>
    btFormat k fs filesystems hasFormat p filesystem ≠ none ∧
      ∀ e, btOpen k fs p 0 0 = some (none, e) → btFormat k fs filesystems hasFormat p filesystem ≠
        some 0
  | .partition blocks params services medium =>
    (params ≠ none → btOpen k fs p 0 0 ≠ none) ∧
      ∀ e, btOpen k fs p 0 0 = some (none, e) →
        ∀ m, btPartitionDevice k fs blocks p params services medium ≠ some (0, m)

/-- The path fits into its buffer, and the filesystem does not refuse it. -/
def PathAdmitted (target : Reply (MountPoint × List Char))
    (call : MountPoint → List Char → FsAnswer) : Prop :=
  target ≠ .fault ∧ ¬ Refused target call

/-- The path fits, and the filesystem does not get to refuse. -/
def EntryPoint.Unrefused (k : PathEnv) (fs : FsCalls) (p : List Char) : EntryPoint → Prop
  | .open mode _ => PathAdmitted (k.openTarget p) fun m path => fs.pfnOpen m path mode
  | .openDir _ => PathAdmitted (k.openDirTarget p) fs.pfnOpenDir
  | .getInode _ => PathAdmitted (k.getInodeTarget p) fs.inodeAnswer
  | .format filesystems hasFormat filesystem =>
    (∃ f, getfs filesystems filesystem = some f ∧ hasFormat f = true) →
      PathAdmitted (k.openTarget p) fun m path => fs.pfnOpen m path 0
  | .partition _ params _ _ =>
    params ≠ none → PathAdmitted (k.openTarget p) fun m path => fs.pfnOpen m path 0

/-! ## When a failure is reported

There are two sources of failure. Errors of the layer of paths get through, and those of a
filesystem do not. -/

section Reported

variable {target : Reply (MountPoint × List Char)} {call : MountPoint → List Char → FsAnswer}
  {p : List Char} {cell e noMemory : ℕ} {isDir : Bool}

/-- No handle: the path was turned away with its error, or the filesystem refused it. -/
theorem answer_handle : answer target call cell = some (none, e) ↔
    target = .error e ∨ Refused target call ∧ e = 0 := by
  unfold answer Refused
  cases target with
  | fault => simp
  | error e' => simp
  | ok r =>
    obtain ⟨m, path⟩ := r
    constructor
    · intro h
      obtain ⟨hhandle, he⟩ := Prod.mk.inj (Option.some.inj h)
      exact .inr ⟨⟨m, path, rfl, hhandle⟩, he.symm⟩
    · rintro (h | ⟨⟨m', path', heq, hhandle⟩, rfl⟩)
      · simp at h
      · obtain ⟨rfl, rfl⟩ := Prod.mk.inj (Reply.ok.inj heq)
        dsimp only
        rw [hhandle]

/-- Nothing comes back: the path ran out of its buffer. -/
theorem answer_none : answer target call cell = none ↔ target = .fault := by
  unfold answer
  cases target <;> simp

/-- The layer of the paths only knows real errors. -/
theorem resolve_error_ne_zero (hno : noMemory ≠ 0) (h : k.resolve noMemory isDir p = .error e) :
    e ≠ 0 := by
  have habs : ∀ e, k.absolutePath noMemory isDir p = .error e → e ≠ 0 := by
    intro e h
    unfold PathEnv.absolutePath toAbsolutePath at h
    cases hcwd : k.cwd with
    | none =>
      rw [hcwd] at h
      simp at h
    | some cwd =>
      rw [hcwd] at h
      dsimp only at h
      split_ifs at h
      · exact Reply.error.inj h ▸ errGeneric_ne_zero
      · exact Reply.error.inj h ▸ hno
  unfold PathEnv.resolve at h
  cases ha : k.absolutePath noMemory isDir p with
  | fault =>
    rw [ha] at h
    simp at h
  | error e' =>
    rw [ha] at h
    exact Reply.error.inj h ▸ habs e' ha
  | ok path =>
    rw [ha] at h
    dsimp only at h
    cases hm : btGetMountPoint k.mountpoints path with
    | none =>
      rw [hm] at h
      exact Reply.error.inj h ▸ errGeneric_ne_zero
    | some m =>
      rw [hm] at h
      simp at h

/-- A refusal of the filesystem is the one failure that is not reported, if the path fits into its
buffer. -/
theorem reports_answer_iff (htarget : ∀ e, target = .error e → e ≠ 0) :
    Reports target call (answer target call cell) ↔ PathAdmitted target call := by
  refine and_congr (not_congr answer_none) ?_
  constructor
  · intro h hr
    exact (h 0 (answer_handle.mpr (.inr ⟨hr, rfl⟩))).1 rfl
  · intro hr e h
    obtain h | h := answer_handle.mp h
    · refine ⟨htarget e h, fun m path own hok => ?_⟩
      rw [h] at hok
      simp at hok
    · exact absurd h.1 hr

/-- If the device is not refused, whoever opens it gets a real error. -/
theorem btOpen_error_ne_zero
    {mode : ℕ} (hr : ¬ Refused (k.openTarget p) fun m path => fs.pfnOpen m path mode)
    (h : btOpen k fs p mode cell = some (none, e)) : e ≠ 0 := by
  obtain h | h := answer_handle.mp h
  · exact resolve_error_ne_zero errGeneric_ne_zero h
  · exact absurd h.1 hr

theorem format_reported_iff {filesystems : List Filesystem} {hasFormat : Filesystem → Bool}
    {filesystem : List Char} :
    (EntryPoint.format filesystems hasFormat filesystem).Reported k fs p ↔
      (EntryPoint.format filesystems hasFormat filesystem).Unrefused k fs p := by
  unfold EntryPoint.Reported EntryPoint.Unrefused btFormat
  dsimp only
  generalize getfs filesystems filesystem = found
  cases found with
  | none =>
    refine iff_of_true ⟨Option.some_ne_none _, fun e _ h => ?_⟩ (by simp)
    exact errInvalidValue_ne_zero (Option.some.inj h)
  | some f =>
    dsimp only
    by_cases hformat : hasFormat f = true
    · simp only [hformat, not_true_eq_false, if_false]
      constructor
      · rintro ⟨hsome, h⟩ _
        refine ⟨fun hfault => ?_, fun hr => ?_⟩
        · have hopen : btOpen k fs p 0 0 = none := answer_none.mpr hfault
          rw [hopen] at hsome
          exact hsome rfl
        · have hopen : btOpen k fs p 0 0 = some (none, 0) := answer_handle.mpr (.inr ⟨hr, rfl⟩)
          have hne := h 0 hopen
          rw [hopen] at hne
          exact hne rfl
      · intro hr
        obtain ⟨hfits, hr⟩ := hr ⟨f, rfl, hformat⟩
        refine ⟨fun h => ?_, fun e hopen h => ?_⟩
        · cases hopen : btOpen k fs p 0 0 with
          | none => exact hfits (answer_none.mp hopen)
          | some r =>
            obtain ⟨handle, e⟩ := r
            rw [hopen] at h
            cases handle <;> cases h
        · rw [hopen] at h
          exact btOpen_error_ne_zero hr hopen (Option.some.inj h)
    · simp only [hformat]
      refine iff_of_true ⟨Option.some_ne_none _, fun e _ h => ?_⟩ ?_
      · exact errUnimplemented_ne_zero (Option.some.inj h)
      · rintro ⟨f', hf', hformat'⟩
        exact absurd (Option.some.inj hf' ▸ hformat') hformat

theorem partition_reported_iff {blocks : ℕ → Option BlockGeometry} {params : Option PartitionParams}
    {services : PartitionServices} {medium : Memory} :
    (EntryPoint.partition blocks params services medium).Reported k fs p ↔
      (EntryPoint.partition blocks params services medium).Unrefused k fs p := by
  unfold EntryPoint.Reported EntryPoint.Unrefused btPartitionDevice
  cases params with
  | none =>
    refine iff_of_true ⟨fun h => absurd rfl h, fun e _ m h => ?_⟩ (by simp)
    exact errNullPointer_ne_zero (Prod.mk.inj (Option.some.inj h)).1
  | some params =>
    dsimp only
    constructor
    · rintro ⟨hsome, h⟩ hparams
      refine ⟨fun hfault => hsome hparams (answer_none.mpr hfault), fun hr => ?_⟩
      have hopen : btOpen k fs p 0 0 = some (none, 0) := answer_handle.mpr (.inr ⟨hr, rfl⟩)
      have hne := h 0 hopen medium
      rw [hopen] at hne
      exact hne rfl
    · intro hr
      obtain ⟨hfits, hr⟩ := hr (Option.some_ne_none _)
      refine ⟨fun _ hopen => hfits (answer_none.mp hopen), fun e hopen m h => ?_⟩
      rw [hopen] at h
      exact btOpen_error_ne_zero hr hopen (Prod.mk.inj (Option.some.inj h)).1

/-- Failures are reported exactly as long as the path fits into its buffer and no filesystem
refuses. -/
theorem failures_reported_iff (k : PathEnv) (fs : FsCalls) (p : List Char) (entry : EntryPoint) :
    entry.Reported k fs p ↔ entry.Unrefused k fs p := by
  cases entry with
  | «open» mode cell => exact reports_answer_iff fun e => resolve_error_ne_zero errGeneric_ne_zero
  | openDir cell => exact reports_answer_iff fun e => resolve_error_ne_zero errNoMemory_ne_zero
  | getInode cell => exact reports_answer_iff fun e => resolve_error_ne_zero errNoMemory_ne_zero
  | format filesystems hasFormat filesystem => exact format_reported_iff
  | partition blocks params services medium => exact partition_reported_iff

/-- A filesystem at the root that has no such file, and says so. -/
def emptyFs : FsCalls where
  pfnOpen _ _ _ := ⟨none, some errInvalidValue⟩
  pfnOpenDir _ _ := ⟨none, some errInvalidValue⟩
  pfnGetInode _ := none

def rootEnv : PathEnv := ⟨[⟨['/'], ⟨"vfat".toList, 0⟩, 9, some 7⟩], some ['/'], true⟩

/-- The error of the filesystem is lost, and formatting what is not there succeeds. -/
theorem failures_lost :
    btOpen rootEnv emptyFs "/a".toList 0 errGeneric = some (none, 0) ∧
      btFormat rootEnv emptyFs [⟨"vfat".toList, 0⟩] (fun _ => true) "/a".toList "vfat".toList =
        some 0 ∧
      ¬ (EntryPoint.open 0 errGeneric).Reported rootEnv emptyFs "/a".toList ∧
      ¬ (EntryPoint.format [⟨"vfat".toList, 0⟩] (fun _ => true) "vfat".toList).Reported rootEnv
        emptyFs
        "/a".toList := by
  have hopen : btOpen rootEnv emptyFs "/a".toList 0 errGeneric = some (none, 0) := by decide
  have hopen' : btOpen rootEnv emptyFs "/a".toList 0 0 = some (none, 0) := by decide
  have hformat : btFormat rootEnv emptyFs [⟨"vfat".toList, 0⟩]
      (fun _ => true) "/a".toList "vfat".toList =
      some 0 := by decide
  exact ⟨hopen, hformat, fun h => (h.2 0 hopen).1 rfl, fun h => h.2 0 hopen' hformat⟩

end Reported

end BitThunder
