import BitThunder.Mm.Defs

/-!
# Paths and mountpoints

`os/src/fs/bt_fs.c`. A path is the list of its characters, without the `NUL`. Every
operation on a path makes it absolute, looks for the mountpoint it lies under and hands
the rest of it to the filesystem mounted there.

With `BT_CONFIG_PROCESS_CWD` the absolute path is built in a buffer of `BT_PATH_MAX`
bytes; `Reply.fault` stands for an access outside of a buffer.

A path is looked up in four moves: it is made absolute, the longest mountpoint whose path it begins
with is found, what is left behind the mountpoint is the path in the filesystem, and the
filesystem's own function is called. The operations differ in whether they make the first move at
all and in whether they say that the path is a directory; each has its own definition, under the
name of the source's function, as an instance of `resolve` where it is one.

What happens outside of the buffer is not decided on lists. `Reply.fault` says that something does,
and `Fs/PathBuffer` says what.
-/

namespace BitThunder

/-- `BT_PATH_MAX` -/
def btPathMax : ℕ := 2600

/-- `BT_IF_FS` as far as mounting reads it; the functions are parameters. -/
structure Filesystem : Type where
  name : List Char
  ulFlags : ℕ
  deriving DecidableEq

/-- `BT_MOUNTPOINT` -/
structure MountPoint : Type where
  szpPath : List Char
  pFS : Filesystem
  hMount : ℕ
  hVolume : Option ℕ
  deriving DecidableEq

/-- What a function gives back: a value, an error, or an access outside of a buffer. -/
inductive Reply (α : Type) : Type where
  | ok (a : α)
  | error (e : ℕ)
  | fault
  deriving DecidableEq

namespace Reply

variable {α β : Type} {f : α → β}

/-- The value is changed, if there is one. -/
def map (f : α → β) : Reply α → Reply β
  | ok a => ok (f a)
  | error e => error e
  | fault => fault

theorem map_inj (hf : Function.Injective f) {r r' : Reply α} : r.map f = r'.map f ↔ r = r' := by
  refine ⟨fun h => ?_, fun h => h ▸ rfl⟩
  cases r with
  | ok a =>
    cases r' with
    | ok b => exact congrArg ok (hf (ok.inj h))
    | error e => exact absurd h (by simp [map])
    | fault => exact absurd h (by simp [map])
  | error e =>
    cases r' with
    | ok b => exact absurd h (by simp [map])
    | error e' => exact congrArg error (error.inj h)
    | fault => exact absurd h (by simp [map])
  | fault =>
    cases r' with
    | ok b => exact absurd h (by simp [map])
    | error e => exact absurd h (by simp [map])
    | fault => rfl

end Reply

/-! ## `BT_GetMountPoint`

The search looks at each mountpoint and keeps the longest so far, comparing characters and not
components. -/

/-- `strstr`: where the first occurrence starts. -/
def strstr : List Char → List Char → Option ℕ
  | [], t => if t.isPrefixOf [] then some 0 else none
  | c :: s, t => if t.isPrefixOf (c :: s) then some 0 else (strstr s t).map (· + 1)

/-- The better of the target so far and a mountpoint that matches. -/
def betterTarget (target : Option MountPoint) (targetLen : ℕ) (m : MountPoint) :
    Option MountPoint × ℕ :=
  match target with
  | none => (some m, m.szpPath.length)
  | some t => if targetLen < m.szpPath.length then (some m, m.szpPath.length)
    else (some t, targetLen)

/-- The loop of `BT_GetMountPoint`. -/
def getMountPointLoop (szpPath : List Char) :
    List MountPoint → Option MountPoint → ℕ → Option MountPoint
  | [], target, _ => target
  | m :: rest, target, targetLen =>
    if strstr szpPath m.szpPath = some 0 then
      if szpPath.length < m.szpPath.length then getMountPointLoop szpPath rest target targetLen
      else
        let better := betterTarget target targetLen m
        if m.szpPath.length = szpPath.length then better.1
        else getMountPointLoop szpPath rest better.1 better.2
    else getMountPointLoop szpPath rest target targetLen

/-- `BT_GetMountPoint` -/
def btGetMountPoint (mountpoints : List MountPoint) (szpPath : List Char) : Option MountPoint :=
  getMountPointLoop szpPath mountpoints none 0

/-- `get_relative_path` -/
def getRelativePath (m : MountPoint) (szpPath : List Char) : List Char :=
  if 1 < m.szpPath.length then szpPath.drop m.szpPath.length else szpPath

/-! ## `to_absolute_path`

On lists the function joins, replaces and appends. Where the source would leave its buffer the
result is a fault. -/

/-- The two separators. -/
def isSeparator (c : Char) : Bool := c = '/' ∨ c = '\\'

/-- The last loop of `to_absolute_path`. -/
def unbackslash (path : List Char) : List Char := path.map fun c => if c = '\\' then '/' else c

theorem unbackslash_append (a b : List Char) :
    unbackslash (a ++ b) = unbackslash a ++ unbackslash b :=
  List.map_append

/-- A path that `to_absolute_path` takes as it is. -/
def startsAbsolute (path : List Char) : Bool := path.head?.any isSeparator

/-- The current directory, a separator unless it ends in one, and the path. -/
def joinPath (cwd path : List Char) : List Char :=
  if cwd.getLast? = some '/' then cwd ++ path else cwd ++ '/' :: path

/-- `to_absolute_path`. For an empty `cwd` it reads the byte before the buffer; what the
length test lets through need not fit into it. -/
def toAbsolutePath (cwd path : List Char) (isDir : Bool) : Reply (List Char) :=
  if btPathMax ≤ path.length + cwd.length then .error errGeneric
  else if ¬ startsAbsolute path ∧ cwd = [] then .fault
  else
    let buf := if startsAbsolute path then path else joinPath cwd path
    let buf := if isDir ∧ 1 < path.length then buf ++ ['/'] else buf
    if btPathMax ≤ buf.length then .fault else .ok (unbackslash buf)

/-! ## The operations

Each operation is given by the calls it makes of the two functions above, in the order of the
source. -/

/-- What an operation on a path depends on. -/
structure PathEnv : Type where
  /-- `g_mountpoints`, from its head -/
  mountpoints : List MountPoint
  /-- `curtask->cwd`; `none` is a build without `BT_CONFIG_PROCESS_CWD` -/
  cwd : Option (List Char)
  /-- whether there is memory for the absolute path -/
  malloc : Bool

namespace PathEnv

variable (k : PathEnv)

/-- The path that is looked up; `noMemory` is the error of the operation. -/
def absolutePath (noMemory : ℕ) (isDir : Bool) (szpPath : List Char) : Reply (List Char) :=
  match k.cwd with
  | none => .ok szpPath
  | some cwd => if k.malloc then toAbsolutePath cwd szpPath isDir else .error noMemory

/-- The mountpoint and the path its filesystem is given. -/
def resolve (noMemory : ℕ) (isDir : Bool) (szpPath : List Char) : Reply (MountPoint × List Char) :=
  match k.absolutePath noMemory isDir szpPath with
  | .ok path =>
    match btGetMountPoint k.mountpoints path with
    | some m => .ok (m, getRelativePath m path)
    | none => .error errGeneric
  | .error e => .error e
  | .fault => .fault

/-- `BT_Open`, up to `pfnOpen` -/
def openTarget : List Char → Reply (MountPoint × List Char) := k.resolve errGeneric false

/-- `BT_MkDir`, up to `pfnMkDir` -/
def mkDirTarget : List Char → Reply (MountPoint × List Char) := k.resolve errGeneric false

/-- `BT_RmDir`, up to `pfnRmDir` -/
def rmDirTarget : List Char → Reply (MountPoint × List Char) := k.resolve errGeneric false

/-- `BT_OpenDir`, up to `pfnOpenDir` -/
def openDirTarget : List Char → Reply (MountPoint × List Char) := k.resolve errNoMemory true

/-- `BT_GetInode`, up to `pfnGetInode` -/
def getInodeTarget : List Char → Reply (MountPoint × List Char) := k.resolve errNoMemory false

/-- `BT_Unlink`, up to `pfnUnlink` -/
def unlinkTarget : List Char → Reply (MountPoint × List Char) := k.resolve errGeneric false

/-- `BT_UTime`, up to `pfnUTime` -/
def uTimeTarget : List Char → Reply (MountPoint × List Char) := k.resolve errNoMemory false

/-- `BT_Rename`, up to `pfnRename`: the paths are looked up as they come. -/
def renameTarget (szpPathA szpPathB : List Char) : Reply (MountPoint × List Char × List Char) :=
  match btGetMountPoint k.mountpoints szpPathA with
  | none => .error errGeneric
  | some a =>
    match btGetMountPoint k.mountpoints szpPathB with
    | none => .error errGeneric
    | some b =>
      if a ≠ b then .error errGeneric
      else .ok (a, getRelativePath a szpPathA, getRelativePath b szpPathB)

/-- `BT_GetFilesystemInfo`, up to `pfnInfo` -/
def getFilesystemInfoTarget (szpPath : List Char) : Reply MountPoint :=
  match btGetMountPoint k.mountpoints szpPath with
  | none => .error errInvalidValue
  | some m => .ok m

end PathEnv

end BitThunder
