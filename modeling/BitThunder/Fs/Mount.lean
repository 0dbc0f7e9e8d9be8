import BitThunder.Fs.Path

/-!
# Mounting

`BT_RegisterFilesystem` and `BT_Mount` of `os/src/fs/bt_fs.c`. What the calls underneath
come back with (opening the source, the mount function of each filesystem, the memory) is
a `MountWorld`.

`none` is a run that goes on with something it does not have: a handle that no call
produced, or memory that was not given out.

The two flavours of `BT_Mount` do the same in the same order: find the filesystem, get something to
mount, get memory for the mountpoint and for its path. What they leave undone on the way out
differs. The test for a filesystem without a device has its `!` in the wrong place, and the loop
over the filesystems goes on with whatever was in the variable for the mount if none was asked.
-/

namespace BitThunder

/-- `BT_FS_FLAG_NODEV` -/
def btFsFlagNodev : ℕ := 1

/-- The filesystem mounts without a device. -/
def Filesystem.noDev (fs : Filesystem) : Prop := fs.ulFlags &&& btFsFlagNodev ≠ 0

instance (fs : Filesystem) : Decidable fs.noDev := inferInstanceAs (Decidable (_ ≠ _))

/-- The lists of the filesystem manager, and what the layers below hold for it. -/
structure FsState : Type where
  /-- `g_filesystems` -/
  filesystems : List Filesystem
  /-- `g_mountpoints` -/
  mountpoints : List MountPoint
  /-- the volumes that are open, once for each reference -/
  opened : List ℕ
  /-- the mounts the filesystems keep -/
  mounted : List ℕ
  deriving DecidableEq

/-- The outcomes of the calls that one `BT_Mount` makes. -/
structure MountWorld : Type where
  /-- `BT_Open(src)` -/
  openSrc : Option ℕ
  /-- `pfnMount` on a volume -/
  mount : Filesystem → ℕ → Option ℕ
  /-- `pfnMountPseudo` -/
  mountPseudo : Filesystem → Option ℕ
  /-- memory for the `BT_MOUNTPOINT` -/
  mallocPoint : Bool
  /-- memory for its path -/
  mallocPath : Bool

/-- `BT_RegisterFilesystem` of a filesystem handle, once there is memory for its entry -/
def btRegisterFilesystem (fs : Filesystem) (s : FsState) : FsState :=
  { s with filesystems := fs :: s.filesystems }

/-- `getfs` -/
def getfs (filesystems : List Filesystem) (name : List Char) : Option Filesystem :=
  filesystems.find? fun fs => fs.name = name

/-- `find_mountpoint`: `strncmp` over `len` characters, and the length. -/
def findMountpoint (mountpoints : List MountPoint) (szpPath : List Char) (len : ℕ) :
    Option MountPoint :=
  mountpoints.find? fun m => szpPath.take len = m.szpPath.take len ∧ m.szpPath.length = len

/-- `i`: the length of the target without a separator at its end. -/
def targetLength (target : List Char) : ℕ :=
  if 1 < target.length ∧ target.getLast?.any isSeparator then target.length - 1 else target.length

/-- The loop over `g_filesystems`: the filesystem it stops at and the value of `hMount`,
`none` as long as nothing has been assigned to it. -/
def probe (w : MountWorld) (hVolume : Option ℕ) :
    List Filesystem → Option Filesystem → Option (Option ℕ) →
      Option (Option Filesystem × Option (Option ℕ))
  | [], fs, hMount => some (fs, hMount)
  | fs :: rest, _, hMount =>
    if ¬ fs.noDev then
      match hVolume with
      | none => none
      | some v =>
        match w.mount fs v with
        | some h => some (some fs, some (some h))
        | none => probe w hVolume rest (some fs) (some none)
    else probe w hVolume rest (some fs) hMount

/-- The end of `BT_Mount` for a volume, from `pMountPoint = BT_kMalloc(..)` on. -/
def addMountPoint (w : MountWorld) (path : List Char) (fs : Filesystem) (hMount v : ℕ)
    (s : FsState) :
    Option (ℕ × FsState) :=
  if ¬ w.mallocPoint then some (errGeneric, { s with mounted := s.mounted.erase hMount })
  else if ¬ w.mallocPath then none
  else some (0, { s with mountpoints := ⟨path, fs, hMount, some v⟩ :: s.mountpoints })

/-- `BT_Mount` of a filesystem without a device. `!ulFlags & NODEV` only turns a filesystem
away that has no flag at all; `pfnMount` and `pfnMountPseudo` share their place, so the mount
function of another one takes `data` for a volume. -/
def mountPseudo (w : MountWorld) (path : List Char) (fs : Filesystem) (s : FsState) :
    Option (ℕ × FsState) :=
  if (if fs.ulFlags = 0 then 1 else 0) &&& btFsFlagNodev ≠ 0 then some (errGeneric, s)
  else if ¬ fs.noDev then none
  else
    match w.mountPseudo fs with
    | none => some (errGeneric, s)
    | some h =>
      let s := { s with mounted := h :: s.mounted }
      if ¬ w.mallocPoint then some (errNoMemory, s)
      else if ¬ w.mallocPath then none
      else some (0, { s with mountpoints := ⟨path, fs, h, none⟩ :: s.mountpoints })

/-- `BT_Mount` of a volume. The result of `BT_Open` is not looked at. -/
def mountVolume (w : MountWorld) (path : List Char) (fs : Option Filesystem) (s : FsState) :
    Option (ℕ × FsState) :=
  let hVolume := w.openSrc
  let s := { s with opened := hVolume.toList ++ s.opened }
  match fs with
  | some fs =>
    match hVolume with
    | none => none
    | some v =>
      match w.mount fs v with
      | none => some (errNoMemory, { s with opened := s.opened.erase v })
      | some h => addMountPoint w path fs h v { s with mounted := h :: s.mounted }
  | none =>
    match probe w hVolume s.filesystems none none with
    | none => none
    | some (fs, hMount) =>
      match hMount, hVolume, fs with
      | some none, some v, _ => some (errGeneric, { s with opened := s.opened.erase v })
      | some (some h), some v, some fs => addMountPoint w path fs h v
        { s with mounted := h :: s.mounted }
      | _, _, _ => none

/-- `BT_Mount` -/
def btMount (w : MountWorld) (src target filesystem : Option (List Char)) (s : FsState) :
    Option (ℕ × FsState) :=
  match target with
  | none => some (errGeneric, s)
  | some target =>
    match filesystem, filesystem.bind (getfs s.filesystems) with
    | some _, none => some (errGeneric, s)
    | _, fs =>
      if src = none ∧ filesystem = none then some (errGeneric, s)
      else
        let i := targetLength target
        if findMountpoint s.mountpoints target i ≠ none then some (errGeneric, s)
        else
          match src, fs with
          | none, some fs => mountPseudo w (target.take i) fs s
          | none, none => none
          | some _, fs => mountVolume w (target.take i) fs s

end BitThunder
