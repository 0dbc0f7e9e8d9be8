import BitThunder.Fs.Mount

/-!
# What `BT_Mount` leaves behind

A mount is all or nothing when the volume could be opened, some filesystem can be asked,
and there is memory once a filesystem has said yes.

* `btMount_cases`: the checks at the start, once for all;
* `mountVolume_iff`, `mountPseudo_iff`: the two flavours;
* `mount_atomic_iff`: the exact condition;
* `Mounting`: the tables that `BT_Mount` builds; their paths are distinct.

The checks at the start are the same for all outcomes, so they are settled once: a call is turned
away with nothing changed, or it is admitted, with the path and the filesystem that the arguments
name. What follows is a calculation over the outcomes of the calls underneath.

The condition lists what `BT_Mount` relies on without looking: that the source could be opened, that
some filesystem is asked, and that there is memory once one of them has agreed. Without memory the
mount itself is taken back, but the volume stays open.
-/

namespace BitThunder

/-! ## The checks at the start

A call that is turned away has not changed anything, and this is all there is to say of it. The rest
is about a call that is admitted, with the path and the filesystem it goes on with. -/

/-- A call that passes them, with the path that is mounted and the filesystem asked for. -/
structure Admitted (s : FsState) (src target filesystem : Option (List Char)) (path : List Char)
    (fs : Option Filesystem) : Prop where
  /-- the target is there, without a separator at its end -/
  target : ∃ t, target = some t ∧ path = t.take (targetLength t)
  /-- no filesystem is named, or one that was registered -/
  known : filesystem = none ∧ fs = none ∨
    ∃ name f, filesystem = some name ∧ getfs s.filesystems name = some f ∧ fs = some f
  /-- a device or a filesystem is given -/
  given : src ≠ none ∨ filesystem ≠ none
  /-- nothing is mounted at the path -/
  fresh : ∀ m ∈ s.mountpoints, m.szpPath ≠ path

variable {w : MountWorld} {s s' : FsState} {src target filesystem : Option (List Char)}
  {path : List Char} {fs : Option Filesystem}

theorem targetLength_le (t : List Char) : targetLength t ≤ t.length := by
  unfold targetLength
  split_ifs
  · omega
  · exact le_rfl

/-- No mountpoint is found exactly if none has the path. -/
theorem findMountpoint_eq_none (mountpoints : List MountPoint) {t : List Char} {i : ℕ}
    (hi : i ≤ t.length) :
    findMountpoint mountpoints t i = none ↔ ∀ m ∈ mountpoints, m.szpPath ≠ t.take i := by
  unfold findMountpoint
  rw [List.find?_eq_none]
  refine forall₂_congr fun m _ => ?_
  rw [decide_eq_true_iff]
  refine not_congr ⟨fun h => ?_, fun h => ?_⟩
  · rw [h.1, ← h.2, List.take_length]
  · rw [h, List.length_take, List.take_take, Nat.min_self]
    exact ⟨rfl, Nat.min_eq_left hi⟩

/-- A call is turned away at the start, or goes on to one of the two flavours. -/
theorem btMount_cases (w : MountWorld) (s : FsState) (src target filesystem : Option (List Char)) :
    (∀ path fs, ¬ Admitted s src target filesystem path fs) ∧
      btMount w src target filesystem s = some (errGeneric, s) ∨
    ∃ path fs, Admitted s src target filesystem path fs ∧
      ((∃ p, src = some p) ∧ btMount w src target filesystem s = mountVolume w path fs s ∨
        ∃ f, src = none ∧ fs = some f ∧ btMount w src target filesystem s =
          mountPseudo w path f s) := by
  unfold btMount
  cases target with
  | none =>
    refine .inl ⟨fun path fs h => ?_, rfl⟩
    obtain ⟨t, ht, -⟩ := h.target
    simp at ht
  | some t =>
    have hfind := findMountpoint_eq_none s.mountpoints (targetLength_le t)
    cases filesystem with
    | none =>
      cases src with
      | none => exact .inl ⟨fun path fs h => by simpa using h.given, by simp⟩
      | some p =>
        by_cases h : findMountpoint s.mountpoints t (targetLength t) = none
        · refine .inr ⟨t.take (targetLength t), none,
            ⟨⟨t, rfl, rfl⟩, .inl ⟨rfl, rfl⟩, .inl (by simp), hfind.mp h⟩, .inl ⟨⟨p, rfl⟩, ?_⟩⟩
          simp [h]
        · refine .inl ⟨fun path fs ha => h (hfind.mpr ?_), by simp [h]⟩
          obtain ⟨t', ht', hp⟩ := ha.target
          obtain rfl := Option.some.inj ht'
          exact hp ▸ ha.fresh
    | some name =>
      cases hfs : getfs s.filesystems name with
      | none =>
        refine .inl ⟨fun path fs h => ?_, by simp [hfs]⟩
        obtain ⟨h, -⟩ | ⟨name', f, h, hf, -⟩ := h.known
        · simp at h
        · obtain rfl := Option.some.inj h
          rw [hfs] at hf
          simp at hf
      | some f =>
        by_cases h : findMountpoint s.mountpoints t (targetLength t) = none
        · refine .inr ⟨t.take (targetLength t), some f,
            ⟨⟨t, rfl, rfl⟩, .inr ⟨name, f, rfl, hfs, rfl⟩, .inr (by simp), hfind.mp h⟩, ?_⟩
          cases src with
          | none => exact .inr ⟨f, rfl, rfl, by simp [hfs, h]⟩
          | some p => exact .inl ⟨⟨p, rfl⟩, by simp [hfs, h]⟩
        · refine .inl ⟨fun path fs ha => h (hfind.mpr ?_), by simp [hfs, h]⟩
          obtain ⟨t', ht', hp⟩ := ha.target
          obtain rfl := Option.some.inj ht'
          exact hp ▸ ha.fresh

/-- The checks leave nothing open. -/
theorem Admitted.unique {path' : List Char} {fs' : Option Filesystem}
    (h : Admitted s src target filesystem path fs)
    (h' : Admitted s src target filesystem path' fs') :
    path = path' ∧ fs = fs' := by
  obtain ⟨t, rfl, rfl⟩ := h.target
  obtain ⟨t', ht', rfl⟩ := h'.target
  obtain rfl := Option.some.inj ht'
  refine ⟨rfl, ?_⟩
  obtain ⟨rfl, rfl⟩ | ⟨name, f, rfl, hf, rfl⟩ := h.known
  · obtain ⟨-, rfl⟩ | ⟨_, _, h, -⟩ := h'.known
    · rfl
    · simp at h
  · obtain ⟨h, -⟩ | ⟨name', f', h, hf', rfl⟩ := h'.known
    · simp at h
    · obtain rfl := Option.some.inj h
      rw [← hf, ← hf']

/-! ## All or nothing

The two outcomes are stated on the lists of the manager and on what the layers below hold. -/

/-- Nothing has changed but for one mountpoint, with the volume and the mount it stands for. -/
def FsState.Adds (s : FsState) (path : List Char) (s' : FsState) : Prop :=
  ∃ m : MountPoint, m.szpPath = path ∧ (∀ m' ∈ s.mountpoints, m'.szpPath ≠ path) ∧
    s' = { s with
      mountpoints := m :: s.mountpoints
      mounted := m.hMount :: s.mounted
      opened := m.hVolume.toList ++ s.opened }

/-- The mountpoint is added, or there is an error and nothing has changed. -/
def Atomic (s : FsState) (path : List Char) (r : Option (ℕ × FsState)) : Prop :=
  ∃ e s', r = some (e, s') ∧ (e = 0 ∧ s.Adds path s' ∨ e ≠ 0 ∧ s' = s)

/-- A call that does not come back is not atomic. -/
theorem not_atomic_none : ¬ Atomic s path none := by
  rintro ⟨e, s', h, -⟩
  simp at h

/-- A call is atomic if it succeeds and the mountpoint is added, or fails and nothing is changed. -/
theorem atomic_some {e : ℕ} :
    Atomic s path (some (e, s')) ↔ e = 0 ∧ s.Adds path s' ∨ e ≠ 0 ∧ s' = s := by
  constructor
  · rintro ⟨e', s'', h, hr⟩
    obtain ⟨rfl, rfl⟩ := Prod.mk.inj (Option.some.inj h)
    exact hr
  · intro h
    exact ⟨e, s', rfl, h⟩

theorem atomic_error {e : ℕ} (he : e ≠ 0) : Atomic s path (some (e, s')) ↔ s' = s := by
  rw [atomic_some]
  simp [he]

theorem atomic_unchanged {e : ℕ} (he : e ≠ 0) : Atomic s path (some (e, s)) :=
  (atomic_error he).mpr rfl

/-- There is memory for the mountpoint and its path. -/
def MountWorld.Memory (w : MountWorld) : Prop := w.mallocPoint ∧ w.mallocPath

/-- Without memory the volume stays open. -/
theorem addMountPoint_iff {f : Filesystem} {h v : ℕ}
    (hfresh : ∀ m ∈ s.mountpoints, m.szpPath ≠ path) :
    Atomic s path (addMountPoint w path f h v
      { s with mounted := h :: s.mounted, opened := v :: s.opened }) ↔ w.Memory := by
  unfold addMountPoint MountWorld.Memory
  by_cases h₁ : w.mallocPoint = true
  · rw [if_neg (by simp [h₁])]
    by_cases h₂ : w.mallocPath = true
    · rw [if_neg (by simp [h₂])]
      refine iff_of_true ⟨0, _, rfl, .inl ⟨rfl, ⟨path, f, h, some v⟩, rfl, hfresh, rfl⟩⟩ ⟨h₁, h₂⟩
    · rw [if_pos (by simp [h₂])]
      exact iff_of_false not_atomic_none fun h => h₂ h.2
  · rw [if_pos (by simp [h₁])]
    refine iff_of_false (fun ha => ?_) fun h => h₁ h.1
    -- the list of open volumes has grown by one
    have hopened := congrArg (fun s => s.opened.length) ((atomic_error errGeneric_ne_zero).mp ha)
    simp at hopened

/-! ## A filesystem without a device

The test turns away a filesystem that has no flag at all. Any other one is asked as if it needed no
device. -/

/-- When a mount without a volume is all or nothing. -/
def SafePseudo (w : MountWorld) (f : Filesystem) : Prop :=
  f.ulFlags = 0 ∨ f.noDev ∧ (w.mountPseudo f ≠ none → w.Memory)

/-- To mount a filesystem without a volume is atomic exactly under its condition. -/
theorem mountPseudo_iff {f : Filesystem} (hfresh : ∀ m ∈ s.mountpoints, m.szpPath ≠ path) :
    Atomic s path (mountPseudo w path f s) ↔ SafePseudo w f := by
  unfold mountPseudo SafePseudo
  by_cases h₁ : f.ulFlags = 0
  · rw [if_pos (by rw [if_pos h₁]; decide)]
    exact iff_of_true (atomic_unchanged errGeneric_ne_zero) (.inl h₁)
  · rw [if_neg (by rw [if_neg h₁]; decide)]
    by_cases h₂ : f.noDev
    · rw [if_neg (not_not.mpr h₂)]
      cases h₃ : w.mountPseudo f with
      | none =>
        exact iff_of_true (atomic_unchanged errGeneric_ne_zero) (.inr ⟨h₂, fun h => absurd rfl h⟩)
      | some h =>
        have hcond : (f.ulFlags = 0 ∨ f.noDev ∧ (some h ≠ none → w.Memory)) ↔ w.Memory := by
          simp [h₁, h₂]
        rw [hcond]
        dsimp only
        by_cases h₄ : w.mallocPoint = true
        · rw [if_neg (by simp [h₄])]
          by_cases h₅ : w.mallocPath = true
          · rw [if_neg (by simp [h₅])]
            exact iff_of_true ⟨0, _, rfl, .inl ⟨rfl, ⟨path, f, h, none⟩, rfl, hfresh, rfl⟩⟩ ⟨h₄, h₅⟩
          · rw [if_pos (by simp [h₅])]
            exact iff_of_false not_atomic_none fun h => h₅ h.2
        · rw [if_pos (by simp [h₄])]
          refine iff_of_false (fun ha => ?_) fun h => h₄ h.1
          -- the filesystem keeps a mount that nobody can name
          have hmounted := congrArg (fun s => s.mounted.length)
            ((atomic_error errNoMemory_ne_zero).mp ha)
          simp at hmounted
    · rw [if_pos h₂]
      exact iff_of_false not_atomic_none (by simp [h₁, h₂])

/-! ## A volume

The loop asks filesystems until one agrees. What it has said in the end decides, and so does what it
opened before it began. -/

/-- The filesystems that are asked to mount the volume. -/
def candidates (s : FsState) : Option Filesystem → List Filesystem
  | some f => [f]
  | none => s.filesystems.filter fun f => ¬ f.noDev

/-- When a mount of a volume is all or nothing. -/
def SafeVolume (w : MountWorld) (s : FsState) (fs : Option Filesystem) : Prop :=
  ∃ v, w.openSrc = some v ∧ candidates s fs ≠ [] ∧
    ((∃ f ∈ candidates s fs, w.mount f v ≠ none) → w.Memory)

/-- Without a volume the loop ends at the first filesystem it asks. -/
theorem probe_null (l : List Filesystem) (fs : Option Filesystem) :
    probe w none l fs none = none ∨ ∃ f, probe w none l fs none = some (f, none) := by
  induction l generalizing fs with
  | nil => exact .inr ⟨fs, rfl⟩
  | cons f l ih =>
    unfold probe
    by_cases hf : f.noDev
    · rw [if_neg (not_not.mpr hf)]
      exact ih (some f)
    · rw [if_pos hf]
      exact .inl rfl

/-- The loop over the filesystems: what they have said, in the end. -/
inductive Probed (w : MountWorld) (v : ℕ) (l : List Filesystem) (hMount : Option (Option ℕ)) :
    Option Filesystem × Option (Option ℕ) → Prop
  /-- one has mounted the volume -/
  | mounted {f : Filesystem} {h : ℕ} (hf : f ∈ l.filter fun f => ¬ f.noDev)
  (hh : w.mount f v = some h) :
      Probed w v l hMount (some f, some (some h))
  /-- all have refused -/
  | refused {fs : Option Filesystem} (hne : l.filter (fun f => ¬ f.noDev) ≠ [])
      (hall : ∀ f ∈ l.filter fun f => ¬ f.noDev, w.mount f v = none) :
      Probed w v l hMount (fs, some none)
  /-- none has been asked -/
  | unasked {fs : Option Filesystem} (hnil : l.filter (fun f => ¬ f.noDev) = []) :
      Probed w v l hMount (fs, hMount)

theorem probe_spec (v : ℕ) (l : List Filesystem) (fs : Option Filesystem)
    (hMount : Option (Option ℕ)) :
    ∃ r, probe w (some v) l fs hMount = some r ∧ Probed w v l hMount r := by
  induction l generalizing fs hMount with
  | nil => exact ⟨_, rfl, .unasked rfl⟩
  | cons f l ih =>
    unfold probe
    by_cases hf : f.noDev
    · rw [if_neg (not_not.mpr hf)]
      have hfilter : (f :: l).filter (fun f => ¬ f.noDev) = l.filter fun f => ¬ f.noDev :=
        List.filter_cons_of_neg (by simpa using hf)
      obtain ⟨r, hr, hp⟩ := ih (some f) hMount
      refine ⟨r, hr, ?_⟩
      cases hp with
      | mounted hm hh => exact .mounted (hfilter ▸ hm) hh
      | refused hne hall => exact .refused (hfilter ▸ hne) (hfilter ▸ hall)
      | unasked hnil => exact .unasked (hfilter ▸ hnil)
    · rw [if_pos hf]
      have hfilter : (f :: l).filter (fun f => ¬ f.noDev) = f :: l.filter fun f => ¬ f.noDev :=
        List.filter_cons_of_pos (by simpa using hf)
      dsimp only
      cases hm : w.mount f v with
      | some h => exact ⟨_, rfl, .mounted (hfilter ▸ List.mem_cons_self) hm⟩
      | none =>
        obtain ⟨r, hr, hp⟩ := ih (some f) (some none)
        refine ⟨r, hr, ?_⟩
        have hne : (f :: l).filter (fun f => ¬ f.noDev) ≠ [] := by
          rw [hfilter]
          exact List.cons_ne_nil _ _
        cases hp with
        | mounted hmem hh => exact .mounted (hfilter ▸ List.mem_cons_of_mem _ hmem) hh
        | refused _ hall =>
          refine .refused hne fun g hg => ?_
          rw [hfilter, List.mem_cons] at hg
          obtain rfl | hg := hg
          · exact hm
          · exact hall g hg
        | unasked hnil =>
          refine .refused hne fun g hg => ?_
          rw [hfilter, hnil, List.mem_singleton] at hg
          exact hg ▸ hm

/-- To mount a volume is atomic exactly under its condition. -/
theorem mountVolume_iff (hfresh : ∀ m ∈ s.mountpoints, m.szpPath ≠ path) :
    Atomic s path (mountVolume w path fs s) ↔ SafeVolume w s fs := by
  unfold mountVolume SafeVolume
  dsimp only
  cases hv : w.openSrc with
  | none =>
    have hnone : ¬ ∃ v, (none : Option ℕ) = some v ∧ candidates s fs ≠ [] ∧
        ((∃ f ∈ candidates s fs, w.mount f v ≠ none) → w.Memory) := by
      rintro ⟨v, h, -⟩
      simp at h
    refine iff_of_false (fun ha => ?_) hnone
    cases fs with
    | some f => exact not_atomic_none ha
    | none =>
      obtain h | ⟨f, h⟩ := probe_null (w := w) s.filesystems none
      · rw [h] at ha
        exact not_atomic_none ha
      · rw [h] at ha
        exact not_atomic_none ha
  | some v =>
    have hopened : (some v).toList ++ s.opened = v :: s.opened := rfl
    have herase : { s with opened := (v :: s.opened).erase v } = s := by
      rw [List.erase_cons_head]
    rw [hopened]
    cases fs with
    | some f =>
      dsimp only
      cases hm : w.mount f v with
      | none =>
        dsimp only
        rw [herase]
        exact iff_of_true (atomic_unchanged errNoMemory_ne_zero)
          ⟨v, rfl, List.cons_ne_nil _ _, fun ⟨g, hg, h⟩ => absurd (List.mem_singleton.mp hg ▸ hm) h⟩
      | some h =>
        refine (addMountPoint_iff hfresh).trans ⟨fun hmem => ?_, ?_⟩
        · exact ⟨v, rfl, List.cons_ne_nil _ _, fun _ => hmem⟩
        · rintro ⟨v', hv', -, hmem⟩
          obtain rfl := Option.some.inj hv'
          exact hmem ⟨f, List.mem_singleton_self f, by rw [hm]; simp⟩
    | none =>
      obtain ⟨r, hr, hp⟩ := probe_spec (w := w) v s.filesystems none none
      dsimp only
      rw [hr]
      cases hp with
      | mounted hf hh =>
        refine (addMountPoint_iff hfresh).trans ⟨fun hmem => ?_, ?_⟩
        · exact ⟨v, rfl, List.ne_nil_of_mem hf, fun _ => hmem⟩
        · rintro ⟨v', hv', -, hmem⟩
          obtain rfl := Option.some.inj hv'
          exact hmem ⟨_, hf, by rw [hh]; simp⟩
      | refused hne hall =>
        dsimp only
        rw [herase]
        exact iff_of_true (atomic_unchanged errGeneric_ne_zero)
          ⟨v, rfl, hne, fun ⟨g, hg, h⟩ => absurd (hall g hg) h⟩
      | unasked hnil =>
        refine iff_of_false not_atomic_none ?_
        rintro ⟨v', -, hne, -⟩
        exact hne hnil

/-! ## The exact condition

The cases are put together under the names of the outcomes. -/

/-- The calls underneath come back with what `BT_Mount` relies on without looking. -/
def SafeMount (w : MountWorld) (s : FsState) (src : Option (List Char)) (fs : Option Filesystem) :
    Prop :=
  match src, fs with
  | none, some f => SafePseudo w f
  | none, none => True
  | some _, fs => SafeVolume w s fs

/-- All or nothing, for the path that the target stands for. -/
def MountAtomic (w : MountWorld) (s : FsState) (src target filesystem : Option (List Char)) :
    Prop :=
  ∃ e s', btMount w src target filesystem s = some (e, s') ∧
    (e = 0 ∧ (∃ t, target = some t ∧ s.Adds (t.take (targetLength t)) s') ∨ e ≠ 0 ∧ s' = s)

/-- `BT_Mount` is all or nothing exactly if it is turned away at the start or the calls
underneath come back with what it needs. -/
theorem mount_atomic_iff (w : MountWorld) (s : FsState)
    (src target filesystem : Option (List Char)) :
    MountAtomic w s src target filesystem ↔
      ∀ path fs, Admitted s src target filesystem path fs → SafeMount w s src fs := by
  unfold MountAtomic
  obtain ⟨hno, heq⟩ | ⟨path, fs, hadm, hcall⟩ := btMount_cases w s src target filesystem
  · rw [heq]
    exact iff_of_true ⟨_, _, rfl, .inr ⟨errGeneric_ne_zero, rfl⟩⟩ fun path fs h => absurd h
      (hno path fs)
  · have hall : (∀ path fs, Admitted s src target filesystem path fs → SafeMount w s src fs) ↔
        SafeMount w s src fs :=
      ⟨fun h => h path fs hadm, fun h _ _ hadm' => (hadm.unique hadm').2 ▸ h⟩
    have hatomic : (∃ e s', btMount w src target filesystem s = some (e, s') ∧
        (e = 0 ∧ (∃ t, target = some t ∧ s.Adds (t.take (targetLength t)) s') ∨ e ≠ 0 ∧ s' = s)) ↔
        Atomic s path (btMount w src target filesystem s) := by
      obtain ⟨t, rfl, rfl⟩ := hadm.target
      simp [Atomic]
    rw [hall, hatomic]
    obtain ⟨⟨p, rfl⟩, heq⟩ | ⟨f, rfl, rfl, heq⟩ := hcall
    · rw [heq]
      exact mountVolume_iff hadm.fresh
    · rw [heq]
      exact mountPseudo_iff hadm.fresh

/-- A filesystem for devices, as `bt_fullfat.c` registers it. -/
def vfat : Filesystem := ⟨"vfat".toList, 0⟩

/-- The volume opens and is mounted, but there is no memory for the mountpoint. -/
def noMemoryWorld : MountWorld where
  openSrc := some 7
  mount _ _ := some 9
  mountPseudo _ := none
  mallocPoint := false
  mallocPath := true

/-- The mount is taken back, the volume stays open. -/
theorem mount_leaves_volume_open :
    btMount noMemoryWorld (some "/dev/sda0".toList) (some "/mnt".toList) (some "vfat".toList)
        ⟨[vfat], [], [], []⟩ = some (errGeneric, ⟨[vfat], [], [7], []⟩) ∧
      ¬ MountAtomic noMemoryWorld ⟨[vfat], [], [], []⟩ (some "/dev/sda0".toList)
        (some "/mnt".toList) (some "vfat".toList) := by
  have hrun : btMount noMemoryWorld (some "/dev/sda0".toList) (some "/mnt".toList)
      (some "vfat".toList)
      ⟨[vfat], [], [], []⟩ = some (errGeneric, ⟨[vfat], [], [7], []⟩) := by decide
  refine ⟨hrun, ?_⟩
  rintro ⟨e, s', h, hr⟩
  rw [hrun] at h
  obtain ⟨rfl, rfl⟩ := Prod.mk.inj (Option.some.inj h)
  obtain ⟨he, -⟩ | ⟨-, hs⟩ := hr
  · exact errGeneric_ne_zero he
  · exact absurd hs (by decide)

/-! ## The tables that `BT_Mount` builds

No two mountpoints have the same path, since a call for a path that is there is turned away. This is
what the lookup relies on. -/

/-- A mountpoint is added at the front, or none. -/
theorem addMountPoint_mountpoints {f : Filesystem} {h v e : ℕ}
    (hrun : addMountPoint w path f h v s = some (e, s')) :
    s'.mountpoints = s.mountpoints ∨ ∃ m :
    MountPoint, m.szpPath = path ∧ s'.mountpoints = m :: s.mountpoints := by
  unfold addMountPoint at hrun
  by_cases h₁ : w.mallocPoint = true
  · rw [if_neg (by simp [h₁])] at hrun
    by_cases h₂ : w.mallocPath = true
    · rw [if_neg (by simp [h₂])] at hrun
      obtain ⟨-, rfl⟩ := Prod.mk.inj (Option.some.inj hrun)
      exact .inr ⟨⟨path, f, h, some v⟩, rfl, rfl⟩
    · rw [if_pos (by simp [h₂])] at hrun
      simp at hrun
  · rw [if_pos (by simp [h₁])] at hrun
    obtain ⟨-, rfl⟩ := Prod.mk.inj (Option.some.inj hrun)
    exact .inl rfl

theorem mountPseudo_mountpoints {f : Filesystem} {e : ℕ}
    (hrun : mountPseudo w path f s = some (e, s')) :
    s'.mountpoints = s.mountpoints ∨ ∃ m :
    MountPoint, m.szpPath = path ∧ s'.mountpoints = m :: s.mountpoints := by
  unfold mountPseudo at hrun
  by_cases h₁ : f.ulFlags = 0
  · rw [if_pos (by rw [if_pos h₁]; decide)] at hrun
    obtain ⟨-, rfl⟩ := Prod.mk.inj (Option.some.inj hrun)
    exact .inl rfl
  · rw [if_neg (by rw [if_neg h₁]; decide)] at hrun
    by_cases h₂ : f.noDev
    · rw [if_neg (not_not.mpr h₂)] at hrun
      cases h₃ : w.mountPseudo f with
      | none =>
        rw [h₃] at hrun
        obtain ⟨-, rfl⟩ := Prod.mk.inj (Option.some.inj hrun)
        exact .inl rfl
      | some h =>
        rw [h₃] at hrun
        dsimp only at hrun
        by_cases h₄ : w.mallocPoint = true
        · rw [if_neg (by simp [h₄])] at hrun
          by_cases h₅ : w.mallocPath = true
          · rw [if_neg (by simp [h₅])] at hrun
            obtain ⟨-, rfl⟩ := Prod.mk.inj (Option.some.inj hrun)
            exact .inr ⟨⟨path, f, h, none⟩, rfl, rfl⟩
          · rw [if_pos (by simp [h₅])] at hrun
            simp at hrun
        · rw [if_pos (by simp [h₄])] at hrun
          obtain ⟨-, rfl⟩ := Prod.mk.inj (Option.some.inj hrun)
          exact .inl rfl
    · rw [if_pos h₂] at hrun
      simp at hrun

theorem mountVolume_mountpoints {e : ℕ} (hrun : mountVolume w path fs s = some (e, s')) :
    s'.mountpoints = s.mountpoints ∨ ∃ m :
    MountPoint, m.szpPath = path ∧ s'.mountpoints = m :: s.mountpoints := by
  unfold mountVolume at hrun
  dsimp only at hrun
  split at hrun
  · split at hrun
    · simp at hrun
    · split at hrun
      · obtain ⟨-, rfl⟩ := Prod.mk.inj (Option.some.inj hrun)
        exact .inl rfl
      · have hadd := addMountPoint_mountpoints hrun
        exact hadd
  · split at hrun
    · simp at hrun
    · split at hrun
      · obtain ⟨-, rfl⟩ := Prod.mk.inj (Option.some.inj hrun)
        exact .inl rfl
      · have hadd := addMountPoint_mountpoints hrun
        exact hadd
      · simp at hrun

/-- A mount that returns adds a new path to the table, or nothing. -/
theorem btMount_mountpoints {e : ℕ} (hrun : btMount w src target filesystem s = some (e, s')) :
    s'.mountpoints = s.mountpoints ∨
      ∃ m : MountPoint, (∀ m' ∈ s.mountpoints, m'.szpPath ≠ m.szpPath) ∧
        s'.mountpoints = m :: s.mountpoints := by
  obtain ⟨-, heq⟩ | ⟨path, fs, hadm, ⟨-, heq⟩ | ⟨f, -, -, heq⟩⟩ :=
    btMount_cases w s src target filesystem
  · rw [heq] at hrun
    obtain ⟨-, rfl⟩ := Prod.mk.inj (Option.some.inj hrun)
    exact .inl rfl
  · rw [heq] at hrun
    obtain h | ⟨m, rfl, h⟩ := mountVolume_mountpoints hrun
    · exact .inl h
    · exact .inr ⟨m, hadm.fresh, h⟩
  · rw [heq] at hrun
    obtain h | ⟨m, rfl, h⟩ := mountPseudo_mountpoints hrun
    · exact .inl h
    · exact .inr ⟨m, hadm.fresh, h⟩

/-- The mount tables that calls of `BT_Mount` build; everything else may change in between. -/
inductive Mounting : List MountPoint → Prop
  | boot : Mounting []
  | mount {w : MountWorld} {src target filesystem : Option (List Char)} {s s' : FsState} {e : ℕ}
      (h : Mounting s.mountpoints) (hrun : btMount w src target filesystem s = some (e, s')) :
      Mounting s'.mountpoints

/-- No path is mounted twice. -/
theorem Mounting.distinct {mountpoints : List MountPoint} (h : Mounting mountpoints) :
    (mountpoints.map MountPoint.szpPath).Nodup := by
  induction h with
  | boot => exact List.nodup_nil
  | mount h hrun ih =>
    obtain heq | ⟨m, hfresh, heq⟩ := btMount_mountpoints hrun
    · rw [heq]
      exact ih
    · rw [heq, List.map_cons, List.nodup_cons]
      refine ⟨fun hm => ?_, ih⟩
      obtain ⟨m', hm', hpath⟩ := List.mem_map.mp hm
      exact hfresh m' hm' hpath

end BitThunder
