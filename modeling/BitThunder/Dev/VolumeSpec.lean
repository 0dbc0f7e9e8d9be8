import BitThunder.Dev.Volume

/-!
# Re-enumeration of volumes

`BT_UnregisterVolume` takes the node of a volume out of the device filesystem, but leaves
the volume in `blk->volumes`. So the lists are right after the first enumeration only; the
second one leaves the volumes of the first behind, and the third one frees them again.

* `addVolumes_spec`, `unregisterAll_spec`: the two loops;
* `btEnumerateVolumes_length`: a call cannot take anything from `blk->volumes`;
* `enumerateAll_lag`: once there is a volume, every further call leaves one without a node;
* `enumeration_exact_iff`: after which sequences of calls the lists are right.

A call that makes no volume, on a device that has none, changes nothing that matters, so that any
number of such calls may come first. The call that makes the first volume makes the lists right if
it works. From then on, each call unregisters the nodes of all volumes, including those that have
none any more, and adds new ones, while the old ones stay in `blk->volumes`; a volume without a node
is never got rid of (`enumerateAll_lag`).

So sequences are cut at the first call that makes a volume, by induction, and the lists are right in
the end exactly if that call is the last one and works.
-/

namespace BitThunder

/-! ## The loops

Adding stops where memory is missing, and unregistering goes through all volumes whether or not they
have a node. -/

section Loops

variable {dev : BlockDevice} {w : EnumWorld} {s s' : VolumeState} {shapes : List VolumeShape}
  {i e : ℕ}

/-- The state after some volumes were added. -/
structure VolumesAdded (s : VolumeState) (shapes : List VolumeShape) (s' : VolumeState) : Prop where
  /-- each volume takes one address -/
  next : s'.next = s.next + shapes.length
  /-- nothing is unregistered meanwhile -/
  unregistered : s'.unregistered = s.unregistered
  /-- the new volumes are in front of both lists, in the order in which they were made -/
  added : ∃ new : List Volume, s'.volumes = new ++ s.volumes ∧
    s'.devfs = new.map Volume.addr ++ s.devfs ∧
    new.map Volume.shape = shapes.reverse ∧ ∀ a, a ∈ new.map Volume.addr ↔ s.next ≤ a ∧ a < s'.next

theorem VolumesAdded.refl (s : VolumeState) : VolumesAdded s [] s where
  next := rfl
  unregistered := rfl
  added := ⟨[], rfl, rfl, rfl, fun a => by simp⟩

theorem VolumesAdded.cons {shape : VolumeShape} (h : VolumesAdded (addVolume shape s) shapes s') :
    VolumesAdded s (shape :: shapes) s' where
  next := by
    rw [h.next, List.length_cons]
    unfold addVolume
    dsimp only
    omega
  unregistered := h.unregistered
  added := by
    obtain ⟨new, hv, hd, hshape, haddr⟩ := h.added
    refine ⟨new ++ [⟨s.next, shape⟩], ?_, ?_, ?_, fun a => ?_⟩
    · rw [hv, List.append_assoc]
      rfl
    · rw [hd, List.map_append, List.append_assoc]
      rfl
    · rw [List.map_append, hshape, List.reverse_cons]
      rfl
    · have hnext := h.next
      unfold addVolume at haddr hnext
      dsimp only at haddr hnext
      rw [List.map_append, List.mem_append, haddr, List.map_singleton, List.mem_singleton]
      dsimp only
      omega

/-- Some of the volumes are added; all of them, only if there was memory for each. -/
theorem addVolumes_spec (h : addVolumes w i shapes s = some (e, s')) :
    ∃ k ≤ shapes.length, VolumesAdded s (shapes.take k) s' ∧
      (k = shapes.length → ∀ j < shapes.length, w.volumeMemory (i + j) = true ∧
        w.nameMemory (i + j) = true) := by
  induction shapes generalizing i s with
  | nil =>
    obtain ⟨-, rfl⟩ := Prod.mk.inj (Option.some.inj h)
    exact ⟨0, le_rfl, VolumesAdded.refl s, fun _ j hj => absurd hj (Nat.not_lt_zero j)⟩
  | cons shape rest ih =>
    unfold addVolumes at h
    by_cases h₁ : w.volumeMemory i = true
    · rw [if_neg (by simp [h₁])] at h
      by_cases h₂ : w.nameMemory i = true
      · rw [if_neg (by simp [h₂])] at h
        obtain ⟨k, hk, hext, hmem⟩ := ih h
        refine ⟨k + 1, Nat.succ_le_succ hk, hext.cons, fun hall j hj => ?_⟩
        cases j with
        | zero => exact ⟨h₁, h₂⟩
        | succ j =>
          have := hmem (Nat.succ.inj hall) j (Nat.lt_of_succ_lt_succ hj)
          rwa [Nat.add_assoc, Nat.add_comm 1 j] at this
      · rw [if_pos (by simp [h₂])] at h
        simp at h
    · rw [if_pos (by simp [h₁])] at h
      obtain ⟨-, rfl⟩ := Prod.mk.inj (Option.some.inj h)
      exact ⟨0, Nat.zero_le _, VolumesAdded.refl s, fun hall => by simp at hall⟩

/-- With memory for each volume and each name all of them are added. -/
theorem addVolumes_of_memory (s : VolumeState)
    (h : ∀ j < shapes.length, w.volumeMemory (i + j) = true ∧ w.nameMemory (i + j) = true) :
    ∃ s', addVolumes w i shapes s = some (0, s') ∧ VolumesAdded s shapes s' := by
  induction shapes generalizing i s with
  | nil => exact ⟨s, rfl, VolumesAdded.refl s⟩
  | cons shape rest ih =>
    obtain ⟨h₁, h₂⟩ := h 0 (Nat.succ_pos _)
    unfold addVolumes
    rw [Nat.add_zero] at h₁ h₂
    rw [if_neg (by simp [h₁]), if_neg (by simp [h₂])]
    have hrest : ∀ j < rest.length, w.volumeMemory (i + 1 + j) = true ∧
        w.nameMemory (i + 1 + j) = true := by
      intro j hj
      rw [Nat.add_assoc, Nat.add_comm 1 j]
      exact h (j + 1) (Nat.succ_lt_succ hj)
    obtain ⟨s', hs', hext⟩ := ih (addVolume shape s) hrest
    exact ⟨s', hs', hext.cons⟩

/-- The nodes go, the volumes stay. -/
theorem unregisterAll_spec {vs : List Volume} (h : unregisterAll vs s = some s') :
    s'.volumes = s.volumes ∧ s'.next = s.next ∧ s'.devfs.length + vs.length = s.devfs.length := by
  induction vs generalizing s with
  | nil =>
    obtain rfl := Option.some.inj h
    exact ⟨rfl, rfl, rfl⟩
  | cons v vs ih =>
    unfold unregisterAll at h
    obtain ⟨s₁, h₁, h⟩ := Option.bind_eq_some_iff.mp h
    unfold btUnregisterVolume at h₁
    split_ifs at h₁ with hmem
    obtain rfl := Option.some.inj h₁
    obtain ⟨hv, hn, hlen⟩ := ih h
    refine ⟨hv, hn, ?_⟩
    dsimp only at hlen
    have hpos := List.length_pos_of_mem hmem
    rw [List.length_erase_of_mem hmem] at hlen
    rw [List.length_cons]
    omega

end Loops

/-! ## One call

A call unregisters, reads the block and adds. Nothing in it takes a volume out of `blk->volumes`. -/

section Call

variable {dev : BlockDevice} {w : EnumWorld} {s s' : VolumeState} {e : ℕ}

/-- Memory for everything, and block 0 can be read. -/
structure Works (dev : BlockDevice) (w : EnumWorld) : Prop where
  /-- there is memory for block 0 -/
  mbr : w.mbrMemory = true
  /-- which can be read -/
  read : w.read = 1
  /-- and memory for each volume and its name -/
  memory : ∀ i < (tableVolumes dev w.block).length, w.volumeMemory i = true ∧ w.nameMemory i = true

/-- Every sector gives at least one volume: a device without a table is one itself. -/
theorem tableVolumes_ne_nil (dev : BlockDevice) (block : Memory) :
    0 < (tableVolumes dev block).length := by
  unfold tableVolumes
  split_ifs with h
  · exact Nat.succ_pos _
  · rw [List.length_map, List.length_range]
    exact Nat.pos_of_ne_zero h

/-- What a call does to the lists, if it returns. -/
theorem btEnumerateVolumes_spec (h : btEnumerateVolumes dev w s = some (e, s')) :
    ∃ s₁ k, unregisterAll s.volumes s = some s₁ ∧ k ≤ (tableVolumes dev w.block).length ∧
      VolumesAdded s₁ ((tableVolumes dev w.block).take k) s' ∧
      (k = (tableVolumes dev w.block).length → Works dev w) := by
  unfold btEnumerateVolumes at h
  obtain ⟨s₁, h₁, h⟩ := Option.bind_eq_some_iff.mp h
  have hpos := tableVolumes_ne_nil dev w.block
  refine ⟨s₁, ?_⟩
  by_cases hmbr : w.mbrMemory = true
  · rw [if_neg (by simp [hmbr])] at h
    by_cases hread : w.read = 1
    · rw [if_neg (by simp [hread])] at h
      obtain ⟨k, hk, hext, hmem⟩ := addVolumes_spec h
      refine ⟨k, h₁, hk, hext, fun hall => ⟨hmbr, hread, fun i hi => ?_⟩⟩
      have := hmem hall i hi
      rwa [Nat.zero_add] at this
    · rw [if_pos hread] at h
      obtain ⟨-, rfl⟩ := Prod.mk.inj (Option.some.inj h)
      exact ⟨0, h₁, Nat.zero_le _, VolumesAdded.refl s₁, fun hall => by omega⟩
  · rw [if_pos (by simp [hmbr])] at h
    obtain ⟨-, rfl⟩ := Prod.mk.inj (Option.some.inj h)
    exact ⟨0, h₁, Nat.zero_le _, VolumesAdded.refl s₁, fun hall => by omega⟩

/-- What was in `blk->volumes` stays there, what was in the device filesystem for it goes. -/
theorem btEnumerateVolumes_length (h : btEnumerateVolumes dev w s = some (e, s')) :
    ∃ k, s'.volumes.length = s.volumes.length + k ∧
      s'.devfs.length + s.volumes.length = s.devfs.length + k := by
  obtain ⟨s₁, k, h₁, -, hext, -⟩ := btEnumerateVolumes_spec h
  obtain ⟨hv, -, hlen⟩ := unregisterAll_spec h₁
  obtain ⟨new, hv', hd', -⟩ := hext.added
  refine ⟨new.length, ?_, ?_⟩
  · rw [hv', hv, List.length_append, Nat.add_comm]
  · rw [hd', List.length_append, List.length_map]
    omega

end Call

/-! ## Sequences of calls

Up to the first call that makes a volume nothing has happened that could be seen in the lists.
Behind it a volume without a node can not be got rid of. -/

/-- The lists hold exactly the volumes of the table in `block`, beside the nodes of others;
every other volume that was made since `first` has been unregistered once. -/
structure ExactVolumes (dev : BlockDevice) (others : List ℕ) (first : ℕ) (block : Memory)
    (s : VolumeState) :
    Prop where
  /-- one volume for each partition of the table, or one for the whole disk -/
  volumes : s.volumes.map Volume.shape = (tableVolumes dev block).reverse
  /-- the device filesystem has these and what others have registered -/
  devfs : s.devfs.Perm (s.volumes.map Volume.addr ++ others)
  /-- volumes of earlier calls are on neither list, and were unregistered once -/
  gone : ∀ a, first ≤ a → a < s.next → a ∉ s.volumes.map Volume.addr →
    a ∉ s.devfs ∧ s.unregistered.count a = 1
  /-- nothing was unregistered twice -/
  once : s.unregistered.Nodup

/-- A device as `BT_RegisterBlockDevice` leaves it before the first enumeration. -/
structure FirstState (s : VolumeState) : Prop where
  /-- there are no volumes yet -/
  volumes : s.volumes = []
  /-- and none has been unregistered -/
  unregistered : s.unregistered = []

/-- After the calls the lists are right, by the medium of the last one. -/
def ExactAfter (dev : BlockDevice) (s₀ : VolumeState) (ws : List EnumWorld) : Prop :=
  ∀ w ∈ ws.getLast?, ∃ s, enumerateAll dev ws s₀ = some s ∧
  ExactVolumes dev s₀.devfs s₀.next w.block s

/-- A call that makes no volume: there is no memory for block 0, it cannot be read, or there is no
memory for the first volume. -/
def MakesNone (w : EnumWorld) : Prop := w.mbrMemory = false ∨ w.read ≠ 1 ∨ w.volumeMemory 0 = false

section Sequence

variable {dev : BlockDevice} {w w' : EnumWorld} {ws : List EnumWorld} {s s' s₀ : VolumeState}
  {e : ℕ}

/-- A first call that works makes the volumes of the table. -/
theorem enumerate_first (h₀ : FirstState s₀) (hw : Works dev w) :
    ∃ s', btEnumerateVolumes dev w s₀ = some (0, s') ∧
      VolumesAdded s₀ (tableVolumes dev w.block) s' := by
  have hun : unregisterAll s₀.volumes s₀ = some s₀ := by
    rw [h₀.volumes]
    rfl
  have hmemory : ∀ j < (tableVolumes dev w.block).length,
      w.volumeMemory (0 + j) = true ∧ w.nameMemory (0 + j) = true := by
    intro j hj
    rw [Nat.zero_add]
    exact hw.memory j hj
  obtain ⟨s', hadd, hext⟩ := addVolumes_of_memory s₀ hmemory
  refine ⟨s', ?_, hext⟩
  unfold btEnumerateVolumes
  rw [hun, Option.bind_some, if_neg (by simp [hw.mbr]), if_neg (by simp [hw.read]), hadd]

/-- The first call makes the lists right exactly if it works. -/
theorem first_exact_iff (h₀ : FirstState s₀) :
    (∃ s, enumerateAll dev [w] s₀ = some s ∧ ExactVolumes dev s₀.devfs s₀.next w.block s) ↔
      Works dev w := by
  have hun : unregisterAll s₀.volumes s₀ = some s₀ := by
    rw [h₀.volumes]
    rfl
  constructor
  · rintro ⟨s, hs, hex⟩
    obtain ⟨⟨e, s'⟩, hcall, hs⟩ := Option.bind_eq_some_iff.mp hs
    obtain rfl := Option.some.inj hs
    obtain ⟨s₁, k, h₁, hk, hext, hworks⟩ := btEnumerateVolumes_spec hcall
    obtain rfl := Option.some.inj (hun.symm.trans h₁)
    refine hworks ?_
    -- the list holds as many volumes as were added
    obtain ⟨new, hv, -, hshape, -⟩ := hext.added
    have hlen := congrArg List.length hex.volumes
    have hnew := congrArg List.length hshape
    rw [hv, h₀.volumes, List.append_nil, List.length_reverse] at hlen
    rw [List.length_reverse, List.length_take] at hnew
    omega
  · intro hw
    obtain ⟨s', hcall, hext⟩ := enumerate_first h₀ hw
    obtain ⟨new, hv, hd, hshape, haddr⟩ := hext.added
    rw [h₀.volumes, List.append_nil] at hv
    refine ⟨s', ?_, ?_, ?_, ?_, ?_⟩
    · unfold enumerateAll
      rw [hcall]
      rfl
    · rw [hv, hshape]
    · rw [hd, hv]
    · intro a hle hlt hnot
      rw [hv, haddr] at hnot
      exact absurd ⟨hle, hlt⟩ hnot
    · rw [hext.unregistered, h₀.unregistered]
      exact List.nodup_nil

/-- A call that makes no volume leaves a device without volumes as it is. -/
theorem enumerate_none (hv : s.volumes = []) (hw : MakesNone w) :
    ∃ e, btEnumerateVolumes dev w s = some (e, s) := by
  have hun : unregisterAll s.volumes s = some s := by
    rw [hv]
    rfl
  unfold btEnumerateVolumes
  rw [hun, Option.bind_some]
  by_cases hmbr : w.mbrMemory = true
  · rw [if_neg (by simp [hmbr])]
    by_cases hread : w.read = 1
    · rw [if_neg (by simp [hread])]
      have hmemory : w.volumeMemory 0 = false := by simpa [MakesNone, hmbr, hread] using hw
      obtain ⟨shape, rest, hshapes⟩ :=
        List.exists_cons_of_length_pos (tableVolumes_ne_nil dev w.block)
      rw [hshapes, addVolumes, if_pos (by simp [hmemory])]
      exact ⟨_, rfl⟩
    · rw [if_pos hread]
      exact ⟨_, rfl⟩
  · rw [if_pos (by simp [hmbr])]
    exact ⟨_, rfl⟩

/-- Any other call makes one, if it returns. -/
theorem enumerate_some (hv : s.volumes = []) (hw : ¬MakesNone w)
    (h : btEnumerateVolumes dev w s = some (e, s')) :
    0 < s'.volumes.length := by
  simp only [MakesNone, not_or, ne_eq, not_not, Bool.not_eq_false] at hw
  obtain ⟨hmbr, hread, hmemory⟩ := hw
  unfold btEnumerateVolumes at h
  rw [hv] at h
  obtain ⟨s₁, h₁, h⟩ := Option.bind_eq_some_iff.mp h
  rw [if_neg (by simp [hmbr]), if_neg (by simp [hread])] at h
  obtain ⟨shape, rest, hshapes⟩ := List.exists_cons_of_length_pos (tableVolumes_ne_nil dev w.block)
  rw [hshapes, addVolumes, if_neg (by simp [hmemory])] at h
  split_ifs at h
  obtain ⟨k, -, hext, -⟩ := addVolumes_spec h
  obtain ⟨new, hnew, -⟩ := hext.added
  rw [hnew, List.length_append]
  exact Nat.lt_of_lt_of_le (Nat.succ_pos _) (Nat.le_add_left _ _)

/-- Once a volume is in `blk->volumes`, every further call leaves one there without a node. -/
theorem enumerateAll_lag {n : ℕ} (hpos : 0 < s.volumes.length)
    (hle : s.devfs.length ≤ s.volumes.length + n)
    (hne : ws ≠ []) (h : enumerateAll dev ws s = some s') :
    s'.devfs.length < s'.volumes.length + n := by
  induction ws generalizing s with
  | nil => exact absurd rfl hne
  | cons w ws ih =>
    obtain ⟨⟨e, s₁⟩, hcall, h⟩ := Option.bind_eq_some_iff.mp h
    obtain ⟨k, hv, hd⟩ := btEnumerateVolumes_length hcall
    have hlt : s₁.devfs.length < s₁.volumes.length + n := by omega
    cases ws with
    | nil =>
      obtain rfl := Option.some.inj h
      exact hlt
    | cons w' ws => exact ih (by omega) hlt.le (List.cons_ne_nil _ _) h

/-- Further calls make the lists right exactly if this one makes no volume. -/
theorem exact_after_cons (h₀ : FirstState s₀) :
    ExactAfter dev s₀ (w :: w' :: ws) ↔ MakesNone w ∧ ExactAfter dev s₀ (w' :: ws) := by
  unfold ExactAfter
  rw [List.getLast?_cons_cons]
  obtain ⟨last, hlast⟩ : ∃ last, (w' :: ws).getLast? = some last :=
    Option.isSome_iff_exists.mp (List.getLast?_isSome.mpr (List.cons_ne_nil _ _))
  rw [hlast]
  simp only [Option.mem_some_iff, forall_eq']
  by_cases hnone : MakesNone w
  · obtain ⟨e, he⟩ : ∃ e, btEnumerateVolumes dev w s₀ = some (e, s₀) :=
      enumerate_none h₀.volumes hnone
    rw [and_iff_right hnone, enumerateAll, he, Option.bind_some]
  · refine iff_of_false ?_ fun h => hnone h.1
    rintro ⟨s, hs, hex⟩
    obtain ⟨⟨e, s₁⟩, hcall, hs⟩ := Option.bind_eq_some_iff.mp hs
    obtain ⟨k, hv, hd⟩ := btEnumerateVolumes_length hcall
    rw [h₀.volumes, List.length_nil] at hv hd
    have hlag := enumerateAll_lag (n := s₀.devfs.length) (enumerate_some h₀.volumes hnone hcall)
      (by omega)
      (List.cons_ne_nil _ _) hs
    have hlen := hex.devfs.length_eq
    rw [List.length_append, List.length_map] at hlen
    omega

/-- **The lists are right after the calls** exactly if the last call works, and none before it made
a volume. -/
theorem enumeration_exact_iff (h₀ : FirstState s₀) :
    ExactAfter dev s₀ ws ↔ (∀ w ∈ ws.dropLast, MakesNone w) ∧ ∀ w ∈ ws.getLast?, Works dev w := by
  induction ws with
  | nil =>
    exact iff_of_true (fun w hw => by cases hw)
      ⟨fun w hw => absurd hw List.not_mem_nil, fun w hw => by cases hw⟩
  | cons w ws ih =>
    cases ws with
    | nil =>
      simp only [ExactAfter, List.getLast?_singleton, Option.mem_some_iff, forall_eq',
        List.dropLast_singleton, List.not_mem_nil, false_implies, implies_true, true_and]
      exact first_exact_iff h₀
    | cons w' ws =>
      rw [exact_after_cons h₀, ih, List.getLast?_cons_cons, List.dropLast_cons_cons,
        List.forall_mem_cons, and_assoc]

/-- A medium without a partition table. -/
def blankWorld : EnumWorld where
  block _ := 0
  mbrMemory := true
  read := 1
  volumeMemory _ := true
  nameMemory _ := true

def flashDisk : BlockDevice := ⟨"mtdblock0", 64⟩

/-- A medium that cannot be read -/
def unreadableWorld : EnumWorld := { blankWorld with read := 0 }

/-- The first call cannot read the medium, the second one can. -/
theorem enumeration_exact_second :
    ExactAfter flashDisk ⟨1, [], [], []⟩ [unreadableWorld, blankWorld] := by
  refine (enumeration_exact_iff ⟨rfl, rfl⟩).mpr ⟨fun w hw => ?_, fun w hw => ?_⟩
  · obtain rfl := List.mem_singleton.mp hw
    exact .inr (.inl (by decide))
  · obtain rfl := Option.mem_some_iff.mp hw
    exact ⟨rfl, rfl, fun _ _ => ⟨rfl, rfl⟩⟩

/-- The second enumeration of an unchanged medium leaves two volumes in `blk->volumes`, one
of them without a node; the third one unregisters that one again. -/
theorem enumeration_keeps_old :
    enumerateAll flashDisk [blankWorld, blankWorld] ⟨1, [], [], []⟩ =
        some ⟨3, [⟨2, wholeDisk flashDisk⟩, ⟨1, wholeDisk flashDisk⟩], [2], [1]⟩ ∧
      enumerateAll flashDisk [blankWorld, blankWorld, blankWorld] ⟨1, [], [], []⟩ = none ∧
      ¬ ExactAfter flashDisk ⟨1, [], [], []⟩ [blankWorld, blankWorld] := by
  have htwo : enumerateAll flashDisk [blankWorld, blankWorld] ⟨1, [], [], []⟩ =
      some ⟨3, [⟨2, wholeDisk flashDisk⟩, ⟨1, wholeDisk flashDisk⟩], [2], [1]⟩ := by decide
  refine ⟨htwo, by decide, fun h => ?_⟩
  obtain ⟨s, hs, hex⟩ := h blankWorld rfl
  obtain rfl := Option.some.inj (htwo.symm.trans hs)
  have hlen := hex.devfs.length_eq
  simp at hlen

end Sequence

end BitThunder
