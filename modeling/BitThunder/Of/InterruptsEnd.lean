import BitThunder.Of.Interrupts

/-!
# Whether the resolution of an interrupt ends

A phandle can lead anywhere in the tree, also back, and nothing counts how often the loops of
`os/src/of/irq.c` have followed one. The numbers of cells come from the tree as well, and an entry
of a map can be made as long as all of the memory, so that the next entry is the same one.

* `findParent_ends_iff`: when the search for the interrupt parent ends;
* `scan_ends_iff`: when the search of a map does;
* `irq_resolution_ends_iff`: when the whole resolution does.

Three loops are one inside the other, and each is treated in the same way. A round is a step
relation that says where the loop goes on; the loop ends if and only if no chain of these steps
leads back, since there are finitely many positions. For the search of a map this comes down to
less: what is left of a map gets shorter with every entry that has a length, so that only an entry
without one can hold the search up.

The direction from the loop to the relation is the delicate one. A loop that ends in some number of
rounds ends in any greater one with the same result, and it is this that lets the numbers of rounds
be chosen for each loop by itself.
-/

namespace BitThunder

namespace IrqTree

variable {n : ℕ} (tree : IrqTree n) (checked : Bool)

/-! ## Following the links

The relations say where each loop goes next, and nothing about rounds. `Settles` is the condition of
the result, made of one part for each of the three loops. -/

/-- The search for an interrupt parent goes on from `c` at `p`, which has no `#interrupt-cells`. -/
def Climbs (c p : Fin n) : Prop := tree.parentLink c = some p ∧ ¬tree.Has p .interruptCells

/-- The interrupt parent of `c` is `p`. -/
def InterruptParent (c p : Fin n) : Prop :=
  ∃ d, Relation.ReflTransGen tree.Climbs c d ∧ tree.parentLink d = some p ∧
  tree.Has p .interruptCells

/-- The entry at `e` of the map does not match, and the next one is at `e'`. -/
def Scans (x : IrqPosition n) (e e' : UInt32 × UInt32) : Prop := tree.mapRound checked x e = .inr e'

/-- The first entry that matches -/
def FirstMatch (x : IrqPosition n) (entry : MapEntry n) : Prop :=
  ∃ e, Relation.ReflTransGen (tree.Scans checked x) (tree.mapStart x.ipar) e ∧
    tree.mapRound checked x e = .inl (.found entry)

/-- There is an entry, before any that matches, whose length is zero. -/
def EmptyEntry (x : IrqPosition n) : Prop :=
  ∃ e, Relation.ReflTransGen (tree.Scans checked x) (tree.mapStart x.ipar) e ∧
  tree.Scans checked x e e

/-- The node is not a controller, or there are no cells for it. -/
def Passes (x : IrqPosition n) : Prop := ¬(tree.Has x.ipar .interruptController ∧ 0 < x.intsize)

/-- The map of the node is searched. -/
structure Searches (x : IrqPosition n) : Prop where
  /-- the loop does not end at the node -/
  passes : tree.Passes x
  /-- which has a map -/
  map : tree.Has x.ipar .interruptMap
  /-- and there is a unit address if one is needed -/
  addr : ¬(x.addr = none ∧ x.addrsize ≠ 0)

/-- From a position to the next one: to the interrupt parent of a node without a map, or to where a
map leads. -/
inductive Hops : IrqPosition n → IrqPosition n → Prop
  | up {x : IrqPosition n} {q : Fin n} (passes : tree.Passes x)
      (noMap : ¬tree.Has x.ipar .interruptMap) (parent : tree.InterruptParent x.ipar q) :
      Hops x { x with ipar := q }
  | map {x : IrqPosition n} {entry : MapEntry n} (searches : tree.Searches x)
    (first : tree.FirstMatch checked x entry) :
      Hops x (behind x entry)

/-- Nothing that is followed from a position leads back. -/
structure Settles (x₀ : IrqPosition n) : Prop where
  /-- where there is no map the search for the parent ends -/
  climbs : ∀ x, Relation.ReflTransGen (tree.Hops checked) x₀ x → tree.Passes x →
    ¬tree.Has x.ipar .interruptMap →
    ¬LeadsBack tree.Climbs x.ipar
  /-- where there is one the search of it does -/
  entries : ∀ x, Relation.ReflTransGen (tree.Hops checked) x₀ x → tree.Searches x →
    ¬tree.EmptyEntry checked x
  /-- and so does the way from node to node -/
  hops : ¬LeadsBack (tree.Hops checked) x₀

/-- The resolution of an interrupt of a device begins at `x₀`. -/
def StartsAt (device : Fin n) (index : UInt32) (x₀ : IrqPosition n) : Prop :=
  ∃ interrupts p intsize, tree.btOfGetProperty device .interrupts = some interrupts ∧
  tree.InterruptParent device p ∧
    tree.number p .interruptCells = some intsize ∧ (index + 1) * intsize ≤ interrupts.len ∧
    x₀ = ⟨p, tree.addrCells p, intsize, ⟨device, .interrupts, index * intsize⟩,
    tree.regPointer device⟩

/-! ## The search for the interrupt parent

There is no loop in a round, so that the plain form of the library's rule applies. -/

section Parent

variable {tree} {c p : Fin n}

/-- A node with a property has a number there. -/
theorem has_iff {np : Fin n} {name : IrqName} :
    tree.Has np name ↔ ∃ v, tree.number np name = some v := by
  unfold Has number
  cases tree.btOfGetProperty np name <;> simp

/-- A round goes on where the link leads to a node without `#interrupt-cells`. -/
theorem findParentRound_next : tree.findParentRound c = .inr p ↔ tree.Climbs c p := by
  unfold findParentRound Climbs
  cases tree.parentLink c with
  | none => simp
  | some q =>
    by_cases h : tree.Has q .interruptCells
    · simp only [if_pos h, reduceCtorEq, Option.some.injEq, false_iff, not_and, not_not]
      rintro rfl
      exact h
    · simp only [if_neg h, Sum.inr.injEq, Option.some.injEq]
      exact ⟨fun he => ⟨he, he ▸ h⟩, fun he => he.1⟩

theorem findParentRound_found :
    tree.findParentRound c = .inl (some p) ↔ tree.parentLink c = some p ∧
      tree.Has p .interruptCells := by
  unfold findParentRound
  cases tree.parentLink c with
  | none => simp
  | some q =>
    by_cases h : tree.Has q .interruptCells
    · simp only [if_pos h, Sum.inl.injEq, Option.some.injEq]
      exact ⟨fun he => ⟨he, he ▸ h⟩, fun he => he.1⟩
    · simp only [if_neg h, reduceCtorEq, Option.some.injEq, false_iff, not_and]
      rintro rfl
      exact h

theorem findParentRound_climbs : (fun c p => tree.findParentRound c = .inr p) = tree.Climbs := by
  funext c p
  exact propext findParentRound_next

/-- The search ends exactly if no links lead back to a node that the search has been at. -/
theorem findParent_ends_iff : (∃ k r, tree.btOfIrqFindParent k c = some r) ↔
    ¬LeadsBack tree.Climbs c := by
  rw [← findParentRound_climbs]
  exact rounds_ends_plain

/-- The search finds the interrupt parent, with enough rounds. -/
theorem findParent_found_iff : (∃ k, tree.btOfIrqFindParent k c = some (some p)) ↔
    tree.InterruptParent c p := by
  unfold InterruptParent
  rw [← findParentRound_climbs]
  simp only [← findParentRound_found]
  exact rounds_result_plain

theorem findParent_mono {k l : ℕ} (hkl : k ≤ l) {r : Option (Fin n)}
    (h : tree.btOfIrqFindParent k c = some r) :
    tree.btOfIrqFindParent l c = some r :=
  rounds_mono (fun _ _ h => h) hkl h

theorem findParent_unique {k l : ℕ} {r s : Option (Fin n)}
    (hr : tree.btOfIrqFindParent k c = some r) (hs : tree.btOfIrqFindParent l c = some s) : r = s :=
  Option.some.inj ((findParent_mono (Nat.le_max_left k l) hr).symm.trans
  (findParent_mono (Nat.le_max_right k l) hs))

end Parent

/-! ## The search of a map

What is left of the map is a measure as long as an entry has a length. An entry of length zero
leaves the pointer where it is, and the next round does the same again. -/

section Scan

variable {tree checked} {x : IrqPosition n} {e e' : UInt32 × UInt32}

/-- The next entry begins behind the cells of this one. -/
theorem readEntry_imap {imap imaplen : UInt32} {entry : MapEntry n}
    (h : tree.readEntry checked x imap imaplen = some (some entry)) :
    entry.imap = imap + (x.addrsize + x.intsize) + 1 + (entry.newaddrsize + entry.newintsize) ∧
      entry.newaddrsize + entry.newintsize ≤ imaplen - (x.addrsize + x.intsize) - 1 ∧
      entry.imaplen = imaplen - (x.addrsize + x.intsize) - 1
        - (entry.newaddrsize + entry.newintsize) := by
  unfold readEntry at h
  dsimp only at h
  split at h
  · exact nomatch h
  · split at h
    · exact nomatch h
    · split at h
      · exact nomatch h
      · split at h
        · exact nomatch h
        · rename_i hle
          obtain rfl := Option.some.inj (Option.some.inj h)
          exact ⟨rfl, UInt32.not_lt.mp hle, rfl⟩

/-- Words: `size` cells and a phandle are left behind, and then `more` cells. -/
theorem words_left {imap imaplen size more : UInt32} (hlong : size + 1 < imaplen)
    (hmore : more ≤ imaplen - size - 1) :
    imaplen - size - 1 - more < imaplen ∨
      (imap + size + 1 + more = imap ∧ imaplen - size - 1 - more = imaplen) := by
  rw [show imaplen - size - 1 = imaplen - (size + 1) by grind] at hmore ⊢
  rw [show imap + size + 1 = imap + (size + 1) from UInt32.add_assoc ..]
  generalize size + 1 = first at *
  have hfirst : (imaplen - first).toNat = imaplen.toNat - first.toNat :=
    UInt32.toNat_sub_of_le _ _ (UInt32.le_of_lt hlong)
  have hrest : (imaplen - first - more).toNat = imaplen.toNat - first.toNat - more.toNat := by
    rw [UInt32.toNat_sub_of_le _ _ hmore, hfirst]
  have hle := UInt32.lt_iff_toNat_lt.mp hlong
  by_cases hzero : first.toNat = 0 ∧ more.toNat = 0
  · right
    obtain ⟨hf, hm⟩ : first = 0 ∧ more = 0 :=
      ⟨UInt32.toNat_inj.mp hzero.1, UInt32.toNat_inj.mp hzero.2⟩
    subst hf hm
    constructor <;> simp
  · left
    rw [UInt32.lt_iff_toNat_lt, hrest]
    omega

/-- An entry that does not match: what is left gets less, or it is as it was. -/
theorem Scans.shorter (h : tree.Scans checked x e e') : e'.2 < e.2 ∨ e' = e := by
  unfold Scans mapRound at h
  split at h
  · rename_i hlong
    split at h
    · exact nomatch h
    · exact nomatch h
    · rename_i entry _ hread
      obtain rfl := Sum.inr.inj h
      obtain ⟨himap, hle, hlen⟩ := readEntry_imap hread
      rw [himap, hlen]
      rcases @words_left e.1 e.2 _ _ hlong hle with hless | ⟨hsame, hsame'⟩
      · exact .inl hless
      · exact .inr (Prod.ext hsame hsame')
    · exact nomatch h
    · exact nomatch h
  · exact nomatch h

/-- As long as there is no entry of length zero, what is left gets less. -/
theorem less_left (hx : ¬tree.EmptyEntry checked x)
    (hreach : Relation.ReflTransGen (tree.Scans checked x) (tree.mapStart x.ipar) e)
    (h : Relation.TransGen (tree.Scans checked x) e e') : e'.2 < e.2 := by
  have hstep : ∀ d d', Relation.ReflTransGen (tree.Scans checked x) (tree.mapStart x.ipar) d →
      tree.Scans checked x d d' →
      d'.2 < d.2 := by
    intro d d' hd hscan
    refine hscan.shorter.resolve_right ?_
    rintro rfl
    exact hx ⟨_, hd, hscan⟩
  induction h with
  | single hscan => exact hstep _ _ hreach hscan
  | tail hbefore hscan ih =>
    exact UInt32.lt_trans (hstep _ _ (hreach.trans hbefore.to_reflTransGen) hscan) ih

/-- The search of a map ends exactly if there is no entry of length zero before one that matches. -/
theorem scan_ends_iff :
    (∃ k r, rounds (fun e => some (tree.mapRound checked x e)) k (tree.mapStart x.ipar) = some r) ↔
      ¬tree.EmptyEntry checked x := by
  refine rounds_ends_plain.trans (not_congr ⟨?_, ?_⟩)
  · rintro ⟨e, hreach, hback⟩
    by_contra hx
    exact UInt32.lt_irrefl e.2 (less_left hx hreach hback)
  · rintro ⟨e, hreach, hscan⟩
    exact ⟨e, hreach, .single hscan⟩

/-- The search of a map finds its first match, with enough rounds. -/
theorem scan_found_iff {entry : MapEntry n} :
    (∃ k, rounds (fun e => some (tree.mapRound checked x e)) k (tree.mapStart x.ipar) =
      some (.found entry)) ↔
      tree.FirstMatch checked x entry :=
  rounds_result_plain

end Scan

/-! ## One round of the resolution

A round has one of the two searches in it, or none. It is shown to end exactly if this search does,
and to go on exactly where `Hops` says. -/

section Round

variable {tree checked} {out : BtOfIrq n} {x y : IrqPosition n}

/-- More rounds within give the same round of the resolution. -/
theorem mapRawRound_mono {k l : ℕ} (hkl : k ≤ l) {r : IrqResult n ⊕ IrqPosition n}
    (h : tree.mapRawRound checked out k x = some r) :
    tree.mapRawRound checked out l x = some r := by
  unfold mapRawRound at h ⊢
  split_ifs at h ⊢ with hstop hmap haddr
  · exact h
  · exact h
  · cases hscan : rounds (fun e => some (tree.mapRound checked x e)) k (tree.mapStart x.ipar) with
    | none =>
      rw [hscan] at h
      exact nomatch h
    | some found =>
      rw [rounds_mono (fun _ _ h => h) hkl hscan]
      rw [hscan] at h
      exact h
  · cases hfind : tree.btOfIrqFindParent k x.ipar with
    | none =>
      rw [hfind] at h
      exact nomatch h
    | some found =>
      rw [findParent_mono hkl hfind]
      rw [hfind] at h
      exact h

/-- What a round does at a node without a map -/
theorem mapRawRound_climb (hpass : tree.Passes x) (hmap : ¬tree.Has x.ipar .interruptMap) (k : ℕ) :
    tree.mapRawRound checked out k x = (tree.btOfIrqFindParent k x.ipar).map fun found =>
      match found with
      | none => .inl .errGeneric
      | some q => .inr { x with ipar := q } := by
  unfold mapRawRound
  rw [if_neg hpass, if_pos hmap]
  rcases tree.btOfIrqFindParent k x.ipar with _ | _ | _ <;> rfl

/-- What a round does at a node with a map -/
theorem mapRawRound_search (hx : tree.Searches x) (k : ℕ) :
    tree.mapRawRound checked out k x =
    (rounds (fun e => some (tree.mapRound checked x e)) k (tree.mapStart x.ipar)).map
      fun found =>
        match found with
        | .fault => .inl .fault
        | .fail => .inl .errGeneric
        | .found e => .inr (behind x e) := by
  unfold mapRawRound
  rw [if_neg hx.passes, if_neg (not_not.mpr hx.map), if_neg hx.addr]
  rcases rounds (fun e => some (tree.mapRound checked x e)) k
    (tree.mapStart x.ipar) with _ | _ | _ | _ <;> rfl

/-- Elsewhere a round is the last one. -/
theorem mapRawRound_last (hclimb : ¬(tree.Passes x ∧ ¬tree.Has x.ipar .interruptMap))
    (hsearch : ¬tree.Searches x) :
    ∃ r, ∀ k, tree.mapRawRound checked out k x = some (.inl r) := by
  unfold mapRawRound
  by_cases hpass : tree.Passes x
  · have hmap : tree.Has x.ipar .interruptMap := not_not.mp fun h => hclimb ⟨hpass, h⟩
    have haddr : x.addr = none ∧ x.addrsize ≠ 0 := not_not.mp fun h => hsearch ⟨hpass, hmap, h⟩
    refine ⟨.errGeneric, fun k => ?_⟩
    rw [if_neg hpass, if_neg (not_not.mpr hmap), if_pos haddr]
  · simp only [if_pos (not_not.mp hpass)]
    cases tree.read checked x.intspec 0 with
    | none => exact ⟨_, fun _ => rfl⟩
    | some cell => exact ⟨_, fun _ => rfl⟩

/-- A round ends exactly if the search ends that there is in it. -/
theorem mapRawRound_ends_iff : (∃ k r, tree.mapRawRound checked out k x = some r) ↔
    (tree.Passes x → ¬tree.Has x.ipar .interruptMap → ¬LeadsBack tree.Climbs x.ipar) ∧
      (tree.Searches x → ¬tree.EmptyEntry checked x) := by
  by_cases hclimb : tree.Passes x ∧ ¬tree.Has x.ipar .interruptMap
  · obtain ⟨hpass, hmap⟩ := hclimb
    simp only [mapRawRound_climb hpass hmap, Option.map_eq_some_iff]
    rw [and_iff_left fun hx => absurd hx.map hmap, ← findParent_ends_iff]
    exact ⟨fun ⟨k, _, r, hr, _⟩ _ _ => ⟨k, r, hr⟩,
      fun h => (h hpass hmap).imp fun k ⟨r, hr⟩ => ⟨_, r, hr, rfl⟩⟩
  · rw [and_iff_right fun hpass hmap => absurd ⟨hpass, hmap⟩ hclimb]
    by_cases hx : tree.Searches x
    · simp only [mapRawRound_search hx, Option.map_eq_some_iff]
      rw [← scan_ends_iff]
      exact ⟨fun ⟨k, _, r, hr, _⟩ _ => ⟨k, r, hr⟩,
        fun h => (h hx).imp fun k ⟨r, hr⟩ => ⟨_, r, hr, rfl⟩⟩
    · obtain ⟨r, hr⟩ := @mapRawRound_last n tree checked out x hclimb hx
      exact iff_of_true ⟨0, _, hr 0⟩ fun h => absurd h hx

/-- A round goes on where a link leads. -/
theorem goes_iff_hops : Goes (tree.mapRawRound checked out) x y ↔ tree.Hops checked x y := by
  constructor
  · rintro ⟨k, h⟩
    by_cases hclimb : tree.Passes x ∧ ¬tree.Has x.ipar .interruptMap
    · obtain ⟨hpass, hmap⟩ := hclimb
      rw [mapRawRound_climb hpass hmap] at h
      obtain ⟨_ | q, hfind, hq⟩ := Option.map_eq_some_iff.mp h
      · exact nomatch hq
      · obtain rfl := Sum.inr.inj hq
        exact .up hpass hmap (findParent_found_iff.mp ⟨k, hfind⟩)
    · by_cases hx : tree.Searches x
      · rw [mapRawRound_search hx] at h
        obtain ⟨_ | _ | e, hscan, he⟩ := Option.map_eq_some_iff.mp h
        · exact nomatch he
        · exact nomatch he
        · obtain rfl := Sum.inr.inj he
          exact .map hx (scan_found_iff.mp ⟨k, hscan⟩)
      · obtain ⟨r, hr⟩ := @mapRawRound_last n tree checked out x hclimb hx
        exact nomatch (hr k).symm.trans h
  · intro h
    cases h with
    | up hpass hmap hparent =>
      obtain ⟨k, hk⟩ := findParent_found_iff.mpr hparent
      exact ⟨k, by rw [mapRawRound_climb hpass hmap, hk]; rfl⟩
    | map hx hfirst =>
      obtain ⟨k, hk⟩ := scan_found_iff.mpr hfirst
      exact ⟨k, by rw [mapRawRound_search hx, hk]; rfl⟩

/-- The loop of `bt_of_irq_map_raw` ends exactly if nothing leads back. -/
theorem mapRaw_ends_iff : Ends (tree.mapRawRound checked out) x ↔ tree.Settles checked x := by
  have hgoes : Goes (tree.mapRawRound checked out) = tree.Hops checked := by
    funext x y
    exact propext goes_iff_hops
  have hmono : ∀ k l x r, k ≤ l → tree.mapRawRound checked out k x = some r →
      tree.mapRawRound checked out l x = some r :=
    fun _ _ _ _ hkl h => mapRawRound_mono hkl h
  rw [rounds_ends_iff hmono, hgoes]
  simp only [mapRawRound_ends_iff]
  exact ⟨fun ⟨hall, hno⟩ => ⟨fun y hy => (hall y hy).1, fun y hy => (hall y hy).2, hno⟩,
    fun h => ⟨fun y hy => ⟨h.climbs y hy, h.entries y hy⟩, h.hops⟩⟩

end Round

/-! ## The result

The search for the parent of the device comes first and can fail to end by itself. Behind it the
loop begins at a position that the tree determines. -/

section Device

variable {tree checked} {device : Fin n} {index : UInt32} {out : BtOfIrq n}

/-- Where the interrupt parent is known, `bt_of_irq_map_one` comes to the loop. -/
theorem btOfIrqMapOne_loop {interrupts : IrqProperty} {p : Fin n} {intsize : UInt32} {k : ℕ}
    (hint : tree.btOfGetProperty device .interrupts = some interrupts)
    (hfind : tree.btOfIrqFindParent k device = some (some p))
    (hcells : tree.number p .interruptCells = some intsize) :
    tree.btOfIrqMapOne checked k device index out = if (index + 1) * intsize ≤ interrupts.len then
      rounds (tree.mapRawRound checked out k) k
        ⟨p, tree.addrCells p, intsize, ⟨device, .interrupts, index * intsize⟩,
          tree.regPointer device⟩
      else some .errGeneric := by
  have hhas : tree.Has p .interruptCells := has_iff.mpr ⟨_, hcells⟩
  unfold btOfIrqMapOne btOfIrqMapRaw firstParent
  simp only [hint, hfind, hcells, if_pos hhas, Option.getD_some, ne_eq, not_true_eq_false, if_false]
  by_cases hlen : (index + 1) * intsize ≤ interrupts.len
  · rw [if_pos hlen, if_neg (UInt32.not_lt.mpr hlen)]
  · rw [if_neg hlen, if_pos (UInt32.not_le.mp hlen)]

/-- The resolution ends exactly if the search for the parent does, and all that is done from there.
-/
theorem btOfIrqMapOne_ends_iff : (∃ k r, tree.btOfIrqMapOne checked k device index out = some r) ↔
    (tree.Has device .interrupts → ¬LeadsBack tree.Climbs device) ∧
      ∀ x₀, tree.StartsAt device index x₀ → tree.Settles checked x₀ := by
  cases hint : tree.btOfGetProperty device .interrupts with
  | none =>
    refine iff_of_true ⟨0, .errGeneric, ?_⟩ ⟨fun hhas => ?_, ?_⟩
    · unfold btOfIrqMapOne
      rw [hint]
    · unfold Has at hhas
      rw [hint] at hhas
      exact nomatch hhas
    · rintro x₀ ⟨interrupts, _, _, hint', -⟩
      exact nomatch hint.symm.trans hint'
  | some interrupts =>
    have hhas : tree.Has device .interrupts := by
      unfold Has
      rw [hint]
      rfl
    constructor
    · rintro ⟨k, r, h⟩
      have hfound : ∃ found, tree.btOfIrqFindParent k device = some found := by
        unfold btOfIrqMapOne at h
        rw [hint] at h
        cases hfind : tree.btOfIrqFindParent k device with
        | none =>
          rw [hfind] at h
          exact nomatch h
        | some found => exact ⟨found, rfl⟩
      refine ⟨fun _ => findParent_ends_iff.mp ⟨k, hfound⟩, ?_⟩
      rintro x₀ ⟨interrupts', p, intsize, hint', hparent, hcells, hlen, rfl⟩
      obtain rfl := Option.some.inj (hint.symm.trans hint')
      obtain ⟨found, hfind⟩ := hfound
      obtain ⟨l, hl⟩ := findParent_found_iff.mpr hparent
      rw [findParent_unique hfind hl] at hfind
      rw [btOfIrqMapOne_loop hint hfind hcells, if_pos hlen] at h
      exact mapRaw_ends_iff.mp ⟨k, r, h⟩
    · rintro ⟨hclimbs, hstart⟩
      obtain ⟨k, found, hfind⟩ := findParent_ends_iff.mpr (hclimbs hhas)
      cases found with
      | none =>
        refine ⟨k, .errGeneric, ?_⟩
        unfold btOfIrqMapOne
        rw [hint, hfind]
      | some p =>
        have hparent : tree.InterruptParent device p := findParent_found_iff.mp ⟨k, hfind⟩
        obtain ⟨d, -, -, hp⟩ := hparent
        obtain ⟨intsize, hcells⟩ := has_iff.mp hp
        by_cases hlen : (index + 1) * intsize ≤ interrupts.len
        · have hx := hstart _ ⟨interrupts, p, intsize, hint, findParent_found_iff.mp ⟨k, hfind⟩,
            hcells, hlen, rfl⟩
          obtain ⟨l, r, hl⟩ := (@mapRaw_ends_iff n tree checked out _).mpr hx
          refine ⟨max k l, r, ?_⟩
          rw [btOfIrqMapOne_loop hint (findParent_mono (Nat.le_max_left k l) hfind) hcells,
            if_pos hlen]
          exact rounds_mono (fun _ _ => mapRawRound_mono (Nat.le_max_right k l))
            (Nat.le_max_right k l) hl
        · exact ⟨k, .errGeneric, by rw [btOfIrqMapOne_loop hint hfind hcells, if_neg hlen]⟩

end Device

/-- `bt_of_irq_find_parent` and `bt_of_irq_map_one` of a device come to their end. -/
def ResolutionEnds (device : Fin n) (index : UInt32) (out : BtOfIrq n) : Prop :=
  (∃ k r, tree.btOfIrqFindParent k device = some r) ∧ ∃ k r,
  tree.btOfIrqMapOne false k device index out = some r

/-- **The resolution of an interrupt ends exactly if** no links lead from the device back to a node
without `#interrupt-cells`, and from the node where the resolution begins neither such links, nor
entries of length zero in a map, nor the way from node to node. -/
theorem irq_resolution_ends_iff (device : Fin n) (index : UInt32) (out : BtOfIrq n) :
    tree.ResolutionEnds device index out ↔
      ¬LeadsBack tree.Climbs device ∧ ∀ x₀, tree.StartsAt device index x₀ →
        tree.Settles false x₀ := by
  unfold ResolutionEnds
  rw [findParent_ends_iff, btOfIrqMapOne_ends_iff]
  exact and_congr_right fun hclimbs => and_iff_right fun _ => hclimbs

theorem word_own : 4 * [(1 : UInt32)].length + (0 : Fin 4) < 2 ^ 32 := by decide

/-- A root that is its own interrupt parent. -/
def selfParent : IrqTree 1 where
  node :=
    fun _ => ⟨none, 1, [(IrqName.interruptParent.text, ⟨[1], ⟨0, no_tail⟩, fun _ => 0, word_own⟩)]⟩
  allNodes := [0]
  parent_lt := nofun

/-- The root is asked for its interrupt parent for ever. -/
theorem irq_resolution_endless : ¬selfParent.ResolutionEnds 0 0 ⟨0, 0, fun _ => 0⟩ := by
  rintro ⟨⟨k, r, hend⟩, -⟩
  have hround : selfParent.findParentRound 0 = .inr 0 := by decide
  have hstay : ∀ k, selfParent.btOfIrqFindParent k 0 = none := by
    intro k
    induction k with
    | zero => rfl
    | succ k ih => exact (rounds_of_next (congrArg some hround) k).trans ih
  exact nomatch (hstay k).symm.trans hend

end IrqTree

end BitThunder
