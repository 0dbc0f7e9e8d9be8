import BitThunder.Lib.Memory

/-!
# The read cache of ext2

`os/src/fs/ext2/dev.c` and `ext2fs_devread_cached` of `ext2fs.c`. A read of bytes is made of reads
of sectors, each of which can fail. The cache keeps the last five reads, the failed ones with the
others, and returns success for any of them; and one of the reads of sectors is not checked.

* `devread_spec`: what a read delivers, if the one that is not checked does not fail;
* `CacheRight`: what the cache holds of reads that did not fail is on the medium;
* `transparent_of_careful`: so it is in every run without these two cases.

The device is a medium of sectors together with an outcome for each read, so that the cases in which
a read fails are quantified over. Without the cache a read goes to the first, incomplete sector, to
the whole ones and to the last, incomplete one; the result of one of these is not looked at, and its
failure leaves bytes in the buffer that are not the medium's.

With the cache there is one more way: an entry is made for a failed read too, and returned as a
success later. `CacheRight` says of the entries with `rc` set what they should hold, and careful
calls keep it.
-/

namespace BitThunder

/-- A device. `fnpReadBlocks` says whether there is a function to read it. The number of a sector
is an `int`, and what C does if it overflows is undefined, so it has no limits here. -/
structure Ext2Device : Type where
  fnpReadBlocks : Bool
  /-- the bytes of each sector -/
  medium : ℤ → Memory

/-- The cases of the up to three reads of sectors in one call: `none` if the read succeeds, or
what it leaves in the buffer. -/
structure ReadCases : Type where
  first : Option Memory
  block : Option Memory
  last : Option Memory

namespace Ext2Device

variable (dev : Ext2Device)

/-- The bytes of the medium from a sector on. -/
def bytes (sector : ℤ) : Memory := fun i => dev.medium (sector + (i / 512 : ℕ)) (i % 512)

/-- `ext2fs_read_blocks`: whether it returns the number of sectors asked for, and the contents of
the buffer -/
def readBlocks (o : Option Memory) (sector : ℤ) : Bool × Memory :=
  match o with
  | none => (true, dev.bytes sector)
  | some left => (false, left)

/-- `ext2fs_devread`, from the first whole sector on; `pos` is how far `buf` has moved -/
def devreadAligned (o : ReadCases) (sector : ℤ) (byteLen pos : ℕ) (buf : Memory) : ℕ × Memory :=
  if byteLen = 0 then (1, buf)
  else
    let blockLen := byteLen / 512 * 512
    if blockLen = 0 then (1, buf.overlay pos byteLen (dev.readBlocks o.block sector).2)
    else
      let r := dev.readBlocks o.block sector
      let buf := buf.overlay pos blockLen r.2
      if r.1 = false then (0, buf)
      else
        let byteLen := byteLen - blockLen
        if byteLen ≠ 0 then
          let r := dev.readBlocks o.last (sector + (blockLen / 512 : ℕ))
          if r.1 = false then (0, buf)
          else (1, buf.overlay (pos + blockLen) byteLen r.2)
        else (1, buf)

/-- `ext2fs_devread` -/
def ext2fsDevread (o : ReadCases) (sector byteOffset : ℤ) (byteLen : ℕ) (buf : Memory) :
    ℕ × Memory :=
  let sector := sector + byteOffset / 512
  let byteOffset := (byteOffset % 512).toNat
  if dev.fnpReadBlocks = false then (0, buf)
  else if byteOffset ≠ 0 then
    let r := dev.readBlocks o.first sector
    if r.1 = false then (0, buf)
    else
      let n := min (512 - byteOffset) byteLen
      dev.devreadAligned o (sector + 1) (byteLen - n) n (buf.overlay 0 n (r.2.advance byteOffset))
  else dev.devreadAligned o sector byteLen 0 buf

/-- What the medium holds at a byte of the range. -/
def expected (sector byteOffset : ℤ) (j : ℕ) : UInt8 :=
  dev.medium (sector + (byteOffset + j) / 512) ((byteOffset + j) % 512).toNat

end Ext2Device

/-- `struct ext2fs_devread_cache_data`; a `buf` of `none` is a null pointer -/
structure Ext2CacheEntry : Type where
  sector : ℤ
  byteOffset : ℤ
  byteLen : ℕ
  rc : ℕ
  buf : Option Memory

/-- The arguments of `ext2fs_devread_cached`, the reads of sectors if it makes any, and whether
there is memory for another entry. -/
structure Ext2Call : Type where
  sector : ℤ
  byteOffset : ℤ
  byteLen : ℕ
  buf : Memory
  reads : ReadCases
  malloc : Bool

/-- The loop of `ext2fs_devread_cached`: the entry of the same range and its bytes, and the other
entries -/
def cacheHit (c : Ext2Call) : List Ext2CacheEntry →
    Option (Memory × Ext2CacheEntry × List Ext2CacheEntry)
  | [] => none
  | e :: es =>
    match e.buf with
    | some data =>
      if e.sector = c.sector ∧ e.byteOffset = c.byteOffset ∧ e.byteLen = c.byteLen
        then some (data, e, es)
      else (cacheHit c es).map fun r => (r.1, r.2.1, e :: r.2.2)
    | none => (cacheHit c es).map fun r => (r.1, r.2.1, e :: r.2.2)

namespace Ext2Device

variable (dev : Ext2Device)

/-- `ext2fs_devread_cached`. It does not return if it has to copy to a null pointer. -/
def ext2fsDevreadCached (c : Ext2Call) (cd : List Ext2CacheEntry) :
    Option (ℕ × Memory × List Ext2CacheEntry) :=
  match cacheHit c cd with
  | some (data, tmp, cd) => some (1, c.buf.overlay 0 c.byteLen data, tmp :: cd)
  | none =>
    let r := dev.ext2fsDevread c.reads c.sector c.byteOffset c.byteLen c.buf
    if c.malloc = false ∧ c.byteLen ≠ 0 then none
    else
      let buf := if c.malloc then some r.2 else none
      some (r.1, r.2, ⟨c.sector, c.byteOffset, c.byteLen, r.1, buf⟩ :: cd.dropLast)

/-- `ext2fs_devread_freecache` -/
def ext2fsDevreadFreecache (cd : List Ext2CacheEntry) : List Ext2CacheEntry :=
  cd.map fun e => { e with buf := none }

/-- The call returns success only with the bytes of the medium. -/
def Transparent (c : Ext2Call) (cd : List Ext2CacheEntry) : Prop :=
  ∀ rc buf cd', dev.ext2fsDevreadCached c cd = some (rc, buf, cd') → rc = 1 →
    ∀ j < c.byteLen, buf j = dev.expected c.sector c.byteOffset j

/-- The cache after a run of calls that are all as `ok` allows. -/
inductive CacheReach (ok : Ext2Call → List Ext2CacheEntry → Prop) : List Ext2CacheEntry → Prop where
  | init : CacheReach ok (List.replicate 5 ⟨0, 0, 0, 0, none⟩)
  | call {cd cd' : List Ext2CacheEntry} {rc : ℕ} {buf : Memory} (reach : CacheReach ok cd)
    (c : Ext2Call)
      (hok : ok c cd) (h : dev.ext2fsDevreadCached c cd = some (rc, buf, cd')) : CacheReach ok cd'
  | freecache {cd : List Ext2CacheEntry} (reach : CacheReach ok cd) : CacheReach ok
    (ext2fsDevreadFreecache cd)

end Ext2Device

namespace Ext2Call

/-- What is left of the range behind its first, incomplete sector. -/
def aligned (c : Ext2Call) : ℕ :=
  if c.byteOffset % 512 = 0 then c.byteLen else c.byteLen - (512 - (c.byteOffset % 512).toNat)

/-- The read that is not checked, of a part of a sector, does not fail. -/
def Checked (c : Ext2Call) : Prop := 0 < c.aligned → c.aligned < 512 → c.reads.block = none

/-- The call does not find an entry of a failed read; and if it finds none, the read that is not
checked does not fail. -/
def Careful (c : Ext2Call) (cd : List Ext2CacheEntry) : Prop :=
  match cacheHit c cd with
  | some (_, tmp, _) => tmp.rc = 1
  | none => c.Checked

end Ext2Call

namespace Ext2Device

/-! ## Reads without the cache

The bytes asked for are cut at the ends of sectors, and each part is delivered by its own read. A
part of a sector goes through a buffer of its own. -/

section Read

variable {dev : Ext2Device} {o : ReadCases} {sector byteOffset : ℤ} {byteLen pos : ℕ} {buf : Memory}

/-- Sectors follow each other. -/
theorem bytes_add (sector : ℤ) (n i : ℕ) :
    dev.bytes (sector + n) i = dev.bytes sector (512 * n + i) := by
  have hdiv : (512 * n + i) / 512 = n + i / 512 := by omega
  have hmod : (512 * n + i) % 512 = i % 512 := by omega
  simp only [bytes, hdiv, hmod]
  push_cast
  rw [add_assoc]

/-- The bytes asked for begin in the sector that the offset reaches. -/
theorem expected_eq (sector byteOffset : ℤ) (j : ℕ) :
    dev.expected sector byteOffset j = dev.bytes (sector + byteOffset / 512)
    ((byteOffset % 512).toNat + j) := by
  have hdiv : (byteOffset + j) / 512 = byteOffset / 512 +
      (((byteOffset % 512).toNat + j) / 512 : ℕ) := by omega
  have hmod : ((byteOffset + j) % 512).toNat = ((byteOffset % 512).toNat + j) % 512 := by omega
  rw [expected, bytes, hdiv, hmod, add_assoc]

/-- A read that succeeds gives what the medium holds. -/
theorem readBlocks_of_true {o : Option Memory} (h : (dev.readBlocks o sector).1 = true) :
    (dev.readBlocks o sector).2 = dev.bytes sector := by
  cases o with
  | none => rfl
  | some left => exact absurd h (by simp [readBlocks])

/-- The whole sectors and the one behind them are put where they belong. -/
theorem devreadAligned_spec (hblock : 0 < byteLen → byteLen < 512 → o.block = none)
    (h : (dev.devreadAligned o sector byteLen pos buf).1 = 1) :
    (∀ j < byteLen, (dev.devreadAligned o sector byteLen pos buf).2 (pos + j) = dev.bytes sector j)
      ∧
      ∀ x < pos, (dev.devreadAligned o sector byteLen pos buf).2 x = buf x := by
  by_cases hlen : byteLen = 0
  · subst hlen
    exact ⟨fun j hj => absurd hj (Nat.not_lt_zero j), fun x _ => rfl⟩
  by_cases hsmall : byteLen / 512 * 512 = 0
  · -- the read that is not checked
    have hres : dev.devreadAligned o sector byteLen pos buf =
        (1, buf.overlay pos byteLen (dev.readBlocks o.block sector).2) := by
      simp only [devreadAligned, if_neg hlen, if_pos hsmall]
    rw [hres, hblock (by omega) (by omega)]
    exact ⟨fun j hj => Memory.overlay_of_in hj, fun x hx => Memory.overlay_of_out (.inl hx)⟩
  have hread : (dev.readBlocks o.block sector).1 = true := by
    rw [← Bool.not_eq_false]
    intro hfail
    simp [devreadAligned, hlen, hsmall, hfail] at h
  have hbytes := readBlocks_of_true hread
  by_cases hrest : byteLen - byteLen / 512 * 512 = 0
  · have hres : dev.devreadAligned o sector byteLen pos buf =
        (1, buf.overlay pos (byteLen / 512 * 512) (dev.bytes sector)) := by
      simp [devreadAligned, hlen, hsmall, hread, hbytes, hrest]
    rw [hres]
    exact ⟨fun j hj => Memory.overlay_of_in (by omega), fun x hx => Memory.overlay_of_out (.inl hx)⟩
  · have hlast : (dev.readBlocks o.last (sector + (byteLen / 512 * 512 / 512 : ℕ))).1 = true := by
      rw [← Bool.not_eq_false]
      intro hfail
      simp only [devreadAligned, if_neg hlen, if_neg hsmall, hread, Bool.true_eq_false, if_false,
        if_pos hrest, hfail, if_true, ne_eq] at h
      exact absurd h (by decide)
    have hres : dev.devreadAligned o sector byteLen pos buf =
        (1, (buf.overlay pos (byteLen / 512 * 512) (dev.bytes sector)).overlay
        (pos + byteLen / 512 * 512)
          (byteLen - byteLen / 512 * 512)
            (dev.bytes (sector + (byteLen / 512 * 512 / 512 : ℕ)))) := by
      simp only [devreadAligned, if_neg hlen, if_neg hsmall, hread, Bool.true_eq_false, if_false,
        if_pos hrest, hlast, hbytes, readBlocks_of_true hlast, ne_eq]
    rw [hres]
    constructor
    · intro j hj
      by_cases hwhole : j < byteLen / 512 * 512
      · exact (Memory.overlay_of_out (by omega)).trans (Memory.overlay_of_in hwhole)
      · obtain ⟨i, rfl⟩ := Nat.exists_eq_add_of_le (not_lt.mp hwhole)
        change (Memory.overlay _ _ _ _) (pos + (byteLen / 512 * 512 + i)) = _
        rw [← Nat.add_assoc, Memory.overlay_of_in (by omega), bytes_add]
        congr 1
        omega
    · intro x hx
      exact (Memory.overlay_of_out (by omega)).trans (Memory.overlay_of_out (.inl hx))

/-- A read that succeeds delivers the bytes of the medium, if the one that is not checked does
not fail. -/
theorem devread_spec (c : Ext2Call) (hchecked : c.Checked)
    (h : (dev.ext2fsDevread c.reads c.sector c.byteOffset c.byteLen c.buf).1 = 1) :
    ∀ j < c.byteLen, (dev.ext2fsDevread c.reads c.sector c.byteOffset c.byteLen c.buf).2 j =
      dev.expected c.sector c.byteOffset j := by
  intro j hj
  rw [expected_eq]
  have hdev : dev.fnpReadBlocks = true := by
    rw [← Bool.not_eq_false]
    intro hnone
    simp [ext2fsDevread, hnone] at h
  by_cases hoff : c.byteOffset % 512 = 0
  · have hres : dev.ext2fsDevread c.reads c.sector c.byteOffset c.byteLen c.buf =
        dev.devreadAligned c.reads (c.sector + c.byteOffset / 512) c.byteLen 0 c.buf := by
      simp [ext2fsDevread, hdev, hoff]
    have hlen : c.aligned = c.byteLen := if_pos hoff
    rw [hres] at h ⊢
    have hspec := (devreadAligned_spec (fun h0 h512 => hchecked (by omega) (by omega)) h).1 j hj
    rw [Nat.zero_add] at hspec
    rw [hspec, hoff, Int.toNat_zero, Nat.zero_add]
  · have hoff' : (c.byteOffset % 512).toNat ≠ 0 := by omega
    have hread : (dev.readBlocks c.reads.first (c.sector + c.byteOffset / 512)).1 = true := by
      rw [← Bool.not_eq_false]
      intro hfail
      simp only [ext2fsDevread, hdev, Bool.true_eq_false, if_false, ne_eq, if_pos hoff', hfail,
        if_true] at h
      exact absurd h (by decide)
    -- `n` bytes come from the first, incomplete sector
    obtain ⟨n, hn⟩ : ∃ n, n = min (512 - (c.byteOffset % 512).toNat) c.byteLen := ⟨_, rfl⟩
    have hres : dev.ext2fsDevread c.reads c.sector c.byteOffset c.byteLen c.buf =
        dev.devreadAligned c.reads (c.sector + c.byteOffset / 512 + 1) (c.byteLen - n) n
          (c.buf.overlay 0 n ((dev.bytes (c.sector + c.byteOffset / 512)).advance
            (c.byteOffset % 512).toNat)) := by
      simp only [ext2fsDevread, hdev, Bool.true_eq_false, if_false, ne_eq, if_pos hoff', hread,
        readBlocks_of_true hread, hn]
    have hlen : c.aligned = c.byteLen - n := by
      rw [Ext2Call.aligned, if_neg hoff]
      omega
    rw [hres] at h ⊢
    obtain ⟨hin, hout⟩ := devreadAligned_spec (fun h0 h512 => hchecked (by omega) (by omega)) h
    by_cases hfirst : j < n
    · rw [hout j hfirst]
      have hover : c.buf.overlay 0 n ((dev.bytes (c.sector + c.byteOffset / 512)).advance
          (c.byteOffset % 512).toNat) (0 + j) = _ := Memory.overlay_of_in hfirst
      rw [Nat.zero_add] at hover
      rw [hover, Memory.advance, Nat.add_comm]
    · obtain ⟨i, rfl⟩ := Nat.exists_eq_add_of_le (not_lt.mp hfirst)
      rw [hin i (by omega)]
      have hnext : dev.bytes (c.sector + c.byteOffset / 512 + (1 : ℕ)) i = _ := bytes_add _ 1 i
      rw [Nat.cast_one] at hnext
      rw [hnext]
      congr 1
      omega

end Read

/-! ## The cache

An entry is right if it was made by a read that did not fail. The lookup only compares ranges, and
cannot tell a failed read from another. -/

section Cache

variable {dev : Ext2Device} {c : Ext2Call} {cd cd' : List Ext2CacheEntry} {rc : ℕ} {buf : Memory}

/-- What the cache holds of reads that did not fail is on the medium. -/
def CacheRight (dev : Ext2Device) (cd : List Ext2CacheEntry) : Prop :=
  ∀ e ∈ cd, e.rc = 1 → ∀ data ∈ e.buf, ∀ j < e.byteLen,
  data j = dev.expected e.sector e.byteOffset j

/-- The entry that is found is one of the same range, and the others are still there. -/
theorem cacheHit_spec {data : Memory} {tmp : Ext2CacheEntry} {rest : List Ext2CacheEntry}
    (h : cacheHit c cd = some (data, tmp, rest)) :
    tmp.buf = some data ∧ tmp.sector = c.sector ∧ tmp.byteOffset = c.byteOffset ∧
      tmp.byteLen = c.byteLen ∧
      ∀ e, e ∈ tmp :: rest → e ∈ cd := by
  induction cd generalizing data tmp rest with
  | nil => exact absurd h (by simp [cacheHit])
  | cons e es ih =>
    have hlater {r : Memory × Ext2CacheEntry × List Ext2CacheEntry} (hr : cacheHit c es = some r)
        (heq : (r.1, r.2.1, e :: r.2.2) = (data, tmp, rest)) :
        tmp.buf = some data ∧ tmp.sector = c.sector ∧ tmp.byteOffset = c.byteOffset ∧
        tmp.byteLen = c.byteLen ∧
          ∀ x, x ∈ tmp :: rest → x ∈ e :: es := by
      obtain ⟨data', tmp', rest'⟩ := r
      cases heq
      obtain ⟨hbuf, hsector, hoffset, hlen, hmem⟩ := ih hr
      refine ⟨hbuf, hsector, hoffset, hlen, ?_⟩
      intro x hx
      simp only [List.mem_cons] at hx hmem ⊢
      rcases hx with hx | hx | hx
      · exact .inr (hmem x (.inl hx))
      · exact .inl hx
      · exact .inr (hmem x (.inr hx))
    simp only [cacheHit] at h
    split at h
    · split_ifs at h with hmatch
      · cases h
        exact ⟨‹_›, hmatch.1, hmatch.2.1, hmatch.2.2, fun x hx => hx⟩
      · obtain ⟨r, hr, heq⟩ := Option.map_eq_some_iff.mp h
        exact hlater hr heq
    · obtain ⟨r, hr, heq⟩ := Option.map_eq_some_iff.mp h
      exact hlater hr heq

/-- A call is transparent, and keeps the cache right. -/
theorem CacheRight.call (hcd : CacheRight dev cd) (hcareful : c.Careful cd)
    (h : dev.ext2fsDevreadCached c cd = some (rc, buf, cd')) :
    (rc = 1 → ∀ j < c.byteLen, buf j = dev.expected c.sector c.byteOffset j) ∧
      CacheRight dev cd' := by
  simp only [Ext2Call.Careful] at hcareful
  simp only [ext2fsDevreadCached] at h
  cases hhit : cacheHit c cd with
  | some r =>
    obtain ⟨data, tmp, rest⟩ := r
    simp only [hhit] at h hcareful
    cases h
    obtain ⟨hbuf, hsector, hoffset, hlen, hmem⟩ := cacheHit_spec hhit
    constructor
    · intro _ j hj
      have hover : c.buf.overlay 0 c.byteLen data (0 + j) = data j := Memory.overlay_of_in hj
      rw [Nat.zero_add] at hover
      have hdata := hcd tmp (hmem tmp List.mem_cons_self) hcareful data hbuf j (hlen ▸ hj)
      rw [hover, hdata, hsector, hoffset]
    · intro e he
      exact hcd e (hmem e he)
  | none =>
    simp only [hhit] at h hcareful
    split at h
    · cases h
    · cases h
      refine ⟨fun hrc => devread_spec c hcareful hrc, ?_⟩
      intro e he hrc data hdata
      rcases List.mem_cons.mp he with rfl | he
      · cases hmalloc : c.malloc with
        | false => simp [hmalloc] at hdata
        | true =>
          simp only [hmalloc, if_true, Option.mem_some_iff] at hdata
          subst hdata
          exact devread_spec c hcareful hrc
      · exact hcd e (List.mem_of_mem_dropLast he) hrc data hdata

/-- The cache is right in every state that careful calls reach. -/
theorem CacheReach.right (reach : CacheReach dev Ext2Call.Careful cd) : CacheRight dev cd := by
  induction reach with
  | init =>
    intro e he hrc
    rw [List.eq_of_mem_replicate he] at hrc
    exact absurd hrc (by decide)
  | call _ c hok h ih => exact (ih.call hok h).2
  | freecache _ ih =>
    intro e he _ data hdata
    obtain ⟨e', -, rfl⟩ := List.mem_map.mp he
    exact absurd hdata (by simp)

/-- **When the cache is transparent**: in every run in which no call finds the entry of a failed
read, and no read of a part of a sector that is not checked fails. -/
theorem transparent_of_careful (reach : CacheReach dev Ext2Call.Careful cd) (c : Ext2Call)
    (hc : c.Careful cd) :
    dev.Transparent c cd := by
  intro rc buf cd' h
  exact (reach.right.call hc h).1

/-- A medium of ones, and the read of a sector of it, which `left` says how it fails. -/
def onesMedium : Ext2Device := ⟨true, fun _ _ => 1⟩

def readSector (left : Option Memory) : Ext2Call :=
  ⟨0, 0, 512, fun _ => 0, ⟨none, left, none⟩, true⟩

theorem transparent_of_careful_twice :
    ∃ cd, onesMedium.CacheReach Ext2Call.Careful cd ∧
      onesMedium.Transparent (readSector none) cd := by
  have hfirst : (readSector none).Careful (List.replicate 5 ⟨0, 0, 0, 0, none⟩) := fun _ _ => rfl
  have reach : onesMedium.CacheReach Ext2Call.Careful _ := .call .init (readSector none) hfirst rfl
  exact ⟨_, reach, transparent_of_careful reach _ rfl⟩

/-- The first read of a sector fails, and the second one returns what the first one left. -/
theorem failed_read_returned :
    ∃ cd, onesMedium.CacheReach (fun _ _ => True) cd ∧
      ¬onesMedium.Transparent (readSector none) cd := by
  have reach : onesMedium.CacheReach (fun _ _ => True) _ :=
    .call .init (readSector (some fun _ => 0)) trivial rfl
  refine ⟨_, reach, fun htransparent => ?_⟩
  have hbyte := htransparent _ _ _ rfl rfl 0 (by decide)
  exact absurd hbyte (by decide)

end Cache

end Ext2Device

end BitThunder
