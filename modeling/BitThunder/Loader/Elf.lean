import BitThunder.Lib.Memory
import BitThunder.Lib.Traced
import BitThunder.Mm.Defs

/-!
# Decoding an ELF image

`os/src/loader/bt_elf.c` and `bt_image_load` of `os/src/loader/bt_loader.c`. An image is what is in
memory from `image_start` on; its length is an argument that the decoder does not look at. What the
decoder reads, and what it hands to the callback, is the trace of its run.

* `elf_decode_safe_iff`: for which images it reads nothing else, and says so where it fails;
* `elf_decode_unsafe`: an image that ends behind its magic number.

A run of the decoder leaves a trace of the bytes that it reads and the segments that it hands on.
That everything is inside of the image is therefore a property of a list of events, and it can be
shown part by part with the rules for traces. The parts of the condition follow the decoder: header,
program headers, section headers, and the symbol tables up to the first `_start`, with the strings
as far as they are compared.

Pointers are words and wrap, so that an offset in a header can lead anywhere; and nothing that was
read is ever compared with the length. That an image without the magic number is refused without an
error is the other half of the statement.
-/

namespace BitThunder

/-- `BT_LOADER_SEGMENT`, with the offset of the data in the image -/
structure LoaderSegment : Type where
  vAddr : ℕ
  data : ℕ
  dataLen : ℕ
  size : ℕ
  flags : ℕ
  deriving DecidableEq

/-- What a run of the decoder does: it reads a byte of the image, or of a text in the table that the
section header at `table` describes, and it calls `pfnLoad`. -/
inductive ElfEvent : Type where
  | read (offset : ℕ)
  | string (table pos : ℕ)
  | load (segment : LoaderSegment)
  deriving DecidableEq

section Layout

variable (image : Memory)

/-- A byte; pointers wrap. -/
def elfByte (a : ℕ) : ℕ := (image (a % 2 ^ 32)).toNat

/-- `Elf32_Half` -/
def elfHalf (a : ℕ) : ℕ := elfByte image a + 2 ^ 8 * elfByte image (a + 1)

/-- `Elf32_Word` -/
def elfWord (a : ℕ) : ℕ := elfHalf image a + 2 ^ 16 * elfHalf image (a + 2)

/-- `phdr + i` -/
def elfPhdr (i : ℕ) : ℕ := wordAdd (elfWord image 28) (32 * i)

/-- `shdr + i` -/
def elfShdr (i : ℕ) : ℕ := wordAdd (elfWord image 32) (40 * i)

/-- `hdr->e_phnum` -/
def ePhnum : ℕ := elfHalf image 44

/-- `hdr->e_shnum` -/
def eShnum : ℕ := elfHalf image 48

/-- `sh_offset` of the header at `shdr` -/
def shOffset (shdr : ℕ) : ℕ := elfWord image (shdr + 16)

/-- `sh_size` -/
def shSize (shdr : ℕ) : ℕ := elfWord image (shdr + 20)

/-- `shdr + shdr[i].sh_link` -/
def shLink (shdr : ℕ) : ℕ := elfShdr image (elfWord image (shdr + 24))

/-- `syms + i` of the table at `shdr` -/
def elfSym (shdr i : ℕ) : ℕ := wordAdd (shOffset image shdr) (16 * i)

/-- What the program header at `phdr` says of a segment -/
def elfSegment (phdr : ℕ) : LoaderSegment where
  vAddr := elfWord image (phdr + 8)
  data := elfWord image (phdr + 4)
  dataLen := elfWord image (phdr + 16)
  size := elfWord image (phdr + 20)
  flags := elfWord image (phdr + 24)

end Layout

/-- `ELFMAG` -/
def elfMag : List UInt8 := [0x7f, 0x45, 0x4c, 0x46]

/-- `PT_LOAD` -/
def ptLoad : ℕ := 1

/-- `SHT_SYMTAB` -/
def shtSymtab : ℕ := 2

/-- `"_start"`, with the zero -/
def elfStart : List UInt8 := [0x5f, 0x73, 0x74, 0x61, 0x72, 0x74, 0]

/-! ## The decoder

Each access to the image is an event, in the order of the source. A name is compared character by
character, and only as far as it agrees. -/

/-- Read `n` bytes. -/
def elfRead (a n : ℕ) : Traced ElfEvent Unit :=
  ⟨(), (List.range n).map fun j => .read ((a + j) % 2 ^ 32)⟩

section Decoder

variable (image : Memory)

/-- `bt_elf_hdr_valid`: the first byte that is a different one decides. -/
def btElfHdrValid : Traced ElfEvent Bool := do
  let wrong ← Traced.find 4 fun i => do
    elfRead i 1
    return image i ≠ elfMag.getD i 0
  return wrong.isNone

/-- `strcmp` of `name`, with its zero, and the text at `pos` of a string table -/
def elfStrcmp (name : List UInt8) (table pos : ℕ) : Traced ElfEvent Bool := do
  let differs ← Traced.find name.length fun j => do
    Traced.emit (.string table (pos + j))
    return image ((shOffset image table + (pos + j)) % 2 ^ 32) ≠ name.getD j 0
  return differs.isNone

/-- `bt_elf_find_sym`, of `"_start"` -/
def btElfFindSym (shdr table : ℕ) : Traced ElfEvent (Option ℕ) := do
  elfRead (shdr + 16) 8
  Traced.find (shSize image shdr / 16) fun i => do
    elfRead (elfSym image shdr i) 4
    elfStrcmp image elfStart table (elfWord image (elfSym image shdr i))

/-- A round of the first loop -/
def elfProgram (i : ℕ) : Traced ElfEvent Unit := do
  elfRead (elfPhdr image i) 4
  if elfWord image (elfPhdr image i) = ptLoad then
    elfRead (elfPhdr image i + 4) 8
    elfRead (elfPhdr image i + 16) 12
    Traced.emit (.load (elfSegment image (elfPhdr image i)))

/-- A round of the second loop -/
def elfSection (i entry : ℕ) : Traced ElfEvent ℕ := do
  let shdr := elfShdr image i
  elfRead (shdr + 4) 4
  if elfWord image (shdr + 4) = shtSymtab then
    elfRead (shdr + 24) 4
    elfRead (shLink image shdr + 16) 4
    match ← btElfFindSym image shdr (shLink image shdr) with
    | none => return entry
    | some k =>
      elfRead (elfSym image shdr k + 4) 4
      return elfWord image (elfSym image shdr k + 4)
  else return entry

/-- `bt_elf_image_load`, which is `pfnDecode`; `*pError` keeps its value. -/
def btElfImageLoad (error : BtError) : Traced ElfEvent (ℕ × BtError) := do
  if ← btElfHdrValid image then
    elfRead 28 4
    elfRead 44 2
    Traced.loop (ePhnum image) (fun i _ => elfProgram image i) ()
    elfRead 32 4
    elfRead 48 2
    let entry ← Traced.loop (eShnum image) (elfSection image) 0
    return (entry, error)
  else return (0, error)

/-- `bt_elf_can_decode` -/
def btElfCanDecode : Traced ElfEvent Bool := btElfHdrValid image

end Decoder

/-- `BT_LOADER`, as far as it is called; neither function is given the length to look at. -/
structure BtLoader : Type where
  pfnCanDecode : Memory → Traced ElfEvent Bool
  pfnDecode : Memory → BtError → Traced ElfEvent (ℕ × BtError)

/-- `oElfLoader` -/
def oElfLoader : BtLoader where
  pfnCanDecode := btElfCanDecode
  pfnDecode := btElfImageLoad

/-- `bt_image_load`, with the loaders of the section `.bt.loaders` -/
def btImageLoad (image : Memory) (error : BtError) : List BtLoader → Traced ElfEvent (ℕ × BtError)
  | [] => return (0, error)
  | loader :: loaders => do
    if ← loader.pfnCanDecode image then loader.pfnDecode image error
    else btImageLoad image error loaders

/-! ## What is asked of it

No event is outside of the image, and an image that is not accepted is an error. -/

/-- The bytes are below the length. -/
def InImage (len a n : ℕ) : Prop := ∀ j < n, (a + j) % 2 ^ 32 < len

/-- An event is one that the image allows. -/
def ElfEvent.Safe (image : Memory) (len : ℕ) : ElfEvent → Prop
  | read offset => offset < len
  | string table pos => pos < shSize image table ∧ (shOffset image table + pos) % 2 ^ 32 < len
  | load segment => InImage len segment.data segment.dataLen ∧ segment.dataLen ≤ segment.size

/-- A run stays inside of the image, and one that accepts nothing reports an error. -/
structure ElfSafe (image : Memory) (len : ℕ) (loaders : List BtLoader) : Prop where
  /-- whatever loaders there are, nothing outside of the image is touched -/
  inside : ∀ error, (btImageLoad image error loaders).All (ElfEvent.Safe image len)
  /-- an image that no loader accepts is an error -/
  rejects : (∀ loader ∈ loaders, (loader.pfnCanDecode image).val = false) →
    ∀ error, (btImageLoad image error loaders).val.1 = 0 ∧
    (btImageLoad image error loaders).val.2 ≠ .none

/-! ## When it does that

The condition is read off the headers in the order in which the decoder follows them. -/

section Fits

variable (image : Memory) (len : ℕ)

/-- The first `n` bytes of the text at `pos` are those of `name`. -/
def NameAgrees (name : List UInt8) (table pos n : ℕ) : Prop :=
  ∀ j < n, image ((shOffset image table + (pos + j)) % 2 ^ 32) = name.getD j 0

/-- The text at `pos` is in its table, as far as it agrees with `name`. -/
def NameFits (name : List UInt8) (table pos : ℕ) : Prop :=
  ∀ j < name.length, NameAgrees image name table pos j →
    pos + j < shSize image table ∧ (shOffset image table + (pos + j)) % 2 ^ 32 < len

/-- The symbol is `_start`. -/
def IsStart (shdr k : ℕ) : Prop :=
  NameAgrees image elfStart (shLink image shdr) (elfWord image (elfSym image shdr k))
  elfStart.length

/-- The program header is in the image, and its segment. -/
structure ProgramFits (phdr : ℕ) : Prop where
  /-- its type can be read -/
  type : InImage len phdr 4
  /-- and, if it is to be loaded, where it is and where it goes -/
  fields : elfWord image phdr = ptLoad → InImage len (phdr + 4) 8 ∧ InImage len (phdr + 16) 12
  /-- the data of such a segment is in the image, and is no more than its size -/
  data : elfWord image phdr = ptLoad →
    InImage len (elfWord image (phdr + 4)) (elfWord image (phdr + 16)) ∧
    elfWord image (phdr + 16) ≤ elfWord image (phdr + 20)

/-- The symbol table is in the image, as far as the first `_start`. -/
structure SymbolsFit (shdr : ℕ) : Prop where
  /-- the place, the length and the string table of the section can be read -/
  fields : InImage len (shdr + 16) 12
  /-- and the place of that table -/
  strings : InImage len (shLink image shdr + 16) 4
  /-- up to the one that names the start each symbol has its name in the image, and that one its
  value -/
  symbols : ∀ k < shSize image shdr / 16, (∀ j < k, ¬IsStart image shdr j) →
    InImage len (elfSym image shdr k) 4 ∧
      NameFits image len elfStart (shLink image shdr) (elfWord image (elfSym image shdr k)) ∧
      (IsStart image shdr k → InImage len (elfSym image shdr k + 4) 4)

/-- The section header is in the image, and its symbol table if it has one. -/
structure SectionFits (shdr : ℕ) : Prop where
  /-- its type can be read -/
  type : InImage len (shdr + 4) 4
  /-- a symbol table can be searched -/
  symtab : elfWord image (shdr + 4) = shtSymtab → SymbolsFit image len shdr

/-- The image has the magic number, and all that its headers point to. -/
structure ElfFits : Prop where
  /-- it begins with the magic number -/
  magic : ∀ i < 4, image i = elfMag.getD i 0
  /-- the header is there as far as it is read -/
  header : 50 ≤ len
  /-- so is all that the program headers say -/
  programs : ∀ i < ePhnum image, ProgramFits image len (elfPhdr image i)
  /-- and all that the section headers say -/
  sections : ∀ i < eShnum image, SectionFits image len (elfShdr image i)

end Fits

section Proofs

variable {image : Memory} {len a n i k pos table shdr phdr entry : ℕ} {name : List UInt8}
  {error : BtError}

/-- A read is safe exactly if it stays within the image. -/
theorem all_elfRead : (elfRead a n).All (ElfEvent.Safe image len) ↔ InImage len a n := by
  constructor
  · intro h j hj
    exact h _ (List.mem_map.mpr ⟨j, List.mem_range.mpr hj, rfl⟩)
  · intro h e he
    obtain ⟨j, hj, rfl⟩ := List.mem_map.mp he
    exact h j (List.mem_range.mp hj)

theorem inImage_append {m : ℕ} : InImage len a (n + m) ↔
    InImage len a n ∧ InImage len (a + n) m := by
  constructor
  · intro h
    refine ⟨fun j hj => h j (by omega), fun j hj => ?_⟩
    rw [Nat.add_assoc]
    exact h (n + j) (by omega)
  · rintro ⟨h, h'⟩ j hj
    by_cases hjn : j < n
    · exact h j hjn
    · have := h' (j - n) (by omega)
      rwa [Nat.add_assoc, Nat.add_sub_cancel' (Nat.not_lt.mp hjn)] at this

/-! ### Names

A comparison of names reads one character more than agrees, which is what `NameFits` allows for. -/

/-- The comparison is true exactly if the names agree, character by character and at their ends. -/
theorem elfStrcmp_eq : (elfStrcmp image name table pos).val = true ↔
    NameAgrees image name table pos name.length := by
  rw [elfStrcmp, Traced.val_bind, Traced.val_pure, Option.isNone_iff_eq_none, Traced.find_eq_none]
  simp only [Traced.val_bind, Traced.val_pure, decide_eq_false_iff_not, not_not, ne_eq]
  rfl

theorem all_elfStrcmp : (elfStrcmp image name table pos).All (ElfEvent.Safe image len) ↔
    NameFits image len name table pos := by
  rw [elfStrcmp, Traced.all_bind, Traced.all_find, and_iff_left Traced.all_pure]
  simp only [Traced.all_bind, Traced.all_emit, Traced.val_bind, Traced.val_pure, Traced.all_pure,
    and_true, decide_eq_false_iff_not, not_not, ne_eq]
  rfl

/-- The search finds the first symbol that is named like the entry point. -/
theorem findSym_eq_some : (btElfFindSym image shdr (shLink image shdr)).val = some k ↔
    k < shSize image shdr / 16 ∧ IsStart image shdr k ∧ ∀ j < k, ¬IsStart image shdr j := by
  rw [btElfFindSym, Traced.val_bind, Traced.find_eq_some]
  simp only [Traced.val_bind, ← Bool.not_eq_true, elfStrcmp_eq]
  rfl

theorem all_findSym : (btElfFindSym image shdr (shLink image shdr)).All (ElfEvent.Safe image len) ↔
    InImage len (shdr + 16) 8 ∧ ∀ k < shSize image shdr / 16, (∀ j < k, ¬IsStart image shdr j) →
      InImage len (elfSym image shdr k) 4 ∧
        NameFits image len elfStart (shLink image shdr) (elfWord image (elfSym image shdr k)) := by
  rw [btElfFindSym, Traced.all_bind, Traced.all_find, all_elfRead]
  simp only [Traced.all_bind, all_elfRead, all_elfStrcmp, Traced.val_bind, ← Bool.not_eq_true,
    elfStrcmp_eq]
  rfl

/-! ### The headers

Each part of the decoder is safe exactly under its part of the condition, and a loop if all of its
rounds are. -/

/-- A program header is safe exactly if its bytes, and those it points to, are in the image. -/
theorem all_elfProgram : (elfProgram image i).All (ElfEvent.Safe image len) ↔
    ProgramFits image len (elfPhdr image i) := by
  rw [elfProgram, Traced.all_bind, Traced.all_ite, all_elfRead]
  simp only [Traced.all_bind, all_elfRead, Traced.all_emit, Traced.all_pure, implies_true, and_true]
  constructor
  · rintro ⟨htype, hload⟩
    exact ⟨htype, fun h => ⟨(hload h).1, (hload h).2.1⟩, fun h => (hload h).2.2⟩
  · rintro ⟨htype, hfields, hdata⟩
    exact ⟨htype, fun h => ⟨(hfields h).1, (hfields h).2, hdata h⟩⟩

/-- A section header is safe under the same condition. -/
theorem all_elfSection :
    (elfSection image i entry).All (ElfEvent.Safe image len) ↔
      SectionFits image len (elfShdr image i) := by
  have hsplit : InImage len (elfShdr image i + 16) 12 ↔
      InImage len (elfShdr image i + 16) 8 ∧ InImage len (elfShdr image i + 24) 4 :=
      inImage_append (n := 8) (m := 4)
  rw [elfSection, Traced.all_bind, Traced.all_ite, all_elfRead]
  simp only [Traced.all_bind, all_elfRead, all_findSym, Traced.all_pure, implies_true, and_true]
  refine Iff.trans (and_congr_right fun _ => imp_congr_right fun _ => ?_)
    ⟨fun h => ⟨h.1, h.2⟩, fun h => ⟨h.1, h.2⟩⟩
  constructor
  · rintro ⟨hlink, hstrings, ⟨hfields, hsymbols⟩, hvalue⟩
    refine ⟨hsplit.mpr ⟨hfields, hlink⟩, hstrings, fun k hk hnone => ?_⟩
    refine ⟨(hsymbols k hk hnone).1, (hsymbols k hk hnone).2, fun hstart => ?_⟩
    rw [findSym_eq_some.mpr ⟨hk, hstart, hnone⟩] at hvalue
    simpa [all_elfRead] using hvalue
  · rintro ⟨hfields, hstrings, hsymbols⟩
    refine ⟨(hsplit.mp hfields).2, hstrings, ⟨(hsplit.mp hfields).1, fun k hk hnone =>
      ⟨(hsymbols k hk hnone).1, (hsymbols k hk hnone).2.1⟩⟩, ?_⟩
    cases hfind : (btElfFindSym image (elfShdr image i) (shLink image (elfShdr image i))).val with
    | none => exact Traced.all_pure
    | some k =>
      obtain ⟨hk, hstart, hnone⟩ := findSym_eq_some.mp hfind
      simpa [all_elfRead] using (hsymbols k hk hnone).2.2 hstart

/-- The magic number is all that is looked at. -/
theorem btElfHdrValid_eq : (btElfHdrValid image).val = true ↔
    ∀ i < 4, image i = elfMag.getD i 0 := by
  rw [btElfHdrValid, Traced.val_bind, Traced.val_pure, Option.isNone_iff_eq_none,
    Traced.find_eq_none]
  simp only [Traced.val_bind, Traced.val_pure, decide_eq_false_iff_not, not_not, ne_eq]

theorem all_btElfHdrValid (h : 4 ≤ len) : (btElfHdrValid image).All (ElfEvent.Safe image len) := by
  rw [btElfHdrValid, Traced.all_bind, Traced.all_find, and_iff_left Traced.all_pure]
  intro k hk _
  simp only [Traced.all_bind, all_elfRead, Traced.all_pure, and_true]
  intro j hj
  omega

/-- Where the image has the magic number, the decoder reads on. -/
theorem le_of_all_btElfImageLoad (hmagic : (btElfHdrValid image).val = true)
    (h : (btElfImageLoad image error).All (ElfEvent.Safe image len)) : 50 ≤ len := by
  rw [btElfImageLoad, Traced.all_bind, if_pos hmagic] at h
  simp only [Traced.all_bind, all_elfRead] at h
  have hshnum := h.2.2.2.2.2.1 1 (by decide)
  omega

/-- An image with a header is safe exactly if every header in its tables is. -/
theorem all_btElfImageLoad (hmagic : (btElfHdrValid image).val = true) (hlen : 50 ≤ len) :
    (btElfImageLoad image error).All (ElfEvent.Safe image len) ↔
      (∀ i < ePhnum image, ProgramFits image len (elfPhdr image i)) ∧
      ∀ i < eShnum image, SectionFits image len (elfShdr image i) := by
  have hbelow {a n : ℕ} (h : a + n ≤ 50) : InImage len a n := fun j hj => by omega
  have h28 : InImage len 28 4 := hbelow (by decide)
  have h44 : InImage len 44 2 := hbelow (by decide)
  have h32 : InImage len 32 4 := hbelow (by decide)
  have h48 : InImage len 48 2 := hbelow (by decide)
  have hvalid : (btElfHdrValid image).All (ElfEvent.Safe image len) := all_btElfHdrValid (by omega)
  have hprograms : (Traced.loop (ePhnum image) (fun i _ => elfProgram image i) ()).All
      (ElfEvent.Safe image len) ↔ _ :=
    Traced.all_loop (Q := fun i => ProgramFits image len (elfPhdr image i))
    (fun _ _ => all_elfProgram) _ _
  have hsections : (Traced.loop (eShnum image) (elfSection image) 0).All
      (ElfEvent.Safe image len) ↔ _ :=
    Traced.all_loop (Q := fun i => SectionFits image len (elfShdr image i))
    (fun _ _ => all_elfSection) _ _
  rw [btElfImageLoad, Traced.all_bind, if_pos hmagic]
  simp only [Traced.all_bind, all_elfRead, Traced.all_pure, and_true, hvalid, h28, h44, h32, h48,
    true_and]
  exact and_congr hprograms hsections

/-- With one loader the search for a loader is its test. -/
theorem btImageLoad_eq : btImageLoad image error [oElfLoader] = (do
    if ← btElfHdrValid image then btElfImageLoad image error
    else return (0, error)) := rfl

/-- An image without the magic number is not accepted, and there is no error. -/
theorem btImageLoad_refused (h : (btElfHdrValid image).val = false) :
    (btImageLoad image error [oElfLoader]).val = (0, error) := by
  rw [btImageLoad_eq, Traced.val_bind, h]
  rfl

/-- The safety of the whole is that of the test and that of the loader. -/
theorem all_btImageLoad (h : (btElfHdrValid image).val = true) :
    (btImageLoad image error [oElfLoader]).All (ElfEvent.Safe image len) ↔
      (btElfHdrValid image).All (ElfEvent.Safe image len) ∧
      (btElfImageLoad image error).All (ElfEvent.Safe image len) := by
  rw [btImageLoad_eq, Traced.all_bind, if_pos h]

/-- The decoder stays inside of the images that have a magic number and all that their headers point
to, and of no others; those are the ones it accepts. -/
theorem elf_decode_safe_iff (image : Memory) (len : ℕ) :
    ElfSafe image len [oElfLoader] ↔ ElfFits image len := by
  constructor
  · rintro ⟨hinside, hrejects⟩
    have hmagic : (btElfHdrValid image).val = true := by
      by_contra hfalse
      rw [Bool.not_eq_true] at hfalse
      refine (hrejects (fun loader hmem => ?_) .none).2 (by rw [btImageLoad_refused hfalse])
      rw [List.mem_singleton.mp hmem]
      exact hfalse
    have hall := ((all_btImageLoad hmagic).mp (hinside .none)).2
    have hlen := le_of_all_btElfImageLoad hmagic hall
    obtain ⟨hprograms, hsections⟩ := (all_btElfImageLoad hmagic hlen).mp hall
    exact ⟨btElfHdrValid_eq.mp hmagic, hlen, hprograms, hsections⟩
  · rintro ⟨hmagic, hlen, hprograms, hsections⟩
    have hvalid := btElfHdrValid_eq.mpr hmagic
    refine ⟨fun error => (all_btImageLoad hvalid).mpr
      ⟨all_btElfHdrValid (by omega), ?_⟩, fun hnone => ?_⟩
    · exact (all_btElfImageLoad hvalid hlen).mpr ⟨hprograms, hsections⟩
    · exact absurd (hvalid.symm.trans (hnone oElfLoader (List.mem_singleton_self _))) (by decide)

/-- A header without tables -/
example : ElfFits (fun i => elfMag.getD i 0) 52 where
  magic _ _ := rfl
  header := by decide
  programs i hi := absurd hi (Nat.not_lt_zero i)
  sections i hi := absurd hi (Nat.not_lt_zero i)

/-- Four bytes, the magic number: the tables are looked for behind them. -/
theorem elf_decode_unsafe : ¬ElfSafe (fun i => elfMag.getD i 0) 4 [oElfLoader] := by
  intro h
  have hmagic : (btElfHdrValid fun i => elfMag.getD i 0).val = true :=
    btElfHdrValid_eq.mpr fun _ _ => rfl
  have hall := ((all_btImageLoad hmagic).mp (h.inside .none)).2
  exact absurd (le_of_all_btElfImageLoad hmagic hall) (by decide)

end Proofs

end BitThunder
