import BitThunder.Vm.Machine

/-!
# The page tables

`arch/arm/mm/v7-mmu.c` and its header. A first level table has an entry for every
megabyte, a second level table (from the slab cache `g_ptCache`) one for every
page of a megabyte. A page directory handle is the base of the first level table
with an address space id in its low eight bits.

The TLB flushes have no effect on the tables and are left out.

`bt_mmu_map` does its pages one after the other and stops at the first table it cannot get; what it
has entered by then stays. `bt_mmu_terminate` gives back the second level tables of the user part
and then the directory. `bt_mmu_extract` looks whether all pages of a range are there before it
translates the first address; the loop variable is a word, and a range whose last page is that of
the address space makes it go round.
-/

namespace BitThunder

def mmuL1tblSize : ℕ := 0x4000
def mmuPdePresent : ℕ := 0x00000001
def mmuPdeAddress : ℕ := 0xFFFFFC00
def mmuPtePresent : ℕ := 0x00000002
def mmuPteWbuf : ℕ := 0x00000004
def mmuPteCache : ℕ := 0x00000008
def mmuPteSystem : ℕ := 0x00000010
def mmuPteUserRo : ℕ := 0x00000020
def mmuPteUserRw : ℕ := 0x00000030
def mmuPteNg : ℕ := 0x00000800
def mmuPteAddress : ℕ := 0xFFFFFC00

/-- `PAGE_DIR(virt)` -/
def pageDir (va : ℕ) : ℕ := va >>> 20 &&& 0xfff

/-- `PAGE_TABLE(virt)` -/
def pageTable (va : ℕ) : ℕ := va >>> 12 &&& 0xff

/-- `GET_ASID(h)` -/
def getAsid (h : ℕ) : ℕ := h &&& 0xff

/-- `GET_PGD(h)` -/
def getPgd (h : ℕ) : ℕ := h &&& wordNot 0xff

/-- `PGD_ALIGN(x)` -/
def pgdAlign (x : ℕ) : ℕ := wordAdd x (mmuL1tblSize - 1) &&& wordNot (mmuL1tblSize - 1)

/-- The ARM flags of a page type; `none` is the `default` of the switch. -/
def typeToPteFlags : ℕ → Option ℕ
  | 0 => some 0
  | 1 => some (mmuPtePresent ||| mmuPteWbuf ||| mmuPteCache ||| mmuPteUserRo)
  | 2 => some (mmuPtePresent ||| mmuPteWbuf ||| mmuPteCache ||| mmuPteUserRw)
  | 3 => some (mmuPtePresent ||| mmuPteWbuf ||| mmuPteCache ||| mmuPteSystem)
  | 4 => some (mmuPtePresent ||| mmuPteSystem)
  | _ => none

variable {σ : Type} (K : Kernel σ)

/-- `pte_present(pgd, va)` -/
def Machine.ptePresent (s : Machine σ) (pgd va : ℕ) : Bool :=
  s.dir pgd (pageDir va) &&& mmuPdePresent != 0

/-- `virt_to_pte(pgd, va)` -/
def Machine.virtToPte (s : Machine σ) (pgd va : ℕ) : ℕ :=
  K.ram.physToVirt (s.dir pgd (pageDir va) &&& mmuPdeAddress)

/-- `pgd[PAGE_DIR(va)] = e` -/
def Machine.setPde (s : Machine σ) (pgd va e : ℕ) : Machine σ :=
  s.setDir pgd (Function.update (s.dir pgd) (pageDir va) e)

/-- `pte[PAGE_TABLE(va)] = e` -/
def Machine.setPte (s : Machine σ) (pte va e : ℕ) : Machine σ :=
  s.setTbl pte (Function.update (s.tbl pte) (pageTable va) e)

/-- The second level table for `va`: the one in place, or a new empty one. -/
def tableFor (pgd va k : ℕ) : Prog (Machine σ) (Option ℕ) := do
  if ← Prog.read fun s => s.ptePresent pgd va then
    let pte ← Prog.read fun s => s.virtToPte K pgd va
    pure (some pte)
  else
    let pg ← cacheAlloc K k
    if pg = 0 then pure none
    else
      Prog.update fun s => s.setTbl pg fun _ => 0
      Prog.update fun s => s.setPde pgd va (K.ram.virtToPhys pg ||| mmuPdePresent)
      pure (some pg)

/-- The loop of `bt_mmu_map` over `n` more pages, at page `k` of its range. -/
def mmuMapLoop (pgd flag : ℕ) : ℕ → ℕ → ℕ → ℕ → Prog (Machine σ) ℤ
  | 0, _, _, _ => pure 0
  | n + 1, k, pa, va => do
    match ← tableFor K pgd va k with
    | none => pure (-1)
    | some pte =>
      Prog.update fun s => s.setPte pte va (pa ||| flag)
      mmuMapLoop pgd flag n (k + 1) (wordAdd pa btPageSize) (wordAdd va btPageSize)

/-- `bt_mmu_map` -/
def btMmuMap (pgdH pa va size type : ℕ) : Prog (Machine σ) ℤ :=
  let ng := if wordAdd va size < btMmUserLimit then mmuPteNg else 0
  match typeToPteFlags type with
  | none => pure (-1)
  | some flag =>
    mmuMapLoop K (getPgd pgdH) (flag ||| ng) (btPageAlign size / btPageSize) 0
      (btPageTrunc pa) (btPageTrunc va)

/-- `create_pgd` -/
def createPgd : Prog (Machine σ) ℕ := do
  let pg ← pageAlloc K .directory (mmuL1tblSize * 2)
  if pg = 0 then pure 0
  else
    let pgd := pgdAlign pg
    let gap := wordSub pgd pg
    Prog.when (gap ≠ 0) (pageFree K .directory pg gap)
    pageFree K .directory (wordAdd pgd mmuL1tblSize) (wordSub mmuL1tblSize gap)
    let asid ← Prog.read fun s => s.asid
    Prog.update fun s => s.setAsid (wordAdd asid 1)
    pure (pgd ||| asid)

/-- `bt_mmu_newmap` -/
def btMmuNewmap : Prog (Machine σ) ℕ := do
  let pg ← createPgd K
  if pg = 0 then pure 0
  else
    let pgd := K.ram.physToVirt (getPgd pg)
    Prog.update fun s => s.setDir pgd fun _ => 0
    Prog.update fun s => s.setDir pgd (s.dir K.mmuTable)
    pure (pgd ||| getAsid pg)

/-- "Release all user page tables." -/
def freeTables (pgd : ℕ) : List ℕ → Prog (Machine σ) Unit
  | [] => pure ()
  | i :: is => do
    let pte ← Prog.read fun s => s.dir pgd i
    Prog.when (pte ≠ 0) (cacheFree K (pte &&& mmuPteAddress))
    freeTables pgd is

/-- `bt_mmu_terminate` -/
def btMmuTerminate (pgdH : ℕ) : Prog (Machine σ) Unit := do
  freeTables K (getPgd pgdH) (List.range (pageDir btMmUserLimit))
  pageFree K .directory (K.ram.virtToPhys (getPgd pgdH)) mmuL1tblSize

/-- `bt_mmu_switch` -/
def btMmuSwitch (pgdH : ℕ) : Prog (Machine σ) Unit :=
  let phys := K.ram.virtToPhys (getPgd pgdH)
  Prog.update fun s => if s.ttb.1 = phys then s else s.setTtb (phys, getAsid pgdH)

/-- `page_present(pte, va)` -/
def Machine.pagePresent (s : Machine σ) (pte va : ℕ) : Bool :=
  s.tbl pte (pageTable va) &&& mmuPtePresent != 0

/-- `pte_to_phys(pte, va)` -/
def Machine.pteToPhys (s : Machine σ) (pte va : ℕ) : ℕ :=
  s.tbl pte (pageTable va) &&& mmuPteAddress

/-- "Check all pages exist." The loop from `pg` to `stop`, for at most `fuel` rounds. -/
def Machine.pagesExistLoop (s : Machine σ) (pgd stop : ℕ) : ℕ → ℕ → Option Bool
  | 0, _ => none
  | fuel + 1, pg =>
    if pg ≤ stop then
      if s.ptePresent pgd pg && s.pagePresent (s.virtToPte K pgd pg) pg then
        s.pagesExistLoop pgd stop fuel (wordAdd pg btPageSize)
      else some false
    else some true

/-- The whole loop. There are `2 ^ 20` pages: after more rounds than that it is at a page
for the second time, and goes on for ever. -/
def Machine.pagesExist (s : Machine σ) (pgd start stop : ℕ) : Option Bool :=
  s.pagesExistLoop K pgd stop (2 ^ 20 + 1) start

/-- `bt_mmu_extract` -/
def btMmuExtract (pgdH virt size : ℕ) : Prog (Machine σ) ℕ := do
  let pgd := getPgd pgdH
  let start := btPageTrunc virt
  let stop := btPageTrunc (wordSub (wordAdd virt size) 1)
  if ← Prog.ofOption fun s => s.pagesExist K pgd start stop then
    let pa ← Prog.read fun s => s.pteToPhys (s.virtToPte K pgd start) start
    pure (wordAdd pa (wordSub virt start))
  else pure 0

end BitThunder
