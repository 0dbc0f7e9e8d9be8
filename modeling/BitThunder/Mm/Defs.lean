import BitThunder.Lib.Word

/-!
# Memory manager: constants and macros

`os/include/mm/bt_mm.h`. The memory manager computes in 32-bit words; a word is
a natural number and every operation that can wrap is taken modulo `2 ^ 32`.

The translations between physical and virtual addresses are additions modulo `2 ^ 32`, so that they
are one-to-one on words and commute with adding an offset. They do not respect the order of
addresses: a block whose physical extent ends below `2 ^ 32` may wrap around in virtual addresses.
This is why extents are taken physically throughout, and why the specifications speak of `(va + d) %
2 ^ 32`.

`btPageAlign` is the one place where a size can come out smaller than it went in: the last page of
the address space rounds up to `0`. Lemmas about it therefore ask that `x + 4095` is a word, and
what happens to the other sizes is said where they can be asked for.
-/

namespace BitThunder

/-- The values of `BT_ERROR` the memory manager returns. -/
inductive BtError : Type where
  | none | generic | noMemory
  deriving DecidableEq

/-- `BT_ERR_GENERIC` as a word -/
def errGeneric : ℕ := 0x80000001

/-- `BT_ERR_NO_MEMORY` as a word -/
def errNoMemory : ℕ := 0x80000003

/-- `BT_ERR_UNIMPLEMENTED` as a word -/
def errUnimplemented : ℕ := 0x80000004

/-- `BT_ERR_INVALID_VALUE` as a word -/
def errInvalidValue : ℕ := 0x8000000B

theorem errGeneric_ne_zero : errGeneric ≠ 0 := by decide

theorem errNoMemory_ne_zero : errNoMemory ≠ 0 := by decide

theorem errUnimplemented_ne_zero : errUnimplemented ≠ 0 := by decide

theorem errInvalidValue_ne_zero : errInvalidValue ≠ 0 := by decide

/-- `BT_PAGE_SIZE` -/
def btPageSize : ℕ := 4096

/-- `BT_MM_USERLIMIT`: user addresses lie below, the kernel's above. -/
def btMmUserLimit : ℕ := 0xC0000000

/-- `BT_PAGE_MASK` -/
def btPageMask : ℕ := btPageSize - 1

/-- No list of distinct 32-bit addresses is longer: a loop along one that has not
ended by then is going round in a circle. -/
def cellBound : ℕ := 2 ^ 32

/-- The 32-bit complement `~m`. -/
def wordNot (m : ℕ) : ℕ := 2 ^ 32 - 1 - m

/-- 32-bit addition. -/
def wordAdd (a b : ℕ) : ℕ := (a + b) % 2 ^ 32

/-- 32-bit subtraction. -/
def wordSub (a b : ℕ) : ℕ := (a + 2 ^ 32 - b) % 2 ^ 32

/-- A word read as `BT_s32`. -/
def toS32 (x : ℕ) : ℤ := if x < 2 ^ 31 then x else (x : ℤ) - 2 ^ 32

/-- `BT_PAGE_TRUNC`: round down to a page. -/
def btPageTrunc (x : ℕ) : ℕ := x &&& wordNot btPageMask

/-- `BT_PAGE_ALIGN`: round up to a page, in 32 bits. -/
def btPageAlign (x : ℕ) : ℕ := (x + btPageMask) % 2 ^ 32 &&& wordNot btPageMask

theorem wordAdd_lt (a b : ℕ) : wordAdd a b < 2 ^ 32 := Nat.mod_lt _ (by decide)

theorem wordSub_lt (a b : ℕ) : wordSub a b < 2 ^ 32 := Nat.mod_lt _ (by decide)

theorem wordAdd_of_lt {a b : ℕ} (h : a + b < 2 ^ 32) : wordAdd a b = a + b := Nat.mod_eq_of_lt h

theorem wordSub_of_le {a b : ℕ} (hb : b ≤ a) (ha : a < 2 ^ 32) : wordSub a b = a - b := by
  unfold wordSub
  omega

/-- Taking a part off and adding it back gives the word again. -/
theorem wordAdd_wordSub {a b : ℕ} (ha : a < 2 ^ 32) (hb : b < 2 ^ 32) :
    wordAdd b (wordSub a b) = a := by
  unfold wordAdd wordSub
  omega

theorem btPageTrunc_eq {x : ℕ} (hx : x < 2 ^ 32) : btPageTrunc x = x / 4096 * 4096 := by
  have h := land_highMask (w := 32) (k := 12) (by decide) x
  rw [Nat.mod_eq_of_lt hx] at h
  exact h

/-- Rounding up to a page, by division: the last page of the address space rounds to `0`. -/
theorem btPageAlign_eq (x : ℕ) : btPageAlign x = (x + 4095) % 2 ^ 32 / 4096 * 4096 := by
  have h := land_highMask (w := 32) (k := 12) (by decide) ((x + 4095) % 2 ^ 32)
  rw [Nat.mod_mod] at h
  exact h

/-- Rounding up without wrap-around gives the next page multiple. -/
theorem btPageAlign_of_lt {x : ℕ} (hx : x + 4095 < 2 ^ 32) :
    btPageAlign x % 4096 = 0 ∧ x ≤ btPageAlign x ∧ btPageAlign x < x + 4096 := by
  rw [btPageAlign_eq, Nat.mod_eq_of_lt hx]
  omega

/-- A page multiple is its own rounding. -/
theorem btPageAlign_of_aligned {x : ℕ} (hx : x < 2 ^ 32) (ha : x % 4096 = 0) :
    btPageAlign x = x := by
  rw [btPageAlign_eq]
  omega

theorem btPageTrunc_of_aligned {x : ℕ} (hx : x < 2 ^ 32) (ha : x % 4096 = 0) :
    btPageTrunc x = x := by
  rw [btPageTrunc_eq hx]
  omega

/-- What was rounded up is a multiple of the page size. -/
theorem btPageAlign_mod (x : ℕ) : btPageAlign x % 4096 = 0 := by
  rw [btPageAlign_eq]
  omega

theorem btPageAlign_lt (x : ℕ) : btPageAlign x < 2 ^ 32 := by
  rw [btPageAlign_eq]
  omega

theorem btPageAlign_btPageAlign (x : ℕ) : btPageAlign (btPageAlign x) = btPageAlign x :=
  btPageAlign_of_aligned (btPageAlign_lt x) (btPageAlign_mod x)

theorem btPageTrunc_mod {x : ℕ} (hx : x < 2 ^ 32) : btPageTrunc x % 4096 = 0 := by
  rw [btPageTrunc_eq hx]
  omega

/-- The difference of page-aligned words is page-aligned. -/
theorem wordSub_mod {a b : ℕ} (ha : a % 4096 = 0) (hb : b % 4096 = 0) :
    wordSub a b % 4096 = 0 := by
  unfold wordSub
  omega

/-- Where the RAM sits: `BT_CONFIG_RAM_PHYS` and `BT_CONFIG_RAM_VIRT`. Both are
page-aligned words; without virtual addressing both are `0` and the translation
is the identity. -/
structure RamConfig : Type where
  /-- `BT_CONFIG_RAM_PHYS` -/
  phys : ℕ
  /-- `BT_CONFIG_RAM_VIRT` -/
  virt : ℕ
  phys_lt : phys < 2 ^ 32
  virt_lt : virt < 2 ^ 32
  phys_aligned : phys % 4096 = 0
  virt_aligned : virt % 4096 = 0

/-- The configuration without virtual addressing. -/
def identityRam : RamConfig where
  phys := 0
  virt := 0
  phys_lt := by decide
  virt_lt := by decide
  phys_aligned := by decide
  virt_aligned := by decide

namespace RamConfig

variable (R : RamConfig)

/-- `bt_phys_to_virt` -/
def physToVirt (p : ℕ) : ℕ := (p + 2 ^ 32 - R.phys + R.virt) % 2 ^ 32

/-- `bt_virt_to_phys` -/
def virtToPhys (v : ℕ) : ℕ := (v + 2 ^ 32 - R.virt + R.phys) % 2 ^ 32

theorem physToVirt_lt (p : ℕ) : R.physToVirt p < 2 ^ 32 := Nat.mod_lt _ (by decide)

theorem virtToPhys_lt (v : ℕ) : R.virtToPhys v < 2 ^ 32 := Nat.mod_lt _ (by decide)

/-- The two mappings of the RAM are each other's inverse. -/
theorem virtToPhys_physToVirt {p : ℕ} (hp : p < 2 ^ 32) : R.virtToPhys (R.physToVirt p) = p := by
  have h₁ := R.phys_lt
  have h₂ := R.virt_lt
  simp only [virtToPhys, physToVirt]
  omega

theorem physToVirt_virtToPhys {v : ℕ} (hv : v < 2 ^ 32) : R.physToVirt (R.virtToPhys v) = v := by
  have h₁ := R.phys_lt
  have h₂ := R.virt_lt
  simp only [physToVirt, virtToPhys]
  omega

/-- The translation is a translation: it commutes with 32-bit addition. -/
theorem virtToPhys_add (v d : ℕ) :
    R.virtToPhys ((v + d) % 2 ^ 32) = (R.virtToPhys v + d) % 2 ^ 32 := by
  have h₁ := R.phys_lt
  have h₂ := R.virt_lt
  simp only [virtToPhys]
  omega

/-- Distinct virtual words are distinct physical words. -/
theorem virtToPhys_inj {v w : ℕ} (hv : v < 2 ^ 32) (hw : w < 2 ^ 32)
    (h : R.virtToPhys v = R.virtToPhys w) : v = w := by
  have h₁ := R.phys_lt
  have h₂ := R.virt_lt
  simp only [virtToPhys] at h
  omega

theorem physToVirt_mod (p : ℕ) : R.physToVirt p % 4096 = p % 4096 := by
  have h₁ := R.phys_aligned
  have h₂ := R.virt_aligned
  have h₃ := R.phys_lt
  simp only [physToVirt]
  omega

/-- Page alignment is the same on both sides. -/
theorem virtToPhys_mod (v : ℕ) : R.virtToPhys v % 4096 = v % 4096 := by
  have h₁ := R.phys_aligned
  have h₂ := R.virt_aligned
  have h₃ := R.virt_lt
  simp only [virtToPhys]
  omega

end RamConfig

end BitThunder
