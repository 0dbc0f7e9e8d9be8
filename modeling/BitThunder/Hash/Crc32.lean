import BitThunder.Lib.ShiftRegister

/-!
# CRC-32

`lib/src/hash/bt_crc32.c`. The checksum is computed a byte at a time: the byte is added to the low
end of the register, the low byte of the sum selects an entry of a table, and the entry is added
to the rest. The table holds what eight steps of the shift register make of a byte, so that this
is the definition by single bits.

* `crc32Table_eq`: the entries of the table;
* `crc32Byte_eq`: one round of the loop is eight bits;
* `crc32_standard`: the checksum of a string, whole or in pieces.

The proof uses that a step of the shift register is linear. Eight steps of a register are those of
its low byte, added to the rest shifted down, and the table holds the former for every byte; that is
checked entry by entry. Feeding bits one at a time, as the definition does, is adding the byte first
and then stepping, because a bit that is added to the low end when it is there is the same as one
that was added before and has been shifted to it.
-/

namespace BitThunder

open ShiftRegister

/-- `crc32_table` -/
def crc32Table : List (BitVec 32) := [
  0x00000000, 0x77073096, 0xEE0E612C, 0x990951BA, 0x076DC419, 0x706AF48F, 0xE963A535, 0x9E6495A3,
  0x0EDB8832, 0x79DCB8A4, 0xE0D5E91E, 0x97D2D988, 0x09B64C2B, 0x7EB17CBD, 0xE7B82D07, 0x90BF1D91,
  0x1DB71064, 0x6AB020F2, 0xF3B97148, 0x84BE41DE, 0x1ADAD47D, 0x6DDDE4EB, 0xF4D4B551, 0x83D385C7,
  0x136C9856, 0x646BA8C0, 0xFD62F97A, 0x8A65C9EC, 0x14015C4F, 0x63066CD9, 0xFA0F3D63, 0x8D080DF5,
  0x3B6E20C8, 0x4C69105E, 0xD56041E4, 0xA2677172, 0x3C03E4D1, 0x4B04D447, 0xD20D85FD, 0xA50AB56B,
  0x35B5A8FA, 0x42B2986C, 0xDBBBC9D6, 0xACBCF940, 0x32D86CE3, 0x45DF5C75, 0xDCD60DCF, 0xABD13D59,
  0x26D930AC, 0x51DE003A, 0xC8D75180, 0xBFD06116, 0x21B4F4B5, 0x56B3C423, 0xCFBA9599, 0xB8BDA50F,
  0x2802B89E, 0x5F058808, 0xC60CD9B2, 0xB10BE924, 0x2F6F7C87, 0x58684C11, 0xC1611DAB, 0xB6662D3D,
  0x76DC4190, 0x01DB7106, 0x98D220BC, 0xEFD5102A, 0x71B18589, 0x06B6B51F, 0x9FBFE4A5, 0xE8B8D433,
  0x7807C9A2, 0x0F00F934, 0x9609A88E, 0xE10E9818, 0x7F6A0DBB, 0x086D3D2D, 0x91646C97, 0xE6635C01,
  0x6B6B51F4, 0x1C6C6162, 0x856530D8, 0xF262004E, 0x6C0695ED, 0x1B01A57B, 0x8208F4C1, 0xF50FC457,
  0x65B0D9C6, 0x12B7E950, 0x8BBEB8EA, 0xFCB9887C, 0x62DD1DDF, 0x15DA2D49, 0x8CD37CF3, 0xFBD44C65,
  0x4DB26158, 0x3AB551CE, 0xA3BC0074, 0xD4BB30E2, 0x4ADFA541, 0x3DD895D7, 0xA4D1C46D, 0xD3D6F4FB,
  0x4369E96A, 0x346ED9FC, 0xAD678846, 0xDA60B8D0, 0x44042D73, 0x33031DE5, 0xAA0A4C5F, 0xDD0D7CC9,
  0x5005713C, 0x270241AA, 0xBE0B1010, 0xC90C2086, 0x5768B525, 0x206F85B3, 0xB966D409, 0xCE61E49F,
  0x5EDEF90E, 0x29D9C998, 0xB0D09822, 0xC7D7A8B4, 0x59B33D17, 0x2EB40D81, 0xB7BD5C3B, 0xC0BA6CAD,
  0xEDB88320, 0x9ABFB3B6, 0x03B6E20C, 0x74B1D29A, 0xEAD54739, 0x9DD277AF, 0x04DB2615, 0x73DC1683,
  0xE3630B12, 0x94643B84, 0x0D6D6A3E, 0x7A6A5AA8, 0xE40ECF0B, 0x9309FF9D, 0x0A00AE27, 0x7D079EB1,
  0xF00F9344, 0x8708A3D2, 0x1E01F268, 0x6906C2FE, 0xF762575D, 0x806567CB, 0x196C3671, 0x6E6B06E7,
  0xFED41B76, 0x89D32BE0, 0x10DA7A5A, 0x67DD4ACC, 0xF9B9DF6F, 0x8EBEEFF9, 0x17B7BE43, 0x60B08ED5,
  0xD6D6A3E8, 0xA1D1937E, 0x38D8C2C4, 0x4FDFF252, 0xD1BB67F1, 0xA6BC5767, 0x3FB506DD, 0x48B2364B,
  0xD80D2BDA, 0xAF0A1B4C, 0x36034AF6, 0x41047A60, 0xDF60EFC3, 0xA867DF55, 0x316E8EEF, 0x4669BE79,
  0xCB61B38C, 0xBC66831A, 0x256FD2A0, 0x5268E236, 0xCC0C7795, 0xBB0B4703, 0x220216B9, 0x5505262F,
  0xC5BA3BBE, 0xB2BD0B28, 0x2BB45A92, 0x5CB36A04, 0xC2D7FFA7, 0xB5D0CF31, 0x2CD99E8B, 0x5BDEAE1D,
  0x9B64C2B0, 0xEC63F226, 0x756AA39C, 0x026D930A, 0x9C0906A9, 0xEB0E363F, 0x72076785, 0x05005713,
  0x95BF4A82, 0xE2B87A14, 0x7BB12BAE, 0x0CB61B38, 0x92D28E9B, 0xE5D5BE0D, 0x7CDCEFB7, 0x0BDBDF21,
  0x86D3D2D4, 0xF1D4E242, 0x68DDB3F8, 0x1FDA836E, 0x81BE16CD, 0xF6B9265B, 0x6FB077E1, 0x18B74777,
  0x88085AE6, 0xFF0F6A70, 0x66063BCA, 0x11010B5C, 0x8F659EFF, 0xF862AE69, 0x616BFFD3, 0x166CCF45,
  0xA00AE278, 0xD70DD2EE, 0x4E048354, 0x3903B3C2, 0xA7672661, 0xD06016F7, 0x4969474D, 0x3E6E77DB,
  0xAED16A4A, 0xD9D65ADC, 0x40DF0B66, 0x37D83BF0, 0xA9BCAE53, 0xDEBB9EC5, 0x47B2CF7F, 0x30B5FFE9,
  0xBDBDF21C, 0xCABAC28A, 0x53B39330, 0x24B4A3A6, 0xBAD03605, 0xCDD70693, 0x54DE5729, 0x23D967BF,
  0xB3667A2E, 0xC4614AB8, 0x5D681B02, 0x2A6F2B94, 0xB40BBE37, 0xC30C8EA1, 0x5A05DF1B, 0x2D02EF8D]

/-- `struct bt_crc32_context` -/
structure Crc32Context : Type where
  crc32 : BitVec 32

/-- `bt_crc32_init` -/
def btCrc32Init : Crc32Context := ⟨0xFFFFFFFF⟩

/-- One round of the loop of `bt_crc32_append`. -/
def crc32Byte (crc : BitVec 32) (data : BitVec 8) : BitVec 32 :=
  ((crc >>> 8) &&& 0x00FFFFFF) ^^^
    crc32Table.getD ((crc ^^^ data.setWidth 32) &&& 0x000000FF).toNat 0

/-- `bt_crc32_append` -/
def btCrc32Append (ctx : Crc32Context) (data : List (BitVec 8)) : Crc32Context :=
  ⟨data.foldl crc32Byte ctx.crc32⟩

/-- `bt_crc32_finish`: the digest, as `memcpy` copies it out of a little-endian word, and the
context. -/
def btCrc32Finish (ctx : Crc32Context) : List (BitVec 8) × Crc32Context :=
  let crc := ctx.crc32 ^^^ 0xFFFFFFFF
  ([crc.setWidth 8, (crc >>> 8).setWidth 8, (crc >>> 16).setWidth 8, (crc >>> 24).setWidth 8],
    ⟨0xFFFFFFFF⟩)

/-- `bt_crc32` -/
def btCrc32 (data : List (BitVec 8)) : List (BitVec 8) :=
  (btCrc32Finish (btCrc32Append btCrc32Init data)).1

/-! ## The definition by single bits

This is the standard: a register that is fed bit by bit, with all ones at the beginning and the
complement at the end. -/

/-- The polynomial, reflected. -/
def crc32Poly : BitVec 32 := 0xEDB88320

/-- The bits of a string in the order of transmission: those of each byte, lowest first. -/
def messageBits (data : List (BitVec 8)) : List Bool := data.flatMap fun b => bitsOf b 8

/-- CRC-32, bit by bit: the register starts with all ones, and is inverted at the end. -/
def crc32Reference (data : List (BitVec 8)) : BitVec 32 :=
  (messageBits data).foldl (feed crc32Poly) 0xFFFFFFFF ^^^ 0xFFFFFFFF

/-- Four bytes as a little-endian word. -/
def leWord : List (BitVec 8) → BitVec 32
  | [a, b, c, d] =>
    a.setWidth 32 ||| b.setWidth 32 <<< 8 ||| c.setWidth 32 <<< 16 ||| d.setWidth 32 <<< 24
  | _ => 0

/-! ## The loop

A round of the loop is compared with eight bits, and from there on with a string, and with strings
one behind the other. -/

/-- The entries of the table: eight steps from each byte. -/
theorem crc32Table_eq {i : ℕ} (hi : i < 256) :
    crc32Table.getD i 0 = (step crc32Poly)^[8] (BitVec.ofNat 32 i) := by
  have hall : ∀ i < 256, crc32Table.getD i 0 = (step crc32Poly)^[8] (BitVec.ofNat 32 i) := by
    decide +kernel
  exact hall i hi

/-- The bits of a byte are those of the word it is extended to. -/
theorem bitsOf_setWidth (x : BitVec 8) (n : ℕ) : bitsOf (x.setWidth 32) n = bitsOf x n := by
  induction n generalizing x with
  | zero => rfl
  | succ n ih =>
    have hshift : x.setWidth 32 >>> 1 = (x >>> 1).setWidth 32 := by
      apply BitVec.eq_of_getLsbD_eq
      intro i hi
      by_cases hx : 1 + i < 32
      · simp [hx, hi]
      · simp [hi, BitVec.getLsbD_of_ge x (1 + i) (by omega)]
    rw [bitsOf, bitsOf, hshift, ih]
    simp

/-- One round of the loop feeds the register the eight bits of a byte. -/
theorem crc32Byte_eq (crc : BitVec 32) (b : BitVec 8) :
    crc32Byte crc b = (bitsOf b 8).foldl (feed crc32Poly) crc := by
  have hhigh : ∀ i, 8 ≤ i → (b.setWidth 32).getLsbD i = false := by
    intro i hi
    simp [BitVec.getLsbD_of_ge b i hi]
  have hmask : (crc >>> 8) &&& (0x00FFFFFF : BitVec 32) = crc >>> 8 := by
    apply BitVec.eq_of_getLsbD_eq
    intro i hi
    have hones : (0x00FFFFFF : BitVec 32).getLsbD i = decide (i < 24) := by
      rw [show (0x00FFFFFF : BitVec 32) = BitVec.ofNat 32 (2 ^ 24 - 1) from rfl,
        BitVec.getLsbD_ofNat, Nat.testBit_two_pow_sub_one]
      simp [hi]
    rw [BitVec.getLsbD_and, hones, BitVec.getLsbD_ushiftRight]
    by_cases h24 : i < 24
    · simp [h24]
    · rw [BitVec.getLsbD_of_ge crc (8 + i) (by omega)]
      rfl
  have hshift : (crc ^^^ b.setWidth 32) >>> 8 = crc >>> 8 := by
    rw [BitVec.ushiftRight_xor_distrib]
    have hzero : b.setWidth 32 >>> 8 = 0 := by
      apply BitVec.eq_of_getLsbD_eq
      intro i _
      rw [BitVec.getLsbD_ushiftRight, hhigh _ (Nat.le_add_right 8 i)]
      simp
    rw [hzero]
    exact BitVec.xor_zero
  have hindex : ((crc ^^^ b.setWidth 32) &&& 0x000000FF).toNat < 256 := by
    rw [BitVec.toNat_and]
    exact lt_of_le_of_lt Nat.and_le_right (by decide)
  rw [← bitsOf_setWidth, feedAll_bitsOf (by decide) hhigh, steps_split, hshift, crc32Byte, hmask,
    crc32Table_eq hindex, BitVec.ofNat_toNat, BitVec.setWidth_eq]
  rfl

/-- Appending a string feeds the register its bits. -/
theorem btCrc32Append_eq (ctx : Crc32Context) (data : List (BitVec 8)) :
    (btCrc32Append ctx data).crc32 = (messageBits data).foldl (feed crc32Poly) ctx.crc32 := by
  rw [btCrc32Append, messageBits, List.foldl_flatMap]
  have hbyte : crc32Byte = fun crc b => (bitsOf b 8).foldl (feed crc32Poly) crc := by
    funext crc b
    exact crc32Byte_eq crc b
  rw [hbyte]

/-- Appending two pieces is appending them as one. -/
theorem btCrc32Append_append (ctx : Crc32Context) (xs ys : List (BitVec 8)) :
    btCrc32Append (btCrc32Append ctx xs) ys = btCrc32Append ctx (xs ++ ys) := by
  rw [btCrc32Append, btCrc32Append, btCrc32Append, List.foldl_append]

/-- It does not matter into which pieces the data is cut. -/
theorem btCrc32Append_pieces (ctx : Crc32Context) (pieces : List (List (BitVec 8))) :
    pieces.foldl btCrc32Append ctx = btCrc32Append ctx pieces.flatten := by
  induction pieces generalizing ctx with
  | nil => rfl
  | cons xs pieces ih => rw [List.foldl_cons, ih, btCrc32Append_append, List.flatten_cons]

/-- The digest, read as a little-endian word. -/
theorem leWord_finish (ctx : Crc32Context) :
    leWord (btCrc32Finish ctx).1 = ctx.crc32 ^^^ 0xFFFFFFFF := by
  have hword : ∀ c : BitVec 32, leWord [c.setWidth 8, (c >>> 8).setWidth 8, (c >>> 16).setWidth 8,
      (c >>> 24).setWidth 8] = c := by
    intro c
    apply BitVec.eq_of_getLsbD_eq
    intro i hi
    simp only [leWord, BitVec.getLsbD_or, BitVec.getLsbD_setWidth, BitVec.getLsbD_shiftLeft,
      BitVec.getLsbD_ushiftRight, hi, decide_true, Bool.true_and]
    rcases (by omega : i < 8 ∨ 8 ≤ i ∧ i < 16 ∨ 16 ≤ i ∧ i < 24 ∨ 24 ≤ i) with h | h | h | h
    · simp [h, show i < 16 by omega, show i < 24 by omega]
    · simp [show ¬ i < 8 by omega, h.2, show i < 24 by omega, show i - 8 < 8 by omega,
        show i - 8 < 32 by omega, show 8 + (i - 8) = i by omega]
    · simp [show ¬ i < 8 by omega, show ¬ i < 16 by omega, h.2, show ¬ i - 8 < 8 by omega,
        show i - 16 < 8 by omega, show i - 16 < 32 by omega, show 16 + (i - 16) = i by omega]
    · simp [show ¬ i < 8 by omega, show ¬ i < 16 by omega, show ¬ i < 24 by omega,
        show ¬ i - 8 < 8 by omega, show ¬ i - 16 < 8 by omega, show i - 24 < 8 by omega,
        show i - 24 < 32 by omega, show 24 + (i - 24) = i by omega]
  exact hword _

/-- **CRC-32 is the standard one.** The digest of a string, read as a little-endian word, is its
CRC-32; a context that was initialised, or that has just been finished, and is then given the
string in any pieces has the same digest. -/
theorem crc32_standard :
    (∀ data : List (BitVec 8), leWord (btCrc32 data) = crc32Reference data) ∧
    (∀ pieces : List (List (BitVec 8)),
      (btCrc32Finish (pieces.foldl btCrc32Append btCrc32Init)).1 = btCrc32 pieces.flatten) ∧
    ∀ (ctx : Crc32Context) (pieces : List (List (BitVec 8))),
      (btCrc32Finish (pieces.foldl btCrc32Append (btCrc32Finish ctx).2)).1 =
        btCrc32 pieces.flatten := by
  refine ⟨fun data => ?_, fun pieces => ?_, fun ctx pieces => ?_⟩
  · rw [btCrc32, leWord_finish, btCrc32Append_eq]
    rfl
  · rw [btCrc32Append_pieces]
    rfl
  · rw [btCrc32Append_pieces]
    rfl

/-- The check value of the standard, for the digits from one to nine. -/
example : btCrc32 [0x31, 0x32, 0x33, 0x34, 0x35, 0x36, 0x37, 0x38, 0x39] =
    [0x26, 0x39, 0xF4, 0xCB] := by
  decide +kernel

end BitThunder
