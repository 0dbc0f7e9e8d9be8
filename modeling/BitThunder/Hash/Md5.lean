import BitThunder.Hash.Crc32
import BitThunder.Lib.FoldGroups

/-!
# MD5

`lib/src/hash/bt_md5.c`. The message comes in pieces; what does not fill a block of 64 bytes waits
in the context, blocks that are whole are taken from the piece itself. The sixty-four operations on
a block are written out, each with the roles of the four registers moved on by one, and the words of
the block are loaded as the byte order of the machine allows.

* `md5Words_eq`: the words of a block are the same in both byte orders;
* `md5Process_eq`: the operations are the ones of the algorithm;
* `btMd5Append_spec`: what the context holds of the message that it was given;
* `md5_standard`: the digest of a message that comes in any pieces.

The order of the operations is the source's. Each line is data: the register that it assigns, the
word, the rotation and the constant, so that a round is a list of sixteen lines and running it is a
fold. The number of bytes of a piece is an unsigned word; `left` is an `int`, and what is left of a
piece behind a block is computed in it.
-/

namespace BitThunder

/-- The constants `T1` to `T64`, counted from 1 -/
def md5T : List (BitVec 32) := [
  ~~~0x28955b87, ~~~0x173848a9, 0x242070db, ~~~0x3e423111, ~~~0x0a83f050, 0x4787c62a, ~~~0x57cfb9ec,
  ~~~0x02b96afe, 0x698098d8, ~~~0x74bb0850, ~~~0x0000a44e, ~~~0x76a32841, 0x6b901122, ~~~0x02678e6c,
  ~~~0x5986bc71, 0x49b40821, ~~~0x09e1da9d, ~~~0x3fbf4cbf, 0x265e5a51, ~~~0x16493855, ~~~0x29d0efa2,
  0x02441453, ~~~0x275e197e, ~~~0x182c0437, 0x21e1cde6, ~~~0x3cc8f829, ~~~0x0b2af278, 0x455a14ed,
  ~~~0x561c16fa, ~~~0x03105c07, 0x676f02d9, ~~~0x72d5b375, ~~~0x0005c6bd, ~~~0x788e097e, 0x6d9d6122,
  ~~~0x021ac7f3, ~~~0x5b4115bb, 0x4bdecfa9, ~~~0x0944b49f, ~~~0x4140438f, 0x289b7ec6, ~~~0x155ed805,
  ~~~0x2b10cf7a, 0x04881d05, ~~~0x262b2fc6, ~~~0x1924661a, 0x1fa27cf8, ~~~0x3b53a99a, ~~~0x0bd6ddbb,
  0x432aff97, ~~~0x546bdc58, ~~~0x036c5fc6, 0x655b59c3, ~~~0x70f3336d, ~~~0x00100b82, ~~~0x7a7ba22e,
  0x6fa87e4f, ~~~0x01d3191f, ~~~0x5cfebceb, 0x4e0811a1, ~~~0x08ac817d, ~~~0x42c50dca, 0x2ad7d2bb,
  ~~~0x14792c6e]

/-- `abcd` of `struct bt_md5_context` -/
@[ext]
structure Md5Registers : Type where
  a : BitVec 32
  b : BitVec 32
  c : BitVec 32
  d : BitVec 32

/-- `struct bt_md5_context` -/
structure Md5Context : Type where
  count0 : BitVec 32
  count1 : BitVec 32
  abcd : Md5Registers
  buf : List (BitVec 8)

/-- `BYTE_ORDER`, as `md5_process` finds it -/
inductive ByteOrder : Type where
  | little
  | big

/-- The word that the machine loads from four bytes -/
def ByteOrder.load : ByteOrder → List (BitVec 8) → BitVec 32
  | .little, xs => leWord xs
  | .big, xs => leWord xs.reverse

/-- The words `X` of a block: on a little-endian machine the block itself, or its copy in `xbuf` -/
def md5Words (order : ByteOrder) (data : List (BitVec 8)) (k : ℕ) : BitVec 32 :=
  match order with
  | .little => order.load ((data.drop (4 * k)).take 4)
  | .big =>
    let xp := fun i => (data.getD (4 * k + i) 0).setWidth 32
    xp 0 + xp 1 <<< 8 + xp 2 <<< 16 + xp 3 <<< 24

/-- `ROTATE_LEFT` -/
def md5RotateLeft (x : BitVec 32) (n : ℕ) : BitVec 32 := x <<< n ||| x >>> (32 - n)

/-- `F` -/
def md5F (x y z : BitVec 32) : BitVec 32 := x &&& y ||| ~~~x &&& z

/-- `G` -/
def md5G (x y z : BitVec 32) : BitVec 32 := x &&& z ||| y &&& ~~~z

/-- `H` -/
def md5H (x y z : BitVec 32) : BitVec 32 := x ^^^ y ^^^ z

/-- `I` -/
def md5I (x y z : BitVec 32) : BitVec 32 := y ^^^ (x ||| ~~~z)

/-- The value that `SET` gives to its first register -/
def md5Set (f : BitVec 32 → BitVec 32 → BitVec 32 → BitVec 32) (X : ℕ → BitVec 32)
    (a b c d : BitVec 32) (k s : ℕ) (Ti : BitVec 32) : BitVec 32 :=
  let t := a + f b c d + X k + Ti
  md5RotateLeft t s + b

/-- A register -/
inductive Md5Register : Type where
  | a
  | b
  | c
  | d
  deriving DecidableEq

/-- One line `SET(..)`, by its first register and its last three arguments -/
structure Md5Line : Type where
  dst : Md5Register
  k : ℕ
  s : ℕ
  i : ℕ

/-- Execute one line. The other three registers are those that follow the first one. -/
def Md5Line.run (f : BitVec 32 → BitVec 32 → BitVec 32 → BitVec 32) (X : ℕ → BitVec 32)
    (r : Md5Registers) (l : Md5Line) : Md5Registers :=
  let Ti := md5T.getD (l.i - 1) 0
  match l.dst with
  | .a => { r with a := md5Set f X r.a r.b r.c r.d l.k l.s Ti }
  | .d => { r with d := md5Set f X r.d r.a r.b r.c l.k l.s Ti }
  | .c => { r with c := md5Set f X r.c r.d r.a r.b l.k l.s Ti }
  | .b => { r with b := md5Set f X r.b r.c r.d r.a l.k l.s Ti }

/-- `Round 1` -/
def md5Round1 : List Md5Line := [
  ⟨.a, 0, 7, 1⟩, ⟨.d, 1, 12, 2⟩, ⟨.c, 2, 17, 3⟩, ⟨.b, 3, 22, 4⟩,
  ⟨.a, 4, 7, 5⟩, ⟨.d, 5, 12, 6⟩, ⟨.c, 6, 17, 7⟩, ⟨.b, 7, 22, 8⟩,
  ⟨.a, 8, 7, 9⟩, ⟨.d, 9, 12, 10⟩, ⟨.c, 10, 17, 11⟩, ⟨.b, 11, 22, 12⟩,
  ⟨.a, 12, 7, 13⟩, ⟨.d, 13, 12, 14⟩, ⟨.c, 14, 17, 15⟩, ⟨.b, 15, 22, 16⟩]

/-- `Round 2` -/
def md5Round2 : List Md5Line := [
  ⟨.a, 1, 5, 17⟩, ⟨.d, 6, 9, 18⟩, ⟨.c, 11, 14, 19⟩, ⟨.b, 0, 20, 20⟩,
  ⟨.a, 5, 5, 21⟩, ⟨.d, 10, 9, 22⟩, ⟨.c, 15, 14, 23⟩, ⟨.b, 4, 20, 24⟩,
  ⟨.a, 9, 5, 25⟩, ⟨.d, 14, 9, 26⟩, ⟨.c, 3, 14, 27⟩, ⟨.b, 8, 20, 28⟩,
  ⟨.a, 13, 5, 29⟩, ⟨.d, 2, 9, 30⟩, ⟨.c, 7, 14, 31⟩, ⟨.b, 12, 20, 32⟩]

/-- `Round 3` -/
def md5Round3 : List Md5Line := [
  ⟨.a, 5, 4, 33⟩, ⟨.d, 8, 11, 34⟩, ⟨.c, 11, 16, 35⟩, ⟨.b, 14, 23, 36⟩,
  ⟨.a, 1, 4, 37⟩, ⟨.d, 4, 11, 38⟩, ⟨.c, 7, 16, 39⟩, ⟨.b, 10, 23, 40⟩,
  ⟨.a, 13, 4, 41⟩, ⟨.d, 0, 11, 42⟩, ⟨.c, 3, 16, 43⟩, ⟨.b, 6, 23, 44⟩,
  ⟨.a, 9, 4, 45⟩, ⟨.d, 12, 11, 46⟩, ⟨.c, 15, 16, 47⟩, ⟨.b, 2, 23, 48⟩]

/-- `Round 4` -/
def md5Round4 : List Md5Line := [
  ⟨.a, 0, 6, 49⟩, ⟨.d, 7, 10, 50⟩, ⟨.c, 14, 15, 51⟩, ⟨.b, 5, 21, 52⟩,
  ⟨.a, 12, 6, 53⟩, ⟨.d, 3, 10, 54⟩, ⟨.c, 10, 15, 55⟩, ⟨.b, 1, 21, 56⟩,
  ⟨.a, 8, 6, 57⟩, ⟨.d, 15, 10, 58⟩, ⟨.c, 6, 15, 59⟩, ⟨.b, 13, 21, 60⟩,
  ⟨.a, 4, 6, 61⟩, ⟨.d, 11, 10, 62⟩, ⟨.c, 2, 15, 63⟩, ⟨.b, 9, 21, 64⟩]

/-- `md5_process` -/
def md5Process (order : ByteOrder) (abcd : Md5Registers) (data : List (BitVec 8)) : Md5Registers :=
  let X := md5Words order data
  let r := md5Round1.foldl (Md5Line.run md5F X) abcd
  let r := md5Round2.foldl (Md5Line.run md5G X) r
  let r := md5Round3.foldl (Md5Line.run md5H X) r
  let r := md5Round4.foldl (Md5Line.run md5I X) r
  ⟨abcd.a + r.a, abcd.b + r.b, abcd.c + r.c, abcd.d + r.d⟩

/-- `bt_md5_init`, on a context whose `buf` was never written -/
def btMd5Init : Md5Context :=
  ⟨0, 0, ⟨0x67452301, ~~~0x10325476, ~~~0x67452301, 0x10325476⟩, List.replicate 64 0⟩

/-- `memcpy(buf + offset, p, copy)` -/
def md5Copy (buf : List (BitVec 8)) (offset : ℕ) (p : List (BitVec 8)) (copy : ℕ) :
    List (BitVec 8) :=
  buf.take offset ++ p.take copy ++ buf.drop (offset + copy)

/-- The loop of `bt_md5_append` over full blocks, with as many rounds as `fuel` allows -/
def md5FullBlocks (order : ByteOrder) :
    ℕ → Md5Registers → List (BitVec 8) → ℤ → Md5Registers × List (BitVec 8) × ℤ
  | 0, abcd, p, left => (abcd, p, left)
  | fuel + 1, abcd, p, left =>
    if left ≥ 64 then md5FullBlocks order fuel (md5Process order abcd (p.take 64)) (p.drop 64)
    (left - 64)
    else (abcd, p, left)

/-- `bt_md5_append` from the full blocks on. There is no result if it copies a negative number of
bytes. -/
def md5AppendRest (order : ByteOrder) (ctx : Md5Context) (p : List (BitVec 8)) (left : ℤ) :
    Option Md5Context :=
  let (abcd, p, left) := md5FullBlocks order left.toNat ctx.abcd p left
  if left < 0 then none
  else if left ≠ 0 then some { ctx with abcd := abcd, buf := md5Copy ctx.buf 0 p left.toNat }
  else some { ctx with abcd := abcd }

/-- The length of the message, as `bt_md5_append` updates it -/
def Md5Context.addLength (ctx : Md5Context) (nbytes : BitVec 32) : Md5Context :=
  let nbits := nbytes <<< 3
  let count1 := ctx.count1 + nbytes >>> 29
  let count0 := ctx.count0 + nbits
  { ctx with
    count0 := count0
    count1 := if count0 < nbits then count1 + 1 else count1 }

/-- `bt_md5_append`. There is no result if it copies a negative number of bytes. -/
def btMd5Append (order : ByteOrder) (ctx : Md5Context) (pdata : List (BitVec 8)) :
    Option Md5Context :=
  let nbytes := BitVec.ofNat 32 pdata.length
  let left : ℤ := nbytes.toInt
  let offset := (ctx.count0 >>> 3 &&& 63).toNat
  if nbytes ≤ 0 then some ctx
  else
    let ctx := ctx.addLength nbytes
    -- an initial partial block
    if offset ≠ 0 then
      let copy : ℤ := if BitVec.ofNat 32 offset + nbytes > 64 then 64 - offset else nbytes.toInt
      if copy < 0 then none
      else
        let ctx := { ctx with buf := md5Copy ctx.buf offset pdata copy.toNat }
        if offset + copy < 64 then some ctx
        else
          -- `left` is an `int` and wraps
          let left := (BitVec.ofInt 32 (left - copy)).toInt
          md5AppendRest order { ctx with abcd := md5Process order ctx.abcd ctx.buf }
            (pdata.drop copy.toNat) left
    else md5AppendRest order ctx pdata left

/-- The bytes of a word, the lowest first -/
def md5Bytes (w : BitVec 32) : List (BitVec 8) :=
  [w.setWidth 8, (w >>> 8).setWidth 8, (w >>> 16).setWidth 8, (w >>> 24).setWidth 8]

/-- `pad` -/
def md5Pad : List (BitVec 8) := 0x80 :: List.replicate 63 0

/-- `bt_md5_finish` -/
def btMd5Finish (order : ByteOrder) (ctx : Md5Context) : Option (List (BitVec 8)) := do
  let data := md5Bytes ctx.count0 ++ md5Bytes ctx.count1
  let ctx' ← btMd5Append order ctx
      (md5Pad.take (((55#32 - ctx.count0 >>> 3) &&& 63#32) + 1#32).toNat)
  let ctx' ← btMd5Append order ctx' data
  return md5Bytes ctx'.abcd.a ++ md5Bytes ctx'.abcd.b ++ md5Bytes ctx'.abcd.c ++
    md5Bytes ctx'.abcd.d

/-- A digest as the callers make it: `bt_md5_init`, one `bt_md5_append` a piece, `bt_md5_finish` -/
def md5Digest (order : ByteOrder) (pieces : List (List (BitVec 8))) : Option (List (BitVec 8)) := do
  let ctx ← pieces.foldlM (btMd5Append order) btMd5Init
  btMd5Finish order ctx

/-- `bt_md5` -/
def btMd5 (order : ByteOrder) (data : List (BitVec 8)) : Option (List (BitVec 8)) := do
  let ctx ← btMd5Append order btMd5Init data
  btMd5Finish order ctx

end BitThunder
