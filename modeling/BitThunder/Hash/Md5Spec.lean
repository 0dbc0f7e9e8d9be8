import BitThunder.Hash.Md5

/-!
# The digest of a message in pieces

MD5 as an algorithm on a whole message: it is padded to whole blocks, the last eight bytes hold its
length in bits, and each block takes the registers through sixty-four steps, which are given by
their number. What `bt_md5_append` keeps is the state after the blocks that are complete and the
bytes behind them.

* `md5Process_eq`: the operations as they are written out are the steps in their order;
* `btMd5Append_spec`: a piece is taken in if the number of bytes behind the block that it completes
  is an `int`;
* `md5_standard`: the digest of a message in pieces.

There are two separate arguments. One is about a block: the sixty-four lines as they are written out
are the sixty-four steps of the algorithm, with the roles of the registers moved on by one each
time. A line is a step in the view of the registers at that step, and after four of them the view is
back.

The other one is about pieces. The context holds the length in bits as two words with a carry, the
registers after the blocks that are complete, and the bytes behind them. A piece that does not
complete the block waits with what was there; one that does is a block from the buffer, the full
blocks in it, and what is left. That folding in groups does not depend on the cuts is the library's.
The condition on a piece is that what is left of it is an `int`; the loop does not run otherwise,
and what is copied at the end is a negative number of bytes.
-/

namespace BitThunder

/-! ## The algorithm

Everything is given by the number of the step: which word, which rotation, which constant and which
function. -/

/-- The integer parts of `2 ^ 32` times the sines of 1 to 64, without their signs -/
def md5Sines : List (BitVec 32) := [
  0xd76aa478, 0xe8c7b756, 0x242070db, 0xc1bdceee, 0xf57c0faf, 0x4787c62a, 0xa8304613, 0xfd469501,
  0x698098d8, 0x8b44f7af, 0xffff5bb1, 0x895cd7be, 0x6b901122, 0xfd987193, 0xa679438e, 0x49b40821,
  0xf61e2562, 0xc040b340, 0x265e5a51, 0xe9b6c7aa, 0xd62f105d, 0x02441453, 0xd8a1e681, 0xe7d3fbc8,
  0x21e1cde6, 0xc33707d6, 0xf4d50d87, 0x455a14ed, 0xa9e3e905, 0xfcefa3f8, 0x676f02d9, 0x8d2a4c8a,
  0xfffa3942, 0x8771f681, 0x6d9d6122, 0xfde5380c, 0xa4beea44, 0x4bdecfa9, 0xf6bb4b60, 0xbebfbc70,
  0x289b7ec6, 0xeaa127fa, 0xd4ef3085, 0x04881d05, 0xd9d4d039, 0xe6db99e5, 0x1fa27cf8, 0xc4ac5665,
  0xf4292244, 0x432aff97, 0xab9423a7, 0xfc93a039, 0x655b59c3, 0x8f0ccc92, 0xffeff47d, 0x85845dd1,
  0x6fa87e4f, 0xfe2ce6e0, 0xa3014314, 0x4e0811a1, 0xf7537e82, 0xbd3af235, 0x2ad7d2bb, 0xeb86d391]

/-- The function of step `i` -/
def md5Mix (i : ℕ) : BitVec 32 → BitVec 32 → BitVec 32 → BitVec 32 :=
  match i / 16 with
  | 0 => md5F
  | 1 => md5G
  | 2 => md5H
  | _ => md5I

/-- The word of the block that step `i` adds -/
def md5Word (i : ℕ) : ℕ :=
  match i / 16 with
  | 0 => i % 16
  | 1 => (5 * i + 1) % 16
  | 2 => (3 * i + 5) % 16
  | _ => 7 * i % 16

/-- The amount of the rotation in step `i` -/
def md5Shift (i : ℕ) : ℕ :=
  ([[7, 12, 17, 22], [5, 9, 14, 20], [4, 11, 16, 23], [6, 10, 15, 21]].getD (i / 16) []).getD
  (i % 4) 0

/-- Step `i`: a new value for the first of the four, and each has the role of the next. -/
def md5Step (X : ℕ → BitVec 32) (r : Md5Registers) (i : ℕ) : Md5Registers :=
  ⟨r.d, r.b + (r.a + md5Mix i r.b r.c r.d + X (md5Word i) + md5Sines.getD i 0).rotateLeft
  (md5Shift i), r.b, r.c⟩

/-- A block of sixteen words, the lowest byte of each first -/
def md5Block (r : Md5Registers) (data : List (BitVec 8)) : Md5Registers :=
  let s := (List.range 64).foldl (md5Step fun k => leWord ((data.drop (4 * k)).take 4)) r
  ⟨r.a + s.a, r.b + s.b, r.c + s.c, r.d + s.d⟩

/-- The registers before the first block -/
def md5Start : Md5Registers := ⟨0x67452301, 0xefcdab89, 0x98badcfe, 0x10325476⟩

/-- The zeros behind the one bit of the padding: up to eight bytes before the end of a block -/
def md5Zeros (length : ℕ) : ℕ := (119 - length % 64) % 64

/-- The padded message. The length in bits is taken modulo `2 ^ 64`. -/
def md5Padded (msg : List (BitVec 8)) : List (BitVec 8) :=
  let bits := BitVec.ofNat 64 (8 * msg.length)
  msg ++ (0x80#8 :: List.replicate (md5Zeros msg.length) 0) ++
    (md5Bytes (bits.setWidth 32) ++ md5Bytes ((bits >>> 32).setWidth 32))

/-- MD5 -/
def md5Reference (msg : List (BitVec 8)) : List (BitVec 8) :=
  let r := foldWhole 64 md5Block md5Start (md5Padded msg)
  md5Bytes r.a ++ md5Bytes r.b ++ md5Bytes r.c ++ md5Bytes r.d

/-! ## The operations on a block

A line names its registers, and the algorithm moves them on. The two views of the four registers are
related by a rotation that comes round every four lines. -/

/-- A byte moved up from the others does not carry. -/
theorem add_shift_eq_or {x y : BitVec 32} {n : ℕ} (hx : ∀ i, n ≤ i → x.getLsbD i = false) :
    x + y <<< n = x ||| y <<< n := by
  refine BitVec.add_eq_or_of_and_eq_zero _ _ (BitVec.eq_of_getLsbD_eq fun i _ => ?_)
  rw [BitVec.getLsbD_and, BitVec.getLsbD_shiftLeft]
  by_cases hi : i < n
  · simp [hi]
  · simp [hx i (not_lt.mp hi)]

/-- The bits of a byte in its place are below those of the next one. -/
theorem getLsbD_byte_shift {x : BitVec 8} {n i : ℕ} (hi : n + 8 ≤ i) :
    ((x.setWidth 32) <<< n).getLsbD i = false := by
  simp [BitVec.getLsbD_of_ge x (i - n) (by omega)]

theorem exists_four {xs : List (BitVec 8)} (h : 4 ≤ xs.length) :
    ∃ a b c d rest, xs = a :: b :: c :: d :: rest := by
  rcases xs with _ | ⟨a, _ | ⟨b, _ | ⟨c, _ | ⟨d, rest⟩⟩⟩⟩
  · simp at h
  · simp at h
  · simp at h
  · simp at h
  · exact ⟨a, b, c, d, rest, rfl⟩

/-- The words of a block are the same in both byte orders. -/
theorem md5Words_eq (order : ByteOrder) {data : List (BitVec 8)} {k : ℕ}
    (hk : 4 * k + 4 ≤ data.length) :
    md5Words order data k = leWord ((data.drop (4 * k)).take 4) := by
  cases order with
  | little => rfl
  | big =>
    have hdrop : ∀ i, data.getD (4 * k + i) 0 = (data.drop (4 * k)).getD i 0 := by
      intro i
      rw [List.getD_eq_getElem?_getD, List.getD_eq_getElem?_getD, List.getElem?_drop]
    have hlen : 4 ≤ (data.drop (4 * k)).length := by
      rw [List.length_drop]
      omega
    obtain ⟨a, b, c, d, rest, hbytes⟩ := exists_four hlen
    simp only [md5Words, hdrop, hbytes]
    change a.setWidth 32 + b.setWidth 32 <<< 8 + c.setWidth 32 <<< 16 + d.setWidth 32 <<< 24 = _
    have ha : ∀ i, 8 ≤ i → (a.setWidth 32).getLsbD i = false := fun i hi => by
      simp [BitVec.getLsbD_of_ge a i hi]
    have hb : ∀ i, 16 ≤ i → (a.setWidth 32 ||| b.setWidth 32 <<< 8).getLsbD i = false :=
      fun i hi => by
      rw [BitVec.getLsbD_or, ha i (by omega), getLsbD_byte_shift hi]
      rfl
    have hc : ∀ i, 24 ≤ i →
        (a.setWidth 32 ||| b.setWidth 32 <<< 8 ||| c.setWidth 32 <<< 16).getLsbD i = false :=
        fun i hi => by
      rw [BitVec.getLsbD_or, hb i (by omega), getLsbD_byte_shift hi]
      rfl
    rw [add_shift_eq_or ha, add_shift_eq_or hb, add_shift_eq_or hc]
    rfl

/-- The register that line `i` assigns -/
def md5Dst (i : ℕ) : Md5Register :=
  match i % 4 with
  | 0 => .a
  | 1 => .d
  | 2 => .c
  | _ => .b

/-- The line of step `i` -/
def md5LineOf (i : ℕ) : Md5Line := ⟨md5Dst i, md5Word i, md5Shift i, i + 1⟩

/-- The registers by their roles in step `i` -/
def Md5Registers.view (i : ℕ) (r : Md5Registers) : Md5Registers :=
  match i % 4 with
  | 0 => r
  | 1 => ⟨r.d, r.a, r.b, r.c⟩
  | 2 => ⟨r.c, r.d, r.a, r.b⟩
  | _ => ⟨r.b, r.c, r.d, r.a⟩

theorem md5RotateLeft_eq (x : BitVec 32) {n : ℕ} (hn : n < 32) :
    md5RotateLeft x n = x.rotateLeft n := by
  rw [md5RotateLeft, BitVec.rotateLeft_def, Nat.mod_eq_of_lt hn]

/-- The table of the source is the table of the sines. -/
theorem md5T_eq : md5T = md5Sines := by decide

theorem md5Shift_lt {i : ℕ} (hi : i < 64) : md5Shift i < 32 := by
  have hall : ∀ i < 64, md5Shift i < 32 := by decide
  exact hall i hi

/-- A line is a step, with the roles moved on. -/
theorem md5Line_run (X : ℕ → BitVec 32) (r : Md5Registers) {i : ℕ} (hi : i < 64) :
    ((md5LineOf i).run (md5Mix i) X r).view (i + 1) = md5Step X (r.view i) i := by
  have hset : ∀ a b c d : BitVec 32, md5Set (md5Mix i) X a b c d (md5Word i) (md5Shift i)
      (md5T[i]?.getD 0#32) =
      b + (a + md5Mix i b c d + X (md5Word i) + md5Sines[i]?.getD 0#32).rotateLeft
      (md5Shift i) := by
    intro a b c d
    rw [md5Set, md5RotateLeft_eq _ (md5Shift_lt hi), BitVec.add_comm, md5T_eq]
  have hmod := Nat.mod_lt i (by decide : 0 < 4)
  -- the four roles
  rcases (by omega : i % 4 = 0 ∨ i % 4 = 1 ∨ i % 4 = 2 ∨ i % 4 = 3) with h | h | h | h <;>
    simp [md5LineOf, md5Dst, Md5Registers.view, Md5Line.run, md5Step, Nat.add_mod, h, hset]

/-- A round is its sixteen steps. -/
theorem md5Round_run (X : ℕ → BitVec 32) (r : Md5Registers)
    (f : BitVec 32 → BitVec 32 → BitVec 32 → BitVec 32)
    (start n : ℕ) (hf : ∀ i, start ≤ i → i < start + n → i < 64 ∧ md5Mix i = f) :
    (((List.range' start n).map md5LineOf).foldl (Md5Line.run f X) r).view (start + n) =
      (List.range' start n).foldl (md5Step X) (r.view start) := by
  induction n generalizing start r with
  | zero => rfl
  | succ n ih =>
    obtain ⟨hstart, hfun⟩ := hf start le_rfl (by omega)
    have hrest := ih ((md5LineOf start).run f X r) (start + 1) fun i hle hlt => hf i
      (by omega) (by omega)
    rw [List.range'_succ, List.map_cons, List.foldl_cons, List.foldl_cons, Nat.add_comm n 1,
      ← Nat.add_assoc, hrest, ← hfun, md5Line_run X r hstart]

/-- The words of a block are all that the steps need. -/
theorem md5Steps_congr {X Y : ℕ → BitVec 32} (h : ∀ k < 16, X k = Y k) (is : List ℕ)
    (r : Md5Registers) :
    is.foldl (md5Step X) r = is.foldl (md5Step Y) r := by
  have hword : ∀ i, md5Word i < 16 := by
    intro i
    unfold md5Word
    split <;> exact Nat.mod_lt _ (by decide)
  have hstep : md5Step X = md5Step Y := by
    funext r i
    rw [md5Step, md5Step, h _ (hword i)]
  rw [hstep]

/-- **The operations are the algorithm's.** -/
theorem md5Process_eq (order : ByteOrder) (r : Md5Registers) {data : List (BitVec 8)}
    (hlen : data.length = 64) :
    md5Process order r data = md5Block r data := by
  have hone : md5Round1 = (List.range' 0 16).map md5LineOf := rfl
  have htwo : md5Round2 = (List.range' 16 16).map md5LineOf := rfl
  have hthree : md5Round3 = (List.range' 32 16).map md5LineOf := rfl
  have hfour : md5Round4 = (List.range' 48 16).map md5LineOf := rfl
  have hrange : List.range 64 = List.range' 0 16 ++ List.range' 16 16 ++ List.range' 32 16 ++
      List.range' 48 16 := by
    decide
  have hwords : ∀ k < 16, md5Words order data k = leWord ((data.drop (4 * k)).take 4) := fun k hk =>
    md5Words_eq order (by omega)
  -- after sixteen steps the roles are where they were
  have hround := fun f start r hf => md5Round_run (md5Words order data) r f start 16 hf
  have h1 :=
    hround md5F 0 r fun i hle hlt => ⟨by omega, by simp only [md5Mix, show i / 16 = 0 by omega]⟩
  have h2 := fun r => hround md5G 16 r fun i hle
    hlt => ⟨by omega, by simp only [md5Mix, show i / 16 = 1 by omega]⟩
  have h3 := fun r => hround md5H 32 r fun i hle
    hlt => ⟨by omega, by simp only [md5Mix, show i / 16 = 2 by omega]⟩
  have h4 := fun r => hround md5I 48 r fun i hle
    hlt => ⟨by omega, by simp only [md5Mix, show i / 16 = 3 by omega]⟩
  rw [md5Block, ← md5Steps_congr hwords, md5Process, hone, htwo, hthree, hfour, hrange,
    List.foldl_append, List.foldl_append, List.foldl_append]
  simp only [Md5Registers.view] at h1 h2 h3 h4
  rw [h1, h2, h3, h4]

/-! ## The context

What the context holds is stated for any message, also one that does not end with a block. -/

/-- The bytes that the block which waits is short of, if one does -/
def md5Missing (n : ℕ) : ℕ := (64 - n % 64) % 64

/-- Pieces behind `n` bytes of a message: what is left of each behind the block that it completes is
an `int`. -/
def md5Fits : ℕ → List (List (BitVec 8)) → Prop
  | _, [] => True
  | n, xs :: pieces => xs.length < 2 ^ 31 + md5Missing n ∧ md5Fits (n + xs.length) pieces

/-- What a context holds of a message: its length in bits, the registers after the blocks that are
complete, and the bytes behind them. -/
structure Md5Context.Holds (ctx : Md5Context) (msg : List (BitVec 8)) : Prop where
  /-- the two words count the bits -/
  count : ctx.count1.toNat * 2 ^ 32 + ctx.count0.toNat = 8 * msg.length % 2 ^ 64
  /-- all whole blocks have been taken in -/
  abcd : ctx.abcd = foldWhole 64 md5Block md5Start msg
  length : ctx.buf.length = 64
  /-- what is left of the message is at the beginning of the buffer -/
  buf : ctx.buf.take (msg.length % 64) = left 64 msg

theorem btMd5Init_holds : btMd5Init.Holds [] :=
  ⟨rfl, rfl, rfl, rfl⟩

theorem length_md5Copy {buf p : List (BitVec 8)} {offset copy : ℕ}
    (hbuf : offset + copy ≤ buf.length) (hp : copy ≤ p.length) :
    (md5Copy buf offset p copy).length = buf.length := by
  rw [md5Copy, List.length_append, List.length_append, List.length_take, List.length_take,
    List.length_drop]
  omega

/-- The bytes copied stand behind those that were there. -/
theorem take_md5Copy {buf p : List (BitVec 8)} {offset copy : ℕ} (hbuf : offset ≤ buf.length)
    (hp : copy ≤ p.length) : (md5Copy buf offset p copy).take
    (offset + copy) = buf.take offset ++ p.take copy := by
  have hlen : (buf.take offset ++ p.take copy).length = offset + copy := by
    rw [List.length_append, List.length_take, List.length_take]
    omega
  rw [md5Copy, ← hlen, List.take_left]

/-- The loop takes all full blocks. -/
theorem md5FullBlocks_eq (order : ByteOrder) (fuel : ℕ) (abcd : Md5Registers) (p : List (BitVec 8))
    (hfuel : p.length ≤ fuel) :
    md5FullBlocks order fuel abcd p p.length =
    (foldWhole 64 md5Block abcd p, left 64 p, ((left 64 p).length : ℤ)) := by
  induction fuel generalizing abcd p with
  | zero =>
    obtain rfl := List.eq_nil_of_length_eq_zero (Nat.le_zero.mp hfuel)
    rfl
  | succ fuel ih =>
    by_cases hfull : 64 ≤ p.length
    · have hlen : (p.length : ℤ) - 64 = (p.drop 64).length := by
        rw [List.length_drop]
        omega
      have htake : (p.take 64).length = 64 := by
        rw [List.length_take]
        omega
      have hdrop : (p.drop 64).length ≤ fuel := by
        rw [List.length_drop]
        omega
      rw [md5FullBlocks,
        if_pos (by exact_mod_cast hfull), hlen, ih _ _ hdrop, md5Process_eq order abcd htake,
        ← foldWhole_group (by decide) hfull, ← left_group (by decide) hfull]
    · have hshort : p.length < 64 := not_le.mp hfull
      rw [md5FullBlocks,
        if_neg (by exact_mod_cast hfull), foldWhole_short hshort, left_short hshort]

/-- The full blocks and the last part: what is left is in front of the buffer. -/
theorem md5AppendRest_eq (order : ByteOrder) (ctx : Md5Context) (p : List (BitVec 8)) :
    md5AppendRest order ctx p p.length =
      some { ctx with
        abcd := foldWhole 64 md5Block ctx.abcd p
        buf := md5Copy ctx.buf 0 (left 64 p) (left 64 p).length } := by
  have hloop := md5FullBlocks_eq order p.length ctx.abcd p le_rfl
  rw [md5AppendRest, Int.toNat_natCast, hloop]
  by_cases hnone : (left 64 p).length = 0
  · have hnil := List.eq_nil_of_length_eq_zero hnone
    simp [hnil, md5Copy]
  · have hneg : ¬ (((left 64 p).length : ℤ) < 0) := by omega
    have hne : ((left 64 p).length : ℤ) ≠ 0 := by omega
    simp only [if_neg hneg, if_pos hne, Int.toNat_natCast]

/-- Nothing is appended of a piece whose length is not an `int`. -/
theorem md5AppendRest_none (order : ByteOrder) (ctx : Md5Context) (p : List (BitVec 8)) {n : ℤ}
    (hn : n < 0) :
    md5AppendRest order ctx p n = none := by
  have hloop : md5FullBlocks order n.toNat ctx.abcd p n = (ctx.abcd, p, n) := by
    rw [Int.toNat_of_nonpos hn.le]
    rfl
  rw [md5AppendRest, hloop]
  exact if_pos hn

/-- The bytes that wait, counted from the length in bits -/
theorem Md5Context.Holds.offset {ctx : Md5Context} {msg : List (BitVec 8)} (h : ctx.Holds msg) :
    (ctx.count0 >>> 3 &&& 63).toNat = msg.length % 64 := by
  have hcount := h.count
  have hlt := ctx.count0.isLt
  rw [BitVec.toNat_and, BitVec.toNat_ushiftRight, Nat.shiftRight_eq_div_pow,
    show (63 : BitVec 32).toNat = 2 ^ 6 - 1 from rfl, Nat.and_two_pow_sub_one_eq_mod]
  omega

/-- Two words as one number of 64 bits, and a sum with a carry between them -/
theorem carry_add {x y l k : ℕ} (hx : x < 2 ^ 32) (hl : l < 2 ^ 32) :
    (if (x + l) % 2 ^ 32 < l then (y + k + 1) % 2 ^ 32 else (y + k) % 2 ^ 32) * 2 ^ 32 + (x + l) %
      2 ^ 32 =
      (y * 2 ^ 32 + x + (k * 2 ^ 32 + l)) % 2 ^ 64 := by
  split_ifs with hcarry
  · have hlow : (x + l) % 2 ^ 32 = x + l - 2 ^ 32 := by omega
    rw [hlow]
    omega
  · have hlow : (x + l) % 2 ^ 32 = x + l := by omega
    rw [hlow]
    omega

/-- The length of the message goes up by that of the piece. -/
theorem addLength_count {ctx : Md5Context} {m n : ℕ} (hn : n < 2 ^ 32)
    (h : ctx.count1.toNat * 2 ^ 32 + ctx.count0.toNat = 8 * m % 2 ^ 64) :
    (ctx.addLength (BitVec.ofNat 32 n)).count1.toNat * 2 ^ 32 +
    (ctx.addLength (BitVec.ofNat 32 n)).count0.toNat =
      8 * (m + n) % 2 ^ 64 := by
  have hbits : (BitVec.ofNat 32 n <<< 3).toNat = 8 * n % 2 ^ 32 := by
    rw [BitVec.toNat_shiftLeft, BitVec.toNat_ofNat, Nat.mod_eq_of_lt hn, Nat.shiftLeft_eq,
      Nat.mul_comm]
  have hhigh : (BitVec.ofNat 32 n >>> 29).toNat = n / 2 ^ 29 := by
    rw [BitVec.toNat_ushiftRight, BitVec.toNat_ofNat, Nat.mod_eq_of_lt hn,
      Nat.shiftRight_eq_div_pow]
  have hsplit : 8 * n = n / 2 ^ 29 * 2 ^ 32 + 8 * n % 2 ^ 32 := by omega
  have hone : (ctx.count1 + BitVec.ofNat 32 n >>> 29 + 1).toNat =
      (ctx.count1.toNat + n / 2 ^ 29 + 1) % 2 ^ 32 := by
    rw [BitVec.toNat_add, BitVec.toNat_add, hhigh, Nat.mod_add_mod]
    rfl
  have hcarry := carry_add (y := ctx.count1.toNat) (k := n / 2 ^ 29) ctx.count0.isLt
    (Nat.mod_lt (8 * n) (by decide : 0 < 2 ^ 32))
  rw [h, ← hsplit, Nat.mod_add_mod, ← Nat.mul_add] at hcarry
  simp only [Md5Context.addLength, BitVec.lt_def, BitVec.toNat_add ctx.count0, hbits]
  rw [← hcarry, apply_ite BitVec.toNat, hone, BitVec.toNat_add, hhigh]

@[simp] theorem addLength_abcd (ctx : Md5Context) (n : BitVec 32) :
    (ctx.addLength n).abcd = ctx.abcd := rfl

@[simp] theorem addLength_buf (ctx : Md5Context) (n : BitVec 32) :
    (ctx.addLength n).buf = ctx.buf := rfl

/-! ## Messages in pieces

A piece is taken in with what waits in front of it. Two cases are to be told apart, by whether the
block is completed. -/

/-- The full blocks of a piece, behind a message that ends with a block -/
theorem appendRest_holds (order : ByteOrder) (ctx : Md5Context) (xs : List (BitVec 8))
    {msg : List (BitVec 8)} (hlen : msg.length % 64 = 0)
    (habcd : ctx.abcd = foldWhole 64 md5Block md5Start msg) (hbuf : ctx.buf.length = 64)
    (hcount : ctx.count1.toNat * 2 ^ 32 + ctx.count0.toNat = 8 * (msg ++ xs).length % 2 ^ 64) :
    ∃ ctx', md5AppendRest order ctx xs xs.length = some ctx' ∧ ctx'.Holds (msg ++ xs) := by
  have hleft : left 64 msg = [] := by
    apply List.eq_nil_of_length_eq_zero
    rw [length_left, hlen]
  have hwait : left 64 (msg ++ xs) = left 64 xs := by
    rw [left_append (by decide), hleft, List.nil_append]
  have hshort : (left 64 xs).length < 64 := by
    rw [length_left]
    exact Nat.mod_lt _ (by decide)
  have hmod : (msg ++ xs).length % 64 = (left 64 xs).length := by
    rw [← hwait, length_left]
  refine ⟨_, md5AppendRest_eq order _ xs, hcount, ?_, ?_, ?_⟩
  · rw [foldWhole_append (by decide), hleft, List.nil_append, ← habcd]
  · rw [length_md5Copy (by rw [Nat.zero_add, hbuf]; omega) le_rfl]
    exact hbuf
  · have htake := take_md5Copy (Nat.zero_le ctx.buf.length) (le_refl (left 64 xs).length)
    rw [Nat.zero_add, List.take_zero, List.nil_append, List.take_length] at htake
    rw [hmod, hwait]
    exact htake

section Append

variable {order : ByteOrder} {ctx : Md5Context} {msg xs : List (BitVec 8)}

theorem nbytes_toNat (hxs : xs.length < 2 ^ 32) :
    (BitVec.ofNat 32 xs.length).toNat = xs.length := by
  rw [BitVec.toNat_ofNat, Nat.mod_eq_of_lt hxs]

/-- The number of bytes, if it is an `int` -/
theorem nbytes_toInt (hxs : xs.length < 2 ^ 31) :
    (BitVec.ofNat 32 xs.length).toInt = xs.length := by
  have hnat := nbytes_toNat (hxs.trans (by norm_num))
  have hlt : 2 * (BitVec.ofNat 32 xs.length).toNat < 2 ^ 32 := by
    rw [hnat]
    norm_num at hxs ⊢
    omega
  rw [BitVec.toInt_eq_toNat_of_lt hlt, hnat]

theorem nbytes_pos (hxs : xs.length < 2 ^ 32) (hne : xs ≠ []) :
    ¬ BitVec.ofNat 32 xs.length ≤ 0 := by
  rw [BitVec.le_def, nbytes_toNat hxs]
  exact fun hle => hne (List.eq_nil_of_length_eq_zero (Nat.le_zero.mp hle))

/-- What `left` holds behind the block that the piece completes -/
theorem left_sub_copy {n : ℕ} (hle : n ≤ xs.length) (hxs : xs.length < 2 ^ 31 + n) :
    (BitVec.ofInt 32 ((BitVec.ofNat 32 xs.length).toInt - n)).toInt = (xs.drop n).length := by
  rw [List.length_drop, BitVec.toInt_ofInt, BitVec.toInt_ofNat', Int.bmod_sub_bmod]
  norm_num at hxs ⊢
  rw [Int.bmod_eq_of_le (by omega) (by omega)]
  omega

/-- What the code compares to see if the piece completes the block -/
theorem nbytes_fills (hxs : xs.length < 2 ^ 31 + 64) {offset : ℕ} (hoff : offset < 64) :
    BitVec.ofNat 32 offset + BitVec.ofNat 32 xs.length > 64 ↔ 64 < offset + xs.length := by
  have hlt : xs.length < 2 ^ 32 := by
    norm_num at hxs ⊢
    omega
  have hsum : (BitVec.ofNat 32 offset + BitVec.ofNat 32 xs.length).toNat = offset + xs.length := by
    rw [BitVec.toNat_add, nbytes_toNat hlt, BitVec.toNat_ofNat]
    norm_num at hxs ⊢
    omega
  rw [gt_iff_lt, BitVec.lt_def, hsum]
  rfl

/-- A piece that does not complete the block waits with what was there. -/
theorem btMd5Append_part (h : ctx.Holds msg) (hne : xs ≠ []) (hwaits : msg.length % 64 ≠ 0)
    (hpart : msg.length % 64 + xs.length < 64) :
    ∃ ctx', btMd5Append order ctx xs = some ctx' ∧ ctx'.Holds (msg ++ xs) := by
  have hxs : xs.length < 2 ^ 31 := by
    norm_num
    omega
  have hlt : xs.length < 2 ^ 32 := hxs.trans (by norm_num)
  have hcount := addLength_count hlt h.count
  have hcopy : ¬ BitVec.ofNat 32 (msg.length % 64) + BitVec.ofNat 32 xs.length > 64 := by
    rw [nbytes_fills (hxs.trans (by norm_num)) (by omega)]
    omega
  have hneg : ¬ ((xs.length : ℤ) < 0) := by omega
  have hsum : ((msg.length % 64 : ℕ) : ℤ) + (xs.length : ℤ) < 64 := by omega
  have hshort : (left 64 msg ++ xs).length < 64 := by
    rw [List.length_append, length_left]
    exact hpart
  refine ⟨{ ctx.addLength (BitVec.ofNat 32 xs.length) with
    buf := md5Copy ctx.buf (msg.length % 64) xs xs.length }, ?_, ?_, ?_, ?_, ?_⟩
  · simp only [btMd5Append, h.offset, if_neg (nbytes_pos hlt hne), ne_eq, hwaits, not_false_eq_true,
      if_true, if_neg hcopy, nbytes_toInt hxs, if_neg hneg, Int.toNat_natCast, if_pos hsum,
        addLength_buf]
  · rw [List.length_append]
    exact hcount
  · rw [foldWhole_append (by decide), foldWhole_short hshort]
    exact h.abcd
  · rw [length_md5Copy (by rw [h.length]; omega) le_rfl]
    exact h.length
  · have hmod : (msg ++ xs).length % 64 = msg.length % 64 + xs.length := by
      rw [List.length_append]
      omega
    have htake :=
      take_md5Copy (by rw [h.length]; omega : msg.length % 64 ≤ ctx.buf.length) (le_refl xs.length)
    rw [hmod, left_append (by decide), left_short hshort, ← h.buf]
    rw [List.take_length] at htake
    exact htake

/-- A piece that completes the block: one block from the buffer, and then the rest. -/
theorem btMd5Append_fill (h : ctx.Holds msg) (hxs : xs.length < 2 ^ 31 + (64 - msg.length % 64))
    (hwaits : msg.length % 64 ≠ 0) (hfill : 64 ≤ msg.length % 64 + xs.length) :
    ∃ ctx', btMd5Append order ctx xs = some ctx' ∧ ctx'.Holds (msg ++ xs) := by
  have hne : xs ≠ [] := by
    rintro rfl
    rw [List.length_nil] at hfill
    omega
  have hlt : xs.length < 2 ^ 32 := by
    norm_num at hxs ⊢
    omega
  have hcount := addLength_count hlt h.count
  -- the bytes that complete the block
  obtain ⟨n, hn⟩ : ∃ n, n = 64 - msg.length % 64 := ⟨_, rfl⟩
  have hcopy : (if BitVec.ofNat 32 (msg.length % 64) + BitVec.ofNat 32 xs.length > 64 then
      64 - ((msg.length % 64 : ℕ) : ℤ) else (BitVec.ofNat 32 xs.length).toInt) = n := by
    have hshort : xs.length < 2 ^ 31 + 64 := by
      norm_num at hxs ⊢
      omega
    have hfills := nbytes_fills hshort (Nat.mod_lt msg.length (by decide : 0 < 64))
    split_ifs with hmore
    · omega
    · rw [hfills] at hmore
      rw [nbytes_toInt (by norm_num; omega)]
      omega
  have hneg : ¬ ((n : ℤ) < 0) := by omega
  have hsum : ¬ (((msg.length % 64 : ℕ) : ℤ) + (n : ℤ) < 64) := by omega
  have hle : n ≤ xs.length := by omega
  have hrest := left_sub_copy hle (hn ▸ hxs)
  have hblock : md5Copy ctx.buf (msg.length % 64) xs n = left 64 msg ++ xs.take n := by
    rw [md5Copy, ← h.buf, List.drop_of_length_le (by rw [h.length]; omega), List.append_nil]
  have hlen : (left 64 msg ++ xs.take n).length = 64 := by
    rw [List.length_append, length_left, List.length_take]
    omega
  -- the message up to the end of the block
  have hwhole : (msg ++ xs.take n).length % 64 = 0 := by
    rw [List.length_append, List.length_take]
    omega
  have hsplit : msg ++ xs.take n ++ xs.drop n = msg ++ xs := by
    rw [List.append_assoc, List.take_append_drop]
  have habcd : md5Process order ctx.abcd (left 64 msg ++ xs.take n) =
      foldWhole 64 md5Block md5Start (msg ++ xs.take n) := by
    rw [foldWhole_append (by decide), md5Process_eq order _ hlen, h.abcd,
      foldWhole_one (by decide) hlen]
  obtain ⟨ctx', happend, hholds⟩ := appendRest_holds order
    { ctx.addLength (BitVec.ofNat 32 xs.length) with
      abcd := md5Process order ctx.abcd (left 64 msg ++ xs.take n)
      buf := left 64 msg ++ xs.take n }
    (xs.drop n) hwhole habcd hlen (by rw [hsplit, List.length_append]; exact hcount)
  refine ⟨ctx', ?_, hsplit ▸ hholds⟩
  simp only [btMd5Append, h.offset, if_neg (nbytes_pos hlt hne), ne_eq, hwaits, not_false_eq_true,
    if_true, hcopy, if_neg hneg, Int.toNat_natCast, if_neg hsum, addLength_buf, addLength_abcd,
    hblock, hrest]
  exact happend

variable (order) in
/-- A piece is appended to the message if what is left of it behind the block that it completes is
an `int`. -/
theorem btMd5Append_spec (h : ctx.Holds msg) (hxs : xs.length < 2 ^ 31 + md5Missing msg.length) :
    ∃ ctx', btMd5Append order ctx xs = some ctx' ∧ ctx'.Holds (msg ++ xs) := by
  unfold md5Missing at hxs
  by_cases hnil : xs = []
  · subst hnil
    refine ⟨ctx, rfl, ?_⟩
    rwa [List.append_nil]
  by_cases hwaits : msg.length % 64 = 0
  · -- nothing waits
    have hint : xs.length < 2 ^ 31 := by
      rw [hwaits] at hxs
      exact hxs
    have hcount := addLength_count (hint.trans (by norm_num)) h.count
    obtain ⟨ctx', hrest, hholds⟩ := appendRest_holds order
      (ctx.addLength (BitVec.ofNat 32 xs.length)) xs hwaits h.abcd h.length
      (by rw [List.length_append]; exact hcount)
    refine ⟨ctx', ?_, hholds⟩
    simp only [btMd5Append, h.offset, if_neg (nbytes_pos (hint.trans (by norm_num)) hnil), hwaits,
      ne_eq, not_true_eq_false, if_false, nbytes_toInt hint]
    exact hrest
  · by_cases hpart : msg.length % 64 + xs.length < 64
    · exact btMd5Append_part h hnil hwaits hpart
    · refine btMd5Append_fill h ?_ hwaits (not_lt.mp hpart)
      rwa [Nat.mod_eq_of_lt (by omega)] at hxs

/-- A piece of which more is left is not appended. -/
theorem btMd5Append_none (h : ctx.Holds msg) (hxs : 2 ^ 31 + md5Missing msg.length ≤ xs.length)
    (hlt : xs.length < 2 ^ 32) : btMd5Append order ctx xs = none := by
  have hnat := nbytes_toNat hlt
  have hint : (BitVec.ofNat 32 xs.length).toInt = (xs.length : ℤ) - 2 ^ 32 := by
    have hcond : ¬ 2 * xs.length < 2 ^ 32 := by
      norm_num at hxs ⊢
      omega
    rw [BitVec.toInt_eq_toNat_cond, hnat, if_neg hcond]
    norm_num
  have hneg : (BitVec.ofNat 32 xs.length).toInt < 0 := by
    rw [hint]
    norm_num at hlt ⊢
    omega
  have hpos : ¬ BitVec.ofNat 32 xs.length ≤ 0 := by
    rw [BitVec.le_def, hnat]
    exact not_le.mpr (lt_of_lt_of_le (by decide) ((Nat.le_add_right _ _).trans hxs))
  unfold btMd5Append
  rw [if_neg hpos, h.offset]
  unfold md5Missing at hxs
  generalize hoffset : msg.length % 64 = offset at *
  by_cases hwaits : offset ≠ 0
  · rw [if_pos hwaits]
    by_cases hmore : BitVec.ofNat 32 offset + BitVec.ofNat 32 xs.length > 64
    · -- the block is completed, and less than nothing is left
      have hcopy : ¬ (64 : ℤ) - offset < 0 := by omega
      have hwhole : ¬ (offset : ℤ) + (64 - offset) < 64 := by omega
      rw [if_pos hmore, if_neg hcopy, if_neg hwhole]
      refine md5AppendRest_none order _ _ ?_
      rw [BitVec.toInt_ofInt, hint]
      norm_num at hxs hlt ⊢
      rw [Int.bmod_eq_of_le (by omega) (by omega)]
      omega
    · rw [if_neg hmore, if_pos hneg]
  · rw [if_neg hwaits]
    exact md5AppendRest_none order _ _ hneg

end Append

/-! ## The digest

The padding is a piece and the length another. After both nothing waits, and the registers are the
digest. -/

section Digest

variable {order : ByteOrder} {ctx : Md5Context} {msg : List (BitVec 8)}

theorem length_md5Bytes (w : BitVec 32) : (md5Bytes w).length = 4 := rfl

/-- The padding brings the message to eight bytes before the end of a block, and the length to the
end. -/
theorem length_md5Padded (msg : List (BitVec 8)) : (md5Padded msg).length % 64 = 0 := by
  simp only [md5Padded, md5Zeros, List.length_append, List.length_cons, List.length_replicate,
    length_md5Bytes]
  omega

/-- The number of bytes that `bt_md5_finish` pads with -/
theorem Md5Context.Holds.pad (h : ctx.Holds msg) :
    md5Pad.take (((55#32 - ctx.count0 >>> 3) &&& 63#32) + 1#32).toNat =
      0x80#8 :: List.replicate (md5Zeros msg.length) 0 := by
  have hoffset := h.offset
  have hmask : ∀ x : BitVec 32, (x &&& 63#32).toNat = x.toNat % 64 := fun x => by
    rw [BitVec.toNat_and, show (63#32).toNat = 2 ^ 6 - 1 from rfl, Nat.and_two_pow_sub_one_eq_mod]
  have hzeros : (((55#32 - ctx.count0 >>> 3) &&& 63#32) + 1#32).toNat =
      md5Zeros msg.length + 1 := by
    have hlt := ctx.count0.isLt
    change (ctx.count0 >>> 3 &&& 63#32).toNat = _ at hoffset
    rw [hmask, BitVec.toNat_ushiftRight, Nat.shiftRight_eq_div_pow] at hoffset
    rw [BitVec.toNat_add, hmask, BitVec.toNat_sub, BitVec.toNat_ushiftRight,
      Nat.shiftRight_eq_div_pow,
      show (55#32).toNat = 55 from rfl, show (1#32).toNat = 1 from rfl, md5Zeros]
    norm_num at hlt hoffset ⊢
    omega
  have hle : md5Zeros msg.length ≤ 63 := Nat.le_of_lt_succ (Nat.mod_lt _ (by decide))
  rw [hzeros, md5Pad, List.take_succ_cons, List.take_replicate, Nat.min_eq_left hle]
  rfl

/-- The length that `bt_md5_finish` saves -/
theorem Md5Context.Holds.saved (h : ctx.Holds msg) :
    ctx.count0 = (BitVec.ofNat 64 (8 * msg.length)).setWidth 32 ∧
      ctx.count1 = (BitVec.ofNat 64 (8 * msg.length) >>> 32).setWidth 32 := by
  have hcount := h.count
  have h0 := ctx.count0.isLt
  have h1 := ctx.count1.isLt
  constructor
  · apply BitVec.eq_of_toNat_eq
    rw [BitVec.toNat_setWidth, BitVec.toNat_ofNat, ← hcount]
    omega
  · apply BitVec.eq_of_toNat_eq
    rw [BitVec.toNat_setWidth, BitVec.toNat_ushiftRight, BitVec.toNat_ofNat, ← hcount,
      Nat.shiftRight_eq_div_pow]
    omega

/-- The digest of the message that a context holds -/
theorem btMd5Finish_eq (h : ctx.Holds msg) : btMd5Finish order ctx = some (md5Reference msg) := by
  obtain ⟨h0, h1⟩ := h.saved
  have hpad : (0x80#8 :: List.replicate (md5Zeros msg.length) 0).length <
      2 ^ 31 + md5Missing msg.length := by
    have hlt : md5Zeros msg.length < 64 := Nat.mod_lt _ (by decide)
    rw [List.length_cons, List.length_replicate]
    norm_num
    omega
  obtain ⟨ctx₁, hrun₁, hholds₁⟩ := btMd5Append_spec order h hpad
  have hdata : ∀ n, (md5Bytes ctx.count0 ++ md5Bytes ctx.count1).length < 2 ^ 31 + n := by
    intro n
    rw [List.length_append, length_md5Bytes, length_md5Bytes]
    norm_num
    omega
  obtain ⟨ctx₂, hrun₂, hholds₂⟩ := btMd5Append_spec order hholds₁ (hdata _)
  rw [btMd5Finish, h.pad, hrun₁]
  change (btMd5Append order ctx₁ _ >>= _) = _
  rw [hrun₂]
  have habcd := hholds₂.abcd
  rw [h0, h1] at habcd
  change some (md5Bytes ctx₂.abcd.a ++ md5Bytes ctx₂.abcd.b ++ md5Bytes ctx₂.abcd.c ++
      md5Bytes ctx₂.abcd.d) = _
  rw [habcd]
  rfl

variable (order) in
/-- The pieces are appended one by one, up to the first that is too long. -/
theorem append_pieces (h : ctx.Holds msg) {pieces : List (List (BitVec 8))}
    (hpieces : ∀ xs ∈ pieces, xs.length < 2 ^ 32) :
    md5Fits msg.length pieces ∧
        (∃ ctx', pieces.foldlM (btMd5Append order) ctx = some ctx' ∧
          ctx'.Holds (msg ++ pieces.flatten)) ∨
      ¬md5Fits msg.length pieces ∧ pieces.foldlM (btMd5Append order) ctx = none := by
  induction pieces generalizing ctx msg with
  | nil =>
    refine .inl ⟨trivial, ctx, rfl, ?_⟩
    rwa [List.flatten_nil, List.append_nil]
  | cons xs pieces ih =>
    have hrest := fun ys hys => hpieces ys (List.mem_cons_of_mem xs hys)
    rw [List.foldlM_cons, md5Fits]
    by_cases hxs : xs.length < 2 ^ 31 + md5Missing msg.length
    · obtain ⟨ctx₁, hrun, hholds⟩ := btMd5Append_spec order h hxs
      have hlater := ih hholds hrest
      rw [List.length_append] at hlater
      rw [hrun]
      change _ ∧ (∃ ctx', pieces.foldlM (btMd5Append order) ctx₁ = some ctx' ∧ _) ∨
        _ ∧ pieces.foldlM (btMd5Append order) ctx₁ = none
      rw [List.flatten_cons, ← List.append_assoc]
      exact hlater.imp (fun hall => ⟨⟨hxs, hall.1⟩, hall.2⟩)
        fun hnot => ⟨fun hall => hnot.1 hall.2, hnot.2⟩
    · refine .inr ⟨fun hall => hxs hall.1, ?_⟩
      rw [btMd5Append_none h (not_lt.mp hxs) (hpieces xs List.mem_cons_self)]
      rfl

/-- **The digest is MD5.** A message that comes in pieces has the digest of the whole message,
whatever the byte order and the cuts; there is no digest exactly if a piece leaves a number of bytes
that is not an `int` behind the block that it completes. -/
theorem md5_standard (order : ByteOrder) (pieces : List (List (BitVec 8)))
    (hpieces : ∀ xs ∈ pieces, xs.length < 2 ^ 32) :
    (md5Fits 0 pieces → md5Digest order pieces = some (md5Reference pieces.flatten)) ∧
      (md5Digest order pieces = none ↔ ¬md5Fits 0 pieces) := by
  rcases append_pieces order btMd5Init_holds hpieces with ⟨hall, ctx, hrun, hholds⟩ | ⟨hnot, hrun⟩
  · have hdigest : md5Digest order pieces = some (md5Reference pieces.flatten) := by
      rw [md5Digest, hrun]
      exact btMd5Finish_eq hholds
    refine ⟨fun _ => hdigest, ?_⟩
    rw [hdigest]
    exact iff_of_false (by simp) (not_not.mpr hall)
  · have hdigest : md5Digest order pieces = none := by
      rw [md5Digest, hrun]
      rfl
    exact ⟨fun hall => absurd hall hnot, iff_of_true hdigest hnot⟩

/-- The three letters of the test suite, one in a piece of its own -/
theorem md5_standard_abc :
    md5Digest .little [[0x61], [0x62, 0x63]] = some (md5Reference [0x61, 0x62, 0x63]) :=
  (md5_standard .little [[0x61], [0x62, 0x63]] (by decide)).1 ⟨by decide, by decide, trivial⟩

end Digest

end BitThunder
