import BitThunder.Shell.Script

/-!
# Reading a file line by line

`BT_GetS` of `os/src/fs/bt_file.c` for a buffer of any size, called until it returns an error. The
size is counted down before it is looked at, so `0` is the largest one and `1` and `2` never get to
the file. What does not fit is cut with a newline that is not in the file, a line that is not ended
is given up for the error behind it, and a `'\0'` ends a line and is gone. `getS_lossless_iff` says
which files are read without a loss.

A call gives the caller the characters that it stored, and what the calls give together is compared
with the file. The newline that a call adds when the buffer is full is one character too many, and
no later call makes up for it; a last line without a newline and a `'\0'` in a line are characters
too few. So the whole can only be right if each line is ended, fits, and has no zero in it; and then
it is.

The sizes at the lower end need their own argument. The size is counted down before it is compared,
so that with room for one or two characters no call ever gets to the file and the calls do not come
to an end, and with none at all there is room for `2 ^ 32`.
-/

namespace BitThunder

/-- A call of `BT_GetS`: what it returns, the characters before the `'\0'`, how many bytes it wrote
to the buffer, and the rest of the file -/
structure GetSCall : Type where
  result : ℤ
  chars : List UInt8
  written : ℕ
  file : List UInt8

/-- What `ulSize` is counted down from: `0` wraps. -/
def lineRoom (ulSize : UInt32) : ℕ := if ulSize = 0 then 2 ^ 32 else ulSize.toNat

/-- `BT_GetS`; it leaves out the `'\0'` where it returns an error, and `s - t` is returned as a
`BT_s32`. -/
def getSCall (ulSize : UInt32) (file : List UInt8) : GetSCall :=
  let r := btGetS (lineRoom ulSize) file
  if r.1 < 0 then ⟨r.1, r.2.1, r.2.1.length, r.2.2⟩
  else ⟨toS32 (r.2.1.length % 2 ^ 32), r.2.1, r.2.1.length + 1, r.2.2⟩

/-- The characters the caller is given -/
def GetSCall.delivered (call : GetSCall) : List UInt8 := if call.result < 0 then [] else call.chars

/-- The calls until one returns an error, with that one -/
inductive LineCalls (ulSize : UInt32) : List UInt8 → List GetSCall → Prop where
  | last {file : List UInt8} (h : (getSCall ulSize file).result < 0) : LineCalls ulSize file
    [getSCall ulSize file]
  | more {file : List UInt8} {calls : List GetSCall} (h : 0 ≤ (getSCall ulSize file).result)
      (rest : LineCalls ulSize (getSCall ulSize file).file calls) : LineCalls ulSize file
        (getSCall ulSize file :: calls)

/-- The calls come to an end, none writes behind the buffer, they return the number of characters,
and these are the bytes of the file, in order. -/
def ReadWhole (ulSize : UInt32) (file : List UInt8) : Prop :=
  ∃ calls, LineCalls ulSize file calls ∧ (∀ call ∈ calls, call.written ≤ ulSize.toNat) ∧
    (∀ call ∈ calls, 0 ≤ call.result → call.result = call.chars.length) ∧
    calls.flatMap GetSCall.delivered = file

/-! ## Files that are made of lines

The condition is one on the file: it is a sequence of lines, each ended and short enough for the
buffer. -/

/-- A line of the file, with the newline or carriage return that ends it -/
structure EndedLine : Type where
  chars : List UInt8
  text : ∀ c ∈ chars, IsText c
  ending : UInt8
  ends : ending = 10 ∨ ending = 13

namespace EndedLine

/-- The line in the file -/
def bytes (l : EndedLine) : List UInt8 := l.chars ++ [l.ending]

/-- There is room for the line, and its length is a `BT_s32`. -/
def Fits (l : EndedLine) (ulSize : UInt32) : Prop :=
  l.bytes.length + 2 ≤ ulSize.toNat ∧ l.bytes.length < 2 ^ 31

end EndedLine

/-- The file is made of lines that fit. -/
def MadeOfLines (ulSize : UInt32) (file : List UInt8) : Prop :=
  ∃ lines : List EndedLine, file = lines.flatMap EndedLine.bytes ∧ ∀ l ∈ lines, l.Fits ulSize

/-- The sizes and files `BT_GetS` is made for -/
def SuitsGetS (ulSize : UInt32) (file : List UInt8) : Prop :=
  ulSize = 0 ∧ file = [] ∨ 3 ≤ ulSize.toNat ∧ MadeOfLines ulSize file

/-! ## One call

What a call does is said by how the file begins: with a line that fits, one that does not, one that
is not ended, or a zero. -/

theorem lineRoom_of_pos {ulSize : UInt32} (h : 0 < ulSize.toNat) :
    lineRoom ulSize = ulSize.toNat := by
  refine if_neg fun h0 => ?_
  rw [h0] at h
  exact absurd h (by decide)

/-- A call that stores a line -/
theorem getSCall_stored {ulSize : UInt32} {file chars rest : List UInt8} {n : ℤ} (hn : 0 ≤ n)
    (h : btGetS (lineRoom ulSize) file = (n, chars, rest)) :
    getSCall ulSize file = ⟨toS32 (chars.length % 2 ^ 32), chars, chars.length + 1, rest⟩ := by
  rw [getSCall, h]
  exact if_neg (not_lt.mpr hn)

/-- A call that ends in an error -/
theorem getSCall_failed {ulSize : UInt32} {file chars rest : List UInt8} {n : ℤ} (hn : n < 0)
    (h : btGetS (lineRoom ulSize) file = (n, chars, rest)) :
    getSCall ulSize file = ⟨n, chars, chars.length, rest⟩ := by
  rw [getSCall, h]
  exact if_pos hn

theorem errGeneric_neg : toS32 errGeneric < 0 := by decide

/-- A count below `2 ^ 31` is the result as it is. -/
theorem toS32_length {n : ℕ} (h : n < 2 ^ 31) : toS32 (n % 2 ^ 32) = n := by
  rw [Nat.mod_eq_of_lt (by omega), toS32, if_pos h]

/-- A file begins with a text, and there the text is cut, is all, is ended or runs into a `'\0'`. -/
theorem file_cases (room : ℕ) (file : List UInt8) :
    ∃ l rest, file = l ++ rest ∧ (∀ c ∈ l, IsText c) ∧
    (l.length = room ∨ l.length < room ∧
    (rest = [] ∨ ∃ c rest', rest = c :: rest' ∧ ¬ IsText c)) := by
  induction room generalizing file with
  | zero => exact ⟨[], file, rfl, by simp, .inl rfl⟩
  | succ room ih =>
    cases file with
    | nil => exact ⟨[], [], rfl, by simp, .inr ⟨Nat.succ_pos room, .inl rfl⟩⟩
    | cons c file =>
      by_cases hc : IsText c
      · obtain ⟨l, rest, rfl, hl, hend⟩ := ih file
        refine ⟨c :: l, rest, rfl, ?_, ?_⟩
        · intro d hd
          rcases List.mem_cons.mp hd with rfl | hd
          · exact hc
          · exact hl d hd
        · rcases hend with hlen | ⟨hlen, hrest⟩
          · exact .inl (congrArg (· + 1) hlen)
          · exact .inr ⟨Nat.succ_lt_succ hlen, hrest⟩
      · exact ⟨[], c :: file, rfl, by simp, .inr ⟨Nat.succ_pos room, .inr ⟨c, file, rfl, hc⟩⟩⟩

/-- A `'\0'` ends the line before it. -/
theorem btGetS_nul {l : List UInt8} (hl : ∀ c ∈ l, IsText c) {ulSize : ℕ}
    (hlen : l.length + 3 ≤ ulSize) (rest : List UInt8) :
    btGetS ulSize (l ++ 0 :: rest) = ((l.length : ℤ), l, rest) := by
  obtain ⟨c, -, hloop⟩ := getSLoop_chars hl (m := ulSize - l.length) (by omega) [] 0 (0 :: rest)
  have hstep : getSLoop (ulSize - l.length) l c (0 :: rest) =
      (ulSize - l.length - 1, 0, l, rest) := by
    obtain ⟨m, hm⟩ : ∃ m, ulSize - l.length = m + 1 := ⟨ulSize - l.length - 1, by omega⟩
    rw [hm, getSLoop, if_pos (by omega)]
    rfl
  rw [show ulSize - l.length + l.length = ulSize by omega, List.nil_append, hstep] at hloop
  rw [btGetS, hloop]
  simp [show ulSize - l.length - 1 ≠ 1 by omega]

namespace EndedLine

theorem length_bytes (l : EndedLine) : l.bytes.length = l.chars.length + 1 := List.length_append

theorem zero_not_mem_bytes (l : EndedLine) : (0 : UInt8) ∉ l.bytes := by
  intro h
  rcases List.mem_append.mp h with h | h
  · exact (l.text 0 h).1 rfl
  · rcases l.ends with he | he
    · rw [List.mem_singleton, he] at h
      exact absurd h (by decide)
    · rw [List.mem_singleton, he] at h
      exact absurd h (by decide)

end EndedLine

/-- A line that fits is stored as it is. -/
theorem getSCall_line {ulSize : UInt32} (l : EndedLine)
    (hfit : l.bytes.length + 2 ≤ lineRoom ulSize) (rest : List UInt8) :
    getSCall ulSize (l.bytes ++ rest) =
      ⟨toS32 (l.bytes.length % 2 ^ 32), l.bytes, l.bytes.length + 1, rest⟩ := by
  refine getSCall_stored (n := l.chars.length + 1) (by positivity) ?_
  rw [l.length_bytes] at hfit
  rw [EndedLine.bytes, List.append_assoc, List.singleton_append]
  exact btGetS_line l.text hfit l.ends rest

/-- What a call can do, where there is room for three characters or more -/
inductive CallKind (room : ℕ) : List UInt8 → GetSCall → Prop where
  | line (l : EndedLine) (rest : List UInt8) (fits : l.bytes.length + 2 ≤ room) :
      CallKind room (l.bytes ++ rest) ⟨toS32 (l.bytes.length % 2 ^ 32), l.bytes, l.bytes.length + 1,
      rest⟩
  | cut (l : List UInt8) (rest : List UInt8) (text : ∀ c ∈ l, IsText c) :
      CallKind room (l ++ rest) ⟨toS32 ((l ++ [10]).length % 2 ^ 32), l ++ [10],
      (l ++ [10]).length + 1, rest⟩
  | nul (l : List UInt8) (rest : List UInt8) (text : ∀ c ∈ l, IsText c) :
      CallKind room (l ++ 0 :: rest) ⟨toS32 (l.length % 2 ^ 32), l, l.length + 1, rest⟩
  | unended (l : List UInt8) (text : ∀ c ∈ l, IsText c) : CallKind room l
    ⟨toS32 errGeneric, l, l.length, []⟩

/-- What one call does with a buffer of at least three characters. -/
theorem getSCall_kind {ulSize : UInt32} (h : 3 ≤ lineRoom ulSize) (file : List UInt8) :
    CallKind (lineRoom ulSize) file (getSCall ulSize file) := by
  obtain ⟨l, rest, rfl, hl, hlen | ⟨hlen, rfl | ⟨c, rest, rfl, hc⟩⟩⟩ :=
    file_cases (lineRoom ulSize - 2) file
  · rw [getSCall_stored (by positivity) (btGetS_cut hl (by omega) rest)]
    exact .cut l rest hl
  · rw [List.append_nil, getSCall_failed (errGeneric_neg) (btGetS_unended hl (by omega))]
    exact .unended l hl
  · by_cases h0 : c = 0
    · subst h0
      rw [getSCall_stored (by positivity) (btGetS_nul hl (by omega) rest)]
      exact .nul l rest hl
    · have hend : c = 10 ∨ c = 13 := by
        by_contra hno
        exact hc ⟨h0, fun h => hno (.inl h), fun h => hno (.inr h)⟩
      let e : EndedLine := ⟨l, hl, c, hend⟩
      have hfit : e.bytes.length + 2 ≤ lineRoom ulSize := by
        rw [e.length_bytes]
        change l.length + 1 + 2 ≤ lineRoom ulSize
        omega
      have hsplit : l ++ c :: rest = e.bytes ++ rest := (List.append_assoc l [c] rest).symm
      rw [hsplit, getSCall_line e hfit rest]
      exact .line e rest hfit

theorem CallKind.zero_not_mem {room : ℕ} {file : List UInt8} {call : GetSCall}
    (h : CallKind room file call) :
    (0 : UInt8) ∉ call.chars := by
  cases h with
  | line l rest _ => exact l.zero_not_mem_bytes
  | cut l rest text =>
    intro h0
    rcases List.mem_append.mp h0 with h0 | h0
    · exact (text 0 h0).1 rfl
    · exact absurd (List.mem_singleton.mp h0) (by decide)
  | nul l rest text => exact fun h0 => (text 0 h0).1 rfl
  | unended l text => exact fun h0 => (text 0 h0).1 rfl

/-- A call that writes nothing is one at the end of the file. -/
theorem CallKind.eq_nil {room : ℕ} {file : List UInt8} {call : GetSCall}
    (h : CallKind room file call) (hnone : call.written = 0) : file = [] := by
  cases h with
  | line l rest _ => exact absurd hnone (Nat.succ_ne_zero _)
  | cut l rest _ => exact absurd hnone (Nat.succ_ne_zero _)
  | nul l rest _ => exact absurd hnone (Nat.succ_ne_zero _)
  | unended l _ => exact List.length_eq_zero_iff.mp hnone

/-! ## The calls up to the end of the file

What was delivered is compared with the file from the front. A call that puts in a newline, or
leaves something out, makes the two differ at a place that no later call comes back to. -/

namespace LineCalls

variable {ulSize : UInt32} {file : List UInt8} {calls : List GetSCall}

theorem delivered_cons {call : GetSCall} (h : 0 ≤ call.result) :
    (call :: calls).flatMap GetSCall.delivered = call.chars ++
      calls.flatMap GetSCall.delivered := by
  rw [List.flatMap_cons, GetSCall.delivered, if_neg (not_lt.mpr h)]

/-- The call that fails at the end delivers nothing. -/
theorem delivered_last (h : (getSCall ulSize file).result < 0) :
    [getSCall ulSize file].flatMap GetSCall.delivered = [] := by
  rw [List.flatMap_singleton, GetSCall.delivered, if_pos h]

/-- No call gives a `'\0'`. -/
theorem zero_not_mem (hsize : 3 ≤ lineRoom ulSize) (h : LineCalls ulSize file calls) :
    (0 : UInt8) ∉ calls.flatMap GetSCall.delivered := by
  induction h with
  | last h =>
    rw [delivered_last h]
    exact List.not_mem_nil
  | more h rest ih =>
    rw [delivered_cons h]
    intro h0
    rcases List.mem_append.mp h0 with h0 | h0
    · exact (getSCall_kind hsize _).zero_not_mem h0
    · exact ih h0

/-- A newline that was put in is not made up for later. -/
theorem newline_extra (hsize : 3 ≤ lineRoom ulSize) (h : LineCalls ulSize file calls) :
    10 :: calls.flatMap GetSCall.delivered ≠ file := by
  have hcall (file : List UInt8) : getSCall ulSize (10 :: file) = ⟨1, [10], 2, file⟩ :=
    getSCall_line ⟨[], by simp, 10, .inl rfl⟩ hsize file
  induction h with
  | last h =>
    rw [delivered_last h]
    rintro rfl
    rw [hcall] at h
    exact absurd h (by decide)
  | @more file calls h rest ih =>
    rw [delivered_cons h]
    intro heq
    cases file with
    | nil => cases heq
    | cons c file =>
      obtain ⟨rfl, htail⟩ := List.cons.inj heq
      rw [hcall] at htail ih
      exact ih htail

/-- A file is made of lines that fit if nothing of it is lost. -/
theorem madeOfLines (hsize : 3 ≤ ulSize.toNat) (h : LineCalls ulSize file calls)
    (hall : calls.flatMap GetSCall.delivered = file) : MadeOfLines ulSize file := by
  have hroom : lineRoom ulSize = ulSize.toNat := lineRoom_of_pos (by omega)
  rw [← hroom] at hsize
  induction h with
  | last h =>
    rw [delivered_last h] at hall
    exact ⟨[], hall.symm, by simp⟩
  | @more file calls h rest ih =>
    rw [delivered_cons h] at hall
    have hkind := getSCall_kind hsize file
    generalize getSCall ulSize file = call at h rest ih hall hkind
    cases hkind with
    | line l rest' fits =>
      obtain ⟨lines, hlines, hfit⟩ := ih (List.append_cancel_left hall)
      refine ⟨l :: lines, ?_, ?_⟩
      · rw [List.flatMap_cons, ← hlines]
      · intro m hm
        rcases List.mem_cons.mp hm with rfl | hm
        · refine ⟨hroom ▸ fits, ?_⟩
          -- a length from `2 ^ 31` on is returned as an error
          by_contra hlong
          have hlt : m.bytes.length < 2 ^ 32 := lt_of_le_of_lt (by omega) ulSize.toNat_lt
          rw [Nat.mod_eq_of_lt hlt, toS32, if_neg hlong] at h
          have hneg : (m.bytes.length : ℤ) - 2 ^ 32 < 0 := by omega
          exact absurd h (not_le.mpr hneg)
        · exact hfit m hm
    | cut l rest' text =>
      rw [List.append_assoc] at hall
      exact absurd (List.append_cancel_left hall) (rest.newline_extra hsize)
    | nul l rest' text =>
      have hmem := rest.zero_not_mem hsize
      rw [List.append_cancel_left hall] at hmem
      exact absurd List.mem_cons_self hmem
    | unended l text => exact absurd h (not_le.mpr errGeneric_neg)

/-- With room for one or two characters the calls do not come to an end. -/
theorem size_ne (h : LineCalls ulSize file calls) : ulSize.toNat ≠ 1 ∧ ulSize.toNat ≠ 2 := by
  induction h with
  | @last file h =>
    constructor
    · intro hsize
      have hcall : btGetS (lineRoom ulSize) file = (0, [], file) := by
        rw [lineRoom_of_pos (by omega), hsize]
        rfl
      rw [getSCall_stored le_rfl hcall] at h
      exact absurd (show toS32 0 < 0 from h) (by decide)
    · intro hsize
      have hcall : btGetS (lineRoom ulSize) file = (1, [10], file) := by
        rw [lineRoom_of_pos (by omega), hsize]
        rfl
      rw [getSCall_stored Int.one_nonneg hcall] at h
      exact absurd (show toS32 1 < 0 from h) (by decide)
  | more _ _ ih => exact ih

/-- With no room at all every call writes, but for the one at the end of the file. -/
theorem file_eq_nil (hsize : ulSize = 0) (h : LineCalls ulSize file calls)
    (hfit : ∀ call ∈ calls, call.written ≤ ulSize.toNat) : file = [] := by
  subst hsize
  have hfirst : (getSCall 0 file).written = 0 := by
    cases h with
    | last h => exact Nat.le_zero.mp (hfit _ List.mem_cons_self)
    | more h rest => exact Nat.le_zero.mp (hfit _ List.mem_cons_self)
  exact (getSCall_kind (by decide) file).eq_nil hfirst

end LineCalls

/-! ## The result

Both directions, for buffers of three bytes and more, and then for the sizes that are special. -/

/-- At the end of the file there is one more call. -/
theorem readWhole_nil {ulSize : UInt32} (hsize : 3 ≤ lineRoom ulSize) : ReadWhole ulSize [] := by
  have hcall : getSCall ulSize [] = ⟨toS32 errGeneric, [], 0, []⟩ :=
    getSCall_failed errGeneric_neg (btGetS_unended (by simp) hsize)
  have hlast : (getSCall ulSize []).result < 0 := by
    rw [hcall]
    exact errGeneric_neg
  refine ⟨_, .last hlast, ?_, ?_, LineCalls.delivered_last hlast⟩
  · intro call hmem
    rw [List.mem_singleton.mp hmem, hcall]
    exact Nat.zero_le _
  · intro call hmem hpos
    rw [List.mem_singleton.mp hmem] at hpos
    exact absurd hpos (not_le.mpr hlast)

/-- A file of lines that end and fit is read whole. -/
theorem readWhole_of_lines {ulSize : UInt32} (hsize : 3 ≤ ulSize.toNat) (lines : List EndedLine)
    (hfit : ∀ l ∈ lines, l.Fits ulSize) : ReadWhole ulSize (lines.flatMap EndedLine.bytes) := by
  have hroom : lineRoom ulSize = ulSize.toNat := lineRoom_of_pos (by omega)
  induction lines with
  | nil => exact readWhole_nil (by rw [hroom]; exact hsize)
  | cons l lines ih =>
    obtain ⟨calls, hcalls, hwritten, hcount, hall⟩ :=
      ih fun m hm => hfit m (List.mem_cons_of_mem l hm)
    have hl := hfit l List.mem_cons_self
    have hline : l.bytes.length + 2 ≤ lineRoom ulSize := by rw [hroom]; exact hl.1
    have hcall := getSCall_line l hline (lines.flatMap EndedLine.bytes)
    rw [toS32_length hl.2] at hcall
    rw [List.flatMap_cons]
    have hpos : 0 ≤ (getSCall ulSize (l.bytes ++ lines.flatMap EndedLine.bytes)).result := by
      rw [hcall]
      exact Int.natCast_nonneg _
    refine ⟨_, .more hpos (by rw [hcall]; exact hcalls), ?_, ?_, ?_⟩
    · intro call hmem
      rcases List.mem_cons.mp hmem with rfl | hmem
      · rw [hcall]
        exact (Nat.succ_le_succ (Nat.le_succ _)).trans hl.1
      · exact hwritten call hmem
    · intro call hmem hret
      rcases List.mem_cons.mp hmem with rfl | hmem
      · rw [hcall]
      · exact hcount call hmem hret
    · rw [LineCalls.delivered_cons hpos, hcall, hall]

/-- **`BT_GetS` loses nothing of a file exactly if the file is made of lines that fit**, and nothing
is in a file that is read with no room at all. -/
theorem getS_lossless_iff (ulSize : UInt32) (file : List UInt8) :
    ReadWhole ulSize file ↔ SuitsGetS ulSize file := by
  constructor
  · rintro ⟨calls, hcalls, hwritten, -, hall⟩
    by_cases h0 : ulSize = 0
    · exact .inl ⟨h0, hcalls.file_eq_nil h0 hwritten⟩
    · have hpos : ulSize.toNat ≠ 0 := fun h => h0 (UInt32.toNat_inj.mp h)
      have hsize : 3 ≤ ulSize.toNat := by
        have := hcalls.size_ne
        omega
      exact .inr ⟨hsize, hcalls.madeOfLines hsize hall⟩
  · rintro (⟨rfl, rfl⟩ | ⟨hsize, lines, rfl, hfit⟩)
    · exact readWhole_nil (by decide)
    · exact readWhole_of_lines hsize lines hfit

/-- `"ab"` without a newline: an error is returned, and the two characters are gone. -/
theorem getS_loses_last_line : ¬ReadWhole 256 [0x61, 0x62] := by
  rintro ⟨calls, hcalls, -, -, hall⟩
  have hcall : getSCall 256 [0x61, 0x62] = ⟨toS32 errGeneric, [0x61, 0x62], 2, []⟩ :=
    getSCall_failed errGeneric_neg (btGetS_unended (by simp [IsText]) (by decide))
  cases hcalls with
  | last hlast =>
    rw [LineCalls.delivered_last hlast] at hall
    cases hall
  | more hmore rest =>
    rw [hcall] at hmore
    exact absurd hmore (not_le.mpr errGeneric_neg)

end BitThunder
