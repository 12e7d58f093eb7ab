import Mathlib.Data.Nat.Bitwise
import PiLSMer.Core.Error
import PiLSMer.Lib.Endian
import PiLSMer.Lib.Reader

/-! The byte cursor and the variable-length integers of codec.rs. The cursor keeps the
unread tail input[pos..] in place of the whole input. -/
namespace PiLSMer
open Reading Endian

abbrev Cursor := Tape UInt8
abbrev Read (α : Type) := Reader PiLsmError UInt8 α

def Cursor.new (input : Bytes) : Cursor := ⟨0, input⟩

/-- The end position is summed with overflow check. A sum past usize also lies past the
slice, so the two errors are told apart inside the failing branch. -/
def readExact (len : Nat) : Read Bytes := fun c =>
  if c.rest.length < len then
    .error (if 2 ^ 64 ≤ c.pos + len then .arithmeticOverflow else .unexpectedEof)
  else .ok (c.rest.take len, ⟨c.pos + len, c.rest.drop len⟩)

def readArray (n : Nat) : Read (Arr n) := do
  let bytes ← readExact n
  pure (copyFromSlice n bytes)

def readU8 : Read UInt8 := do
  let bytes ← readExact 1
  pure (bytes.headD 0)

def readU16Le : Read UInt16 := do
  let bytes ← readExact 2
  pure (UInt16.ofNat (fromLeBytes bytes))

def readU32Le : Read UInt32 := do
  let bytes ← readExact 4
  pure (UInt32.ofNat (fromLeBytes bytes))

/-- The loop of read_varint; the first argument counts the rounds still allowed. -/
def readVarintFrom : Nat → UInt64 → Nat → Read UInt64
  | 0, _, _ => throw .varintOverflow
  | rounds + 1, value, shift => do
    let byte ← readU8
    let value := value ||| ((byte &&& 0x7f).toUInt64 <<< UInt64.ofNat shift)
    if byte &&& 0x80 = 0 then pure value else readVarintFrom rounds value (shift + 7)

def readVarint : Read UInt64 := readVarintFrom 10 0 0

def putU16Le (value : UInt16) : Bytes := toLeBytes 2 value.toNat
def putU32Le (value : UInt32) : Bytes := toLeBytes 4 value.toNat

/-- The loop of put_varint. Nine shifts by seven leave less than 0x80 of a u64. -/
def putVarintFrom : Nat → UInt64 → Bytes
  | 0, value => [value.toUInt8]
  | rounds + 1, value =>
    if value < 0x80 then [value.toUInt8]
    else (value.toUInt8 ||| 0x80) :: putVarintFrom rounds (value >>> 7)

def putVarint (value : UInt64) : Bytes := putVarintFrom 9 value

/-- On a 64-bit target every u64 is a usize. -/
def checkedUsize (value : UInt64) (_name : String) : Except PiLsmError Nat := .ok value.toNat

def varintLenFrom : Nat → UInt64 → UInt16
  | 0, _ => 1
  | rounds + 1, value => if value < 0x80 then 1 else varintLenFrom rounds (value >>> 7) + 1

def varintLen (value : UInt64) : UInt16 := varintLenFrom 9 value

/-- A length cast by `as u64`. -/
def lenU64 (n : Nat) : UInt64 := UInt64.ofNat n

theorem lenU64_toNat {n : Nat} (h : n < 2 ^ 64) : (lenU64 n).toNat = n := by
  simp only [lenU64, UInt64.toNat_ofNat']
  exact Nat.mod_eq_of_lt h

theorem readExact_accepts (w : Bytes) : Accepts (readExact w.length) w w := by
  intro pos rest
  simp [readExact]

theorem readExact_ok {len : Nat} {c d : Cursor} {b : Bytes} (h : readExact len c = .ok (b, d)) :
    c.rest = b ++ d.rest ∧ d.pos = c.pos + b.length ∧ b.length = len := by
  unfold readExact at h
  split at h
  · contradiction
  · rename_i enough
    cases h
    have size : (c.rest.take len).length = len := by
      rw [List.length_take]
      omega
    exact ⟨(List.take_append_drop len c.rest).symm, by rw [size], size⟩

theorem readExact_delimited (len : Nat) : Delimited (readExact len) := by
  intro c b d h
  obtain ⟨rest, pos, rfl⟩ := readExact_ok h
  exact ⟨b, rest, pos, readExact_accepts b⟩

theorem readArray_accepts {n : Nat} (a : Arr n) : Accepts (readArray n) a.val a := by
  have h := (readExact_accepts a.val).map (copyFromSlice n)
  rw [copyFromSlice_exact] at h
  rw [a.property] at h
  exact h

theorem readArray_delimited (n : Nat) : Delimited (readArray n) :=
  (readExact_delimited n).bind (fun _ => Delimited.pure _)

theorem readArray_ok {n : Nat} {c d : Cursor} {a : Arr n} (h : readArray n c = .ok (a, d)) :
    c.rest = a.val ++ d.rest := by
  simp only [readArray, bind_ok, pure_ok] at h
  obtain ⟨b, s, hb, ha, rfl⟩ := h
  obtain ⟨rest, _, size⟩ := readExact_ok hb
  have filled : a = ⟨b, size⟩ := ha.symm.trans (copyFromSlice_exact ⟨b, size⟩)
  rw [filled, rest]

theorem readU8_accepts (b : UInt8) : Accepts readU8 [b] b :=
  (readExact_accepts [b]).map (fun bytes : Bytes => bytes.headD 0)

theorem readU8_delimited : Delimited readU8 :=
  (readExact_delimited 1).bind (fun _ => Delimited.pure _)

theorem readU8_ok {c d : Cursor} {b : UInt8} (h : readU8 c = .ok (b, d)) :
    c.rest = [b] ++ d.rest := by
  simp only [readU8, bind_ok, pure_ok] at h
  obtain ⟨bytes, _, read, head, rfl⟩ := h
  obtain ⟨rest, _, size⟩ := readExact_ok read
  obtain ⟨x, rfl⟩ := List.length_eq_one_iff.mp size
  cases head
  exact rest

theorem readU16Le_accepts (v : UInt16) : Accepts readU16Le (putU16Le v) v := by
  have h := (readExact_accepts (putU16Le v)).map (fun b => UInt16.ofNat (fromLeBytes b))
  have value : UInt16.ofNat (fromLeBytes (putU16Le v)) = v := by
    have small : v.toNat % 256 ^ 2 = v.toNat := Nat.mod_eq_of_lt v.toNat_lt
    rw [putU16Le, fromLeBytes_toLeBytes, small, UInt16.ofNat_toNat]
  have size : (putU16Le v).length = 2 := toLeBytes_length 2 _
  rw [value, size] at h
  exact h

theorem readU16Le_ok {c d : Cursor} {v : UInt16} (h : readU16Le c = .ok (v, d)) :
    c.rest = putU16Le v ++ d.rest := by
  simp only [readU16Le, bind_ok, pure_ok] at h
  obtain ⟨bytes, _, read, value, rfl⟩ := h
  obtain ⟨rest, _, size⟩ := readExact_ok read
  have bound := fromLeBytes_lt bytes
  rw [size] at bound
  have number : v.toNat = fromLeBytes bytes := by
    rw [← value, UInt16.toNat_ofNat']
    exact Nat.mod_eq_of_lt bound
  rw [rest, putU16Le, number, ← size, toLeBytes_fromLeBytes]

theorem readU16Le_delimited : Delimited readU16Le :=
  (readExact_delimited 2).bind (fun _ => Delimited.pure _)

theorem readU32Le_accepts (v : UInt32) : Accepts readU32Le (putU32Le v) v := by
  have h := (readExact_accepts (putU32Le v)).map (fun b => UInt32.ofNat (fromLeBytes b))
  have value : UInt32.ofNat (fromLeBytes (putU32Le v)) = v := by
    have small : v.toNat % 256 ^ 4 = v.toNat := Nat.mod_eq_of_lt v.toNat_lt
    rw [putU32Le, fromLeBytes_toLeBytes, small, UInt32.ofNat_toNat]
  have size : (putU32Le v).length = 4 := toLeBytes_length 4 _
  rw [value, size] at h
  exact h

theorem readU32Le_ok {c d : Cursor} {v : UInt32} (h : readU32Le c = .ok (v, d)) :
    c.rest = putU32Le v ++ d.rest := by
  simp only [readU32Le, bind_ok, pure_ok] at h
  obtain ⟨bytes, _, read, value, rfl⟩ := h
  obtain ⟨rest, _, size⟩ := readExact_ok read
  have bound := fromLeBytes_lt bytes
  rw [size] at bound
  have number : v.toNat = fromLeBytes bytes := by
    rw [← value, UInt32.toNat_ofNat']
    exact Nat.mod_eq_of_lt bound
  rw [rest, putU32Le, number, ← size, toLeBytes_fromLeBytes]

theorem readVarintFrom_delimited (rounds : Nat) (value : UInt64) (shift : Nat) :
    Delimited (readVarintFrom rounds value shift) := by
  induction rounds generalizing value shift with
  | zero => exact Delimited.throw _
  | succ rounds ih =>
    refine readU8_delimited.bind (fun byte => ?_)
    dsimp only
    split
    · exact Delimited.pure _
    · exact ih _ _

theorem readVarint_delimited : Delimited readVarint := readVarintFrom_delimited 10 0 0

theorem group_shift (u : UInt64) (s : Nat) (h : s + 7 < 64) :
    ((u &&& 0x7f) <<< UInt64.ofNat s) ||| ((u >>> 7) <<< UInt64.ofNat (s + 7)) =
      u <<< UInt64.ofNat s := by
  apply UInt64.toNat_inj.mp
  have hs : (UInt64.ofNat s).toNat % 64 = s := by
    rw [UInt64.toNat_ofNat']
    omega
  have hs7 : (UInt64.ofNat (s + 7)).toNat % 64 = s + 7 := by
    rw [UInt64.toNat_ofNat']
    omega
  have seven : (7 : UInt64).toNat % 64 = 7 := by decide
  have mask : (0x7f : UInt64).toNat = 2 ^ 7 - 1 := by decide
  simp only [UInt64.toNat_or, UInt64.toNat_shiftLeft, UInt64.toNat_shiftRight, UInt64.toNat_and,
    hs, hs7, seven, mask]
  apply Nat.eq_of_testBit_eq
  intro i
  simp only [Nat.testBit_or, Nat.testBit_mod_two_pow, Nat.testBit_shiftLeft,
    Nat.testBit_shiftRight, Nat.testBit_and, Nat.testBit_two_pow_sub_one]
  by_cases wide : i < 64
  · by_cases low : i < s
    · simp [wide, Nat.not_le.mpr low, show ¬ s + 7 ≤ i by omega]
    · by_cases mid : i < s + 7
      · simp [wide, show s ≤ i by omega, show ¬ s + 7 ≤ i by omega, show i - s < 7 by omega]
      · have index : 7 + (i - (s + 7)) = i - s := by omega
        simp [wide, show s ≤ i by omega, show s + 7 ≤ i by omega, show ¬ i - s < 7 by omega, index]
  · simp [wide]

theorem last_group (u : UInt64) (small : u < 0x80) :
    (u.toUInt8 &&& 0x7f).toUInt64 = u ∧ u.toUInt8 &&& 0x80 = 0 := by
  have hu : u.toNat < 128 := UInt64.lt_iff_toNat_lt.mp small
  have low : u.toNat % 256 = u.toNat := by omega
  constructor
  · apply UInt64.toNat_inj.mp
    simp only [UInt8.toNat_toUInt64, UInt8.toNat_and, UInt64.toNat_toUInt8]
    change (u.toNat % 256) &&& (2 ^ 7 - 1) = u.toNat
    rw [low, Nat.and_two_pow_sub_one_eq_mod]
    omega
  · apply UInt8.toNat_inj.mp
    simp only [UInt8.toNat_and, UInt64.toNat_toUInt8]
    change (u.toNat % 256) &&& 2 ^ 7 = 0
    rw [low, Nat.and_two_pow, Nat.testBit_lt_two_pow hu]
    rfl

theorem inner_group (u : UInt64) :
    ((u.toUInt8 ||| 0x80) &&& 0x7f).toUInt64 = u &&& 0x7f ∧ (u.toUInt8 ||| 0x80) &&& 0x80 ≠ 0 := by
  constructor
  · apply UInt64.toNat_inj.mp
    simp only [UInt8.toNat_toUInt64, UInt8.toNat_and, UInt8.toNat_or, UInt64.toNat_toUInt8,
      UInt64.toNat_and]
    change ((u.toNat % 2 ^ 8) ||| 2 ^ 7) &&& (2 ^ 7 - 1) = u.toNat &&& (2 ^ 7 - 1)
    apply Nat.eq_of_testBit_eq
    intro i
    simp only [Nat.testBit_or, Nat.testBit_mod_two_pow, Nat.testBit_and,
      Nat.testBit_two_pow_sub_one, Nat.testBit_two_pow]
    by_cases h : i < 7
    · simp [h, show i < 8 by omega, show ¬ 7 = i by omega]
    · simp [h]
  · intro h
    have bit := congrArg (fun b => b.toNat.testBit 7) h
    simp only [UInt8.toNat_and, UInt8.toNat_or, Nat.testBit_and, Nat.testBit_or] at bit
    revert bit
    simp [show (128 : Nat).testBit 7 = true by decide]

/-- The reader undoes the writer group by group. The accumulated low bits are carried
along unread; the fuel of both loops runs down together. -/
theorem readVarintFrom_accepts (rounds : Nat) (hr : rounds ≤ 9) (acc u : UInt64)
    (bound : u.toNat < 2 ^ (7 * rounds + 1)) :
    Accepts (readVarintFrom (rounds + 1) acc (63 - 7 * rounds)) (putVarintFrom rounds u)
      (acc ||| (u <<< UInt64.ofNat (63 - 7 * rounds))) := by
  induction rounds generalizing acc u with
  | zero =>
    have small : u < 0x80 := UInt64.lt_iff_toNat_lt.mpr (Nat.lt_trans bound (by decide))
    have g := last_group u small
    apply (readU8_accepts u.toUInt8).bind (w := [])
    simp only [g.1, g.2, if_true]
    exact Accepts.pure _
  | succ rounds ih =>
    unfold putVarintFrom
    split
    · rename_i small
      have g := last_group u small
      apply (readU8_accepts u.toUInt8).bind (w := [])
      simp only [g.1, g.2, if_true]
      exact Accepts.pure _
    · have g := inner_group u
      have index : 63 - 7 * (rounds + 1) + 7 = 63 - 7 * rounds := by omega
      apply (readU8_accepts (u.toUInt8 ||| 0x80)).bind
      simp only [g.1, if_neg g.2, index]
      have seven : (7 : UInt64).toNat % 64 = 7 := by decide
      have small : (u >>> 7).toNat < 2 ^ (7 * rounds + 1) := by
        rw [UInt64.toNat_shiftRight, seven, Nat.shiftRight_eq_div_pow]
        have split : 2 ^ (7 * (rounds + 1) + 1) = 2 ^ (7 * rounds + 1) * 2 ^ 7 := by
          rw [← Nat.pow_add]
          congr 1
        rw [split] at bound
        exact (Nat.div_lt_iff_lt_mul (by decide)).mpr bound
      have tail := ih (by omega) (acc ||| ((u &&& 0x7f) <<< UInt64.ofNat (63 - 7 * (rounds + 1))))
        (u >>> 7) small
      have whole := group_shift u (63 - 7 * (rounds + 1)) (by omega)
      rw [index] at whole
      rw [UInt64.or_assoc, whole] at tail
      exact tail

theorem readVarint_accepts (v : UInt64) : Accepts readVarint (putVarint v) v := by
  have h := readVarintFrom_accepts 9 (Nat.le_refl 9) 0 v v.toNat_lt
  have value : (0 : UInt64) ||| (v <<< UInt64.ofNat (63 - 7 * 9)) = v := by simp
  rw [value] at h
  exact h

theorem checkedUsize_accepts (v : UInt64) (name : String) :
    Accepts (lift (checkedUsize v name) : Read Nat) [] v.toNat :=
  Accepts.lift rfl

theorem putVarintFrom_length_le (rounds : Nat) (v : UInt64) :
    (putVarintFrom rounds v).length ≤ rounds + 1 := by
  induction rounds generalizing v with
  | zero => simp [putVarintFrom]
  | succ rounds ih =>
    unfold putVarintFrom
    split
    · simp
    · have := ih (v >>> 7)
      simp only [List.length_cons]
      omega

theorem putVarint_length_le (v : UInt64) : (putVarint v).length ≤ 10 :=
  putVarintFrom_length_le 9 v

theorem putVarint_pos (v : UInt64) : 0 < (putVarint v).length := by
  unfold putVarint putVarintFrom
  split <;> simp

theorem putVarintFrom_length_mono (rounds : Nat) {v w : UInt64} (h : v ≤ w) :
    (putVarintFrom rounds v).length ≤ (putVarintFrom rounds w).length := by
  induction rounds generalizing v w with
  | zero => exact Nat.le_refl _
  | succ rounds ih =>
    by_cases last : w < 0x80
    · rw [putVarintFrom, putVarintFrom, if_pos last, if_pos (UInt64.lt_of_le_of_lt h last)]
      exact Nat.le_refl _
    · have shifted : v >>> 7 ≤ w >>> 7 := by
        rw [UInt64.le_iff_toNat_le] at h ⊢
        rw [UInt64.toNat_shiftRight, UInt64.toNat_shiftRight]
        change v.toNat >>> 7 ≤ w.toNat >>> 7
        rw [Nat.shiftRight_eq_div_pow, Nat.shiftRight_eq_div_pow]
        exact Nat.div_le_div_right h
      have tail := ih shifted
      rw [putVarintFrom, putVarintFrom, if_neg last]
      split
      · simp
      · simpa using tail

theorem putVarint_length_mono {v w : UInt64} (h : v ≤ w) :
    (putVarint v).length ≤ (putVarint w).length :=
  putVarintFrom_length_mono 9 h

theorem varintLenFrom_toNat (rounds : Nat) (small : rounds ≤ 9) (v : UInt64) :
    (varintLenFrom rounds v).toNat = (putVarintFrom rounds v).length := by
  induction rounds generalizing v with
  | zero => rfl
  | succ rounds ih =>
    unfold varintLenFrom putVarintFrom
    split
    · rfl
    · have tail := ih (by omega) (v >>> 7)
      have bound := putVarintFrom_length_le rounds (v >>> 7)
      rw [UInt16.toNat_add, tail, UInt16.toNat_one, Nat.mod_eq_of_lt (by omega)]
      rfl

theorem varintLen_toNat (v : UInt64) : (varintLen v).toNat = (putVarint v).length :=
  varintLenFrom_toNat 9 (Nat.le_refl _) v

end PiLSMer
