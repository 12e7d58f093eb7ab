import PiLSMer.Core.Codec

/-! What the variable-length integers denote, as natural numbers, and what the reader makes of
them. Ten bytes denote up to 70 bits; the shift of the tenth byte keeps one of its seven. -/
namespace PiLSMer
open Reading

inductive VarintBytes : Bytes → Prop
  | last {byte : UInt8} (ends : byte.toNat < 128) : VarintBytes [byte]
  | more {byte : UInt8} {bytes : Bytes} (goes : 128 ≤ byte.toNat) (rest : VarintBytes bytes) :
      VarintBytes (byte :: bytes)

def varintValue : Bytes → Nat
  | [] => 0
  | byte :: bytes => byte.toNat % 128 + 128 * varintValue bytes

theorem low_bits (byte : UInt8) : (byte &&& 0x7f).toUInt64.toNat = byte.toNat % 128 := by
  rw [UInt8.toNat_toUInt64, UInt8.toNat_and]
  exact Nat.and_two_pow_sub_one_eq_mod byte.toNat 7

theorem top_bit_iff (byte : UInt8) : byte &&& 0x80 = 0 ↔ byte.toNat < 128 := by
  rw [← UInt8.toNat_inj, UInt8.toNat_and]
  change byte.toNat &&& 2 ^ 7 = 0 ↔ _
  have bound := byte.toNat_lt
  rw [Nat.and_two_pow, Nat.mul_eq_zero, Nat.testBit_eq_decide_div_mod_eq]
  simp
  omega

/-- The round of the loop that takes in a group above the value so far, as far as it fits. -/
theorem group_or (value group : UInt64) {shift : Nat} (below : value.toNat < 2 ^ shift)
    (narrow : shift < 64) : value ||| (group <<< UInt64.ofNat shift) =
      UInt64.ofNat (value.toNat + 2 ^ shift * group.toNat) := by
  have size : (UInt64.ofNat shift).toNat % 64 = shift := by
    rw [UInt64.toNat_ofNat']
    omega
  apply UInt64.toNat_inj.mp
  rw [UInt64.toNat_or, UInt64.toNat_shiftLeft, size, UInt64.toNat_ofNat', Nat.add_comm,
    Nat.two_pow_add_eq_or_of_lt below, Nat.or_mod_two_pow, Nat.or_comm,
    Nat.mod_eq_of_lt value.toNat_lt, Nat.shiftLeft_eq, Nat.mul_comm group.toNat]

theorem VarintBytes.accepts {w : Bytes} (bytes : VarintBytes w) {rounds shift : Nat}
    {value : UInt64} (below : value.toNat < 2 ^ shift) (last : shift + 7 * rounds = 70)
    (enough : w.length ≤ rounds) : Accepts (readVarintFrom rounds value shift) w
      (UInt64.ofNat (value.toNat + 2 ^ shift * varintValue w)) := by
  induction bytes generalizing rounds shift value with
  | @last byte ends =>
    obtain ⟨rounds, rfl⟩ := Nat.exists_eq_succ_of_ne_zero (Nat.pos_iff_ne_zero.mp enough)
    apply (readU8_accepts byte).bind (w := [])
    dsimp only
    rw [if_pos ((top_bit_iff byte).mpr ends), group_or value _ below (by omega), low_bits]
    exact Accepts.pure _
  | @more byte bytes goes rest ih =>
    obtain ⟨rounds, rfl⟩ := Nat.exists_eq_succ_of_ne_zero (Nat.pos_iff_ne_zero.mp
      (Nat.lt_of_lt_of_le (Nat.succ_pos _) enough))
    have nonempty : 0 < bytes.length := by cases rest <;> simp
    simp only [List.length_cons] at enough
    have small : byte.toNat % 128 < 128 := Nat.mod_lt _ (by decide)
    have grown : value.toNat + 2 ^ shift * (byte.toNat % 128) < 2 ^ (shift + 7) := by
      rw [Nat.pow_add]
      have scaled := Nat.mul_le_mul_left (2 ^ shift) (Nat.le_of_lt_succ small)
      omega
    have fits : 2 ^ (shift + 7) ≤ 2 ^ 64 := Nat.pow_le_pow_right (by decide) (by omega)
    have next : (UInt64.ofNat (value.toNat + 2 ^ shift * (byte.toNat % 128))).toNat =
        value.toNat + 2 ^ shift * (byte.toNat % 128) := by
      rw [UInt64.toNat_ofNat', Nat.mod_eq_of_lt (by omega)]
    have tail := ih (next.symm ▸ grown) (by omega) (Nat.le_of_succ_le_succ enough)
    apply (readU8_accepts byte).bind
    dsimp only
    rw [if_neg (fun ends => absurd ((top_bit_iff byte).mp ends) (Nat.not_lt.mpr goes)),
      group_or value _ below (by omega), low_bits]
    rw [next] at tail
    convert tail using 2
    simp only [varintValue, Nat.pow_add, Nat.mul_add, Nat.add_assoc, Nat.mul_assoc]

theorem VarintBytes.rejects {w : Bytes} (bytes : VarintBytes w) {rounds shift : Nat}
    (value : UInt64) (long : rounds < w.length) :
    Rejects (readVarintFrom rounds value shift) w := by
  induction bytes generalizing rounds shift value with
  | last ends =>
    obtain rfl := Nat.lt_one_iff.mp long
    exact Rejects.throw _ _
  | @more byte bytes goes rest ih =>
    cases rounds with
    | zero => exact Rejects.throw _ _
    | succ rounds =>
      apply Rejects.right (readU8_accepts byte)
      dsimp only
      rw [if_neg (fun ends => absurd ((top_bit_iff byte).mp ends) (Nat.not_lt.mpr goes))]
      exact ih _ (Nat.lt_of_succ_lt_succ long)

theorem readVarintFrom_bytes {rounds shift : Nat} {value v : UInt64} {c d : Cursor}
    (h : readVarintFrom rounds value shift c = .ok (v, d)) :
    ∃ w, VarintBytes w ∧ w.length ≤ rounds ∧ c.rest = w ++ d.rest := by
  induction rounds generalizing shift value c with
  | zero => cases h
  | succ rounds ih =>
    obtain ⟨byte, s, head, tail⟩ := (bind_ok _ _ _ _ _).mp h
    have split := readU8_ok head
    split at tail
    · rename_i ends
      obtain ⟨_, rfl⟩ := (pure_ok _ _ _ _).mp tail
      exact ⟨[byte], VarintBytes.last ((top_bit_iff byte).mp ends), Nat.le_add_left .., split⟩
    · rename_i goes
      obtain ⟨w, bytes, short, rest⟩ := ih tail
      have more : 128 ≤ byte.toNat :=
        Nat.not_lt.mp (fun ends => goes ((top_bit_iff byte).mpr ends))
      exact ⟨byte :: w, VarintBytes.more more bytes, Nat.succ_le_succ short,
        by rw [split, rest]; rfl⟩

theorem readVarint_bytes {w : Bytes} (bytes : VarintBytes w) (short : w.length ≤ 10) (pos : Nat)
    (rest : Bytes) : readVarint ⟨pos, w ++ rest⟩ =
      .ok (UInt64.ofNat (varintValue w), ⟨pos + w.length, rest⟩) := by
  have accepts : Accepts (readVarintFrom 10 0 0) w _ := bytes.accepts Nat.one_pos rfl short
  have run := accepts pos rest
  rw [Nat.pow_zero, Nat.one_mul, UInt64.toNat_zero, Nat.zero_add] at run
  exact run

theorem readVarint_ok_iff {c d : Cursor} {v : UInt64} :
    readVarint c = .ok (v, d) ↔ ∃ w, VarintBytes w ∧ w.length ≤ 10 ∧ c.rest = w ++ d.rest ∧
      d.pos = c.pos + w.length ∧ v = UInt64.ofNat (varintValue w) := by
  constructor
  · intro h
    obtain ⟨w, bytes, short, rest⟩ := readVarintFrom_bytes h
    have run := readVarint_bytes bytes short c.pos d.rest
    rw [← rest, h] at run
    simp only [Except.ok.injEq, Prod.mk.injEq] at run
    exact ⟨w, bytes, short, rest, congrArg Tape.pos run.2, run.1⟩
  · rintro ⟨w, bytes, short, rest, pos, rfl⟩
    obtain ⟨start, input⟩ := c
    obtain ⟨stop, left⟩ := d
    obtain rfl : input = w ++ left := rest
    obtain rfl : stop = start + w.length := pos
    exact readVarint_bytes bytes short start left

theorem VarintBytes.split {w : Bytes} (bytes : VarintBytes w) : ∃ front last, w = front ++ [last] ∧
    (∀ byte ∈ front, 128 ≤ byte.toNat) ∧ last.toNat < 128 := by
  induction bytes with
  | last ends => exact ⟨[], _, rfl, by simp, ends⟩
  | more goes rest ih =>
    obtain ⟨front, last, rfl, go, ends⟩ := ih
    exact ⟨_ :: front, last, rfl, List.forall_mem_cons.mpr ⟨goes, go⟩, ends⟩

theorem VarintBytes.join {front : Bytes} {last : UInt8} (go : ∀ byte ∈ front, 128 ≤ byte.toNat)
    (ends : last.toNat < 128) : VarintBytes (front ++ [last]) := by
  induction front with
  | nil => exact VarintBytes.last ends
  | cons byte front ih =>
    obtain ⟨goes, go⟩ := List.forall_mem_cons.mp go
    exact VarintBytes.more goes (ih go)

theorem varintValue_append (v w : Bytes) :
    varintValue (v ++ w) = varintValue v + 128 ^ v.length * varintValue w := by
  induction v with
  | nil => simp [varintValue]
  | cons byte v ih =>
    simp only [List.cons_append, varintValue, ih, List.length_cons, Nat.pow_succ', Nat.mul_add,
      Nat.mul_assoc, Nat.add_assoc]

theorem varintValue_lt (w : Bytes) : varintValue w < 128 ^ w.length := by
  induction w with
  | nil => exact Nat.one_pos
  | cons byte w ih =>
    have small : byte.toNat % 128 < 128 := Nat.mod_lt _ (by decide)
    rw [varintValue, List.length_cons, Nat.pow_succ']
    omega

/-- Ten bytes are next whose last one carries more than the one bit there is room for. -/
def Oversized (c : Cursor) : Prop :=
  ∃ front last rest, c.rest = front ++ last :: rest ∧ front.length = 9 ∧
    (∀ byte ∈ front, 128 ≤ byte.toNat) ∧ 2 ≤ last.toNat ∧ last.toNat < 128

/-- What reading at a cursor owes: the number denoted by the bytes it took, and an error where
they denote more than 64 bits. -/
structure ReadsExactly (c : Cursor) : Prop where
  exact : ∀ v d, readVarint c = .ok (v, d) → ∃ w, VarintBytes w ∧ c.rest = w ++ d.rest ∧
    d.pos = c.pos + w.length ∧ v.toNat = varintValue w
  refuses : ∀ w rest, VarintBytes w → c.rest = w ++ rest → 2 ^ 64 ≤ varintValue w →
    ∃ e, readVarint c = .error e

theorem VarintBytes.large {w : Bytes} (bytes : VarintBytes w) (short : w.length ≤ 10)
    (large : 2 ^ 64 ≤ varintValue w) {c : Cursor} {rest : Bytes} (there : c.rest = w ++ rest) :
    Oversized c := by
  obtain ⟨front, last, rfl, go, ends⟩ := bytes.split
  rw [List.length_append, List.length_singleton] at short
  have low := varintValue_lt front
  have narrow : 128 ^ front.length ≤ 128 ^ 9 := Nat.pow_le_pow_right (by decide) (by omega)
  rw [varintValue_append, varintValue, varintValue, Nat.mul_zero, Nat.add_zero,
    Nat.mod_eq_of_lt ends] at large
  have nine : front.length = 9 := by
    by_contra other
    have eight : 128 ^ front.length ≤ 128 ^ 8 := Nat.pow_le_pow_right (by decide) (by omega)
    have scaled := Nat.mul_le_mul eight (Nat.le_of_lt_succ ends)
    omega
  rw [nine] at large low
  exact ⟨front, last, rest, by rw [there, List.append_assoc]; rfl, nine, go, by omega, ends⟩

theorem readsExactly_iff (c : Cursor) : ReadsExactly c ↔ ¬ Oversized c := by
  refine ⟨?_, fun fits => ⟨fun v d h => ?_, fun w rest bytes there large => ?_⟩⟩
  · rintro reads ⟨front, last, rest, there, nine, go, two, ends⟩
    have bytes := VarintBytes.join go ends
    have there : c.rest = (front ++ [last]) ++ rest := by rw [there, List.append_assoc]; rfl
    have large : 2 ^ 64 ≤ varintValue (front ++ [last]) := by
      rw [varintValue_append, varintValue, varintValue, nine, Nat.mod_eq_of_lt ends]
      omega
    obtain ⟨e, refused⟩ := reads.refuses _ rest bytes there large
    obtain ⟨pos, input⟩ := c
    obtain rfl : input = (front ++ [last]) ++ rest := there
    rw [readVarint_bytes bytes (by simp [nine])] at refused
    cases refused
  · obtain ⟨w, bytes, short, there, pos, rfl⟩ := readVarint_ok_iff.mp h
    refine ⟨w, bytes, there, pos, ?_⟩
    rw [UInt64.toNat_ofNat', Nat.mod_eq_of_lt]
    by_contra large
    exact fits (bytes.large short (Nat.le_of_not_lt large) there)
  · by_cases short : w.length ≤ 10
    · exact absurd (bytes.large short large there) fits
    · obtain ⟨pos, input⟩ := c
      obtain rfl : input = w ++ rest := there
      exact bytes.rejects 0 (Nat.lt_of_not_le short) pos rest

/-- Reading is exact everywhere but at an oversized encoding, and what was written is read. -/
theorem varint_exact_iff (c : Cursor) (v : UInt64) (pos : Nat) (rest : Bytes) :
    (ReadsExactly c ↔ ¬ Oversized c) ∧
    readVarint ⟨pos, putVarint v ++ rest⟩ = .ok (v, ⟨pos + (varintLen v).toNat, rest⟩) := by
  constructor
  · exact readsExactly_iff c
  · rw [varintLen_toNat]
    exact readVarint_accepts v pos rest

/-- 2^64 in ten bytes is read as zero. -/
theorem oversized_varint_accepted : ¬ ∀ c : Cursor, ReadsExactly c := by
  intro claim
  have reads := claim (Cursor.new [0x80, 0x80, 0x80, 0x80, 0x80, 0x80, 0x80, 0x80, 0x80, 0x02])
  refine (readsExactly_iff _).mp reads
    ⟨List.replicate 9 0x80, 0x02, [], rfl, rfl, fun byte member => ?_, by decide, by decide⟩
  rw [List.eq_of_mem_replicate member]
  decide

end PiLSMer
