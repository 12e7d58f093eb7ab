import Mathlib.Algebra.Group.Nat.Defs
import Mathlib.Data.BitVec
import PiLSMer.Lib.Endian

/-! Cyclic redundancy checks of the reflected kind: the register takes in the low bit first
and shifts to the right. The register is as wide as the polynomial, whose top coefficient is
left out. -/
namespace Crc
open Endian

variable {w : Nat} (poly : BitVec w)

def shift (s : BitVec w) : BitVec w :=
  if s.getLsbD 0 then (s >>> 1) ^^^ poly else s >>> 1

def shifts : Nat → BitVec w → BitVec w
  | 0, s => s
  | n + 1, s => shifts n (shift poly s)

def feed (s : BitVec w) (b : UInt8) : BitVec w := shifts poly 8 (s ^^^ BitVec.ofNat w b.toNat)

def run (s : BitVec w) (bs : List UInt8) : BitVec w := bs.foldl (feed poly) s

def pack (bs : List UInt8) : BitVec w := BitVec.ofNat w (fromLeBytes bs)

@[simp] theorem run_append (s : BitVec w) (bs cs : List UInt8) :
    run poly s (bs ++ cs) = run poly (run poly s bs) cs := List.foldl_append

theorem shifts_add (m n : Nat) (s : BitVec w) :
    shifts poly (m + n) s = shifts poly n (shifts poly m s) := by
  induction m generalizing s with
  | zero => rw [Nat.zero_add, shifts]
  | succ m ih => rw [Nat.succ_add, shifts, shifts, ih]

theorem shift_xor (a b : BitVec w) : shift poly (a ^^^ b) = shift poly a ^^^ shift poly b := by
  unfold shift
  simp only [BitVec.getLsbD_xor, BitVec.ushiftRight_xor_distrib]
  have cancel : a >>> 1 ^^^ b >>> 1 = a >>> 1 ^^^ poly ^^^ (b >>> 1 ^^^ poly) := by
    rw [BitVec.xor_assoc, ← BitVec.xor_assoc poly, BitVec.xor_comm poly (b >>> 1),
      BitVec.xor_assoc (b >>> 1), BitVec.xor_self, BitVec.xor_zero]
  cases a.getLsbD 0 <;> cases b.getLsbD 0
  · rfl
  · exact BitVec.xor_assoc ..
  · simp only [Bool.xor_false, if_true]
    rw [BitVec.xor_assoc, BitVec.xor_assoc, BitVec.xor_comm poly]
    rfl
  · exact cancel

theorem shifts_xor (n : Nat) (a b : BitVec w) :
    shifts poly n (a ^^^ b) = shifts poly n a ^^^ shifts poly n b := by
  induction n generalizing a b with
  | zero => rfl
  | succ n ih => rw [shifts, shifts, shifts, shift_xor, ih]

theorem shifts_high (n v : Nat) (small : v * 2 ^ n < 2 ^ w) :
    shifts poly n (BitVec.ofNat w (v * 2 ^ n)) = BitVec.ofNat w v := by
  induction n with
  | zero => simp [shifts]
  | succ n ih =>
    have half : v * 2 ^ (n + 1) = 2 * (v * 2 ^ n) := by
      rw [Nat.pow_succ, ← Nat.mul_assoc, Nat.mul_comm]
    have below : v * 2 ^ n < 2 ^ w := by omega
    have low : (BitVec.ofNat w (v * 2 ^ (n + 1))).getLsbD 0 = false := by
      rw [BitVec.getLsbD_ofNat, half]
      simp
    have down : BitVec.ofNat w (v * 2 ^ (n + 1)) >>> 1 = BitVec.ofNat w (v * 2 ^ n) := by
      apply BitVec.eq_of_toNat_eq
      rw [BitVec.toNat_ushiftRight, BitVec.toNat_ofNat, BitVec.toNat_ofNat, Nat.mod_eq_of_lt small,
        Nat.mod_eq_of_lt below, half, Nat.shiftRight_one]
      omega
    have step : shift poly (BitVec.ofNat w (v * 2 ^ (n + 1))) = BitVec.ofNat w (v * 2 ^ n) := by
      rw [shift, low, down]
      rfl
    rw [shifts, step, ih below]

/-- The top bit of the polynomial marks the registers that lost a low bit. -/
theorem shift_injective (top : poly.msb = true) : Function.Injective (shift poly) := by
  have marked : ∀ s : BitVec w, (shift poly s).msb = s.getLsbD 0 := by
    intro s
    have positive : 0 < w := by
      rcases Nat.eq_zero_or_pos w with rfl | h
      · simp [BitVec.eq_nil poly] at top
      · exact h
    have dry : (s >>> 1).msb = false := by
      rw [BitVec.msb_ushiftRight]
      rfl
    unfold shift
    cases s.getLsbD 0 with
    | false => exact dry
    | true => simp only [if_true, BitVec.msb_xor, dry, top, Bool.false_xor]
  intro a b same
  have low : a.getLsbD 0 = b.getLsbD 0 := by rw [← marked a, ← marked b, same]
  have high : a >>> 1 = b >>> 1 := by
    unfold shift at same
    rw [low] at same
    cases bit : b.getLsbD 0 with
    | false =>
      rw [bit] at same
      exact same
    | true =>
      simp only [bit, if_true] at same
      exact (BitVec.xor_left_inj _).mp same
  apply BitVec.eq_of_getLsbD_eq
  intro i _
  cases i with
  | zero => exact low
  | succ i =>
    have bit := congrArg (fun s => s.getLsbD i) high
    simp only [BitVec.getLsbD_ushiftRight] at bit
    rwa [Nat.add_comm 1 i] at bit

theorem shifts_injective (top : poly.msb = true) (n : Nat) :
    Function.Injective (shifts poly n) := by
  induction n with
  | zero => exact fun _ _ h => h
  | succ n ih => exact fun a b h => shift_injective poly top (ih h)

theorem run_injective (top : poly.msb = true) (bs : List UInt8) :
    Function.Injective (fun s => run poly s bs) := by
  induction bs with
  | nil => exact fun _ _ h => h
  | cons b bs ih =>
    intro s t h
    have first : feed poly s b = feed poly t b := ih h
    exact (BitVec.xor_left_inj _).mp (shifts_injective poly top 8 first)

theorem pack_cons (b : UInt8) (bs : List UInt8) : (pack (b :: bs) : BitVec w) =
    BitVec.ofNat w b.toNat ^^^ BitVec.ofNat w (fromLeBytes bs * 2 ^ 8) := by
  have small : b.toNat < 2 ^ 8 := b.toNat_lt
  have apart : b.toNat + 256 * fromLeBytes bs = b.toNat ^^^ fromLeBytes bs * 2 ^ 8 := by
    rw [Nat.add_comm, show 256 * fromLeBytes bs = 2 ^ 8 * fromLeBytes bs from rfl]
    apply Nat.eq_of_testBit_eq
    intro i
    rw [Nat.testBit_two_pow_mul_add _ small, Nat.testBit_xor, Nat.testBit_mul_two_pow]
    by_cases low : i < 8
    · simp [low, show ¬ 8 ≤ i by omega]
    · have clear : b.toNat.testBit i = false := by
        apply Nat.testBit_lt_two_pow
        exact Nat.lt_of_lt_of_le small (Nat.pow_le_pow_right (by decide) (by omega))
      simp [low, clear, show 8 ≤ i by omega]
  rw [pack, fromLeBytes, apart, BitVec.ofNat_xor]

/-- A word that fits into the register may as well be added to it at once. -/
theorem run_eq_shifts (bs : List UInt8) (short : 8 * bs.length ≤ w) (s : BitVec w) :
    run poly s bs = shifts poly (8 * bs.length) (s ^^^ pack bs) := by
  induction bs generalizing s with
  | nil => simp [run, shifts, pack, fromLeBytes]
  | cons b bs ih =>
    simp only [List.length_cons] at short ⊢
    have bound := fromLeBytes_lt bs
    have room : fromLeBytes bs * 2 ^ 8 < 2 ^ w := by
      calc fromLeBytes bs * 2 ^ 8 < 256 ^ bs.length * 2 ^ 8 :=
            Nat.mul_lt_mul_of_pos_right bound (by decide)
        _ = 2 ^ (8 * bs.length + 8) := by rw [Nat.pow_add, Nat.pow_mul]
        _ ≤ 2 ^ w := Nat.pow_le_pow_right (by decide) short
    have high := shifts_high poly 8 (fromLeBytes bs) room
    have step : feed poly s b ^^^ pack bs = shifts poly 8 (s ^^^ pack (b :: bs)) := by
      rw [pack_cons, ← BitVec.xor_assoc, shifts_xor, high]
      rfl
    change run poly (feed poly s b) bs = _
    rw [ih (by omega), step, Nat.mul_succ, Nat.add_comm, shifts_add]

theorem pack_injective {bs cs : List UInt8} (short : 8 * bs.length ≤ w)
    (length : bs.length = cs.length) (same : (pack bs : BitVec w) = pack cs) : bs = cs := by
  have small : ∀ ds : List UInt8, ds.length = bs.length → fromLeBytes ds < 2 ^ w := by
    intro ds size
    have bound := fromLeBytes_lt ds
    rw [size, show 256 = 2 ^ 8 from rfl, ← Nat.pow_mul] at bound
    exact Nat.lt_of_lt_of_le bound (Nat.pow_le_pow_right (by decide) short)
  have values := congrArg BitVec.toNat same
  simp only [pack, BitVec.toNat_ofNat, Nat.mod_eq_of_lt (small bs rfl),
    Nat.mod_eq_of_lt (small cs length.symm)] at values
  rw [← toLeBytes_fromLeBytes bs, ← toLeBytes_fromLeBytes cs, values, length]

/-- Two strings that differ inside one window no longer than the register leave different
registers behind, whatever stands around the window. -/
theorem run_window (top : poly.msb = true) (s : BitVec w) (before after : List UInt8)
    {bs cs : List UInt8} (short : 8 * bs.length ≤ w) (length : bs.length = cs.length)
    (same : run poly s (before ++ (bs ++ after)) = run poly s (before ++ (cs ++ after))) :
    bs = cs := by
  simp only [run_append] at same
  have inner := run_injective poly top after same
  rw [run_eq_shifts poly bs short, run_eq_shifts poly cs (length ▸ short), length] at inner
  have packed := shifts_injective poly top _ inner
  exact pack_injective short length ((BitVec.xor_right_inj _).mp packed)

theorem run_sealed (n : Nat) (width : w = 8 * n) (s : BitVec w) (bs : List UInt8) :
    run poly s (bs ++ toLeBytes n (~~~ run poly s bs).toNat) =
      shifts poly w (BitVec.allOnes w) := by
  have size := toLeBytes_length n (~~~ run poly s bs).toNat
  have packed : (pack (toLeBytes n (~~~ run poly s bs).toNat) : BitVec w) = ~~~ run poly s bs := by
    have bound := (~~~ run poly s bs).isLt
    have whole : 2 ^ w = 256 ^ n := by rw [width, Nat.pow_mul]
    rw [pack, fromLeBytes_toLeBytes, ← whole, Nat.mod_eq_of_lt bound, BitVec.ofNat_toNat,
      BitVec.setWidth_eq]
  have complement : run poly s bs ^^^ ~~~ run poly s bs = BitVec.allOnes w := by
    apply BitVec.eq_of_getLsbD_eq
    intro i small
    simp [small]
  rw [run_append, run_eq_shifts poly _ (by omega), packed, size, ← width, complement]

end Crc
