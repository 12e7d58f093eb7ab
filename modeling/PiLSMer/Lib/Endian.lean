import Mathlib.Algebra.Group.Nat.Defs
import Mathlib.Data.List.Basic

/-! Fixed-width numbers as byte lists, in both orders. -/
namespace Endian

def toLeBytes : Nat → Nat → List UInt8
  | 0, _ => []
  | n + 1, v => UInt8.ofNat (v % 256) :: toLeBytes n (v / 256)

def fromLeBytes : List UInt8 → Nat
  | [] => 0
  | b :: bs => b.toNat + 256 * fromLeBytes bs

def toBeBytes (n v : Nat) : List UInt8 := (toLeBytes n v).reverse

@[simp] theorem toLeBytes_length (n v : Nat) : (toLeBytes n v).length = n := by
  induction n generalizing v with
  | zero => rfl
  | succ n ih => simp [toLeBytes, ih]

@[simp] theorem toBeBytes_length (n v : Nat) : (toBeBytes n v).length = n := by
  rw [toBeBytes, List.length_reverse, toLeBytes_length]

theorem fromLeBytes_toLeBytes (n v : Nat) : fromLeBytes (toLeBytes n v) = v % 256 ^ n := by
  induction n generalizing v with
  | zero => simp [toLeBytes, fromLeBytes, Nat.mod_one]
  | succ n ih =>
    have low : (UInt8.ofNat (v % 256)).toNat = v % 256 := by simp
    simp only [toLeBytes, fromLeBytes, ih, low]
    rw [Nat.pow_succ, Nat.mul_comm (256 ^ n) 256, Nat.mod_mul]

theorem toLeBytes_fromLeBytes (bs : List UInt8) :
    toLeBytes bs.length (fromLeBytes bs) = bs := by
  induction bs with
  | nil => rfl
  | cons b bs ih =>
    have small : b.toNat < 256 := b.toNat_lt
    have low : (b.toNat + 256 * fromLeBytes bs) % 256 = b.toNat := by omega
    have high : (b.toNat + 256 * fromLeBytes bs) / 256 = fromLeBytes bs := by omega
    simp only [List.length_cons, toLeBytes, fromLeBytes, low, high, ih, UInt8.ofNat_toNat]

theorem fromLeBytes_lt (bs : List UInt8) : fromLeBytes bs < 256 ^ bs.length := by
  induction bs with
  | nil => simp [fromLeBytes]
  | cons b bs ih =>
    have small : b.toNat < 256 := b.toNat_lt
    simp only [fromLeBytes, List.length_cons, Nat.pow_succ]
    omega

end Endian
