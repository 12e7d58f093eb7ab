import Mathlib.Algebra.Group.Nat.Defs
import Mathlib.Data.List.Basic

/-! Byte strings, the errors of the core crate, and the digests it takes from other crates. -/
namespace PiLSMer

abbrev Bytes := List UInt8

/-- A fixed-size array [u8; n]. -/
abbrev Arr (n : Nat) := { b : Bytes // b.length = n }

/-- A borrowed slice. No Rust object is longer than isize::MAX bytes. -/
abbrev Slice := { b : Bytes // b.length < 2 ^ 63 }

theorem window_length {bytes : Bytes} {pos len : Nat} (inside : pos + len ≤ bytes.length) :
    ((bytes.drop pos).take len).length = len := by
  rw [List.length_take, List.length_drop]
  omega

/-- The errors of error.rs and, as an outcome of its own, a panic: a call that panicked
returned nothing, and every call around it ended with it. -/
inductive PiLsmError where
  | invalidMagic
  | unsupportedVersion (version : UInt8)
  | unknownEnvelopeKind (kind : UInt8)
  | unknownLogicalHashKind (kind : UInt8)
  | unknownPlanCodec (codec : UInt8)
  | unknownChunkKind (kind : UInt8)
  | unknownChunkTransform (transform : UInt8)
  | frameCrcMismatch
  | logicalHashMismatch
  | unexpectedEof
  | varintOverflow
  | decodeLimitExceeded (name : String)
  | invalidPlan (reason : String)
  | missingStream
  | streamFingerprintMismatch
  | streamReadOutOfBounds
  | planningFailed (reason : String)
  | indexLimitExceeded (name : String)
  | arithmeticOverflow
  | panicked
  deriving DecidableEq, Repr

/-- Return early with an error when the test holds. -/
def failWhen {ε : Type} (bad : Prop) [Decidable bad] (e : ε) : Except ε Unit :=
  if bad then .error e else .ok ()

@[simp] theorem failWhen_ok {ε : Type} {bad : Prop} [Decidable bad] {e : ε} {u : Unit} :
    failWhen bad e = .ok u ↔ ¬ bad := by
  unfold failWhen
  split <;> simp_all

theorem failWhen_error {ε : Type} {bad : Prop} [Decidable bad] {e e' : ε} :
    (failWhen bad e : Except ε Unit) = .error e' ↔ bad ∧ e = e' := by
  unfold failWhen
  split <;> simp_all

/-- with_capacity panics when the room asked for is more than isize::MAX bytes. -/
abbrev CapacityOverflow (count itemSize : Nat) : Prop := 2 ^ 63 ≤ count * itemSize

theorem except_bind_ok {ε α β : Type} {x : Except ε α} {f : α → Except ε β} {b : β} :
    (x >>= f) = .ok b ↔ ∃ a, x = .ok a ∧ f a = .ok b := by
  cases x <;> simp [bind, Except.bind]

theorem except_bind_error {ε α β : Type} {x : Except ε α} {f : α → Except ε β} {e : ε} :
    (x >>= f) = .error e ↔ x = .error e ∨ ∃ a, x = .ok a ∧ f a = .error e := by
  cases x <;> simp [bind, Except.bind]

@[simp] theorem except_pure_ok {ε α : Type} {a b : α} :
    (pure a : Except ε α) = .ok b ↔ a = b := by
  simp [pure, Except.pure]

theorem error_of_not_ok {ε α : Type} {x : Except ε α} (h : ∀ a, x ≠ .ok a) :
    ∃ e, x = .error e := by
  cases x with
  | error e => exact ⟨e, rfl⟩
  | ok a => exact absurd rfl (h a)

theorem le_u64_max (x : UInt64) : x ≤ 0xffffffffffffffff :=
  UInt64.le_iff_toNat_le.mpr (Nat.le_of_lt_succ x.toNat_lt)

def saturatingAdd (a b : UInt64) : UInt64 :=
  if 2 ^ 64 ≤ a.toNat + b.toNat then 0xffffffffffffffff else a + b

def saturatingSub (a b : UInt64) : UInt64 := if a < b then 0 else a - b

theorem saturatingAdd_toNat {a b : UInt64} (small : a.toNat + b.toNat < 2 ^ 64) :
    (saturatingAdd a b).toNat = a.toNat + b.toNat := by
  rw [saturatingAdd, if_neg (Nat.not_le.mpr small), UInt64.toNat_add, Nat.mod_eq_of_lt small]

theorem saturatingSub_toNat {a b : UInt64} (below : b.toNat ≤ a.toNat) :
    (saturatingSub a b).toNat = a.toNat - b.toNat := by
  have le : b ≤ a := UInt64.le_iff_toNat_le.mpr below
  rw [saturatingSub, if_neg (UInt64.not_lt.mpr le), UInt64.toNat_sub_of_le _ _ le]

/-- The hash functions of blake3, sha2 and crc32fast. These crates are not part of the
repository; only the widths of their results are built in. -/
class Digests where
  blake3 : Bytes → Arr 32
  sha256 : Bytes → Arr 32
  crc32 : Bytes → UInt32

def copyFromSlice (n : Nat) (b : Bytes) : Arr n :=
  ⟨(b ++ List.replicate n 0).take n, by simp⟩

theorem copyFromSlice_exact {n : Nat} (a : Arr n) : copyFromSlice n a.val = a := by
  obtain ⟨b, rfl⟩ := a
  apply Subtype.ext
  simp [copyFromSlice]

end PiLSMer
