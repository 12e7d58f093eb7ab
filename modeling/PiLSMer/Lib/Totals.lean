import Mathlib.Algebra.Order.BigOperators.Group.List
import Mathlib.Algebra.Order.Group.Nat
import Mathlib.Algebra.Ring.Nat
import Mathlib.Data.UInt

/-! Counters of 64 bits that a run adds to, and the sums of naturals they stand for. -/
namespace Totals

variable {σ ε : Type} {step : σ → ε → σ} {field : σ → UInt64} {share : ε → UInt64}
  {amount bound : ε → Nat} {es : List ε}

theorem add_right_comm (a b c : UInt64) : a + b + c = a + c + b := by
  rw [UInt64.add_assoc, UInt64.add_comm b c, ← UInt64.add_assoc]

theorem toNat_max (a b : UInt32) : (max a b).toNat = max a.toNat b.toNat := by
  change (if a ≤ b then b else a).toNat = _
  split
  · rename_i below
    exact (Nat.max_eq_right (UInt32.le_iff_toNat_le.mp below)).symm
  · rename_i above
    exact (Nat.max_eq_left (Nat.le_of_not_le (mt UInt32.le_iff_toNat_le.mpr above))).symm

theorem max_right_comm (a b c : UInt32) : max (max a b) c = max (max a c) b := by
  apply UInt32.toNat_inj.mp
  rw [toNat_max, toNat_max, toNat_max, toNat_max]
  omega

@[simp] theorem max_zero (a : UInt32) : max a 0 = a :=
  UInt32.toNat_inj.mp ((toNat_max a 0).trans (Nat.max_zero _))

@[simp] theorem zero_max (a : UInt32) : max 0 a = a :=
  UInt32.toNat_inj.mp ((toNat_max 0 a).trans (Nat.zero_max _))

/-- A counter that every step adds its share to ends at the sum of the shares. -/
theorem foldl_total (adds : ∀ s e, field (step s e) = field s + share e) (es : List ε) (s : σ) :
    field (es.foldl step s) = field s + (es.map share).sum := by
  induction es generalizing s with
  | nil => exact (UInt64.add_zero _).symm
  | cons e es ih =>
    rw [List.foldl_cons, ih, adds, List.map_cons, List.sum_cons, UInt64.add_assoc]

theorem toNat_sum {xs : List UInt64} (small : (xs.map UInt64.toNat).sum < 2 ^ 64) :
    xs.sum.toNat = (xs.map UInt64.toNat).sum := by
  induction xs with
  | nil => rfl
  | cons x xs ih =>
    rw [List.map_cons, List.sum_cons] at small
    rw [List.sum_cons, UInt64.toNat_add, ih (by omega), List.map_cons, List.sum_cons,
      Nat.mod_eq_of_lt small]

theorem foldl_counts {s : σ} (adds : ∀ s e, field (step s e) = field s + share e)
    (start : field s = 0) (exact : ∀ e ∈ es, (share e).toNat = amount e)
    (small : (es.map amount).sum < 2 ^ 64) :
    (field (es.foldl step s)).toNat = (es.map amount).sum := by
  have same : (es.map share).map UInt64.toNat = es.map amount := by
    rw [List.map_map]
    exact List.map_congr_left exact
  rw [foldl_total adds, start, UInt64.zero_add, toNat_sum (same ▸ small), same]

theorem sum_below (below : ∀ e ∈ es, amount e ≤ bound e) (small : (es.map bound).sum < 2 ^ 64) :
    (es.map amount).sum < 2 ^ 64 :=
  Nat.lt_of_le_of_lt (List.sum_le_sum below) small

theorem member_below (small : (es.map bound).sum < 2 ^ 64) {e : ε} (member : e ∈ es) :
    bound e < 2 ^ 64 :=
  Nat.lt_of_le_of_lt
    (List.single_le_sum (fun _ _ => Nat.zero_le _) _ (List.mem_map_of_mem member)) small

theorem sum_set {xs : List Nat} {i x : Nat} (there : xs[i]? = some x) (y : Nat) :
    (xs.set i y).sum + x = xs.sum + y := by
  induction xs generalizing i with
  | nil => cases there
  | cons z xs ih =>
    cases i with
    | zero =>
      obtain rfl : z = x := Option.some.inj there
      simp only [List.set_cons_zero, List.sum_cons]
      omega
    | succ i =>
      have tail := ih there
      simp only [List.set_cons_succ, List.sum_cons]
      omega

end Totals
