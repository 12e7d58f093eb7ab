import Mathlib.Data.List.Sort

/-! Lists sorted by a key: the run of one key at the front, the elements of one key after a
sort, and the search for a key by halving. -/
namespace Sorted

section Runs

variable {α κ : Type} [LinearOrder κ] {key : α → κ} {k : κ} {xs : List α}

/-- In a list sorted from k on, the elements with key k are the run at its front. -/
theorem takeWhile_eq_filter (sorted : xs.Pairwise (fun a b => key a ≤ key b))
    (from_key : ∀ x ∈ xs, k ≤ key x) :
    xs.takeWhile (fun x => key x = k) = xs.filter (fun x => key x = k) := by
  induction xs with
  | nil => rfl
  | cons x xs ih =>
    obtain ⟨first, rest⟩ := List.pairwise_cons.mp sorted
    by_cases here : key x = k
    · have tail := ih rest (fun y hy => from_key y (List.mem_cons_of_mem _ hy))
      simp [here, tail]
    · have above : ∀ y ∈ xs, key y ≠ k := by
        intro y hy same
        exact here (le_antisymm (same ▸ first y hy) (from_key x (List.mem_cons_self ..)))
      simp [here]
      exact above

theorem dropWhile_above (sorted : xs.Pairwise (fun a b => key a ≤ key b))
    (from_key : ∀ x ∈ xs, k ≤ key x) : ∀ x ∈ xs.dropWhile (fun x => key x = k), k < key x := by
  induction xs with
  | nil => simp
  | cons x xs ih =>
    obtain ⟨first, rest⟩ := List.pairwise_cons.mp sorted
    have low := from_key x (List.mem_cons_self ..)
    by_cases here : key x = k
    · rw [List.dropWhile_cons_of_pos (by simpa using here)]
      exact ih rest (fun y hy => from_key y (List.mem_cons_of_mem _ hy))
    · rw [List.dropWhile_cons_of_neg (by simpa using here)]
      have beyond := lt_of_le_of_ne low (Ne.symm here)
      intro y hy
      rcases List.mem_cons.mp hy with rfl | hy
      · exact beyond
      · exact lt_of_lt_of_le beyond (first y hy)

end Runs

/-- Sorting does not move elements that are in order already. -/
theorem filter_insertionSort {α : Type} (r : α → α → Prop) [DecidableRel r] [Std.Total r]
    [IsTrans α r] [Std.Antisymm r] (keep : α → Bool) {xs : List α}
    (ordered : (xs.filter keep).Pairwise r) :
    (xs.insertionSort r).filter keep = xs.filter keep :=
  List.Perm.eq_of_pairwise' ((List.pairwise_insertionSort r xs).filter keep) ordered
    ((List.perm_insertionSort r xs).filter keep)

/-- The halving loop of a binary search: above says whether a position lies behind the one
looked for. -/
def halve (above : Nat → Bool) : Nat → Nat → Nat → Nat
  | 0, base, _ => base
  | rounds + 1, base, size =>
    if 1 < size then
      let half := size / 2
      let mid := base + half
      halve above rounds (if above mid then base else mid) (size - half)
    else base

theorem halve_finds {above : Nat → Bool} {target bound : Nat}
    (cut : ∀ i < bound, above i = true ↔ target < i) {rounds base size : Nat}
    (low : base ≤ target) (high : target < base + size) (inside : base + size ≤ bound)
    (enough : size ≤ rounds + 1) : halve above rounds base size = target := by
  induction rounds generalizing base size with
  | zero =>
    unfold halve
    omega
  | succ rounds ih =>
    unfold halve
    split
    · rename_i more
      have middle := cut (base + size / 2) (by omega)
      by_cases behind : above (base + size / 2) = true
      · have := middle.mp behind
        simp only [behind, if_true]
        exact ih low (by omega) (by omega) (by omega)
      · have : ¬ target < base + size / 2 := fun h => behind (middle.mpr h)
        simp only [behind]
        exact ih (by simp; omega) (by simp; omega) (by simp; omega) (by omega)
    · omega

end Sorted
