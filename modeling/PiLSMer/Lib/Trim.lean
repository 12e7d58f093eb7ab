import Mathlib.Data.List.DropRight

/-! Trimming a list at both ends and splitting it, by a test on its elements. -/
namespace Trimming

variable {α : Type} {p : α → Bool} {l before after : List α}

def trim (p : α → Bool) (l : List α) : List α := (l.dropWhile p).rdropWhile p

structure Firm (p : α → Bool) (l : List α) : Prop where
  first : ∀ x ∈ l.head?, p x = false
  last : ∀ x ∈ l.getLast?, p x = false

theorem none_pass (h : l.any p = false) : ∀ x ∈ l, p x = false :=
  fun x mem => Bool.eq_false_iff.mpr (List.any_eq_false.mp h x mem)

theorem end_fails {e : Option α} (h : e.any p = false) : ∀ x ∈ e, p x = false := by
  rintro x rfl
  exact h

theorem dropWhile_firm (first : ∀ x ∈ l.head?, p x = false) : l.dropWhile p = l := by
  cases l with
  | nil => rfl
  | cons x xs =>
    have stays : p x = false := first x rfl
    rw [List.dropWhile_cons_of_neg (by rw [stays]; exact Bool.false_ne_true)]

theorem rdropWhile_firm (last : ∀ x ∈ l.getLast?, p x = false) : l.rdropWhile p = l := by
  rw [List.rdropWhile_eq_self_iff]
  intro nonempty
  rw [last _ (List.getLast?_eq_getLast_of_ne_nil nonempty ▸ rfl)]
  exact Bool.false_ne_true

theorem Firm.trim (firm : Firm p l) : trim p l = l := by
  rw [Trimming.trim, dropWhile_firm firm.first, rdropWhile_firm firm.last]

theorem Firm.of_solid (solid : ∀ x ∈ l, p x = false) : Firm p l where
  first x head := solid x (List.mem_of_mem_head? head)
  last x tail := solid x (List.mem_of_mem_getLast? tail)

theorem Firm.append (first : ∀ x ∈ before.head?, p x = false)
    (last : ∀ x ∈ after.getLast?, p x = false) (left : before ≠ []) (right : after ≠ []) :
    Firm p (before ++ after) := by
  constructor
  · rwa [List.head?_append_of_ne_nil before left]
  · rwa [List.getLast?_append_of_ne_nil before right]

/-- Dropping from the back stops inside the second part, unless all of it passes. -/
theorem rdropWhile_append (l : List α) (stops : after.rdropWhile p ≠ []) :
    (l ++ after).rdropWhile p = l ++ after.rdropWhile p := by
  have inside : (after.reverse.dropWhile p).isEmpty = false := by
    rw [List.isEmpty_eq_false_iff]
    exact fun none => stops (by rw [List.rdropWhile, none]; rfl)
  rw [List.rdropWhile, List.reverse_append, List.dropWhile_append, inside,
    if_neg Bool.false_ne_true, List.reverse_append, List.reverse_reverse]
  rfl

theorem rdropWhile_append_of_all (l : List α) (all : ∀ x ∈ after, p x) :
    (l ++ after).rdropWhile p = l.rdropWhile p := by
  have whole : after.reverse.dropWhile p = [] := by
    rw [List.dropWhile_eq_nil_iff]
    exact fun x mem => all x (List.mem_reverse.mp mem)
  rw [List.rdropWhile, List.reverse_append, List.dropWhile_append, whole,
    if_pos List.isEmpty_nil]
  rfl

theorem Firm.trim_append (firm : Firm p l) (all : ∀ x ∈ after, p x) :
    Trimming.trim p (l ++ after) = l := by
  cases l with
  | nil =>
    have none : after.dropWhile p = [] := List.dropWhile_eq_nil_iff.mpr all
    rw [List.nil_append, Trimming.trim, none, List.rdropWhile_nil]
  | cons x xs =>
    have front : (x :: xs ++ after).dropWhile p = x :: xs ++ after := dropWhile_firm firm.first
    rw [Trimming.trim, front, rdropWhile_append_of_all _ all, rdropWhile_firm firm.last]

theorem rdropWhile_cons {x : α} (xs : List α) (stays : p x = false) :
    ∃ rest, (x :: xs).rdropWhile p = x :: rest := by
  obtain ⟨dropped, split⟩ := List.rdropWhile_prefix p (x :: xs)
  cases left : (x :: xs).rdropWhile p with
  | nil =>
    have passes : p x = true := List.rdropWhile_eq_nil_iff.mp left x (List.mem_cons_self ..)
    rw [stays] at passes
    cases passes
  | cons y rest =>
    rw [left] at split
    obtain ⟨rfl, _⟩ := List.cons.inj split
    exact ⟨rest, rfl⟩

theorem trim_cons {x : α} (xs : List α) (stays : p x = false) :
    ∃ rest, trim p (x :: xs) = x :: rest := by
  rw [trim, List.dropWhile_cons_of_neg (by rw [stays]; exact Bool.false_ne_true)]
  exact rdropWhile_cons xs stays

theorem trim_first {x : α} (leaves : trim p l = x :: after) : p x = false := by
  obtain ⟨tail, split⟩ := List.rdropWhile_prefix p (l.dropWhile p)
  change trim p l ++ tail = _ at split
  rw [leaves] at split
  have nonempty : l.dropWhile p ≠ [] := by simp [← split]
  have stops : p ((l.dropWhile p).head nonempty) = false := List.head_dropWhile_not p nonempty
  simpa only [← split, List.cons_append, List.head_cons] using stops

def splitOnce (p : α → Bool) (l : List α) : Option (List α × List α) :=
  match l.dropWhile (fun x => !p x) with
  | [] => none
  | _ :: after => some (l.takeWhile (fun x => !p x), after)

theorem splitOnce_append {x : α} (solid : ∀ c ∈ before, p c = false) (sep : p x = true) :
    splitOnce p (before ++ x :: after) = some (before, after) := by
  have dropped : (before ++ x :: after).dropWhile (fun c => !p c) = x :: after := by
    rw [List.dropWhile_append_of_pos (fun c mem => by simp [solid c mem])]
    exact List.dropWhile_cons_of_neg (by simp [sep])
  have taken : (before ++ x :: after).takeWhile (fun c => !p c) = before := by
    rw [List.takeWhile_append_of_pos (fun c mem => by simp [solid c mem]),
      List.takeWhile_cons_of_neg (by simp [sep]), List.append_nil]
  rw [splitOnce, dropped, taken]

theorem splitOnce_some (split : splitOnce p l = some (before, after)) :
    ∃ x, l = before ++ x :: after ∧ p x = true ∧ ∀ c ∈ before, p c = false := by
  unfold splitOnce at split
  split at split
  · cases split
  · rename_i x rest dropped
    cases split
    refine ⟨x, ?_, ?_, ?_⟩
    · rw [← dropped, List.takeWhile_append_dropWhile]
    · have nonempty : l.dropWhile (fun c => !p c) ≠ [] := by simp [dropped]
      have stops := List.head_dropWhile_not (fun c => !p c) nonempty
      simpa [dropped] using stops
    · intro c mem
      simpa using List.mem_takeWhile_imp mem

end Trimming
