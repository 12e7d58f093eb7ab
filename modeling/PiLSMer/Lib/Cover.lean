import Mathlib.Algebra.BigOperators.Group.List.Basic
import Mathlib.Algebra.GroupWithZero.Nat
import Mathlib.Algebra.Order.BigOperators.Group.List
import Mathlib.Algebra.Order.Monoid.Defs
import Mathlib.Data.List.Induction

/-! Covering an interval by pieces at the least cost. A piece has a length and a cost in an
ordered monoid; at each position some pieces are on offer, in an order that decides between
covers of equal cost. The rules of the table are those of a run from the end of the interval. -/
namespace Cover

/-- Pieces laid one behind the other from a position to the goal. -/
inductive Cut {γ : Type} (len : γ → Nat) (goal : Nat) (on : Nat → γ → Prop) :
    Nat → List γ → Prop where
  | done : Cut len goal on goal []
  | step {i : Nat} {c : γ} {cs : List γ} :
    on i c → Cut len goal on (i + len c) cs → Cut len goal on i (c :: cs)

structure Problem (γ κ : Type) where
  goal : Nat
  len : γ → Nat
  cost : γ → κ
  offers : Nat → List γ

theorem Cut.length {γ : Type} {len : γ → Nat} {goal : Nat} {on : Nat → γ → Prop} {i : Nat}
    {cs : List γ} (h : Cut len goal on i cs) : i + (cs.map len).sum = goal := by
  induction h with
  | done => rfl
  | step _ _ ih =>
    rw [List.map_cons, List.sum_cons, ← Nat.add_assoc]
    exact ih

section Least

variable {γ κ : Type}

namespace Problem

variable (P : Problem γ κ)

def Covers : Nat → List γ → Prop := Cut P.len P.goal (fun i c => c ∈ P.offers i)

def Positive : Prop := ∀ i, ∀ c ∈ P.offers i, 0 < P.len c

variable {P} {i : Nat} {cs ds : List γ}

theorem Covers.le_goal (h : P.Covers i cs) : i ≤ P.goal := by
  have := h.length
  omega

theorem Covers.goal (positive : P.Positive) (h : P.Covers P.goal cs) : cs = [] := by
  cases cs with
  | nil => rfl
  | cons c cs =>
    unfold Covers at h
    cases h with
    | step offered rest =>
      have later := Covers.le_goal rest
      have := positive _ c offered
      omega

variable [AddCommMonoid κ] (P)

def total (cs : List γ) : κ := (cs.map P.cost).sum

@[simp] theorem total_cons (c : γ) (cs : List γ) : P.total (c :: cs) = P.cost c + P.total cs :=
  List.sum_cons

variable [LinearOrder κ]

/-- The cover that takes the first of the cheapest pieces on offer at every position. -/
inductive Picks : Nat → List γ → Prop where
  | done : Picks P.goal []
  | step {i : Nat} {before after rest : List γ} {c : γ} :
    P.offers i = before ++ c :: after → Picks (i + P.len c) rest →
    (∀ d ∈ before, ∀ ds, P.Covers (i + P.len d) ds → P.total (c :: rest) < P.total (d :: ds)) →
    (∀ d ∈ after, ∀ ds, P.Covers (i + P.len d) ds → P.total (c :: rest) ≤ P.total (d :: ds)) →
    Picks i (c :: rest)

variable {P}

theorem Picks.covers (h : P.Picks i cs) : P.Covers i cs := by
  induction h with
  | done => exact .done
  | step offered _ _ _ ih => exact .step (by simp [offered]) ih

theorem Picks.unique (positive : P.Positive) (h : P.Picks i cs) (h' : P.Picks i ds) : cs = ds := by
  induction h generalizing ds with
  | done => exact (h'.covers.goal positive).symm
  | @step i before after rest c offered picked before_dearer after_dearer ih =>
    cases h' with
    | done =>
      have later := picked.covers.le_goal
      have := positive P.goal c (by simp [offered])
      omega
    | @step _ before' after' rest' c' offered' picked' before_dearer' after_dearer' =>
      have parts := offered.symm.trans offered'
      rcases List.append_eq_append_iff.mp parts with ⟨as, hb, ha⟩ | ⟨as, hb, ha⟩
      · cases as with
        | nil =>
          simp only [List.nil_append, List.cons.injEq] at ha
          obtain ⟨rfl, _⟩ := ha
          rw [ih picked']
        | cons a as =>
          -- c stands before c', so c' is strictly cheaper than c, which is as cheap as c'.
          simp only [List.cons_append, List.cons.injEq] at ha
          obtain ⟨rfl, rfl⟩ := ha
          have strict := before_dearer' c (by simp [hb]) rest picked.covers
          have weak := after_dearer c' (by simp) rest' picked'.covers
          exact absurd strict (not_lt.mpr weak)
      · cases as with
        | nil =>
          simp only [List.nil_append, List.cons.injEq] at ha
          obtain ⟨rfl, _⟩ := ha
          rw [ih picked']
        | cons a as =>
          simp only [List.cons_append, List.cons.injEq] at ha
          obtain ⟨rfl, rfl⟩ := ha
          have strict := before_dearer c' (by simp [hb]) rest' picked'.covers
          have weak := after_dearer' c (by simp) rest picked.covers
          exact absurd strict (not_lt.mpr weak)

variable [IsOrderedCancelAddMonoid κ]

theorem Picks.least (positive : P.Positive) (h : P.Picks i cs) (other : P.Covers i ds) :
    P.total cs ≤ P.total ds := by
  induction h generalizing ds with
  | done => rw [other.goal positive]
  | @step i before after rest c offered picked before_dearer after_dearer ih =>
    unfold Covers at other
    cases other with
    | done =>
      have later := picked.covers.le_goal
      have := positive P.goal c (by simp [offered])
      omega
    | @step _ d ds there covered =>
      simp only [offered, List.mem_append, List.mem_cons] at there
      rcases there with first | rfl | last
      · exact le_of_lt (before_dearer d first ds covered)
      · rw [total_cons, total_cons]
        exact add_le_add_right (ih covered) _
      · exact after_dearer d last ds covered

end Problem

theorem Cut.dominated [AddCommMonoid κ] [LinearOrder κ] [IsOrderedCancelAddMonoid κ]
    {len : γ → Nat} {goal : Nat} {on on' : Nat → γ → Prop} (cost : γ → κ)
    (cheaper : ∀ i d, on' i d → ∃ c, on i c ∧ len c = len d ∧ cost c ≤ cost d) {i : Nat}
    {ds : List γ} (h : Cut len goal on' i ds) :
    ∃ cs, Cut len goal on i cs ∧ (cs.map cost).sum ≤ (ds.map cost).sum := by
  induction h with
  | done => exact ⟨[], .done, le_refl _⟩
  | step allowed _ ih =>
    obtain ⟨cs, cut, least⟩ := ih
    obtain ⟨c, there, size, cheap⟩ := cheaper _ _ allowed
    refine ⟨c :: cs, .step there (size ▸ cut), ?_⟩
    rw [List.map_cons, List.map_cons, List.sum_cons, List.sum_cons]
    exact add_le_add cheap least

theorem Cut.mono {len : γ → Nat} {goal : Nat} {on on' : Nat → γ → Prop} {i : Nat} {cs : List γ}
    (wider : ∀ i c, on i c → on' i c) (h : Cut len goal on i cs) : Cut len goal on' i cs := by
  induction h with
  | done => exact .done
  | step allowed _ ih => exact .step (wider _ _ allowed) ih

theorem Cut.append {len : γ → Nat} {goal mid : Nat} {on : Nat → γ → Prop} {i : Nat}
    {cs ds : List γ} (h : Cut len mid on i cs) (h' : Cut len goal on mid ds) :
    Cut len goal on i (cs ++ ds) := by
  induction h with
  | done => exact h'
  | step allowed _ ih => exact .step allowed ih

theorem Cut.shift {len : γ → Nat} {goal : Nat} {on on' : Nat → γ → Prop} {k i : Nat}
    {cs : List γ} (moved : ∀ i c, on i c → on' (k + i) c) (h : Cut len goal on i cs) :
    Cut len (k + goal) on' (k + i) cs := by
  induction h with
  | done => exact .done
  | step allowed _ ih =>
    rw [← Nat.add_assoc] at ih
    exact .step (moved _ _ allowed) ih

theorem Cut.front [AddCommMonoid κ] [LinearOrder κ] [IsOrderedCancelAddMonoid κ]
    {len : γ → Nat} {goal mid : Nat} {on on' : Nat → γ → Prop} (cost : γ → κ)
    (free : ∀ c, 0 ≤ cost c)
    (shorter : ∀ i c, on i c → i < mid →
      ∃ d, on' i d ∧ i + len d = min (i + len c) mid ∧ cost d ≤ cost c)
    {i : Nat} {cs : List γ} (before : i ≤ mid) (inside : mid ≤ goal) (h : Cut len goal on i cs) :
    ∃ ds, Cut len mid on' i ds ∧ (ds.map cost).sum ≤ (cs.map cost).sum := by
  induction h with
  | done =>
    obtain rfl := Nat.le_antisymm inside before
    exact ⟨[], .done, le_refl _⟩
  | @step i c cs allowed rest ih =>
    rcases Nat.lt_or_eq_of_le before with early | rfl
    · obtain ⟨d, allowed', size, cheap⟩ := shorter i c allowed early
      rw [List.map_cons, List.sum_cons]
      rcases Nat.le_total (i + len c) mid with whole | cut
      · rw [Nat.min_eq_left whole] at size
        obtain ⟨ds, front, least⟩ := ih whole
        refine ⟨d :: ds, .step allowed' (size ▸ front), ?_⟩
        rw [List.map_cons, List.sum_cons]
        exact add_le_add cheap least
      · rw [Nat.min_eq_right cut] at size
        refine ⟨[d], .step allowed' (size ▸ .done), ?_⟩
        have behind : 0 ≤ (cs.map cost).sum := List.sum_nonneg (by simp [free])
        rw [List.map_singleton, List.sum_singleton]
        exact cheap.trans (le_add_of_nonneg_right behind)
    · refine ⟨[], .done, ?_⟩
      rw [List.map_nil, List.sum_nil]
      exact List.sum_nonneg (by simp [free])

end Least

section Improve

variable {γ σ κ : Type} [LinearOrder κ] (value : γ → Option σ) (key : σ → κ)

/-- One piece against the best so far: only a strictly smaller key replaces it. -/
def improve (best : Option σ) (c : γ) : Option σ :=
  match value c with
  | none => best
  | some s => if best.all (fun b => key s < key b) then some s else best

variable {value key} {xs : List γ}

theorem foldl_improve_none (h : xs.foldl (improve value key) none = none) :
    ∀ c ∈ xs, value c = none := by
  induction xs using List.reverseRecOn with
  | nil => simp
  | append_singleton xs x ih =>
    rw [List.foldl_append, List.foldl_cons, List.foldl_nil] at h
    cases valued : value x with
    | none =>
      rw [improve, valued] at h
      intro c hc
      rcases List.mem_append.mp hc with hc | hc
      · exact ih h c hc
      · rw [List.mem_singleton.mp hc, valued]
    | some s =>
      rw [improve, valued] at h
      cases sofar : xs.foldl (improve value key) none with
      | none => simp [sofar] at h
      | some b =>
        rw [sofar] at h
        dsimp only at h
        split at h <;> cases h

theorem foldl_improve_some {s : σ} (h : xs.foldl (improve value key) none = some s) :
    ∃ before c after, xs = before ++ c :: after ∧ value c = some s ∧
      (∀ d ∈ before, ∀ t, value d = some t → key s < key t) ∧
      (∀ d ∈ after, ∀ t, value d = some t → key s ≤ key t) := by
  induction xs using List.reverseRecOn generalizing s with
  | nil => cases h
  | append_singleton xs x ih =>
    rw [List.foldl_append, List.foldl_cons, List.foldl_nil] at h
    cases sofar : xs.foldl (improve value key) none with
    | none =>
      have nothing := foldl_improve_none sofar
      cases valued : value x with
      | none => simp [improve, valued, sofar] at h
      | some t =>
        simp only [improve, valued, sofar, Option.all_none, if_true, Option.some.injEq] at h
        subst h
        refine ⟨xs, x, [], rfl, valued, fun d hd u hu => ?_, by simp⟩
        rw [nothing d hd] at hu
        cases hu
    | some b =>
      obtain ⟨before, c, after, rfl, first, dearer, notCheaper⟩ := ih sofar
      have behind : ∀ t, value x = some t → key b ≤ key t →
          improve value key (some b) x = some b := by
        intro t ht le
        simp [improve, ht, le]
      cases valued : value x with
      | none =>
        simp only [improve, valued, sofar, Option.some.injEq] at h
        subst h
        refine ⟨before, c, after ++ [x], by simp, first, dearer, fun d hd t ht => ?_⟩
        rcases List.mem_append.mp hd with hd | hd
        · exact notCheaper d hd t ht
        · rw [List.mem_singleton.mp hd, valued] at ht
          cases ht
      | some t =>
        rw [sofar] at h
        by_cases less : key t < key b
        · simp only [improve, valued, Option.all_some, less, decide_true, if_true,
            Option.some.injEq] at h
          subst h
          refine ⟨before ++ c :: after, x, [], rfl, valued, fun d hd u hu => ?_, by simp⟩
          rcases List.mem_append.mp hd with hd | hd
          · exact less.trans (dearer d hd u hu)
          · rcases List.mem_cons.mp hd with rfl | hd
            · cases first.symm.trans hu
              exact less
            · exact less.trans_le (notCheaper d hd u hu)
        · rw [behind t valued (not_lt.mp less), Option.some.injEq] at h
          subst h
          refine ⟨before, c, after ++ [x], by simp, first, dearer, fun d hd u hu => ?_⟩
          rcases List.mem_append.mp hd with hd | hd
          · exact notCheaper d hd u hu
          · rw [List.mem_singleton.mp hd] at hu
            cases valued.symm.trans hu
            exact not_lt.mp less

theorem foldl_improve_dominated {c : γ} {tail : List γ} (best : Option σ)
    (dominated : ∀ d ∈ tail, ∀ t, value d = some t → ∃ s, value c = some s ∧ key s ≤ key t) :
    (c :: tail).foldl (improve value key) best = improve value key best c := by
  have kept : ∀ s b, value c = some s → improve value key best c = some b → key b ≤ key s := by
    intro s b hs hb
    simp only [improve, hs] at hb
    split at hb
    · cases hb
      exact le_refl _
    · rename_i less
      subst hb
      simpa using less
  rw [List.foldl_cons]
  induction tail with
  | nil => rfl
  | cons d tail ih =>
    have same : improve value key (improve value key best c) d = improve value key best c := by
      cases valued : value d with
      | none => simp only [improve, valued]
      | some t =>
        obtain ⟨s, hs, le⟩ := dominated d (List.mem_cons_self ..) t valued
        have reached : ∃ b, improve value key best c = some b := by
          simp only [improve, hs]
          cases best with
          | none => exact ⟨s, rfl⟩
          | some b =>
            split
            · exact ⟨s, rfl⟩
            · exact ⟨b, rfl⟩
        obtain ⟨b, hb⟩ := reached
        have low := (kept s b hs hb).trans le
        rw [hb]
        simp [improve, valued, low]
    rw [List.foldl_cons, same]
    exact ih (fun d hd => dominated d (List.mem_cons_of_mem _ hd))

end Improve

section Table

variable {γ σ κ : Type} [AddCommMonoid κ] [LinearOrder κ] [IsOrderedCancelAddMonoid κ]
  (P : Problem γ κ) (key : σ → κ) (first : σ → Option γ)

/-- A right table entry: empty where there is no cover, else the cost of the pick and its first
piece. -/
def Problem.Right (i : Nat) : Option σ → Prop
  | none => ∀ cs, ¬ P.Covers i cs
  | some s => ∃ cs, P.Picks i cs ∧ key s = P.total cs ∧ first s = cs.head?

variable {P key first}

theorem Problem.right_step {i : Nat} {next : γ → Option σ} {extend : γ → σ → σ}
    (positive : P.Positive) (before_goal : i ≠ P.goal)
    (adds : ∀ c s, key (extend c s) = P.cost c + key s)
    (starts : ∀ c s, first (extend c s) = some c)
    (right : ∀ c ∈ P.offers i, P.Right key first (i + P.len c) (next c)) :
    P.Right key first i
      ((P.offers i).foldl (improve (fun c => (next c).map (extend c)) key) none) := by
  cases run : (P.offers i).foldl (improve (fun c => (next c).map (extend c)) key) none with
  | none =>
    intro cs covered
    unfold Problem.Covers at covered
    cases covered with
    | done => exact before_goal rfl
    | @step _ c cs offered rest =>
      have dead := right c offered
      rw [Option.map_eq_none_iff.mp (foldl_improve_none run c offered)] at dead
      exact dead cs rest
  | some s =>
    obtain ⟨before, c, after, offered, valued, dearer, notCheaper⟩ := foldl_improve_some run
    obtain ⟨s', stored, rfl⟩ := Option.map_eq_some_iff.mp valued
    have here := right c (by simp [offered])
    rw [stored] at here
    obtain ⟨rest, picked, cost, _⟩ := here
    -- What a piece d leads to costs no more than any cover ds behind d.
    have bound : ∀ d ∈ P.offers i, ∀ ds, P.Covers (i + P.len d) ds →
        ∃ t, next d = some t ∧ key (extend d t) ≤ P.total (d :: ds) := by
      intro d hd ds covered
      have there := right d hd
      cases led : next d with
      | none =>
        rw [led] at there
        exact absurd covered (there ds)
      | some t =>
        rw [led] at there
        obtain ⟨cs, pick, least, _⟩ := there
        refine ⟨t, rfl, ?_⟩
        rw [adds, least, Problem.total_cons]
        exact add_le_add_right (pick.least positive covered) _
    have total : key (extend c s') = P.total (c :: rest) := by
      rw [adds, cost, Problem.total_cons]
    refine ⟨c :: rest, .step offered picked (fun d hd ds covered => ?_)
      (fun d hd ds covered => ?_), total, starts c s'⟩
    · obtain ⟨t, led, le⟩ := bound d (by simp [offered, hd]) ds covered
      exact total ▸ (dearer d hd _ (by simp [led])).trans_le le
    · obtain ⟨t, led, le⟩ := bound d (by simp [offered, hd]) ds covered
      exact total ▸ (notCheaper d hd _ (by simp [led])).trans le

omit [IsOrderedCancelAddMonoid κ] in
theorem Problem.right_goal {s : σ} (free : key s = 0) (last : first s = none) :
    P.Right key first P.goal (some s) :=
  ⟨[], .done, free, last⟩

end Table

end Cover
