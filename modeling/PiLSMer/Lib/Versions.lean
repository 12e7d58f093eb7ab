import Mathlib.Data.List.Forall2
import Mathlib.Data.List.Pairwise
import Mathlib.Logic.Relation
import Mathlib.Order.Basic
import Mathlib.Order.WellFounded

/-! Records with versions: each has a key and a sequence number, and a snapshot sees of a key the
newest version that is not newer than itself. -/
namespace Versions

variable {ρ κ τ : Type} [LinearOrder τ] (key : ρ → κ) (seq : ρ → τ)

/-- The version of a key that a snapshot sees. -/
structure Visible (rows : List ρ) (snapshot : τ) (k : κ) (row : ρ) : Prop where
  member : row ∈ rows
  keyed : key row = k
  old : seq row ≤ snapshot
  newest : ∀ other ∈ rows, key other = k → seq other ≤ snapshot → seq other ≤ seq row

/-- A relation between the versions before and after that leaves keys and sequence numbers. -/
structure Stamped (R : ρ → ρ → Prop) : Prop where
  key : ∀ row row', R row row' → key row' = key row
  seq : ∀ row row', R row row' → seq row' = seq row

variable {key seq} {rows rows' : List ρ} {snapshot : τ} {k : κ} {R : ρ → ρ → Prop}

theorem related_left (related : List.Forall₂ R rows rows') {row : ρ} (member : row ∈ rows) :
    ∃ row' ∈ rows', R row row' := by
  induction related with
  | nil => cases member
  | cons first _ ih =>
    rcases List.mem_cons.mp member with rfl | member
    · exact ⟨_, .head _, first⟩
    · obtain ⟨row', there, same⟩ := ih member
      exact ⟨row', .tail _ there, same⟩

theorem related_right (related : List.Forall₂ R rows rows') {row' : ρ} (member : row' ∈ rows') :
    ∃ row ∈ rows, R row row' := by
  have flipped : List.Forall₂ (flip R) rows' rows := List.Forall₂.flip related
  exact related_left flipped member

theorem Visible.after (stamped : Stamped key seq R) (related : List.Forall₂ R rows rows')
    {row row' : ρ} (visible : Visible key seq rows snapshot k row) (member : row' ∈ rows')
    (same : R row row') : Visible key seq rows' snapshot k row' where
  member := member
  keyed := (stamped.key _ _ same).trans visible.keyed
  old := stamped.seq _ _ same ▸ visible.old
  newest other' there keyed old := by
    obtain ⟨other, before, alike⟩ := related_right related there
    rw [stamped.key _ _ alike] at keyed
    rw [stamped.seq _ _ alike] at old ⊢
    rw [stamped.seq _ _ same]
    exact visible.newest other before keyed old

theorem Visible.before (stamped : Stamped key seq R) (related : List.Forall₂ R rows rows')
    {row row' : ρ} (visible : Visible key seq rows' snapshot k row') (member : row ∈ rows)
    (same : R row row') : Visible key seq rows snapshot k row where
  member := member
  keyed := (stamped.key _ _ same).symm.trans visible.keyed
  old := stamped.seq _ _ same ▸ visible.old
  newest other there keyed old := by
    obtain ⟨other', after, alike⟩ := related_left related there
    rw [← stamped.key _ _ alike] at keyed
    rw [← stamped.seq _ _ alike] at old ⊢
    rw [← stamped.seq _ _ same]
    exact visible.newest other' after keyed old

variable (key seq) in
def Distinct (rows : List ρ) : Prop := rows.Pairwise (fun a b => key a = key b → seq a ≠ seq b)

theorem Visible.unique (distinct : Distinct key seq rows) {a b : ρ}
    (first : Visible key seq rows snapshot k a) (second : Visible key seq rows snapshot k b) :
    a = b := by
  have same : seq a = seq b := le_antisymm
    (second.newest a first.member first.keyed first.old)
    (first.newest b second.member second.keyed second.old)
  have symmetric : Std.Symm (fun a b => key a = key b → seq a ≠ seq b) :=
    ⟨fun _ _ h keys => (h keys.symm).symm⟩
  by_contra differ
  exact List.Pairwise.forall distinct first.member second.member differ
    (first.keyed.trans second.keyed.symm) same

omit [LinearOrder τ] in
theorem Distinct.related (distinct : Distinct key seq rows) (stamped : Stamped key seq R)
    (related : List.Forall₂ R rows rows') : Distinct key seq rows' := by
  induction related with
  | nil => exact .nil
  | @cons row row' rows rows' first rest ih =>
    obtain ⟨apart, distinct⟩ := List.pairwise_cons.mp distinct
    refine List.pairwise_cons.mpr ⟨fun other' member => ?_, ih distinct⟩
    obtain ⟨other, before, same⟩ := related_right rest member
    rw [stamped.key _ _ first, stamped.key _ _ same, stamped.seq _ _ first, stamped.seq _ _ same]
    exact apart other before

theorem visible_map {f : ρ → ρ} (keys : ∀ row, key (f row) = key row)
    (numbers : ∀ row, seq (f row) = seq row) {row' : ρ} :
    Visible key seq (rows.map f) snapshot k row' ↔
      ∃ row, Visible key seq rows snapshot k row ∧ f row = row' := by
  have stamped : Stamped key seq (fun row row' => f row = row') :=
    ⟨fun row _ same => same ▸ keys row, fun row _ same => same ▸ numbers row⟩
  have related : List.Forall₂ (fun row row' => f row = row') rows (rows.map f) :=
    List.forall₂_map_right_iff.mpr (List.forall₂_same.mpr (fun _ _ => rfl))
  constructor
  · intro visible
    obtain ⟨row, member, same⟩ := related_right related visible.member
    exact ⟨row, visible.before stamped related member same, same⟩
  · rintro ⟨row, visible, same⟩
    exact visible.after stamped related (same ▸ List.mem_map_of_mem visible.member) same

theorem visible_append {extra : List ρ} (later : ∀ row ∈ extra, snapshot < seq row) {row : ρ} :
    Visible key seq (extra ++ rows) snapshot k row ↔ Visible key seq rows snapshot k row := by
  constructor
  · rintro ⟨member, keyed, old, newest⟩
    refine ⟨?_, keyed, old, fun other there => newest other (List.mem_append_right _ there)⟩
    rcases List.mem_append.mp member with new | there
    · exact absurd old (not_le.mpr (later row new))
    · exact there
  · rintro ⟨member, keyed, old, newest⟩
    refine ⟨List.mem_append_right _ member, keyed, old, fun other there keyed old => ?_⟩
    rcases List.mem_append.mp there with new | there
    · exact absurd old (not_le.mpr (later other new))
    · exact newest other there keyed old

variable (seq R) in
/-- The steps after a snapshot: newer versions come, versions change by the relation. -/
inductive Step (snapshot : τ) : List ρ → List ρ → Prop
  | write {rows : List ρ} {row : ρ} (later : snapshot < seq row) :
      Step snapshot rows (row :: rows)
  | change {rows rows' : List ρ} (related : List.Forall₂ R rows rows') : Step snapshot rows rows'

variable (seq R) in
def Since (snapshot : τ) (rows rows' : List ρ) : Prop :=
  ∃ extra base, rows' = extra ++ base ∧ List.Forall₂ R rows base ∧
    ∀ row ∈ extra, snapshot < seq row

theorem related_refl (refl : ∀ row, R row row) (rows : List ρ) : List.Forall₂ R rows rows :=
  List.forall₂_same.mpr (fun row _ => refl row)

theorem related_trans (trans : ∀ a b c, R a b → R b c → R a c) {rows'' : List ρ}
    (first : List.Forall₂ R rows rows') (second : List.Forall₂ R rows' rows'') :
    List.Forall₂ R rows rows'' := by
  induction first generalizing rows'' with
  | nil => exact second
  | cons same _ ih =>
    cases second with
    | cons same' rest => exact .cons (trans _ _ _ same same') (ih rest)

theorem Since.step (stamped : Stamped key seq R) (trans : ∀ a b c, R a b → R b c → R a c)
    {rows'' : List ρ} (since : Since seq R snapshot rows rows')
    (step : Step seq R snapshot rows' rows'') : Since seq R snapshot rows rows'' := by
  obtain ⟨extra, base, rfl, related, later⟩ := since
  cases step with
  | @write row new =>
    refine ⟨row :: extra, base, rfl, related, fun other member => ?_⟩
    rcases List.mem_cons.mp member with rfl | member
    · exact new
    · exact later other member
  | change changed =>
    refine ⟨rows''.take extra.length, rows''.drop extra.length, (List.take_append_drop _ _).symm,
      ?_, ?_⟩
    · have dropped := List.forall₂_drop extra.length changed
      rw [List.drop_left] at dropped
      exact related_trans trans related dropped
    · intro row member
      have taken := List.forall₂_take extra.length changed
      rw [List.take_left] at taken
      obtain ⟨before, there, same⟩ := related_right taken member
      rw [stamped.seq _ _ same]
      exact later before there

/-- Whatever was written and changed since, a snapshot sees of a key what was made of the version
that it saw. -/
theorem view_kept (stamped : Stamped key seq R) (refl : ∀ row, R row row)
    (trans : ∀ a b c, R a b → R b c → R a c)
    (run : Relation.ReflTransGen (Step seq R snapshot) rows rows') (k : κ) :
    (∀ row, Visible key seq rows snapshot k row →
      ∃ row', Visible key seq rows' snapshot k row' ∧ R row row') ∧
    ∀ row', Visible key seq rows' snapshot k row' →
      ∃ row, Visible key seq rows snapshot k row ∧ R row row' := by
  have since : Since seq R snapshot rows rows' := by
    induction run with
    | refl => exact ⟨[], rows, rfl, related_refl refl rows, fun _ none => (by cases none)⟩
    | tail _ step ih => exact ih.step stamped trans step
  obtain ⟨extra, base, rfl, related, later⟩ := since
  constructor
  · intro row visible
    obtain ⟨row', member, same⟩ := related_left related visible.member
    exact ⟨row', (visible_append later).mpr (visible.after stamped related member same), same⟩
  · intro row' visible
    have there := (visible_append later).mp visible
    obtain ⟨row, member, same⟩ := related_right related there.member
    exact ⟨row, there.before stamped related member same, same⟩

section Descent

variable {α : Type} {x : Nat → α} {m : α → Nat}

/-- What changes only downwards changes no more often than the measure of its start. -/
theorem changes_bounded [DecidableEq α]
    (descends : ∀ n, x (n + 1) = x n ∨ m (x (n + 1)) < m (x n)) (n : Nat) :
    (List.range n).countP (fun i => x (i + 1) ≠ x i) + m (x n) ≤ m (x 0) := by
  induction n with
  | zero => exact Nat.le_of_eq (Nat.zero_add _)
  | succ n ih =>
    rw [List.range_succ, List.countP_append, List.countP_singleton]
    rcases descends n with same | lower
    · simp only [same, ne_eq, not_true_eq_false, decide_false, Bool.false_eq_true, if_false]
      exact ih
    · split <;> omega

theorem settles (descends : ∀ n, x (n + 1) = x n ∨ m (x (n + 1)) < m (x n)) :
    ∃ settled, ∀ n, settled ≤ n → x n = x settled := by
  obtain ⟨settled, _, least⟩ :=
    (InvImage.wf (fun n => m (x n)) Nat.lt_wfRel.wf).has_min Set.univ ⟨0, trivial⟩
  refine ⟨settled, fun n after => ?_⟩
  induction n, after using Nat.le_induction with
  | base => rfl
  | succ n _ ih =>
    rcases descends n with same | lower
    · exact same.trans ih
    · rw [ih] at lower
      exact absurd lower (least (n + 1) trivial)

end Descent

end Versions
