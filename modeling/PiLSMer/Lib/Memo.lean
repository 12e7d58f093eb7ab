/-! A memo whose keys say less than the requests they stand for. Entries come from earlier
requests and may vanish at any time. An answer from the table is right exactly when the
request would have been answered anyway. -/
namespace Memoize

variable {ρ κ ν ε : Type}

/-- The key each request is filed under, and its answer without a table. -/
structure Memo (ρ κ ν ε : Type) where
  key : ρ → κ
  compute : ρ → Except ε ν

abbrev Table (κ ν : Type) := κ → Option ν

def Memo.call (m : Memo ρ κ ν ε) (table : Table κ ν) (r : ρ) : Except ε ν :=
  match table (m.key r) with
  | some v => .ok v
  | none => m.compute r

def Memo.Fills (m : Memo ρ κ ν ε) (r : ρ) (table table' : Table κ ν) : Prop :=
  ∀ k v, table' k = some v → table k = some v ∨ (k = m.key r ∧ m.compute r = .ok v)

inductive Memo.Reach (m : Memo ρ κ ν ε) : List ρ → Table κ ν → Prop where
  | empty : Memo.Reach m [] (fun _ => none)
  | step {asked : List ρ} {table table' : Table κ ν} {r : ρ} (reach : Memo.Reach m asked table)
      (fills : m.Fills r table table') : Memo.Reach m (asked ++ [r]) table'

def Memo.Decisive (m : Memo ρ κ ν ε) (requests : List ρ) : Prop :=
  ∀ q ∈ requests, ∀ r ∈ requests, m.key q = m.key r →
    ∀ v w, m.compute q = .ok v → m.compute r = .ok w → v = w

variable {m : Memo ρ κ ν ε} {asked requests : List ρ} {table : Table κ ν}

theorem Memo.Reach.origin (reach : m.Reach asked table) {k : κ} {v : ν}
    (cached : table k = some v) : ∃ q ∈ asked, m.key q = k ∧ m.compute q = .ok v := by
  induction reach with
  | empty => cases cached
  | @step asked table table' r _ fills ih =>
    obtain before | ⟨rfl, computed⟩ := fills k v cached
    · obtain ⟨q, earlier, filed, computed⟩ := ih before
      exact ⟨q, List.mem_append_left _ earlier, filed, computed⟩
    · exact ⟨r, List.mem_append_right _ (List.mem_singleton_self r), rfl, computed⟩

theorem Memo.Reach.call_eq_iff (reach : m.Reach asked table) (decisive : m.Decisive requests)
    (earlier : asked ⊆ requests) {r : ρ} (this : r ∈ requests) :
    m.call table r = m.compute r ↔ ((table (m.key r)).isSome → ∃ v, m.compute r = .ok v) := by
  unfold Memo.call
  cases cached : table (m.key r) with
  | none => simp
  | some w =>
    obtain ⟨q, before, filed, computed⟩ := reach.origin cached
    constructor
    · exact fun same _ => ⟨w, same.symm⟩
    · intro answered
      obtain ⟨v, own⟩ := answered rfl
      rw [own, decisive q (earlier before) r this filed w v computed own]

end Memoize
