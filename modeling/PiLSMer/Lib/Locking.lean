import Mathlib.Logic.Hydra
import PiLSMer.Lib.Interleave

/-! Threads that hold at most one lock at a time. A waiting thread waits for one that can move,
so there is no deadlock; and a program is a well-founded tree, so the threads of a pool come to
an end however they are scheduled. -/
namespace Interleave

variable {Act : Type → Type} {σ Ω α β γ ε ρ K : Type}

/-- What an action does to the lock that its thread holds. -/
inductive Locking (K : Type) where
  | takes (key : K)
  | frees (key : K)
  | neither

def Locking.Moves : Locking K → Option K → Option K → Prop
  | .takes key, held, held' => held = none ∧ held' = some key
  | .frees key, held, held' => held = some key ∧ held' = none
  | .neither, held, held' => held' = held

/-- On every path the program takes a lock with empty hands only and frees what it holds. It
starts with one lock or none and ends with one or none. -/
def Prog.Tidy (role : ∀ β : Type, Act β → Locking K) (final : Option K) :
    Prog Act α → Option K → Prop
  | .done _, held => held = final
  | .act a next, held =>
    ∃ held', (role _ a).Moves held held' ∧ ∀ b, (next b).Tidy role final held'

section Tidy

variable {role : ∀ β : Type, Act β → Locking K} {held middle final : Option K}

theorem Prog.Tidy.bind {p : Prog Act α} {f : α → Prog Act γ} (first : p.Tidy role middle held)
    (next : ∀ a, (f a).Tidy role final middle) : (p >>= f).Tidy role final held := by
  induction p generalizing held with
  | done a =>
    have same : held = middle := first
    rw [same]
    exact next a
  | act a rest ih =>
    obtain ⟨held', moves, tidy⟩ := first
    exact ⟨held', moves, fun b => ih b (tidy b)⟩

theorem Prog.Tidy.andThen {x : Op Act ε α} {f : α → Op Act ε γ}
    (first : x.run.Tidy role held held) (next : ∀ a, (f a).run.Tidy role held held) :
    (x >>= f).run.Tidy role held held := by
  refine Prog.Tidy.bind (f := fun r => ExceptT.bindCont f r) first (fun r => ?_)
  cases r with
  | ok a => exact next a
  | error e => rfl

end Tidy

/-- A machine some of whose actions take and free locks. Whatever else an action does, it is
enabled. -/
structure Locks (M : Machine Act σ Ω) (K : Type) where
  owner : σ → K → Option Nat
  role : ∀ β : Type, Act β → Locking K
  taken : ∀ {β : Type} {a : Act β} {key : K} {o t s b s'}, role β a = .takes key →
    M.exec o t a s = some (b, s') → ∀ k u, owner s' k = some u ↔
      owner s k = some u ∨ k = key ∧ u = t
  freed : ∀ {β : Type} {a : Act β} {key : K} {o t s b s'}, role β a = .frees key →
    M.exec o t a s = some (b, s') → ∀ k u, owner s' k = some u ↔ owner s k = some u ∧ k ≠ key
  left : ∀ {β : Type} {a : Act β} {o t s b s'}, role β a = .neither →
    M.exec o t a s = some (b, s') → owner s' = owner s
  waits : ∀ {β : Type} {a : Act β} {key : K} t s, role β a = .takes key → owner s key = none →
    ∃ o b s', M.exec o t a s = some (b, s')
  goes : ∀ {β : Type} {a : Act β} t s, (∀ key, role β a ≠ .takes key) →
    ∃ o b s', M.exec o t a s = some (b, s')

variable {M : Machine Act σ Ω}

/-- A lock is held by the thread that has it in hand, and by no thread that is not there. -/
structure Pool.Held (L : Locks M K) (pool : Pool Act σ ρ) : Prop where
  hands : ∀ t p, pool.threads[t]? = some p →
    ∃ held, p.Tidy L.role none held ∧ ∀ key, L.owner pool.state key = some t ↔ held = some key
  born : ∀ key t, L.owner pool.state key = some t → t < pool.threads.length

variable {L : Locks M K} {calls : Prog Act ρ → Prop} {env : σ → σ → Prop}

theorem Pool.Held.spawn {s : σ} {threads : List (Prog Act ρ)} {p : Prog Act ρ}
    (held : (Pool.mk s threads).Held L) (tidy : p.Tidy L.role none none) :
    (Pool.mk s (threads ++ [p])).Held L := by
  refine ⟨fun t q there => ?_, fun key t owned => ?_⟩
  · rcases Nat.lt_or_ge t threads.length with before | after
    · rw [List.getElem?_append_left before] at there
      exact held.hands t q there
    · have new : t = threads.length := by
        have := (List.getElem?_eq_some_iff.mp there).1
        simp only [List.length_append, List.length_singleton] at this
        omega
      subst new
      simp only [List.getElem?_concat_length, Option.some.injEq] at there
      subst there
      refine ⟨none, tidy, fun key => ⟨fun owned => ?_, fun same => by cases same⟩⟩
      exact absurd (held.born key _ owned) (Nat.lt_irrefl _)
  · have before : t < threads.length := held.born key t owned
    simp only [List.length_append, List.length_singleton]
    omega

theorem Pool.Held.act {s s' : σ} {threads : List (Prog Act ρ)} {t : Nat} {a : Act β}
    {next : β → Prog Act ρ} {o : Ω} {b : β} (held : (Pool.mk s threads).Held L)
    (there : threads[t]? = some (.act a next)) (run : M.exec o t a s = some (b, s')) :
    (Pool.mk s' (threads.set t (next b))).Held L := by
  have bound : t < threads.length := (List.getElem?_eq_some_iff.mp there).1
  obtain ⟨mine, ⟨mine', moves, tidy⟩, owned⟩ := held.hands t _ there
  have own : ∀ key, L.owner s' key = some t ↔ mine' = some key := by
    intro key
    cases role : L.role _ a with
    | takes taken =>
      rw [role] at moves
      obtain ⟨rfl, rfl⟩ := moves
      rw [L.taken role run, owned]
      simp [eq_comm]
    | frees freed =>
      rw [role] at moves
      obtain ⟨rfl, rfl⟩ := moves
      rw [L.freed role run, owned]
      simp only [Option.some.injEq, reduceCtorEq, iff_false, not_and, not_not]
      exact fun same => same.symm
    | neither =>
      rw [role] at moves
      have same : mine' = mine := moves
      rw [L.left role run, same]
      exact owned key
  have others : ∀ u, u ≠ t → ∀ key, L.owner s' key = some u ↔ L.owner s key = some u := by
    intro u other key
    cases role : L.role _ a with
    | takes taken =>
      rw [L.taken role run]
      simp [other]
    | frees freed =>
      rw [role] at moves
      rw [L.freed role run]
      refine ⟨And.left, fun owns => ⟨owns, fun same => ?_⟩⟩
      have mineToo : L.owner s freed = some t := (owned freed).mpr moves.1
      rw [same, mineToo] at owns
      exact other (Option.some.inj owns).symm
    | neither => rw [L.left role run]
  refine ⟨fun u q hq => ?_, fun key u owns => ?_⟩
  · by_cases same : t = u
    · subst same
      simp only [List.getElem?_set_self bound, Option.some.injEq] at hq
      subst hq
      exact ⟨mine', tidy b, own⟩
    · simp only [List.getElem?_set_ne same] at hq
      obtain ⟨theirs, tidy', owned'⟩ := held.hands u q hq
      exact ⟨theirs, tidy', fun key => (others u (fun h => same h.symm) key).trans (owned' key)⟩
  · rw [List.length_set]
    by_cases same : u = t
    · exact same ▸ bound
    · exact held.born key u ((others u same key).mp owns)

theorem Pool.Held.step (tidy : ∀ p, calls p → p.Tidy L.role none none)
    (keeps : ∀ s s', env s s' → L.owner s' = L.owner s) {pool pool' : Pool Act σ ρ}
    (held : pool.Held L) (step : Pool.Step M calls env pool pool') : pool'.Held L := by
  cases step with
  | spawn call => exact held.spawn (tidy _ call)
  | act there run => exact held.act there run
  | env move =>
    obtain ⟨hands, born⟩ := held
    refine ⟨fun t p there => ?_, fun key t owned => ?_⟩
    · simp only [keeps _ _ move]
      exact hands t p there
    · rw [keeps _ _ move] at owned
      exact born key t owned

/-- In every interleaving of tidy calls each held lock is in the hand of one thread. -/
theorem Pool.Reach.held {good : σ → Prop} {start : σ} (free : ∀ key, L.owner start key = none)
    (tidy : ∀ p, calls p → p.Tidy L.role none none)
    (keeps : ∀ s s', env s s' → L.owner s' = L.owner s) {pool : Pool Act σ ρ}
    (reach : Pool.Reach M calls env good start pool) : pool.Held L := by
  induction reach with
  | start ok =>
    exact ⟨fun t p there => by simp at there, fun key t owned => by simp [free] at owned⟩
  | step _ step _ ih => exact ih.step tidy keeps step

def Pool.Turns (M : Machine Act σ Ω) : Pool Act σ ρ → Pool Act σ ρ → Prop :=
  Pool.Step M (fun _ => False) (fun _ _ => False)

def Pool.Busy (pool : Pool Act σ ρ) : Prop :=
  ∃ (t : Nat) (β : Type) (a : Act β) (next : β → Prog Act ρ),
    pool.threads[t]? = some (.act a next)

theorem Pool.turn_of_enabled {pool : Pool Act σ ρ} {t : Nat} {a : Act β} {next : β → Prog Act ρ}
    (there : pool.threads[t]? = some (.act a next))
    (enabled : ∃ o b s', M.exec o t a pool.state = some (b, s')) :
    ∃ pool', Pool.Turns M pool pool' := by
  obtain ⟨o, b, s', run⟩ := enabled
  exact ⟨_, Pool.Step.act there run⟩

theorem Pool.Held.holder {pool : Pool Act σ ρ} (held : pool.Held L) {key : K} {u : Nat}
    (owned : L.owner pool.state key = some u) :
    ∃ p, pool.threads[u]? = some p ∧ p.Tidy L.role none (some key) := by
  obtain ⟨p, there⟩ : ∃ p, pool.threads[u]? = some p :=
    ⟨_, List.getElem?_eq_getElem (held.born key u owned)⟩
  obtain ⟨theirs, tidy, hands⟩ := held.hands u p there
  have inHand : theirs = some key := (hands key).mp owned
  exact ⟨p, there, inHand ▸ tidy⟩

/-- No deadlock: who holds the lock another waits for does not wait himself. -/
theorem Pool.Held.progress {pool : Pool Act σ ρ} (held : pool.Held L) (busy : pool.Busy) :
    ∃ pool', Pool.Turns M pool pool' := by
  obtain ⟨t, β, a, next, there⟩ := busy
  by_cases waiting : ∃ key, L.role _ a = .takes key
  · obtain ⟨key, role⟩ := waiting
    cases owned : L.owner pool.state key with
    | none => exact Pool.turn_of_enabled there (L.waits t pool.state role owned)
    | some u =>
      obtain ⟨p, there', tidy⟩ := held.holder owned
      cases p with
      | done r => cases tidy
      | act a' next' =>
        obtain ⟨after, moves, _⟩ := tidy
        refine Pool.turn_of_enabled there' (L.goes u pool.state (fun other role' => ?_))
        rw [role'] at moves
        cases moves.1
  · exact Pool.turn_of_enabled there
      (L.goes t pool.state (fun key role => waiting ⟨key, role⟩))

theorem Pool.Held.free {pool : Pool Act σ ρ} (held : pool.Held L) (idle : ¬ pool.Busy) (key : K) :
    L.owner pool.state key = none := by
  cases owned : L.owner pool.state key with
  | none => rfl
  | some u =>
    obtain ⟨p, there, tidy⟩ := held.holder owned
    cases p with
    | done r => cases tidy
    | act a next => exact absurd ⟨u, _, a, next, there⟩ idle

section Ending

def Prog.After (q p : Prog Act ρ) : Prop :=
  ∃ (β : Type) (a : Act β) (next : β → Prog Act ρ) (b : β), p = .act a next ∧ q = next b

theorem Prog.after_wf : WellFounded (@Prog.After Act ρ) := by
  refine ⟨fun p => ?_⟩
  induction p with
  | done a =>
    refine ⟨_, fun q after => ?_⟩
    obtain ⟨_, _, _, _, same, _⟩ := after
    cases same
  | act a next ih =>
    refine ⟨_, fun q after => ?_⟩
    obtain ⟨_, _, _, b, same, rfl⟩ := after
    cases same
    exact ih b

def Shorter (threads' threads : List (Prog Act ρ)) : Prop :=
  ∃ t p q, threads[t]? = some p ∧ Prog.After q p ∧ threads' = threads.set t q

theorem shorter_wf : WellFounded (@Shorter Act ρ) := by
  have expands : Subrelation (@Shorter Act ρ)
      (InvImage (Relation.CutExpand Prog.After)
        (fun threads : List (Prog Act ρ) => (threads : Multiset (Prog Act ρ)))) := by
    rintro threads' threads ⟨t, p, q, there, after, rfl⟩
    obtain ⟨bound, rfl⟩ := List.getElem?_eq_some_iff.mp there
    have parts (p : Prog Act ρ) : ((threads.set t p : List _) : Multiset (Prog Act ρ)) =
        {p} + ((threads.take t ++ threads.drop (t + 1) : List _) : Multiset _) := by
      rw [List.set_eq_take_append_cons_drop, if_pos bound, ← Multiset.coe_singleton,
        Multiset.coe_add, Multiset.coe_eq_coe]
      exact List.perm_middle
    have whole := parts threads[t]
    rw [List.set_getElem_self] at whole
    change Relation.CutExpand Prog.After ((threads.set t q : List _) : Multiset (Prog Act ρ))
      (threads : Multiset (Prog Act ρ))
    rw [whole, parts q]
    exact Relation.cutExpand_single_add after _
  exact Subrelation.wf expands (InvImage.wf _ Prog.after_wf.cutExpand)

theorem Pool.Step.shorter {pool pool' : Pool Act σ ρ}
    (step : Pool.Step M (fun _ => False) env pool pool') :
    pool'.threads = pool.threads ∨ Shorter pool'.threads pool.threads := by
  cases step with
  | spawn call => exact call.elim
  | act there run => exact Or.inr ⟨_, _, _, there, ⟨_, _, _, _, rfl, rfl⟩, rfl⟩
  | env move => exact Or.inl rfl

/-- Without new calls the threads make finitely many steps, whatever the environment does. -/
theorem Pool.settles (run : Nat → Pool Act σ ρ)
    (steps : ∀ i, Pool.Step M (fun _ => False) env (run i) (run (i + 1))) :
    ∃ n, ∀ m, n ≤ m → (run m).threads = (run n).threads := by
  generalize begins : (run 0).threads = threads
  induction threads using shorter_wf.induction generalizing run with
  | _ threads ih =>
    by_cases moved : ∃ i, (run (i + 1)).threads ≠ (run i).threads
    · classical
      let first := Nat.find moved
      have still : ∀ m, m ≤ first → (run m).threads = threads := by
        intro m
        induction m with
        | zero => exact fun _ => begins
        | succ m still =>
          intro before
          rw [← still (by omega)]
          exact not_not.mp (Nat.find_min moved (Nat.lt_of_succ_le before))
      have shorter : Shorter (run (first + 1)).threads threads := by
        rw [← still first (Nat.le_refl _)]
        exact (steps first).shorter.resolve_left (Nat.find_spec moved)
      obtain ⟨n, settled⟩ := ih _ shorter (fun i => run (first + 1 + i))
        (fun i => steps (first + 1 + i)) rfl
      refine ⟨first + 1 + n, fun m later => ?_⟩
      have same := settled (m - (first + 1)) (by omega)
      rwa [show first + 1 + (m - (first + 1)) = m by omega] at same
    · refine ⟨0, fun m _ => ?_⟩
      induction m with
      | zero => rfl
      | succ m same =>
        rw [← same (Nat.zero_le _)]
        exact not_not.mp (fun differs => moved ⟨m, differs⟩)

/-- A schedule that does not let the busy threads wait for ever brings all of them to an end,
with every lock free. -/
theorem Pool.Held.completes (keeps : ∀ s s', env s s' → L.owner s' = L.owner s)
    (run : Nat → Pool Act σ ρ) (held : (run 0).Held L)
    (steps : ∀ i, Pool.Step M (fun _ => False) env (run i) (run (i + 1)))
    (fair : ∀ i, (run i).Busy → ∃ j, i ≤ j ∧ (run (j + 1)).threads ≠ (run j).threads) :
    ∃ n, ¬ (run n).Busy ∧ ∀ key, L.owner (run n).state key = none := by
  have always : ∀ i, (run i).Held L := by
    intro i
    induction i with
    | zero => exact held
    | succ i ih => exact ih.step (fun _ none => none.elim) keeps (steps i)
  obtain ⟨n, settled⟩ := Pool.settles run steps
  have idle : ¬ (run n).Busy := by
    intro busy
    obtain ⟨j, later, moved⟩ := fair n busy
    exact moved ((settled (j + 1) (by omega)).trans (settled j later).symm)
  exact ⟨n, idle, (always n).free idle⟩

end Ending

end Interleave
