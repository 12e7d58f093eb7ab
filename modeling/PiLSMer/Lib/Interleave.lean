import Mathlib.Data.Set.Basic

/-! Programs over atomic actions, run alone, under interference, or in a pool of threads.
A protocol says what a thread may assume of the others between two of its actions; a triple
is proved for one thread at a time and holds in every interleaving. Termination is not
treated: an action that is not enabled waits. -/
namespace Interleave

/-- A tree of atomic actions that ends in a result. -/
inductive Prog (Act : Type → Type) (α : Type) : Type 1 where
  | done (a : α)
  | act {β : Type} (a : Act β) (next : β → Prog Act α)

variable {Act : Type → Type} {σ Ω α β γ ε ρ : Type}

def Prog.bind : Prog Act α → (α → Prog Act γ) → Prog Act γ
  | .done a, f => f a
  | .act a next, f => .act a (fun b => (next b).bind f)

instance : Monad (Prog Act) where
  pure := .done
  bind := Prog.bind

theorem Prog.bind_done (p : Prog Act α) : p.bind .done = p := by
  induction p with
  | done a => rfl
  | act a next ih => exact congrArg (Prog.act a) (funext ih)

theorem Prog.bind_bind (p : Prog Act α) (f : α → Prog Act β) (g : β → Prog Act γ) :
    (p.bind f).bind g = p.bind (fun a => (f a).bind g) := by
  induction p with
  | done a => rfl
  | act a next ih => exact congrArg (Prog.act a) (funext ih)

instance : LawfulMonad (Prog Act) :=
  LawfulMonad.mk' _ Prog.bind_done (fun _ _ => rfl) Prog.bind_bind

def perform (a : Act β) : Prog Act β := .act a .done

/-- What an action does for a thread; the oracle settles what is left open. An action
without a result is not enabled in that state. -/
structure Machine (Act : Type → Type) (σ Ω : Type) where
  exec {β : Type} : Ω → Nat → Act β → σ → Option (β × σ)

/-- What the threads keep and may assume of each other. The good states are those a run is
allowed to visit; nothing is proved about runs that leave them. -/
structure Protocol (σ : Type) where
  good : σ → Prop
  inv : σ → Prop
  rely : Nat → σ → σ → Prop
  refl : ∀ t s, rely t s s
  trans : ∀ t s s' s'', rely t s s' → rely t s' s'' → rely t s s''

variable (M : Machine Act σ Ω) (P : Protocol σ) (t : Nat)

/-- The thread keeps the protocol from this state on and ends with the postcondition,
whatever the others do within their part of the protocol. -/
def Safe : Prog Act α → (α → σ → Prop) → σ → Prop
  | .done a, post, s => ∀ s', P.rely t s s' → P.inv s' → P.good s' → post a s'
  | .act a next, post, s => ∀ s₁, P.rely t s s₁ → P.inv s₁ → P.good s₁ →
      ∀ o b s₂, M.exec o t a s₁ = some (b, s₂) → P.good s₂ →
        P.inv s₂ ∧ (∀ u, u ≠ t → P.rely u s₁ s₂) ∧ Safe (next b) post s₂

def Stable (pre : σ → Prop) : Prop :=
  ∀ s s', pre s → P.rely t s s' → P.inv s' → P.good s' → pre s'

def Triple (pre : σ → Prop) (p : Prog Act α) (post : α → σ → Prop) : Prop :=
  ∀ s, pre s → Safe M P t p post s

variable {M P t}

theorem Safe.stable {p : Prog Act α} {post : α → σ → Prop} {s s' : σ} (h : Safe M P t p post s)
    (moved : P.rely t s s') : Safe M P t p post s' := by
  cases p with
  | done a => exact fun s₁ later => h s₁ (P.trans t _ _ _ moved later)
  | act a next => exact fun s₁ later => h s₁ (P.trans t _ _ _ moved later)

theorem Safe.of_later {p : Prog Act α} {post : α → σ → Prop} {s : σ}
    (h : ∀ s', P.rely t s s' → P.inv s' → P.good s' → Safe M P t p post s') :
    Safe M P t p post s := by
  cases p with
  | done a => exact fun s' moved inv good => h s' moved inv good s' (P.refl t s') inv good
  | act a next => exact fun s' moved inv good => h s' moved inv good s' (P.refl t s') inv good

theorem Safe.bind {p : Prog Act α} {f : α → Prog Act γ} {post : γ → σ → Prop} {s : σ}
    (h : Safe M P t p (fun a s' => Safe M P t (f a) post s') s) :
    Safe M P t (p >>= f) post s := by
  induction p generalizing s with
  | done a => exact Safe.of_later h
  | act a next ih =>
    intro s₁ moved inv good o b s₂ run good'
    obtain ⟨inv', others, rest⟩ := h s₁ moved inv good o b s₂ run good'
    exact ⟨inv', others, ih b rest⟩

theorem Safe.mono {p : Prog Act α} {post post' : α → σ → Prop} {s : σ}
    (weaker : ∀ a s, P.inv s → P.good s → post a s → post' a s) (h : Safe M P t p post s) :
    Safe M P t p post' s := by
  induction p generalizing s with
  | done a => exact fun s' moved inv good => weaker a s' inv good (h s' moved inv good)
  | act a next ih =>
    intro s₁ moved inv good o b s₂ run good'
    obtain ⟨inv', others, rest⟩ := h s₁ moved inv good o b s₂ run good'
    exact ⟨inv', others, ih b rest⟩

theorem Triple.done {pre : σ → Prop} {a : α} {post : α → σ → Prop} (stable : Stable P t pre)
    (h : ∀ s, pre s → P.inv s → P.good s → post a s) : Triple M P t pre (.done a) post :=
  fun s hs s' moved inv good => h s' (stable s s' hs moved inv good) inv good

theorem Triple.act {pre : σ → Prop} {a : Act β} {Q : β → σ → Prop} {next : β → Prog Act α}
    {post : α → σ → Prop} (stable : Stable P t pre)
    (step : ∀ s o b s', pre s → P.inv s → P.good s → M.exec o t a s = some (b, s') →
      P.good s' → P.inv s' ∧ (∀ u, u ≠ t → P.rely u s s') ∧ Q b s')
    (rest : ∀ b, Triple M P t (Q b) (next b) post) : Triple M P t pre (.act a next) post := by
  intro s hs s₁ moved inv good o b s₂ run good'
  obtain ⟨inv', others, hm⟩ := step s₁ o b s₂ (stable s s₁ hs moved inv good) inv good run good'
  exact ⟨inv', others, rest b s₂ hm⟩

theorem Triple.perform {pre : σ → Prop} {a : Act β} {post : β → σ → Prop}
    (stable : Stable P t pre) (kept : ∀ b, Stable P t (post b))
    (step : ∀ s o b s', pre s → P.inv s → P.good s → M.exec o t a s = some (b, s') →
      P.good s' → P.inv s' ∧ (∀ u, u ≠ t → P.rely u s s') ∧ post b s') :
    Triple M P t pre (perform a) post :=
  Triple.act stable step (fun b => Triple.done (kept b) (fun _ h _ _ => h))

theorem Triple.bind {pre : σ → Prop} {p : Prog Act α} {Q : α → σ → Prop}
    {f : α → Prog Act γ} {post : γ → σ → Prop} (first : Triple M P t pre p Q)
    (next : ∀ a, Triple M P t (Q a) (f a) post) : Triple M P t pre (p >>= f) post :=
  fun s hs => Safe.bind (Safe.mono (fun a s' _ _ h => next a s' h) (first s hs))

theorem Triple.consequence {pre pre' : σ → Prop} {p : Prog Act α} {Q Q' : α → σ → Prop}
    (h : Triple M P t pre p Q) (stronger : ∀ s, pre' s → pre s)
    (weaker : ∀ a s, P.inv s → P.good s → Q a s → Q' a s) :
    Triple M P t pre' p Q' :=
  fun s hs => Safe.mono weaker (h s (stronger s hs))

theorem Triple.of_pure {pre : σ → Prop} {fact : Prop} {p : Prog Act α} {post : α → σ → Prop}
    (h : fact → Triple M P t pre p post) : Triple M P t (fun s => fact ∧ pre s) p post :=
  fun s hs => h hs.1 s hs.2

theorem Triple.of_exists {ι : Sort*} {pre : ι → σ → Prop} {p : Prog Act α} {post : α → σ → Prop}
    (h : ∀ i, Triple M P t (pre i) p post) : Triple M P t (fun s => ∃ i, pre i s) p post :=
  fun s hs => hs.elim (fun i holds => h i s holds)

def onResult (ok : α → σ → Prop) (err : σ → Prop) : Except ε α → σ → Prop
  | .ok a => ok a
  | .error _ => err

abbrev Op (Act : Type → Type) (ε α : Type) := ExceptT ε (Prog Act) α

theorem Triple.outcome {pre : σ → Prop} {x : Op Act ε α} {ok ok' : α → σ → Prop}
    {err err' : σ → Prop} (h : Triple M P t pre x.run (onResult ok err))
    (returned : ∀ a s, ok a s → ok' a s) (failed : ∀ s, err s → err' s) :
    Triple M P t pre x.run (onResult ok' err') := by
  refine h.consequence (fun _ hs => hs) (fun r s _ _ hr => ?_)
  cases r with
  | ok a => exact returned a s hr
  | error e => exact failed s hr

theorem Triple.andThen {pre : σ → Prop} {x : Op Act ε α} {Q : α → σ → Prop}
    {f : α → Op Act ε γ} {post : γ → σ → Prop} {err : σ → Prop}
    (first : Triple M P t pre x.run (onResult Q err)) (kept : Stable P t err)
    (next : ∀ a, Triple M P t (Q a) (f a).run (onResult post err)) :
    Triple M P t pre (x >>= f).run (onResult post err) := by
  refine Triple.bind (f := fun r => ExceptT.bindCont f r) first (fun r => ?_)
  cases r with
  | ok a => exact next a
  | error e => exact Triple.done kept (fun _ h _ _ => h)

theorem Triple.pure {pre : σ → Prop} {a : α} {post : α → σ → Prop} {err : σ → Prop}
    (stable : Stable P t pre) (h : ∀ s, pre s → P.inv s → P.good s → post a s) :
    Triple M P t pre (pure a : Op Act ε α).run (onResult post err) :=
  Triple.done stable h

theorem Triple.throw {pre : σ → Prop} {e : ε} {post : α → σ → Prop} {err : σ → Prop}
    (stable : Stable P t pre) (h : ∀ s, pre s → P.inv s → P.good s → err s) :
    Triple M P t pre (throw e : Op Act ε α).run (onResult post err) :=
  Triple.done stable h

/-- An action inside a computation that may fail; it does not fail itself. -/
def issue (a : Act β) : Op Act ε β := ExceptT.lift (perform a)

theorem Triple.issued {pre : σ → Prop} {a : Act β} {post : β → σ → Prop} {err : σ → Prop}
    (stable : Stable P t pre) (kept : ∀ b, Stable P t (post b))
    (step : ∀ s o b s', pre s → P.inv s → P.good s → M.exec o t a s = some (b, s') →
      P.good s' → P.inv s' ∧ (∀ u, u ≠ t → P.rely u s s') ∧ post b s') :
    Triple M P t pre (issue a : Op Act ε β).run (onResult post err) :=
  Triple.act stable step (fun b => Triple.done (kept b) (fun _ h _ _ => h))

/-- The result of a computation as a value, errors included. -/
def attempt (x : Op Act ε α) : Op Act ε (Except ε α) := ExceptT.lift x.run

theorem Triple.attempted {pre : σ → Prop} {x : Op Act ε α} {post : Except ε α → σ → Prop}
    {err : σ → Prop} (h : Triple M P t pre x.run post)
    (kept : ∀ r, Stable P t (post r)) :
    Triple M P t pre (attempt x).run (onResult post err) :=
  Triple.bind h (fun r => Triple.done (kept r) (fun _ hs _ _ => hs))

/-- One program under interference: between two actions the environment may move. -/
inductive Runs (M : Machine Act σ Ω) (env : σ → σ → Prop) (t : Nat) :
    Prog Act α → σ → α → σ → Prop
  | done (a : α) (s : σ) : Runs M env t (.done a) s a s
  | act {β : Type} {a : Act β} {next : β → Prog Act α} {o : Ω} {b : β} {s s₁ s₂ : σ} {r : α}
      (run : M.exec o t a s = some (b, s₁)) (rest : Runs M env t (next b) s₁ r s₂) :
      Runs M env t (.act a next) s r s₂
  | env {p : Prog Act α} {s s₁ s₂ : σ} {r : α} (move : env s s₁)
      (rest : Runs M env t p s₁ r s₂) : Runs M env t p s r s₂

theorem Runs.ended {env : σ → σ → Prop} {a r : α} {s s' : σ}
    (run : Runs M env t (.done a) s r s') : r = a := by
  generalize same : Prog.done a = p at run
  induction run with
  | done b s => exact (Prog.done.inj same).symm
  | act _ _ _ => cases same
  | env _ _ ih => exact ih same

def Prog.Yields (post : α → Prop) : Prog Act α → Prop
  | .done a => post a
  | .act _ next => ∀ b, (next b).Yields post

theorem Runs.yields {env : σ → σ → Prop} {p : Prog Act α} {post : α → Prop} {s s' : σ} {r : α}
    (run : Runs M env t p s r s') (yields : p.Yields post) : post r := by
  induction run with
  | done a s => exact yields
  | act _ _ ih => exact ih (yields _)
  | env _ _ ih => exact ih yields

/-- A safe program keeps its promise in every run whose environment keeps the protocol. -/
theorem Runs.safe {env : σ → σ → Prop} (all : ∀ s, P.good s)
    (keeps : ∀ s s', env s s' → P.inv s → P.inv s' ∧ P.rely t s s')
    {p : Prog Act α} {post : α → σ → Prop} {s s' : σ} {r : α} (run : Runs M env t p s r s')
    (h : Safe M P t p post s) (inv : P.inv s) : P.inv s' ∧ post r s' := by
  induction run with
  | done a s => exact ⟨inv, h s (P.refl t s) inv (all s)⟩
  | act exec _ ih =>
    obtain ⟨inv', _, rest⟩ := h _ (P.refl t _) inv (all _) _ _ _ exec (all _)
    exact ih rest inv'
  | env move _ ih =>
    obtain ⟨inv', moved⟩ := keeps _ _ move inv
    exact ih (h.stable moved) inv'

/-- One program with nobody else around and one oracle throughout. -/
def alone (M : Machine Act σ Ω) (o : Ω) (t : Nat) : Prog Act α → σ → Option (α × σ)
  | .done a, s => some (a, s)
  | .act a next, s =>
    match M.exec o t a s with
    | some (b, s') => alone M o t (next b) s'
    | none => none

theorem alone_bind (o : Ω) (p : Prog Act α) (f : α → Prog Act γ) (s : σ) :
    alone M o t (p >>= f) s = (alone M o t p s).bind (fun r => alone M o t (f r.1) r.2) := by
  induction p generalizing s with
  | done a => rfl
  | act a next ih =>
    have unfolded : (Prog.act a next >>= f) = Prog.act a (fun b => next b >>= f) := rfl
    rw [unfolded]
    simp only [alone]
    cases M.exec o t a s with
    | none => rfl
    | some r => exact ih r.1 r.2

theorem alone_issue {o : Ω} {a : Act β} {s s' : σ} {b : β} (h : M.exec o t a s = some (b, s')) :
    alone M o t (issue a : Op Act ε β).run s = some (.ok b, s') := by
  have unfolded : (issue a : Op Act ε β).run = .act a (fun b => .done (.ok b)) := rfl
  rw [unfolded]
  simp only [alone, h]

theorem alone_ok {o : Ω} {x : Op Act ε α} {s s' : σ} {a : α} (f : α → Op Act ε γ)
    (h : alone M o t x.run s = some (.ok a, s')) :
    alone M o t (x >>= f).run s = alone M o t (f a).run s' := by
  have run := alone_bind (M := M) (t := t) o x.run (fun r => ExceptT.bindCont f r) s
  rw [h] at run
  exact run

theorem alone_error {o : Ω} {x : Op Act ε α} {s s' : σ} {e : ε} (f : α → Op Act ε γ)
    (h : alone M o t x.run s = some (.error e, s')) :
    alone M o t (x >>= f).run s = some (.error e, s') := by
  have run := alone_bind (M := M) (t := t) o x.run (fun r => ExceptT.bindCont f r) s
  rw [h] at run
  exact run

theorem alone_started {o : Ω} {x : Op Act ε α} {f : α → Op Act ε γ} {s : σ}
    {r : Except ε γ × σ} (h : alone M o t (x >>= f).run s = some r) :
    ∃ r', alone M o t x.run s = some r' := by
  have run := alone_bind (M := M) (t := t) o x.run (fun r => ExceptT.bindCont f r) s
  obtain ⟨r', first, _⟩ := Option.bind_eq_some_iff.mp (run.symm.trans h)
  exact ⟨r', first⟩

theorem alone_mapped {o : Ω} {x : Op Act ε α} {f : α → γ} {s s' : σ} {r : Except ε γ}
    (h : alone M o t (x >>= fun a => pure (f a)).run s = some (r, s')) :
    ∃ r', alone M o t x.run s = some (r', s') := by
  have run := alone_bind (M := M) (t := t) o x.run
    (fun r => ExceptT.bindCont (fun a => (pure (f a) : Op Act ε γ)) r) s
  obtain ⟨⟨r', s₁⟩, first, rest⟩ := Option.bind_eq_some_iff.mp (run.symm.trans h)
  have same : s' = s₁ := by
    cases r' with
    | ok a => exact (congrArg Prod.snd (Option.some.inj rest)).symm
    | error e => exact (congrArg Prod.snd (Option.some.inj rest)).symm
  exact ⟨r', same ▸ first⟩

theorem alone_attempt {o : Ω} {x : Op Act ε α} {s s' : σ} {r : Except ε α}
    (h : alone M o t x.run s = some (r, s')) :
    alone M o t (attempt x).run s = some (.ok r, s') := by
  have run := alone_bind (M := M) (t := t) o x.run (fun r => .done (.ok r : Except ε _)) s
  rw [h] at run
  exact run

theorem alone_runs {env : σ → σ → Prop} {o : Ω} {p : Prog Act α} {s s' : σ} {r : α}
    (h : alone M o t p s = some (r, s')) : Runs M env t p s r s' := by
  induction p generalizing s with
  | done a =>
    cases h
    exact Runs.done _ _
  | act a next ih =>
    simp only [alone] at h
    cases exec : M.exec o t a s with
    | none => simp [exec] at h
    | some step =>
      rw [exec] at h
      exact Runs.act exec (ih step.1 h)

def Prog.Only (kind : ∀ β : Type, Act β → Prop) : Prog Act α → Prop
  | .done _ => True
  | @Prog.act _ _ β a next => kind β a ∧ ∀ b, (next b).Only kind

section Only

variable {kind : ∀ β : Type, Act β → Prop}

theorem Prog.Only.mono {kind' : ∀ β : Type, Act β → Prop} {p : Prog Act α}
    (weaker : ∀ β a, kind β a → kind' β a) (h : p.Only kind) : p.Only kind' := by
  induction p with
  | done a => exact trivial
  | act a rest ih => exact ⟨weaker _ a h.1, fun b => ih b (h.2 b)⟩

theorem Prog.Only.bind {p : Prog Act α} {f : α → Prog Act γ} (first : p.Only kind)
    (next : ∀ a, (f a).Only kind) : (p >>= f).Only kind := by
  induction p with
  | done a => exact next a
  | act a rest ih => exact ⟨first.1, fun b => ih b (first.2 b)⟩

theorem Prog.Only.andThen {x : Op Act ε α} {f : α → Op Act ε γ} (first : x.run.Only kind)
    (next : ∀ a, (f a).run.Only kind) : (x >>= f).run.Only kind := by
  refine Prog.Only.bind (f := fun r => ExceptT.bindCont f r) first (fun r => ?_)
  cases r with
  | ok a => exact next a
  | error e => exact trivial

theorem Prog.Only.issue {a : Act β} (h : kind β a) :
    (Interleave.issue a : Op Act ε β).run.Only kind := ⟨h, fun _ => trivial⟩

theorem Prog.Only.attempt {x : Op Act ε α} (h : x.run.Only kind) :
    (Interleave.attempt x).run.Only kind :=
  Prog.Only.bind (f := fun r => .done (.ok r : Except ε (Except ε α))) h (fun _ => trivial)

theorem alone_only {f : σ → γ}
    (keeps : ∀ β (a : Act β) o s b s', kind β a → M.exec o t a s = some (b, s') → f s' = f s)
    {o : Ω} {p : Prog Act α} {s s' : σ} {r : α} (only : p.Only kind)
    (run : alone M o t p s = some (r, s')) : f s' = f s := by
  induction p generalizing s with
  | done a =>
    cases run
    rfl
  | act a next ih =>
    simp only [alone] at run
    cases exec : M.exec o t a s with
    | none => simp [exec] at run
    | some step =>
      rw [exec] at run
      exact (ih step.1 (only.2 step.1) run).trans (keeps _ a o s step.1 step.2 only.1 exec)

end Only

/-- Any number of threads over one state. A thread is named by its position. -/
structure Pool (Act : Type → Type) (σ ρ : Type) where
  state : σ
  threads : List (Prog Act ρ)

inductive Pool.Step (M : Machine Act σ Ω) (calls : Prog Act ρ → Prop) (env : σ → σ → Prop) :
    Pool Act σ ρ → Pool Act σ ρ → Prop
  | spawn {s : σ} {threads : List (Prog Act ρ)} {p : Prog Act ρ} (call : calls p) :
      Pool.Step M calls env ⟨s, threads⟩ ⟨s, threads ++ [p]⟩
  | act {s s' : σ} {threads : List (Prog Act ρ)} {t : Nat} {β : Type} {a : Act β}
      {next : β → Prog Act ρ} {o : Ω} {b : β} (there : threads[t]? = some (.act a next))
      (run : M.exec o t a s = some (b, s')) :
      Pool.Step M calls env ⟨s, threads⟩ ⟨s', threads.set t (next b)⟩
  | env {s s' : σ} {threads : List (Prog Act ρ)} (move : env s s') :
      Pool.Step M calls env ⟨s, threads⟩ ⟨s', threads⟩

/-- The pools of the runs from a state without threads, through good states only. -/
inductive Pool.Reach (M : Machine Act σ Ω) (calls : Prog Act ρ → Prop) (env : σ → σ → Prop)
    (good : σ → Prop) (start : σ) : Pool Act σ ρ → Prop
  | start (ok : good start) : Pool.Reach M calls env good start ⟨start, []⟩
  | step {p p' : Pool Act σ ρ} (reach : Pool.Reach M calls env good start p)
      (step : Pool.Step M calls env p p') (ok : good p'.state) :
      Pool.Reach M calls env good start p'

theorem Pool.Reach.good {calls : Prog Act ρ → Prop} {env : σ → σ → Prop} {good : σ → Prop}
    {start : σ} {pool : Pool Act σ ρ} (reach : Pool.Reach M calls env good start pool) :
    good pool.state := by
  cases reach with
  | start ok => exact ok
  | step _ _ ok => exact ok

def Machine.Agree (M M' : Machine Act σ Ω) (kind : ∀ β : Type, Act β → Prop) : Prop :=
  ∀ β (a : Act β) o t s, kind β a → M.exec o t a s = M'.exec o t a s

/-- Threads of these actions alone do not tell the machines apart. -/
theorem Pool.Reach.agree {M' : Machine Act σ Ω} {kind : ∀ β : Type, Act β → Prop}
    {calls : Prog Act ρ → Prop} {env : σ → σ → Prop} {good : σ → Prop} {start : σ}
    {pool : Pool Act σ ρ} (same : M.Agree M' kind) (only : ∀ p, calls p → p.Only kind)
    (reach : Pool.Reach M calls env good start pool) :
    Pool.Reach M' calls env good start pool ∧ ∀ p ∈ pool.threads, p.Only kind := by
  induction reach with
  | start ok => exact ⟨.start ok, nofun⟩
  | step _ step ok ih =>
    obtain ⟨reach', threads⟩ := ih
    cases step with
    | @spawn s ts p call =>
      refine ⟨reach'.step (.spawn call) ok, fun p' member => ?_⟩
      obtain old | new := List.mem_append.mp member
      · exact threads p' old
      · rw [List.mem_singleton.mp new]
        exact only p call
    | @act s s' ts t β a next o b there run =>
      have kept := threads _ (List.mem_of_getElem? there)
      rw [same β a o t s kept.1] at run
      refine ⟨reach'.step (.act there run) ok, fun p' member => ?_⟩
      obtain old | rfl := List.mem_or_eq_of_mem_set member
      · exact threads p' old
      · exact kept.2 b
    | env move => exact ⟨reach'.step (.env move) ok, threads⟩

/-- Threads that have not started know this much of the state. -/
structure Fresh (P : Protocol σ) where
  holds : Nat → σ → Prop
  stable : ∀ t s s', holds t s → P.rely t s s' → holds t s'

structure Pool.Kept (M : Machine Act σ Ω) (P : Protocol σ) (fresh : Fresh P)
    (post : Nat → ρ → σ → Prop) (pool : Pool Act σ ρ) : Prop where
  inv : P.inv pool.state
  good : P.good pool.state
  safe : ∀ t p, pool.threads[t]? = some p → Safe M P t p (post t) pool.state
  fresh : ∀ t, pool.threads.length ≤ t → fresh.holds t pool.state

variable {calls : Prog Act ρ → Prop} {env : σ → σ → Prop} {F : Fresh P}
  {Q : Nat → ρ → σ → Prop}

theorem Pool.Kept.join {s : σ} {threads : List (Prog Act ρ)} (kept : Pool.Kept M P F Q ⟨s, threads⟩)
    {p : Prog Act ρ} (safe : Safe M P threads.length p (Q threads.length) s) :
    Pool.Kept M P F Q ⟨s, threads ++ [p]⟩ where
  inv := kept.inv
  good := kept.good
  safe t q there := by
    rcases Nat.lt_trichotomy t threads.length with before | rfl | after
    · rw [List.getElem?_append_left before] at there
      exact kept.safe t q there
    · simp only [List.getElem?_concat_length, Option.some.injEq] at there
      exact there ▸ safe
    · rw [List.getElem?_eq_none (by simp only [List.length_append, List.length_singleton]; omega)]
        at there
      cases there
  fresh t ht := by
    simp only [List.length_append, List.length_singleton] at ht
    exact kept.fresh t (by change threads.length ≤ t; omega)

/-- One step keeps the pool, and some thread sees it as a step of the others. -/
theorem Pool.Kept.step
    (triple : ∀ p, calls p → ∀ t, Triple M P t (F.holds t) p (Q t))
    (keeps : ∀ s s', env s s' → P.inv s → P.good s → P.good s' →
      P.inv s' ∧ ∀ t, P.rely t s s')
    {pool pool' : Pool Act σ ρ} (kept : pool.Kept M P F Q)
    (step : Pool.Step M calls env pool pool') (ok : P.good pool'.state) :
    pool'.Kept M P F Q ∧ ∃ t, P.rely t pool.state pool'.state := by
  obtain ⟨inv, good, safe, unborn⟩ := kept
  cases step with
  | @spawn s threads p call =>
    have kept : Pool.Kept M P F Q ⟨s, threads⟩ := ⟨inv, good, safe, unborn⟩
    exact ⟨kept.join (triple p call _ s (unborn _ (Nat.le_refl _))), 0, P.refl 0 s⟩
  | @act s s' threads t _ a next o b there run =>
    obtain ⟨inv', others, rest⟩ := safe t _ there s (P.refl t s) inv good o b s' run ok
    refine ⟨⟨inv', ok, ?_, ?_⟩, t + 1, others (t + 1) (by omega)⟩
    · intro u q hq
      by_cases same : t = u
      · subst same
        have bound : t < threads.length := (List.getElem?_eq_some_iff.mp there).1
        simp only [List.getElem?_set_self bound, Option.some.injEq] at hq
        subst hq
        exact rest
      · simp only [List.getElem?_set_ne same] at hq
        exact (safe u q hq).stable (others u (fun h => same h.symm))
    · intro u hu
      simp only [List.length_set] at hu
      have bound : t < threads.length := (List.getElem?_eq_some_iff.mp there).1
      exact F.stable u s s' (unborn u hu) (others u (by omega))
  | @env s s' threads move =>
    obtain ⟨inv', others⟩ := keeps s s' move inv good ok
    exact ⟨⟨inv', ok, fun t p there => (safe t p there).stable (others t),
      fun t ht => F.stable t s s' (unborn t ht) (others t)⟩, 0, others 0⟩

/-- In every interleaving of safe calls the invariant holds and ended calls have kept
their promise. -/
theorem Pool.Reach.kept {start : σ} (inv : P.inv start) (newborn : ∀ t, F.holds t start)
    (triple : ∀ p, calls p → ∀ t, Triple M P t (F.holds t) p (Q t))
    (keeps : ∀ s s', env s s' → P.inv s → P.good s → P.good s' →
      P.inv s' ∧ ∀ t, P.rely t s s')
    {pool : Pool Act σ ρ} (reach : Pool.Reach M calls env P.good start pool) :
    pool.Kept M P F Q := by
  induction reach with
  | start ok => exact ⟨inv, ok, fun t p there => by simp at there, fun t _ => newborn t⟩
  | step _ step ok ih => exact (ih.step triple keeps step ok).1

theorem Pool.Kept.result {pool : Pool Act σ ρ} (kept : pool.Kept M P F Q) {t : Nat} {a : ρ}
    (ended : pool.threads[t]? = some (.done a)) : Q t a pool.state :=
  kept.safe t _ ended pool.state (P.refl t _) kept.inv kept.good

end Interleave
