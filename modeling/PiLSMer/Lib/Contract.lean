import PiLSMer.Lib.Interleave

/-! What a program may ask for and what it may be answered. A contract speaks of single actions
and their answers, never of a state; where an invariant of the machine stands behind it, it holds
of every thread of every run. -/
namespace Interleave

variable {Act : Type → Type} {σ Ω α β γ ε ρ : Type}

structure Contract (Act : Type → Type) where
  asks : ∀ β : Type, Act β → Prop
  answers : ∀ β : Type, Act β → β → Prop

/-- The program asks for nothing else and ends in such a result, as long as the answers are as
agreed. -/
def Prog.Within (C : Contract Act) (post : α → Prop) : Prog Act α → Prop
  | .done a => post a
  | .act a next => C.asks _ a ∧ ∀ b, C.answers _ a b → (next b).Within C post

def EndsIn (ok : α → Prop) (err : ε → Prop) : Except ε α → Prop
  | .ok a => ok a
  | .error e => err e

section Within

variable {C : Contract Act} {post : α → Prop} {ok : α → Prop} {ok' : γ → Prop} {err : ε → Prop}

theorem Prog.Within.mono {post' : α → Prop} {p : Prog Act α} (h : p.Within C post)
    (weaker : ∀ a, post a → post' a) : p.Within C post' := by
  induction p with
  | done a => exact weaker a h
  | act a next ih => exact ⟨h.1, fun b answer => ih b (h.2 b answer)⟩

theorem Prog.Within.bind {post' : γ → Prop} {p : Prog Act α} {f : α → Prog Act γ}
    (first : p.Within C post) (next : ∀ a, post a → (f a).Within C post') :
    (p >>= f).Within C post' := by
  induction p with
  | done a => exact next a first
  | act a rest ih => exact ⟨first.1, fun b answer => ih b (first.2 b answer)⟩

theorem Prog.Within.andThen {x : Op Act ε α} {f : α → Op Act ε γ}
    (first : x.run.Within C (EndsIn ok err))
    (next : ∀ a, ok a → (f a).run.Within C (EndsIn ok' err)) :
    (x >>= f).run.Within C (EndsIn ok' err) := by
  refine Prog.Within.bind (f := fun r => ExceptT.bindCont f r) first (fun r result => ?_)
  cases r with
  | ok a => exact next a result
  | error e => exact result

theorem Prog.Within.pure {a : α} (h : ok a) :
    (Pure.pure a : Op Act ε α).run.Within C (EndsIn ok err) := h

theorem Prog.Within.throw {e : ε} (h : err e) :
    (throw e : Op Act ε α).run.Within C (EndsIn ok err) := h

theorem Prog.Within.issue {a : Act β} (asks : C.asks _ a) :
    (Interleave.issue a : Op Act ε β).run.Within C (EndsIn (C.answers _ a) err) :=
  ⟨asks, fun _ answer => answer⟩

theorem Prog.Within.attempt {x : Op Act ε α} {post : Except ε α → Prop} (h : x.run.Within C post) :
    (Interleave.attempt x).run.Within C (EndsIn post err) :=
  Prog.Within.bind (f := fun r => .done (.ok r : Except ε (Except ε α))) h (fun _ result => result)

end Within

/-- The machine honours the contract in states with the invariant, as long as they are good. -/
structure Contract.Honoured (C : Contract Act) (M : Machine Act σ Ω) (env : σ → σ → Prop)
    (good inv : σ → Prop) : Prop where
  exec : ∀ {β : Type} (a : Act β) o t s b s', inv s → good s → C.asks β a →
    M.exec o t a s = some (b, s') → inv s' ∧ C.answers β a b
  env : ∀ s s', inv s → good s → env s s' → inv s'

/-- Then all that has ended in a run ended as it promised. -/
theorem Pool.Reach.within {M : Machine Act σ Ω} {calls : Prog Act ρ → Prop} {env : σ → σ → Prop}
    {good inv : σ → Prop} {C : Contract Act} {post : ρ → Prop} {start : σ}
    {pool : Pool Act σ ρ} (honoured : C.Honoured M env good inv) (first : inv start)
    (within : ∀ p, calls p → p.Within C post)
    (reach : Pool.Reach M calls env good start pool) :
    inv pool.state ∧ good pool.state ∧ ∀ p ∈ pool.threads, p.Within C post := by
  induction reach with
  | start ok => exact ⟨first, ok, fun _ none => (by cases none)⟩
  | step _ step ok ih =>
    obtain ⟨inv, before, threads⟩ := ih
    refine ⟨?_, ok, ?_⟩
    · cases step with
      | spawn call => exact inv
      | act there run =>
        have here := threads _ (List.mem_of_getElem? there)
        exact (honoured.exec _ _ _ _ _ _ inv before here.1 run).1
      | env move => exact honoured.env _ _ inv before move
    · cases step with
      | spawn call =>
        intro p member
        rcases List.mem_append.mp member with old | new
        · exact threads p old
        · rw [List.mem_singleton.mp new]
          exact within _ call
      | act there run =>
        have here := threads _ (List.mem_of_getElem? there)
        obtain ⟨_, answer⟩ := honoured.exec _ _ _ _ _ _ inv before here.1 run
        intro p member
        rcases List.mem_or_eq_of_mem_set member with old | rfl
        · exact threads p old
        · exact here.2 _ answer
      | env move => exact threads

theorem Pool.Reach.also {M : Machine Act σ Ω} {calls : Prog Act ρ → Prop} {env : σ → σ → Prop}
    {good good' : σ → Prop} {start : σ} {pool : Pool Act σ ρ}
    (known : ∀ pool : Pool Act σ ρ, Pool.Reach M calls env good start pool → good' pool.state)
    (reach : Pool.Reach M calls env good start pool) :
    Pool.Reach M calls env good' start pool := by
  induction reach with
  | start ok => exact .start (known _ (.start ok))
  | step reach step ok ih => exact ih.step step (known _ (reach.step step ok))

end Interleave
