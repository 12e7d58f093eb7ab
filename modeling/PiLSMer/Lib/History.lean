import Mathlib.Data.List.Basic
import PiLSMer.Lib.Interleave

/-! A run that remembers itself. The machine notes every action with the states around it; a
promise of a program can then be about what it did, not only about where it ended, although
others acted in between and afterwards. -/
namespace Interleave

structure Turn (σ : Type) where
  thread : Nat
  before : σ
  after : σ

structure Recorded (σ : Type) where
  state : σ
  history : List (Turn σ)

variable {Act : Type → Type} {σ Ω α β ρ : Type}

def Machine.recording (M : Machine Act σ Ω) : Machine Act (Recorded σ) Ω where
  exec o t a r := (M.exec o t a r.state).map
    (fun step => (step.1, ⟨step.2, r.history ++ [⟨t, r.state, step.2⟩]⟩))

theorem recording_exec {M : Machine Act σ Ω} {o : Ω} {t : Nat} {a : Act β} {r r' : Recorded σ}
    {b : β} (h : M.recording.exec o t a r = some (b, r')) :
    ∃ s', M.exec o t a r.state = some (b, s') ∧
      r' = ⟨s', r.history ++ [⟨t, r.state, s'⟩]⟩ := by
  obtain ⟨⟨b', s'⟩, exec, same⟩ := Option.map_eq_some_iff.mp h
  cases same
  exact ⟨s', exec, rfl⟩

def Recorded.own (notable : σ → σ → Bool) (t : Nat) (r : Recorded σ) : List (Turn σ) :=
  r.history.filter (fun turn => turn.thread = t && notable turn.before turn.after)

section Own

variable {notable : σ → σ → Bool} {t u : Nat} {s s' : σ} {history : List (Turn σ)}

theorem own_noted (noted : notable s s' = true) :
    (Recorded.mk s' (history ++ [⟨t, s, s'⟩])).own notable t =
      (Recorded.mk s history).own notable t ++ [⟨t, s, s'⟩] := by
  simp [Recorded.own, List.filter_append, noted]

theorem own_unnoted (unnoted : notable s s' = false) :
    (Recorded.mk s' (history ++ [⟨t, s, s'⟩])).own notable u =
      (Recorded.mk s history).own notable u := by
  simp [Recorded.own, List.filter_append, unnoted]

theorem own_other (other : u ≠ t) :
    (Recorded.mk s' (history ++ [⟨t, s, s'⟩])).own notable u =
      (Recorded.mk s history).own notable u := by
  simp [Recorded.own, List.filter_append, other.symm]

end Own

/-- The others besides leave a thread's turns alone. -/
def Protocol.recording (P : Protocol σ) (notable : σ → σ → Bool) : Protocol (Recorded σ) where
  good r := P.good r.state
  inv r := P.inv r.state
  rely t r r' := P.rely t r.state r'.state ∧ r'.own notable t = r.own notable t
  refl t r := ⟨P.refl t r.state, rfl⟩
  trans t _ _ _ first second :=
    ⟨P.trans t _ _ _ first.1 second.1, second.2.trans first.2⟩

def Machine.Quiet (M : Machine Act σ Ω) (notable : σ → σ → Bool) (t : Nat) (β : Type)
    (a : Act β) : Prop :=
  ∀ o s b s', M.exec o t a s = some (b, s') → notable s s' = false

section Lifting

variable {M : Machine Act σ Ω} {P : Protocol σ} (notable : σ → σ → Bool) {t : Nat}

theorem own_stable (known : List (Turn σ) → Prop) :
    Stable (P.recording notable) t (fun r => known (r.own notable t)) := by
  intro r r' h moved _ _
  rw [moved.2]
  exact h

/-- What is safe is safe on record; a program of quiet actions adds nothing to the turns. -/
theorem Safe.recording {p : Prog Act α} {post : α → σ → Prop} {s : σ} (h : Safe M P t p post s)
    (history : List (Turn σ)) :
    Safe M.recording (P.recording notable) t p (fun a r => post a r.state ∧
      (p.Only (M.Quiet notable t) →
        r.own notable t = (Recorded.mk s history).own notable t)) ⟨s, history⟩ := by
  induction p generalizing s history with
  | done a =>
    intro r moved inv good
    exact ⟨h r.state moved.1 inv good, fun _ => moved.2⟩
  | act a next ih =>
    intro r₁ moved inv good o b r₂ exec good'
    obtain ⟨s₂, run, rfl⟩ := recording_exec exec
    obtain ⟨inv', others, rest⟩ := h r₁.state moved.1 inv good o b s₂ run good'
    refine ⟨inv', fun u other => ⟨others u other, own_other other⟩, ?_⟩
    refine Safe.mono (fun c r _ _ hr => ⟨hr.1, fun only => ?_⟩) (ih b rest _)
    have unnoted := only.1 o r₁.state b s₂ run
    exact (hr.2 (only.2 b)).trans ((own_unnoted unnoted).trans moved.2)

theorem Triple.recording {pre : σ → Prop} {p : Prog Act α} {post : α → σ → Prop}
    (h : Triple M P t pre p post) :
    Triple M.recording (P.recording notable) t (fun r => pre r.state) p
      (fun a r => post a r.state) :=
  fun r hr => Safe.mono (fun _ _ _ _ ends => ends.1) ((h r.state hr).recording notable r.history)

theorem Triple.recording_quiet {pre : σ → Prop} {p : Prog Act α} {post : α → σ → Prop}
    (h : Triple M P t pre p post) (only : p.Only (M.Quiet notable t))
    (known : List (Turn σ) → Prop) :
    Triple M.recording (P.recording notable) t
      (fun r => pre r.state ∧ known (r.own notable t)) p
      (fun a r => post a r.state ∧ known (r.own notable t)) := by
  intro r hr
  refine Safe.mono (fun a r' _ _ ends => ⟨ends.1, ?_⟩)
    ((h r.state hr.1).recording notable r.history)
  rw [ends.2 only]
  exact hr.2

theorem Safe.recording_grows {kind : ∀ β : Type, Act β → Prop} {known : List (Turn σ) → Prop}
    (grows : ∀ turns β (a : Act β) o s b s', known turns → kind β a →
      M.exec o t a s = some (b, s') → known (turns ++ [⟨t, s, s'⟩]))
    {p : Prog Act α} (only : p.Only kind) {post : α → σ → Prop} {s : σ} (h : Safe M P t p post s)
    (history : List (Turn σ)) (here : known ((Recorded.mk s history).own notable t)) :
    Safe M.recording (P.recording notable) t p
      (fun a r => post a r.state ∧ known (r.own notable t)) ⟨s, history⟩ := by
  induction p generalizing s history with
  | done a =>
    intro r moved inv good
    exact ⟨h r.state moved.1 inv good, moved.2 ▸ here⟩
  | act a next ih =>
    intro r₁ moved inv good o b r₂ exec good'
    obtain ⟨s₂, run, rfl⟩ := recording_exec exec
    obtain ⟨inv', others, rest⟩ := h r₁.state moved.1 inv good o b s₂ run good'
    refine ⟨inv', fun u other => ⟨others u other, own_other other⟩, ih b (only.2 b) rest _ ?_⟩
    have still : known (r₁.own notable t) := moved.2 ▸ here
    cases noted : notable r₁.state s₂ with
    | true =>
      rw [own_noted noted]
      exact grows _ _ a o _ b _ still only.1 run
    | false =>
      rw [own_unnoted noted]
      exact still

theorem Triple.recording_grows {kind : ∀ β : Type, Act β → Prop} {known : List (Turn σ) → Prop}
    (grows : ∀ turns β (a : Act β) o s b s', known turns → kind β a →
      M.exec o t a s = some (b, s') → known (turns ++ [⟨t, s, s'⟩]))
    {pre : σ → Prop} {p : Prog Act α} {post : α → σ → Prop} (only : p.Only kind)
    (h : Triple M P t pre p post) :
    Triple M.recording (P.recording notable) t (fun r => pre r.state ∧ known (r.own notable t)) p
      (fun a r => post a r.state ∧ known (r.own notable t)) :=
  fun r hr => (h r.state hr.1).recording_grows notable grows only r.history hr.2

/-- The frame rule of a record: what a program adds to no turns it adds to any. -/
theorem Safe.recording_after {p : Prog Act α} {post : α → σ → List (Turn σ) → Prop}
    {s : σ} {history history' : List (Turn σ)} (past : List (Turn σ))
    (h : Safe M.recording (P.recording notable) t p
      (fun a r => post a r.state (r.own notable t)) ⟨s, history⟩)
    (own : (Recorded.mk s history').own notable t =
      past ++ (Recorded.mk s history).own notable t) :
    Safe M.recording (P.recording notable) t p (fun a r => ∃ turns,
      r.own notable t = past ++ turns ∧ post a r.state turns) ⟨s, history'⟩ := by
  induction p generalizing s history history' with
  | done a =>
    intro r moved inv good
    exact ⟨_, moved.2.trans own, h ⟨r.state, history⟩ ⟨moved.1, rfl⟩ inv good⟩
  | act a next ih =>
    intro r₁ moved inv good o b r₂ exec good'
    obtain ⟨s₂, run, rfl⟩ := recording_exec exec
    -- The same action, taken from where there were no turns yet.
    have apart : M.recording.exec o t a ⟨r₁.state, history⟩ =
        some (b, ⟨s₂, history ++ [⟨t, r₁.state, s₂⟩]⟩) := by
      simp only [Machine.recording, run, Option.map_some]
    obtain ⟨inv', others, rest⟩ :=
      h ⟨r₁.state, history⟩ ⟨moved.1, rfl⟩ inv good o b _ apart good'
    refine ⟨inv', fun u other => ⟨(others u other).1, own_other other⟩, ih b rest ?_⟩
    have before := moved.2.trans own
    cases noted : notable r₁.state s₂ with
    | true =>
      rw [own_noted noted, own_noted noted, ← List.append_assoc]
      exact congrArg (· ++ _) before
    | false =>
      rw [own_unnoted noted, own_unnoted noted]
      exact before

theorem Triple.recording_after {pre : σ → Prop} {p : Prog Act α}
    {post : α → σ → List (Turn σ) → Prop}
    (h : Triple M.recording (P.recording notable) t
      (fun r => pre r.state ∧ r.own notable t = []) p
      (fun a r => post a r.state (r.own notable t))) (past : List (Turn σ)) :
    Triple M.recording (P.recording notable) t
      (fun r => pre r.state ∧ r.own notable t = past) p
      (fun a r => ∃ turns, r.own notable t = past ++ turns ∧ post a r.state turns) := by
  intro r hr
  refine Safe.recording_after notable past (h ⟨r.state, []⟩ ⟨hr.1, rfl⟩) ?_
  rw [show (Recorded.mk r.state []).own notable t = [] from rfl, List.append_nil]
  exact hr.2

end Lifting

def Unrecorded (env : σ → σ → Prop) (r r' : Recorded σ) : Prop :=
  env r.state r'.state ∧ r'.history = r.history

theorem Pool.Reach.turns {M : Machine Act σ Ω} {calls : Prog Act ρ → Prop} {env : σ → σ → Prop}
    {good : Recorded σ → Prop} {start : σ} {pool : Pool Act (Recorded σ) ρ}
    (reach : Pool.Reach M.recording calls (Unrecorded env) good ⟨start, []⟩ pool) :
    ∀ turn ∈ pool.state.history, ∃ (β : Type) (a : Act β) (o : Ω) (b : β),
      M.exec o turn.thread a turn.before = some (b, turn.after) := by
  induction reach with
  | start ok => simp
  | step _ step _ ih =>
    cases step with
    | spawn call => exact ih
    | @act s s' threads t β a next o b there run =>
      obtain ⟨s₂, exec, rfl⟩ := recording_exec run
      intro turn member
      rcases List.mem_append.mp member with old | new
      · exact ih turn old
      · rw [List.mem_singleton.mp new]
        exact ⟨β, a, o, b, exec⟩
    | env move =>
      rw [move.2]
      exact ih

/-- A history whose turns follow each other in what they show of the state. -/
def Chained {γ : Type} (view : σ → γ) (first : γ) : List (Turn σ) → γ → Prop
  | [], last => last = first
  | turn :: turns, last => view turn.before = first ∧ Chained view (view turn.after) turns last

theorem Chained.snoc {γ : Type} {view : σ → γ} {first : γ} {turns : List (Turn σ)} {turn : Turn σ}
    (h : Chained view first turns (view turn.before)) :
    Chained view first (turns ++ [turn]) (view turn.after) := by
  induction turns generalizing first with
  | nil => exact ⟨h, rfl⟩
  | cons head rest ih => exact ⟨h.1, ih h.2⟩

theorem Pool.Reach.chained {M : Machine Act σ Ω} {calls : Prog Act ρ → Prop} {env : σ → σ → Prop}
    {good : Recorded σ → Prop} {start : σ} {γ : Type} {view : σ → γ}
    (keeps : ∀ s s', env s s' → view s' = view s) {pool : Pool Act (Recorded σ) ρ}
    (reach : Pool.Reach M.recording calls (Unrecorded env) good ⟨start, []⟩ pool) :
    Chained view (view start) pool.state.history (view pool.state.state) := by
  induction reach with
  | start ok => exact rfl
  | step _ step _ ih =>
    cases step with
    | spawn call => exact ih
    | @act s s' threads t β a next o b there run =>
      obtain ⟨s₂, exec, rfl⟩ := recording_exec run
      exact Chained.snoc ih
    | env move =>
      rw [move.2, keeps _ _ move.1]
      exact ih

end Interleave
