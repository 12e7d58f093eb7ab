import Mathlib.Data.List.Forall2
import PiLSMer.Slate.Waiting

/-! The key locks as lib.rs has them: a map from keys to shared mutexes that are made when first
asked for. Locking is two steps, to look the mutex up and to wait for it, and others may act in
between. Clients cannot tell this from one lock for each key. -/
namespace PiLSMer
open Interleave

/-- The map of the key locks. A mutex is known by the number it was made with. -/
structure KeyLocks where
  locks : Bytes → Option Nat
  made : Nat

def KeyLocks.default : KeyLocks := ⟨fun _ => none, 0⟩

def KeyLocks.lockFor (self : KeyLocks) (key : Bytes) : Nat × KeyLocks :=
  match self.locks key with
  | some mutex => (mutex, self)
  | none => (self.made, ⟨Function.update self.locks key (some self.made), self.made + 1⟩)

/-- The shared state with the map. The locks of the inner state play no part. -/
structure LockedDb where
  inner : Db
  keyLocks : KeyLocks
  holders : Nat → Option Nat

def LockedDb.empty (reconstructionCacheBytes : UInt64) : LockedDb :=
  ⟨Db.empty reconstructionCacheBytes, .default, fun _ => none⟩

/-- lock_key in its steps, and the end of the guard. -/
inductive KeyLockAct : Type → Type where
  | lockFor (key : Bytes) : KeyLockAct Nat
  | lockOwned (mutex : Nat) : KeyLockAct Unit
  | drop (mutex : Nat) : KeyLockAct Unit

abbrev LockedAct (β : Type) : Type := DbAct β ⊕ KeyLockAct β

def KeyLockAct.exec {β : Type} (t : Nat) : KeyLockAct β → LockedDb → Option (β × LockedDb)
  | .lockFor key, s =>
    let (mutex, keyLocks) := s.keyLocks.lockFor key
    some (mutex, { s with keyLocks })
  | .lockOwned mutex, s =>
    if s.holders mutex = none then
      some ((), { s with holders := Function.update s.holders mutex (some t) })
    else none
  | .drop mutex, s => some ((), { s with holders := Function.update s.holders mutex none })

def lockedMachine : Machine LockedAct LockedDb Oracle where
  exec o t a s :=
    match a with
    | .inl a => (dbMachine.exec o t a s.inner).map (fun r => (r.1, { s with inner := r.2 }))
    | .inr a => a.exec t s

/-- The operations over the map. Between lock and unlock the thread keeps the mutex it got. -/
def withTable {α : Type} : Prog DbAct α → Option Nat → Prog LockedAct α
  | .done a, _ => .done a
  | .act (.lock key) next, _ =>
    .act (Sum.inr (.lockFor key)) (fun mutex =>
      .act (Sum.inr (.lockOwned mutex)) (fun _ => withTable (next ()) (some mutex)))
  | .act (.unlock _) next, some mutex =>
    .act (Sum.inr (.drop mutex)) (fun _ => withTable (next ()) none)
  | .act a next, guard => .act (Sum.inl a) (fun b => withTable (next b) guard)

/-- The state as one lock for each key. -/
def LockedDb.abstract (s : LockedDb) : Db :=
  { s.inner with locks := fun key => (s.keyLocks.locks key).bind s.holders }

/-- Every key has a mutex of its own, and nobody holds one that was never made. -/
structure LockedDb.Sound (s : LockedDb) : Prop where
  own : ∀ key key' mutex, s.keyLocks.locks key = some mutex →
    s.keyLocks.locks key' = some mutex → key = key'
  old : ∀ key mutex, s.keyLocks.locks key = some mutex → mutex < s.keyLocks.made
  unmade : ∀ mutex, s.keyLocks.made ≤ mutex → s.holders mutex = none

section Steps

variable {s s' : LockedDb} {key : Bytes} {mutex t : Nat} {o : Oracle}

theorem LockedDb.Sound.lockFor (sound : s.Sound)
    (run : lockedMachine.exec o t (Sum.inr (.lockFor key)) s = some (mutex, s')) :
    s'.Sound ∧ s'.abstract = s.abstract ∧ s'.keyLocks.locks key = some mutex ∧
      ∀ k m, s.keyLocks.locks k = some m → s'.keyLocks.locks k = some m := by
  obtain ⟨own, old, unmade⟩ := sound
  simp only [lockedMachine, KeyLockAct.exec, KeyLocks.lockFor] at run
  cases known : s.keyLocks.locks key with
  | some m =>
    simp only [known, Option.some.injEq, Prod.mk.injEq] at run
    obtain ⟨rfl, rfl⟩ := run
    exact ⟨⟨own, old, unmade⟩, rfl, known, fun _ _ h => h⟩
  | none =>
    simp only [known, Option.some.injEq, Prod.mk.injEq] at run
    obtain ⟨rfl, rfl⟩ := run
    have other : ∀ k m, s.keyLocks.locks k = some m → k ≠ key := by
      rintro k m there rfl
      rw [known] at there
      cases there
    have grown : ∀ k m, s.keyLocks.locks k = some m →
        Function.update s.keyLocks.locks key (some s.keyLocks.made) k = some m := by
      intro k m there
      rw [Function.update_of_ne (other k m there)]
      exact there
    have looked : ∀ k m, Function.update s.keyLocks.locks key (some s.keyLocks.made) k = some m →
        k = key ∧ m = s.keyLocks.made ∨ s.keyLocks.locks k = some m := by
      intro k m there
      by_cases same : k = key
      · subst same
        rw [Function.update_self, Option.some.injEq] at there
        exact Or.inl ⟨rfl, there.symm⟩
      · rw [Function.update_of_ne same] at there
        exact Or.inr there
    refine ⟨⟨fun k k' m first second => ?_, fun k m there => ?_, fun m later => ?_⟩, ?_,
      Function.update_self .., grown⟩
    · obtain ⟨rfl, rfl⟩ | before := looked k m first
      · obtain ⟨rfl, _⟩ | before := looked k' _ second
        · rfl
        · exact absurd (old k' _ before) (Nat.lt_irrefl _)
      · obtain ⟨rfl, rfl⟩ | before' := looked k' m second
        · exact absurd (old k _ before) (Nat.lt_irrefl _)
        · exact own k k' m before before'
    · obtain ⟨_, rfl⟩ | before := looked k m there
      · exact Nat.lt_succ_self _
      · exact Nat.lt_succ_of_lt (old k m before)
    · exact unmade m (Nat.le_of_succ_le later)
    · simp only [LockedDb.abstract, Db.mk.injEq, true_and, and_true]
      funext k
      by_cases same : k = key
      · subst same
        simp [known, unmade]
      · rw [Function.update_of_ne same]

theorem LockedDb.Sound.holders (sound : s.Sound) (there : s.keyLocks.locks key = some mutex)
    (holder : Option Nat) : ({ s with
      holders := Function.update s.holders mutex holder } : LockedDb).abstract =
    { s.abstract with locks := Function.update s.abstract.locks key holder } := by
  simp only [LockedDb.abstract, Db.mk.injEq, true_and, and_true]
  funext k
  by_cases same : k = key
  · subst same
    simp [there]
  · rw [Function.update_of_ne same]
    cases other : s.keyLocks.locks k with
    | none => rfl
    | some m =>
      have differs : m ≠ mutex := by
        rintro rfl
        exact same (sound.own k key m other there)
      exact Function.update_of_ne differs _ _

theorem LockedDb.Sound.lockOwned (sound : s.Sound) (there : s.keyLocks.locks key = some mutex)
    (run : lockedMachine.exec o t (Sum.inr (.lockOwned mutex)) s = some ((), s')) :
    s'.Sound ∧ s'.keyLocks = s.keyLocks ∧
      dbMachine.exec o t (.lock key) s.abstract = some ((), s'.abstract) := by
  change (if s.holders mutex = none then _ else none) = some ((), s') at run
  split at run
  · rename_i free
    cases run
    refine ⟨⟨sound.own, sound.old, fun m later => ?_⟩, rfl, ?_⟩
    · have differs : m ≠ mutex := by
        have := sound.old key mutex there
        rintro rfl
        exact absurd later (Nat.not_le.mpr this)
      exact (Function.update_of_ne differs _ _).trans (sound.unmade m later)
    · rw [sound.holders there]
      have unlocked : s.abstract.locks key = none := by simp [LockedDb.abstract, there, free]
      exact if_pos unlocked
  · cases run

theorem LockedDb.Sound.drop (sound : s.Sound) (there : s.keyLocks.locks key = some mutex)
    (run : lockedMachine.exec o t (Sum.inr (.drop mutex)) s = some ((), s')) :
    s'.Sound ∧ s'.keyLocks = s.keyLocks ∧
      dbMachine.exec o t (.unlock key) s.abstract = some ((), s'.abstract) := by
  cases run
  refine ⟨⟨sound.own, sound.old, fun m later => ?_⟩, rfl, ?_⟩
  · by_cases same : m = mutex
    · rw [same]
      exact Function.update_self ..
    · exact (Function.update_of_ne same _ _).trans (sound.unmade m later)
  · rw [sound.holders there]
    rfl

theorem LockedDb.Sound.other {β : Type} {a : DbAct β} {b : β} (sound : s.Sound)
    (role : DbAct.locking β a = .neither)
    (run : lockedMachine.exec o t (Sum.inl a) s = some (b, s')) :
    s'.Sound ∧ s'.keyLocks = s.keyLocks ∧
      dbMachine.exec o t a s.abstract = some (b, s'.abstract) := by
  cases a with
  | lock key => cases role
  | unlock key => cases role
  | _ =>
    cases run
    exact ⟨⟨sound.own, sound.old, sound.unmade⟩, rfl, rfl⟩

end Steps

section Refinement

variable {ρ : Type}

/-- A thread over the map and the thread that it stands for. Either both are at the same point,
the guard being the mutex of the key that is held, or the first already has the mutex that it
waits for. -/
def Implements (table : Bytes → Option Nat) (c : Prog LockedAct ρ) (p : Prog DbAct ρ) : Prop :=
  (∃ guard held, c = withTable p guard ∧ p.Tidy DbAct.locking none held ∧
    ∀ key, held = some key → ∃ mutex, guard = some mutex ∧ table key = some mutex) ∨
  ∃ key mutex next, p = .act (.lock key) next ∧ table key = some mutex ∧
    (next ()).Tidy DbAct.locking none (some key) ∧
    c = .act (Sum.inr (.lockOwned mutex)) (fun _ => withTable (next ()) (some mutex))

theorem Implements.grow {table table' : Bytes → Option Nat} {c : Prog LockedAct ρ}
    {p : Prog DbAct ρ} (h : Implements table c p)
    (grown : ∀ key mutex, table key = some mutex → table' key = some mutex) :
    Implements table' c p := by
  obtain ⟨guard, held, same, tidy, linked⟩ | ⟨key, mutex, next, same, there, tidy, waits⟩ := h
  · refine Or.inl ⟨guard, held, same, tidy, fun key holds => ?_⟩
    obtain ⟨mutex, guarded, there⟩ := linked key holds
    exact ⟨mutex, guarded, grown key mutex there⟩
  · exact Or.inr ⟨key, mutex, next, same, grown key mutex there, tidy, waits⟩

theorem Implements.done_iff {table : Bytes → Option Nat} {c : Prog LockedAct ρ} {p : Prog DbAct ρ}
    (h : Implements table c p) (r : ρ) : c = .done r ↔ p = .done r := by
  obtain ⟨guard, held, rfl, _, _⟩ | ⟨key, mutex, next, rfl, _, _, rfl⟩ := h
  · cases p with
    | done a => simp [withTable]
    | act a next =>
      cases a with
      | unlock key => cases guard <;> simp [withTable]
      | _ => simp [withTable]
  · simp

theorem withTable_other {β : Type} {a : DbAct β} (role : DbAct.locking β a = .neither)
    (next : β → Prog DbAct ρ) (guard : Option Nat) :
    withTable (.act a next) guard = .act (Sum.inl a) (fun b => withTable (next b) guard) := by
  cases a with
  | lock key => cases role
  | unlock key => cases role
  | _ => rfl

theorem Implements.step {s s' : LockedDb} (sound : s.Sound) {β : Type} {x : LockedAct β}
    {rest : β → Prog LockedAct ρ} {p : Prog DbAct ρ} {o : Oracle} {t : Nat} {b : β}
    (h : Implements s.keyLocks.locks (.act x rest) p)
    (run : lockedMachine.exec o t x s = some (b, s')) :
    s'.Sound ∧ (∀ key mutex, s.keyLocks.locks key = some mutex →
      s'.keyLocks.locks key = some mutex) ∧
    ((s'.abstract = s.abstract ∧ Implements s'.keyLocks.locks (rest b) p) ∨
      ∃ (γ : Type) (a : DbAct γ) (next : γ → Prog DbAct ρ) (c : γ), p = .act a next ∧
        dbMachine.exec o t a s.abstract = some (c, s'.abstract) ∧
        Implements s'.keyLocks.locks (rest b) (next c)) := by
  obtain ⟨guard, held, same, tidy, linked⟩ | ⟨key, mutex, next, rfl, there, tidy, same⟩ := h
  · cases p with
    | done r => simp [withTable] at same
    | act a next =>
      obtain ⟨held', moves, tidy⟩ := tidy
      cases role : DbAct.locking _ a with
      | takes key =>
        cases a with
        | lock key' =>
          cases role
          cases same
          obtain ⟨_, rfl⟩ := moves
          obtain ⟨sound', unchanged, there, grown⟩ := sound.lockFor run
          exact ⟨sound', grown, Or.inl ⟨unchanged,
            Or.inr ⟨key, b, next, rfl, there, tidy (), rfl⟩⟩⟩
        | _ => cases role
      | frees key =>
        cases a with
        | unlock key' =>
          cases role
          obtain ⟨rfl, rfl⟩ := moves
          obtain ⟨mutex, rfl, there⟩ := linked key rfl
          cases same
          obtain ⟨sound', kept, run'⟩ := sound.drop there run
          rw [kept]
          exact ⟨sound', fun _ _ h => h, Or.inr ⟨_, _, next, (), rfl, run',
            Or.inl ⟨none, none, rfl, tidy (), fun _ holds => by cases holds⟩⟩⟩
        | _ => cases role
      | neither =>
        rw [withTable_other role] at same
        cases same
        rw [role] at moves
        have kept' : held' = held := moves
        subst kept'
        obtain ⟨sound', kept, run'⟩ := sound.other role run
        rw [kept]
        exact ⟨sound', fun _ _ h => h, Or.inr ⟨_, a, next, b, rfl, run',
          Or.inl ⟨guard, held', rfl, tidy b, linked⟩⟩⟩
  · cases same
    obtain ⟨sound', kept, run'⟩ := sound.lockOwned there run
    rw [kept]
    refine ⟨sound', fun _ _ h => h, Or.inr ⟨_, _, next, (), rfl, run', Or.inl
      ⟨some mutex, some key, rfl, tidy, fun k holds => ?_⟩⟩⟩
    cases holds
    exact ⟨mutex, rfl, there⟩

theorem related_at {α γ : Type*} {R : α → γ → Prop} {l : List α} {l' : List γ}
    (h : List.Forall₂ R l l') {t : Nat} {a : α} (there : l[t]? = some a) :
    ∃ c, l'[t]? = some c ∧ R a c := by
  induction h generalizing t with
  | nil => simp at there
  | cons head _ ih =>
    cases t with
    | zero =>
      cases there
      exact ⟨_, rfl, head⟩
    | succ t => exact ih there

theorem related_set {α γ : Type*} {R : α → γ → Prop} {l : List α} {l' : List γ}
    (h : List.Forall₂ R l l') (t : Nat) {a : α} {c : γ} (new : R a c) :
    List.Forall₂ R (l.set t a) (l'.set t c) := by
  induction h generalizing t with
  | nil => exact List.Forall₂.nil
  | cons head tail ih =>
    cases t with
    | zero => exact List.Forall₂.cons new tail
    | succ t => exact List.Forall₂.cons head (ih t)

structure Simulates (c : Pool LockedAct LockedDb ρ) (p : Pool DbAct Db ρ) : Prop where
  sound : c.state.Sound
  state : p.state = c.state.abstract
  threads : List.Forall₂ (Implements c.state.keyLocks.locks) c.threads p.threads

def WithTable (calls : Prog DbAct ρ → Prop) (c : Prog LockedAct ρ) : Prop :=
  ∃ p, calls p ∧ c = withTable p none

structure Beside (env : Db → Db → Prop) (s s' : LockedDb) : Prop where
  inner : env s.abstract s'.abstract
  keyLocks : s'.keyLocks = s.keyLocks
  holders : s'.holders = s.holders

variable {calls : Prog DbAct ρ → Prop} {env : Db → Db → Prop}

theorem Simulates.step (tidy : ∀ p, calls p → p.Tidy DbAct.locking none none)
    {c c' : Pool LockedAct LockedDb ρ} {p : Pool DbAct Db ρ} (related : Simulates c p)
    (step : Pool.Step lockedMachine (WithTable calls) (Beside env) c c') :
    ∃ p', (p' = p ∨ Pool.Step dbMachine calls env p p') ∧ Simulates c' p' := by
  obtain ⟨s, threads⟩ := p
  obtain ⟨sound, state, related⟩ := related
  cases step with
  | @spawn cs cthreads q call =>
    obtain ⟨p, call, rfl⟩ := call
    refine ⟨⟨s, threads ++ [p]⟩, Or.inr (Pool.Step.spawn call), sound, state, ?_⟩
    refine List.rel_append related (List.Forall₂.cons ?_ List.Forall₂.nil)
    exact Or.inl ⟨none, none, rfl, tidy p call, fun _ holds => by cases holds⟩
  | @act cs cs' cthreads t β x rest o b there run =>
    obtain ⟨p, there', impl⟩ := related_at related there
    obtain ⟨sound', grown, stays | ⟨γ, a, next, r, rfl, run', impl'⟩⟩ := impl.step sound run
    · refine ⟨⟨s, threads⟩, Or.inl rfl, sound', state.trans stays.1.symm, ?_⟩
      have old := related.imp (fun _ _ h => h.grow grown)
      have unchanged : threads.set t p = threads := by
        obtain ⟨bound, rfl⟩ := List.getElem?_eq_some_iff.mp there'
        exact List.set_getElem_self bound
      exact unchanged ▸ related_set old t stays.2
    · rw [← state] at run'
      refine ⟨⟨cs'.abstract, threads.set t (next r)⟩, Or.inr (Pool.Step.act there' run'), sound',
        rfl, related_set (related.imp (fun _ _ h => h.grow grown)) t impl'⟩
  | @env cs cs' cthreads move =>
    have same : s = cs.abstract := state
    have inner : env s cs'.abstract := same ▸ move.inner
    refine ⟨⟨cs'.abstract, threads⟩, Or.inr (Pool.Step.env inner), ?_, rfl, ?_⟩
    · obtain ⟨own, old, unmade⟩ := sound
      refine ⟨?_, ?_, ?_⟩
      · rw [move.keyLocks]
        exact own
      · rw [move.keyLocks]
        exact old
      · rw [move.keyLocks, move.holders]
        exact unmade
    · rw [move.keyLocks]
      exact related

/-- Every run over the map is, seen from outside, a run with one lock for each key. -/
theorem Simulates.reach (tidy : ∀ p, calls p → p.Tidy DbAct.locking none none)
    {good : Db → Prop} {start : LockedDb} (sound : start.Sound) {c : Pool LockedAct LockedDb ρ}
    (reach : Pool.Reach lockedMachine (WithTable calls) (Beside env) (fun s => good s.abstract)
      start c) :
    ∃ p, Pool.Reach dbMachine calls env good start.abstract p ∧ Simulates c p := by
  induction reach with
  | start ok => exact ⟨_, Pool.Reach.start ok, sound, rfl, List.Forall₂.nil⟩
  | step _ step ok ih =>
    obtain ⟨p, reach, related⟩ := ih
    obtain ⟨p', same | step', related'⟩ := related.step tidy step
    · exact ⟨p', same ▸ reach, related'⟩
    · exact ⟨p', reach.step step' (related'.state ▸ ok), related'⟩

theorem enabled_running {p : Prog DbAct ρ} {guard : Option Nat} {held : Option Bytes}
    (tidy : p.Tidy DbAct.locking none held) (linked : held ≠ none → guard ≠ none)
    (busy : ∀ r, p ≠ .done r) {c : Pool LockedAct LockedDb ρ} {t : Nat}
    (there : c.threads[t]? = some (withTable p guard)) :
    ∃ c', Pool.Turns lockedMachine c c' := by
  let o : Oracle := ⟨fun _ => 0, 0, fun _ => 0⟩
  cases p with
  | done r => exact absurd rfl (busy r)
  | act a next =>
    obtain ⟨held', moves, _⟩ := tidy
    cases role : DbAct.locking _ a with
    | takes key =>
      cases a with
      | lock key' => exact Pool.turn_of_enabled there ⟨o, _, _, rfl⟩
      | _ => cases role
    | frees key =>
      cases a with
      | unlock key' =>
        cases role
        cases guard with
        | none => exact absurd rfl (linked (by rw [moves.1]; simp))
        | some mutex => exact Pool.turn_of_enabled there ⟨o, _, _, rfl⟩
      | _ => cases role
    | neither =>
      rw [withTable_other role] at there
      obtain ⟨o, b, inner, run⟩ := dbLocks.goes t c.state.inner
        (fun key takes => by cases role.symm.trans takes)
      refine Pool.turn_of_enabled there ⟨o, b, { c.state with inner }, ?_⟩
      simp only [lockedMachine, run, Option.map_some]

theorem Simulates.progress {c : Pool LockedAct LockedDb ρ} {p : Pool DbAct Db ρ}
    (related : Simulates c p) (held : p.Held dbLocks) (busy : c.Busy) :
    ∃ c', Pool.Turns lockedMachine c c' := by
  have guards : ∀ {mine : Option Bytes} {guard : Option Nat},
      (∀ key, mine = some key → ∃ mutex, guard = some mutex ∧
        c.state.keyLocks.locks key = some mutex) → mine ≠ none → guard ≠ none := by
    intro mine guard linked holds
    obtain ⟨key, inHand⟩ := Option.ne_none_iff_exists'.mp holds
    obtain ⟨mutex, guarded, _⟩ := linked key inHand
    simp [guarded]
  obtain ⟨t, β, x, rest, there⟩ := busy
  obtain ⟨q, _, impl⟩ := related_at related.threads there
  obtain ⟨guard, mine, same, tidy, linked⟩ | ⟨key, mutex, next, _, known, _, same⟩ := impl
  · refine enabled_running tidy (guards linked) (fun r ended => ?_) (same ▸ there)
    rw [ended] at same
    cases same
  · cases same
    cases holder : c.state.holders mutex with
    | none => exact Pool.turn_of_enabled there ⟨⟨fun _ => 0, 0, fun _ => 0⟩, (), _, if_pos holder⟩
    | some u =>
      have owned : p.state.locks key = some u := by
        rw [related.state]
        simp [LockedDb.abstract, known, holder]
      obtain ⟨q', there', tidy'⟩ := Pool.Held.holder (L := dbLocks) held owned
      obtain ⟨cu, inPool, impl'⟩ := related_at related.threads.flip there'
      have lives : ∀ r, q' ≠ .done r := by
        rintro r rfl
        cases tidy'
      obtain ⟨guard, mine, same, tidy, linked⟩ | ⟨_, _, _, same, _, _, _⟩ := impl'
      · exact enabled_running tidy (guards linked) lives (same ▸ inPool)
      · rw [same] at tidy'
        obtain ⟨_, moves, _⟩ := tidy'
        cases moves.1

end Refinement

variable [Digests] {α : Type}

/-- The map of mutexes is as good as one lock for each key. Whatever clients do over the map, some
run of the same clients with one lock for each key reaches the same frames, writes, cache and
counters, with the same clients ended and the same results; and there is no deadlock between
looking a mutex up and waiting for it. -/
theorem key_locks_refine (db : PiLsmDb) (cacheBytes : UInt64) {env : Db → Db → Prop}
    (keeps : ∀ s s', env s s' → s'.locks = s.locks) {good : Db → Prop}
    {c : Pool LockedAct LockedDb (Except PiLsmError α)}
    (reach : Pool.Reach lockedMachine (WithTable (Clients db)) (Beside env)
      (fun s => good s.abstract) (LockedDb.empty cacheBytes) c) :
    (∃ p, Pool.Reach dbMachine (Clients db) env good (Db.empty cacheBytes) p ∧
      p.state = c.state.abstract ∧
      ∀ (t : Nat) (r : Except PiLsmError α), c.threads[t]? = some (Prog.done r) ↔
        p.threads[t]? = some (Prog.done r)) ∧
    (c.Busy → ∃ c', Pool.Turns lockedMachine c c') := by
  have tidy : ∀ p : Prog DbAct (Except PiLsmError α), Clients db p →
      p.Tidy DbAct.locking none none := by
    rintro p ⟨op, served, rfl⟩
    exact served.tidy
  have sound : (LockedDb.empty cacheBytes).Sound :=
    ⟨fun _ _ _ there => (by cases there), fun _ _ there => (by cases there), fun _ _ => rfl⟩
  obtain ⟨p, reach', related⟩ := Simulates.reach tidy sound reach
  have held : p.Held dbLocks := reach'.held (fun _ => rfl) tidy keeps
  refine ⟨⟨p, reach', related.state, fun t r => ⟨fun ended => ?_, fun ended => ?_⟩⟩,
    related.progress held⟩
  · obtain ⟨q, there, impl⟩ := related_at related.threads ended
    rw [there, (Implements.done_iff impl r).mp rfl]
  · obtain ⟨q, there, impl⟩ := related_at related.threads.flip ended
    rw [there, (Implements.done_iff impl r).mpr rfl]

omit [Digests] in
theorem key_locks_refine_sample :
    letI := sampleDigests
    ∃ c : Pool LockedAct LockedDb (Except PiLsmError Unit),
      c.state.keyLocks.locks [0x6b] = some 0 ∧
      (∃ next, c.threads[1]? = some (.act (Sum.inr (KeyLockAct.lockOwned 0)) next)) ∧
      (∃ p : Pool DbAct Db (Except PiLsmError Unit), p.state = c.state.abstract ∧
        p.state.locks [0x6b] = some 0) ∧ ∃ c', Pool.Turns lockedMachine c c' := by
  let _ := sampleDigests
  let db := sampleDb .default
  let o : Oracle := ⟨stopped, 0, fun _ => 0⟩
  let good : Db → Prop := fun _ => True
  let calls : Prog DbAct (Except PiLsmError Unit) → Prop := Clients db
  let Run := Pool.Reach lockedMachine (WithTable calls)
    (Beside (fun s s' => s'.locks = s.locks)) (fun s => good s.abstract) (LockedDb.empty 0)
  have delete : WithTable calls (withTable
      (db.delete [0x6b] >>= fun _ => (pure () : DbOp Unit)).run none) :=
    ⟨_, ⟨_, (Served.delete _).andThen (fun _ => Served.pure _), rfl⟩, rfl⟩
  have both : Run _ := ((Pool.Reach.start trivial).step (Pool.Step.spawn delete) trivial).step
    (Pool.Step.spawn delete) trivial
  have made : Run _ := both.step (Pool.Step.act (t := 0) (o := o) rfl rfl) trivial
  have found : Run _ := made.step (Pool.Step.act (t := 1) (o := o) rfl rfl) trivial
  have held : Run _ := found.step (Pool.Step.act (t := 0) (o := o) rfl rfl) trivial
  obtain ⟨⟨p, _, same, _⟩, progress⟩ := key_locks_refine db 0 (fun _ _ same => same) held
  exact ⟨_, rfl, ⟨_, rfl⟩, ⟨p, same, by rw [same]; rfl⟩, progress ⟨1, _, _, _, rfl⟩⟩

end PiLSMer
