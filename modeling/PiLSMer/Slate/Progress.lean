import PiLSMer.Core.Score
import PiLSMer.Slate.Solo

/-! Vacuuming one key. The score a call compares with is remembered from its read, but the
hash check ties the write to the same frame, so every write lowers the score of the stored
frame, whatever the other calls did in between. -/
namespace PiLSMer
open Interleave

def Db.score (s : Db) (key : Bytes) : Option Nat := (s.store key).bind storedScore

def Db.writes (s : Db) (key : Bytes) : List WriteEvent :=
  s.log.filter (fun event => event.key = key)

theorem Db.writes_write (s : Db) (t : Nat) (key : Bytes) (frame : Option Bytes) (origin : Origin) :
    (s.write t key frame origin).writes key = ⟨t, key, origin⟩ :: s.writes key := by
  simp [Db.writes, Db.write]

def turns (t : Nat) (writes : List WriteEvent) : Nat :=
  writes.countP (fun event => event.thread = t)

/-- Everything that leaves the frame and the lock of the key alone, and caches bytes under
their own hash. -/
structure Elsewhere [Digests] (values : Set Bytes) (key : Bytes) (s s' : Db) : Prop where
  store : s'.store key = s.store key
  lock : s'.locks key = s.locks key
  log : s'.writes key = s.writes key
  cached : ∀ k w, s'.cache.get k = some w → s.cache.get k = some w ∨ Trusted values k w

def VacuumCalls [Digests] (db : PiLsmDb) (key : Bytes)
    (p : Prog DbAct (Except PiLsmError PlanReport)) : Prop :=
  ∃ options, p = (db.vacuumMeaning key options).run

def PiLsmDb.Covers [Digests] (db : PiLsmDb) (frames values : Set Bytes) : Prop :=
  ∀ frame ∈ frames, ∀ p v, ValueEnvelope.decode frame db.decodeLimits = .ok (.plan p) →
    reconstruct db.reconstructor p = .ok v → v ∈ values

def KeyStoredIn (frames : Set Bytes) (key : Bytes) (s : Db) : Prop :=
  ∀ frame, s.store key = some frame → frame ∈ frames

/-- Any number of writes, each paid for by the score. -/
def Db.Descends (key : Bytes) (s s' : Db) : Prop :=
  ∃ new, s'.writes key = new ++ s.writes key ∧ (new = [] → s'.store key = s.store key) ∧
    ∀ n, s.score key = some n → ∃ n', s'.score key = some n' ∧ n' + new.length ≤ n

theorem Db.Descends.refl (key : Bytes) (s : Db) : s.Descends key s :=
  ⟨[], rfl, fun _ => rfl, fun n h => ⟨n, h, Nat.le_refl n⟩⟩

theorem Db.Descends.trans {key : Bytes} {s s' s'' : Db} (first : s.Descends key s')
    (second : s'.Descends key s'') : s.Descends key s'' := by
  obtain ⟨new, log, same, paid⟩ := first
  obtain ⟨new', log', same', paid'⟩ := second
  refine ⟨new' ++ new, by rw [log', log, List.append_assoc], fun none => ?_, fun n h => ?_⟩
  · obtain ⟨none', none⟩ := List.append_eq_nil_iff.mp none
    exact (same' none').trans (same none)
  · obtain ⟨n', h', le⟩ := paid n h
    obtain ⟨n'', h'', le'⟩ := paid' n' h'
    exact ⟨n'', h'', by rw [List.length_append]; omega⟩

theorem Db.Descends.same {key : Bytes} {s s' : Db} (store : s'.store key = s.store key)
    (log : s'.writes key = s.writes key) : s.Descends key s' := by
  refine ⟨[], log, fun _ => store, fun n h => ⟨n, ?_, Nat.le_refl n⟩⟩
  rwa [Db.score, store]

namespace Progress

variable [Digests]

structure Inv (values : Set Bytes) (key : Bytes) (s : Db) : Prop where
  planned : (s.score key).isSome
  cached : ∀ k w, s.cache.get k = some w → Trusted values k w

structure Rely (key : Bytes) (t : Nat) (s s' : Db) : Prop where
  lock : s.locks key = some t → s'.locks key = some t ∧ s'.store key = s.store key
  turns : turns t (s'.writes key) = turns t (s.writes key)
  descends : s.Descends key s'

def protocol (frames values : Set Bytes) (key : Bytes) : Protocol Db where
  good := KeyStoredIn frames key
  inv := Inv values key
  rely := Rely key
  refl _ s := ⟨fun h => ⟨h, rfl⟩, rfl, Db.Descends.refl key s⟩
  trans _ _ _ _ first second := by
    refine ⟨fun held => ?_, second.turns.trans first.turns, first.descends.trans second.descends⟩
    obtain ⟨held', same⟩ := first.lock held
    obtain ⟨held'', same'⟩ := second.lock held'
    exact ⟨held'', same'.trans same⟩

variable {db : PiLsmDb} {frames values : Set Bytes} {key : Bytes} {t : Nat}

omit [Digests] in
theorem still {s s' : Db} (store : s'.store key = s.store key) (log : s'.writes key = s.writes key)
    (lock : s.locks key = some t → s'.locks key = some t) : Rely key t s s' :=
  ⟨fun held => ⟨lock held, store⟩, by rw [log], Db.Descends.same store log⟩

omit [Digests] in
theorem score_congr {s s' : Db} (store : s'.store key = s.store key) :
    s'.score key = s.score key := by
  rw [Db.score, Db.score, store]

omit [Digests] in
theorem writes_congr {s s' : Db} (log : s'.log = s.log) : s'.writes key = s.writes key := by
  rw [Db.writes, Db.writes, log]

theorem orderly : Orderly (protocol frames values key) t key where
  quiet _ _ step inv :=
    ⟨⟨score_congr (congrFun step.store key) ▸ inv.planned, step.cache ▸ inv.cached⟩,
      fun u other => still (congrFun step.store key) (writes_congr step.log)
        (fun held => (step.locks key u other).mpr held)⟩
  locks _ _ moved held := (moved.lock held).1

theorem turns_steady (n : Nat) :
    Steady (protocol frames values key) t (fun s => turns t (s.writes key) = n) :=
  ⟨fun _ _ h moved _ _ => moved.turns.trans h, fun _ _ step h => writes_congr step.log ▸ h⟩

/-- A call that has not written yet, or has written once. -/
def discipline (covers : db.Covers frames values) (t : Nat) (key : Bytes) (limit : UInt64) :
    Discipline (protocol frames values key) t db key limit where
  before s := turns t (s.writes key) = 0
  after s := turns t (s.writes key) = 1
  seen frame := frame ∈ frames ∧ (storedScore frame).isSome
  hit _ _ := True
  miss _ := True
  guarded c s := c ∈ frames ∧ s.store key = some c
  orderly := orderly
  steady := turns_steady 0
  steady' := turns_steady 1
  guarded_stable := by
    rintro c s s' ⟨held, none, member, there⟩ moved _ _
    obtain ⟨held', same⟩ := moved.lock held
    exact ⟨held', moved.turns.trans none, member, same.trans there⟩
  sees s frame _ inv good there := by
    have scored : ((s.store key).bind storedScore).isSome := inv.planned
    rw [there] at scored
    exact ⟨good frame there, scored⟩
  hits _ _ _ _ _ _ := trivial
  misses _ _ _ _ _ := trivial
  caches s pick frame p w before inv seen decoded _ rebuilt := by
    have rebuilt := (reconstructWithLimit_iff.mp rebuilt).2
    have valued := covers frame seen.1 p w decoded rebuilt
    exact ⟨⟨inv.planned, Trusted.insert pick inv.cached rebuilt valued⟩,
      fun u _ => still rfl rfl (fun h => h), before⟩
  guards s c _ _ _ good there := ⟨good c there, there⟩

/-- The write replaces the frame that was read, by one of a lower score. -/
theorem allows (covers : db.Covers frames values) (injective : frames.InjOn envelopeHash)
    (short : ∀ frame ∈ frames, frame.length < 2 ^ 63) {limit : UInt64} {options : PlanOptions} :
    (discipline covers t key limit).Allows options (fun source plan =>
      ∀ old, source.envelope = .plan old → source.Improved old plan) := by
  rintro s source w clock plan c ⟨frame, ⟨member, scored⟩, decoded, hash, bytes⟩ _ planned better
    sameHash held before ⟨there, stored⟩ inv _ s' good'
  have same : c = frame := injective there member (sameHash.trans hash)
  subst same
  obtain ⟨n, score⟩ := Option.isSome_iff_exists.mp scored
  obtain ⟨old, isPlan, counted⟩ := storedScore_decode score decoded
  have improved : planScore (ValueEnvelope.plan plan).encode.length plan.chunks.length <
      planScore source.bytes old.chunks.length := by
    simpa [Source.Improved, planImproved] using better old isPlan
  have written : s'.store key = some (ValueEnvelope.plan plan).encode := Function.update_self ..
  have small : (ValueEnvelope.plan plan).encode.length < 2 ^ 64 :=
    Nat.lt_trans (short _ (good' _ written)) (by decide)
  have oldScore : s.score key = some n := by rw [Db.score, stored]; exact score
  have newScore : s'.score key =
      some (planScore (ValueEnvelope.plan plan).encode.length plan.chunks.length) := by
    rw [Db.score, written]
    exact storedScore_encode small
  have lower : planScore (ValueEnvelope.plan plan).encode.length plan.chunks.length < n := by
    rw [counted, ← bytes]
    exact improved
  have logged : s'.writes key = ⟨t, key, .rewrite⟩ :: s.writes key := Db.writes_write ..
  refine ⟨⟨newScore ▸ rfl, inv.cached⟩, fun u other => ⟨fun taken => ?_, ?_,
    [⟨t, key, .rewrite⟩], logged,
    fun none => absurd none (List.cons_ne_nil _ _), ?_⟩, ?_⟩
  · rw [held] at taken
    cases taken
    exact absurd rfl other
  · rw [logged]
    simp [turns, Ne.symm other]
  · intro m h
    rw [oldScore] at h
    cases h
    exact ⟨_, newScore, lower⟩
  · change turns t (s'.writes key) = 1
    rw [logged, turns, List.countP_cons, show (s.writes key).countP _ = 0 from before]
    simp

def Told (key : Bytes) (t : Nat) (r : Except PiLsmError PlanReport) (s : Db) : Prop :=
  (Reported r → turns t (s.writes key) = 1) ∧ (¬ Reported r → turns t (s.writes key) = 0)

theorem call_safe (covers : db.Covers frames values) (injective : frames.InjOn envelopeHash)
    (short : ∀ frame ∈ frames, frame.length < 2 ^ 63)
    {p : Prog DbAct (Except PiLsmError PlanReport)} (call : VacuumCalls db key p) (t : Nat) :
    Triple dbMachine (protocol frames values key) t (fun s => turns t (s.writes key) = 0) p
      (Told key t) := by
  obtain ⟨options, rfl⟩ := call
  have triple := Discipline.vacuumMeaning
    (R := discipline covers t key (db.callLimit options)) rfl (allows covers injective short)
  refine triple.consequence (fun _ hs => hs) (fun r s _ _ hs => ?_)
  cases r with
  | error e => exact ⟨nofun, fun _ => hs⟩
  | ok report =>
    change (if report.status = .rewritten then turns t (s.writes key) = 1
      else turns t (s.writes key) = 0) at hs
    constructor
    · rintro ⟨_, ⟨⟩, rewritten⟩
      rwa [if_pos rewritten] at hs
    · intro silent
      rwa [if_neg (fun rewritten => silent ⟨report, rfl, rewritten⟩)] at hs

theorem elsewhere_step (s s' : Db) (moved : Elsewhere values key s s') (inv : Inv values key s)
    (_ : KeyStoredIn frames key s) (_ : KeyStoredIn frames key s') :
    Inv values key s' ∧ ∀ t, Rely key t s s' := by
  refine ⟨⟨score_congr moved.store ▸ inv.planned, fun k w there => ?_⟩,
    fun t => still moved.store moved.log (fun held => moved.lock.trans held)⟩
  obtain before | trusted := moved.cached k w there
  · exact inv.cached k w before
  · exact trusted

omit [Digests] in
theorem exec_log {β : Type} {o : Oracle} {a : DbAct β} {s s' : Db} {b : β}
    (run : dbMachine.exec o t a s = some (b, s')) :
    s'.log = s.log ∨ ∃ event, s'.log = event :: s.log := by
  cases a with
  | lock key =>
    obtain ⟨_, rfl⟩ := exec_lock run
    exact Or.inl rfl
  | put key frame origin =>
    cases run
    exact Or.inr ⟨_, rfl⟩
  | delete key =>
    cases run
    exact Or.inr ⟨_, rfl⟩
  | _ =>
    cases run
    exact Or.inl rfl

theorem step_log {pool pool' : Pool DbAct Db (Except PiLsmError PlanReport)}
    (step : Pool.Step dbMachine (VacuumCalls db key) (Elsewhere values key) pool pool') :
    pool'.state.writes key = pool.state.writes key ∨
      ∃ event, pool'.state.writes key = event :: pool.state.writes key := by
  cases step with
  | spawn call => exact Or.inl rfl
  | act there run =>
    obtain same | ⟨event, more⟩ := exec_log run
    · exact Or.inl (writes_congr same)
    · simp only [Db.writes, more, List.filter_cons]
      split
      · exact Or.inr ⟨event, rfl⟩
      · exact Or.inl rfl
  | env move => exact Or.inl move.log

omit [Digests] in
theorem lowered {s s' : Db} (descends : s.Descends key s') (planned : (s.score key).isSome)
    (logged : s'.writes key = s.writes key ∨ ∃ event, s'.writes key = event :: s.writes key) :
    (s'.store key = s.store key ∧ s'.writes key = s.writes key) ∨
    ∃ event m m', s'.writes key = event :: s.writes key ∧ s.score key = some m ∧
      s'.score key = some m' ∧ m' < m := by
  obtain ⟨new, log, same, paid⟩ := descends
  obtain ⟨m, score⟩ := Option.isSome_iff_exists.mp planned
  obtain none | ⟨event, one⟩ := logged
  · have empty : new = [] := List.append_left_eq_self.mp (log.symm.trans none)
    exact Or.inl ⟨same empty, none⟩
  · have single : new = [event] :=
      List.append_cancel_right (show _ ++ s.writes key = _ from log.symm.trans one)
    obtain ⟨m', score', less⟩ := paid m score
    subst single
    exact Or.inr ⟨event, m, m', one, score, score', less⟩

theorem fills_cached {s : Db} {cache : ReconstructionCacheState} (covers : db.Covers frames values)
    (good : KeyStoredIn frames key s) (inv : Inv values key s)
    (fills : db.Fills (s.store key) s.cache cache) :
    ∀ k w, cache.get k = some w → Trusted values k w := by
  intro k w there
  obtain before | ⟨frame, p, stored, decoded, rfl, rebuilt⟩ := fills k w there
  · exact inv.cached k w before
  · exact Trusted.rebuilt rebuilt (covers frame (good frame stored) p w decoded rebuilt)

theorem recovered_trusted {cache : ReconstructionCacheState} {frame : Bytes}
    {p : ReconstructionPlan} {limit : UInt64} {w : Bytes} (covers : db.Covers frames values)
    (cached : ∀ k w, cache.get k = some w → Trusted values k w) (member : frame ∈ frames)
    (decoded : ValueEnvelope.decode frame db.decodeLimits = .ok (.plan p))
    (recovered : db.recover cache p limit = .ok w) :
    Trusted values (reconstructionCacheKey p) w := by
  obtain ⟨_, hit | ⟨_, rebuilt⟩⟩ := PiLsmDb.recover_iff.mp recovered
  · exact cached _ w hit
  · exact Trusted.rebuilt rebuilt (covers frame member p w decoded rebuilt)

theorem recovered_before {s : Db} {cache : ReconstructionCacheState} {frame : Bytes}
    {p : ReconstructionPlan} {limit : UInt64} {w : Bytes}
    (injective : ∀ kind, values.InjOn (computeLogicalHash kind)) (inv : Inv values key s)
    (there : s.store key = some frame) (fills : db.Fills (s.store key) s.cache cache)
    (decoded : ValueEnvelope.decode frame db.decodeLimits = .ok (.plan p))
    (trusted : Trusted values (reconstructionCacheKey p) w)
    (recovered : db.recover cache p limit = .ok w) : db.recover s.cache p limit = .ok w := by
  obtain ⟨within, found⟩ := PiLsmDb.recover_iff.mp recovered
  refine PiLsmDb.recover_iff.mpr ⟨within, ?_⟩
  cases before : s.cache.get (reconstructionCacheKey p) with
  | some x => exact Or.inl (congrArg some ((inv.cached _ x before).unique injective trusted))
  | none =>
    refine Or.inr ⟨rfl, ?_⟩
    obtain hit | ⟨_, rebuilt⟩ := found
    · obtain old | ⟨frame', p', there', decoded', _, rebuilt⟩ := fills _ w hit
      · rw [before] at old
        cases old
      · cases there.symm.trans there'
        cases decoded.symm.trans decoded'
        exact rebuilt
    · exact rebuilt

theorem chosen_iff {clock : Nat → Nat} {cache : ReconstructionCacheState} {frame : Bytes}
    {options : VacuumOptions} {plan : ReconstructionPlan} {n : Nat}
    (scored : storedScore frame = some n) :
    db.vacuumChoice clock cache frame options = some plan ↔
      ∃ old w, ValueEnvelope.decode frame db.decodeLimits = .ok (.plan old) ∧
        db.recover cache old (db.callLimit options) = .ok w ∧
        db.planner.planWithOptions clock w options.planOptions = .ok plan ∧
        planImproved frame.length old.chunks.length (ValueEnvelope.plan plan).encode.length
          plan.chunks.length = true := by
  cases decoded : ValueEnvelope.decode frame db.decodeLimits with
  | error e => simp [PiLsmDb.vacuumChoice, decoded]
  | ok e =>
    obtain ⟨old, rfl, _⟩ := storedScore_decode scored decoded
    rw [PiLsmDb.vacuumChoice_some decoded]
    simp

theorem kept_settled (covers : db.Covers frames values)
    (injective : ∀ kind, values.InjOn (computeLogicalHash kind)) {s : Db} {clock clock' : Nat → Nat}
    {options : VacuumOptions} (unhurried : options.planOptions.Unhurried clock)
    (inv : Inv values key s) (good : KeyStoredIn frames key s)
    {cache : ReconstructionCacheState} (fills : db.Fills (s.store key) s.cache cache)
    {frame : Bytes} {n : Nat} (there : s.store key = some frame)
    (scored : storedScore frame = some n)
    (chosen : db.vacuumChoice clock s.cache frame options = none) :
    db.vacuumChoice clock' cache frame options = none := by
  rw [Option.eq_none_iff_forall_ne_some]
  intro plan again
  obtain ⟨old, w, decoded, recovered, planned, better⟩ := (chosen_iff scored).mp again
  have trusted : Trusted values (reconstructionCacheKey old) w :=
    recovered_trusted covers (fills_cached covers good inv fills) (good frame there) decoded
      recovered
  have before : db.recover s.cache old (db.callLimit options) = .ok w :=
    recovered_before injective inv there fills decoded trusted recovered
  have planned' : db.planner.planWithOptions clock w options.planOptions = .ok plan := by
    rw [Planner.planWithOptions_unhurried _ unhurried]
    exact Planner.planWithOptions_stopped planned
  have found := (chosen_iff scored).mpr ⟨old, w, decoded, before, planned', better⟩
  rw [chosen] at found
  cases found

theorem rewritten_settled (covers : db.Covers frames values)
    (injective : ∀ kind, values.InjOn (computeLogicalHash kind)) {clock clock' : Nat → Nat}
    {options : VacuumOptions} {cache cache' : ReconstructionCacheState}
    (cached : ∀ k w, cache.get k = some w → Trusted values k w)
    (cached' : ∀ k w, cache'.get k = some w → Trusted values k w)
    {frame : Bytes} {n : Nat} {plan : ReconstructionPlan} (member : frame ∈ frames)
    (scored : storedScore frame = some n) (member' : (ValueEnvelope.plan plan).encode ∈ frames)
    (small : (ValueEnvelope.plan plan).encode.length < 2 ^ 64)
    (chosen : db.vacuumChoice clock cache frame options = some plan) :
    db.vacuumChoice clock' cache' (ValueEnvelope.plan plan).encode options = none := by
  rw [Option.eq_none_iff_forall_ne_some]
  intro plan' again
  obtain ⟨old, v, decoded, recovered, planned, _⟩ := (chosen_iff scored).mp chosen
  have valued := (recovered_trusted covers cached member decoded recovered).1
  obtain ⟨q, w, decoded', recovered', planned', better⟩ :=
    (chosen_iff (storedScore_encode small)).mp again
  cases (decode_encode_plan.mp decoded').2
  have same : w = v := Trusted.unique injective
    (recovered_trusted covers cached' member' decoded' recovered')
    (Trusted.rebuilt (Planner.planWithOptions_made planned).rebuilds valued)
  subst same
  cases (Planner.planWithOptions_stopped planned).symm.trans
    (Planner.planWithOptions_stopped planned')
  simp [planImproved] at better

theorem settled (covers : db.Covers frames values)
    (short : ∀ frame ∈ frames, frame.length < 2 ^ 63)
    (injective : ∀ kind, values.InjOn (computeLogicalHash kind)) {s s₁ s₂ : Db} {o o' : Oracle}
    {t t' : Nat} {options : VacuumOptions} (unhurried : options.planOptions.Unhurried o.clock)
    (inv : Inv values key s) (good : KeyStoredIn frames key s) (good' : KeyStoredIn frames key s₁)
    {r r' : Except PiLsmError PlanReport}
    (run : alone dbMachine o t (db.vacuumMeaning key options).run s = some (r, s₁))
    (run' : alone dbMachine o' t' (db.vacuumMeaning key options).run s₁ = some (r', s₂)) :
    ¬ Reported r' := by
  rintro ⟨report, rfl, rewritten⟩
  obtain ⟨_, _, first, rewrote, fills⟩ := alone_vacuumMeaning db (o := o) (t := t)
    (alone_vacuumMeaning_free run) options
  cases run.symm.trans first
  obtain ⟨_, _, second, rewrote', _⟩ := alone_vacuumMeaning db (o := o') (t := t')
    (alone_vacuumMeaning_free run') options
  cases run'.symm.trans second
  obtain ⟨n, score⟩ := Option.isSome_iff_exists.mp inv.planned
  obtain ⟨frame, there, scored⟩ := Option.bind_eq_some_iff.mp score
  rw [there, Option.bind_some] at rewrote
  suffices none : (s₁.store key).bind
      (fun frame => db.vacuumChoice o'.clock s₁.cache frame options) = none by
    rw [none] at rewrote'
    exact rewrote'.2.1 report rfl rewritten
  cases chosen : db.vacuumChoice o.clock s.cache frame options with
  | none =>
    rw [chosen] at rewrote
    rw [rewrote.2.2, there, Option.bind_some]
    exact kept_settled covers injective unhurried inv good fills there scored chosen
  | some plan =>
    rw [chosen] at rewrote
    have there' : s₁.store key = some (ValueEnvelope.plan plan).encode := by
      rw [rewrote.2.2, Function.update_self]
    have small := Nat.lt_trans (short _ (good' _ there')) (by decide : 2 ^ 63 < 2 ^ 64)
    rw [there', Option.bind_some]
    exact rewritten_settled covers injective inv.cached (fills_cached covers good inv fills)
      (good frame there) scored (good' _ there') small chosen

end Progress

/-- Every write of a vacuum lowers the score of the frame, and exactly the calls that report
Rewritten have written. Called again with nothing in between it writes nothing. -/
theorem vacuum_progress [Digests] {db : PiLsmDb} {key : Bytes} {frames values : Set Bytes}
    (injective : frames.InjOn envelopeHash)
    (values_injective : ∀ kind, values.InjOn (computeLogicalHash kind))
    (covers : db.Covers frames values) (short : ∀ frame ∈ frames, frame.length < 2 ^ 63)
    {start : Db} {n : Nat} (score : start.score key = some n) (unlogged : start.writes key = [])
    (cached : ∀ k w, start.cache.get k = some w → Trusted values k w)
    {pool : Pool DbAct Db (Except PiLsmError PlanReport)}
    (reach : Pool.Reach dbMachine (VacuumCalls db key) (Elsewhere values key)
      (KeyStoredIn frames key) start pool) :
    (∃ m, pool.state.score key = some m ∧ m + (pool.state.writes key).length ≤ n) ∧
    (∀ t r, pool.threads[t]? = some (.done r) →
      (Reported r → turns t (pool.state.writes key) = 1) ∧
      (¬ Reported r → turns t (pool.state.writes key) = 0)) ∧
    (∀ pool', Pool.Step dbMachine (VacuumCalls db key) (Elsewhere values key) pool pool' →
      KeyStoredIn frames key pool'.state →
      (pool'.state.store key = pool.state.store key ∧
        pool'.state.writes key = pool.state.writes key) ∨
      ∃ event m m', pool'.state.writes key = event :: pool.state.writes key ∧
        pool.state.score key = some m ∧ pool'.state.score key = some m' ∧ m' < m) ∧
    ∀ options o o' t t' r r' s₁ s₂, options.planOptions.Unhurried o.clock →
      alone dbMachine o t (db.vacuumMeaning key options).run pool.state = some (r, s₁) →
      KeyStoredIn frames key s₁ →
      alone dbMachine o' t' (db.vacuumMeaning key options).run s₁ = some (r', s₂) →
      ¬ Reported r' := by
  let P := Progress.protocol frames values key
  let fresh : Fresh P :=
    ⟨fun t s => turns t (s.writes key) = 0, fun _ _ _ h moved => moved.turns.trans h⟩
  have safe : ∀ p, VacuumCalls db key p → ∀ t,
      Triple dbMachine P t (fresh.holds t) p (Progress.Told key t) :=
    fun _ call t => Progress.call_safe covers injective short call t
  have keeps : ∀ s s', Elsewhere values key s s' → P.inv s → P.good s → P.good s' →
      P.inv s' ∧ ∀ t, P.rely t s s' := Progress.elsewhere_step
  have inv : P.inv start := ⟨score ▸ rfl, cached⟩
  have newborn : ∀ t, fresh.holds t start := fun t => by
    change turns t (start.writes key) = 0
    rw [unlogged]
    rfl
  have kept : ∀ {pool : Pool DbAct Db (Except PiLsmError PlanReport)},
      Pool.Reach dbMachine (VacuumCalls db key) (Elsewhere values key) P.good start pool →
      pool.Kept dbMachine P fresh (Progress.Told key) :=
    fun reach => reach.kept inv newborn safe keeps
  have descends : start.Descends key pool.state := by
    induction reach with
    | start _ => exact Db.Descends.refl key start
    | step before step ok ih =>
      obtain ⟨_, t, moved⟩ := (kept before).step safe keeps step ok
      exact (ih).trans moved.descends
  refine ⟨?_, fun t r ended => (kept reach).result ended, fun pool' step ok => ?_, ?_⟩
  · obtain ⟨new, log, _, paid⟩ := descends
    obtain ⟨m, score', le⟩ := paid n score
    rw [log, unlogged, List.append_nil]
    exact ⟨m, score', le⟩
  · obtain ⟨_, t, moved⟩ := (kept reach).step safe keeps step ok
    exact Progress.lowered moved.descends (kept reach).inv.planned (Progress.step_log step)
  · intro options o o' t t' r r' s₁ s₂ unhurried run good run'
    exact Progress.settled covers short values_injective unhurried (kept reach).inv
      (kept reach).good good run run'

/-- A frame of samplePlan with a stream that it does not need. -/
def idlePlanFrame : Bytes :=
  [0x50, 0x4c, 0x53, 0x4d, 0x01, 0x01, 0x00, 0x00, 0x01, 0x4a, 0x01, 0x01, 0x00, 0x01, 0x01,
    0x01] ++ List.replicate 64 0 ++ [0x01, 0x01, 0x01, 0x61, 0x17, 0x76, 0x2f, 0xdd, 0xd9, 0x69,
    0xa4, 0x53, 0x92, 0x5d, 0x65, 0x71, 0x7a, 0xc3, 0xee, 0xa2, 0x18, 0x15, 0xee, 0x4e]

def idlePlan : ReconstructionPlan :=
  { samplePlan with streams := [⟨.sha256CounterV1 (digestOf 0), digestOf 0⟩] }

/-- The digests of idlePlanFrame and samplePlanFrame, told apart by their lengths. -/
@[reducible] def idleDigests : Digests :=
  { sampleDigests with
    sha256 := fun b => digestOf (if b.length = 104 then
      0x46864ed1ed59a6693ee159d74ef71dba70fd24a6a6c2a3e599e39ec1a2e6a11d else 0)
    crc32 := fun b => if b.length = 100 then 0x4eee1518 else 0xfff00cb0 }

def idleFrames : Set Bytes := {idlePlanFrame, samplePlanFrame}

def idleState : Db := { sampleState with store := fun _ => some idlePlanFrame }

theorem idlePlanFrame_decoded :
    letI := idleDigests
    ValueEnvelope.decode idlePlanFrame .default = .ok (.plan idlePlan) := by
  decide +kernel

theorem idleFrames_injective : letI := idleDigests; idleFrames.InjOn envelopeHash := by
  let _ := idleDigests
  have differs : envelopeHash idlePlanFrame ≠ envelopeHash samplePlanFrame := by decide +kernel
  exact Set.injOn_pair.mpr (fun same => absurd same differs)

theorem idleFrames_covers :
    letI := idleDigests
    (sampleDb .default).Covers idleFrames {[0x61]} := by
  let _ := idleDigests
  have spelled : ValueEnvelope.decode samplePlanFrame .default = .ok (.plan samplePlan) := by
    decide
  have idle_value : reconstruct ⟨[]⟩ idlePlan = .ok [0x61] := by decide
  have value : reconstruct ⟨[]⟩ samplePlan = .ok [0x61] := by decide
  rintro frame (rfl | rfl) p v decoded rebuilt
  · cases idlePlanFrame_decoded.symm.trans decoded
    exact (Except.ok.inj (idle_value.symm.trans rebuilt)).symm
  · cases spelled.symm.trans decoded
    exact (Except.ok.inj (value.symm.trans rebuilt)).symm

theorem idleFrames_first {s : Db} (same : s.store [0x6b] = some idlePlanFrame) :
    KeyStoredIn idleFrames [0x6b] s :=
  fun _ there => Or.inl (Option.some.inj (there.symm.trans same))

theorem idleFrames_second {s : Db} (same : s.store [0x6b] = some samplePlanFrame) :
    KeyStoredIn idleFrames [0x6b] s :=
  fun _ there => Or.inr (Option.some.inj (there.symm.trans same))

theorem idle_vacuumed :
    letI := idleDigests
    ∃ pool, Pool.Reach dbMachine (VacuumCalls (sampleDb .default) [0x6b])
        (Elsewhere {[0x61]} [0x6b]) (KeyStoredIn idleFrames [0x6b]) idleState pool ∧
      pool.threads[0]? = some (.done (.ok ⟨.rewritten, some (envelopeHash idlePlanFrame), some 104,
        some 39, some 1, some 1⟩)) ∧
      pool.state.score [0x6b] = some 55 := by
  let _ := idleDigests
  let db := sampleDb .default
  let o : Oracle := ⟨stopped, 0, fun _ => 0⟩
  let calls := VacuumCalls db [0x6b]
  let Moves := Pool.Step dbMachine calls (Elsewhere {[0x61]} [0x6b])
  let Run := Pool.Reach dbMachine calls (Elsewhere {[0x61]} [0x6b]) (KeyStoredIn idleFrames [0x6b])
    idleState
  have call : calls (db.vacuumMeaning [0x6b] ⟨(barePlanner true).options, none⟩).run := ⟨_, rfl⟩
  have before : ∀ {s s' ts ts'}, Run ⟨s, ts⟩ → Moves ⟨s, ts⟩ ⟨s', ts'⟩ →
      s'.store [0x6b] = some idlePlanFrame → Run ⟨s', ts'⟩ :=
    fun run move same => run.step move (idleFrames_first same)
  have after : ∀ {s s' ts ts'}, Run ⟨s, ts⟩ → Moves ⟨s, ts⟩ ⟨s', ts'⟩ →
      s'.store [0x6b] = some samplePlanFrame → Run ⟨s', ts'⟩ :=
    fun run move same => run.step move (idleFrames_second same)
  have run : Run _ := before (Pool.Reach.start (idleFrames_first rfl)) (.spawn call) rfl
  replace run := before run (.act (t := 0) (o := o) rfl rfl) rfl
  replace run := before run (.act (t := 0) (o := o) rfl rfl) rfl
  replace run := before run (.act (t := 0) (o := o) rfl rfl) rfl
  -- The frame read is not decoded again in every step from here on.
  have idle : ValueEnvelope.decode idlePlanFrame db.decodeLimits = .ok (.plan idlePlan) :=
    idlePlanFrame_decoded
  simp only [idleState, Db.count, List.nil_append, List.set_cons_zero, Prog.bind, Function.comp,
    ExceptT.bindCont, idle] at run
  replace run := before run (.act (t := 0) (o := o) rfl rfl) rfl
  replace run := before run (.act (t := 0) (o := o) rfl rfl) rfl
  replace run := before run (.act (t := 0) (o := o) rfl rfl) rfl
  replace run := before run (.act (t := 0) (o := o) rfl rfl) rfl
  replace run := before run (.act (t := 0) (o := o) rfl rfl) rfl
  replace run := before run (.act (t := 0) (o := o) rfl rfl) rfl
  replace run := before run (.act (t := 0) (o := o) rfl rfl) rfl
  replace run := before run (.act (t := 0) (o := o) rfl rfl) rfl
  replace run := before run (.act (t := 0) (o := o) rfl rfl) rfl
  replace run := after run (.act (t := 0) (o := o) rfl rfl) (by decide)
  replace run := after run (.act (t := 0) (o := o) rfl rfl) (by decide)
  replace run := after run (.act (t := 0) (o := o) rfl rfl) (by decide)
  exact ⟨_, run, rfl, by decide⟩

/-- A call that drops the stream ends with Rewritten; the same call after it does not. -/
theorem vacuum_progress_sample :
    letI := idleDigests
    let db := sampleDb .default
    let start : Db := { sampleState with store := fun _ => some idlePlanFrame }
    let options : VacuumOptions := ⟨(barePlanner true).options, none⟩
    let o : Oracle := ⟨stopped, 0, fun _ => 0⟩
    start.score [0x6b] = some 120 ∧
    (∃ (pool : Pool DbAct Db (Except PiLsmError PlanReport)) (report : PlanReport),
      pool.threads[0]? = some (.done (.ok report)) ∧ report.status = .rewritten ∧
      pool.state.score [0x6b] = some 55 ∧ turns 0 (pool.state.writes [0x6b]) = 1 ∧
      ∃ m, pool.state.score [0x6b] = some m ∧ m + (pool.state.writes [0x6b]).length ≤ 120) ∧
    ∃ r r' s₁ s₂,
      alone dbMachine o 0 (db.vacuumMeaning [0x6b] options).run start =
        some (r, s₁) ∧ Reported r ∧
      alone dbMachine o 1 (db.vacuumMeaning [0x6b] options).run s₁ =
        some (r', s₂) ∧ ¬ Reported r' := by
  let _ := idleDigests
  intro db start options o
  have short : ∀ frame ∈ idleFrames, frame.length < 2 ^ 63 := by
    rintro frame (rfl | rfl) <;> decide
  have cached : ∀ k w, start.cache.get k = some w → Trusted {[0x61]} k w := fun _ _ h => by cases h
  have score : start.score [0x6b] = some 120 := by decide +kernel
  have free : ∀ key, start.locks key = none := fun _ => rfl
  refine ⟨score, ?_, ?_⟩
  · obtain ⟨pool, reached, ended, lowered⟩ := idle_vacuumed
    obtain ⟨paid, told, _⟩ := vacuum_progress idleFrames_injective (by simp) idleFrames_covers short
      score rfl cached reached
    exact ⟨pool, _, ended, rfl, lowered, (told 0 _ ended).1 ⟨_, rfl, rfl⟩, paid⟩
  · have chosen : (start.store [0x6b]).bind
        (fun frame => db.vacuumChoice o.clock start.cache frame options) = some samplePlan := by
      have there : start.store [0x6b] = some idlePlanFrame := rfl
      have idle : ValueEnvelope.decode idlePlanFrame db.decodeLimits = .ok (.plan idlePlan) :=
        idlePlanFrame_decoded
      rw [there, Option.bind_some, PiLsmDb.vacuumChoice_some idle]
      exact ⟨[0x61], by decide, by decide, by decide +kernel⟩
    obtain ⟨r, s₁, first, rewrote, _⟩ := alone_vacuumMeaning db (o := o) (t := 0) (s := start)
      (free _) options
    rw [chosen] at rewrote
    obtain ⟨locks, reported, stored⟩ := rewrote
    have planned : (ValueEnvelope.plan samplePlan).encode = samplePlanFrame := by decide
    have good : KeyStoredIn idleFrames [0x6b] s₁ :=
      idleFrames_second (by rw [stored, Function.update_self, planned])
    have freed : s₁.locks [0x6b] = none := locks ▸ free _
    obtain ⟨r', s₂, second, _⟩ := alone_vacuumMeaning db (o := o) (t := 1) freed options
    have settled := (vacuum_progress idleFrames_injective (by simp) idleFrames_covers short score
      rfl cached (Pool.Reach.start (idleFrames_first rfl))).2.2.2
    exact ⟨r, r', s₁, s₂, first, reported, second, settled options o o 0 1 r r' s₁ s₂
      (fun _ => Nat.zero_le _) first good second⟩

end PiLSMer
