import Mathlib.Data.Set.Function
import PiLSMer.Slate.Db

/-! The rewriting operations under any protocol whose threads respect the key locks. What a
rewrite learns on its way to the write is stated once; a protocol only says what the frames
it may meet are, and that a write made with that knowledge is allowed. -/
namespace PiLSMer
open Interleave

/-- A step of thread t that touches neither frames nor cache nor locks of others. -/
structure Db.Quiet (t : Nat) (s s' : Db) : Prop where
  store : s'.store = s.store
  log : s'.log = s.log
  cache : s'.cache = s.cache
  locks : ∀ k u, u ≠ t → (s'.locks k = some u ↔ s.locks k = some u)

/-- The protocol lets thread t take quiet steps. -/
structure Tolerant (P : Protocol Db) (t : Nat) : Prop where
  quiet : ∀ s s', s.Quiet t s' → P.inv s → P.inv s' ∧ ∀ u, u ≠ t → P.rely u s s'

structure Orderly (P : Protocol Db) (t : Nat) (key : Bytes) : Prop extends Tolerant P t where
  locks : ∀ s s', P.rely t s s' → s.locks key = some t → s'.locks key = some t

/-- Neither the others nor a counter of its own disturb what thread t knows. -/
structure Calm (P : Protocol Db) (t : Nat) (pre : Db → Prop) : Prop where
  stable : Stable P t pre
  counts : ∀ s counters, pre s → pre { s with counters }

structure Steady (P : Protocol Db) (t : Nat) (pre : Db → Prop) : Prop where
  stable : Stable P t pre
  quiet : ∀ s s', s.Quiet t s' → pre s → pre s'

theorem Db.Quiet.refl (t : Nat) (s : Db) : s.Quiet t s :=
  ⟨rfl, rfl, rfl, fun _ _ _ => Iff.rfl⟩

theorem Db.Quiet.relock {t : Nat} {s : Db} {key : Bytes} {owner owner' : Option Nat}
    (old : s.locks key = owner) (mine : ∀ u, u ≠ t → owner ≠ some u)
    (mine' : ∀ u, u ≠ t → owner' ≠ some u) :
    s.Quiet t { s with locks := Function.update s.locks key owner' } := by
  refine ⟨rfl, rfl, rfl, fun k u other => ?_⟩
  by_cases same : k = key
  · subst same
    simp only [Function.update_self, old, mine u other, mine' u other]
  · simp only [Function.update_of_ne same]

theorem Db.Quiet.counts (t : Nat) (s : Db) (counters : DbCounter → UInt64) :
    s.Quiet t { s with counters } :=
  ⟨rfl, rfl, rfl, fun _ _ _ => Iff.rfl⟩

section Threads

variable {P : Protocol Db} {t : Nat} {key : Bytes} {β α : Type} {pre pre' err : Db → Prop}

theorem Steady.calm (h : Steady P t pre) : Calm P t pre :=
  ⟨h.stable, fun s counters => h.quiet s _ (Db.Quiet.counts t s counters)⟩

theorem Calm.and (h : Calm P t pre) (h' : Calm P t pre') : Calm P t (fun s => pre s ∧ pre' s) where
  stable s s' hs moved inv good :=
    ⟨h.stable s s' hs.1 moved inv good, h'.stable s s' hs.2 moved inv good⟩
  counts s counters hs := ⟨h.counts s counters hs.1, h'.counts s counters hs.2⟩

theorem Calm.pure (fact : Prop) : Calm P t (fun _ => fact) :=
  ⟨fun _ _ h _ _ _ => h, fun _ _ h => h⟩

theorem Steady.and (h : Steady P t pre) (h' : Steady P t pre') :
    Steady P t (fun s => pre s ∧ pre' s) where
  stable := (h.calm.and h'.calm).stable
  quiet s s' step hs := ⟨h.quiet s s' step hs.1, h'.quiet s s' step hs.2⟩

theorem Steady.pure (fact : Prop) : Steady P t (fun _ => fact) :=
  ⟨fun _ _ h _ _ _ => h, fun _ _ _ h => h⟩

theorem Orderly.locked (orderly : Orderly P t key) : Calm P t (fun s => s.locks key = some t) :=
  ⟨fun s s' held moved _ _ => orderly.locks s s' moved held, fun _ _ h => h⟩

def DbAct.Counts (a : DbAct β) : Prop :=
  ∀ o u s b s', dbMachine.exec o u a s = some (b, s') → ∃ counters, s' = { s with counters }

theorem DbAct.Counts.add (counter : DbCounter) (value : UInt64) :
    (DbAct.add counter value).Counts := by
  intro o u s b s' run
  cases run
  exact ⟨_, rfl⟩

theorem DbAct.Counts.addDuration (counter : DbCounter) : (DbAct.addDuration counter).Counts := by
  intro o u s b s' run
  cases run
  exact ⟨_, rfl⟩

theorem DbAct.Counts.setCacheBytes (bytes : UInt64) : (DbAct.setCacheBytes bytes).Counts := by
  intro o u s b s' run
  cases run
  exact ⟨_, rfl⟩

theorem DbAct.Counts.flush : DbAct.flush.Counts := by
  intro o u s b s' run
  cases run
  exact ⟨_, rfl⟩

theorem DbAct.Counts.clock : DbAct.clock.Counts := by
  intro o u s b s' run
  cases run
  exact ⟨_, rfl⟩

theorem DbAct.Counts.load (counter : DbCounter) : (DbAct.load counter).Counts := by
  intro o u s b s' run
  cases run
  exact ⟨_, rfl⟩

theorem Tolerant.counted (tolerant : Tolerant P t) {s s' : Db} (inv : P.inv s)
    (h : ∃ counters, s' = { s with counters }) : P.inv s' ∧ ∀ u, u ≠ t → P.rely u s s' := by
  obtain ⟨counters, rfl⟩ := h
  exact tolerant.quiet s _ (Db.Quiet.counts t s counters) inv

theorem Tolerant.issued (tolerant : Tolerant P t) (calm : Calm P t pre) {a : DbAct β}
    (counts : a.Counts) :
    Triple dbMachine P t pre (issue a : DbOp β).run (onResult (fun _ => pre) err) := by
  apply Triple.issued calm.stable (fun _ => calm.stable)
  intro s o b s' hs inv _ run _
  have step := counts o t s b s' run
  obtain ⟨inv', others⟩ := tolerant.counted inv step
  obtain ⟨counters, rfl⟩ := step
  exact ⟨inv', others, calm.counts s counters hs⟩

theorem Tolerant.counts_yields (tolerant : Tolerant P t) (calm : Calm P t pre)
    {p : Prog DbAct α} {fact : α → Prop} (only : p.Only (fun _ a => a.Counts))
    (yields : p.Yields fact) : Triple dbMachine P t pre p (fun r s => fact r ∧ pre s) := by
  induction p with
  | done r => exact Triple.done calm.stable (fun _ hs _ _ => ⟨yields, hs⟩)
  | act a next ih =>
    refine Triple.act calm.stable ?_ (fun b => ih b (only.2 b) (yields b))
    intro s o b s' hs inv _ run _
    obtain ⟨inv', others⟩ := tolerant.counted inv (only.1 o t s b s' run)
    obtain ⟨counters, rfl⟩ := only.1 o t s b s' run
    exact ⟨inv', others, calm.counts s counters hs⟩

theorem Orderly.take (orderly : Orderly P t key) (steady : Steady P t pre) :
    Triple dbMachine P t pre (perform (DbAct.lock key))
      (fun _ s => s.locks key = some t ∧ pre s) := by
  refine Triple.perform steady.stable (fun _ => (orderly.locked.and steady.calm).stable) ?_
  intro s o b s' hs inv _ run _
  obtain ⟨free, rfl⟩ := exec_lock run
  have step : s.Quiet t { s with locks := Function.update s.locks key (some t) } :=
    Db.Quiet.relock free (fun _ _ h => by cases h) (fun u other h => other (by cases h; rfl))
  obtain ⟨inv', others⟩ := orderly.quiet s _ step inv
  exact ⟨inv', others, Function.update_self .., steady.quiet s _ step hs⟩

theorem Orderly.release (orderly : Orderly P t key) (steady : Steady P t pre) :
    Triple dbMachine P t (fun s => s.locks key = some t ∧ pre s) (perform (DbAct.unlock key))
      (fun _ => pre) := by
  refine Triple.perform (orderly.locked.and steady.calm).stable (fun _ => steady.stable) ?_
  intro s o b s' hs inv _ run _
  cases run
  have step : s.Quiet t { s with locks := Function.update s.locks key none } :=
    Db.Quiet.relock hs.1 (fun u other h => other (by cases h; rfl)) (fun _ _ h => by cases h)
  obtain ⟨inv', others⟩ := orderly.quiet s _ step inv
  exact ⟨inv', others, steady.quiet s _ step hs.2⟩

/-- A body that keeps the lock it was given may run under the lock. -/
theorem Orderly.holding (orderly : Orderly P t key)
    {body : DbOp α} {Q : Except PiLsmError α → Db → Prop} (steady : Steady P t pre)
    (ends : ∀ r, Steady P t (Q r))
    (h : Triple dbMachine P t (fun s => s.locks key = some t ∧ pre s) body.run
      (fun r s => s.locks key = some t ∧ Q r s)) :
    Triple dbMachine P t pre (holding key body).run Q := by
  refine Triple.bind (orderly.take steady) (fun _ => Triple.bind h (fun r => ?_))
  exact Triple.bind (orderly.release (ends r))
    (fun _ => Triple.done (ends r).stable (fun _ hs _ _ => hs))

theorem Orderly.holding_onResult (orderly : Orderly P t key) {body : DbOp α}
    {post : α → Db → Prop} {err : Db → Prop} (steady : Steady P t pre)
    (posts : ∀ a, Steady P t (post a)) (errs : Steady P t err)
    (h : Triple dbMachine P t (fun s => s.locks key = some t ∧ pre s) body.run
      (onResult (fun a s => s.locks key = some t ∧ post a s)
        (fun s => s.locks key = some t ∧ err s))) :
    Triple dbMachine P t pre (PiLSMer.holding key body).run (onResult post err) := by
  refine orderly.holding steady (fun r => ?_)
    (h.consequence (fun _ hs => hs) (fun r _ _ _ hs => ?_))
  · cases r with
    | ok a => exact posts a
    | error e => exact errs
  · cases r with
    | ok a => exact hs
    | error e => exact hs

theorem Tolerant.planBytes [Digests] (tolerant : Tolerant P t) (calm : Calm P t pre)
    (db : PiLsmDb) (w : Bytes) (options : PlanOptions) :
    Triple dbMachine P t pre (db.planBytesWithOptions w options).run
      (fun r s => (∃ clock, db.planner.planWithOptions clock w options = r) ∧ pre s) := by
  refine Triple.act (Q := fun _ => pre) calm.stable ?_ (fun clock => ?_)
  · intro s o b s' hs inv _ run _
    cases run
    exact ⟨inv, (tolerant.counted inv ⟨s.counters, rfl⟩).2, hs⟩
  · refine Triple.act (Q := fun _ => pre) calm.stable ?_ (fun _ =>
      Triple.done calm.stable (fun s hs _ _ => ⟨⟨clock, rfl⟩, hs⟩))
    intro s o b s' hs inv _ run _
    obtain ⟨inv', others⟩ := tolerant.counted inv (DbAct.Counts.addDuration _ o t s b s' run)
    cases run
    exact ⟨inv', others, calm.counts s _ hs⟩

end Threads

variable [Digests]

def PiLsmDb.Stores (db : PiLsmDb) (v : Bytes) (options : PutOptions) (e : ValueEnvelope) : Prop :=
  if options.allowImmediatePlan then
    ∃ plan, db.planner.planWithOptions stopped v db.planner.options = .ok plan ∧ e = .plan plan
  else e = .raw v

theorem Tolerant.newEnvelope {P : Protocol Db} {t : Nat} {pre : Db → Prop}
    (tolerant : Tolerant P t) (calm : Calm P t pre) (db : PiLsmDb) (value : Bytes)
    (options : PutOptions) :
    Triple dbMachine P t pre (db.newEnvelope value options).run
      (onResult (fun e s => db.Stores value options e ∧ pre s) pre) := by
  unfold PiLsmDb.newEnvelope
  split
  · rename_i immediate
    refine Triple.andThen (Q := fun plan s =>
      db.planner.planWithOptions stopped value db.planner.options = .ok plan ∧ pre s)
      ((tolerant.planBytes calm db value db.planner.options).consequence (fun _ hs => hs)
        (fun r s _ _ hs => ?_)) calm.stable
      (fun plan => Triple.of_pure (fun planned =>
        Triple.pure calm.stable (fun _ hs _ _ => ⟨?_, hs⟩)))
    · obtain ⟨⟨clock, planned⟩, held⟩ := hs
      cases r with
      | error e => exact held
      | ok plan => exact ⟨Planner.planWithOptions_stopped planned, held⟩
    · rw [PiLsmDb.Stores, if_pos immediate]
      exact ⟨plan, planned, rfl⟩
  · rename_i raw
    refine Triple.pure calm.stable (fun _ hs _ _ => ⟨?_, hs⟩)
    rw [PiLsmDb.Stores, if_neg raw]

theorem Orderly.put {P : Protocol Db} {t : Nat} {key : Bytes} {before after : Db → Prop}
    (orderly : Orderly P t key) (steady : Steady P t before) (steady' : Steady P t after)
    {db : PiLsmDb} {value : Bytes} {options : PutOptions}
    (writes : ∀ s e, db.Stores value options e → s.locks key = some t → before s → P.inv s →
      P.good s → let s' := s.write t key (some e.encode) (.put value)
      P.good s' → P.inv s' ∧ (∀ u, u ≠ t → P.rely u s s') ∧ after s') :
    Triple dbMachine P t before (db.putWithOptions key value options).run
      (onResult (fun _ => after) before) := by
  have locked := (orderly.locked).and steady.calm
  have written := (orderly.locked).and steady'.calm
  refine orderly.holding_onResult steady (fun _ => steady') steady ?_
  refine Triple.andThen (orderly.newEnvelope locked db value options) locked.stable
    (fun e => Triple.of_pure (fun stores => ?_))
  refine Triple.andThen (Q := fun _ s => s.locks key = some t ∧ after s)
    (Triple.issued locked.stable (fun _ => written.stable) ?_) locked.stable (fun _ => ?_)
  · intro s o b s' hs inv good run good'
    cases run
    obtain ⟨inv', others, done⟩ := writes s e stores hs.1 hs.2 inv good good'
    exact ⟨inv', others, hs.1, done⟩
  · dsimp only
    split
    · exact Triple.andThen (orderly.issued written DbAct.Counts.flush) locked.stable
        (fun _ => Triple.pure written.stable (fun _ hs _ _ => hs))
    · exact Triple.pure written.stable (fun _ hs _ _ => hs)

omit [Digests] in
theorem Orderly.delete {P : Protocol Db} {t : Nat} {key : Bytes} {before after : Db → Prop}
    (orderly : Orderly P t key) (steady : Steady P t before) (steady' : Steady P t after)
    {db : PiLsmDb}
    (writes : ∀ s, s.locks key = some t → before s → P.inv s → P.good s →
      let s' := s.write t key none .delete
      P.good s' → P.inv s' ∧ (∀ u, u ≠ t → P.rely u s s') ∧ after s') :
    Triple dbMachine P t before (db.delete key).run (onResult (fun _ => after) before) := by
  have locked := (orderly.locked).and steady.calm
  have written := (orderly.locked).and steady'.calm
  refine orderly.holding_onResult steady (fun _ => steady') steady ?_
  refine Triple.andThen (Q := fun _ s => s.locks key = some t ∧ after s)
    (Triple.issued locked.stable (fun _ => written.stable) ?_) locked.stable
    (fun _ => Triple.pure written.stable (fun _ hs _ _ => hs))
  intro s o b s' hs inv good run good'
  cases run
  obtain ⟨inv', others, done⟩ := writes s hs.1 hs.2 inv good good'
  exact ⟨inv', others, hs.1, done⟩

theorem reconstruct_cacheKey {registry : StreamRegistry} {p : ReconstructionPlan} {v : Bytes}
    (h : reconstruct registry p = .ok v) :
    reconstructionCacheKey p = cacheKeyOf p.logicalHash.kind v := by
  rw [reconstructionCacheKey, cacheKeyOf, (reconstruct_ok_iff.mp h).2.2.2]

/-- Cached bytes are values of the run under their own hash. -/
def Trusted (values : Set Bytes) (key : ReconstructionCacheKey) (w : Bytes) : Prop :=
  w ∈ values ∧ ∃ kind, key = cacheKeyOf kind w

theorem Trusted.unique {values : Set Bytes} {key : ReconstructionCacheKey} {v w : Bytes}
    (injective : ∀ kind, values.InjOn (computeLogicalHash kind)) (first : Trusted values key v)
    (second : Trusted values key w) : v = w := by
  obtain ⟨member, kind, rfl⟩ := first
  obtain ⟨member', kind', sameKey⟩ := second
  simp only [cacheKeyOf, ReconstructionCacheKey.mk.injEq] at sameKey
  obtain ⟨tag, hash⟩ := sameKey
  cases logicalHashKindTag_inj tag
  exact injective _ member member' hash

theorem Trusted.rebuilt {values : Set Bytes} {registry : StreamRegistry} {p : ReconstructionPlan}
    {v : Bytes} (holds : reconstruct registry p = .ok v) (valued : v ∈ values) :
    Trusted values (reconstructionCacheKey p) v :=
  ⟨valued, _, reconstruct_cacheKey holds⟩

theorem Trusted.insert {values : Set Bytes} {registry : StreamRegistry} {p : ReconstructionPlan}
    {v : Bytes} {cache : ReconstructionCacheState} (pick : Victim)
    (cached : ∀ k w, cache.get k = some w → Trusted values k w)
    (holds : reconstruct registry p = .ok v) (valued : v ∈ values) (k : ReconstructionCacheKey)
    (w : Bytes) (there : (cache.insert pick (reconstructionCacheKey p) v).get k = some w) :
    Trusted values k w := by
  obtain before | ⟨rfl, rfl⟩ := insert_get there
  · exact cached k w before
  · exact Trusted.rebuilt holds valued

theorem Trusted.same {values : Set Bytes} {registry : StreamRegistry} {p : ReconstructionPlan}
    {v w : Bytes} (injective : ∀ kind, values.InjOn (computeLogicalHash kind))
    (h : Trusted values (reconstructionCacheKey p) w) (holds : reconstruct registry p = .ok v)
    (valued : v ∈ values) : w = v :=
  h.unique injective (Trusted.rebuilt holds valued)

/-- What a rewrite of one key learns and keeps. Assertions on the state hold before or after
its write; seen, hit and miss are facts that stay true: of a frame read under the lock, of
cached bytes, of a key that was not cached. -/
structure Discipline (P : Protocol Db) (t : Nat) (db : PiLsmDb) (key : Bytes) (limit : UInt64) where
  before : Db → Prop
  after : Db → Prop
  seen : Bytes → Prop
  hit : ReconstructionCacheKey → Bytes → Prop
  miss : ReconstructionCacheKey → Prop
  guarded : Bytes → Db → Prop
  orderly : Orderly P t key
  steady : Steady P t before
  steady' : Steady P t after
  guarded_stable : ∀ c, Stable P t (fun s => s.locks key = some t ∧ before s ∧ guarded c s)
  sees : ∀ s f, before s → P.inv s → P.good s → s.store key = some f → seen f
  hits : ∀ s k w, before s → P.inv s → s.cache.get k = some w → hit k w
  misses : ∀ s k, before s → P.inv s → s.cache.get k = none → miss k
  caches : ∀ s pick f p w, before s → P.inv s → seen f →
    ValueEnvelope.decode f db.decodeLimits = .ok (.plan p) → miss (reconstructionCacheKey p) →
    reconstructWithLimit db.reconstructor p limit = .ok w →
    let s' := { s with cache := s.cache.insert pick (reconstructionCacheKey p) w }
    P.inv s' ∧ (∀ u, u ≠ t → P.rely u s s') ∧ before s'
  guards : ∀ s c, s.locks key = some t → before s → P.inv s → P.good s → s.store key = some c →
    guarded c s

section Rewrites

variable {P : Protocol Db} {t : Nat} {db : PiLsmDb} {key : Bytes} {limit : UInt64}
  (R : Discipline P t db key limit)

def Discipline.Obtained (w : Bytes) : ValueEnvelope → Prop
  | .raw bytes => w = bytes
  | .plan p => p.logicalLen ≤ limit ∧ (R.hit (reconstructionCacheKey p) w ∨
      (R.miss (reconstructionCacheKey p) ∧ reconstruct db.reconstructor p = .ok w))

def Discipline.Looked (key : ReconstructionCacheKey) : Option Bytes → Prop
  | some w => R.hit key w
  | none => R.miss key

def Discipline.Read (source : Source) : Prop :=
  ∃ f, R.seen f ∧ ValueEnvelope.decode f db.decodeLimits = .ok source.envelope ∧
    source.hash = envelopeHash f ∧ source.bytes = f.length

/-- The write at the end of a rewrite is allowed, whenever it is due. -/
def Discipline.Allows (options : PlanOptions)
    (due : Source → ReconstructionPlan → Prop) : Prop :=
  ∀ s source w clock plan c, R.Read source → R.Obtained w source.envelope →
    db.planner.planWithOptions clock w options = .ok plan → due source plan →
    envelopeHash c = source.hash → s.locks key = some t → R.before s → R.guarded c s →
    P.inv s → P.good s →
    let s' := s.write t key (some (ValueEnvelope.plan plan).encode) .rewrite
    P.good s' → P.inv s' ∧ (∀ u, u ≠ t → P.rely u s s') ∧ R.after s'

def Discipline.Ends (report : PlanReport) (s : Db) : Prop :=
  if report.status = .rewritten then R.after s else R.before s

def Discipline.Reports (idle : Prop) (report : PlanReport) (s : Db) : Prop :=
  R.Ends report s ∧ (report.status = .skippedNotImproved → idle)

variable {R}

theorem Discipline.ends_steady (report : PlanReport) : Steady P t (R.Ends report) := by
  unfold Discipline.Ends
  split
  · exact R.steady'
  · exact R.steady

theorem Discipline.ends_before {report : PlanReport} (h : report.status ≠ .rewritten) {s : Db}
    (before : R.before s) : R.Ends report s := by
  rw [Discipline.Ends, if_neg h]
  exact before

theorem Discipline.reports_steady (idle : Prop) (report : PlanReport) :
    Steady P t (R.Reports idle report) :=
  (Discipline.ends_steady report).and (Steady.pure _)

theorem Discipline.reports_end {pre : Db → Prop} {x : DbOp PlanReport} {idle : Prop}
    (h : Triple dbMachine P t pre x.run (onResult (R.Reports idle) R.before)) :
    Triple dbMachine P t pre x.run (onResult R.Ends R.before) := by
  refine h.consequence (fun _ hs => hs) (fun r s _ _ hs => ?_)
  cases r with
  | ok report => exact hs.1
  | error e => exact hs

def Discipline.Found (R : Discipline P t db key limit) :
    Except PiLsmError (Option Source) → Db → Prop :=
  onResult (fun found s => (∀ source, found = some source → R.Read source) ∧ R.before s) R.before

theorem Discipline.found_steady (r : Except PiLsmError (Option Source)) :
    Steady P t (R.Found r) := by
  cases r with
  | ok found => exact (Steady.pure _).and R.steady
  | error e => exact R.steady

theorem Discipline.locked : Calm P t (fun s => s.locks key = some t ∧ R.before s) :=
  (R.orderly.locked).and R.steady.calm

theorem Discipline.readCurrentEnvelope :
    Triple dbMachine P t (fun s => s.locks key = some t ∧ R.before s)
      (db.readCurrentEnvelope key).run (fun r s => s.locks key = some t ∧ R.Found r s) := by
  have stable := R.locked.stable
  suffices h : Triple dbMachine P t (fun s => s.locks key = some t ∧ R.before s)
      (db.readCurrentEnvelope key).run (onResult
        (fun found s => (∀ source, found = some source → R.Read source) ∧
          s.locks key = some t ∧ R.before s) (fun s => s.locks key = some t ∧ R.before s)) by
    refine h.consequence (fun _ hs => hs) (fun r s _ _ hs => ?_)
    cases r with
    | ok found => exact ⟨hs.2.1, hs.1, hs.2.2⟩
    | error e => exact hs
  refine Triple.andThen (Q := fun found s =>
    (∀ f, found = some f → R.seen f) ∧ s.locks key = some t ∧ R.before s)
    (Triple.issued stable (fun _ => ((Calm.pure _).and R.locked).stable) ?_) stable
    (fun found => Triple.of_pure (fun seen => ?_))
  · intro s o b s' hs inv good run _
    cases run
    obtain ⟨_, others⟩ := R.orderly.quiet s s (Db.Quiet.refl t s) inv
    exact ⟨inv, others, fun f there => R.sees s f hs.2 inv good there, hs⟩
  · cases found with
    | none => exact Triple.pure stable (fun s hs _ _ => ⟨nofun, hs⟩)
    | some encoded =>
      dsimp only
      cases decoded : ValueEnvelope.decode encoded db.decodeLimits with
      | error e => exact Triple.throw stable (fun _ hs _ _ => hs)
      | ok envelope =>
        refine Triple.pure stable (fun s hs _ _ => ⟨?_, hs⟩)
        rintro source ⟨⟩
        exact ⟨encoded, seen encoded rfl, decoded, rfl, rfl⟩

theorem Discipline.readLocked :
    Triple dbMachine P t R.before (holding key (db.readCurrentEnvelope key)).run R.Found :=
  R.orderly.holding R.steady R.found_steady R.readCurrentEnvelope

theorem Discipline.reconstructPlan {f : Bytes} {p : ReconstructionPlan} (seen : R.seen f)
    (decoded : ValueEnvelope.decode f db.decodeLimits = .ok (.plan p)) :
    Triple dbMachine P t R.before (db.reconstructPlan p limit).run
      (onResult (fun w s => R.Obtained w (.plan p) ∧ R.before s) R.before) := by
  unfold PiLsmDb.reconstructPlan
  split
  · exact Triple.throw R.steady.stable (fun _ hs _ _ => hs)
  rename_i within
  rw [UInt64.not_lt] at within
  refine Triple.andThen (Q := fun found s => R.Looked (reconstructionCacheKey p) found ∧ R.before s)
    (Triple.issued R.steady.stable (fun _ => ((Steady.pure _).and R.steady).stable) ?_)
    R.steady.stable (fun found => Triple.of_pure (fun fact => ?_))
  · intro s o b s' before inv _ run _
    cases run
    obtain ⟨_, others⟩ := R.orderly.quiet s s (Db.Quiet.refl t s) inv
    refine ⟨inv, others, ?_, before⟩
    cases there : s.cache.get (reconstructionCacheKey p) with
    | some w => exact R.hits s _ w before inv there
    | none => exact R.misses s _ before inv there
  · cases found with
    | some w => exact Triple.pure R.steady.stable (fun s hs _ _ => ⟨⟨within, Or.inl fact⟩, hs⟩)
    | none =>
      refine Triple.andThen (R.orderly.issued R.steady.calm (DbAct.Counts.addDuration _))
        R.steady.stable (fun _ => ?_)
      cases rebuilt : reconstructWithLimit db.reconstructor p limit with
      | error e => exact Triple.throw R.steady.stable (fun _ hs _ _ => hs)
      | ok w =>
        have obtained : R.Obtained w (.plan p) :=
          ⟨within, Or.inr ⟨fact, (reconstructWithLimit_iff.mp rebuilt).2⟩⟩
        refine Triple.andThen (Q := fun _ => R.before)
          (Triple.issued R.steady.stable (fun _ => R.steady.stable) ?_) R.steady.stable
          (fun _ => Triple.andThen (R.orderly.issued R.steady.calm (DbAct.Counts.setCacheBytes _))
            R.steady.stable (fun _ => Triple.pure R.steady.stable
              (fun s hs _ _ => ⟨obtained, hs⟩)))
        intro s o b s' before inv _ run _
        cases run
        exact R.caches s o.pick f p w before inv seen decoded fact rebuilt

/-- The check-and-write under the lock: the report says Rewritten exactly when it wrote. -/
theorem Discipline.writeIfSourceUnchanged {options : PlanOptions}
    {due : Source → ReconstructionPlan → Prop} (allows : R.Allows options due)
    {source : Source} {w : Bytes} {clock : Nat → Nat} {plan : ReconstructionPlan}
    (read : R.Read source) (obtained : R.Obtained w source.envelope)
    (planned : db.planner.planWithOptions clock w options = .ok plan) (isDue : due source plan)
    {report : PlanReport} (final : report.status = .rewritten) (idle : Prop) :
    Triple dbMachine P t R.before
      (db.writeIfSourceUnchanged key source.hash (ValueEnvelope.plan plan).encode report).run
      (onResult (R.Reports idle) R.before) := by
  refine R.orderly.holding_onResult R.steady (Discipline.reports_steady idle) R.steady ?_
  have stays : ∀ report : PlanReport, report.status ≠ .rewritten →
      report.status ≠ .skippedNotImproved →
      Triple dbMachine P t (fun s => s.locks key = some t ∧ R.before s)
        (pure report : DbOp PlanReport).run (onResult
          (fun report s => s.locks key = some t ∧ R.Reports idle report s)
          (fun s => s.locks key = some t ∧ R.before s)) :=
    fun report kept other => Triple.pure R.locked.stable
      (fun s hs _ _ => ⟨hs.1, Discipline.ends_before kept hs.2, fun same => absurd same other⟩)
  let current : Option Bytes → Db → Prop := fun found s =>
    s.locks key = some t ∧ R.before s ∧ ∀ c, found = some c → R.guarded c s
  have current_stable : ∀ found, Stable P t (current found) := by
    intro found s s' hs moved inv good
    obtain ⟨held, before⟩ := R.locked.stable s s' ⟨hs.1, hs.2.1⟩ moved inv good
    refine ⟨held, before, fun c there => ?_⟩
    exact (R.guarded_stable c s s' ⟨hs.1, hs.2.1, hs.2.2 c there⟩ moved inv good).2.2
  refine Triple.andThen (Q := current)
    (Triple.issued R.locked.stable current_stable ?_) R.locked.stable (fun found => ?_)
  · intro s o b s' hs inv good run _
    cases run
    obtain ⟨_, others⟩ := R.orderly.quiet s s (Db.Quiet.refl t s) inv
    exact ⟨inv, others, hs.1, hs.2, fun c there => R.guards s c hs.1 hs.2 inv good there⟩
  cases found with
  | none =>
    exact (stays .missing nofun nofun).consequence (fun _ hs => ⟨hs.1, hs.2.1⟩) (fun _ _ _ _ h => h)
  | some c =>
    dsimp only
    split
    · exact (stays _ (by simp) (by simp)).consequence (fun _ hs => ⟨hs.1, hs.2.1⟩)
        (fun _ _ _ _ h => h)
    · rename_i same
      have after : Calm P t (fun s => s.locks key = some t ∧ R.after s) :=
        (R.orderly.locked).and R.steady'.calm
      refine Triple.andThen (Q := fun _ s => s.locks key = some t ∧ R.after s)
        (Triple.issued (current_stable _) (fun _ => after.stable) ?_) R.locked.stable
        (fun _ => Triple.pure after.stable (fun s hs _ _ => ⟨hs.1, ?_⟩))
      · intro s o b s' hs inv good run good'
        cases run
        obtain ⟨inv', others, done⟩ := allows s source w clock plan c read obtained planned isDue
          (Decidable.not_not.mp same) hs.1 hs.2.1 (hs.2.2 c rfl) inv good good'
        exact ⟨inv', others, hs.1, done⟩
      · refine ⟨?_, fun same => ?_⟩
        · rw [Discipline.Ends, if_pos final]
          exact hs.2
        · cases final.symm.trans same

theorem Discipline.planAndWrite {options : PlanOptions}
    {due : Source → ReconstructionPlan → Prop} (allows : R.Allows options due)
    {source : Source} {w : Bytes} (read : R.Read source)
    (obtained : R.Obtained w source.envelope) (oldChunkCount : Option Nat)
    {unwanted : Bytes → Nat → Bool}
    (isDue : ∀ plan, unwanted (ValueEnvelope.plan plan).encode plan.chunks.length = false →
      due source plan) :
    Triple dbMachine P t R.before
      (db.planAndWrite key source w options oldChunkCount unwanted).run
      (onResult (R.Reports (∃ clock plan, db.planner.planWithOptions clock w options = .ok plan ∧
        unwanted (ValueEnvelope.plan plan).encode plan.chunks.length = true)) R.before) := by
  refine Triple.andThen (Triple.attempted (R.orderly.planBytes R.steady.calm db w options)
    (fun _ => ((Steady.pure _).and R.steady).stable)) R.steady.stable
    (fun result => Triple.of_pure ?_)
  rintro ⟨clock, planned⟩
  let idle : Prop := ∃ clock plan, db.planner.planWithOptions clock w options = .ok plan ∧
    unwanted (ValueEnvelope.plan plan).encode plan.chunks.length = true
  have skip : ∀ report : PlanReport, report.status ≠ .rewritten →
      (report.status = .skippedNotImproved → idle) →
      Triple dbMachine P t R.before (pure report : DbOp PlanReport).run
        (onResult (R.Reports idle) R.before) :=
    fun report kept fact => Triple.pure R.steady.stable
      (fun _ hs _ _ => ⟨Discipline.ends_before kept hs, fact⟩)
  cases result with
  | error e =>
    have failed : Triple dbMachine P t R.before (throw e : DbOp PlanReport).run
        (onResult (R.Reports idle) R.before) := Triple.throw R.steady.stable (fun _ hs _ _ => hs)
    cases e with
    | planningFailed reason =>
      exact Triple.andThen (R.orderly.issued R.steady.calm (DbAct.Counts.add _ _))
        R.steady.stable (fun _ => skip _ nofun nofun)
    | _ => exact failed
  | ok plan =>
    dsimp only
    split
    · rename_i kept
      exact skip _ nofun (fun _ => ⟨clock, plan, planned, kept⟩)
    · rename_i wanted
      exact Discipline.writeIfSourceUnchanged allows read obtained planned
        (isDue plan (by simpa using wanted)) rfl idle

theorem Discipline.countRewritten (report : PlanReport) (counter : DbCounter) (value : UInt64) :
    Triple dbMachine P t (R.Ends report) (countRewritten report counter value).run
      (onResult R.Ends R.before) := by
  have steady := Discipline.ends_steady (R := R) report
  unfold PiLSMer.countRewritten
  split
  · exact Triple.andThen (R.orderly.issued steady.calm (DbAct.Counts.add counter value))
      R.steady.stable (fun _ => Triple.pure steady.stable (fun _ hs _ _ => hs))
  · exact Triple.pure steady.stable (fun _ hs _ _ => hs)

theorem Discipline.missing :
    Triple dbMachine P t R.before (pure .missing : DbOp PlanReport).run
      (onResult R.Ends R.before) :=
  Triple.pure R.steady.stable
    (fun _ hs _ _ => Discipline.ends_before (by simp [PlanReport.missing]) hs)

theorem Discipline.planKey {options : PlanOptions}
    (allows : R.Allows options (fun source _ => ∃ b, source.envelope = .raw b)) :
    Triple dbMachine P t R.before (db.planKey key options).run (onResult R.Ends R.before) := by
  refine Triple.andThen R.readLocked R.steady.stable (fun found => Triple.of_pure (fun facts => ?_))
  cases found with
  | none => exact R.missing
  | some source =>
    have read := facts source rfl
    cases content : source.envelope with
    | plan p =>
      simp only [content]
      exact Triple.pure R.steady.stable
        (fun _ hs _ _ => Discipline.ends_before (by simp [PlanReport.alreadyPlanned]) hs)
    | raw bytes =>
      simp only [content]
      have obtained : R.Obtained bytes source.envelope := by rw [content]; rfl
      exact Triple.andThen (Discipline.reports_end (Discipline.planAndWrite allows read obtained
        none (fun _ _ => ⟨bytes, content⟩))) R.steady.stable
        (fun report => R.countRewritten report _ _)

def Source.Improved (source : Source) (old plan : ReconstructionPlan) : Prop :=
  planImproved source.bytes old.chunks.length (ValueEnvelope.plan plan).encode.length
    plan.chunks.length = true

/-- vacuum_meaning writes when it read a raw value or found a better plan. -/
theorem Discipline.vacuumMeaning {options : VacuumOptions} (limits : limit = db.callLimit options)
    (allows : R.Allows options.planOptions (fun source plan =>
      ∀ old, source.envelope = .plan old → source.Improved old plan)) :
    Triple dbMachine P t R.before (db.vacuumMeaning key options).run
      (onResult R.Ends R.before) := by
  subst limits
  refine Triple.andThen (R.orderly.issued R.steady.calm (DbAct.Counts.add _ _)) R.steady.stable
    (fun _ => Triple.andThen R.readLocked R.steady.stable
      (fun found => Triple.of_pure (fun facts => ?_)))
  cases found with
  | none => exact R.missing
  | some source =>
    have read := facts source rfl
    cases content : source.envelope with
    | raw bytes =>
      simp only [content]
      refine Discipline.planKey (fun s source w clock plan c read obtained planned raw => ?_)
      obtain ⟨b, isRaw⟩ := raw
      exact allows s source w clock plan c read obtained planned
        (fun old isPlan => by rw [isRaw] at isPlan; cases isPlan)
    | plan old =>
      simp only [content]
      obtain ⟨f, seen, decoded, _, _⟩ := read
      rw [content] at decoded
      refine Triple.andThen (Discipline.reconstructPlan seen decoded) R.steady.stable
        (fun w => Triple.of_pure (fun obtained => ?_))
      refine Triple.andThen (Discipline.reports_end (Discipline.planAndWrite allows
        (facts source rfl) (by rw [content]; exact obtained) _ ?_)) R.steady.stable
        (fun report => R.countRewritten report _ _)
      intro plan wanted old' same
      rw [content] at same
      cases same
      simpa [Source.Improved] using wanted

theorem Discipline.logicalBytes {source : Source} (read : R.Read source) :
    Triple dbMachine P t R.before (db.logicalBytes source.envelope limit).run
      (onResult (fun w s => R.Obtained w source.envelope ∧ R.before s) R.before) := by
  obtain ⟨f, seen, decoded, _, _⟩ := read
  cases content : source.envelope with
  | raw bytes => exact Triple.pure R.steady.stable (fun _ hs _ _ => ⟨rfl, hs⟩)
  | plan p =>
    rw [content] at decoded
    exact Discipline.reconstructPlan seen decoded

theorem Discipline.get (limits : limit = db.maxReconstructBytes) :
    Triple dbMachine P t R.before (db.get key).run
      (onResult (fun _ => R.before) R.before) := by
  subst limits
  have look : Triple dbMachine P t R.before (db.getEnvelope key).run
      (onResult (fun found s => (∀ e, found = some e → ∃ f, R.seen f ∧
        ValueEnvelope.decode f db.decodeLimits = .ok e) ∧ R.before s) R.before) := by
    refine Triple.andThen (Q := fun found s => (∀ f, found = some f → R.seen f) ∧ R.before s)
      (Triple.issued R.steady.stable (fun _ => ((Steady.pure _).and R.steady).stable) ?_)
      R.steady.stable (fun found => Triple.of_pure (fun seen => ?_))
    · intro s o b s' before inv good run _
      cases run
      obtain ⟨_, others⟩ := R.orderly.quiet s s (Db.Quiet.refl t s) inv
      exact ⟨inv, others, fun f there => R.sees s f before inv good there, before⟩
    · cases found with
      | none => exact Triple.pure R.steady.stable (fun _ hs _ _ => ⟨nofun, hs⟩)
      | some encoded =>
        dsimp only
        cases decoded : ValueEnvelope.decode encoded db.decodeLimits with
        | error e => exact Triple.throw R.steady.stable (fun _ hs _ _ => hs)
        | ok envelope =>
          refine Triple.pure R.steady.stable (fun _ hs _ _ => ⟨?_, hs⟩)
          rintro e ⟨⟩
          exact ⟨encoded, seen encoded rfl, decoded⟩
  refine Triple.andThen look R.steady.stable (fun found => Triple.of_pure (fun facts => ?_))
  cases found with
  | none => exact Triple.pure R.steady.stable (fun _ hs _ _ => hs)
  | some envelope =>
    obtain ⟨f, seen, decoded⟩ := facts envelope rfl
    have done : ∀ w : Bytes, Triple dbMachine P t R.before (pure (some w) : DbOp (Option Bytes)).run
        (onResult (fun _ => R.before) R.before) :=
      fun w => Triple.pure R.steady.stable (fun _ hs _ _ => hs)
    cases envelope with
    | raw bytes =>
      exact Triple.andThen (Q := fun _ => R.before)
        (Triple.pure R.steady.stable (fun _ hs _ _ => hs)) R.steady.stable done
    | plan p =>
      exact Triple.andThen (Discipline.reconstructPlan seen decoded) R.steady.stable
        (fun w => Triple.of_pure (fun _ => done w))

/-- replan_key writes when the new frame has another length or another hash; if it says
SkippedNotImproved, the new frame has neither. -/
theorem Discipline.replanKey_reports {options : VacuumOptions}
    (limits : limit = db.callLimit options)
    (allows : R.Allows options.planOptions (fun source plan =>
      ¬ ((ValueEnvelope.plan plan).encode.length = source.bytes ∧
        envelopeHash (ValueEnvelope.plan plan).encode = source.hash))) :
    Triple dbMachine P t R.before (db.replanKey key options).run
      (onResult (R.Reports (∃ source w clock plan, R.Read source ∧ R.Obtained w source.envelope ∧
        db.planner.planWithOptions clock w options.planOptions = .ok plan ∧
        (ValueEnvelope.plan plan).encode.length = source.bytes ∧
        envelopeHash (ValueEnvelope.plan plan).encode = source.hash)) R.before) := by
  subst limits
  refine Triple.andThen R.readLocked R.steady.stable (fun found => Triple.of_pure (fun facts => ?_))
  cases found with
  | none =>
    exact Triple.pure R.steady.stable
      (fun _ hs _ _ => ⟨Discipline.ends_before (by simp [PlanReport.missing]) hs, nofun⟩)
  | some source =>
    have read := facts source rfl
    refine Triple.andThen (R.logicalBytes read) R.steady.stable
      (fun w => Triple.of_pure (fun obtained => ?_))
    refine (Discipline.planAndWrite allows read obtained _
      (fun plan wanted => by simpa using wanted)).consequence (fun _ hs => hs)
      (fun r s _ _ hs => ?_)
    cases r with
    | error e => exact hs
    | ok report =>
      refine ⟨hs.1, fun same => ?_⟩
      obtain ⟨clock, plan, planned, kept⟩ := hs.2 same
      exact ⟨source, w, clock, plan, read, obtained, planned, by simpa using kept⟩

theorem Discipline.replanKey {options : VacuumOptions} (limits : limit = db.callLimit options)
    (allows : R.Allows options.planOptions (fun source plan =>
      ¬ ((ValueEnvelope.plan plan).encode.length = source.bytes ∧
        envelopeHash (ValueEnvelope.plan plan).encode = source.hash))) :
    Triple dbMachine P t R.before (db.replanKey key options).run
      (onResult R.Ends R.before) :=
  Discipline.reports_end (Discipline.replanKey_reports limits allows)

end Rewrites

end PiLSMer
