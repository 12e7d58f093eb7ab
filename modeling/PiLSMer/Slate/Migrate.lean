import PiLSMer.Core.Expressible
import PiLSMer.Slate.PutGet

/-! migrate_all of the command line: every key is replanned over a new stream, one after the
other. Afterwards no frame needs the old stream, the values are what they were, and a second
migration writes nothing. -/
namespace PiLSMer
open Interleave

structure VacuumAllReport where
  visited : UInt64
  rewritten : UInt64
  kept : UInt64
  staleOrMissing : UInt64
  timedOut : Bool
  deriving DecidableEq, Repr

def VacuumAllReport.default : VacuumAllReport := ⟨0, 0, 0, 0, false⟩

def VacuumAllReport.count (report : VacuumAllReport) (rewrite : PlanReport) : VacuumAllReport :=
  let report := { report with visited := report.visited + 1 }
  match rewrite.status with
  | .rewritten => { report with rewritten := report.rewritten + 1 }
  | .skippedMissingKey | .skippedStaleSource =>
    { report with staleOrMissing := report.staleOrMissing + 1 }
  | .keptAlreadyPlanned | .skippedPlanningFailed | .skippedNotImproved =>
    { report with kept := report.kept + 1 }

/-- The loop over the keys. The statuses, in order, are not part of the report. -/
def rewriteAll (rewrite : Bytes → DbOp PlanReport) :
    List Bytes → VacuumAllReport → DbOp (VacuumAllReport × List RewriteStatus)
  | [], report => pure (report, [])
  | key :: keys, report => do
    let one ← rewrite key
    let rest ← rewriteAll rewrite keys (report.count one)
    pure (rest.1, one.status :: rest.2)

variable [Digests]

/-- The keys of a scan of envelopes, each of which has to decode. -/
def PiLsmDb.scanKeys (db : PiLsmDb) : List (Bytes × Bytes) → Except PiLsmError (List Bytes)
  | [] => pure []
  | (key, encoded) :: entries => do
    let _envelope ← ValueEnvelope.decode encoded db.decodeLimits
    let keys ← db.scanKeys entries
    pure (key :: keys)

/-- migrate_all, given the entries that the engine's scan yields. -/
def PiLsmDb.migrateAll (db : PiLsmDb) (entries : List (Bytes × Bytes)) (planOptions : PlanOptions) :
    DbOp (VacuumAllReport × List RewriteStatus) :=
  match db.scanKeys entries with
  | .error e => throw e
  | .ok keys => rewriteAll (fun key => db.replanKey key (.ofPlanOptions planOptions)) keys .default

/-- A handle with the options of PiLsmOptions::new. -/
def PiLsmDb.ofRuntime (registry : StreamRegistry) (planner : Planner) : PiLsmDb where
  planner := planner
  reconstructor := registry
  decodeLimits := .default
  maxReconstructBytes := 64 * 1024 * 1024

omit [Digests] in
theorem StreamIndex.build_built {stream : ByteStream} {options : StreamIndexOptions}
    {index : StreamIndex} (h : StreamIndex.build stream options = .ok index) :
    index.Built ∧ index.streamId = stream.id := by
  simp only [StreamIndex.build, except_bind_ok] at h
  obtain ⟨_, _, text, _, made⟩ := h
  exact ⟨⟨_, _, _, _, made⟩, (fromPrefix_ok made).streamId⟩

def buildMigrationRuntime (planOptions : PlanOptions) (source target : ByteStream) :
    Except PiLsmError PiLsmDb :=
  let registry := ((StreamRegistry.mk []).register source).register target
  match built : StreamIndex.build target ⟨planOptions.maxPrefixLen, planOptions.maxK,
      planOptions.maxIndexMemoryBytes, planOptions.maxOffsetsPerKgram⟩ with
  | .error e => .error e
  | .ok index => .ok (PiLsmDb.ofRuntime registry
      ⟨[index], registry, planOptions, by simpa using (StreamIndex.build_built built).1⟩)

/-- A handle that knows both streams and plans over the target only. -/
structure PiLsmDb.Migrates (db : PiLsmDb) (source target : ByteStream) : Prop where
  both : db.reconstructor = ((StreamRegistry.mk []).register source).register target
  shared : db.planner.registry = db.reconstructor
  indexed : ∀ index ∈ db.planner.indexes, index.streamId = target.id

omit [Digests] in
theorem buildMigrationRuntime_migrates {planOptions : PlanOptions} {source target : ByteStream}
    {db : PiLsmDb} (h : buildMigrationRuntime planOptions source target = .ok db) :
    db.Migrates source target := by
  unfold buildMigrationRuntime at h
  dsimp only at h
  split at h
  · cases h
  · rename_i index built
    cases h
    exact ⟨rfl, rfl, by simpa [PiLsmDb.ofRuntime] using (StreamIndex.build_built built).2⟩

/-- The values a store stands for: each key holds the frame of its value, or nothing. -/
def PiLsmDb.Represents (db : PiLsmDb) (content : Bytes → Option Slice)
    (store : Bytes → Option Bytes) : Prop :=
  ∀ key, match content key with
    | none => store key = none
    | some v => ∃ frame e, store key = some frame ∧
        ValueEnvelope.decode frame db.decodeLimits = .ok e ∧ e.Holds db.reconstructor v.val

theorem PiLsmDb.Represents.stored {db : PiLsmDb} {content : Bytes → Option Slice}
    {store : Bytes → Option Bytes} (represents : db.Represents content store) {key : Bytes}
    {v : Slice} (value : content key = some v) :
    ∃ frame e, store key = some frame ∧
      ValueEnvelope.decode frame db.decodeLimits = .ok e ∧ e.Holds db.reconstructor v.val := by
  have held := represents key
  simp only [value] at held
  exact held

theorem PiLsmDb.Represents.absent_iff {db : PiLsmDb} {content : Bytes → Option Slice}
    {store : Bytes → Option Bytes} (represents : db.Represents content store) (key : Bytes) :
    store key = none ↔ content key = none := by
  cases value : content key with
  | none =>
    have held := represents key
    simp only [value] at held
    exact iff_of_true held rfl
  | some v =>
    obtain ⟨_, _, there, _⟩ := represents.stored value
    simp [there]

def PiLsmDb.Migrated (db : PiLsmDb) (options : PlanOptions) (content : Bytes → Option Slice)
    (store : Bytes → Option Bytes) (key : Bytes) : Prop :=
  ∀ v, content key = some v → ∃ plan,
    db.planner.planWithOptions stopped v.val options = .ok plan ∧
      store key = some (ValueEnvelope.plan plan).encode

/-- What a migration relies on: no hash collisions among the values and the frames it meets,
and limits that admit what it writes. -/
structure Migration (db : PiLsmDb) (source target : ByteStream) (options : PlanOptions)
    (content : Bytes → Option Slice) (values frames : Set Bytes) : Prop
    extends db.Migrates source target where
  injective : ∀ kind, values.InjOn (computeLogicalHash kind)
  valued : ∀ key v, content key = some v → v.val ∈ values
  distinct : frames.InjOn envelopeHash
  framed : ∀ key v plan, content key = some v →
    db.planner.planWithOptions stopped v.val options = .ok plan →
      (ValueEnvelope.plan plan).encode ∈ frames
  admits : ∀ key v, content key = some v → db.planner.Admits db.decodeLimits v.val options

structure Onlookers (values : Set Bytes) (t : Nat) (s s' : Db) : Prop
    extends Readers values t s s' where
  log : s'.log = s.log

namespace Migrate

def protocol (values : Set Bytes) (t : Nat) : Protocol Db where
  good _ := True
  inv := PutGet.Inv values
  rely u s s' := u = t → Onlookers values t s s'
  refl u s same := ⟨(PutGet.protocol values t).refl u s same, rfl⟩
  trans u s s' s'' first second same :=
    ⟨(PutGet.protocol values t).trans u s s' s'' (fun h => (first h).toReaders)
      (fun h => (second h).toReaders) same, (second same).log.trans (first same).log⟩

variable {db : PiLsmDb} {source target : ByteStream} {options : PlanOptions}
  {content : Bytes → Option Slice} {values frames : Set Bytes} {t : Nat} {key : Bytes}

theorem others {s s' : Db} : ∀ u, u ≠ t → (protocol values t).rely u s s' :=
  fun _ other same => absurd same other

theorem orderly : Orderly (protocol values t) t key where
  quiet s s' step inv := ⟨(PutGet.tolerant.quiet s s' step inv).1, others⟩
  locks _ _ moved held := (moved rfl).locks key held

theorem keeps {s s' : Db} (move : Onlookers values t s s') (inv : PutGet.Inv values s) :
    PutGet.Inv values s' ∧ (protocol values t).rely t s s' :=
  ⟨(PutGet.keeps move.toReaders inv).1, fun _ => move⟩

variable (db content frames) in
/-- The stores that a migration passes through. -/
structure Passes (store : Bytes → Option Bytes) : Prop where
  represents : db.Represents content store
  framed : ∀ key frame, store key = some frame → frame ∈ frames

theorem Passes.holds {store : Bytes → Option Bytes} (passes : Passes db content frames store)
    {frame : Bytes} {e : ValueEnvelope} (there : store key = some frame)
    (decoded : ValueEnvelope.decode frame db.decodeLimits = .ok e) :
    ∃ v, content key = some v ∧ e.Holds db.reconstructor v.val := by
  cases value : content key with
  | none => cases there.symm.trans ((passes.represents.absent_iff key).mpr value)
  | some v =>
    obtain ⟨frame', e', there', decoded', holds⟩ := passes.represents.stored value
    cases there.symm.trans there'
    cases decoded.symm.trans decoded'
    exact ⟨v, rfl, holds⟩

theorem Passes.write (m : Migration db source target options content values frames)
    {store : Bytes → Option Bytes} (passes : Passes db content frames store) {v : Slice}
    {plan : ReconstructionPlan} (value : content key = some v)
    (planned : db.planner.planWithOptions stopped v.val options = .ok plan) :
    Passes db content frames
      (Function.update store key (some (ValueEnvelope.plan plan).encode)) := by
  have made := Planner.planWithOptions_made planned
  have bound : v.val.length < 2 ^ 64 := Nat.lt_trans v.property (by decide)
  have admitted := m.admits key v value plan planned
  constructor
  · intro k
    by_cases same : k = key
    · subst same
      simp only [value]
      exact ⟨_, .plan plan, Function.update_self .., made.decodes bound admitted,
        m.shared ▸ made.rebuilds⟩
    · rw [Function.update_of_ne same]
      exact passes.represents k
  · intro k frame there
    by_cases same : k = key
    · subst same
      rw [Function.update_self] at there
      cases there
      exact m.framed k v plan value planned
    · rw [Function.update_of_ne same] at there
      exact passes.framed k frame there

def Replaced (db : PiLsmDb) (options : PlanOptions) (content : Bytes → Option Slice)
    (store : Bytes → Option Bytes) (key : Bytes) (s : Db) : Prop :=
  ∃ v plan, content key = some v ∧
    db.planner.planWithOptions stopped v.val options = .ok plan ∧
    store key ≠ some (ValueEnvelope.plan plan).encode ∧
    s.store = Function.update store key (some (ValueEnvelope.plan plan).encode)

theorem before_steady (store : Bytes → Option Bytes) (log : List WriteEvent) :
    Steady (protocol values t) t (fun s => s.store = store ∧ s.log = log) :=
  ⟨fun _ _ h moved _ _ => ⟨(moved rfl).store.trans h.1, (moved rfl).log.trans h.2⟩,
    fun _ _ step h => ⟨step.store.trans h.1, step.log.trans h.2⟩⟩

def discipline (m : Migration db source target options content values frames)
    {store : Bytes → Option Bytes} (passes : Passes db content frames store)
    (log : List WriteEvent) (key : Bytes) (limit : UInt64) :
    Discipline (protocol values t) t db key limit where
  before s := s.store = store ∧ s.log = log
  after := Replaced db options content store key
  seen f := store key = some f
  hit := Trusted values
  miss _ := True
  guarded _ _ := True
  orderly := orderly
  steady := before_steady store log
  steady' := by
    constructor
    · rintro s s' ⟨v, plan, value, planned, other, written⟩ moved _ _
      exact ⟨v, plan, value, planned, other, (moved rfl).store.trans written⟩
    · rintro s s' step ⟨v, plan, value, planned, other, written⟩
      exact ⟨v, plan, value, planned, other, step.store.trans written⟩
  guarded_stable _ s s' hs moved _ _ :=
    ⟨(moved rfl).locks key hs.1, (before_steady store log).stable s s' hs.2.1 moved ‹_› ‹_›,
      trivial⟩
  sees _ _ before _ _ there := before.1 ▸ there
  hits _ k w _ inv cached := inv k w cached
  misses _ _ _ _ _ := trivial
  caches s pick f p w before inv seen decoded _ rebuilt := by
    obtain ⟨v, value, holds⟩ := passes.holds seen decoded
    cases (reconstructWithLimit_iff.mp rebuilt).2.symm.trans holds
    exact ⟨Trusted.insert pick inv holds (m.valued key v value), others, before⟩
  guards _ _ _ _ _ _ _ := trivial

variable {store : Bytes → Option Bytes} {log : List WriteEvent} {limit : UInt64}

theorem obtained_value (m : Migration db source target options content values frames)
    (passes : Passes db content frames store) {source : Source} {w : Bytes}
    (read : (discipline (t := t) m passes log key limit).Read source)
    (obtained : (discipline (t := t) m passes log key limit).Obtained w source.envelope) :
    ∃ v frame, content key = some v ∧ w = v.val ∧ store key = some frame ∧
      source.hash = envelopeHash frame ∧ source.bytes = frame.length := by
  obtain ⟨frame, seen, decoded, hash, bytes⟩ := read
  obtain ⟨v, value, holds⟩ := passes.holds seen decoded
  refine ⟨v, frame, value, ?_, seen, hash, bytes⟩
  cases envelope : source.envelope with
  | raw b =>
    rw [envelope] at obtained holds
    exact Eq.trans obtained holds.symm
  | plan p =>
    rw [envelope] at obtained holds
    obtain ⟨_, hit | ⟨_, rebuilt⟩⟩ := obtained
    · exact Trusted.same m.injective hit holds (m.valued key v value)
    · exact Except.ok.inj (rebuilt.symm.trans holds)

theorem allows (m : Migration db source target options content values frames)
    (passes : Passes db content frames store) :
    (discipline (t := t) m passes log key limit).Allows options (fun source plan =>
      ¬ ((ValueEnvelope.plan plan).encode.length = source.bytes ∧
        envelopeHash (ValueEnvelope.plan plan).encode = source.hash)) := by
  intro s source w clock plan c read obtained planned due _ _ before _ inv _ _ _
  obtain ⟨v, frame, value, rfl, there, hash, bytes⟩ := obtained_value m passes read obtained
  refine ⟨inv, others, v, plan, value, Planner.planWithOptions_stopped planned, ?_, ?_⟩
  · intro same
    cases there.symm.trans same
    exact due ⟨bytes.symm, hash.symm⟩
  · rw [← before.1]
    rfl

theorem idle_migrated (m : Migration db source target options content values frames)
    (passes : Passes db content frames store) {source : Source} {w : Bytes} {clock : Nat → Nat}
    {plan : ReconstructionPlan}
    (read : (discipline (t := t) m passes log key limit).Read source)
    (obtained : (discipline (t := t) m passes log key limit).Obtained w source.envelope)
    (planned : db.planner.planWithOptions clock w options = .ok plan)
    (hash : envelopeHash (ValueEnvelope.plan plan).encode = source.hash) :
    db.Migrated options content store key := by
  obtain ⟨v, frame, value, rfl, there, hash', _⟩ := obtained_value m passes read obtained
  have planned := Planner.planWithOptions_stopped planned
  have same : (ValueEnvelope.plan plan).encode = frame :=
    m.distinct (m.framed key v plan value planned) (passes.framed key frame there)
      (hash.trans hash')
  intro v' value'
  cases value.symm.trans value'
  exact ⟨plan, planned, same ▸ there⟩

/-- The statuses that the property speaks of. -/
def Settled (status : RewriteStatus) : Prop :=
  status = .rewritten ∨ status = .skippedNotImproved

variable (db options content frames) in
def Done (keys : Set Bytes) (store : Bytes → Option Bytes) : Prop :=
  Passes db content frames store ∧ ∀ key ∈ keys, db.Migrated options content store key

theorem done_steady (keys : Set Bytes) :
    Steady (protocol values t) t (fun s => Done db options content frames keys s.store) :=
  ⟨fun _ _ h moved _ _ => (moved rfl).store.symm ▸ h, fun _ _ step h => step.store.symm ▸ h⟩

theorem Done.write (m : Migration db source target options content values frames) {keys : Set Bytes}
    (done : Done db options content frames keys store) {v : Slice} {plan : ReconstructionPlan}
    (value : content key = some v)
    (planned : db.planner.planWithOptions stopped v.val options = .ok plan) :
    Done db options content frames (insert key keys)
      (Function.update store key (some (ValueEnvelope.plan plan).encode)) := by
  refine ⟨done.1.write m value planned, fun k there v' value' => ?_⟩
  by_cases same : k = key
  · subst same
    cases value.symm.trans value'
    exact ⟨plan, planned, Function.update_self ..⟩
  · obtain ⟨plan', planned', there'⟩ := done.2 k (there.resolve_left same) v' value'
    exact ⟨plan', planned', (Function.update_of_ne same ..).trans there'⟩

theorem replanKey_done (m : Migration db source target options content values frames) (key : Bytes)
    (keys : Set Bytes) :
    Triple dbMachine (protocol values t) t
      (fun s => Done db options content frames keys s.store)
      (db.replanKey key (.ofPlanOptions options)).run (onResult
        (fun report s => Done db options content frames keys s.store ∧
          (Settled report.status → Done db options content frames (insert key keys) s.store))
        (fun _ => True)) := by
  intro s done
  have passes := done.1
  refine Safe.mono ?_ (Discipline.replanKey_reports
    (R := discipline (t := t) m passes s.log key (db.callLimit (.ofPlanOptions options))) rfl
    (allows m passes) s ⟨rfl, rfl⟩)
  intro r s' _ _ post
  cases r with
  | error e => trivial
  | ok report =>
    obtain ⟨ends, idle⟩ := post
    unfold Discipline.Ends at ends
    by_cases rewritten : report.status = .rewritten
    · rw [if_pos rewritten] at ends
      obtain ⟨v, plan, value, planned, _, written⟩ := ends
      have next := written ▸ done.write m value planned
      exact ⟨⟨next.1, fun k there => next.2 k (Or.inr there)⟩, fun _ => next⟩
    · rw [if_neg rewritten] at ends
      have same : s'.store = s.store := ends.1
      simp only [onResult, same]
      refine ⟨done, fun settled => ⟨passes, fun k there => ?_⟩⟩
      rcases there with rfl | earlier
      · obtain ⟨source, w, clock, plan, read, obtained, planned, _, hash⟩ :=
          idle (settled.resolve_left rewritten)
        exact idle_migrated m passes read obtained planned hash
      · exact done.2 k earlier

theorem rewriteAll_done (m : Migration db source target options content values frames)
    (keys : List Bytes) (sofar : Set Bytes) (report : VacuumAllReport) :
    Triple dbMachine (protocol values t) t
      (fun s => Done db options content frames sofar s.store)
      (rewriteAll (fun key => db.replanKey key (.ofPlanOptions options)) keys report).run (onResult
        (fun r s => (∀ status ∈ r.2, Settled status) →
          Done db options content frames (sofar ∪ {key | key ∈ keys}) s.store)
        (fun _ => True)) := by
  have never : Stable (protocol values t) t (fun _ : Db => True) := fun _ _ h _ _ _ => h
  induction keys generalizing sofar report with
  | nil =>
    refine Triple.pure (done_steady sofar).stable (fun s done _ _ _ => ?_)
    exact ⟨done.1, fun k there => done.2 k (there.resolve_right nofun)⟩
  | cons key keys ih =>
    refine Triple.andThen (replanKey_done m key sofar) never (fun one => ?_)
    have next : ∀ sofar' : Set Bytes, (Settled one.status → insert key sofar ⊆ sofar') →
        Triple dbMachine (protocol values t) t
          (fun s => Done db options content frames sofar' s.store)
          (rewriteAll (fun key => db.replanKey key (.ofPlanOptions options)) keys
            (report.count one) >>= fun rest => pure (rest.1, one.status :: rest.2)).run (onResult
            (fun r s => (∀ status ∈ r.2, Settled status) →
              Done db options content frames (sofar ∪ {k | k ∈ key :: keys}) s.store)
            (fun _ => True)) := by
      intro sofar' more
      refine Triple.andThen (ih sofar' (report.count one)) never (fun rest => ?_)
      refine Triple.pure (fun s s' h moved inv good settled =>
        (done_steady _).stable s s' (h settled) moved inv good) (fun s done _ _ settled => ?_)
      obtain ⟨first, others⟩ := List.forall_mem_cons.mp settled
      obtain ⟨passes, migrated⟩ := done others
      refine ⟨passes, fun k there => migrated k ?_⟩
      rcases there with earlier | there
      · exact Or.inl (more first (Or.inr earlier))
      · rcases List.mem_cons.mp there with rfl | later
        · exact Or.inl (more first (Or.inl rfl))
        · exact Or.inr later
    by_cases settled : Settled one.status
    · exact (next (insert key sofar) (fun _ => subset_rfl)).consequence
        (fun s h => h.2 settled) (fun _ _ _ _ h => h)
    · exact (next sofar (fun h => absurd h settled)).consequence (fun s h => h.1)
        (fun _ _ _ _ h => h)

theorem replanKey_idle (m : Migration db source target options content values frames)
    (passes : Passes db content frames store)
    (migrated : db.Migrated options content store key) (log : List WriteEvent) :
    Triple dbMachine (protocol values t) t (fun s => s.store = store ∧ s.log = log)
      (db.replanKey key (.ofPlanOptions options)).run (onResult
        (fun report s => report.status ≠ .rewritten ∧ s.store = store ∧ s.log = log)
        (fun s => s.store = store ∧ s.log = log)) := by
  refine (Discipline.replanKey
    (R := discipline (t := t) m passes log key (db.callLimit (.ofPlanOptions options))) rfl
    (allows m passes)).consequence (fun _ h => h) (fun r s _ _ post => ?_)
  cases r with
  | error e => exact post
  | ok report =>
    change Discipline.Ends _ report s at post
    unfold Discipline.Ends at post
    by_cases rewritten : report.status = .rewritten
    · rw [if_pos rewritten] at post
      obtain ⟨v, plan, value, planned, other, _⟩ := post
      obtain ⟨plan', planned', there⟩ := migrated v value
      cases planned.symm.trans planned'
      exact absurd there other
    · rw [if_neg rewritten] at post
      exact ⟨rewritten, post⟩

theorem rewriteAll_idle (m : Migration db source target options content values frames)
    (passes : Passes db content frames store)
    (migrated : ∀ key, db.Migrated options content store key) (log : List WriteEvent)
    (keys : List Bytes) (report : VacuumAllReport) :
    Triple dbMachine (protocol values t) t (fun s => s.store = store ∧ s.log = log)
      (rewriteAll (fun key => db.replanKey key (.ofPlanOptions options)) keys report).run (onResult
        (fun r s => (∀ status ∈ r.2, status ≠ .rewritten) ∧ s.store = store ∧ s.log = log)
        (fun s => s.store = store ∧ s.log = log)) := by
  have steady : Steady (protocol values t) t (fun s => s.store = store ∧ s.log = log) :=
    before_steady store log
  induction keys generalizing report with
  | nil => exact Triple.pure steady.stable (fun _ h _ _ => ⟨by simp, h⟩)
  | cons key keys ih =>
    refine Triple.andThen (replanKey_idle m passes (migrated key) log) steady.stable
      (fun one => Triple.of_pure (fun idle => ?_))
    refine Triple.andThen (ih (report.count one)) steady.stable
      (fun rest => Triple.of_pure (fun others => ?_))
    exact Triple.pure steady.stable
      (fun _ h _ _ => ⟨List.forall_mem_cons.mpr ⟨idle, others⟩, h⟩)

theorem served (m : Migration db source target options content values frames)
    {reader : PiLsmDb} {v : Slice} {plan : ReconstructionPlan} (value : content key = some v)
    (planned : db.planner.planWithOptions stopped v.val options = .ok plan)
    (alone : reader.reconstructor = ⟨[target]⟩) (limits : reader.decodeLimits = db.decodeLimits)
    (small : v.val.length ≤ reader.maxReconstructBytes.toNat) :
    ValueEnvelope.decode (ValueEnvelope.plan plan).encode reader.decodeLimits = .ok (.plan plan) ∧
      reader.Serves v.val (.plan plan) := by
  have made := Planner.planWithOptions_made planned
  have bound : v.val.length < 2 ^ 64 := Nat.lt_trans v.property (by decide)
  have admitted := m.admits key v value plan planned
  have rebuilt : reconstruct db.reconstructor plan = .ok v.val := m.shared ▸ made.rebuilds
  refine ⟨limits ▸ made.decodes bound admitted, made.logicalLen_le small, ?_⟩
  -- the plan names the target only, which both registries know
  rw [alone, ← rebuilt]
  refine reconstruct_congr (fun entry there => ?_)
  rw [made.streams] at there
  obtain ⟨index, indexed, rfl⟩ := List.mem_map.mp there
  change StreamRegistry.get _ index.streamId = StreamRegistry.get _ index.streamId
  rw [m.indexed index indexed, m.both, StreamRegistry.get_register]
  simp [StreamRegistry.get]

omit [Digests] in
theorem scanKeys_ok [Digests] {entries : List (Bytes × Bytes)} {keys : List Bytes}
    (h : db.scanKeys entries = .ok keys) : keys = entries.map Prod.fst := by
  induction entries generalizing keys with
  | nil =>
    cases h
    rfl
  | cons entry entries ih =>
    simp only [PiLsmDb.scanKeys, except_bind_ok, except_pure_ok] at h
    obtain ⟨_, _, rest, scanned, rfl⟩ := h
    rw [List.map_cons, ih scanned]

theorem migrateAll_loop {pre err : Db → Prop}
    {Q : VacuumAllReport × List RewriteStatus → Db → Prop} {entries : List (Bytes × Bytes)}
    (stable : Stable (protocol values t) t pre) (fails : ∀ s, pre s → err s)
    (loop : Triple dbMachine (protocol values t) t pre
      (rewriteAll (fun key => db.replanKey key (.ofPlanOptions options)) (entries.map Prod.fst)
        .default).run (onResult Q err)) :
    Triple dbMachine (protocol values t) t pre (db.migrateAll entries options).run
      (onResult Q err) := by
  unfold PiLsmDb.migrateAll
  cases scanned : db.scanKeys entries with
  | error e => exact Triple.throw stable (fun s h _ _ => fails s h)
  | ok keys =>
    cases scanKeys_ok scanned
    exact loop

end Migrate

/-- After a migration that settles every key, the keys are the same, each is read without the
source stream as before, and migrating again writes nothing. -/
theorem migration_settles {db : PiLsmDb} {source target : ByteStream} {options : PlanOptions}
    {content : Bytes → Option Slice} {values frames : Set Bytes}
    (m : Migration db source target options content values frames) {s : Db}
    (represents : db.Represents content s.store)
    (framed : ∀ key frame, s.store key = some frame → frame ∈ frames)
    (cached : ∀ k w, s.cache.get k = some w → Trusted values k w)
    {entries : List (Bytes × Bytes)}
    (scan : ∀ key frame, s.store key = some frame → (key, frame) ∈ entries)
    {t : Nat} {report : VacuumAllReport} {statuses : List RewriteStatus} {s' : Db}
    (run : Runs dbMachine (Onlookers values t) t (db.migrateAll entries options).run s
      (.ok (report, statuses)) s')
    (settled : ∀ status ∈ statuses, status = .rewritten ∨ status = .skippedNotImproved) :
    (∀ key, s'.store key = none ↔ s.store key = none) ∧
    (∀ reader : PiLsmDb, reader.reconstructor = ⟨[target]⟩ →
      reader.decodeLimits = db.decodeLimits → ∀ key v, content key = some v →
      v.val.length ≤ reader.maxReconstructBytes.toNat → ∀ s₁, s₁.store = s'.store →
      (∀ k w, s₁.cache.get k = some w → Trusted values k w) → ∀ t₁ r s₂,
      Runs dbMachine (Readers values t₁) t₁ (reader.get key).run s₁ r s₂ →
        r = .ok (some v.val)) ∧
    (∀ entries' s₁, s₁.store = s'.store →
      (∀ k w, s₁.cache.get k = some w → Trusted values k w) → ∀ t₁ r s₂,
      Runs dbMachine (Onlookers values t₁) t₁ (db.migrateAll entries' options).run s₁ r s₂ →
        s₂.store = s₁.store ∧ s₂.log = s₁.log) := by
  have start : Migrate.Done db options content frames ∅ s.store :=
    ⟨⟨represents, framed⟩, by simp⟩
  obtain ⟨_, after⟩ := Runs.safe (P := Migrate.protocol values t) (fun _ => trivial)
    (fun _ _ move inv => Migrate.keeps move inv) run
    (Migrate.migrateAll_loop (Migrate.done_steady ∅).stable (fun _ _ => trivial)
      (Migrate.rewriteAll_done m (entries.map Prod.fst) ∅ .default) s start) cached
  obtain ⟨passes, migrated⟩ := after settled
  have all : ∀ key, db.Migrated options content s'.store key := by
    intro key v value
    obtain ⟨frame, _, there, _⟩ := represents.stored value
    exact migrated key (Or.inr (List.mem_map.mpr ⟨_, scan key frame there, rfl⟩)) v value
  refine ⟨fun key => ?_, ?_, ?_⟩
  · exact (passes.represents.absent_iff key).trans (represents.absent_iff key).symm
  · intro reader alone limits key v value small s₁ store trusted t₁ r s₂ run'
    obtain ⟨plan, planned, there⟩ := all key v value
    obtain ⟨decoded, serves⟩ := Migrate.served m value planned alone limits small
    have answer := (Runs.safe (P := PutGet.protocol values t₁) (fun _ => trivial)
      (fun _ _ move inv => PutGet.keeps move inv) run'
      (PutGet.get_returns s₁.store m.injective (m.valued key v value)
        (store ▸ there) decoded serves s₁ rfl) trusted).2
    cases r with
    | error e => exact answer.elim
    | ok found => exact congrArg Except.ok answer
  · intro entries' s₁ store trusted t₁ r s₂ run'
    have idle := (Runs.safe (P := Migrate.protocol values t₁) (fun _ => trivial)
      (fun _ _ move inv => Migrate.keeps move inv) run'
      (Migrate.migrateAll_loop (Migrate.before_steady s₁.store s₁.log).stable (fun _ h => h)
        (Migrate.rewriteAll_idle m (store ▸ passes) (store ▸ all) s₁.log (entries'.map Prod.fst)
          .default) s₁ ⟨rfl, rfl⟩) trusted).2
    cases r with
    | error e => exact idle
    | ok r => exact idle.2

def sampleTarget : ByteStream :=
  PrefixByteStream.new (.piHexFractionPrefixV1 (digestOf 0) 2) [0x61, 0x62]

def sampleSource : ByteStream := PrefixByteStream.new (.sha256CounterV1 (digestOf 0)) [0x61]

def sampleMigrationDb : PiLsmDb :=
  let registry := ((StreamRegistry.mk []).register sampleSource).register sampleTarget
  PiLsmDb.ofRuntime registry (samplePlanner (digestOf 0) registry)

def sampleReader : PiLsmDb := { sampleMigrationDb with reconstructor := ⟨[sampleTarget]⟩ }

def migratedPlan : ReconstructionPlan :=
  { samplePlan with
    streams := [⟨.piHexFractionPrefixV1 (digestOf 0) 2, digestOf 0⟩]
    chunks := [.located 0 0 1 .identity] }

omit [Digests] in
theorem migratedPlan_made : letI := frameDigests
    sampleMigrationDb.planner.planWithOptions stopped [0x61] .default = .ok migratedPlan := by
  let _ := frameDigests
  decide +kernel

def sampleContent (key : Bytes) : Option Slice :=
  if key = [0x6b] then some ⟨[0x61], by decide⟩ else none

omit [Digests] in
theorem sampleContent_some {key : Bytes} {v : Slice} (h : sampleContent key = some v) :
    key = [0x6b] ∧ v.val = [0x61] := by
  unfold sampleContent at h
  split at h
  · cases h
    exact ⟨‹_›, rfl⟩
  · cases h

omit [Digests] in
theorem sampleMigration : letI := frameDigests
    Migration sampleMigrationDb sampleSource sampleTarget .default sampleContent {[0x61]}
      {sampleRawFrame, (ValueEnvelope.plan migratedPlan).encode} := by
  let _ := frameDigests
  have only : ∀ {key : Bytes} {v : Slice} {plan : ReconstructionPlan},
      sampleContent key = some v →
      sampleMigrationDb.planner.planWithOptions stopped v.val .default = .ok plan →
      plan = migratedPlan := by
    intro key v plan value planned
    rw [(sampleContent_some value).2] at planned
    exact Except.ok.inj (planned.symm.trans migratedPlan_made)
  have differs : envelopeHash sampleRawFrame ≠
      envelopeHash (ValueEnvelope.plan migratedPlan).encode := by decide
  refine ⟨⟨rfl, rfl, ?_⟩, by simp, fun key v value => (sampleContent_some value).2, ?_, ?_, ?_⟩
  · intro index there
    cases List.mem_singleton.mp there
    rfl
  · exact Set.injOn_pair.mpr (fun same => absurd same differs)
  · intro key v plan value planned
    rw [only value planned]
    exact Or.inr rfl
  · intro key v value plan planned
    rw [only value planned]
    exact ⟨by decide, by decide, by decide, by decide, by decide, by decide,
      by decide⟩

omit [Digests] in
theorem migration_settles_sample : letI := frameDigests
    ∃ report s',
      Runs dbMachine (Onlookers {[0x61]} 0) 0
        (sampleMigrationDb.migrateAll [([0x6b], sampleRawFrame)] .default).run sampleState
        (.ok (report, [.rewritten])) s' ∧
      ∀ r s₂, Runs dbMachine (Readers {[0x61]} 0) 0
        (sampleReader.get [0x6b]).run s' r s₂ → r = .ok (some [0x61]) := by
  let _ := frameDigests
  let db := sampleMigrationDb
  let o : Oracle := ⟨stopped, 0, fun _ => 0⟩
  have decoded : ValueEnvelope.decode sampleRawFrame db.decodeLimits = .ok (.raw [0x61]) := by
    decide
  have chosen : db.replanChoice stopped sampleState.cache sampleRawFrame
      (.ofPlanOptions .default) = some migratedPlan := by
    simp only [PiLsmDb.replanChoice, decoded]
    exact PiLsmDb.choice_some.mpr ⟨migratedPlan_made, by decide⟩
  have free : sampleState.locks [0x6b] = none := rfl
  obtain ⟨r, s', run, rewrote, fills⟩ := alone_replanKey db (o := o) (t := 0) free
    (.ofPlanOptions .default)
  have there : sampleState.store [0x6b] = some sampleRawFrame := rfl
  rw [there, Option.bind_some, chosen] at rewrote
  obtain ⟨_, ⟨report, rfl, rewritten⟩, store⟩ := rewrote
  have scanned : db.scanKeys [([0x6b], sampleRawFrame)] = .ok [[0x6b]] := by decide
  have whole : alone dbMachine o 0 (db.migrateAll [([0x6b], sampleRawFrame)] .default).run
      sampleState = some (.ok (VacuumAllReport.default.count report, [.rewritten]), s') := by
    unfold PiLsmDb.migrateAll
    rw [scanned, ← rewritten]
    exact alone_ok _ run
  have stored : ∀ key frame, sampleState.store key = some frame →
      key = [0x6b] ∧ frame = sampleRawFrame := fun _ _ found => only_stored found
  have represents : db.Represents sampleContent sampleState.store := by
    intro key
    by_cases same : key = [0x6b]
    · subst same
      exact ⟨_, _, rfl, decoded, rfl⟩
    · rw [sampleContent, if_neg same]
      exact Option.eq_none_iff_forall_ne_some.mpr (fun frame found => same (stored _ _ found).1)
  have uncached : ∀ k w, sampleState.cache.get k = some w → Trusted {[0x61]} k w := by
    intro k w found
    cases found
  have trusted : ∀ k w, s'.cache.get k = some w → Trusted {[0x61]} k w := by
    intro k w found
    obtain old | ⟨_, _, there', decoded', _⟩ := fills k w found
    · exact uncached k w old
    · cases there.symm.trans there'
      cases decoded.symm.trans decoded'
  have migrated : Runs dbMachine (Onlookers {[0x61]} 0) 0
      (db.migrateAll [([0x6b], sampleRawFrame)] .default).run sampleState
      (.ok (VacuumAllReport.default.count report, [.rewritten])) s' := alone_runs whole
  obtain ⟨_, reads, _⟩ := migration_settles sampleMigration represents
    (fun key frame found => Or.inl (stored key frame found).2) uncached
    (fun key frame found => by simp [stored key frame found]) migrated (by simp)
  exact ⟨_, s', migrated, fun r s₂ run' => reads sampleReader rfl rfl [0x6b] ⟨[0x61], by decide⟩ rfl
    (by decide) s' rfl trusted 0 r s₂ run'⟩

end PiLSMer
