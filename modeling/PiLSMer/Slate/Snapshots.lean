import PiLSMer.Slate.Linear
import PiLSMer.Slate.Metrics
import PiLSMer.Slate.ReadPaths

/-! Scans among any number of clients. A scan yields the rows that the engine had when it was
opened, but reads them later, through the cache that everybody shares; what it returns is the map
of the clients at its opening, whatever was put, deleted, rewritten or compacted since. -/
namespace PiLSMer
open Interleave

variable [Digests]

/-- Calls of next until there is no row left, given the rows that the engine's iterator yields. -/
def PiLsmIterator.collect (it : PiLsmIterator) : List (Bytes × Bytes) → DbOp (List PiLsmKeyValue)
  | [] => do
    let _ ← it.next none
    pure []
  | row :: rows => do
    match ← it.next (some row) with
    | none => pure []
    | some kv => do
      let rest ← it.collect rows
      pure (kv :: rest)

/-- What a thread ends with: the result of a call, or of a scan with the range it was opened on
and the state it was opened in. -/
inductive Ended where
  | client (result : Except PiLsmError Answer)
  | scanned (range : Bytes → Prop) (opened : Db) (it : PiLsmIterator)
      (result : Except PiLsmError (List PiLsmKeyValue))

def Ended.Calls (db : PiLsmDb) (values : Set Bytes) (p : Prog DbAct Ended) : Prop :=
  ∃ q, ClientCalls db values q ∧ p = q >>= fun result => .done (.client result)

def PiLsmDb.scanning (db : PiLsmDb) (options : ScanOptions) (range : Bytes → Prop) (opened : Db)
    (rows : List (Bytes × Bytes)) : Prog DbAct Ended :=
  let it := db.scanWithOptions options
  (it.collect rows).run >>= fun result => .done (.scanned range opened it result)

/-- The runs of clients and scans. A scan is opened on the rows of its range as they are then. -/
inductive ScanReach (db : PiLsmDb) (values frames : Set Bytes) (start : Db) :
    Pool DbAct Db Ended → Prop
  | start (ok : StoredIn frames start) : ScanReach db values frames start ⟨start, []⟩
  | step {p p' : Pool DbAct Db Ended} (reach : ScanReach db values frames start p)
      (step : Pool.Step dbMachine (Ended.Calls db values) (Compacts db.reconstructor) p p')
      (ok : StoredIn frames p'.state) : ScanReach db values frames start p'
  | scan {s : Db} {threads : List (Prog DbAct Ended)} {o : ScanOptions}
      {range : Bytes → Prop} {rows : List (Bytes × Bytes)}
      (reach : ScanReach db values frames start ⟨s, threads⟩)
      (reconstructs : o.reconstruct = true) (engine : EngineRows s.store range rows) :
      ScanReach db values frames start ⟨s, threads ++ [db.scanning o range s rows]⟩

/-- The frame does not decode, or its value is longer than the scan takes. -/
def PiLsmIterator.Refuses (it : PiLsmIterator) (frame : Bytes) : Prop :=
  (∃ e, ValueEnvelope.decode frame it.decodeLimits = .error e) ∨
    ∃ p, ValueEnvelope.decode frame it.decodeLimits = .ok (.plan p) ∧
      it.maxReconstructBytes < p.logicalLen

def PiLsmKeyValue.pair (kv : PiLsmKeyValue) : Bytes × Bytes := (kv.key, kv.value)

/-- A scan returns the map as it was at the opening, in its range and in key order. It fails only
at a row that its limits refuse. -/
def Ended.Snapshot : Ended → Prop
  | .client _ => True
  | .scanned range opened _ (.ok found) =>
    EngineRows opened.contents range (found.map PiLsmKeyValue.pair)
  | .scanned range opened it (.error _) =>
    ∃ key frame, range key ∧ opened.store key = some frame ∧ it.Refuses frame

namespace Snapshots

variable {registry : StreamRegistry} {frames values : Set Bytes} {t : Nat} {db : PiLsmDb}
  {options : ScanOptions}

theorem standing (fact : Prop) :
    Stable (Durable.protocol registry frames values) t (fun _ => fact) :=
  (Steady.pure fact).stable

theorem tolerant : Tolerant (Durable.protocol registry frames values) t := by
  have orderly : Orderly (Durable.protocol registry frames values) t [] := Durable.orderly
  exact orderly.toTolerant

theorem reconstruct_returns {p : ReconstructionPlan} {v : Bytes} {limit : UInt64} {failed : Prop}
    (injective : ∀ kind, values.InjOn (computeLogicalHash kind)) (valued : v ∈ values)
    (within : p.logicalLen ≤ limit) (rebuilt : reconstruct db.reconstructor p = .ok v) :
    Triple dbMachine (Durable.protocol db.reconstructor frames values) t (fun _ => True)
      (db.reconstructPlan p limit).run (onResult (fun w _ => w = v) (fun _ => failed)) := by
  unfold PiLsmDb.reconstructPlan
  rw [if_neg (UInt64.not_lt.mpr within)]
  refine Triple.andThen (Q := fun found _ => ∀ w, found = some w → w = v)
    (Triple.issued (standing True) (fun _ => standing _) ?_) (standing failed) (fun found => ?_)
  · intro s o b s' _ inv _ run _
    cases run
    obtain ⟨_, others⟩ := tolerant.counted (t := t) inv ⟨s.counters, rfl⟩
    exact ⟨inv, others, fun w there => (inv.cached _ w there).same injective rebuilt valued⟩
  · cases found with
    | some w => exact Triple.pure (standing _) (fun _ hit _ _ => hit w rfl)
    | none =>
      refine Triple.andThen ((tolerant.issued (Steady.pure _).calm (DbAct.Counts.addDuration _)))
        (standing failed) (fun _ => ?_)
      rw [reconstructWithLimit_iff.mpr ⟨within, rebuilt⟩]
      refine Triple.andThen (Q := fun _ _ => True)
        (Triple.issued (standing _) (fun _ => standing True) ?_) (standing failed) (fun _ =>
          Triple.andThen (tolerant.issued (Steady.pure _).calm (DbAct.Counts.setCacheBytes _))
            (standing failed) (fun _ => Triple.pure (standing True) (fun _ _ _ _ => rfl)))
      intro s o b s' _ inv _ run _
      cases run
      exact ⟨⟨inv.keeps, inv.valued, Trusted.insert _ inv.cached rebuilt valued⟩,
        fun _ _ _ held => ⟨held, rfl⟩, trivial⟩

theorem next_returns (injective : ∀ kind, values.InjOn (computeLogicalHash kind))
    (reconstructs : options.reconstruct = true) {key frame v : Bytes} (valued : v ∈ values)
    (holds : FrameOf db.reconstructor frame v) :
    Triple dbMachine (Durable.protocol db.reconstructor frames values) t (fun _ => True)
      ((db.scanWithOptions options).next (some (key, frame))).run
      (onResult (fun kv _ => kv = some ⟨key, v⟩)
        (fun _ => (db.scanWithOptions options).Refuses frame)) := by
  cases decoded : ValueEnvelope.decode frame db.decodeLimits with
  | error e =>
    simp only [PiLsmIterator.next, PiLsmDb.scanWithOptions, reconstructs, decoded, if_true]
    exact Triple.throw (standing True) (fun _ _ _ _ => .inl ⟨e, decoded⟩)
  | ok e =>
    have content := holds.decoded decoded
    cases e with
    | raw bytes =>
      simp only [PiLsmIterator.next, PiLsmDb.scanWithOptions, reconstructs, decoded, if_true]
      exact Triple.pure (standing True) (fun _ _ _ _ => by rw [show v = bytes from content])
    | plan p =>
      rw [next_plan key reconstructs decoded]
      by_cases within : p.logicalLen ≤ options.maxReconstructBytes.getD db.maxReconstructBytes
      · exact Triple.andThen (reconstruct_returns injective valued within content) (standing _)
          (fun w => Triple.pure (standing _) (fun _ same _ _ => by rw [show w = v from same]))
      · have refused : (db.scanWithOptions options).Refuses frame :=
          .inr ⟨p, decoded, UInt64.not_le.mp within⟩
        unfold PiLsmDb.reconstructPlan
        rw [if_pos (UInt64.not_le.mp within)]
        exact Triple.andThen (Q := fun _ _ => False)
          (Triple.throw (standing True) (fun _ _ _ _ => refused)) (standing _)
          (fun _ _ impossible => impossible.elim)

def Found (m : Bytes → Option Bytes) (row : Bytes × Bytes) (kv : PiLsmKeyValue) : Prop :=
  kv.key = row.1 ∧ m row.1 = some kv.value

theorem collect_returns (injective : ∀ kind, values.InjOn (computeLogicalHash kind))
    (reconstructs : options.reconstruct = true) {m : Bytes → Option Bytes}
    (rows : List (Bytes × Bytes)) (hold : ∀ row ∈ rows, ∃ v ∈ values, m row.1 = some v ∧
      FrameOf db.reconstructor row.2 v) :
    Triple dbMachine (Durable.protocol db.reconstructor frames values) t (fun _ => True)
      ((db.scanWithOptions options).collect rows).run
      (onResult (fun found _ => List.Forall₂ (Found m) rows found)
        (fun _ => ∃ row ∈ rows, (db.scanWithOptions options).Refuses row.2)) := by
  induction rows with
  | nil => exact Triple.pure (standing True) (fun _ _ _ _ => .nil)
  | cons row rows ih =>
    obtain ⟨v, valued, present, holds⟩ := hold row (.head _)
    let it := db.scanWithOptions options
    let Failed : Prop := ∃ other ∈ row :: rows, it.Refuses other.2
    have first : Triple dbMachine (Durable.protocol db.reconstructor frames values) t
        (fun _ => True) (it.next (some row)).run
        (onResult (fun kv _ => kv = some ⟨row.1, v⟩) (fun _ => Failed)) :=
      (next_returns injective reconstructs valued holds).outcome (fun _ _ h => h)
        (fun _ refused => ⟨row, .head _, refused⟩)
    have rest : Triple dbMachine (Durable.protocol db.reconstructor frames values) t
        (fun _ => True) (it.collect rows).run
        (onResult (fun found _ => List.Forall₂ (Found m) rows found) (fun _ => Failed)) :=
      (ih (fun other member => hold other (.tail _ member))).outcome (fun _ _ h => h)
        (fun _ failed => failed.imp (fun _ found => ⟨.tail _ found.1, found.2⟩))
    refine Triple.andThen first (standing Failed) (fun kv s same => ?_)
    subst same
    exact Triple.andThen rest (standing Failed) (fun found => Triple.pure (standing _)
      (fun _ same _ _ => .cons ⟨rfl, present⟩ same)) s trivial

omit [Digests] in
theorem found_pairs {m : Bytes → Option Bytes} {rows : List (Bytes × Bytes)}
    {found : List PiLsmKeyValue} (same : List.Forall₂ (Found m) rows found) :
    (found.map PiLsmKeyValue.pair).map Prod.fst = rows.map Prod.fst ∧
      ∀ pair ∈ found.map PiLsmKeyValue.pair, m pair.1 = some pair.2 := by
  induction same with
  | nil => exact ⟨rfl, fun _ none => (by cases none)⟩
  | @cons row kv _ _ first _ ih =>
    obtain ⟨keys, values⟩ := ih
    obtain ⟨key, present⟩ := first
    constructor
    · rw [List.map_cons, List.map_cons, List.map_cons, keys]
      exact congrArg (· :: _) key
    · intro pair member
      rcases List.mem_cons.mp member with rfl | member
      · change m kv.key = some kv.value
        rw [key]
        exact present
      · exact values pair member

omit [Digests] in
theorem rows_of_found {store m : Bytes → Option Bytes} {range : Bytes → Prop}
    {rows : List (Bytes × Bytes)} {found : List PiLsmKeyValue}
    (engine : EngineRows store range rows) (stored : ∀ key, m key ≠ none → store key ≠ none)
    (same : List.Forall₂ (Found m) rows found) :
    EngineRows m range (found.map PiLsmKeyValue.pair) := by
  obtain ⟨keys, values⟩ := found_pairs same
  constructor
  · intro key value
    constructor
    · intro member
      have keyed := List.mem_map_of_mem (f := Prod.fst) member
      rw [keys] at keyed
      obtain ⟨⟨other, frame⟩, there, rfl⟩ := List.mem_map.mp keyed
      exact ⟨((engine.stored other frame).mp there).1, values _ member⟩
    · rintro ⟨inside, present⟩
      obtain ⟨frame, there⟩ := Option.ne_none_iff_exists'.mp (stored key (by simp [present]))
      have keyed := List.mem_map_of_mem (f := Prod.fst)
        ((engine.stored key frame).mpr ⟨inside, there⟩)
      rw [← keys] at keyed
      obtain ⟨⟨other, found⟩, member, rfl⟩ := List.mem_map.mp keyed
      cases present.symm.trans (values _ member)
      exact member
  · have ordered : (rows.map Prod.fst).Pairwise (· < ·) := List.pairwise_map.mpr engine.ordered
    rw [← keys] at ordered
    exact List.pairwise_map.mp ordered

theorem stored_iff {s : Db} (inv : Durable.Inv registry values s) (key : Bytes) :
    s.store key ≠ none ↔ s.contents key ≠ none := by
  have kept := inv.keeps key
  cases last : written key s.log with
  | none =>
    rw [Db.Keeps, last] at kept
    exact iff_of_false (fun stored => stored kept) (fun present => present last)
  | some v =>
    rw [Db.Keeps, last] at kept
    obtain ⟨frame, there, _⟩ := kept
    rw [Db.contents, there, last]
    simp

theorem scanned_keys {s : Db} (inv : Durable.Inv registry values s) {range : Bytes → Prop}
    {rows : List (Bytes × Bytes)} (engine : EngineRows s.store range rows) :
    (rows.map Prod.fst).Nodup ∧
      ∀ key, key ∈ rows.map Prod.fst ↔ range key ∧ s.contents key ≠ none := by
  constructor
  · rw [List.Nodup, List.pairwise_map]
    refine engine.ordered.imp (fun {a b} before same => ?_)
    rw [same] at before
    exact List.lt_irrefl _ before
  · intro key
    rw [← stored_iff inv key, List.mem_map]
    constructor
    · rintro ⟨⟨k, frame⟩, member, rfl⟩
      obtain ⟨inside, there⟩ := (engine.stored k frame).mp member
      exact ⟨inside, by simp [there]⟩
    · rintro ⟨inside, stored⟩
      obtain ⟨frame, there⟩ := Option.ne_none_iff_exists'.mp stored
      exact ⟨(key, frame), (engine.stored key frame).mpr ⟨inside, there⟩, rfl⟩

theorem scan_safe (injective : ∀ kind, values.InjOn (computeLogicalHash kind))
    (reconstructs : options.reconstruct = true) {range : Bytes → Prop} {s : Db}
    {rows : List (Bytes × Bytes)} (engine : EngineRows s.store range rows)
    (inv : Durable.Inv db.reconstructor values s) :
    Triple dbMachine (Durable.protocol db.reconstructor frames values) t (fun _ => True)
      (db.scanning options range s rows) (fun ended _ => ended.Snapshot) := by
  have hold : ∀ row ∈ rows, ∃ v ∈ values, s.contents row.1 = some v ∧
      FrameOf db.reconstructor row.2 v := by
    rintro ⟨key, frame⟩ member
    exact inv.stored ((engine.stored key frame).mp member).2
  refine Triple.bind (collect_returns injective reconstructs rows hold) (fun result => ?_)
  cases result with
  | ok found =>
    exact Triple.done (standing _) (fun _ same _ _ =>
      rows_of_found engine (fun key => (stored_iff inv key).mpr) same)
  | error e =>
    refine Triple.done (standing _) (fun _ failed _ _ => ?_)
    obtain ⟨⟨key, frame⟩, member, refused⟩ := failed
    obtain ⟨inside, there⟩ := (engine.stored key frame).mp member
    exact ⟨key, frame, inside, there, refused⟩

def fresh : Fresh (Durable.protocol registry frames values) :=
  ⟨fun _ _ => True, fun _ _ _ _ _ => trivial⟩

theorem kept (shared : db.planner.registry = db.reconstructor)
    (injective : frames.InjOn envelopeHash)
    (values_injective : ∀ kind, values.InjOn (computeLogicalHash kind)) {cacheBytes : UInt64}
    {pool : Pool DbAct Db Ended} (reach : ScanReach db values frames (Db.empty cacheBytes) pool) :
    pool.Kept dbMachine (Durable.protocol db.reconstructor frames values) fresh
      (fun _ ended _ => ended.Snapshot) := by
  induction reach with
  | start ok =>
    exact ⟨⟨fun _ => rfl, nofun, nofun⟩, ok, fun t p none => by simp at none, fun _ _ => trivial⟩
  | step _ step ok ih =>
    refine (ih.step ?_ (fun _ _ move inv _ _ => Durable.compaction_step move inv) step ok).1
    rintro p ⟨q, call, rfl⟩ t
    exact Triple.bind (Durable.call_safe shared injective values_injective call t)
      (fun _ => Triple.done (standing True) (fun _ _ _ _ => trivial))
  | scan _ reconstructs engine ih =>
    exact ih.join (scan_safe values_injective reconstructs engine ih.inv _ trivial)

end Snapshots

/-- Every scan that has ended returned the map of the clients as it was when the scan was opened,
in its range and in key order, or it failed at a row of that map that its limits refuse. -/
theorem scans_are_snapshots (db : PiLsmDb) (shared : db.planner.registry = db.reconstructor)
    (frames values : Set Bytes) (injective : frames.InjOn envelopeHash)
    (values_injective : ∀ kind, values.InjOn (computeLogicalHash kind)) (cacheBytes : UInt64)
    {pool : Pool DbAct Db Ended} (reach : ScanReach db values frames (Db.empty cacheBytes) pool)
    {t : Nat} {ended : Ended} (there : pool.threads[t]? = some (Prog.done ended)) :
    ended.Snapshot :=
  (Snapshots.kept shared injective values_injective reach).result there

omit [Digests] in
theorem one_row {store : Bytes → Option Bytes} {key frame : Bytes}
    (only : store = Function.update (fun _ => none) key (some frame)) :
    EngineRows store (fun _ => True) [(key, frame)] := by
  refine ⟨fun other found => ?_, List.pairwise_singleton _ _⟩
  rw [List.mem_singleton, Prod.mk.injEq, only]
  constructor
  · rintro ⟨rfl, rfl⟩
    exact ⟨trivial, Function.update_self ..⟩
  · exact fun h => only_stored h.2

omit [Digests] in
theorem one_frame {s : Db} {key f g : Bytes}
    (only : s.store = Function.update (fun _ => none) key (some f)) (same : f = g) :
    StoredIn {g} s := by
  intro k frame there
  rw [only] at there
  exact (only_stored there).2.trans same

omit [Digests] in
theorem sample_put :
    letI := sampleDigests
    Ended.Calls (sampleDb .default) {[0x61]}
      ((Call.op (sampleDb .default) (.put [0x6b] [0x61] ⟨false, false⟩)).run >>=
        fun result => .done (.client result)) := by
  refine ⟨_, ⟨_, rfl, ?_⟩, rfl⟩
  rintro key value options ⟨⟩
  rfl

omit [Digests] in
theorem scans_are_snapshots_sample :
    letI := sampleDigests
    ∃ (pool : Pool DbAct Db Ended) (opened : Db) (it : PiLsmIterator),
      pool.state.store [0x6b] = none ∧
      pool.threads[1]? = some (Prog.done
        (.scanned (fun _ => True) opened it (.ok [⟨[0x6b], [0x61]⟩]))) ∧
      (Ended.scanned (fun _ => True) opened it (.ok [⟨[0x6b], [0x61]⟩])).Snapshot := by
  let _ := sampleDigests
  let db := sampleDb .default
  let o : Oracle := ⟨stopped, 0, fun _ => 0⟩
  let Run := ScanReach db {[0x61]} {sampleRawFrame} (Db.empty 0)
  have encoded : (ValueEnvelope.raw [0x61]).encode = sampleRawFrame := by decide
  have delete : Ended.Calls db {[0x61]} ((Call.op db (.delete [0x6b])).run >>=
      fun result => .done (.client result)) := by
    refine ⟨_, ⟨_, rfl, ?_⟩, rfl⟩
    rintro key value options ⟨⟩
  have locked : Run _ := ((ScanReach.start (no_frame rfl)).step (Pool.Step.spawn sample_put)
    (no_frame rfl)).step (Pool.Step.act (t := 0) (o := o) rfl rfl) (no_frame rfl)
  have wrote : Run _ := locked.step (Pool.Step.act (t := 0) (o := o) rfl rfl)
    (one_frame rfl encoded)
  have released : Run _ := wrote.step (Pool.Step.act (t := 0) (o := o) rfl rfl)
    (one_frame rfl encoded)
  have rows : EngineRows (Function.update (fun _ => none) [0x6b]
      (some (ValueEnvelope.raw [0x61]).encode)) (fun _ => True) [([0x6b], sampleRawFrame)] :=
    one_row (congrArg (fun f => Function.update (fun _ => none) [0x6b] (some f)) encoded)
  have scanned : Run _ := released.scan (o := .default) rfl rows
  have deleting : Run _ := (scanned.step (Pool.Step.spawn delete) (one_frame rfl encoded)).step
    (Pool.Step.act (t := 2) (o := o) rfl rfl) (one_frame rfl encoded)
  have gone : Function.update (Function.update (fun _ => none) ([0x6b] : Bytes)
      (some (ValueEnvelope.raw [0x61]).encode)) [0x6b] none = fun _ => none := by
    rw [Function.update_idem]
    exact Function.update_eq_self _ _
  have deleted : Run _ := deleting.step (Pool.Step.act (t := 2) (o := o) rfl rfl) (no_frame gone)
  obtain ⟨pool, opened, reached, absent, ended⟩ : ∃ pool opened, Run pool ∧
      pool.state.store [0x6b] = none ∧ pool.threads[1]? = some (Prog.done (.scanned
        (fun _ => True) opened (db.scanWithOptions .default) (.ok [⟨[0x6b], [0x61]⟩]))) :=
    ⟨_, _, deleted, congrFun gone [0x6b], rfl⟩
  exact ⟨pool, opened, _, absent, ended, scans_are_snapshots db rfl {sampleRawFrame} {[0x61]}
    (by simp) (by simp) 0 reached ended⟩

/-- The loop of metrics. -/
def PiLsmExplainIterator.observe (it : PiLsmExplainIterator) :
    List (Bytes × Bytes) → PiLsmMetrics → DbOp PiLsmMetrics
  | [], metrics => do
    let _ ← it.next none
    pure metrics
  | row :: rows, metrics => do
    match ← it.next (some row) with
    | none => pure metrics
    | some kv => it.observe rows (metrics.observe kv.explain)

/-- The metrics with the counters as they were loaded. A cache that holds bytes is one more
violation of purity. -/
def PiLsmMetrics.withCounters (m : PiLsmMetrics) (loaded : DbCounter → UInt64) : PiLsmMetrics :=
  { m with
    rawBytesConvertedTotal := loaded .rawBytesConvertedTotal
    compactionFilterErrorsTotal := loaded .compactionFilterErrorsTotal
    snapshotProtectedEntriesTotal := loaded .snapshotProtectedEntriesTotal
    vacuumMeaningAttemptsTotal := loaded .vacuumMeaningAttemptsTotal
    vacuumMeaningImprovementsTotal := loaded .vacuumMeaningImprovementsTotal
    reconstructionCacheBytes := loaded .reconstructionCacheBytes
    philosophicalPurityViolationsTotal := m.philosophicalPurityViolationsTotal +
      if 0 < loaded .reconstructionCacheBytes then 1 else 0
    representationEntropyExcusesTotal := loaded .representationEntropyExcusesTotal }

def loadCounters : List DbCounter → (DbCounter → UInt64) → DbOp (DbCounter → UInt64)
  | [], loaded => pure loaded
  | counter :: counters, loaded => do
    let value ← issue (.load counter)
    loadCounters counters (Function.update loaded counter value)

/-- The counters that observe_counters loads, in its order. -/
def observedCounters : List DbCounter :=
  [.rawBytesConvertedTotal, .plannerNanos, .reconstructionNanos, .compactionFilterErrorsTotal,
    .snapshotProtectedEntriesTotal, .vacuumMeaningAttemptsTotal, .vacuumMeaningImprovementsTotal,
    .reconstructionCacheBytes, .representationEntropyExcusesTotal]

def PiLsmMetrics.observeCounters (m : PiLsmMetrics) : DbOp PiLsmMetrics := do
  let loaded ← loadCounters observedCounters (fun _ => 0)
  pure (m.withCounters loaded)

/-- metrics, given the rows of its scan. -/
def PiLsmDb.metrics (db : PiLsmDb) (rows : List (Bytes × Bytes)) : DbOp PiLsmMetrics := do
  let metrics ← db.scanExplain.observe rows .new
  let metrics :=
    { metrics with streamPrefixBytesIndexed := db.planner.streamPrefixBytesIndexed }
  metrics.observeCounters

section Counters

omit [Digests]

theorem loadCounters_only (counters : List DbCounter) (loaded : DbCounter → UInt64) :
    (loadCounters counters loaded).run.Only (fun _ a => a.Counts) := by
  induction counters generalizing loaded with
  | nil => exact trivial
  | cons counter counters ih =>
    exact Prog.Only.andThen (Prog.Only.issue (DbAct.Counts.load counter)) (fun _ => ih _)

theorem observeCounters_only (m : PiLsmMetrics) :
    m.observeCounters.run.Only (fun _ a => a.Counts) :=
  Prog.Only.andThen (loadCounters_only _ _) (fun _ => trivial)

theorem observeCounters_yields (m : PiLsmMetrics) :
    m.observeCounters.run.Yields (fun r => ∃ loaded, r = .ok (m.withCounters loaded)) := by
  have each (counters : List DbCounter) (loaded : DbCounter → UInt64) :
      (loadCounters counters loaded >>= fun loaded => pure (m.withCounters loaded)).run.Yields
        (fun r => ∃ loaded, r = .ok (m.withCounters loaded)) := by
    induction counters generalizing loaded with
    | nil => exact ⟨loaded, rfl⟩
    | cons counter counters ih => exact fun value => ih (Function.update loaded counter value)
  exact each observedCounters (fun _ => 0)

theorem loadCounters_alone (o : Oracle) (t : Nat) (s : Db) (counters : List DbCounter)
    (loaded : DbCounter → UInt64) :
    alone dbMachine o t (loadCounters counters loaded).run s =
      some (.ok (fun counter => if counter ∈ counters then s.counters counter
        else loaded counter), s) := by
  induction counters generalizing loaded with
  | nil => rfl
  | cons counter counters ih =>
    have read : alone dbMachine o t (issue (.load counter) : DbOp UInt64).run s =
        some (.ok (s.counters counter), s) := alone_issue rfl
    rw [loadCounters, alone_ok _ read, ih]
    refine congrArg (fun f => some (Except.ok f, s)) (funext (fun other => ?_))
    by_cases same : other = counter
    · simp [same]
    · simp [same]

theorem observeCounters_alone (o : Oracle) (t : Nat) (s : Db) (m : PiLsmMetrics) :
    alone dbMachine o t m.observeCounters.run s = some (.ok (m.withCounters s.counters), s) := by
  rw [PiLsmMetrics.observeCounters, alone_ok _ (loadCounters_alone o t s _ _)]
  rfl

end Counters


/-- The metrics of a state, against what its users have written. -/
structure PiLsmMetrics.Measures (m : PiLsmMetrics) (s : Db) (rows : List (Bytes × Bytes)) :
    Prop where
  keys : (rows.map Prod.fst).Nodup ∧ ∀ key, key ∈ rows.map Prod.fst ↔ s.contents key ≠ none
  values : m.rawValuesTotal.toNat + m.plannedValuesTotal.toNat = rows.length
  logical : m.logicalBytesTotal.toNat =
    (rows.map (fun row => ((s.contents row.1).getD []).length)).sum
  physical : m.physicalValueBytesTotal.toNat = (rows.map (fun row => row.2.length)).sum

def Measured (db : PiLsmDb) (s : Db) (rows : List (Bytes × Bytes)) :
    Except PiLsmError PiLsmMetrics → Prop
  | .ok m => m.Measures s rows
  | .error e => ∃ row ∈ rows, ValueEnvelope.decode row.2 db.decodeLimits = .error e

namespace Snapshots

variable {registry : StreamRegistry} {values : Set Bytes} {db : PiLsmDb}

def Reads (row : Bytes × Bytes) (read : Row) : Prop := read.frame = row.2

variable (db) in
theorem observe_reads (rows : List (Bytes × Bytes)) (start : PiLsmMetrics) :
    (∃ read, List.Forall₂ Reads rows read ∧ (db.scanExplain.observe rows start).run =
      .done (.ok (read.foldl (fun m row => m.observe row.explain) start))) ∨
    ∃ row ∈ rows, ∃ e, ValueEnvelope.decode row.2 db.decodeLimits = .error e ∧
      (db.scanExplain.observe rows start).run = .done (.error e) := by
  induction rows generalizing start with
  | nil => exact .inl ⟨[], .nil, rfl⟩
  | cons row rows ih =>
    simp only [PiLsmExplainIterator.observe, PiLsmExplainIterator.next, PiLsmDb.scanExplain]
    cases decoded : ValueEnvelope.decode row.2 db.decodeLimits with
    | error e => exact .inr ⟨row, .head _, e, decoded, rfl⟩
    | ok envelope =>
      let first : Row := ⟨row.2, db.decodeLimits, envelope, decoded⟩
      obtain ⟨read, same, ran⟩ | ⟨other, member, e, fails, ran⟩ := ih (start.observe first.explain)
      · exact .inl ⟨first :: read, .cons rfl same, ran⟩
      · exact .inr ⟨other, .tail _ member, e, fails, ran⟩

theorem metrics_observed {rows : List (Bytes × Bytes)} {m : PiLsmMetrics}
    (returned : (db.scanExplain.observe rows .new).run = .done (.ok m)) :
    (db.metrics rows).run = { m with
      streamPrefixBytesIndexed := db.planner.streamPrefixBytesIndexed }.observeCounters.run := by
  unfold PiLsmDb.metrics
  rw [ExceptT.run_bind, returned]
  rfl

theorem metrics_failed {rows : List (Bytes × Bytes)} {e : PiLsmError}
    (returned : (db.scanExplain.observe rows .new).run = .done (.error e)) :
    (db.metrics rows).run = .done (.error e) := by
  unfold PiLsmDb.metrics
  rw [ExceptT.run_bind, returned]
  rfl

variable (registry) in
theorem read_size {row : Row} {v : Bytes} (holds : FrameOf registry row.frame v)
    (long : v.length < 2 ^ 64) : row.envelope.logicalSize = v.length := by
  have content := holds.decoded row.decodes
  cases same : row.envelope with
  | raw bytes =>
    rw [same] at content
    exact congrArg List.length (Eq.symm content)
  | plan p =>
    rw [same] at content
    have size := (reconstruct_ok_iff.mp content).2.2.1
    exact (congrArg UInt64.toNat size).symm.trans (lenU64_toNat long)

theorem share_values (row : Row) : (row.share (·.rawValuesTotal)).toNat +
    (row.share (·.plannedValuesTotal)).toNat = 1 := by
  obtain ⟨frame, limits, envelope, decodes⟩ := row
  cases envelope <;> rfl

theorem map_related {R : Bytes × Bytes → Row → Prop} {rows : List (Bytes × Bytes)}
    {read : List Row} {f : Bytes × Bytes → Nat} {g : Row → Nat} (same : List.Forall₂ R rows read)
    (agree : ∀ row ∈ rows, ∀ r, R row r → g r = f row) : read.map g = rows.map f := by
  induction same with
  | nil => rfl
  | @cons row r rows read first _ ih =>
    rw [List.map_cons, List.map_cons, agree row (.head _) r first,
      ih (fun other member => agree other (.tail _ member))]

theorem values_counted {rows : List (Bytes × Bytes)} {read : List Row}
    (same : List.Forall₂ Reads rows read) (few : rows.length < 2 ^ 64) :
    (PiLsmMetrics.ofRows read).rawValuesTotal.toNat +
      (PiLsmMetrics.ofRows read).plannedValuesTotal.toNat = rows.length := by
  have one : total (fun _ => 1) read = rows.length := by
    rw [total, List.map_const', List.sum_replicate_nat, Nat.mul_one]
    exact same.length_eq.symm
  have raw := ofRows_counts (·.rawValuesTotal) (fun _ _ => rfl) rfl (fun _ _ => rfl)
    (Totals.sum_below (fun r _ => by have := share_values r; omega) (one ▸ few))
  have planned := ofRows_counts (·.plannedValuesTotal) (fun _ _ => rfl) rfl (fun _ _ => rfl)
    (Totals.sum_below (fun r _ => by have := share_values r; omega) (one ▸ few))
  rw [raw, planned, total_add, total_congr (fun r _ => share_values r), one]

theorem logical_counted {s : Db} (inv : Durable.Inv registry values s)
    {rows : List (Bytes × Bytes)} (engine : EngineRows s.store (fun _ => True) rows)
    {read : List Row} (same : List.Forall₂ Reads rows read)
    (users : (rows.map (fun row => ((s.contents row.1).getD []).length)).sum < 2 ^ 64) :
    (PiLsmMetrics.ofRows read).logicalBytesTotal.toNat =
      (rows.map (fun row => ((s.contents row.1).getD []).length)).sum := by
  have sized : read.map (fun r => r.envelope.logicalSize) =
      rows.map (fun row => ((s.contents row.1).getD []).length) := by
    refine map_related same (fun row member r first => ?_)
    obtain ⟨v, _, last, holds⟩ := inv.stored ((engine.stored row.1 row.2).mp member).2
    have long := Totals.member_below users member
    have present : s.contents row.1 = some v := last
    rw [present] at long ⊢
    have held : FrameOf registry r.frame v := first ▸ holds
    exact read_size registry held long
  have large : total (fun r => r.envelope.logicalSize) read < 2 ^ 64 := by
    rw [total, sized]
    exact users
  have logical := ofRows_counts (·.logicalBytesTotal) (fun _ _ => rfl) rfl
    (fun r member => share_logical r (Totals.member_below large member)) large
  rw [logical, total, sized]

theorem measures {s : Db} (inv : Durable.Inv registry values s) {rows : List (Bytes × Bytes)}
    (engine : EngineRows s.store (fun _ => True) rows) {read : List Row}
    (same : List.Forall₂ Reads rows read)
    (frames : (rows.map (fun row => row.2.length)).sum < 2 ^ 64)
    (users : (rows.map (fun row => ((s.contents row.1).getD []).length)).sum < 2 ^ 64) :
    (PiLsmMetrics.ofRows read).Measures s rows := by
  have framed : read.map (fun r => r.frame.length) = rows.map (fun row => row.2.length) :=
    map_related same (fun row _ r first => congrArg List.length first)
  have small : total (fun r => r.frame.length) read < 2 ^ 64 := by
    rw [total, framed]
    exact frames
  have nonempty (r : Row) : 1 ≤ r.frame.length := by
    obtain ⟨frame, limits, envelope, decodes⟩ := r
    cases frame with
    | nil => cases decodes
    | cons byte frame => exact Nat.succ_pos _
  have few : rows.length < 2 ^ 64 := by
    have one : (read.map (fun _ => 1)).sum < 2 ^ 64 :=
      Totals.sum_below (fun r _ => nonempty r) small
    rw [List.map_const', List.sum_replicate_nat, Nat.mul_one] at one
    exact same.length_eq ▸ one
  have physical := ofRows_counts (·.physicalValueBytesTotal) (fun _ _ => rfl) rfl
    (fun r member => share_physical r (Totals.member_below small member)) small
  obtain ⟨distinct, keys⟩ := scanned_keys inv engine
  refine ⟨⟨distinct, fun key => (keys key).trans (and_iff_right trivial)⟩,
    values_counted same few, logical_counted inv engine same users, ?_⟩
  rw [physical, total, framed]

end Snapshots

/-- Whatever was put, deleted, rewritten and compacted before, and whatever happens meanwhile, the
metrics count the values that the users have written and their bytes. -/
theorem metrics_measure (db : PiLsmDb) (shared : db.planner.registry = db.reconstructor)
    (frames values : Set Bytes) (injective : frames.InjOn envelopeHash)
    (values_injective : ∀ kind, values.InjOn (computeLogicalHash kind)) (cacheBytes : UInt64)
    {pool : Pool DbAct Db Ended} (reach : ScanReach db values frames (Db.empty cacheBytes) pool)
    {rows : List (Bytes × Bytes)} (engine : EngineRows pool.state.store (fun _ => True) rows)
    (stored : (rows.map (fun row => row.2.length)).sum < 2 ^ 64)
    (users : (rows.map (fun row => ((pool.state.contents row.1).getD []).length)).sum < 2 ^ 64)
    {env : Db → Db → Prop} {t : Nat} {result : Except PiLsmError PiLsmMetrics} {s' : Db}
    (run : Runs dbMachine env t (db.metrics rows).run pool.state result s') :
    Measured db pool.state rows result := by
  have inv := (Snapshots.kept shared injective values_injective reach).inv
  obtain ⟨read, same, returned⟩ | ⟨row, member, e, fails, returned⟩ :=
    Snapshots.observe_reads db rows .new
  · rw [Snapshots.metrics_observed returned] at run
    obtain ⟨loaded, rfl⟩ := run.yields (observeCounters_yields _)
    have measures := Snapshots.measures inv engine same stored users
    exact ⟨measures.keys, measures.values, measures.logical, measures.physical⟩
  · rw [Snapshots.metrics_failed returned] at run
    rw [run.ended]
    exact ⟨row, member, fails⟩

omit [Digests] in
theorem metrics_measure_sample :
    letI := sampleDigests
    ∃ (s : Db) (m : PiLsmMetrics), s.contents [0x6b] = some [0x61] ∧
      m.Measures s [([0x6b], sampleRawFrame)] := by
  let _ := sampleDigests
  let db := sampleDb .default
  let o : Oracle := ⟨stopped, 0, fun _ => 0⟩
  let Run := ScanReach db {[0x61]} {sampleRawFrame} (Db.empty 0)
  have encoded : (ValueEnvelope.raw [0x61]).encode = sampleRawFrame := by decide
  have locked : Run _ := ((ScanReach.start (no_frame rfl)).step (Pool.Step.spawn sample_put)
    (no_frame rfl)).step (Pool.Step.act (t := 0) (o := o) rfl rfl) (no_frame rfl)
  obtain ⟨pool, reached, only, present⟩ : ∃ pool, Run pool ∧
      pool.state.store = Function.update (fun _ => none) [0x6b]
        (some (ValueEnvelope.raw [0x61]).encode) ∧ pool.state.contents [0x6b] = some [0x61] :=
    ⟨_, locked.step (Pool.Step.act (t := 0) (o := o) rfl rfl) (one_frame rfl encoded), rfl,
      by decide⟩
  have engine : EngineRows pool.state.store (fun _ => True) [([0x6b], sampleRawFrame)] :=
    one_row (only.trans (congrArg (fun f => Function.update (fun _ => none) [0x6b] (some f))
      encoded))
  obtain ⟨m, run⟩ : ∃ m, Runs dbMachine (fun _ _ => True) 0
      (db.metrics [([0x6b], sampleRawFrame)]).run pool.state (.ok m) pool.state := by
    rw [Snapshots.metrics_observed rfl]
    exact ⟨_, alone_runs (observeCounters_alone o 0 _ _)⟩
  exact ⟨pool.state, m, present, metrics_measure db rfl {sampleRawFrame} {[0x61]} (by simp)
    (by simp) 0 reached engine (by decide) (by simp [present]) run⟩

end PiLSMer
