import PiLSMer.Lib.Memo
import PiLSMer.Core.Bounded
import PiLSMer.Slate.Solo

/-! Reads through the reconstruction cache, compared with reads without one. Gets, scans and
vacuums share the cache, and it knows a plan by its logical hash only: a plan that describes
nothing is answered with the bytes of an earlier plan of the same hash. -/
namespace PiLSMer
open Interleave Memoize

structure ScanOptions where
  reconstruct : Bool
  maxReconstructBytes : Option UInt64
  deriving DecidableEq, Repr

structure PiLsmKeyValue where
  key : Bytes
  value : Bytes
  deriving DecidableEq, Repr

/-- The fixed parts of an iterator. The cache and the counters are those of the handle. -/
structure PiLsmIterator where
  reconstructor : StreamRegistry
  decodeLimits : DecodeLimits
  reconstruct : Bool
  maxReconstructBytes : UInt64

def PiLsmDb.scanWithOptions (db : PiLsmDb) (options : ScanOptions) : PiLsmIterator where
  reconstructor := db.reconstructor
  decodeLimits := db.decodeLimits
  reconstruct := options.reconstruct
  maxReconstructBytes := options.maxReconstructBytes.getD db.maxReconstructBytes

variable [Digests]

/-- One step of a scan over the entry that the engine's iterator yields next. -/
def PiLsmIterator.next (it : PiLsmIterator) (entry : Option (Bytes × Bytes)) :
    DbOp (Option PiLsmKeyValue) :=
  match entry with
  | none => pure none
  | some (key, encoded) =>
    if it.reconstruct then
      match ValueEnvelope.decode encoded it.decodeLimits with
      | .error e => throw e
      | .ok (.raw bytes) => pure (some ⟨key, bytes⟩)
      | .ok (.plan plan) =>
        if it.maxReconstructBytes < plan.logicalLen then
          throw (.decodeLimitExceeded "max_reconstruct_bytes")
        else do
          match ← issue (.cacheGet (reconstructionCacheKey plan)) with
          | some value => pure (some ⟨key, value⟩)
          | none =>
            issue (.addDuration .reconstructionNanos)
            match reconstructWithLimit it.reconstructor plan it.maxReconstructBytes with
            | .error e => throw e
            | .ok value =>
              let bytes ← issue (.cacheInsert (reconstructionCacheKey plan) value)
              issue (.setCacheBytes bytes)
              pure (some ⟨key, value⟩)
    else pure (some ⟨key, encoded⟩)

inductive PlanRead where
  | get (key : Bytes)
  | next (options : ScanOptions) (entry : Option (Bytes × Bytes))
  | vacuum (plan : ReconstructionPlan) (options : VacuumOptions)

def PlanRead.op (db : PiLsmDb) : PlanRead → DbOp (Option Bytes)
  | .get key => db.get key
  | .next options entry => do
    let found ← (db.scanWithOptions options).next entry
    pure (found.map PiLsmKeyValue.value)
  | .vacuum plan options => do
    let bytes ← db.reconstructPlan plan (db.callLimit options)
    pure (some bytes)

inductive Found where
  | missing
  | bytes (b : Bytes)
  | plan (p : ReconstructionPlan) (limit : UInt64)

def Found.ofEnvelope (limit : UInt64) : Option ValueEnvelope → Found
  | none => .missing
  | some (.raw b) => .bytes b
  | some (.plan p) => .plan p limit

def PlanRead.found (db : PiLsmDb) (s : Db) : PlanRead → Except PiLsmError Found
  | .get key => (db.envelopeAt s key).map (Found.ofEnvelope db.maxReconstructBytes)
  | .next _ none => .ok .missing
  | .next options (some (_, encoded)) =>
    let it := db.scanWithOptions options
    if it.reconstruct then
      (ValueEnvelope.decode encoded it.decodeLimits).map
        (fun e => Found.ofEnvelope it.maxReconstructBytes (some e))
    else .ok (.bytes encoded)
  | .vacuum plan options => .ok (.plan plan (db.callLimit options))

def Found.answer (read : ReconstructionPlan → UInt64 → Except PiLsmError Bytes) :
    Found → Except PiLsmError (Option Bytes)
  | .missing => .ok none
  | .bytes b => .ok (some b)
  | .plan p limit => (read p limit).map some

omit [Digests] in
theorem Found.answer_eq_iff {found : Except PiLsmError Found}
    {read read' : ReconstructionPlan → UInt64 → Except PiLsmError Bytes} :
    (found >>= Found.answer read) = (found >>= Found.answer read') ↔
      ∀ p limit, found = .ok (.plan p limit) → read p limit = read' p limit := by
  constructor
  · rintro same p limit rfl
    change (read p limit).map some = (read' p limit).map some at same
    cases left : read p limit <;> cases right : read' p limit <;>
      simp_all [Except.map]
  · intro same
    match found with
    | .error e => rfl
    | .ok .missing => rfl
    | .ok (.bytes b) => rfl
    | .ok (.plan p limit) => exact congrArg (Except.map some) (same p limit rfl)

def PlanRead.direct (db : PiLsmDb) (s : Db) (call : PlanRead) : Except PiLsmError (Option Bytes) :=
  call.found db s >>= Found.answer (reconstructWithLimit db.reconstructor)

def Found.refill (db : PiLsmDb) (pick : Victim) (cache : ReconstructionCacheState) :
    Except PiLsmError Found → ReconstructionCacheState
  | .ok (.plan p limit) => db.refill pick cache p limit
  | _ => cache

/-- The plan describes some bytes that memory can hold: its chunks can be read, and they have
its length and hash. -/
def ReconstructionPlan.Intact (registry : StreamRegistry) (plan : ReconstructionPlan) : Prop :=
  plan.logicalLen.toNat < 2 ^ 63 ∧
  ∃ slices, List.Forall₂ (ChunkRef.Slice registry plan.streams) plan.chunks slices ∧
    lenU64 slices.flatten.length = plan.logicalLen ∧
    computeLogicalHash plan.logicalHash.kind slices.flatten = plan.logicalHash.bytes

theorem ReconstructionPlan.intact_iff {registry : StreamRegistry} {plan : ReconstructionPlan} :
    plan.Intact registry ↔ ∃ v, reconstruct registry plan = .ok v := by
  simp only [ReconstructionPlan.Intact, reconstruct_ok_iff, reconstructFrom_slices, List.nil_append]
  constructor
  · rintro ⟨room, slices, each, length, hash⟩
    exact ⟨_, room, ⟨slices, each, rfl⟩, length, hash⟩
  · rintro ⟨_, room, ⟨slices, each, rfl⟩, length, hash⟩
    exact ⟨room, slices, each, length, hash⟩

section Alone

variable {db : PiLsmDb} {o : Oracle} {t : Nat} {s : Db}

theorem next_plan {options : ScanOptions} (key : Bytes) {encoded : Bytes}
    {p : ReconstructionPlan} (reconstructs : options.reconstruct = true)
    (decoded : ValueEnvelope.decode encoded db.decodeLimits = .ok (.plan p)) :
    (db.scanWithOptions options).next (some (key, encoded)) =
      (db.reconstructPlan p (options.maxReconstructBytes.getD db.maxReconstructBytes) >>=
        fun w => pure (some ⟨key, w⟩)) := by
  unfold PiLsmIterator.next PiLsmDb.reconstructPlan PiLsmDb.scanWithOptions
  simp only [reconstructs, decoded, if_true]
  split
  · rfl
  refine congrArg (Prog.act (DbAct.cacheGet (reconstructionCacheKey p))) (funext fun found => ?_)
  cases found with
  | some value => rfl
  | none =>
    refine congrArg (Prog.act (DbAct.addDuration .reconstructionNanos)) (funext fun _ => ?_)
    cases reconstructWithLimit db.reconstructor p _ with
    | error e => rfl
    | ok value => rfl

theorem PlanRead.next_op {options : ScanOptions} {key encoded : Bytes} {p : ReconstructionPlan}
    (reconstructs : options.reconstruct = true)
    (decoded : ValueEnvelope.decode encoded db.decodeLimits = .ok (.plan p)) :
    (PlanRead.next options (some (key, encoded))).op db =
      (db.reconstructPlan p (options.maxReconstructBytes.getD db.maxReconstructBytes) >>=
        fun w => pure (some w)) := by
  simp only [PlanRead.op, next_plan key reconstructs decoded, bind_assoc, pure_bind,
    Option.map_some]

variable (db) in
theorem alone_plan {α : Type} (f : Bytes → α) (p : ReconstructionPlan) (limit : UInt64) :
    ∃ counters, alone dbMachine o t
      (db.reconstructPlan p limit >>= fun w => (pure (f w) : DbOp α)).run s =
    some ((db.recover s.cache p limit).map f,
      { s with counters, cache := db.refill o.pick s.cache p limit }) := by
  obtain ⟨counters, rebuilt⟩ := alone_reconstructPlan db (o := o) (t := t) (s := s) p limit
  refine ⟨counters, ?_⟩
  cases recovered : db.recover s.cache p limit with
  | error e =>
    rw [recovered] at rebuilt
    exact alone_error _ rebuilt
  | ok w =>
    rw [recovered] at rebuilt
    exact alone_ok _ rebuilt

variable (db) in
theorem alone_read (call : PlanRead) : ∃ counters, alone dbMachine o t (call.op db).run s =
    some (call.found db s >>= Found.answer (db.recover s.cache),
      { s with counters, cache := Found.refill db o.pick s.cache (call.found db s) }) := by
  cases call with
  | get key =>
    have envelope := alone_getEnvelope db key (o := o) (t := t) (s := s)
    simp only [PlanRead.op, PlanRead.found, PiLsmDb.get]
    cases found : db.envelopeAt s key with
    | error e =>
      rw [found] at envelope
      exact ⟨s.counters, alone_error _ envelope⟩
    | ok e =>
      rw [found] at envelope
      rw [alone_ok _ envelope]
      match e with
      | none => exact ⟨s.counters, rfl⟩
      | some (.raw b) => exact ⟨s.counters, rfl⟩
      | some (.plan p) => exact alone_plan db some p db.maxReconstructBytes
  | next options entry =>
    match entry with
    | none => exact ⟨s.counters, rfl⟩
    | some (key, encoded) =>
      by_cases reconstructs : options.reconstruct = true
      · cases decoded : ValueEnvelope.decode encoded db.decodeLimits with
        | error e =>
          refine ⟨s.counters, ?_⟩
          simp only [PlanRead.op, PlanRead.found, PiLsmIterator.next, PiLsmDb.scanWithOptions,
            reconstructs, decoded, if_true]
          rfl
        | ok e =>
          cases e with
          | raw b =>
            refine ⟨s.counters, ?_⟩
            simp only [PlanRead.op, PlanRead.found, PiLsmIterator.next, PiLsmDb.scanWithOptions,
              reconstructs, decoded, if_true]
            rfl
          | plan p =>
            rw [PlanRead.next_op reconstructs decoded]
            simp only [PlanRead.found, PiLsmDb.scanWithOptions, reconstructs, decoded, if_true]
            exact alone_plan db some p _
      · refine ⟨s.counters, ?_⟩
        simp only [PlanRead.op, PlanRead.found, PiLsmIterator.next, PiLsmDb.scanWithOptions,
          reconstructs]
        rfl
  | vacuum p options => exact alone_plan db some p (db.callLimit options)

end Alone

structure ReadEvent where
  call : PlanRead
  state : Db
  result : Except PiLsmError (Option Bytes)

/-- The reads since the cache was created with this capacity. What else happens between two
reads leaves the cache alone. -/
inductive ReadRun (db : PiLsmDb) (capacity : UInt64) : List ReadEvent → Db → Prop where
  | start {s : Db} (empty : s.cache = .new capacity) : ReadRun db capacity [] s
  | read {events : List ReadEvent} {s s' : Db} {o : Oracle} {t : Nat} {call : PlanRead}
      {result : Except PiLsmError (Option Bytes)} (run : ReadRun db capacity events s)
      (step : alone dbMachine o t (call.op db).run s = some (result, s')) :
      ReadRun db capacity (events ++ [⟨call, s, result⟩]) s'
  | other {events : List ReadEvent} {s s' : Db} (run : ReadRun db capacity events s)
      (same : s'.cache = s.cache) : ReadRun db capacity events s'

def ReadEvent.plan (db : PiLsmDb) (event : ReadEvent) : Option ReconstructionPlan :=
  match event.call.found db event.state with
  | .ok (.plan p _) => some p
  | _ => none

def ReadEvent.values (db : PiLsmDb) (events : List ReadEvent) : Set Bytes :=
  {v | ∃ event ∈ events, ∃ p, event.plan db = some p ∧ reconstruct db.reconstructor p = .ok v}

theorem ReadEvent.values_subset {db : PiLsmDb} {events : List ReadEvent} {v : Bytes}
    (h : ∀ event ∈ events, ∀ p, event.plan db = some p →
      ∀ w, reconstruct db.reconstructor p = .ok w → w = v) : ReadEvent.values db events ⊆ {v} := by
  rintro w ⟨event, there, p, found, rebuilt⟩
  exact h event there p found w rebuilt

/-- The cache as a memo of the reconstructor. -/
def PiLsmDb.memo (db : PiLsmDb) : Memo ReconstructionPlan ReconstructionCacheKey Bytes PiLsmError :=
  ⟨reconstructionCacheKey, reconstruct db.reconstructor⟩

section Runs

variable {db : PiLsmDb} {capacity : UInt64} {events : List ReadEvent} {s : Db}

theorem ReadRun.extend (run : ReadRun db capacity events s) (pick : Victim) {call : PlanRead}
    {p : ReconstructionPlan} {limit : UInt64} (found : call.found db s = .ok (.plan p limit)) :
    ∃ s', s'.store = s.store ∧ s'.cache = db.refill pick s.cache p limit ∧
      ReadRun db capacity (events ++ [⟨call, s, (db.recover s.cache p limit).map some⟩]) s' := by
  obtain ⟨counters, step⟩ := alone_read db (o := ⟨fun _ => 0, 0, pick⟩) (t := 0) (s := s) call
  rw [found] at step
  exact ⟨{ s with counters, cache := db.refill pick s.cache p limit }, rfl, rfl, run.read step⟩

theorem ReadRun.reach (run : ReadRun db capacity events s) :
    db.memo.Reach (events.filterMap (ReadEvent.plan db)) s.cache.get := by
  induction run with
  | start empty =>
    rw [empty]
    exact .empty
  | @read events s s' o t call result _ step ih =>
    obtain ⟨counters, step'⟩ := alone_read db (o := o) (t := t) (s := s) call
    cases step.symm.trans step'
    rw [List.filterMap_append]
    cases found : call.found db s with
    | error e => simpa [ReadEvent.plan, Found.refill, found] using ih
    | ok f =>
      cases f with
      | plan p limit =>
        simp only [List.filterMap_cons, List.filterMap_nil, ReadEvent.plan, found]
        exact ih.step (fun k w cached => PiLsmDb.refill_get cached)
      | _ => simpa [ReadEvent.plan, Found.refill, found] using ih
  | other _ same ih =>
    rw [same]
    exact ih

theorem ReadRun.event (run : ReadRun db capacity events s) {event : ReadEvent}
    (there : event ∈ events) : ∃ before, before ⊆ events ∧
      ReadRun db capacity before event.state ∧ event.result =
        (event.call.found db event.state >>= Found.answer (db.recover event.state.cache)) := by
  induction run with
  | start => cases there
  | @read events s s' o t call result run step ih =>
    rcases List.mem_append.mp there with earlier | last
    · obtain ⟨before, sub, rest⟩ := ih earlier
      exact ⟨before, List.Subset.trans sub (List.subset_append_left ..), rest⟩
    · cases List.mem_singleton.mp last
      obtain ⟨counters, step'⟩ := alone_read db (o := o) (t := t) (s := s) call
      cases step.symm.trans step'
      exact ⟨events, List.subset_append_left .., run, rfl⟩
  | other _ _ ih => exact ih there

theorem PiLsmDb.memo_decisive
    (injective : ∀ kind, (ReadEvent.values db events).InjOn (computeLogicalHash kind)) :
    db.memo.Decisive (events.filterMap (ReadEvent.plan db)) := by
  intro q asked p asked' same v w first second
  obtain ⟨event, there, found⟩ := List.mem_filterMap.mp asked
  obtain ⟨event', there', found'⟩ := List.mem_filterMap.mp asked'
  obtain ⟨tags, hashes⟩ := ReconstructionCacheKey.mk.inj same
  have kinds := logicalHashKindTag_inj tags
  refine injective q.logicalHash.kind ⟨event, there, q, found, first⟩
    ⟨event', there', p, found', second⟩ ?_
  rw [(reconstruct_ok_iff.mp first).2.2.2, hashes, kinds, (reconstruct_ok_iff.mp second).2.2.2]

theorem PiLsmDb.recover_eq {cache : ReconstructionCacheState} {p : ReconstructionPlan}
    {limit : UInt64} (within : p.logicalLen ≤ limit) :
    db.recover cache p limit = db.memo.call cache.get p := by
  unfold PiLsmDb.recover
  rw [if_neg (UInt64.not_lt.mpr within), reconstructWithLimit_within within]
  simp only [Memo.call, PiLsmDb.memo]
  cases cache.get (reconstructionCacheKey p) with
  | none => rfl
  | some w => rfl

theorem ReadRun.recover_eq_iff {before : List ReadEvent} {p : ReconstructionPlan}
    {limit : UInt64} (run : ReadRun db capacity before s) (sub : before ⊆ events)
    (injective : ∀ kind, (ReadEvent.values db events).InjOn (computeLogicalHash kind))
    (this : p ∈ events.filterMap (ReadEvent.plan db)) :
    db.recover s.cache p limit = reconstructWithLimit db.reconstructor p limit ↔
      (p.logicalLen ≤ limit → (s.cache.get (reconstructionCacheKey p)).isSome →
        p.Intact db.reconstructor) := by
  by_cases within : p.logicalLen ≤ limit
  · have memo :=
      run.reach.call_eq_iff (db.memo_decisive injective) (List.filterMap_subset _ sub) this
    rw [PiLsmDb.recover_eq within, reconstructWithLimit_within within,
      ReconstructionPlan.intact_iff]
    exact memo.trans ⟨fun h _ => h, fun h => h within⟩
  · have large : limit < p.logicalLen := UInt64.not_le.mp within
    rw [PiLsmDb.recover, if_pos large, reconstructWithLimit_over large]
    exact iff_of_true rfl (fun h => absurd h within)

end Runs

/-- A read through the cache is a read without it, exactly when the plan read is intact or its
hash is not in the cache. -/
theorem cached_read_direct_iff (db : PiLsmDb) (capacity : UInt64) {events : List ReadEvent}
    {s : Db} (run : ReadRun db capacity events s)
    (injective : ∀ kind, (ReadEvent.values db events).InjOn (computeLogicalHash kind)) :
    ∀ event ∈ events, event.result = event.call.direct db event.state ↔
      ∀ p limit, event.call.found db event.state = .ok (.plan p limit) → p.logicalLen ≤ limit →
        (event.state.cache.get (reconstructionCacheKey p)).isSome →
        p.Intact db.reconstructor := by
  intro event there
  obtain ⟨before, sub, run', result⟩ := run.event there
  rw [result, PlanRead.direct, Found.answer_eq_iff]
  refine forall_congr' (fun p => forall_congr' (fun limit => imp_congr_right (fun found => ?_)))
  have this : p ∈ events.filterMap (ReadEvent.plan db) :=
    List.mem_filterMap.mpr ⟨event, there, by simp only [ReadEvent.plan, found]⟩
  exact run'.recover_eq_iff sub injective this

def forgedPlan : ReconstructionPlan := { samplePlan with chunks := [.literal [0x62]] }

def forgedState : Db :=
  { Db.empty 16 with
    store := Function.update (Function.update (fun _ => none) [0x6b] (some samplePlanFrame))
      [0x6a] (some (ValueEnvelope.plan forgedPlan).encode) }

section Samples

omit [Digests] in
theorem found_sample : letI := sampleDigests
    ∀ s, s.store = forgedState.store → (PlanRead.get [0x6b]).found (sampleDb .default) s =
      .ok (.plan samplePlan (64 * 1024 * 1024)) := by
  let _ := sampleDigests
  intro s same
  have there : s.store [0x6b] = some samplePlanFrame := by
    rw [same]
    rfl
  have decoded : ValueEnvelope.decode samplePlanFrame (sampleDb .default).decodeLimits =
      .ok (.plan samplePlan) := by decide
  simp only [PlanRead.found, PiLsmDb.envelopeAt, there, decoded]
  rfl

omit [Digests] in
theorem found_forged : letI := sampleDigests
    ∀ s, s.store = forgedState.store → (PlanRead.get [0x6a]).found (sampleDb .default) s =
      .ok (.plan forgedPlan (64 * 1024 * 1024)) := by
  let _ := sampleDigests
  intro s same
  have there : s.store [0x6a] = some (ValueEnvelope.plan forgedPlan).encode := by
    rw [same]
    rfl
  have decoded : ValueEnvelope.decode (ValueEnvelope.plan forgedPlan).encode
      (sampleDb .default).decodeLimits = .ok (.plan forgedPlan) := by decide
  simp only [PlanRead.found, PiLsmDb.envelopeAt, there, decoded]
  rfl

omit [Digests] in
theorem read_warmed (call : PlanRead) (p : ReconstructionPlan) (limit : UInt64) :
    letI := sampleDigests
    (∀ s, s.store = forgedState.store → call.found (sampleDb .default) s = .ok (.plan p limit)) →
    (∀ w, reconstruct (sampleDb .default).reconstructor p = .ok w → w = [0x61]) →
    ∃ events s₁ s₂, ReadRun (sampleDb .default) 16 events s₂ ∧
      (∀ kind, (ReadEvent.values (sampleDb .default) events).InjOn (computeLogicalHash kind)) ∧
      s₁.store = forgedState.store ∧
      s₁.cache = ⟨16, 1, [(reconstructionCacheKey samplePlan, [0x61])]⟩ ∧
      ⟨call, s₁, ((sampleDb .default).recover s₁.cache p limit).map some⟩ ∈ events := by
  let _ := sampleDigests
  let db := sampleDb .default
  intro found content
  have rebuilt : reconstruct db.reconstructor samplePlan = .ok [0x61] := by decide
  have start : ReadRun db 16 [] forgedState := .start rfl
  obtain ⟨s₁, store, cache, first⟩ := start.extend (fun _ => 0) (found_sample forgedState rfl)
  obtain ⟨s₂, _, _, second⟩ := first.extend (fun _ => 0) (found s₁ store)
  refine ⟨_, s₁, s₂, second, fun kind => ?_, store, ?_,
    List.mem_append_right _ (List.mem_singleton_self _)⟩
  · refine (Set.injOn_singleton _ [0x61]).mono (ReadEvent.values_subset ?_)
    intro event there q asked w described
    simp only [List.nil_append, List.cons_append, List.mem_cons, List.not_mem_nil, or_false]
      at there
    rcases there with rfl | rfl
    · simp only [ReadEvent.plan, found_sample forgedState rfl] at asked
      cases asked
      exact Except.ok.inj (described.symm.trans rebuilt)
    · simp only [ReadEvent.plan, found s₁ store] at asked
      cases asked
      exact content w described
  · have whole : reconstructWithLimit db.reconstructor samplePlan (64 * 1024 * 1024) =
        .ok [0x61] := by decide
    rw [cache]
    unfold PiLsmDb.refill
    rw [whole]
    rfl

end Samples

omit [Digests] in
/-- After a get of "a", a plan of "b" under the hash of "a" reads as "a". -/
theorem forged_plan_read :
    ¬ ∀ [Digests] (db : PiLsmDb) (capacity : UInt64) (events : List ReadEvent) (s : Db),
      ReadRun db capacity events s →
      (∀ kind, (ReadEvent.values db events).InjOn (computeLogicalHash kind)) →
      ∀ event ∈ events, event.result = event.call.direct db event.state := by
  intro claim
  let _ := sampleDigests
  let db := sampleDb .default
  have broken : ∀ w, reconstruct db.reconstructor forgedPlan = .ok w → w = [0x61] := by
    have fails : reconstruct db.reconstructor forgedPlan = .error .logicalHashMismatch := by decide
    intro w rebuilt
    cases fails.symm.trans rebuilt
  obtain ⟨events, s₁, s₂, run, injective, store, cache, there⟩ := read_warmed (.get [0x6a])
    forgedPlan _ found_forged broken
  have answer := claim db 16 events s₂ run injective _ there
  rw [PlanRead.direct, found_forged s₁ store, cache] at answer
  have differs : (db.recover ⟨16, 1, [(reconstructionCacheKey samplePlan, [0x61])]⟩ forgedPlan
      (64 * 1024 * 1024)).map some ≠ (reconstructWithLimit db.reconstructor forgedPlan
      (64 * 1024 * 1024)).map some := by decide
  exact differs answer

omit [Digests] in
theorem cached_read_sample : letI := sampleDigests
    ∃ events s₁ s₂, ReadRun (sampleDb .default) 16 events s₂ ∧
      (s₁.cache.get (reconstructionCacheKey samplePlan)).isSome ∧
      ⟨.get [0x6b], s₁, (PlanRead.get [0x6b]).direct (sampleDb .default) s₁⟩ ∈ events := by
  let _ := sampleDigests
  let db := sampleDb .default
  have rebuilt : reconstruct db.reconstructor samplePlan = .ok [0x61] := by decide
  obtain ⟨events, s₁, s₂, run, injective, store, cache, there⟩ := read_warmed (.get [0x6b])
    samplePlan _ found_sample (fun w h => Except.ok.inj (h.symm.trans rebuilt))
  have intact : samplePlan.Intact db.reconstructor :=
    ReconstructionPlan.intact_iff.mpr ⟨_, rebuilt⟩
  have direct := (cached_read_direct_iff db 16 run injective _ there).mpr
    (fun p limit found _ _ => by
      cases (found_sample s₁ store).symm.trans found
      exact intact)
  refine ⟨events, s₁, s₂, run, by rw [cache]; decide, ?_⟩
  exact direct ▸ there

end PiLSMer
