import Mathlib.Logic.Function.Basic
import PiLSMer.Lib.Interleave
import PiLSMer.Core.Planner
import PiLSMer.Slate.Cache

/-! The operations of PiLsmDb in lib.rs as programs over atomic actions: a key lock, one call
of the storage engine, one access to the cache or to a counter. The engine is a map from keys
to frames whose calls succeed, flush included, on the keys that it takes. Planning and decoding
happen between the actions. -/
namespace PiLSMer
open Interleave

inductive DbCounter where
  | rawBytesConvertedTotal
  | plannerNanos
  | reconstructionNanos
  | vacuumMeaningAttemptsTotal
  | vacuumMeaningImprovementsTotal
  | compactionFilterErrorsTotal
  | snapshotProtectedEntriesTotal
  | reconstructionCacheBytes
  | representationEntropyExcusesTotal
  deriving DecidableEq, Repr

/-- Why a write happened: a user's put of these bytes, a delete, or a rewrite. -/
inductive Origin where
  | put (value : Bytes)
  | delete
  | rewrite
  deriving DecidableEq, Repr

structure WriteEvent where
  thread : Nat
  key : Bytes
  origin : Origin
  deriving DecidableEq, Repr

/-- The shared state. The log of writes, newest first, is read by no operation. -/
structure Db where
  store : Bytes → Option Bytes
  locks : Bytes → Option Nat
  cache : ReconstructionCacheState
  counters : DbCounter → UInt64
  log : List WriteEvent

inductive DbAct : Type → Type where
  | lock (key : Bytes) : DbAct Unit
  | unlock (key : Bytes) : DbAct Unit
  | get (key : Bytes) : DbAct (Option Bytes)
  | put (key frame : Bytes) (origin : Origin) : DbAct Unit
  | delete (key : Bytes) : DbAct Unit
  | flush : DbAct Unit
  | clock : DbAct (Nat → Nat)
  | cacheGet (key : ReconstructionCacheKey) : DbAct (Option Bytes)
  | cacheInsert (key : ReconstructionCacheKey) (value : Bytes) : DbAct UInt64
  | add (counter : DbCounter) (value : UInt64) : DbAct Unit
  | addDuration (counter : DbCounter) : DbAct Unit
  | setCacheBytes (bytes : UInt64) : DbAct Unit
  | load (counter : DbCounter) : DbAct UInt64

/-- What an action cannot know: clock readings, a duration, the entry to evict. -/
structure Oracle where
  clock : Nat → Nat
  elapsed : UInt64
  pick : Victim

def Db.count (s : Db) (counter : DbCounter) (value : UInt64) : Db :=
  let total := saturatingAdd (s.counters counter) value
  { s with counters := Function.update s.counters counter total }

def Db.write (s : Db) (thread : Nat) (key : Bytes) (frame : Option Bytes) (origin : Origin) : Db :=
  { s with
    store := Function.update s.store key frame
    log := ⟨thread, key, origin⟩ :: s.log }

/-- from_db over an empty store. -/
def Db.empty (reconstructionCacheBytes : UInt64) : Db where
  store _ := none
  locks _ := none
  cache := .new reconstructionCacheBytes
  counters _ := 0
  log := []

/-- What an action does where no call of the engine fails. That put and delete do it for keys of
1 to 65535 bytes only is left to those who ask. -/
def DbAct.exec {β : Type} (o : Oracle) (t : Nat) : DbAct β → Db → Option (β × Db)
  | .lock key, s =>
    if s.locks key = none then some ((), { s with locks := Function.update s.locks key (some t) })
    else none
  | .unlock key, s => some ((), { s with locks := Function.update s.locks key none })
  | .get key, s => some (s.store key, s)
  | .put key frame origin, s => some ((), s.write t key (some frame) origin)
  | .delete key, s => some ((), s.write t key none .delete)
  | .flush, s => some ((), s)
  | .clock, s => some (o.clock, s)
  | .cacheGet key, s => some (s.cache.get key, s)
  | .cacheInsert key value, s =>
    let cache := s.cache.insert o.pick key value
    some (cache.currentBytes, { s with cache })
  | .add counter value, s => some ((), s.count counter value)
  | .addDuration counter, s => some ((), s.count counter o.elapsed)
  | .setCacheBytes bytes, s =>
    some ((), { s with counters := Function.update s.counters .reconstructionCacheBytes bytes })
  | .load counter, s => some (s.counters counter, s)

def dbMachine : Machine DbAct Db Oracle := ⟨DbAct.exec⟩

/-- The keys that the engine takes; its put and delete panic on any other. -/
def EngineKey (key : Bytes) : Prop := 0 < key.length ∧ key.length ≤ 65535

instance (key : Bytes) : Decidable (EngineKey key) := by unfold EngineKey; infer_instance

/-- The actions for which DbAct.exec may be asked what the engine does. -/
def EngineTakes : ∀ β : Type, DbAct β → Prop
  | _, .put key _ _ => EngineKey key
  | _, .delete key => EngineKey key
  | _, _ => True

theorem exec_lock {o : Oracle} {t : Nat} {key : Bytes} {b : Unit} {s s' : Db}
    (run : dbMachine.exec o t (.lock key) s = some (b, s')) :
    s.locks key = none ∧ s' = { s with locks := Function.update s.locks key (some t) } := by
  change (if s.locks key = none then _ else none) = some (b, s') at run
  split at run
  · rename_i free
    cases run
    exact ⟨free, rfl⟩
  · cases run

abbrev DbOp (α : Type) := Op DbAct PiLsmError α

structure PiLsmDb where
  planner : Planner
  reconstructor : StreamRegistry
  decodeLimits : DecodeLimits
  maxReconstructBytes : UInt64

def sampleDb (limits : DecodeLimits) : PiLsmDb where
  planner := barePlanner true
  reconstructor := ⟨[]⟩
  decodeLimits := limits
  maxReconstructBytes := 64 * 1024 * 1024

def sampleState : Db :=
  { Db.empty 0 with store := Function.update (fun _ => none) [0x6b] (some sampleRawFrame) }

theorem only_stored {key other frame found : Bytes}
    (there : Function.update (fun _ => none) key (some frame) other = some found) :
    other = key ∧ found = frame := by
  by_cases same : other = key
  · rw [same, Function.update_self] at there
    exact ⟨same, (Option.some.inj there).symm⟩
  · rw [Function.update_of_ne same] at there
    cases there

inductive RewriteStatus where
  | rewritten
  | keptAlreadyPlanned
  | skippedMissingKey
  | skippedStaleSource
  | skippedPlanningFailed
  | skippedNotImproved
  deriving DecidableEq, Repr

structure PlanReport where
  status : RewriteStatus
  sourceEnvelopeHash : Option (Arr 32)
  oldEnvelopeBytes : Option Nat
  newEnvelopeBytes : Option Nat
  oldChunkCount : Option Nat
  newChunkCount : Option Nat
  deriving DecidableEq

def PlanReport.missing : PlanReport := ⟨.skippedMissingKey, none, none, none, none, none⟩

def PlanReport.alreadyPlanned (sourceHash : Arr 32) (envelopeBytes chunkCount : Nat) : PlanReport :=
  ⟨.keptAlreadyPlanned, some sourceHash, some envelopeBytes, some envelopeBytes, some chunkCount,
    some chunkCount⟩

structure VacuumOptions where
  planOptions : PlanOptions
  maxReconstructBytes : Option UInt64
  deriving DecidableEq, Repr

/-- From<PlanOptions>. -/
def VacuumOptions.ofPlanOptions (planOptions : PlanOptions) : VacuumOptions := ⟨planOptions, none⟩

structure PutOptions where
  awaitDurable : Bool
  allowImmediatePlan : Bool
  deriving DecidableEq, Repr

inductive WriteStorageClass where
  | raw
  | plan
  | tombstone
  deriving DecidableEq, Repr

structure WriteHandle where
  storageClass : WriteStorageClass
  physicalValueBytes : Nat
  deriving DecidableEq, Repr

/-- Run the body with the key locked; the guard goes out of scope on every path. -/
def holding {α : Type} (key : Bytes) (body : DbOp α) : DbOp α := ExceptT.mk do
  perform (.lock key)
  let result ← body.run
  perform (.unlock key)
  pure result

def planScore (envelopeBytes chunkCount : Nat) : Nat := envelopeBytes + 16 * chunkCount

def planImproved (oldEnvelopeBytes oldChunkCount newEnvelopeBytes newChunkCount : Nat) : Bool :=
  planScore newEnvelopeBytes newChunkCount < planScore oldEnvelopeBytes oldChunkCount

variable [Digests]

def envelopeHash (bytes : Bytes) : Arr 32 := Digests.sha256 bytes

/-- plan_bytes and plan_bytes_with_options: the planner's result, errors included, after its
duration was counted. -/
def PiLsmDb.planBytesWithOptions (db : PiLsmDb) (bytes : Bytes) (options : PlanOptions) :
    DbOp ReconstructionPlan := ExceptT.mk do
  let clock ← perform .clock
  let result := db.planner.planWithOptions clock bytes options
  perform (.addDuration .plannerNanos)
  pure result

def PiLsmDb.planBytes (db : PiLsmDb) (bytes : Bytes) : DbOp ReconstructionPlan :=
  db.planBytesWithOptions bytes db.planner.options

def PiLsmDb.reconstructPlan (db : PiLsmDb) (plan : ReconstructionPlan)
    (maxReconstructBytes : UInt64) : DbOp Bytes := do
  if maxReconstructBytes < plan.logicalLen then
    throw (.decodeLimitExceeded "max_reconstruct_bytes")
  else
    match ← issue (.cacheGet (reconstructionCacheKey plan)) with
    | some value => pure value
    | none =>
      issue (.addDuration .reconstructionNanos)
      match reconstructWithLimit db.reconstructor plan maxReconstructBytes with
      | .error e => throw e
      | .ok value =>
        let bytes ← issue (.cacheInsert (reconstructionCacheKey plan) value)
        issue (.setCacheBytes bytes)
        pure value

def PiLsmDb.logicalBytes (db : PiLsmDb) (envelope : ValueEnvelope) (maxReconstructBytes : UInt64) :
    DbOp Bytes :=
  match envelope with
  | .raw bytes => pure bytes
  | .plan plan => db.reconstructPlan plan maxReconstructBytes

def ValueEnvelope.writeStorageClass : ValueEnvelope → WriteStorageClass
  | .raw _ => .raw
  | .plan _ => .plan

def PiLsmDb.newEnvelope (db : PiLsmDb) (value : Bytes) (options : PutOptions) :
    DbOp ValueEnvelope :=
  if options.allowImmediatePlan then do
    let plan ← db.planBytes value
    pure (.plan plan)
  else pure (.raw value)

def PiLsmDb.putWithOptions (db : PiLsmDb) (key value : Bytes) (options : PutOptions) :
    DbOp WriteHandle :=
  holding key do
    let envelope ← db.newEnvelope value options
    let storageClass := envelope.writeStorageClass
    let encoded := envelope.encode
    issue (.put key encoded (.put value))
    if options.awaitDurable then issue .flush
    pure ⟨storageClass, encoded.length⟩

def PiLsmDb.delete (_db : PiLsmDb) (key : Bytes) : DbOp WriteHandle :=
  holding key do
    issue (.delete key)
    pure ⟨.tombstone, 0⟩

/-- Ok(None) for a missing key. -/
def PiLsmDb.getEnvelope (db : PiLsmDb) (key : Bytes) : DbOp (Option ValueEnvelope) := do
  match ← issue (.get key) with
  | none => pure none
  | some encoded =>
    match ValueEnvelope.decode encoded db.decodeLimits with
    | .ok envelope => pure (some envelope)
    | .error e => throw e

def PiLsmDb.get (db : PiLsmDb) (key : Bytes) : DbOp (Option Bytes) := do
  match ← db.getEnvelope key with
  | none => pure none
  | some envelope =>
    let bytes ← db.logicalBytes envelope db.maxReconstructBytes
    pure (some bytes)

/-- A frame as read_current_envelope hands it on: its hash, its content, its length. -/
structure Source where
  hash : Arr 32
  envelope : ValueEnvelope
  bytes : Nat
  deriving DecidableEq

def PiLsmDb.readCurrentEnvelope (db : PiLsmDb) (key : Bytes) : DbOp (Option Source) := do
  match ← issue (.get key) with
  | none => pure none
  | some encoded =>
    match ValueEnvelope.decode encoded db.decodeLimits with
    | .ok envelope => pure (some ⟨envelopeHash encoded, envelope, encoded.length⟩)
    | .error e => throw e

def PiLsmDb.writeIfSourceUnchanged (_db : PiLsmDb) (key : Bytes) (sourceHash : Arr 32)
    (encodedPlan : Bytes) (report : PlanReport) : DbOp PlanReport :=
  holding key do
    match ← issue (.get key) with
    | none => pure .missing
    | some current =>
      if envelopeHash current ≠ sourceHash then
        pure { report with status := .skippedStaleSource, newEnvelopeBytes := none }
      else
        issue (.put key encodedPlan .rewrite)
        pure { report with newEnvelopeBytes := some encodedPlan.length }

/-- The second half of plan_key, vacuum_meaning and replan_key: plan the bytes, stop when
planning fails or the new frame is not wanted, else write it. -/
def PiLsmDb.planAndWrite (db : PiLsmDb) (key : Bytes) (source : Source) (logicalBytes : Bytes)
    (options : PlanOptions) (oldChunkCount : Option Nat) (unwanted : Bytes → Nat → Bool) :
    DbOp PlanReport := do
  match ← attempt (db.planBytesWithOptions logicalBytes options) with
  | .error (.planningFailed _) =>
    issue (.add .representationEntropyExcusesTotal 1)
    pure ⟨.skippedPlanningFailed, some source.hash, some source.bytes, none, oldChunkCount, none⟩
  | .error e => throw e
  | .ok plan =>
    let newChunkCount := plan.chunks.length
    let encodedPlan := (ValueEnvelope.plan plan).encode
    if unwanted encodedPlan newChunkCount then
      pure ⟨.skippedNotImproved, some source.hash, some source.bytes, some encodedPlan.length,
        oldChunkCount, some newChunkCount⟩
    else
      db.writeIfSourceUnchanged key source.hash encodedPlan
        ⟨.rewritten, some source.hash, some source.bytes, none, oldChunkCount, some newChunkCount⟩

def countRewritten (report : PlanReport) (counter : DbCounter) (value : UInt64) :
    DbOp PlanReport :=
  if report.status = .rewritten then do
    issue (.add counter value)
    pure report
  else pure report

def PiLsmDb.planKey (db : PiLsmDb) (key : Bytes) (options : PlanOptions) : DbOp PlanReport := do
  match ← holding key (db.readCurrentEnvelope key) with
  | none => pure .missing
  | some source =>
    match source.envelope with
    | .plan plan => pure (.alreadyPlanned source.hash source.bytes plan.chunks.length)
    | .raw logicalBytes =>
      let report ← db.planAndWrite key source logicalBytes options none (fun _ _ => false)
      countRewritten report .rawBytesConvertedTotal (lenU64 logicalBytes.length)

def PiLsmDb.callLimit (db : PiLsmDb) (options : VacuumOptions) : UInt64 :=
  options.maxReconstructBytes.getD db.maxReconstructBytes

def PiLsmDb.vacuumMeaning (db : PiLsmDb) (key : Bytes) (options : VacuumOptions) :
    DbOp PlanReport := do
  issue (.add .vacuumMeaningAttemptsTotal 1)
  match ← holding key (db.readCurrentEnvelope key) with
  | none => pure .missing
  | some source =>
    match source.envelope with
    | .raw _ => db.planKey key options.planOptions
    | .plan oldPlan =>
      let oldChunkCount := oldPlan.chunks.length
      let logicalBytes ← db.reconstructPlan oldPlan (db.callLimit options)
      let report ← db.planAndWrite key source logicalBytes options.planOptions
        (some oldChunkCount) (fun encodedPlan newChunkCount =>
          ¬ planImproved source.bytes oldChunkCount encodedPlan.length newChunkCount)
      countRewritten report .vacuumMeaningImprovementsTotal 1

def ValueEnvelope.oldChunkCount : ValueEnvelope → Option Nat
  | .raw _ => none
  | .plan p => some p.chunks.length

def PiLsmDb.replanKey (db : PiLsmDb) (key : Bytes) (options : VacuumOptions) :
    DbOp PlanReport := do
  match ← holding key (db.readCurrentEnvelope key) with
  | none => pure .missing
  | some source =>
    let logicalBytes ← db.logicalBytes source.envelope (db.callLimit options)
    db.planAndWrite key source logicalBytes options.planOptions source.envelope.oldChunkCount
      (fun encodedPlan _ =>
        encodedPlan.length = source.bytes ∧ envelopeHash encodedPlan = source.hash)

end PiLSMer
