import PiLSMer.Core.Room
import PiLSMer.Lib.Contract
import PiLSMer.Slate.Readable
import PiLSMer.Slate.Snapshots
import PiLSMer.Slate.Views

/-! No call fails. When the limits of a handle leave room for the values put through it, every
frame that a put, a rewrite or a compaction filter writes is one that every later read takes, so
the only error is that of a put which asks to be planned at once. -/
namespace PiLSMer
open Interleave

variable [Digests]

/-- A handle over indexed texts whose limits leave room for values of n bytes. -/
structure PiLsmDb.Ready (db : PiLsmDb) (texts : List Bytes) (n : Nat) : Prop where
  shared : db.planner.registry = db.reconstructor
  registered : db.planner.Registered texts
  lawful : ∀ stream ∈ db.planner.registry.streams, stream.Lawful
  roomy : db.decodeLimits.Roomy db.planner.indexes.length n
  near : ∀ index ∈ db.planner.indexes, index.prefixLen ≤ db.decodeLimits.maxOffset
  within : n ≤ db.maxReconstructBytes.toNat

def PiLsmDb.Writes (db : PiLsmDb) (v frame : Bytes) : Prop :=
  frame = (ValueEnvelope.raw v).encode ∨ ∃ clock options plan,
    db.planner.planWithOptions clock v options = .ok plan ∧
    frame = (ValueEnvelope.plan plan).encode

/-- A filter over the streams of the handle changes the newest row of a key. -/
def Filters (db : PiLsmDb) (s s' : Db) : Prop :=
  ∃ (f : PiLsmCompactionFilter) (options : PlanOptions) (clock : Nat → Nat) (row : RowEntry)
    (state : FilterState) (frame frame' : Bytes),
    f.planner = { db.planner with options } ∧ f.reconstructor = db.reconstructor ∧
    s.store row.key = some frame ∧ row.value = .value frame ∧
    (f.filter clock row state).1 = .ok (.modify (.value frame')) ∧
    s' = { s with store := Function.update s.store row.key (some frame') }

def Call.limit (db : PiLsmDb) : Call → UInt64
  | .vacuumMeaning _ options => db.callLimit options
  | .replanKey _ options => db.callLimit options
  | _ => db.maxReconstructBytes

/-- The clients of a handle that put values of a set and reconstruct n bytes at least, under keys
that the engine takes. -/
def Unhindered (db : PiLsmDb) (values : Set Bytes) (n : Nat)
    (p : Prog DbAct (Call × Except PiLsmError Answer)) : Prop :=
  ∃ call : Call, p = ((call.op db).run >>= fun result => .done (call, result)) ∧
    EngineKey call.key ∧ (∀ key value options, call = .put key value options → value ∈ values) ∧
    n ≤ (call.limit db).toNat

/-- The one error there is: a put that is to be planned at once, and planning fails. -/
def Call.Excused (db : PiLsmDb) (call : Call) (e : PiLsmError) : Prop :=
  ∃ key value options clock reason, call = .put key value options ∧
    options.allowImmediatePlan = true ∧
    db.planner.planWithOptions clock value db.planner.options = .error (.planningFailed reason) ∧
    e = .planningFailed reason

namespace Unfailing

variable {db : PiLsmDb} {texts : List Bytes} {n : Nat} {values : Set Bytes} {v frame : Bytes}
  {err : PiLsmError → Prop} {limit : UInt64}

structure Serves (db : PiLsmDb) (n : Nat) (v : Bytes) (e : ValueEnvelope) : Prop where
  holds : e.Holds db.reconstructor v
  within : ∀ p, e = .plan p → p.logicalLen.toNat ≤ n

omit [Digests] in
theorem short_lt (ready : db.Ready texts n) (short : v.length ≤ n) : v.length < 2 ^ 63 := by
  have room := ready.roomy.capacity
  omega

theorem writes_decodes (ready : db.Ready texts n) (short : v.length ≤ n)
    (writes : db.Writes v frame) :
    ∃ e, ValueEnvelope.decode frame db.decodeLimits = .ok e ∧ Serves db n v e := by
  have small := short_lt ready short
  have fits : v.length < 2 ^ 64 := Nat.lt_trans small (by decide)
  rcases writes with rfl | ⟨clock, options, plan, planned, rfl⟩
  · refine ⟨.raw v, (decode_written_raw ?_ _).mpr ⟨short.trans ready.roomy.logical, rfl⟩, rfl,
      fun _ none => (by cases none)⟩
    have header := putVarint_length_le (lenU64 v.length)
    have room := ready.roomy.encoded
    have bound := db.decodeLimits.maxEncodedPlanLen.toNat_lt
    simp only [ValueEnvelope.payload, List.length_append]
    omega
  · have made := Planner.planWithOptions_made planned
    have admitted := Planner.planWithOptions_admitted ready.roomy ready.near short planned
    refine ⟨.plan plan, made.decodes fits admitted, ?_, ?_⟩
    · exact Eq.trans (by rw [ready.shared]) made.rebuilds
    · rintro _ ⟨⟩
      rw [made.logicalLen, lenU64_toNat fits]
      exact short

theorem writes_holds (ready : db.Ready texts n) (writes : db.Writes v frame) :
    FrameOf db.reconstructor frame v := by
  rcases writes with rfl | ⟨clock, options, plan, planned, rfl⟩
  · exact ⟨_, rfl, rfl⟩
  · exact ⟨_, rfl, Eq.trans (by rw [ready.shared]) (Planner.planWithOptions_made planned).rebuilds⟩

def Written (db : PiLsmDb) (values : Set Bytes) (s : Db) : Prop :=
  ∀ key frame, s.store key = some frame → ∃ v ∈ values, db.Writes v frame

theorem filter_plans {s s' : Db} (moved : Filters db s s') :
    ∃ key frame w clock options p, s.store key = some frame ∧
      (∀ v, FrameOf db.reconstructor frame v → v = w) ∧
      db.planner.planWithOptions clock w options = .ok p ∧
      s' = { s with
        store := Function.update s.store key (some (ValueEnvelope.plan p).encode) } := by
  obtain ⟨f, options, clock, row, state, frame, frame', planner, own, there, value, done, rfl⟩ :=
    moved
  rcases Views.filter_decides done with keep | ⟨e, ⟨_, bytes, content, decoded⟩, dispatched⟩
  · cases keep
  cases value.symm.trans content
  rcases dispatch_sound f clock f.mode e with kept | ⟨err, failed⟩ | ⟨w, p, holds, planned, eq⟩
  · cases kept.symm.trans dispatched
  · cases failed.symm.trans dispatched
  · cases eq.symm.trans dispatched
    rw [own] at holds
    rw [Planner.plan, planner, Planner.planWithOptions_settings] at planned
    exact ⟨row.key, frame, w, clock, _, p, there,
      fun v read => Views.holds_unique (read.decoded decoded) holds, planned, rfl⟩

theorem filter_compacts (ready : db.Ready texts n) {s s' : Db} (moved : Filters db s s') :
    Compacts db.reconstructor s s' := by
  obtain ⟨key, frame, w, clock, options, p, there, only, planned, rfl⟩ := filter_plans moved
  refine ⟨key, frame, _, there, fun v holds => ?_, rfl⟩
  rw [only v holds]
  exact writes_holds ready (.inr ⟨clock, options, p, planned, rfl⟩)

theorem filter_writes (ready : db.Ready texts n) {s s' : Db} (moved : Filters db s s')
    (written : Written db values s) : Written db values s' := by
  obtain ⟨key, frame, w, clock, options, p, there, only, planned, rfl⟩ := filter_plans moved
  obtain ⟨v, valued, writes⟩ := written key frame there
  cases only v (writes_holds ready writes)
  intro other found stored
  by_cases same : other = key
  · subst same
    cases (Function.update_self ..).symm.trans stored
    exact ⟨_, valued, .inr ⟨clock, options, p, planned, rfl⟩⟩
  · exact written other found ((Function.update_of_ne same ..).symm.trans stored)

/-- Frames are asked to be written for a value; those read were, and cached bytes are trusted. -/
def contract (db : PiLsmDb) (values : Set Bytes) : Contract DbAct where
  asks
    | _, .put _ frame _ => ∃ v ∈ values, db.Writes v frame
    | _, _ => True
  answers
    | _, .get _, found => ∀ frame, found = some frame → ∃ v ∈ values, db.Writes v frame
    | _, .cacheGet key, found => ∀ w, found = some w → Trusted values key w
    | _, _, _ => True

theorem honoured (ready : db.Ready texts n) :
    (contract db values).Honoured dbMachine (Filters db) (Durable.Inv db.reconstructor values)
      (Written db values) where
  env s s' written _ moved := filter_writes ready moved written
  exec a o t s b s' written inv asks run := by
    cases a with
    | lock key =>
      obtain ⟨_, rfl⟩ := exec_lock run
      exact ⟨written, trivial⟩
    | get key =>
      cases run
      exact ⟨written, written key⟩
    | put key frame origin =>
      cases run
      refine ⟨fun other found stored => ?_, trivial⟩
      by_cases same : other = key
      · subst same
        cases (Function.update_self ..).symm.trans stored
        exact asks
      · exact written other found ((Function.update_of_ne same ..).symm.trans stored)
    | delete key =>
      cases run
      refine ⟨fun other found stored => ?_, trivial⟩
      by_cases same : other = key
      · subst same
        cases (Function.update_self ..).symm.trans stored
      · exact written other found ((Function.update_of_ne same ..).symm.trans stored)
    | cacheGet key =>
      cases run
      exact ⟨written, inv.cached key⟩
    | _ =>
      cases run
      exact ⟨written, trivial⟩

theorem reconstruct_serves (injective : ∀ kind, values.InjOn (computeLogicalHash kind))
    (valued : v ∈ values) {p : ReconstructionPlan} (serves : Serves db n v (.plan p))
    (allowed : n ≤ limit.toNat) :
    (db.reconstructPlan p limit).run.Within (contract db values) (EndsIn (fun w => w = v) err) := by
  have rebuilt : reconstruct db.reconstructor p = .ok v := serves.holds
  have within : p.logicalLen ≤ limit :=
    UInt64.le_iff_toNat_le.mpr ((serves.within p rfl).trans allowed)
  unfold PiLsmDb.reconstructPlan
  rw [if_neg (UInt64.not_lt.mpr within)]
  refine Prog.Within.andThen (Prog.Within.issue trivial) (fun found trusted => ?_)
  cases found with
  | some w => exact Prog.Within.pure ((trusted w rfl).same injective rebuilt valued)
  | none =>
    refine Prog.Within.andThen (Prog.Within.issue trivial) (fun _ _ => ?_)
    rw [reconstructWithLimit_iff.mpr ⟨within, rebuilt⟩]
    exact Prog.Within.andThen (Prog.Within.issue trivial) (fun _ _ =>
      Prog.Within.andThen (Prog.Within.issue trivial) (fun _ _ => Prog.Within.pure rfl))

theorem logicalBytes_serves (injective : ∀ kind, values.InjOn (computeLogicalHash kind))
    (valued : v ∈ values) {e : ValueEnvelope} (serves : Serves db n v e)
    (allowed : n ≤ limit.toNat) :
    (db.logicalBytes e limit).run.Within (contract db values) (EndsIn (fun w => w = v) err) := by
  cases e with
  | raw bytes => exact Prog.Within.pure serves.holds.symm
  | plan p => exact reconstruct_serves injective valued serves allowed

theorem planBytes_within (w : Bytes) (options : PlanOptions) :
    (db.planBytesWithOptions w options).run.Within (contract db values)
      (fun result => ∃ clock, db.planner.planWithOptions clock w options = result) :=
  ⟨trivial, fun clock _ => ⟨trivial, fun _ _ => ⟨clock, rfl⟩⟩⟩

theorem holding_within {α : Type} {body : DbOp α} {key : Bytes}
    {post : Except PiLsmError α → Prop} (h : body.run.Within (contract db values) post) :
    (holding key body).run.Within (contract db values) post := by
  have take : (perform (DbAct.lock key)).Within (contract db values) (fun _ => True) :=
    ⟨trivial, fun _ _ => trivial⟩
  have free : (perform (DbAct.unlock key)).Within (contract db values) (fun _ => True) :=
    ⟨trivial, fun _ _ => trivial⟩
  exact Prog.Within.bind take (fun _ _ => Prog.Within.bind h (fun _ done =>
    Prog.Within.bind free (fun _ _ => done)))

def Read (db : PiLsmDb) (values : Set Bytes) (n : Nat) (found : Option Source) : Prop :=
  ∀ source, found = some source → ∃ v ∈ values, Serves db n v source.envelope

theorem readCurrentEnvelope_reads (ready : db.Ready texts n)
    (short : ∀ v ∈ values, v.length ≤ n) (key : Bytes) :
    (db.readCurrentEnvelope key).run.Within (contract db values)
      (EndsIn (Read db values n) err) := by
  refine Prog.Within.andThen (Prog.Within.issue trivial) (fun found stored => ?_)
  cases found with
  | none => exact Prog.Within.pure (fun _ none => (by cases none))
  | some frame =>
    obtain ⟨v, valued, writes⟩ := stored frame rfl
    obtain ⟨e, decoded, serves⟩ := writes_decodes ready (short v valued) writes
    simp only [decoded]
    refine Prog.Within.pure ?_
    rintro source ⟨⟩
    exact ⟨v, valued, serves⟩

theorem getEnvelope_reads (ready : db.Ready texts n) (short : ∀ v ∈ values, v.length ≤ n)
    (key : Bytes) :
    (db.getEnvelope key).run.Within (contract db values)
      (EndsIn (fun found => ∀ e, found = some e → ∃ v ∈ values, Serves db n v e) err) := by
  refine Prog.Within.andThen (Prog.Within.issue trivial) (fun found stored => ?_)
  cases found with
  | none => exact Prog.Within.pure (fun _ none => (by cases none))
  | some frame =>
    obtain ⟨v, valued, writes⟩ := stored frame rfl
    obtain ⟨e, decoded, serves⟩ := writes_decodes ready (short v valued) writes
    simp only [decoded]
    refine Prog.Within.pure ?_
    rintro _ ⟨⟩
    exact ⟨v, valued, serves⟩

theorem get_returns (ready : db.Ready texts n) (short : ∀ v ∈ values, v.length ≤ n)
    (injective : ∀ kind, values.InjOn (computeLogicalHash kind)) (key : Bytes) :
    (db.get key).run.Within (contract db values) (EndsIn (fun _ => True) err) := by
  refine Prog.Within.andThen (getEnvelope_reads ready short key) (fun found read => ?_)
  cases found with
  | none => exact Prog.Within.pure trivial
  | some e =>
    obtain ⟨v, valued, serves⟩ := read e rfl
    exact Prog.Within.andThen (logicalBytes_serves injective valued serves ready.within)
      (fun _ _ => Prog.Within.pure trivial)

def Unplanned (db : PiLsmDb) (value : Bytes) (options : PutOptions) (e : PiLsmError) : Prop :=
  options.allowImmediatePlan = true ∧
    ∃ clock, db.planner.planWithOptions clock value db.planner.options = .error e

theorem newEnvelope_writes (value : Bytes) (options : PutOptions) :
    (db.newEnvelope value options).run.Within (contract db values)
      (EndsIn (fun e => db.Writes value e.encode) (Unplanned db value options)) := by
  unfold PiLsmDb.newEnvelope
  split
  · rename_i immediate
    have plans : (db.planBytes value).run.Within (contract db values) (EndsIn
        (fun plan => ∃ clock, db.planner.planWithOptions clock value db.planner.options = .ok plan)
        (Unplanned db value options)) := by
      refine (planBytes_within value db.planner.options).mono (fun result planned => ?_)
      cases result with
      | ok plan => exact planned
      | error e => exact ⟨immediate, planned⟩
    refine Prog.Within.andThen plans (fun plan planned => ?_)
    obtain ⟨clock, planned⟩ := planned
    exact Prog.Within.pure (.inr ⟨clock, _, plan, planned, rfl⟩)
  · exact Prog.Within.pure (.inl rfl)

theorem put_returns {value : Bytes} (valued : value ∈ values) (key : Bytes)
    (options : PutOptions) :
    (db.putWithOptions key value options).run.Within (contract db values)
      (EndsIn (fun _ => True) (Unplanned db value options)) := by
  refine holding_within (Prog.Within.andThen (newEnvelope_writes value options)
    (fun e writes => ?_))
  refine Prog.Within.andThen (Prog.Within.issue ⟨value, valued, writes⟩) (fun _ _ => ?_)
  dsimp only
  split
  · exact Prog.Within.andThen (Prog.Within.issue trivial) (fun _ _ => Prog.Within.pure trivial)
  · exact Prog.Within.pure trivial

theorem delete_returns (key : Bytes) :
    (db.delete key).run.Within (contract db values) (EndsIn (fun _ => True) err) :=
  holding_within (Prog.Within.andThen (Prog.Within.issue trivial)
    (fun _ _ => Prog.Within.pure trivial))

theorem planAndWrite_returns (ready : db.Ready texts n) (short : ∀ v ∈ values, v.length ≤ n)
    (valued : v ∈ values) (key : Bytes) (source : Source) (options : PlanOptions)
    (oldChunkCount : Option Nat)
    (unwanted : Bytes → Nat → Bool) :
    (db.planAndWrite key source v options oldChunkCount unwanted).run.Within (contract db values)
      (EndsIn (fun _ => True) err) := by
  have few : db.planner.indexes.length ≤ 2 ^ 32 :=
    ready.roomy.streamCount.trans (Nat.le_of_lt db.decodeLimits.maxStreamsPerPlan.toNat_lt)
  refine Prog.Within.andThen (Prog.Within.attempt (planBytes_within v options))
    (fun result planned => ?_)
  obtain ⟨clock, planned⟩ := planned
  cases result with
  | error e =>
    obtain ⟨reason, rfl⟩ := Planner.planWithOptions_error ready.registered ready.lawful few
      (short_lt ready (short v valued)) planned
    exact Prog.Within.andThen (Prog.Within.issue trivial) (fun _ _ => Prog.Within.pure trivial)
  | ok plan =>
    dsimp only
    split
    · exact Prog.Within.pure trivial
    · refine holding_within (Prog.Within.andThen (Prog.Within.issue trivial) (fun found _ => ?_))
      cases found with
      | none => exact Prog.Within.pure trivial
      | some current =>
        dsimp only
        split
        · exact Prog.Within.pure trivial
        · exact Prog.Within.andThen
            (Prog.Within.issue ⟨v, valued, .inr ⟨clock, options, plan, planned, rfl⟩⟩)
            (fun _ _ => Prog.Within.pure trivial)

theorem countRewritten_returns (report : PlanReport) (counter : DbCounter) (value : UInt64) :
    (countRewritten report counter value).run.Within (contract db values)
      (EndsIn (fun _ => True) err) := by
  unfold countRewritten
  split
  · exact Prog.Within.andThen (Prog.Within.issue trivial) (fun _ _ => Prog.Within.pure trivial)
  · exact Prog.Within.pure trivial

theorem planKey_returns (ready : db.Ready texts n) (short : ∀ v ∈ values, v.length ≤ n)
    (key : Bytes) (options : PlanOptions) :
    (db.planKey key options).run.Within (contract db values) (EndsIn (fun _ => True) err) := by
  refine Prog.Within.andThen (holding_within (readCurrentEnvelope_reads ready short key))
    (fun found read => ?_)
  cases found with
  | none => exact Prog.Within.pure trivial
  | some source =>
    obtain ⟨v, valued, serves⟩ := read source rfl
    cases content : source.envelope with
    | plan p =>
      simp only [content]
      exact Prog.Within.pure trivial
    | raw bytes =>
      rw [content] at serves
      cases serves.holds
      simp only [content]
      exact Prog.Within.andThen (planAndWrite_returns ready short valued key source options _ _)
        (fun report _ => countRewritten_returns report _ _)

theorem vacuumMeaning_returns (ready : db.Ready texts n) (short : ∀ v ∈ values, v.length ≤ n)
    (injective : ∀ kind, values.InjOn (computeLogicalHash kind)) (key : Bytes)
    {options : VacuumOptions} (allowed : n ≤ (db.callLimit options).toNat) :
    (db.vacuumMeaning key options).run.Within (contract db values)
      (EndsIn (fun _ => True) err) := by
  refine Prog.Within.andThen (Prog.Within.issue trivial) (fun _ _ =>
    Prog.Within.andThen (holding_within (readCurrentEnvelope_reads ready short key))
      (fun found read => ?_))
  cases found with
  | none => exact Prog.Within.pure trivial
  | some source =>
    obtain ⟨v, valued, serves⟩ := read source rfl
    cases content : source.envelope with
    | raw bytes =>
      simp only [content]
      exact planKey_returns ready short key options.planOptions
    | plan old =>
      rw [content] at serves
      simp only [content]
      refine Prog.Within.andThen (reconstruct_serves injective valued serves allowed)
        (fun w same => ?_)
      subst same
      exact Prog.Within.andThen (planAndWrite_returns ready short valued key source _ _ _)
        (fun report _ => countRewritten_returns report _ _)

theorem replanKey_returns (ready : db.Ready texts n) (short : ∀ v ∈ values, v.length ≤ n)
    (injective : ∀ kind, values.InjOn (computeLogicalHash kind)) (key : Bytes)
    {options : VacuumOptions} (allowed : n ≤ (db.callLimit options).toNat) :
    (db.replanKey key options).run.Within (contract db values) (EndsIn (fun _ => True) err) := by
  refine Prog.Within.andThen (holding_within (readCurrentEnvelope_reads ready short key))
    (fun found read => ?_)
  cases found with
  | none => exact Prog.Within.pure trivial
  | some source =>
    obtain ⟨v, valued, serves⟩ := read source rfl
    refine Prog.Within.andThen (logicalBytes_serves injective valued serves allowed)
      (fun w same => ?_)
    subst same
    exact planAndWrite_returns ready short valued key source _ _ _

theorem answered_returns {call : Call} {α : Type} {x : DbOp α} {answer : α → Answer}
    (op : x.run.Within (contract db values) (EndsIn (fun _ => True) (call.Excused db))) :
    ((x >>= fun a => pure (answer a) : DbOp Answer).run >>=
      fun result => .done (call, result)).Within (contract db values)
        (fun ended => ∀ e, ended.2 = .error e → ended.1.Excused db e) := by
  have mapped : (x >>= fun a => pure (answer a) : DbOp Answer).run.Within (contract db values)
      (EndsIn (fun _ => True) (call.Excused db)) :=
    Prog.Within.andThen op (fun _ _ => Prog.Within.pure trivial)
  refine Prog.Within.bind mapped (fun result ends e failed => ?_)
  change result = .error e at failed
  subst failed
  exact ends

theorem call_returns (ready : db.Ready texts n) (short : ∀ v ∈ values, v.length ≤ n)
    (injective : ∀ kind, values.InjOn (computeLogicalHash kind))
    {p : Prog DbAct (Call × Except PiLsmError Answer)} (client : Unhindered db values n p) :
    p.Within (contract db values)
      (fun ended => ∀ e, ended.2 = .error e → ended.1.Excused db e) := by
  obtain ⟨call, rfl, _, valued, allowed⟩ := client
  have few : db.planner.indexes.length ≤ 2 ^ 32 :=
    ready.roomy.streamCount.trans (Nat.le_of_lt db.decodeLimits.maxStreamsPerPlan.toNat_lt)
  cases call with
  | put key value options =>
    refine answered_returns ((put_returns (valued key value options rfl) key options).mono
      (fun result ends => ?_))
    cases result with
    | ok handle => exact trivial
    | error e =>
      obtain ⟨immediate, clock, failed⟩ := ends
      obtain ⟨reason, rfl⟩ := Planner.planWithOptions_error ready.registered ready.lawful few
        (short_lt ready (short value (valued key value options rfl))) failed
      exact ⟨key, value, options, clock, reason, rfl, immediate, failed, rfl⟩
  | delete key => exact answered_returns (delete_returns key)
  | get key => exact answered_returns (get_returns ready short injective key)
  | planKey key options => exact answered_returns (planKey_returns ready short key options)
  | vacuumMeaning key options =>
    exact answered_returns (vacuumMeaning_returns ready short injective key allowed)
  | replanKey key options =>
    exact answered_returns (replanKey_returns ready short injective key allowed)

omit [Digests] in
theorem answered_taken {α : Type} {x : DbOp α} {f : α → Answer} (op : x.run.Only EngineTakes) :
    (x >>= fun a => pure (f a) : DbOp Answer).run.Only EngineTakes :=
  Prog.Only.andThen op (fun _ => trivial)

theorem call_taken (call : Call) (fit : EngineKey call.key) :
    (call.op db).run.Only EngineTakes := by
  have write (frame : Bytes) (origin : Origin) :
    EngineTakes Unit (.put call.key frame origin) := fit
  have delete : EngineTakes Unit (.delete call.key) := fit
  cases call with
  | put key value options =>
    exact answered_taken
      (only_put db Mild.taken (fun frame v => write frame (.put v)) value options)
  | delete key => exact answered_taken (only_delete db Mild.taken delete)
  | get key => exact answered_taken ((mild_get db key).mono Mild.taken)
  | planKey key options =>
    exact answered_taken (only_planKey db Mild.taken (fun frame => write frame .rewrite)
      (fun _ _ => trivial) options)
  | vacuumMeaning key options =>
    exact answered_taken (only_vacuumMeaning db Mild.taken (fun frame => write frame .rewrite)
      (fun _ _ => trivial) options)
  | replanKey key options =>
    exact answered_taken
      (only_replanKey db Mild.taken (fun frame => write frame .rewrite) options)

theorem gets_written (ready : db.Ready texts n) (short : ∀ v ∈ values, v.length ≤ n)
    (injective : ∀ kind, values.InjOn (computeLogicalHash kind)) {s : Db} {key : Bytes}
    (written : Written db values s) (inv : Durable.Inv db.reconstructor values s)
    (present : s.contents key = some v) : db.Gets s key v := by
  have kept := inv.keeps key
  rw [Db.Keeps, show PiLSMer.written key s.log = some v from present] at kept
  obtain ⟨frame, there, holds⟩ := kept
  obtain ⟨w, valued, writes⟩ := written key frame there
  obtain ⟨e, decoded, serves⟩ := writes_decodes ready (short w valued) writes
  cases Views.holds_unique (holds.decoded decoded) serves.holds
  refine PiLsmDb.gets_iff.mpr ⟨frame, e, there, decoded, ?_⟩
  cases e with
  | raw bytes => exact congrArg Except.ok serves.holds.symm
  | plan p =>
    have within := UInt64.le_iff_toNat_le.mpr ((serves.within p rfl).trans ready.within)
    refine PiLsmDb.recover_iff.mpr ⟨within, ?_⟩
    cases found : s.cache.get (reconstructionCacheKey p) with
    | none => exact Or.inr ⟨rfl, serves.holds⟩
    | some w =>
      exact Or.inl (congrArg some ((inv.cached _ w found).same injective serves.holds valued))

end Unfailing

/-- When the limits leave room for the values, nothing that the clients or compaction write ever
stands in the way of a read: every value of the map can be read at every moment, and of the calls
only a put that is to be planned at once can fail. Of the engine it is known that its calls
succeed on the keys it takes. -/
theorem calls_succeed (db : PiLsmDb) {texts : List Bytes} {n : Nat} (ready : db.Ready texts n)
    (frames values : Set Bytes) (injective : frames.InjOn envelopeHash)
    (values_injective : ∀ kind, values.InjOn (computeLogicalHash kind))
    (short : ∀ v ∈ values, v.length ≤ n) (cacheBytes : UInt64)
    {engine : Machine DbAct Db Oracle} (serves : engine.Agree dbMachine EngineTakes)
    {pool : Pool DbAct Db (Call × Except PiLsmError Answer)}
    (reach : Pool.Reach engine (Unhindered db values n) (Filters db) (StoredIn frames)
      (Db.empty cacheBytes) pool) :
    (∀ key v, pool.state.contents key = some v → db.Gets pool.state key v) ∧
    ∀ (t : Nat) (call : Call) (e : PiLsmError),
      pool.threads[t]? = some (Prog.done (call, .error e)) → call.Excused db e := by
  replace reach := (reach.agree serves (by
    rintro p ⟨call, rfl, fit, _⟩
    exact Prog.Only.bind (Unfailing.call_taken call fit) (fun _ => trivial))).1
  have known : ∀ pool, Pool.Reach dbMachine (Unhindered db values n) (Filters db)
      (StoredIn frames) (Db.empty cacheBytes) pool →
      Durable.Inv db.reconstructor values pool.state := by
    intro pool reach
    let fresh : Fresh (Durable.protocol db.reconstructor frames values) :=
      ⟨fun _ _ => True, fun _ _ _ _ _ => trivial⟩
    have start : Durable.Inv db.reconstructor values (Db.empty cacheBytes) :=
      ⟨fun _ => rfl, nofun, nofun⟩
    have safe : ∀ p, Unhindered db values n p → ∀ t,
        Triple dbMachine (Durable.protocol db.reconstructor frames values) t (fun _ => True) p
          (fun _ _ => True) := by
      rintro p ⟨call, rfl, _, valued, _⟩ t
      exact Triple.bind (Durable.call_safe ready.shared injective values_injective
        ⟨call, rfl, valued⟩ t)
        (fun _ => Triple.done (Snapshots.standing True) (fun _ _ _ _ => trivial))
    exact (Pool.Reach.kept (P := Durable.protocol db.reconstructor frames values) (F := fresh)
      (Q := fun _ _ _ => True) start (fun _ => trivial) safe
      (fun _ _ moved inv _ _ => Durable.compaction_step (Unfailing.filter_compacts ready moved) inv)
      reach).inv
  obtain ⟨written, inv, ended⟩ := (reach.also known).within (Unfailing.honoured ready)
    (fun _ _ none => (by cases none))
    (fun p client => Unfailing.call_returns ready short values_injective client)
  refine ⟨fun key v => Unfailing.gets_written ready short values_injective written inv,
    fun t call e there => ?_⟩
  exact ended _ (List.mem_of_getElem? there) e rfl

omit [Digests] in
/-- A handle for values of four megabytes. A filter plans the frame of a put that has not
returned, and the value can be read. -/
theorem calls_succeed_sample :
    letI := frameDigests
    ∃ pool : Pool DbAct Db (Call × Except PiLsmError Answer),
      pool.state.locks [0x6b] = some 0 ∧ pool.state.store [0x6b] = some samplePlanFrame ∧
      (sampleDb .default).Gets pool.state [0x6b] [0x61] := by
  let _ := frameDigests
  let db := sampleDb .default
  let o : Oracle := ⟨stopped, 0, fun _ => 0⟩
  let frames : Set Bytes := {sampleRawFrame, samplePlanFrame}
  let Run := Pool.Reach dbMachine (Unhindered db {[0x61]} 4194304) (Filters db) (StoredIn frames)
    (Db.empty 0)
  have ready : db.Ready [] 4194304 :=
    ⟨rfl, .nil, nofun, ⟨by decide, by decide, by decide, by decide, by decide, by decide⟩, nofun,
      by decide⟩
  have fine : ∀ (s : Db) (f : Bytes), s.store =
      Function.update (fun _ => none) [0x6b] (some f) → f ∈ frames → StoredIn frames s := by
    intro s f same member k frame there
    rw [same] at there
    obtain ⟨_, rfl⟩ := only_stored there
    exact member
  have client : Unhindered db {[0x61]} 4194304 ((Call.op db (.put [0x6b] [0x61] ⟨false, false⟩)).run
      >>= fun result => .done (.put [0x6b] [0x61] ⟨false, false⟩, result)) := by
    refine ⟨_, rfl, by decide, ?_, by decide⟩
    rintro key value options ⟨⟩
    rfl
  have locked : Run _ := ((Pool.Reach.start (no_frame rfl)).step
    (Pool.Step.spawn client) (no_frame rfl)).step
    (Pool.Step.act (t := 0) (o := o) rfl rfl) (no_frame rfl)
  have stored : Run _ := locked.step (Pool.Step.act (t := 0) (o := o) rfl rfl)
    (fine _ _ rfl (Or.inl (by decide)))
  have there : Function.update (fun _ => none) [0x6b] (some (ValueEnvelope.raw [0x61]).encode)
      [0x6b] = some sampleRawFrame := by decide
  have done : ((sampleFilter .normal true .default).filter stopped sampleRow freshState).1 =
      .ok (.modify (.value samplePlanFrame)) := by decide
  have compacted : Run _ := stored.step (Pool.Step.env ⟨sampleFilter .normal true .default, _,
    stopped, sampleRow, freshState, sampleRawFrame, samplePlanFrame, rfl, rfl, there, rfl, done,
    rfl⟩) (fine _ _ (Function.update_idem ..) (Or.inr rfl))
  have injective : frames.InjOn envelopeHash := sampleFrames_injective
  have short : ∀ v ∈ ({[0x61]} : Set Bytes), v.length ≤ 4194304 := by
    rintro v rfl
    decide
  obtain ⟨pool, reached, held, planned, present⟩ : ∃ pool, Run pool ∧
      pool.state.locks [0x6b] = some 0 ∧ pool.state.store [0x6b] = some samplePlanFrame ∧
      pool.state.contents [0x6b] = some [0x61] := ⟨_, compacted, rfl, by decide, by decide⟩
  obtain ⟨reads, _⟩ := calls_succeed db ready frames {[0x61]} injective (by simp) short 0
    (fun _ _ _ _ _ _ => rfl) reached
  exact ⟨pool, held, planned, reads [0x6b] [0x61] present⟩

end PiLSMer
