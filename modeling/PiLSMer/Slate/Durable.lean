import PiLSMer.Slate.Rewrite

/-! Any number of clients on one handle, with compaction in between. Between its read and its
write a rewrite relies on two things: the hash fixes the frame, and a frame fixes its value.
So whatever happened meanwhile, the frame it replaces holds the value that it planned. -/
namespace PiLSMer
open Interleave

/-- What the user wrote last: the bytes of the last put unless a delete came after it. -/
def written (key : Bytes) : List WriteEvent → Option Bytes
  | [] => none
  | event :: log =>
    if event.key = key then
      match event.origin with
      | .put value => some value
      | .delete => none
      | .rewrite => written key log
    else written key log

variable [Digests]

/-- The frame is the encoding of an envelope with these logical bytes. -/
def FrameOf (registry : StreamRegistry) (frame v : Bytes) : Prop :=
  ∃ e : ValueEnvelope, frame = e.encode ∧ e.Holds registry v

def Db.Keeps (registry : StreamRegistry) (s : Db) (key : Bytes) : Prop :=
  match written key s.log with
  | none => s.store key = none
  | some v => ∃ frame, s.store key = some frame ∧ FrameOf registry frame v

inductive Call where
  | put (key value : Bytes) (options : PutOptions)
  | delete (key : Bytes)
  | get (key : Bytes)
  | planKey (key : Bytes) (options : PlanOptions)
  | vacuumMeaning (key : Bytes) (options : VacuumOptions)
  | replanKey (key : Bytes) (options : VacuumOptions)

inductive Answer where
  | handle (handle : WriteHandle)
  | value (value : Option Bytes)
  | report (report : PlanReport)

def Call.key : Call → Bytes
  | .put key _ _ | .delete key | .get key => key
  | .planKey key _ | .vacuumMeaning key _ | .replanKey key _ => key

def Call.rewrites : Call → Option Bytes
  | .planKey key _ => some key
  | .vacuumMeaning key _ => some key
  | .replanKey key _ => some key
  | _ => none

def Call.op (db : PiLsmDb) : Call → DbOp Answer
  | .put key value options => do
    let handle ← db.putWithOptions key value options
    pure (.handle handle)
  | .delete key => do
    let handle ← db.delete key
    pure (.handle handle)
  | .get key => do
    let value ← db.get key
    pure (.value value)
  | .planKey key options => do
    let report ← db.planKey key options
    pure (.report report)
  | .vacuumMeaning key options => do
    let report ← db.vacuumMeaning key options
    pure (.report report)
  | .replanKey key options => do
    let report ← db.replanKey key options
    pure (.report report)

def ClientCalls (db : PiLsmDb) (values : Set Bytes)
    (p : Prog DbAct (Except PiLsmError Answer)) : Prop :=
  ∃ call : Call, p = (call.op db).run ∧ ∀ key value options,
    call = .put key value options → value ∈ values

/-- A compaction step replaces one frame by another that holds the same logical bytes. -/
def Compacts (registry : StreamRegistry) (s s' : Db) : Prop :=
  ∃ key frame frame', s.store key = some frame ∧
    (∀ v, FrameOf registry frame v → FrameOf registry frame' v) ∧
    s' = { s with store := Function.update s.store key (some frame') }

def StoredIn (frames : Set Bytes) (s : Db) : Prop :=
  ∀ key frame, s.store key = some frame → frame ∈ frames

section

variable {frames : Set Bytes} {s s' : Db}

omit [Digests] in
theorem no_frame (none : s.store = fun _ => none) : StoredIn frames s := by
  intro k frame there
  rw [none] at there
  cases there

omit [Digests] in
theorem StoredIn.kept (h : StoredIn frames s) (same : s'.store = s.store) :
    StoredIn frames s' := by
  intro key frame there
  exact h key frame (same ▸ there)

omit [Digests] in
theorem StoredIn.update (h : StoredIn frames s) {key : Bytes} {found : Option Bytes}
    (changed : s'.store = Function.update s.store key found)
    (member : ∀ frame, found = some frame → frame ∈ frames) : StoredIn frames s' := by
  intro other frame there
  rw [changed] at there
  by_cases same : other = key
  · rw [same, Function.update_self] at there
    exact member frame there
  · rw [Function.update_of_ne same] at there
    exact h other frame there

end

theorem FrameOf.decoded {registry : StreamRegistry} {frame v : Bytes} {limits : DecodeLimits}
    {e : ValueEnvelope} (h : FrameOf registry frame v)
    (decoded : ValueEnvelope.decode frame limits = .ok e) : e.Holds registry v := by
  obtain ⟨e', rfl, holds⟩ := h
  rw [decode_encode_sound decoded]
  exact holds

namespace Durable

structure Inv (registry : StreamRegistry) (values : Set Bytes) (s : Db) : Prop where
  keeps : ∀ key, s.Keeps registry key
  valued : ∀ key v, written key s.log = some v → v ∈ values
  cached : ∀ key w, s.cache.get key = some w → Trusted values key w

/-- While a thread holds the lock of a key, nobody else writes it. -/
def Rely (t : Nat) (s s' : Db) : Prop :=
  ∀ key, s.locks key = some t → s'.locks key = some t ∧ written key s'.log = written key s.log

def protocol (registry : StreamRegistry) (frames values : Set Bytes) : Protocol Db where
  good := StoredIn frames
  inv := Inv registry values
  rely := Rely
  refl _ _ _ h := ⟨h, rfl⟩
  trans _ _ _ _ first second key held := by
    obtain ⟨held', same⟩ := first key held
    obtain ⟨held'', same'⟩ := second key held'
    exact ⟨held'', same'.trans same⟩

variable {registry : StreamRegistry} {frames values : Set Bytes} {t : Nat}

theorem orderly {key : Bytes} : Orderly (protocol registry frames values) t key where
  locks s s' moved held := (moved key held).1
  quiet s s' step inv := by
    obtain ⟨store, log, cache, locks⟩ := step
    refine ⟨⟨fun key => ?_, fun key v h => ?_, fun key w h => ?_⟩, fun u other key held => ?_⟩
    · have kept := inv.keeps key
      rwa [Db.Keeps, log, store]
    · exact inv.valued key v (log ▸ h)
    · exact inv.cached key w (cache ▸ h)
    · exact ⟨(locks key u other).mpr held, by rw [log]⟩

theorem write_step {s : Db} {key : Bytes} (frame : Option Bytes) (origin : Origin)
    (inv : Inv registry values s) (held : s.locks key = some t)
    (keeps : (s.write t key frame origin).Keeps registry key)
    (valued : ∀ v, written key (s.write t key frame origin).log = some v → v ∈ values) :
    Inv registry values (s.write t key frame origin) ∧
      ∀ u, u ≠ t → Rely u s (s.write t key frame origin) := by
  have others : ∀ other, other ≠ key →
      written other (s.write t key frame origin).log = written other s.log := by
    intro other differs
    simp only [Db.write, written, if_neg differs.symm]
  refine ⟨⟨fun other => ?_, fun other v h => ?_, inv.cached⟩, fun u different other owned => ?_⟩
  · by_cases same : other = key
    · exact same ▸ keeps
    · have kept := inv.keeps other
      unfold Db.Keeps at kept ⊢
      rw [others other same]
      simpa only [Db.write, Function.update_of_ne same] using kept
  · by_cases same : other = key
    · exact valued v (same ▸ h)
    · exact inv.valued other v (others other same ▸ h)
  · have differs : other ≠ key := by
      rintro rfl
      rw [held] at owned
      cases owned
      exact different rfl
    exact ⟨owned, others other differs⟩

def Seen (registry : StreamRegistry) (frames values : Set Bytes) (frame : Bytes) : Prop :=
  frame ∈ frames ∧ ∃ v ∈ values, FrameOf registry frame v

def Guarded (registry : StreamRegistry) (frames : Set Bytes) (key frame : Bytes) (s : Db) : Prop :=
  frame ∈ frames ∧ ∃ v, written key s.log = some v ∧ FrameOf registry frame v

theorem Inv.stored {s : Db} {key frame : Bytes} (inv : Inv registry values s)
    (there : s.store key = some frame) :
    ∃ v ∈ values, written key s.log = some v ∧ FrameOf registry frame v := by
  have kept := inv.keeps key
  unfold Db.Keeps at kept
  cases last : written key s.log with
  | none =>
    rw [last] at kept
    exact absurd (kept.symm.trans there) (by simp)
  | some v =>
    rw [last] at kept
    obtain ⟨frame', there', holds⟩ := kept
    cases there.symm.trans there'
    exact ⟨v, inv.valued key v last, rfl, holds⟩

theorem guarded_stable (key frame : Bytes) : Stable (protocol registry frames values) t
    (fun s => s.locks key = some t ∧ True ∧ Guarded registry frames key frame s) := by
  rintro s s' ⟨held, _, member, v, last, holds⟩ moved _ _
  obtain ⟨held', same⟩ := moved key held
  exact ⟨held', trivial, member, v, same.trans last, holds⟩

def discipline (db : PiLsmDb) (frames values : Set Bytes) (t : Nat) (key : Bytes)
    (limit : UInt64) : Discipline (protocol db.reconstructor frames values) t db key limit where
  before _ := True
  after _ := True
  seen := Seen db.reconstructor frames values
  hit := Trusted values
  miss _ := True
  guarded := Guarded db.reconstructor frames key
  orderly := orderly
  steady := Steady.pure True
  steady' := Steady.pure True
  guarded_stable := guarded_stable key
  sees s frame _ inv good there := by
    obtain ⟨v, valued, _, holds⟩ := inv.stored there
    exact ⟨good key frame there, v, valued, holds⟩
  hits _ key w _ inv := inv.cached key w
  misses _ _ _ _ _ := trivial
  caches s pick frame p w _ inv seen decoded _ rebuilt := by
    obtain ⟨_, v, valued, holds⟩ := seen
    have rebuilt := (reconstructWithLimit_iff.mp rebuilt).2
    have same : w = v := Except.ok.inj (rebuilt.symm.trans (holds.decoded decoded))
    exact ⟨⟨inv.keeps, inv.valued, Trusted.insert pick inv.cached rebuilt (same ▸ valued)⟩,
      fun u _ other held => ⟨held, rfl⟩, trivial⟩
  guards s c held _ inv good there := by
    obtain ⟨v, _, last, holds⟩ := inv.stored there
    exact ⟨good key c there, v, last, holds⟩

theorem obtained_value {db : PiLsmDb} {key frame : Bytes} {limit : UInt64} {e : ValueEnvelope}
    {w : Bytes} (injective : ∀ kind, values.InjOn (computeLogicalHash kind))
    (seen : Seen db.reconstructor frames values frame)
    (decoded : ValueEnvelope.decode frame db.decodeLimits = .ok e)
    (obtained : (discipline db frames values t key limit).Obtained w e) :
    FrameOf db.reconstructor frame w := by
  obtain ⟨_, v, valued, holds⟩ := seen
  suffices same : w = v from same ▸ holds
  have content := holds.decoded decoded
  cases e with
  | raw bytes => exact Eq.trans obtained content.symm
  | plan p =>
    obtain ⟨_, hit | ⟨_, rebuilt⟩⟩ := obtained
    · exact Trusted.same injective hit content valued
    · exact Except.ok.inj (rebuilt.symm.trans content)

/-- Whatever happened since the read, the frame replaced holds the value planned. -/
theorem allows {db : PiLsmDb} (shared : db.planner.registry = db.reconstructor)
    (injective : frames.InjOn envelopeHash)
    (values_injective : ∀ kind, values.InjOn (computeLogicalHash kind)) {key : Bytes}
    {limit : UInt64} {options : PlanOptions} {due : Source → ReconstructionPlan → Prop} :
    (discipline db frames values t key limit).Allows options due := by
  rintro s source w clock plan c ⟨frame, seen, decoded, hash, _⟩ obtained planned _ sameHash
    held _ ⟨member, v, last, holds⟩ inv _ _
  have sameFrame : c = frame := injective member seen.1 (sameHash.trans hash)
  have planned_value : w = v := by
    obtain ⟨e, rfl, content⟩ := obtained_value values_injective seen decoded obtained
    rw [sameFrame] at holds
    have content' := holds.decoded decoded
    rw [decode_encode_sound decoded] at content'
    cases e with
    | raw bytes => exact Eq.trans content content'.symm
    | plan p => exact Except.ok.inj (content.symm.trans content')
  subst planned_value
  have rebuilt := (Planner.planWithOptions_made planned).rebuilds
  rw [shared] at rebuilt
  have log : written key (s.write t key (some (ValueEnvelope.plan plan).encode) .rewrite).log =
      some w := by
    simp only [Db.write, written, if_true]
    exact last
  obtain ⟨inv', others⟩ := write_step (some (ValueEnvelope.plan plan).encode) .rewrite inv held
    (by
      rw [Db.Keeps, log]
      exact ⟨_, Function.update_self .., .plan plan, rfl, rebuilt⟩)
    (fun v' h => by
      rw [log] at h
      cases h
      exact inv.valued key w last)
  exact fun _ => ⟨inv', others, trivial⟩

theorem put_safe {db : PiLsmDb} (shared : db.planner.registry = db.reconstructor)
    {key value : Bytes} (valued : value ∈ values) (options : PutOptions) :
    Triple dbMachine (protocol db.reconstructor frames values) t (fun _ => True)
      (db.putWithOptions key value options).run (onResult (fun _ _ => True) (fun _ => True)) := by
  refine orderly.put (Steady.pure True) (Steady.pure True) (fun s e stores held _ inv _ => ?_)
  have holds : e.Holds db.reconstructor value := by
    unfold PiLsmDb.Stores at stores
    split at stores
    · obtain ⟨plan, planned, rfl⟩ := stores
      exact Eq.trans (by rw [shared]) (Planner.planWithOptions_made planned).rebuilds
    · cases stores
      rfl
  have log : written key (s.write t key (some e.encode) (.put value)).log = some value := by
    simp [Db.write, written]
  obtain ⟨inv', others⟩ := write_step (some e.encode) (.put value) inv held
    (by
      rw [Db.Keeps, log]
      exact ⟨_, Function.update_self .., e, rfl, holds⟩)
    (fun v h => by
      rw [log] at h
      cases h
      exact valued)
  exact fun _ => ⟨inv', others, trivial⟩

theorem delete_safe {db : PiLsmDb} {key : Bytes} :
    Triple dbMachine (protocol db.reconstructor frames values) t (fun _ => True)
      (db.delete key).run (onResult (fun _ _ => True) (fun _ => True)) := by
  refine orderly.delete (Steady.pure True) (Steady.pure True) ?_
  intro s held _ inv _ s' _
  have log : written key s'.log = none := by simp [s', Db.write, written]
  obtain ⟨inv', others⟩ := write_step none .delete inv held
    (by
      rw [Db.Keeps, log]
      exact Function.update_self ..)
    (fun v h => by
      rw [log] at h
      cases h)
  exact ⟨inv', others, trivial⟩

theorem rewrite_safe {db : PiLsmDb} {key : Bytes} (limit : UInt64) {α : Type}
    {p : DbOp α} {post : α → Db → Prop}
    (h : Triple dbMachine (protocol db.reconstructor frames values) t
      (discipline db frames values t key limit).before p.run
      (onResult post (discipline db frames values t key limit).before)) :
    Triple dbMachine (protocol db.reconstructor frames values) t (fun _ => True) p.run
      (onResult (fun _ _ => True) (fun _ => True)) :=
  h.consequence (fun _ hs => hs) (fun r _ _ _ _ => by cases r <;> trivial)

theorem call_safe {db : PiLsmDb} (shared : db.planner.registry = db.reconstructor)
    (injective : frames.InjOn envelopeHash)
    (values_injective : ∀ kind, values.InjOn (computeLogicalHash kind))
    {p : Prog DbAct (Except PiLsmError Answer)} (call : ClientCalls db values p) (t : Nat) :
    Triple dbMachine (protocol db.reconstructor frames values) t (fun _ => True) p
      (fun _ _ => True) := by
  obtain ⟨call, rfl, valued⟩ := call
  suffices h : Triple dbMachine (protocol db.reconstructor frames values) t (fun _ => True)
      (call.op db).run (onResult (fun _ _ => True) (fun _ => True)) from
    h.consequence (fun _ hs => hs) (fun _ _ _ _ _ => trivial)
  have answered : ∀ {α : Type} {x : DbOp α} {f : α → Answer},
      Triple dbMachine (protocol db.reconstructor frames values) t (fun _ => True) x.run
        (onResult (fun _ _ => True) (fun _ => True)) →
      Triple dbMachine (protocol db.reconstructor frames values) t (fun _ => True)
        (x >>= fun a => pure (f a) : DbOp Answer).run
        (onResult (fun _ _ => True) (fun _ => True)) :=
    fun h => Triple.andThen h (Steady.pure True).stable
      (fun _ => Triple.pure (Steady.pure True).stable (fun _ _ _ _ => trivial))
  cases call with
  | put key value options => exact answered (put_safe shared (valued key value options rfl) options)
  | delete key => exact answered delete_safe
  | get key => exact answered (rewrite_safe _ (Discipline.get rfl))
  | planKey key options =>
    exact answered (rewrite_safe 0
      (Discipline.planKey (allows shared injective values_injective)))
  | vacuumMeaning key options =>
    exact answered (rewrite_safe _
      (Discipline.vacuumMeaning rfl (allows shared injective values_injective)))
  | replanKey key options =>
    exact answered (rewrite_safe _
      (Discipline.replanKey rfl (allows shared injective values_injective)))

theorem compaction_step {s s' : Db} (step : Compacts registry s s')
    (inv : Inv registry values s) : Inv registry values s' ∧ ∀ t, Rely t s s' := by
  obtain ⟨key, frame, frame', there, holds, rfl⟩ := step
  refine ⟨⟨fun other => ?_, inv.valued, inv.cached⟩, fun _ other held => ⟨held, rfl⟩⟩
  have kept := inv.keeps other
  by_cases same : other = key
  · subst same
    obtain ⟨v, _, last, content⟩ := inv.stored there
    change Db.Keeps _ { s with store := _ } other
    unfold Db.Keeps
    rw [show written other s.log = some v from last]
    exact ⟨frame', Function.update_self .., holds v content⟩
  · unfold Db.Keeps at kept ⊢
    simpa only [Function.update_of_ne same] using kept

end Durable

/-- In every interleaving of clients and compaction, each key holds what was last put. -/
theorem values_survive (db : PiLsmDb) (shared : db.planner.registry = db.reconstructor)
    (frames values : Set Bytes) (injective : frames.InjOn envelopeHash)
    (values_injective : ∀ kind, values.InjOn (computeLogicalHash kind))
    (cacheBytes : UInt64) {pool : Pool DbAct Db (Except PiLsmError Answer)}
    (reach : Pool.Reach dbMachine (ClientCalls db values) (Compacts db.reconstructor)
      (StoredIn frames) (Db.empty cacheBytes) pool) (key : Bytes) :
    pool.state.Keeps db.reconstructor key := by
  let fresh : Fresh (Durable.protocol db.reconstructor frames values) :=
    ⟨fun _ _ => True, fun _ _ _ _ _ => trivial⟩
  have start : Durable.Inv db.reconstructor values (Db.empty cacheBytes) :=
    ⟨fun _ => rfl, nofun, nofun⟩
  exact (Pool.Reach.kept (P := Durable.protocol db.reconstructor frames values) (F := fresh)
    (Q := fun _ _ _ => True) start (fun _ => trivial)
    (fun _ call t => Durable.call_safe shared injective values_injective call t)
    (fun _ _ step inv _ _ => Durable.compaction_step step inv) reach).inv.keeps key

section Sample

omit [Digests]

theorem sampleFrames_injective :
    letI := frameDigests
    ({sampleRawFrame, samplePlanFrame} : Set Bytes).InjOn envelopeHash := by
  let _ := frameDigests
  have differs : envelopeHash sampleRawFrame ≠ envelopeHash samplePlanFrame := by decide
  exact Set.injOn_pair.mpr (fun same => absurd same differs)

theorem samplePlanFrame_holds {v : Bytes} :
    letI := frameDigests
    FrameOf ⟨[]⟩ sampleRawFrame v → FrameOf ⟨[]⟩ samplePlanFrame v := by
  let _ := frameDigests
  intro held
  have decoded : ValueEnvelope.decode sampleRawFrame .default = .ok (.raw [0x61]) := by decide
  have rebuilt : reconstruct ⟨[]⟩ samplePlan = .ok [0x61] := by decide
  have planned : samplePlanFrame = (ValueEnvelope.plan samplePlan).encode := by decide
  obtain rfl : v = [0x61] := held.decoded decoded
  exact ⟨.plan samplePlan, planned, rebuilt⟩

/-- Between the read of plan_key and its write the frame is compacted, deleted and put again. It
is the frame that was read, so it is replaced by its plan. -/
theorem values_survive_sample :
    letI := frameDigests
    ∃ (pool : Pool DbAct Db (Except PiLsmError Answer)) (report : PlanReport),
      pool.threads[1]? = some (.done (.ok (.report report))) ∧ report.status = .rewritten ∧
      pool.state.log = [⟨1, [0x6b], .rewrite⟩, ⟨3, [0x6b], .put [0x61]⟩, ⟨2, [0x6b], .delete⟩,
        ⟨0, [0x6b], .put [0x61]⟩] ∧
      pool.state.Keeps ⟨[]⟩ [0x6b] := by
  let _ := frameDigests
  let db := sampleDb .default
  let o : Oracle := ⟨stopped, 0, fun _ => 0⟩
  let frames : Set Bytes := {sampleRawFrame, samplePlanFrame}
  let calls := ClientCalls db {[0x61]}
  let Moves := Pool.Step dbMachine calls (Compacts ⟨[]⟩)
  let Run := Pool.Reach dbMachine calls (Compacts ⟨[]⟩) (StoredIn frames) (Db.empty 0)
  have put : calls (Call.op db (.put [0x6b] [0x61] ⟨false, false⟩)).run := by
    refine ⟨_, rfl, ?_⟩
    rintro key value options ⟨⟩
    rfl
  have plan : calls (Call.op db (.planKey [0x6b] (barePlanner true).options)).run :=
    ⟨_, rfl, nofun⟩
  have delete : calls (Call.op db (.delete [0x6b])).run := ⟨_, rfl, nofun⟩
  have quiet : ∀ {s s' ts ts'}, Run ⟨s, ts⟩ → Moves ⟨s, ts⟩ ⟨s', ts'⟩ → s'.store = s.store →
      Run ⟨s', ts'⟩ := fun run move same => run.step move (run.good.kept same)
  have writes : ∀ {s s' ts ts'} (found : Option Bytes), Run ⟨s, ts⟩ → Moves ⟨s, ts⟩ ⟨s', ts'⟩ →
      s'.store = Function.update s.store [0x6b] found →
      (∀ frame, found = some frame → frame ∈ frames) → Run ⟨s', ts'⟩ :=
    fun found run move changed member => run.step move (run.good.update changed member)
  have raw : (ValueEnvelope.raw [0x61]).encode = sampleRawFrame := by decide
  have freed : ∀ α : Type, Function.update (fun _ : Bytes => (none : Option α)) [0x6b] none =
      fun _ => none := fun α => Function.update_eq_self ..
  -- Thread 0 puts the value.
  have run : Run _ := Pool.Reach.start (no_frame rfl)
  replace run := quiet run (.spawn put) rfl
  replace run := quiet run (.act (t := 0) (o := o) rfl rfl) rfl
  replace run := writes _ run (.act (t := 0) (o := o) rfl rfl) rfl
    (by rintro frame ⟨⟩; exact Or.inl raw)
  replace run := quiet run (.act (t := 0) (o := o) rfl rfl) rfl
  simp only [Db.empty, Db.write, Function.update_idem, freed, raw, List.nil_append,
    List.set_cons_zero] at run
  -- Thread 1 locks the key, reads, unlocks and plans.
  replace run := quiet run (.spawn plan) rfl
  replace run := quiet run (.act (t := 1) (o := o) rfl rfl) rfl
  replace run := quiet run (.act (t := 1) (o := o) rfl rfl) rfl
  replace run := quiet run (.act (t := 1) (o := o) rfl rfl) rfl
  replace run := quiet run (.act (t := 1) (o := o) rfl rfl) rfl
  replace run := quiet run (.act (t := 1) (o := o) rfl rfl) rfl
  simp only [Db.count, Function.update_idem, freed, List.cons_append, List.nil_append,
    List.set_cons_zero, List.set_cons_succ] at run
  -- The frame is compacted, deleted by thread 2 and put again by thread 3.
  replace run := writes _ run (.env ⟨[0x6b], sampleRawFrame, samplePlanFrame, rfl,
    fun _ => samplePlanFrame_holds, rfl⟩) rfl (by rintro frame ⟨⟩; exact Or.inr rfl)
  replace run := quiet run (.spawn delete) rfl
  replace run := quiet run (.act (t := 2) (o := o) rfl rfl) rfl
  replace run := writes _ run (.act (t := 2) (o := o) rfl rfl) rfl nofun
  replace run := quiet run (.act (t := 2) (o := o) rfl rfl) rfl
  simp only [Db.write, Function.update_idem, freed, List.cons_append, List.nil_append,
    List.set_cons_zero, List.set_cons_succ] at run
  replace run := quiet run (.spawn put) rfl
  replace run := quiet run (.act (t := 3) (o := o) rfl rfl) rfl
  replace run := writes _ run (.act (t := 3) (o := o) rfl rfl) rfl
    (by rintro frame ⟨⟩; exact Or.inl raw)
  replace run := quiet run (.act (t := 3) (o := o) rfl rfl) rfl
  simp only [Db.write, Function.update_idem, freed, raw, List.cons_append, List.nil_append,
    List.set_cons_zero, List.set_cons_succ] at run
  -- Thread 1 locks the key again, finds the hash it remembers and writes.
  replace run := quiet run (.act (t := 1) (o := o) rfl rfl) rfl
  replace run := quiet run (.act (t := 1) (o := o) rfl rfl) rfl
  replace run := writes _ run (.act (t := 1) (o := o) rfl rfl) rfl
    (by rintro frame ⟨⟩; exact Or.inr (by decide))
  replace run := quiet run (.act (t := 1) (o := o) rfl rfl) rfl
  replace run := quiet run (.act (t := 1) (o := o) rfl rfl) rfl
  exact ⟨_, ⟨.rewritten, some (envelopeHash sampleRawFrame), some 32, some 39, none, some 1⟩,
    rfl, rfl, rfl, values_survive db rfl frames _ sampleFrames_injective (by simp) 0 run [0x6b]⟩

end Sample

end PiLSMer
