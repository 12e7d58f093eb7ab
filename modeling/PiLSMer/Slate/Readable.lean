import PiLSMer.Slate.Solo

/-! A key that can be read before a rewrite can be read after it, unless the plan written is
beyond the limits of the handle: the planner does not know them, and nothing checks the new
frame before it replaces the old one. -/
namespace PiLSMer
open Interleave

variable [Digests]

def PiLsmDb.Gets (db : PiLsmDb) (s : Db) (key v : Bytes) : Prop :=
  ∀ o t, ∃ s', alone dbMachine o t (db.get key).run s = some (.ok (some v), s')

theorem PiLsmDb.gets_iff {db : PiLsmDb} {s : Db} {key v : Bytes} :
    db.Gets s key v ↔ ∃ frame e, s.store key = some frame ∧
      ValueEnvelope.decode frame db.decodeLimits = .ok e ∧
      db.recoverEnvelope s.cache db.maxReconstructBytes e = .ok v := by
  have whole : db.Gets s key v ↔ db.reading s key = .ok (some v) := by
    constructor
    · intro h
      obtain ⟨s', run⟩ := h ⟨stopped, 0, fun _ => 0⟩ 0
      obtain ⟨s'', run'⟩ := alone_get db key (o := ⟨stopped, 0, fun _ => 0⟩) (t := 0)
        (s := s)
      rw [run, Option.some.injEq, Prod.mk.injEq] at run'
      exact run'.1.symm
    · intro h o t
      obtain ⟨s', run⟩ := alone_get db key (o := o) (t := t) (s := s)
      exact ⟨s', h ▸ run⟩
  rw [whole, PiLsmDb.reading]
  cases s.store key with
  | none => simp
  | some frame =>
    cases decoded : ValueEnvelope.decode frame db.decodeLimits with
    | error e => simp [decoded]
    | ok e =>
      cases content : db.recoverEnvelope s.cache db.maxReconstructBytes e <;>
        simp [decoded, content, Except.map]

inductive Rewriting where
  | planKey (options : PlanOptions)
  | vacuumMeaning (options : VacuumOptions)
  | replanKey (options : VacuumOptions)

def Rewriting.op (db : PiLsmDb) (key : Bytes) : Rewriting → DbOp PlanReport
  | .planKey options => db.planKey key options
  | .vacuumMeaning options => db.vacuumMeaning key options
  | .replanKey options => db.replanKey key options

def Rewriting.planOptions : Rewriting → PlanOptions
  | .planKey options => options
  | .vacuumMeaning options => options.planOptions
  | .replanKey options => options.planOptions

def Rewriting.limit (db : PiLsmDb) : Rewriting → UInt64
  | .planKey _ => db.maxReconstructBytes
  | .vacuumMeaning options => db.callLimit options
  | .replanKey options => db.callLimit options

/-- Whether a plan of its value is to replace a frame with this content. -/
def Rewriting.Wants (db : PiLsmDb) (frame : Bytes) (e : ValueEnvelope)
    (plan : ReconstructionPlan) : Rewriting → Prop
  | .planKey _ => ∃ b, e = .raw b
  | .vacuumMeaning options => ∀ old, e = .plan old → old.logicalLen ≤ db.callLimit options ∧
      planImproved frame.length old.chunks.length (ValueEnvelope.plan plan).encode.length
        plan.chunks.length = true
  | .replanKey options => (∀ old, e = .plan old → old.logicalLen ≤ db.callLimit options) ∧
      ¬ ((ValueEnvelope.plan plan).encode.length = frame.length ∧
        envelopeHash (ValueEnvelope.plan plan).encode = envelopeHash frame)

theorem Rewriting.triple {P : Protocol Db} {t : Nat} {db : PiLsmDb} {key : Bytes}
    (rewriting : Rewriting) (R : Discipline P t db key (rewriting.limit db))
    (allows : R.Allows rewriting.planOptions (fun source plan =>
      ∀ frame, source.hash = envelopeHash frame → source.bytes = frame.length →
        (∀ old, source.envelope = .plan old → old.logicalLen ≤ rewriting.limit db) →
        rewriting.Wants db frame source.envelope plan)) :
    Triple dbMachine P t R.before (rewriting.op db key).run (onResult R.Ends R.before) := by
  cases rewriting with
  | planKey options =>
    refine Discipline.planKey (fun s source w clock plan c read obtained planned raw => ?_)
    exact allows s source w clock plan c read obtained planned (fun _ _ _ _ => raw)
  | vacuumMeaning options =>
    refine Discipline.vacuumMeaning rfl
      (fun s source w clock plan c read obtained planned better => ?_)
    refine allows s source w clock plan c read obtained planned
      (fun frame hash bytes within old isPlan => ⟨within old isPlan, ?_⟩)
    exact bytes ▸ better old isPlan
  | replanKey options =>
    refine Discipline.replanKey rfl
      (fun s source w clock plan c read obtained planned other => ?_)
    refine allows s source w clock plan c read obtained planned
      (fun frame hash bytes within => ⟨within, ?_⟩)
    exact hash ▸ bytes ▸ other

theorem Rewriting.alone_writes {db : PiLsmDb} {o : Oracle} {t : Nat} {s : Db} {frame v : Bytes}
    {e : ValueEnvelope} {plan : ReconstructionPlan} (rewriting : Rewriting) (key : Bytes)
    (free : s.locks key = none) (there : s.store key = some frame)
    (decoded : ValueEnvelope.decode frame db.decodeLimits = .ok e)
    (content : db.recoverEnvelope s.cache db.maxReconstructBytes e = .ok v)
    (planned : db.planner.planWithOptions o.clock v rewriting.planOptions = .ok plan)
    (wants : rewriting.Wants db frame e plan) :
    ∃ report s', alone dbMachine o t (rewriting.op db key).run s = some (.ok report, s') ∧
      s'.store = Function.update s.store key (some (ValueEnvelope.plan plan).encode) := by
  have recovered : ∀ limit, (∀ old, e = .plan old → old.logicalLen ≤ limit) →
      db.recoverEnvelope s.cache limit e = .ok v := by
    intro limit within
    cases e with
    | raw bytes => exact content
    | plan old =>
      exact PiLsmDb.recover_iff.mpr ⟨within old rfl, (PiLsmDb.recover_iff.mp content).2⟩
  have written : ∀ {chosen : Option ReconstructionPlan} {r : Except PiLsmError PlanReport}
      {s' : Db}, chosen = some plan → s.Rewrote key chosen r s' → ∃ report, r = .ok report ∧
        s'.store = Function.update s.store key (some (ValueEnvelope.plan plan).encode) := by
    rintro chosen r s' rfl ⟨_, ⟨report, done, _⟩, store⟩
    exact ⟨report, done, store⟩
  have chosen : ∀ unwanted : Bytes → Nat → Bool,
      unwanted (ValueEnvelope.plan plan).encode plan.chunks.length = false →
      db.choice o.clock v rewriting.planOptions unwanted = some plan := by
    intro unwanted wanted
    simp [PiLsmDb.choice, planned, wanted]
  cases rewriting with
  | planKey options =>
    obtain ⟨b, rfl⟩ := wants
    obtain ⟨r, s', run, rewrote, _⟩ := alone_planKey db (o := o) (t := t) free options
    rw [there, Option.bind_some, PiLsmDb.planKeyChoice, decoded] at rewrote
    cases content
    obtain ⟨report, rfl, store⟩ := written (chosen _ rfl) rewrote
    exact ⟨report, s', run, store⟩
  | vacuumMeaning options =>
    obtain ⟨r, s', run, rewrote, _⟩ := alone_vacuumMeaning db (o := o) (t := t) free options
    rw [there, Option.bind_some, PiLsmDb.vacuumChoice, decoded] at rewrote
    cases e with
    | raw b =>
      cases content
      obtain ⟨report, rfl, store⟩ := written (chosen _ rfl) rewrote
      exact ⟨report, s', run, store⟩
    | plan old =>
      obtain ⟨within, better⟩ := wants old rfl
      have content : db.recover s.cache old (db.callLimit options) = .ok v :=
        recovered _ (fun _ same => by cases same; exact within)
      simp only [content] at rewrote
      obtain ⟨report, rfl, store⟩ := written (chosen _ (by simp [better])) rewrote
      exact ⟨report, s', run, store⟩
  | replanKey options =>
    obtain ⟨within, other⟩ := wants
    obtain ⟨r, s', run, rewrote, _⟩ := alone_replanKey db (o := o) (t := t) free options
    rw [there, Option.bind_some, PiLsmDb.replanChoice, decoded] at rewrote
    simp only [recovered _ within] at rewrote
    obtain ⟨report, rfl, store⟩ := written (chosen _ (by simpa using other)) rewrote
    exact ⟨report, s', run, store⟩

/-- Steps of others that do not write the key, nor make it unreadable. What they cache they
cache under its own hash. -/
structure Bystanders (db : PiLsmDb) (values : Set Bytes) (key v : Bytes) (t : Nat) (s s' : Db) :
    Prop where
  store : s'.store key = s.store key
  locks : ∀ k, s.locks k = some t → s'.locks k = some t
  gets : db.Gets s key v → db.Gets s' key v
  cached : ∀ k w, s'.cache.get k = some w → s.cache.get k = some w ∨ Trusted values k w

namespace Readable

structure Inv (db : PiLsmDb) (values : Set Bytes) (key v : Bytes) (s : Db) : Prop where
  gets : db.Gets s key v
  cached : ∀ k w, s.cache.get k = some w → Trusted values k w

variable {db : PiLsmDb} {values : Set Bytes} {key v : Bytes} {t : Nat}

def protocol (db : PiLsmDb) (values : Set Bytes) (key v : Bytes) (t : Nat) : Protocol Db where
  good _ := True
  inv := Inv db values key v
  rely u s s' := u = t → Bystanders db values key v t s s'
  refl _ _ _ := ⟨rfl, fun _ h => h, fun h => h, fun _ _ h => Or.inl h⟩
  trans u s s' s'' first second same := by
    obtain ⟨store, locks, gets, cached⟩ := first same
    obtain ⟨store', locks', gets', cached'⟩ := second same
    refine ⟨store'.trans store, fun k h => locks' k (locks k h), fun h => gets' (gets h),
      fun k w h => ?_⟩
    obtain before | trusted := cached' k w h
    · exact cached k w before
    · exact Or.inr trusted

theorem gets_congr {s s' : Db} (store : s'.store = s.store) (cache : s'.cache = s.cache)
    (h : db.Gets s key v) : db.Gets s' key v := by
  rw [PiLsmDb.gets_iff] at h ⊢
  rwa [store, cache]

theorem orderly : Orderly (protocol db values key v t) t key where
  locks _ _ moved held := (moved rfl).locks key held
  quiet s s' step inv := by
    refine ⟨⟨gets_congr step.store step.cache inv.gets, fun k w h => inv.cached k w ?_⟩,
      fun u other same => absurd same other⟩
    rwa [step.cache] at h

def Hit (e : ValueEnvelope) (v : Bytes) (k : ReconstructionCacheKey) (w : Bytes) : Prop :=
  ∀ p, e = .plan p → reconstructionCacheKey p = k → w = v

def Miss (db : PiLsmDb) (e : ValueEnvelope) (v : Bytes) (k : ReconstructionCacheKey) : Prop :=
  ∀ p, e = .plan p → reconstructionCacheKey p = k → reconstruct db.reconstructor p = .ok v

theorem Inv.content {s : Db} {frame : Bytes} {e : ValueEnvelope} (inv : Inv db values key v s)
    (there : s.store key = some frame)
    (decoded : ValueEnvelope.decode frame db.decodeLimits = .ok e) :
    db.recoverEnvelope s.cache db.maxReconstructBytes e = .ok v := by
  obtain ⟨frame', e', there', decoded', content⟩ := PiLsmDb.gets_iff.mp inv.gets
  cases there.symm.trans there'
  cases decoded.symm.trans decoded'
  exact content

theorem Inv.fills {s : Db} {frame : Bytes} {p : ReconstructionPlan} {w : Bytes} (pick : Victim)
    (inv : Inv db values key v s) (valued : v ∈ values) (there : s.store key = some frame)
    (decoded : ValueEnvelope.decode frame db.decodeLimits = .ok (.plan p))
    (rebuilt : reconstruct db.reconstructor p = .ok v) (same : w = v) :
    Inv db values key v { s with cache := s.cache.insert pick (reconstructionCacheKey p) w } := by
  subst same
  obtain ⟨within, _⟩ := PiLsmDb.recover_iff.mp (inv.content there decoded)
  constructor
  · refine PiLsmDb.gets_iff.mpr ⟨frame, _, there, decoded, PiLsmDb.recover_iff.mpr ⟨within, ?_⟩⟩
    cases found : (s.cache.insert pick (reconstructionCacheKey p) w).get
        (reconstructionCacheKey p) with
    | none => exact Or.inr ⟨rfl, rebuilt⟩
    | some x =>
      obtain before | ⟨_, rfl⟩ := insert_get found
      · obtain ⟨_, hit | ⟨miss, _⟩⟩ := PiLsmDb.recover_iff.mp (inv.content there decoded)
        · exact Or.inl (before.symm.trans hit)
        · rw [miss] at before
          cases before
      · exact Or.inl rfl
  · exact Trusted.insert pick inv.cached rebuilt valued

def discipline {frame : Bytes} {e : ValueEnvelope} (key : Bytes) (valued : v ∈ values)
    (decoded : ValueEnvelope.decode frame db.decodeLimits = .ok e) (limit : UInt64) :
    Discipline (protocol db values key v t) t db key limit where
  before s := s.store key = some frame
  after _ := True
  seen f := f = frame
  hit := Hit e v
  miss := Miss db e v
  guarded _ _ := True
  orderly := orderly
  steady := ⟨fun s s' there moved _ _ => (moved rfl).store.trans there,
    fun s s' step there => step.store ▸ there⟩
  steady' := Steady.pure True
  guarded_stable _ s s' hs moved _ _ :=
    ⟨(moved rfl).locks key hs.1, (moved rfl).store.trans hs.2.1, trivial⟩
  sees s f there _ _ there' := Option.some.inj (there'.symm.trans there)
  hits s k w there inv cached p same sameKey := by
    subst same sameKey
    obtain ⟨_, hit | ⟨miss, _⟩⟩ := PiLsmDb.recover_iff.mp (inv.content there decoded)
    · exact Option.some.inj (cached.symm.trans hit)
    · rw [miss] at cached
      cases cached
  misses s k there inv cached p same sameKey := by
    subst same sameKey
    obtain ⟨_, hit | ⟨_, rebuilt⟩⟩ := PiLsmDb.recover_iff.mp (inv.content there decoded)
    · rw [hit] at cached
      cases cached
    · exact rebuilt
  caches s pick f p w there inv seen decoded' miss rebuilt := by
    subst seen
    cases decoded.symm.trans decoded'
    have rebuilt' := miss p rfl rfl
    have same : w = v :=
      Except.ok.inj ((reconstructWithLimit_iff.mp rebuilt).2.symm.trans rebuilt')
    exact ⟨inv.fills pick valued there decoded rebuilt' same,
      fun u other same => absurd same other, there⟩
  guards _ _ _ _ _ _ _ := trivial

theorem written_readable {s : Db} {options : PlanOptions} {clock : Nat → Nat}
    {plan : ReconstructionPlan} (shared : db.planner.registry = db.reconstructor)
    (injective : ∀ kind, values.InjOn (computeLogicalHash kind)) (valued : v ∈ values)
    (small : v.length ≤ db.maxReconstructBytes.toNat)
    (cached : ∀ k w, s.cache.get k = some w → Trusted values k w)
    (there : s.store key = some (ValueEnvelope.plan plan).encode)
    (planned : db.planner.planWithOptions clock v options = .ok plan)
    (admitted : plan.Admitted db.decodeLimits) : db.Gets s key v := by
  have made := Planner.planWithOptions_made planned
  have bound : v.length < 2 ^ 64 := Nat.lt_of_le_of_lt small db.maxReconstructBytes.toNat_lt
  have rebuilt : reconstruct db.reconstructor plan = .ok v := shared ▸ made.rebuilds
  refine PiLsmDb.gets_iff.mpr ⟨_, .plan plan, there,
    made.decodes bound admitted, PiLsmDb.recover_iff.mpr ⟨made.logicalLen_le small, ?_⟩⟩
  cases found : s.cache.get (reconstructionCacheKey plan) with
  | none => exact Or.inr ⟨rfl, rebuilt⟩
  | some w => exact Or.inl (congrArg some ((cached _ w found).same injective rebuilt valued))

theorem readable_admitted {s : Db} {options : PlanOptions} {clock : Nat → Nat}
    {plan : ReconstructionPlan} (small : v.length < 2 ^ 64)
    (there : s.store key = some (ValueEnvelope.plan plan).encode)
    (planned : db.planner.planWithOptions clock v options = .ok plan)
    (readable : db.Gets s key v) : plan.Admitted db.decodeLimits := by
  obtain ⟨frame, e, there', decoded, _⟩ := PiLsmDb.gets_iff.mp readable
  cases there.symm.trans there'
  exact ((Planner.planWithOptions_made planned).wellFormed_iff small _).mp
    (decode_encode_plan.mp decoded).1

theorem release {s : Db} (foreign : s.locks key ≠ some t) :
    Bystanders db values key v t s { s with locks := Function.update s.locks key none } := by
  refine ⟨rfl, fun k held => ?_, gets_congr rfl rfl, fun _ _ h => Or.inl h⟩
  have other : k ≠ key := fun same => foreign (same ▸ held)
  exact (Function.update_of_ne other ..).trans held

theorem obtained_value {frame : Bytes} {e : ValueEnvelope} {limit : UInt64} {s : Db} {w : Bytes}
    (valued : v ∈ values) (decoded : ValueEnvelope.decode frame db.decodeLimits = .ok e)
    (content : db.recoverEnvelope s.cache db.maxReconstructBytes e = .ok v)
    (obtained : (discipline (t := t) key valued decoded limit).Obtained w e) : w = v := by
  cases e with
  | raw bytes => exact Eq.trans obtained (Except.ok.inj content)
  | plan p =>
    obtain ⟨_, hit | ⟨miss, rebuilt⟩⟩ := obtained
    · exact hit p rfl rfl
    · exact Except.ok.inj (rebuilt.symm.trans (miss p rfl rfl))

theorem keeps {s s' : Db} (move : Bystanders db values key v t s s')
    (inv : Inv db values key v s) :
    Inv db values key v s' ∧ (protocol db values key v t).rely t s s' := by
  refine ⟨⟨move.gets inv.gets, fun k w h => ?_⟩, fun _ => move⟩
  obtain before | trusted := move.cached k w h
  · exact inv.cached k w before
  · exact trusted

theorem allows {frame : Bytes} {e : ValueEnvelope} {s : Db}
    (shared : db.planner.registry = db.reconstructor)
    (injective : ∀ kind, values.InjOn (computeLogicalHash kind)) (valued : v ∈ values)
    (small : v.length ≤ db.maxReconstructBytes.toNat)
    (decoded : ValueEnvelope.decode frame db.decodeLimits = .ok e)
    (content : db.recoverEnvelope s.cache db.maxReconstructBytes e = .ok v) (rewriting : Rewriting)
    (admits : ∀ plan, db.planner.planWithOptions stopped v rewriting.planOptions = .ok plan →
      rewriting.Wants db frame e plan → plan.Admitted db.decodeLimits) :
    (discipline (t := t) key valued decoded (rewriting.limit db)).Allows rewriting.planOptions
      (fun source plan =>
        ∀ frame, source.hash = envelopeHash frame → source.bytes = frame.length →
          (∀ old, source.envelope = .plan old → old.logicalLen ≤ rewriting.limit db) →
          rewriting.Wants db frame source.envelope plan) := by
  rintro s₁ source w clock plan c ⟨f, same, isContent, hash, bytes⟩ obtained planned due _ _ _ _
    inv _ _
  rw [show f = frame from same] at isContent hash bytes
  have sameContent : source.envelope = e := Except.ok.inj (isContent.symm.trans decoded)
  have wants := due frame hash bytes (fun old isPlan => by
    rw [isPlan] at obtained
    exact obtained.1)
  rw [sameContent] at obtained wants
  have isValue : w = v := obtained_value valued decoded content obtained
  subst isValue
  have admitted := admits plan (Planner.planWithOptions_stopped planned) wants
  have readable := written_readable shared injective valued small inv.cached
    (s := s₁.write t key (some (ValueEnvelope.plan plan).encode) .rewrite)
    (Function.update_self ..) planned admitted
  exact fun _ => ⟨⟨readable, inv.cached⟩, fun u other same => absurd same other, trivial⟩

end Readable

/-- A rewrite that reports keeps the key readable exactly when the plan it wants is one that
the handle can decode. -/
theorem rewrite_keeps_readable_iff (db : PiLsmDb) (shared : db.planner.registry = db.reconstructor)
    (values : Set Bytes) (injective : ∀ kind, values.InjOn (computeLogicalHash kind))
    {key v : Bytes} (valued : v ∈ values) (small : v.length ≤ db.maxReconstructBytes.toNat)
    (rewriting : Rewriting) {s : Db} (readable : db.Gets s key v)
    (cached : ∀ k w, s.cache.get k = some w → Trusted values k w) :
    (∀ t report s', Runs dbMachine (Bystanders db values key v t) t (rewriting.op db key).run s
      (.ok report) s' → db.Gets s' key v) ↔
    ∀ frame e plan, s.store key = some frame →
      ValueEnvelope.decode frame db.decodeLimits = .ok e →
      db.planner.planWithOptions stopped v rewriting.planOptions = .ok plan →
      rewriting.Wants db frame e plan → plan.Admitted db.decodeLimits := by
  obtain ⟨frame, e, there, decoded, content⟩ := PiLsmDb.gets_iff.mp readable
  have bound : v.length < 2 ^ 64 := Nat.lt_of_le_of_lt small db.maxReconstructBytes.toNat_lt
  constructor
  · intro keeps frame' e' plan there' decoded' planned wants
    cases there.symm.trans there'
    cases decoded.symm.trans decoded'
    obtain ⟨t, foreign⟩ := s.foreign_thread key
    let o : Oracle := ⟨stopped, 0, fun _ => 0⟩
    obtain ⟨report, s', run, store⟩ := rewriting.alone_writes (o := o) (t := t)
      (s := { s with locks := Function.update s.locks key none }) key (Function.update_self ..)
      there decoded content planned wants
    have after := keeps t report s' (Runs.env (Readable.release foreign) (alone_runs run))
    exact Readable.readable_admitted bound (store ▸ Function.update_self ..) planned after
  · intro admits t report s' run
    have safe := rewriting.triple (Readable.discipline (t := t) key valued decoded _)
      (Readable.allows shared injective valued small decoded content rewriting
        (fun plan => admits frame e plan there decoded)) s there
    exact (Runs.safe (P := Readable.protocol db values key v t) (fun _ => trivial)
      (fun _ _ move inv => Readable.keeps move inv) run safe ⟨readable, cached⟩).1.gets

omit [Digests] in
/-- plan_key replaces a readable raw frame by a plan frame too long for the handle. -/
theorem plan_key_loses_value :
    ¬ ∀ [Digests] (db : PiLsmDb) (values : Set Bytes) (key v : Bytes) (rewriting : Rewriting)
      (s : Db), db.planner.registry = db.reconstructor →
      (∀ kind, values.InjOn (computeLogicalHash kind)) → v ∈ values →
      v.length ≤ db.maxReconstructBytes.toNat → db.Gets s key v →
      (∀ k w, s.cache.get k = some w → Trusted values k w) →
      ∀ t report s', Runs dbMachine (Bystanders db values key v t) t (rewriting.op db key).run s
        (.ok report) s' → db.Gets s' key v := by
  intro claim
  let _ := sampleDigests
  let db := sampleDb narrowLimits
  let options := (barePlanner true).options
  have decoded : ValueEnvelope.decode sampleRawFrame db.decodeLimits = .ok (.raw [0x61]) := by
    decide
  have planned : db.planner.planWithOptions stopped [0x61] options = .ok samplePlan := by decide
  have readable : db.Gets sampleState [0x6b] [0x61] :=
    PiLsmDb.gets_iff.mpr ⟨sampleRawFrame, _, rfl, decoded, rfl⟩
  obtain ⟨report, s', run, store⟩ := (Rewriting.planKey options).alone_writes
    (o := ⟨stopped, 0, fun _ => 0⟩) (t := 0) (s := sampleState) [0x6b] rfl rfl
    decoded rfl planned ⟨_, rfl⟩
  have after := claim db {[0x61]} [0x6b] [0x61] (.planKey options) sampleState rfl (by simp) rfl
    (by decide) readable nofun 0 report s' (alone_runs run)
  have admitted := Readable.readable_admitted (by decide) (store ▸ Function.update_self ..) planned
    after
  exact absurd admitted.encoded (by decide)

omit [Digests] in
theorem rewrite_keeps_readable_sample :
    letI := sampleDigests
    ∃ report s', Runs dbMachine (Bystanders (sampleDb .default) {[0x61]} [0x6b] [0x61] 0) 0
      ((sampleDb .default).planKey [0x6b] (barePlanner true).options).run sampleState
        (.ok report) s' ∧
      s'.store [0x6b] = some samplePlanFrame ∧
      (sampleDb .default).Gets s' [0x6b] [0x61] := by
  let _ := sampleDigests
  let db := sampleDb .default
  let options := (barePlanner true).options
  have decoded : ValueEnvelope.decode sampleRawFrame db.decodeLimits = .ok (.raw [0x61]) := by
    decide
  have found : db.planner.planWithOptions stopped [0x61] options = .ok samplePlan := by decide
  have readable : db.Gets sampleState [0x6b] [0x61] :=
    PiLsmDb.gets_iff.mpr ⟨sampleRawFrame, _, rfl, decoded, rfl⟩
  obtain ⟨report, s', run, store⟩ := (Rewriting.planKey options).alone_writes
    (o := ⟨stopped, 0, fun _ => 0⟩) (t := 0) (s := sampleState) [0x6b] rfl rfl
    decoded rfl found ⟨_, rfl⟩
  refine ⟨report, s', alone_runs run, ?_, ?_⟩
  · rw [store, Function.update_self]
    decide
  refine (rewrite_keeps_readable_iff db rfl {[0x61]} (by simp) rfl (by decide)
    (.planKey options) readable nofun).mpr ?_ 0 report s' (alone_runs run)
  intro frame e plan _ _ planned _
  cases found.symm.trans planned
  exact ⟨by decide, by decide, by decide, by decide, by decide, by decide, by decide⟩

end PiLSMer
