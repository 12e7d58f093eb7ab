import PiLSMer.Slate.Rewrite

/-! One client at a time. With nobody else around a rewrite is a function: what it writes is
computed from the stored frame, the cache and the planner, and the rest of the store stays. -/
namespace PiLSMer
open Interleave

variable [Digests]

/-- The bytes of a plan, from the cache or from the streams. -/
def PiLsmDb.recover (db : PiLsmDb) (cache : ReconstructionCacheState) (p : ReconstructionPlan)
    (limit : UInt64) : Except PiLsmError Bytes :=
  if limit < p.logicalLen then .error (.decodeLimitExceeded "max_reconstruct_bytes")
  else
    match cache.get (reconstructionCacheKey p) with
    | some w => .ok w
    | none => reconstructWithLimit db.reconstructor p limit

theorem PiLsmDb.recover_iff {db : PiLsmDb} {cache : ReconstructionCacheState}
    {p : ReconstructionPlan} {limit : UInt64} {v : Bytes} :
    db.recover cache p limit = .ok v ↔ p.logicalLen ≤ limit ∧
      (cache.get (reconstructionCacheKey p) = some v ∨
        cache.get (reconstructionCacheKey p) = none ∧ reconstruct db.reconstructor p = .ok v) := by
  unfold PiLsmDb.recover
  by_cases large : limit < p.logicalLen
  · simp [large, UInt64.not_le.mpr large]
  · have within : p.logicalLen ≤ limit := UInt64.not_lt.mp large
    cases cache.get (reconstructionCacheKey p) with
    | some w => simp [large, within]
    | none => simp [large, within, reconstructWithLimit_iff]

def PiLsmDb.refill (db : PiLsmDb) (pick : Victim) (cache : ReconstructionCacheState)
    (p : ReconstructionPlan) (limit : UInt64) : ReconstructionCacheState :=
  if limit < p.logicalLen then cache
  else
    match cache.get (reconstructionCacheKey p) with
    | some _ => cache
    | none =>
      match reconstructWithLimit db.reconstructor p limit with
      | .ok w => cache.insert pick (reconstructionCacheKey p) w
      | .error _ => cache

theorem PiLsmDb.refill_get {db : PiLsmDb} {pick : Victim} {cache : ReconstructionCacheState}
    {p : ReconstructionPlan} {limit : UInt64} {k : ReconstructionCacheKey} {w : Bytes}
    (h : (db.refill pick cache p limit).get k = some w) : cache.get k = some w ∨
      (k = reconstructionCacheKey p ∧ reconstruct db.reconstructor p = .ok w) := by
  unfold PiLsmDb.refill at h
  split at h
  · exact Or.inl h
  split at h
  · exact Or.inl h
  split at h
  · rename_i rebuilt
    obtain before | ⟨rfl, rfl⟩ := insert_get h
    · exact Or.inl before
    · exact Or.inr ⟨rfl, (reconstructWithLimit_iff.mp rebuilt).2⟩
  · exact Or.inl h

def PiLsmDb.recoverEnvelope (db : PiLsmDb) (cache : ReconstructionCacheState) (limit : UInt64) :
    ValueEnvelope → Except PiLsmError Bytes
  | .raw bytes => .ok bytes
  | .plan p => db.recover cache p limit

def PiLsmDb.refillEnvelope (db : PiLsmDb) (pick : Victim) (cache : ReconstructionCacheState)
    (limit : UInt64) : ValueEnvelope → ReconstructionCacheState
  | .raw _ => cache
  | .plan p => db.refill pick cache p limit

/-- The plan that is written for these bytes, if any. -/
def PiLsmDb.choice (db : PiLsmDb) (clock : Nat → Nat) (w : Bytes) (options : PlanOptions)
    (unwanted : Bytes → Nat → Bool) : Option ReconstructionPlan :=
  match db.planner.planWithOptions clock w options with
  | .ok plan =>
    if unwanted (ValueEnvelope.plan plan).encode plan.chunks.length then none else some plan
  | .error _ => none

theorem PiLsmDb.choice_some {db : PiLsmDb} {clock : Nat → Nat} {w : Bytes} {options : PlanOptions}
    {unwanted : Bytes → Nat → Bool} {plan : ReconstructionPlan} :
    db.choice clock w options unwanted = some plan ↔
      db.planner.planWithOptions clock w options = .ok plan ∧
        unwanted (ValueEnvelope.plan plan).encode plan.chunks.length = false := by
  unfold PiLsmDb.choice
  cases db.planner.planWithOptions clock w options with
  | error e => simp
  | ok found => grind

def PiLsmDb.planKeyChoice (db : PiLsmDb) (clock : Nat → Nat) (frame : Bytes)
    (options : PlanOptions) : Option ReconstructionPlan :=
  match ValueEnvelope.decode frame db.decodeLimits with
  | .ok (.raw bytes) => db.choice clock bytes options (fun _ _ => false)
  | _ => none

def PiLsmDb.vacuumChoice (db : PiLsmDb) (clock : Nat → Nat) (cache : ReconstructionCacheState)
    (frame : Bytes) (options : VacuumOptions) : Option ReconstructionPlan :=
  match ValueEnvelope.decode frame db.decodeLimits with
  | .ok (.raw bytes) => db.choice clock bytes options.planOptions (fun _ _ => false)
  | .ok (.plan old) =>
    match db.recover cache old (db.callLimit options) with
    | .ok w => db.choice clock w options.planOptions (fun encodedPlan newChunkCount =>
        ¬ planImproved frame.length old.chunks.length encodedPlan.length newChunkCount)
    | .error _ => none
  | .error _ => none

theorem PiLsmDb.vacuumChoice_some {db : PiLsmDb} {clock : Nat → Nat}
    {cache : ReconstructionCacheState} {frame : Bytes} {options : VacuumOptions}
    {plan old : ReconstructionPlan}
    (decoded : ValueEnvelope.decode frame db.decodeLimits = .ok (.plan old)) :
    db.vacuumChoice clock cache frame options = some plan ↔
      ∃ w, db.recover cache old (db.callLimit options) = .ok w ∧
        db.planner.planWithOptions clock w options.planOptions = .ok plan ∧
        planImproved frame.length old.chunks.length (ValueEnvelope.plan plan).encode.length
          plan.chunks.length = true := by
  simp only [PiLsmDb.vacuumChoice, decoded]
  cases db.recover cache old (db.callLimit options) with
  | error e => simp
  | ok w => simp [PiLsmDb.choice_some]

def PiLsmDb.replanChoice (db : PiLsmDb) (clock : Nat → Nat) (cache : ReconstructionCacheState)
    (frame : Bytes) (options : VacuumOptions) : Option ReconstructionPlan :=
  match ValueEnvelope.decode frame db.decodeLimits with
  | .ok e =>
    match db.recoverEnvelope cache (db.callLimit options) e with
    | .ok w => db.choice clock w options.planOptions (fun encodedPlan _ =>
        encodedPlan.length = frame.length ∧ envelopeHash encodedPlan = envelopeHash frame)
    | .error _ => none
  | .error _ => none

def Reported (r : Except PiLsmError PlanReport) : Prop :=
  ∃ report, r = .ok report ∧ report.status = .rewritten

/-- The report and the store after a rewrite that chose this plan, or none. -/
def Db.Rewrote (s : Db) (key : Bytes) (chosen : Option ReconstructionPlan)
    (r : Except PiLsmError PlanReport) (s' : Db) : Prop :=
  s'.locks = s.locks ∧
  match chosen with
  | some plan => Reported r ∧
      s'.store = Function.update s.store key (some (ValueEnvelope.plan plan).encode)
  | none => (∀ report, r = .ok report → report.status ≠ .rewritten) ∧ s'.store = s.store

def PiLsmDb.Fills (db : PiLsmDb) (frame : Option Bytes) (cache cache' : ReconstructionCacheState) :
    Prop :=
  ∀ key w, cache'.get key = some w → cache.get key = some w ∨
    ∃ f p, frame = some f ∧ ValueEnvelope.decode f db.decodeLimits = .ok (.plan p) ∧
      key = reconstructionCacheKey p ∧ reconstruct db.reconstructor p = .ok w

theorem PiLsmDb.refillEnvelope_fills {db : PiLsmDb} {frame : Bytes} {e : ValueEnvelope}
    (decoded : ValueEnvelope.decode frame db.decodeLimits = .ok e) (pick : Victim)
    (cache : ReconstructionCacheState) (limit : UInt64) :
    db.Fills (some frame) cache (db.refillEnvelope pick cache limit e) := by
  intro k w cached
  cases e with
  | raw bytes => exact Or.inl cached
  | plan p =>
    obtain before | ⟨filed, rebuilt⟩ := PiLsmDb.refill_get cached
    · exact Or.inl before
    · exact Or.inr ⟨frame, p, rfl, decoded, filed, rebuilt⟩

section

variable {db : PiLsmDb} {o : Oracle} {t : Nat} {s : Db} {key : Bytes}

omit [Digests] in
theorem Db.foreign_thread (s : Db) (key : Bytes) : ∃ t, s.locks key ≠ some t := by
  cases s.locks key with
  | none => exact ⟨0, nofun⟩
  | some u => exact ⟨u + 1, fun same => by simp at same⟩

omit [Digests] in
theorem Db.relocked (s : Db) (free : s.locks key = none) :
    { s with locks := Function.update (Function.update s.locks key (some t)) key none } = s := by
  have same : Function.update (Function.update s.locks key (some t)) key none = s.locks := by
    rw [Function.update_idem, ← free, Function.update_eq_self]
  rw [same]

omit [Digests] in
theorem alone_holding {α : Type} {body : DbOp α} (free : s.locks key = none)
    {r : Except PiLsmError α} {u : Db}
    (h : alone dbMachine o t body.run { s with locks := Function.update s.locks key (some t) } =
      some (r, u)) :
    alone dbMachine o t (holding key body).run s =
      some (r, { u with locks := Function.update u.locks key none }) := by
  have taken : dbMachine.exec o t (.lock key) s =
      some ((), { s with locks := Function.update s.locks key (some t) }) := if_pos free
  have run := alone_bind (M := dbMachine) (t := t) o body.run
    (fun r => perform (.unlock key) >>= fun _ => pure r)
    { s with locks := Function.update s.locks key (some t) }
  rw [h] at run
  have unfolded : (holding key body).run = .act (.lock key)
      (fun _ => body.run >>= fun r => perform (.unlock key) >>= fun _ => pure r) := rfl
  rw [unfolded]
  simp only [alone, taken]
  exact run

omit [Digests] in
theorem alone_held {α : Type} {body : DbOp α} {r : Except PiLsmError α × Db}
    (run : alone dbMachine o t (holding key body).run s = some r) : s.locks key = none := by
  by_contra taken
  have blocked : dbMachine.exec o t (.lock key) s = none := if_neg taken
  have unfolded : (holding key body).run = .act (.lock key)
      (fun _ => body.run >>= fun r => perform (.unlock key) >>= fun _ => pure r) := rfl
  rw [unfolded] at run
  simp only [alone, blocked] at run
  cases run

variable (db) in
theorem alone_readLocked (free : s.locks key = none) :
    alone dbMachine o t (holding key (db.readCurrentEnvelope key)).run s =
      some (match s.store key with
        | none => .ok none
        | some frame => (ValueEnvelope.decode frame db.decodeLimits).map
            (fun e => some ⟨envelopeHash frame, e, frame.length⟩), s) := by
  let locked := { s with locks := Function.update s.locks key (some t) }
  have look : alone dbMachine o t (issue (.get key) : DbOp (Option Bytes)).run locked =
      some (.ok (s.store key), locked) := alone_issue rfl
  have body : alone dbMachine o t (db.readCurrentEnvelope key).run locked =
      some (match s.store key with
        | none => .ok none
        | some frame => (ValueEnvelope.decode frame db.decodeLimits).map
            (fun e => some ⟨envelopeHash frame, e, frame.length⟩), locked) := by
    apply (alone_ok _ look).trans
    cases s.store key with
    | none => rfl
    | some frame =>
      dsimp only
      cases ValueEnvelope.decode frame db.decodeLimits with
      | ok e => rfl
      | error e => rfl
  rw [alone_holding free body, Db.relocked s free]

section Read

variable (db) {frame : Bytes} (free : s.locks key = none)

include free

theorem alone_read_missing (there : s.store key = none) :
    alone dbMachine o t (holding key (db.readCurrentEnvelope key)).run s =
      some (.ok none, s) := by
  rw [alone_readLocked db free, there]

theorem alone_read_failed (there : s.store key = some frame) {e : PiLsmError}
    (decoded : ValueEnvelope.decode frame db.decodeLimits = .error e) :
    alone dbMachine o t (holding key (db.readCurrentEnvelope key)).run s =
      some (.error e, s) := by
  simp only [alone_readLocked db free, there, decoded]
  rfl

theorem alone_read_found (there : s.store key = some frame) {e : ValueEnvelope}
    (decoded : ValueEnvelope.decode frame db.decodeLimits = .ok e) :
    alone dbMachine o t (holding key (db.readCurrentEnvelope key)).run s =
      some (.ok (some ⟨envelopeHash frame, e, frame.length⟩), s) := by
  simp only [alone_readLocked db free, there, decoded]
  rfl

end Read

variable (db) in
theorem alone_planBytes (w : Bytes) (options : PlanOptions) :
    ∃ counters, alone dbMachine o t (db.planBytesWithOptions w options).run s =
      some (db.planner.planWithOptions o.clock w options, { s with counters }) :=
  ⟨_, rfl⟩

variable (db) in
theorem alone_reconstructPlan (p : ReconstructionPlan) (limit : UInt64) :
    ∃ counters, alone dbMachine o t (db.reconstructPlan p limit).run s =
      some (db.recover s.cache p limit,
        { s with counters, cache := db.refill o.pick s.cache p limit }) := by
  unfold PiLsmDb.reconstructPlan PiLsmDb.recover PiLsmDb.refill
  split
  · exact ⟨s.counters, rfl⟩
  have look : alone dbMachine o t (issue (.cacheGet (reconstructionCacheKey p)) :
      DbOp (Option Bytes)).run s = some (.ok (s.cache.get (reconstructionCacheKey p)), s) :=
    alone_issue rfl
  cases there : s.cache.get (reconstructionCacheKey p) with
  | some w =>
    rw [there] at look
    exact ⟨s.counters, alone_ok _ look⟩
  | none =>
    rw [there] at look
    have timed : alone dbMachine o t
        (issue (.addDuration .reconstructionNanos) : DbOp Unit).run s =
        some (.ok (), s.count .reconstructionNanos o.elapsed) := alone_issue rfl
    cases reconstructWithLimit db.reconstructor p limit with
    | error e =>
      exact ⟨(s.count .reconstructionNanos o.elapsed).counters,
        (alone_ok _ look).trans ((alone_ok _ timed).trans rfl)⟩
    | ok w =>
      let cache := s.cache.insert o.pick (reconstructionCacheKey p) w
      have cached : alone dbMachine o t
          (issue (.cacheInsert (reconstructionCacheKey p) w) : DbOp UInt64).run
          (s.count .reconstructionNanos o.elapsed) = some (.ok cache.currentBytes,
            { s.count .reconstructionNanos o.elapsed with cache }) := alone_issue rfl
      exact ⟨_, (alone_ok _ look).trans ((alone_ok _ timed).trans
        ((alone_ok _ cached).trans rfl))⟩

variable (db) in
theorem alone_logicalBytes (e : ValueEnvelope) (limit : UInt64) :
    ∃ counters, alone dbMachine o t (db.logicalBytes e limit).run s =
      some (db.recoverEnvelope s.cache limit e,
        { s with counters, cache := db.refillEnvelope o.pick s.cache limit e }) := by
  cases e with
  | raw bytes => exact ⟨s.counters, rfl⟩
  | plan p => exact alone_reconstructPlan db p limit

theorem alone_writeIfSourceUnchanged {frame : Bytes} (free : s.locks key = none)
    (there : s.store key = some frame) (plan : ReconstructionPlan) (report : PlanReport) :
    alone dbMachine o t (db.writeIfSourceUnchanged key (envelopeHash frame)
      (ValueEnvelope.plan plan).encode report).run s =
      some (.ok { report with newEnvelopeBytes := some (ValueEnvelope.plan plan).encode.length },
        s.write t key (some (ValueEnvelope.plan plan).encode) .rewrite) := by
  let locked := { s with locks := Function.update s.locks key (some t) }
  have look : alone dbMachine o t (issue (.get key) : DbOp (Option Bytes)).run locked =
      some (.ok (some frame), locked) := alone_issue (by rw [← there]; rfl)
  have body : ∀ x : DbOp PlanReport, alone dbMachine o t x.run locked =
      some (.ok { report with newEnvelopeBytes := some (ValueEnvelope.plan plan).encode.length },
        locked.write t key (some (ValueEnvelope.plan plan).encode) .rewrite) →
      alone dbMachine o t (holding key x).run s =
      some (.ok { report with newEnvelopeBytes := some (ValueEnvelope.plan plan).encode.length },
        s.write t key (some (ValueEnvelope.plan plan).encode) .rewrite) := by
    intro x run
    have unlocked := Db.relocked (t := t) s free
    rw [alone_holding free run]
    exact congrArg (fun s : Db => some (Except.ok _,
      s.write t key (some (ValueEnvelope.plan plan).encode) .rewrite)) unlocked
  refine body _ ((alone_ok _ look).trans ?_)
  dsimp only
  rw [if_neg (fun differs => differs rfl)]
  rfl

variable (db) in
theorem alone_planAndWrite {frame : Bytes} (free : s.locks key = none)
    (there : s.store key = some frame) (source : Source) (hash : source.hash = envelopeHash frame)
    (w : Bytes) (options : PlanOptions) (oldChunkCount : Option Nat)
    (unwanted : Bytes → Nat → Bool) :
    ∃ r s', alone dbMachine o t
        (db.planAndWrite key source w options oldChunkCount unwanted).run s = some (r, s') ∧
      s.Rewrote key (db.choice o.clock w options unwanted) r s' ∧ s'.cache = s.cache := by
  obtain ⟨counters, planned⟩ := alone_planBytes db (o := o) (t := t) (s := s) w options
  unfold PiLsmDb.planAndWrite PiLsmDb.choice
  rw [alone_ok _ (alone_attempt planned)]
  have fails : ∀ e : PiLsmError, ∃ r s', alone dbMachine o t (throw e : DbOp PlanReport).run
      { s with counters } = some (r, s') ∧ s.Rewrote key none r s' ∧ s'.cache = s.cache :=
    fun e => ⟨.error e, { s with counters }, rfl, ⟨rfl, nofun, rfl⟩, rfl⟩
  cases db.planner.planWithOptions o.clock w options with
  | error e =>
    cases e with
    | planningFailed reason =>
      refine ⟨_, _, alone_ok _ (alone_issue rfl), ⟨rfl, ?_, rfl⟩, rfl⟩
      rintro report ⟨⟩
      simp
    | _ => exact fails _
  | ok plan =>
    dsimp only
    split
    · refine ⟨_, _, rfl, ⟨rfl, ?_, rfl⟩, rfl⟩
      rintro report ⟨⟩
      simp
    · rw [hash]
      exact ⟨_, _, alone_writeIfSourceUnchanged (s := { s with counters }) free there plan _,
        ⟨rfl, ⟨_, rfl, rfl⟩, rfl⟩, rfl⟩

theorem alone_countRewritten {x : DbOp PlanReport} {chosen : Option ReconstructionPlan}
    (counter : DbCounter) (value : UInt64) {s₁ : Db}
    (h : ∃ r s', alone dbMachine o t x.run s₁ = some (r, s') ∧ s.Rewrote key chosen r s' ∧
      s'.cache = s₁.cache) :
    ∃ r s', alone dbMachine o t (x >>= fun report => countRewritten report counter value).run s₁ =
      some (r, s') ∧ s.Rewrote key chosen r s' ∧ s'.cache = s₁.cache := by
  obtain ⟨r, s', run, rewrote, cache⟩ := h
  cases r with
  | error e => exact ⟨_, s', alone_error _ run, rewrote, cache⟩
  | ok report =>
    rw [alone_ok _ run]
    unfold countRewritten
    split
    · exact ⟨.ok report, s'.count counter value, rfl, rewrote, cache⟩
    · exact ⟨.ok report, s', rfl, rewrote, cache⟩

variable (key) in
theorem alone_missing : ∃ r s', alone dbMachine o t (pure .missing : DbOp PlanReport).run s =
    some (r, s') ∧ s.Rewrote key none r s' ∧ s'.cache = s.cache := by
  refine ⟨_, s, rfl, ⟨rfl, ?_, rfl⟩, rfl⟩
  rintro report ⟨⟩
  simp [PlanReport.missing]

variable (db) in
theorem alone_planKey (free : s.locks key = none) (options : PlanOptions) :
    ∃ r s', alone dbMachine o t (db.planKey key options).run s = some (r, s') ∧
      s.Rewrote key ((s.store key).bind (fun frame => db.planKeyChoice o.clock frame options))
        r s' ∧ s'.cache = s.cache := by
  unfold PiLsmDb.planKey
  cases there : s.store key with
  | none =>
    rw [alone_ok _ (alone_read_missing db free there)]
    exact alone_missing key
  | some frame =>
    simp only [Option.bind_some, PiLsmDb.planKeyChoice]
    cases decoded : ValueEnvelope.decode frame db.decodeLimits with
    | error e =>
      exact ⟨_, s, alone_error _ (alone_read_failed db free there decoded), ⟨rfl, nofun, rfl⟩, rfl⟩
    | ok envelope =>
      rw [alone_ok _ (alone_read_found db free there decoded)]
      cases envelope with
      | plan p =>
        refine ⟨_, s, rfl, ⟨rfl, ?_, rfl⟩, rfl⟩
        rintro report ⟨⟩
        simp [PlanReport.alreadyPlanned]
      | raw bytes =>
        exact alone_countRewritten _ _ (alone_planAndWrite db free there _ rfl bytes options none _)

variable (db) in
theorem alone_vacuumMeaning (free : s.locks key = none) (options : VacuumOptions) :
    ∃ r s', alone dbMachine o t (db.vacuumMeaning key options).run s = some (r, s') ∧
      s.Rewrote key ((s.store key).bind
        (fun frame => db.vacuumChoice o.clock s.cache frame options)) r s' ∧
      db.Fills (s.store key) s.cache s'.cache := by
  let s₁ := s.count .vacuumMeaningAttemptsTotal 1
  have attempts : alone dbMachine o t (issue (.add .vacuumMeaningAttemptsTotal 1) :
      DbOp Unit).run s = some (.ok (), s₁) := alone_issue rfl
  have free : s₁.locks key = none := free
  have keeps : ∀ {frame : Option Bytes} {chosen : Option ReconstructionPlan} {x : DbOp PlanReport},
      (∃ r s', alone dbMachine o t x.run s₁ = some (r, s') ∧
        s.Rewrote key chosen r s' ∧ s'.cache = s.cache) →
      ∃ r s', alone dbMachine o t x.run s₁ = some (r, s') ∧
        s.Rewrote key chosen r s' ∧ db.Fills frame s.cache s'.cache := by
    rintro frame chosen x ⟨r, s', run, rewrote, cache⟩
    exact ⟨r, s', run, rewrote, fun k w h => Or.inl (cache ▸ h)⟩
  unfold PiLsmDb.vacuumMeaning
  rw [alone_ok _ attempts]
  cases there : s.store key with
  | none =>
    rw [alone_ok _ (alone_read_missing db free there)]
    exact keeps (alone_missing key)
  | some frame =>
    simp only [Option.bind_some, PiLsmDb.vacuumChoice]
    cases decoded : ValueEnvelope.decode frame db.decodeLimits with
    | error e =>
      exact keeps ⟨_, _, alone_error _ (alone_read_failed db free there decoded),
        ⟨rfl, nofun, rfl⟩, rfl⟩
    | ok envelope =>
      rw [alone_ok _ (alone_read_found db free there decoded)]
      cases envelope with
      | raw bytes =>
        have inner := alone_planKey db (o := o) (t := t) free options.planOptions
        change ∃ r s', _ ∧ Db.Rewrote _ key ((s.store key).bind _) r s' ∧ _ at inner
        rw [there, Option.bind_some, PiLsmDb.planKeyChoice, decoded] at inner
        exact keeps inner
      | plan old =>
        obtain ⟨counters, rebuilt⟩ :=
          alone_reconstructPlan db (o := o) (t := t) (s := s₁) old (db.callLimit options)
        have fills := db.refillEnvelope_fills decoded o.pick s.cache (db.callLimit options)
        change alone _ _ _ _ _ = some (db.recover s.cache old (db.callLimit options), _) at rebuilt
        dsimp only
        cases recovered : db.recover s.cache old (db.callLimit options) with
        | error e =>
          rw [recovered] at rebuilt
          exact ⟨_, _, alone_error _ rebuilt, ⟨rfl, nofun, rfl⟩, fills⟩
        | ok w =>
          rw [recovered] at rebuilt
          rw [alone_ok _ rebuilt]
          obtain ⟨r, s', run, rewrote, kept⟩ := alone_countRewritten (s := s)
            .vacuumMeaningImprovementsTotal 1 (alone_planAndWrite db (o := o) (t := t)
              (s := { s₁ with
                counters, cache := db.refill o.pick s.cache old (db.callLimit options) })
              free there ⟨envelopeHash frame, .plan old, frame.length⟩ rfl w
              options.planOptions (some old.chunks.length) (fun encodedPlan newChunkCount =>
                ¬ planImproved frame.length old.chunks.length encodedPlan.length newChunkCount))
          exact ⟨r, s', run, rewrote, kept ▸ fills⟩

theorem alone_vacuumMeaning_free {options : VacuumOptions} {r : Except PiLsmError PlanReport × Db}
    (run : alone dbMachine o t (db.vacuumMeaning key options).run s = some r) :
    s.locks key = none := by
  have attempts : alone dbMachine o t (issue (.add .vacuumMeaningAttemptsTotal 1) :
      DbOp Unit).run s = some (.ok (), s.count .vacuumMeaningAttemptsTotal 1) := alone_issue rfl
  unfold PiLsmDb.vacuumMeaning at run
  rw [alone_ok _ attempts] at run
  obtain ⟨read, started⟩ := alone_started run
  exact alone_held (s := s.count .vacuumMeaningAttemptsTotal 1) started

variable (db) in
theorem alone_replanKey (free : s.locks key = none) (options : VacuumOptions) :
    ∃ r s', alone dbMachine o t (db.replanKey key options).run s = some (r, s') ∧
      s.Rewrote key ((s.store key).bind
        (fun frame => db.replanChoice o.clock s.cache frame options)) r s' ∧
      db.Fills (s.store key) s.cache s'.cache := by
  unfold PiLsmDb.replanKey
  cases there : s.store key with
  | none =>
    rw [alone_ok _ (alone_read_missing db free there)]
    obtain ⟨r, s', run, rewrote, kept⟩ := alone_missing key (o := o) (t := t) (s := s)
    exact ⟨r, s', run, rewrote, fun k w cached => Or.inl (kept ▸ cached)⟩
  | some frame =>
    simp only [Option.bind_some, PiLsmDb.replanChoice]
    cases decoded : ValueEnvelope.decode frame db.decodeLimits with
    | error e =>
      exact ⟨_, s, alone_error _ (alone_read_failed db free there decoded), ⟨rfl, nofun, rfl⟩,
        fun k w cached => Or.inl cached⟩
    | ok envelope =>
      rw [alone_ok _ (alone_read_found db free there decoded)]
      obtain ⟨counters, rebuilt⟩ := alone_logicalBytes db (o := o) (t := t) (s := s) envelope
        (db.callLimit options)
      have fills := db.refillEnvelope_fills decoded o.pick s.cache (db.callLimit options)
      dsimp only
      cases recovered : db.recoverEnvelope s.cache (db.callLimit options) envelope with
      | error e =>
        rw [recovered] at rebuilt
        exact ⟨_, _, alone_error _ rebuilt, ⟨rfl, nofun, rfl⟩, fills⟩
      | ok w =>
        rw [recovered] at rebuilt
        rw [alone_ok _ rebuilt]
        obtain ⟨r, s', run, rewrote, kept⟩ := alone_planAndWrite db (o := o) (t := t)
          (s := { s with
            counters, cache := db.refillEnvelope o.pick s.cache (db.callLimit options) envelope })
          free there ⟨envelopeHash frame, envelope, frame.length⟩ rfl w
          options.planOptions envelope.oldChunkCount (fun encodedPlan _ =>
            encodedPlan.length = frame.length ∧ envelopeHash encodedPlan = envelopeHash frame)
        exact ⟨r, s', run, rewrote, kept ▸ fills⟩

def PiLsmDb.envelopeAt (db : PiLsmDb) (s : Db) (key : Bytes) :
    Except PiLsmError (Option ValueEnvelope) :=
  match s.store key with
  | none => .ok none
  | some frame => (ValueEnvelope.decode frame db.decodeLimits).map some

def PiLsmDb.reading (db : PiLsmDb) (s : Db) (key : Bytes) : Except PiLsmError (Option Bytes) :=
  match s.store key with
  | none => .ok none
  | some frame =>
    match ValueEnvelope.decode frame db.decodeLimits with
    | .ok e => (db.recoverEnvelope s.cache db.maxReconstructBytes e).map some
    | .error e => .error e

variable (db key) in
theorem alone_getEnvelope :
    alone dbMachine o t (db.getEnvelope key).run s = some (db.envelopeAt s key, s) := by
  have look : alone dbMachine o t (issue (.get key) : DbOp (Option Bytes)).run s =
    some (.ok (s.store key), s) := alone_issue rfl
  apply (alone_ok _ look).trans
  unfold PiLsmDb.envelopeAt
  cases s.store key with
  | none => rfl
  | some frame =>
    dsimp only
    cases ValueEnvelope.decode frame db.decodeLimits with
    | ok e => rfl
    | error e => rfl

variable (db key) in
theorem alone_get : ∃ s', alone dbMachine o t (db.get key).run s = some (db.reading s key, s') := by
  have envelope := alone_getEnvelope db key (o := o) (t := t) (s := s)
  unfold PiLsmDb.get PiLsmDb.reading
  unfold PiLsmDb.envelopeAt at envelope
  cases there : s.store key with
  | none =>
    rw [there] at envelope
    exact ⟨s, alone_ok _ envelope⟩
  | some frame =>
    simp only [there] at envelope ⊢
    cases decoded : ValueEnvelope.decode frame db.decodeLimits with
    | error e =>
      rw [decoded] at envelope
      exact ⟨s, alone_error _ envelope⟩
    | ok e =>
      rw [decoded] at envelope
      rw [alone_ok _ envelope]
      obtain ⟨counters, rebuilt⟩ := alone_logicalBytes db (o := o) (t := t) (s := s) e
        db.maxReconstructBytes
      dsimp only
      cases recovered : db.recoverEnvelope s.cache db.maxReconstructBytes e with
      | error err =>
        rw [recovered] at rebuilt
        exact ⟨_, alone_error _ rebuilt⟩
      | ok w =>
        rw [recovered] at rebuilt
        exact ⟨_, alone_ok _ rebuilt⟩

def PiLsmDb.envelopeFor (db : PiLsmDb) (clock : Nat → Nat) (value : Bytes) (options : PutOptions) :
    Except PiLsmError ValueEnvelope :=
  if options.allowImmediatePlan then (db.planner.plan clock value).map .plan else .ok (.raw value)

variable (db) in
theorem alone_newEnvelope (value : Bytes) (options : PutOptions) :
    ∃ counters, alone dbMachine o t (db.newEnvelope value options).run s =
      some (db.envelopeFor o.clock value options, { s with counters }) := by
  unfold PiLsmDb.newEnvelope PiLsmDb.envelopeFor
  split
  · obtain ⟨counters, planned⟩ := alone_planBytes db (o := o) (t := t) (s := s) value
      db.planner.options
    refine ⟨counters, ?_⟩
    change alone dbMachine o t (db.planBytes value).run s = _ at planned
    change _ = some (Except.map _ (db.planner.planWithOptions o.clock value db.planner.options), _)
    cases result : db.planner.planWithOptions o.clock value db.planner.options with
    | ok plan =>
      rw [result] at planned
      exact alone_ok _ planned
    | error e =>
      rw [result] at planned
      exact alone_error _ planned
  · exact ⟨s.counters, rfl⟩

variable (db key) in
theorem alone_putWithOptions (free : s.locks key = none) (value : Bytes) (options : PutOptions) :
    ∃ r s', alone dbMachine o t (db.putWithOptions key value options).run s = some (r, s') ∧
      s'.locks = s.locks ∧ s'.cache = s.cache ∧
      match db.envelopeFor o.clock value options with
      | .ok envelope => (∃ handle, r = .ok handle) ∧
          s'.store = Function.update s.store key (some envelope.encode)
      | .error err => r = .error err ∧ s'.store = s.store := by
  let locked := { s with locks := Function.update s.locks key (some t) }
  have unlocked : Function.update (Function.update s.locks key (some t)) key none = s.locks := by
    rw [Function.update_idem, ← free, Function.update_eq_self]
  obtain ⟨counters, made⟩ := alone_newEnvelope db (o := o) (t := t) (s := locked) value
    options
  unfold PiLsmDb.putWithOptions
  cases chosen : db.envelopeFor o.clock value options with
  | error e =>
    rw [chosen] at made
    exact ⟨_, _, alone_holding free (alone_error _ made), unlocked, rfl, rfl, rfl⟩
  | ok envelope =>
    rw [chosen] at made
    let final := { locked with counters }.write t key (some envelope.encode) (.put value)
    have stored : alone dbMachine o t
        (issue (.put key envelope.encode (.put value)) : DbOp Unit).run { locked with counters } =
        some (.ok (), final) := alone_issue rfl
    refine ⟨.ok ⟨envelope.writeStorageClass, envelope.encode.length⟩,
      { final with locks := Function.update final.locks key none },
      alone_holding free (u := final) ((alone_ok _ made).trans ((alone_ok _ stored).trans ?_)),
      unlocked, rfl, ⟨_, rfl⟩, rfl⟩
    cases options.awaitDurable with
    | true => rfl
    | false => rfl

end

end PiLSMer
