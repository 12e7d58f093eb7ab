import PiLSMer.Core.Score
import PiLSMer.Slate.Durable
import PiLSMer.Slate.Footprint

/-! How many raw bytes were converted to plans. Three operations convert; plan_key counts, and
vacuum_meaning through it, but replan_key does not. -/
namespace PiLSMer
open Interleave

/-- What metrics reports: observe_counters copies the counter. -/
def Db.rawBytesConvertedTotal (s : Db) : UInt64 := s.counters .rawBytesConvertedTotal

def SparesConverted : ∀ β : Type, DbAct β → Prop
  | _, .add counter _ => counter ≠ .rawBytesConvertedTotal
  | _, .addDuration counter => counter ≠ .rawBytesConvertedTotal
  | _, _ => True

theorem SparesConverted.add {counter : DbCounter} {value : UInt64}
    (other : counter ≠ .rawBytesConvertedTotal) : SparesConverted Unit (.add counter value) :=
  other

theorem Mild.spares (β : Type) (a : DbAct β) (mild : Mild β a) : SparesConverted β a := by
  cases a with
  | add counter value => exact mild
  | addDuration counter => exact mild
  | _ => exact trivial

theorem spares_write {key : Bytes} {origin : Origin} (frame : Bytes) :
    SparesConverted Unit (.put key frame origin) :=
  trivial

theorem spares_delete (key : Bytes) : SparesConverted Unit (.delete key) := trivial

theorem Db.count_converted (s : Db) (value : UInt64) :
    (s.count .rawBytesConvertedTotal value).rawBytesConvertedTotal =
      saturatingAdd s.rawBytesConvertedTotal value := by
  simp [Db.count, Db.rawBytesConvertedTotal]

theorem Db.count_other {counter : DbCounter} (other : counter ≠ .rawBytesConvertedTotal) (s : Db)
    (value : UInt64) :
    (s.count counter value).rawBytesConvertedTotal = s.rawBytesConvertedTotal := by
  simp [Db.count, Db.rawBytesConvertedTotal, Function.update_of_ne other.symm]

theorem spares_exec {t : Nat} (β : Type) (a : DbAct β) (o : Oracle) (s : Db) (b : β) (s' : Db)
    (spares : SparesConverted β a) (exec : dbMachine.exec o t a s = some (b, s')) :
    s'.rawBytesConvertedTotal = s.rawBytesConvertedTotal := by
  cases a with
  | lock key =>
    obtain ⟨_, rfl⟩ := exec_lock exec
    rfl
  | add counter value =>
    cases exec
    exact Db.count_other spares s _
  | addDuration counter =>
    cases exec
    exact Db.count_other spares s _
  | setCacheBytes bytes =>
    cases exec
    exact Function.update_of_ne
      (by decide : DbCounter.rawBytesConvertedTotal ≠ .reconstructionCacheBytes)
      bytes s.counters
  | _ =>
    cases exec
    rfl

variable [Digests]

/-- A call of the handle or a step of one of its scans. -/
inductive Request where
  | call (call : Call)
  | next (options : ScanOptions) (entry : Option (Bytes × Bytes))

def Request.rewrites : Request → Option Bytes
  | .call c => c.rewrites
  | .next _ _ => none

def Request.Completes (db : PiLsmDb) (o : Oracle) (t : Nat) (s s' : Db) : Request → Prop
  | .call c => ∃ r, alone dbMachine o t (c.op db).run s = some (r, s')
  | .next options entry =>
    ∃ r, alone dbMachine o t ((db.scanWithOptions options).next entry).run s = some (r, s')

structure Completed where
  request : Request
  oracle : Oracle
  before : Db
  after : Db

def Completed.Converts (c : Completed) (bytes : Bytes) : Prop :=
  ∃ key frame plan, c.request.rewrites = some key ∧ c.before.store key = some frame ∧
    ValueEnvelope.decode frame loosest = .ok (.raw bytes) ∧
    c.after.store key = some (ValueEnvelope.plan plan).encode

open Classical in
noncomputable def Completed.converted (c : Completed) : Nat :=
  if h : ∃ bytes, c.Converts bytes then h.choose.length else 0

theorem Completed.Converts.unique {c : Completed} {bytes bytes' : Bytes} (h : c.Converts bytes)
    (h' : c.Converts bytes') : bytes = bytes' := by
  obtain ⟨key, frame, _, rewrites, there, decoded, _⟩ := h
  obtain ⟨key', frame', _, rewrites', there', decoded', _⟩ := h'
  cases rewrites.symm.trans rewrites'
  cases there.symm.trans there'
  cases decoded.symm.trans decoded'
  rfl

theorem Completed.converted_eq {c : Completed} {bytes : Bytes} (h : c.Converts bytes) :
    c.converted = bytes.length := by
  have some : ∃ bytes, c.Converts bytes := ⟨bytes, h⟩
  rw [Completed.converted, dif_pos some, some.choose_spec.unique h]

theorem Completed.converted_zero {c : Completed} (h : ∀ bytes, ¬ c.Converts bytes) :
    c.converted = 0 :=
  dif_neg (fun ⟨bytes, converts⟩ => h bytes converts)

def PiLsmDb.rawBytes (db : PiLsmDb) (frame : Bytes) : Option Bytes :=
  match ValueEnvelope.decode frame db.decodeLimits with
  | .ok (.raw bytes) => some bytes
  | _ => none

theorem PiLsmDb.rawBytes_some {db : PiLsmDb} {frame bytes : Bytes} :
    db.rawBytes frame = some bytes ↔
      ValueEnvelope.decode frame db.decodeLimits = .ok (.raw bytes) := by
  unfold PiLsmDb.rawBytes
  split
  · rename_i decoded
    simp [decoded]
  · rename_i other
    simp only [reduceCtorEq, false_iff]
    exact other bytes

def amount (chosen : Option ReconstructionPlan) (bytes : Option Bytes) : Nat :=
  match chosen, bytes with
  | some _, some bytes => bytes.length
  | _, _ => 0

omit [Digests] in
theorem amount_raw (chosen : Option ReconstructionPlan) : amount chosen none = 0 := by
  cases chosen <;> rfl

theorem Db.Rewrote.converted {db : PiLsmDb} {request : Request} {o : Oracle} {s s' : Db}
    {key : Bytes} {choice : Bytes → Option ReconstructionPlan} {r : Except PiLsmError PlanReport}
    (rewrites : request.rewrites = some key)
    (reads : ∀ frame plan, choice frame = some plan →
      ∃ e, ValueEnvelope.decode frame db.decodeLimits = .ok e)
    (rewrote : s.Rewrote key ((s.store key).bind choice) r s') :
    (Completed.mk request o s s').converted =
      amount ((s.store key).bind choice) ((s.store key).bind db.rawBytes) := by
  obtain ⟨_, rewrote⟩ := rewrote
  have kept : s'.store = s.store → ∀ bytes, ¬ (Completed.mk request o s s').Converts bytes := by
    rintro same bytes ⟨key', frame, plan, _, there, decoded, planned⟩
    change s'.store key' = _ at planned
    rw [same] at planned
    cases there.symm.trans planned
    cases decode_encode_sound decoded
  cases there : s.store key with
  | none =>
    rw [there] at rewrote
    exact Completed.converted_zero (kept rewrote.2)
  | some frame =>
    rw [there] at rewrote
    simp only [Option.bind_some] at rewrote ⊢
    cases chosen : choice frame with
    | none =>
      rw [chosen] at rewrote
      exact Completed.converted_zero (kept rewrote.2)
    | some plan =>
      rw [chosen] at rewrote
      have planned : s'.store key = some (ValueEnvelope.plan plan).encode := by
        rw [rewrote.2, Function.update_self]
      obtain ⟨e, decoded⟩ := reads frame plan chosen
      have loose := decode_monotone db.decodeLimits.le_loosest decoded
      cases e with
      | raw bytes =>
        rw [PiLsmDb.rawBytes_some.mpr decoded]
        exact Completed.converted_eq ⟨key, frame, plan, rewrites, there, loose, planned⟩
      | plan p =>
        have other : db.rawBytes frame = none := by simp [PiLsmDb.rawBytes, decoded]
        rw [other]
        apply Completed.converted_zero
        rintro bytes ⟨key', frame', _, rewrites', there', decoded', _⟩
        cases rewrites.symm.trans rewrites'
        cases there.symm.trans there'
        cases loose.symm.trans decoded'

section Totals

variable {db : PiLsmDb} {o : Oracle} {t : Nat} {s s' : Db} {key : Bytes}

def Db.Adds (s s' : Db) (n : Nat) : Prop :=
  s'.rawBytesConvertedTotal = saturatingAdd s.rawBytesConvertedTotal (lenU64 n)

omit [Digests] in
theorem Db.adds_zero (same : s'.rawBytesConvertedTotal = s.rawBytesConvertedTotal) :
    s.Adds s' 0 := by
  have room : ¬ 2 ^ 64 ≤ s.rawBytesConvertedTotal.toNat + (lenU64 0).toNat :=
    Nat.not_le.mpr s.rawBytesConvertedTotal.toNat_lt
  rw [Db.Adds, same, saturatingAdd, if_neg room]
  exact (UInt64.add_zero _).symm

omit [Digests] in
theorem Db.adds_spared {α : Type} {p : Prog DbAct α} {r : α} (only : p.Only SparesConverted)
    (run : alone dbMachine o t p s = some (r, s')) : s.Adds s' 0 :=
  Db.adds_zero (alone_only spares_exec only run)

theorem alone_countConverted {x : DbOp PlanReport} {chosen : Option ReconstructionPlan}
    {r : Except PiLsmError PlanReport} {s₁ : Db} (bytes : Bytes)
    (first : alone dbMachine o t x.run s = some (r, s₁)) (only : x.run.Only SparesConverted)
    (rewrote : s.Rewrote key chosen r s₁) :
    ∃ s₂, alone dbMachine o t (x >>= fun report =>
        countRewritten report .rawBytesConvertedTotal (lenU64 bytes.length)).run s =
          some (r, s₂) ∧ s.Adds s₂ (amount chosen (some bytes)) := by
  have spared : s₁.rawBytesConvertedTotal = s.rawBytesConvertedTotal :=
    alone_only spares_exec only first
  obtain ⟨_, rewrote⟩ := rewrote
  cases chosen with
  | some plan =>
    obtain ⟨⟨report, rfl, status⟩, _⟩ := rewrote
    refine ⟨s₁.count .rawBytesConvertedTotal (lenU64 bytes.length), ?_, ?_⟩
    · rw [alone_ok _ first, countRewritten, if_pos status]
      rfl
    · rw [Db.Adds, ← spared]
      exact Db.count_converted s₁ _
  | none =>
    refine ⟨s₁, ?_, Db.adds_zero spared⟩
    cases r with
    | error e => exact alone_error _ first
    | ok report =>
      rw [alone_ok _ first, countRewritten, if_neg (rewrote.1 report rfl)]
      rfl

variable (db) in
theorem planKey_adds (free : s.locks key = none) (options : PlanOptions) :
    ∃ r s', alone dbMachine o t (db.planKey key options).run s = some (r, s') ∧
      s.Adds s' (amount
        ((s.store key).bind (fun frame => db.planKeyChoice o.clock frame options))
        ((s.store key).bind db.rawBytes)) := by
  unfold PiLsmDb.planKey
  cases there : s.store key with
  | none =>
    rw [alone_ok _ (alone_read_missing db free there)]
    exact ⟨_, s, rfl, Db.adds_zero rfl⟩
  | some frame =>
    simp only [Option.bind_some, PiLsmDb.planKeyChoice, PiLsmDb.rawBytes]
    cases decoded : ValueEnvelope.decode frame db.decodeLimits with
    | error e =>
      exact ⟨_, s, alone_error _ (alone_read_failed db free there decoded), Db.adds_zero rfl⟩
    | ok envelope =>
      rw [alone_ok _ (alone_read_found db free there decoded)]
      cases envelope with
      | plan p => exact ⟨_, s, rfl, Db.adds_zero rfl⟩
      | raw bytes =>
        obtain ⟨r, s₁, first, rewrote, _⟩ := alone_planAndWrite db (o := o) (t := t) free there
          ⟨envelopeHash frame, .raw bytes, frame.length⟩ rfl bytes options none (fun _ _ => false)
        obtain ⟨s₂, run, adds⟩ := alone_countConverted bytes first
          (only_planAndWrite db Mild.spares spares_write _ _ _ _ _) rewrote
        exact ⟨r, s₂, run, adds⟩

/-- A vacuum counts when it hands a raw frame on to plan_key. -/
theorem vacuumMeaning_adds {options : VacuumOptions} {r : Except PiLsmError PlanReport}
    (free : s.locks key = none)
    (run : alone dbMachine o t (db.vacuumMeaning key options).run s = some (r, s')) :
    s.Adds s' (amount
      ((s.store key).bind (fun frame => db.vacuumChoice o.clock s.cache frame options))
      ((s.store key).bind db.rawBytes)) := by
  let s₁ := s.count .vacuumMeaningAttemptsTotal 1
  have attempts : alone dbMachine o t (issue (.add .vacuumMeaningAttemptsTotal 1) :
      DbOp Unit).run s = some (.ok (), s₁) := alone_issue rfl
  have uncounted : s₁.rawBytesConvertedTotal = s.rawBytesConvertedTotal :=
    Db.count_other (by decide) s 1
  have free : s₁.locks key = none := free
  have rest : ∀ {α : Type} {p : Prog DbAct α} {a : α}, p.Only SparesConverted →
      alone dbMachine o t p s₁ = some (a, s') → s.Adds s' 0 := fun only run =>
    Db.adds_zero ((alone_only spares_exec only run).trans uncounted)
  unfold PiLsmDb.vacuumMeaning at run
  rw [alone_ok _ attempts] at run
  cases there : s.store key with
  | none =>
    rw [alone_ok _ (alone_read_missing db free there)] at run
    exact rest (p := (pure .missing : DbOp PlanReport).run) trivial run
  | some frame =>
    simp only [Option.bind_some, PiLsmDb.vacuumChoice, PiLsmDb.rawBytes]
    cases decoded : ValueEnvelope.decode frame db.decodeLimits with
    | error e =>
      rw [alone_error _ (alone_read_failed db free there decoded)] at run
      exact rest (p := (throw e : DbOp PlanReport).run) trivial run
    | ok envelope =>
      rw [alone_ok _ (alone_read_found db free there decoded)] at run
      cases envelope with
      | raw bytes =>
        obtain ⟨r', s₂, planned, adds⟩ :=
          planKey_adds db (o := o) (t := t) free options.planOptions
        cases run.symm.trans planned
        change s₁.Adds s' (amount ((s.store key).bind _) ((s.store key).bind _)) at adds
        rw [there, Option.bind_some, Option.bind_some, PiLsmDb.planKeyChoice, PiLsmDb.rawBytes,
          decoded, Db.Adds, uncounted] at adds
        exact adds
      | plan old =>
        rw [amount_raw]
        refine rest (Prog.Only.andThen ((mild_reconstructPlan db old _).mono Mild.spares)
          (fun bytes => Prog.Only.andThen (only_planAndWrite db Mild.spares spares_write _ _ _ _ _)
            (fun report => ?_))) run
        unfold countRewritten
        split
        · exact Prog.Only.andThen (Prog.Only.issue (SparesConverted.add (by decide)))
            (fun _ => trivial)
        · exact trivial

end Totals

omit [Digests] in
theorem alone_answer {o : Oracle} {t : Nat} {s s' : Db} {α : Type} {x : DbOp α}
    {r : Except PiLsmError α} (f : α → Answer) (run : alone dbMachine o t x.run s = some (r, s')) :
    ∃ r, alone dbMachine o t (x >>= fun a => pure (f a)).run s = some (r, s') := by
  cases r with
  | ok a => exact ⟨.ok (f a), alone_ok _ run⟩
  | error e => exact ⟨.error e, alone_error _ run⟩

/-- Requests on one handle, one after the other, and what each did. -/
inductive Session (db : PiLsmDb) (start : Db) : List Completed → Db → Prop
  | start : Session db start [] start
  | step {done : List Completed} {request : Request} {o : Oracle} {t : Nat} {s s' : Db}
      (before : Session db start done s) (completes : request.Completes db o t s s') :
      Session db start (done ++ [⟨request, o, s, s'⟩]) s'

/-- A replan_key that replaces a raw frame with something in it: the planner finds a plan for
the value, and the plan's frame is not the old one over again. -/
def Completed.Overlooked (db : PiLsmDb) (c : Completed) : Prop :=
  ∃ key options frame bytes plan, c.request = .call (.replanKey key options) ∧
    c.before.store key = some frame ∧
    ValueEnvelope.decode frame db.decodeLimits = .ok (.raw bytes) ∧ bytes ≠ [] ∧
    db.planner.planWithOptions c.oracle.clock bytes options.planOptions = .ok plan ∧
    ¬ ((ValueEnvelope.plan plan).encode.length = frame.length ∧
      envelopeHash (ValueEnvelope.plan plan).encode = envelopeHash frame)

section Steps

variable {db : PiLsmDb} {o : Oracle} {t : Nat} {s s' : Db}

theorem PiLsmDb.replanChoice_raw {clock : Nat → Nat} {cache : ReconstructionCacheState}
    {frame bytes : Bytes} {options : VacuumOptions} {plan : ReconstructionPlan}
    (decoded : ValueEnvelope.decode frame db.decodeLimits = .ok (.raw bytes)) :
    db.replanChoice clock cache frame options = some plan ↔
      db.planner.planWithOptions clock bytes options.planOptions = .ok plan ∧
        ¬ ((ValueEnvelope.plan plan).encode.length = frame.length ∧
          envelopeHash (ValueEnvelope.plan plan).encode = envelopeHash frame) := by
  simp only [PiLsmDb.replanChoice, decoded, PiLsmDb.recoverEnvelope, PiLsmDb.choice_some,
    decide_eq_false_iff_not]

theorem replan_overlooked_iff {key : Bytes} {options : VacuumOptions} :
    (Completed.mk (.call (.replanKey key options)) o s s').Overlooked db ↔
      amount ((s.store key).bind (fun frame => db.replanChoice o.clock s.cache frame options))
        ((s.store key).bind db.rawBytes) ≠ 0 := by
  constructor
  · rintro ⟨key', options', frame, bytes, plan, same, there, decoded, filled, wanted⟩
    cases same
    change s.store key = some frame at there
    rw [there, Option.bind_some, Option.bind_some, PiLsmDb.rawBytes_some.mpr decoded,
      (PiLsmDb.replanChoice_raw decoded).mpr wanted]
    exact fun empty => filled (List.length_eq_zero_iff.mp empty)
  · intro some
    cases there : s.store key with
    | none =>
      rw [there] at some
      exact absurd rfl some
    | some frame =>
      rw [there, Option.bind_some, Option.bind_some] at some
      cases raw : db.rawBytes frame with
      | none =>
        rw [raw, amount_raw] at some
        exact absurd rfl some
      | some bytes =>
        have decoded := PiLsmDb.rawBytes_some.mp raw
        cases found : db.replanChoice o.clock s.cache frame options with
        | none =>
          rw [found] at some
          exact absurd rfl some
        | some plan =>
          rw [raw, found] at some
          exact ⟨key, options, frame, bytes, plan, rfl, there, decoded,
            fun empty => some (congrArg List.length empty),
            (PiLsmDb.replanChoice_raw decoded).mp found⟩

def Completed.Accounted (db : PiLsmDb) (c : Completed) : Prop :=
  ∃ counted missed, c.converted = counted + missed ∧ c.before.Adds c.after counted ∧
    (missed ≠ 0 ↔ c.Overlooked db)

theorem Completed.accounted_counted {c : Completed}
    (counts : ∀ key options, c.request ≠ .call (.replanKey key options))
    (adds : c.before.Adds c.after c.converted) : c.Accounted db := by
  refine ⟨c.converted, 0, rfl, adds, fun some => absurd rfl some, ?_⟩
  rintro ⟨key, options, _, _, _, same, _⟩
  exact absurd same (counts key options)

theorem Completed.accounted_idle {c : Completed} (none : c.request.rewrites = none)
    (adds : c.before.Adds c.after 0) : c.Accounted db := by
  have zero : c.converted = 0 := by
    apply Completed.converted_zero
    rintro bytes ⟨key, frame, plan, rewrites, _⟩
    cases none.symm.trans rewrites
  refine Completed.accounted_counted (fun key options same => ?_) (zero ▸ adds)
  rw [same] at none
  cases none

theorem Request.Completes.accounted {request : Request}
    (completes : request.Completes db o t s s') :
    (Completed.mk request o s s').Accounted db := by
  cases request with
  | next options entry =>
    obtain ⟨r, run⟩ := completes
    have spared := (mild_next db options entry).mono Mild.spares
    exact Completed.accounted_idle rfl (Db.adds_spared spared run)
  | call call =>
    obtain ⟨r, run⟩ := completes
    cases call with
    | put key value options =>
      obtain ⟨r, run⟩ := alone_mapped run
      exact Completed.accounted_idle rfl (Db.adds_spared
        (only_put db Mild.spares (fun _ _ => spares_write _) value options) run)
    | delete key =>
      obtain ⟨r, run⟩ := alone_mapped run
      exact Completed.accounted_idle rfl
        (Db.adds_spared (only_delete db Mild.spares (spares_delete key)) run)
    | get key =>
      obtain ⟨r, run⟩ := alone_mapped run
      exact Completed.accounted_idle rfl (Db.adds_spared ((mild_get db key).mono Mild.spares) run)
    | planKey key options =>
      obtain ⟨r, run⟩ := alone_mapped run
      have free := alone_held (alone_started run).choose_spec
      obtain ⟨r₁, s₁, run₁, rewrote, _⟩ := alone_planKey db (o := o) (t := t) free options
      cases run.symm.trans run₁
      obtain ⟨r₂, s₂, run₂, adds⟩ := planKey_adds db (o := o) (t := t) free options
      cases run.symm.trans run₂
      have reads : ∀ frame plan, db.planKeyChoice o.clock frame options = some plan →
          ∃ e, ValueEnvelope.decode frame db.decodeLimits = .ok e := by
        intro frame plan chosen
        cases decoded : ValueEnvelope.decode frame db.decodeLimits with
        | ok e => exact ⟨e, rfl⟩
        | error e => simp [PiLsmDb.planKeyChoice, decoded] at chosen
      have rewrites : (Request.call (.planKey key options)).rewrites = some key := rfl
      rw [← rewrote.converted (o := o) rewrites reads] at adds
      exact Completed.accounted_counted (fun _ _ same => by cases same) adds
    | vacuumMeaning key options =>
      obtain ⟨r, run⟩ := alone_mapped run
      have free := alone_vacuumMeaning_free run
      have adds := vacuumMeaning_adds free run
      obtain ⟨r₁, s₁, run₁, rewrote, _⟩ := alone_vacuumMeaning db (o := o) (t := t) free options
      cases run.symm.trans run₁
      have reads : ∀ frame plan, db.vacuumChoice o.clock s.cache frame options = some plan →
          ∃ e, ValueEnvelope.decode frame db.decodeLimits = .ok e := by
        intro frame plan chosen
        cases decoded : ValueEnvelope.decode frame db.decodeLimits with
        | ok e => exact ⟨e, rfl⟩
        | error e => simp [PiLsmDb.vacuumChoice, decoded] at chosen
      have rewrites : (Request.call (.vacuumMeaning key options)).rewrites = some key := rfl
      rw [← rewrote.converted (o := o) rewrites reads] at adds
      exact Completed.accounted_counted (fun _ _ same => by cases same) adds
    | replanKey key options =>
      obtain ⟨r, run⟩ := alone_mapped run
      have free := alone_held (alone_started run).choose_spec
      have adds := Db.adds_spared (only_replanKey db Mild.spares spares_write options) run
      obtain ⟨r₁, s₁, run₁, rewrote, _⟩ := alone_replanKey db (o := o) (t := t) free options
      cases run.symm.trans run₁
      refine ⟨0, _, (rewrote.converted rfl ?_).trans (Nat.zero_add _).symm, adds,
        replan_overlooked_iff.symm⟩
      intro frame plan chosen
      cases decoded : ValueEnvelope.decode frame db.decodeLimits with
      | ok e => exact ⟨e, rfl⟩
      | error e => simp [PiLsmDb.replanChoice, decoded] at chosen

end Steps

noncomputable def convertedTotal (done : List Completed) : Nat :=
  (done.map Completed.converted).sum

theorem Session.accounted {db : PiLsmDb} {start s : Db} {done : List Completed}
    (fresh : start.rawBytesConvertedTotal = 0) (session : Session db start done s)
    (small : convertedTotal done < 2 ^ 64) :
    ∃ missed, s.rawBytesConvertedTotal.toNat + missed = convertedTotal done ∧
      (missed = 0 ↔ ∀ c ∈ done, ¬ c.Overlooked db) := by
  induction session with
  | start => exact ⟨0, by rw [fresh]; rfl, fun _ _ h => absurd h (List.not_mem_nil), fun _ => rfl⟩
  | @step done request o t s s' before completes ih =>
    obtain ⟨counted, missed, converted, adds, missed_iff⟩ := completes.accounted
    change s.Adds s' counted at adds
    have total : convertedTotal (done ++ [⟨request, o, s, s'⟩]) =
        convertedTotal done + (counted + missed) := by
      simp [convertedTotal, converted]
    rw [total] at small ⊢
    obtain ⟨earlier, balance, earlier_iff⟩ := ih (by omega)
    have width := lenU64_toNat (n := counted) (by omega)
    have sum : s'.rawBytesConvertedTotal.toNat = s.rawBytesConvertedTotal.toNat + counted := by
      rw [adds, saturatingAdd_toNat (by omega), width]
    refine ⟨earlier + missed, by omega, ?_⟩
    rw [Nat.add_eq_zero_iff, earlier_iff]
    constructor
    · rintro ⟨none, zero⟩ c member
      rcases List.mem_append.mp member with old | new
      · exact none c old
      · rw [List.mem_singleton.mp new]
        exact fun overlooked => missed_iff.mpr overlooked zero
    · intro none
      refine ⟨fun c old => none c (List.mem_append_left _ old), ?_⟩
      by_contra some
      exact none _ (List.mem_append_right _ (List.mem_singleton_self _)) (missed_iff.mp some)

/-- The reported total is what was converted if and only if no replan_key converted anything:
it writes the plan like the others and does not count. -/
theorem raw_bytes_counted_iff (db : PiLsmDb) (start s : Db) (done : List Completed)
    (fresh : start.rawBytesConvertedTotal = 0) (session : Session db start done s)
    (small : convertedTotal done < 2 ^ 64) :
    s.rawBytesConvertedTotal.toNat = convertedTotal done ↔ ∀ c ∈ done, ¬ c.Overlooked db := by
  obtain ⟨missed, balance, none⟩ := session.accounted fresh small
  rw [← none]
  omega

omit [Digests] in
theorem sample_converted (call : Call) {o : Oracle} {s' : Db} {chosen : Option ReconstructionPlan}
    {r : Except PiLsmError PlanReport} :
    letI := sampleDigests
    (Request.call call).rewrites = some [0x6b] → chosen = some samplePlan →
      sampleState.Rewrote [0x6b] chosen r s' →
      convertedTotal [⟨.call call, o, sampleState, s'⟩] = 1 := by
  let _ := sampleDigests
  rintro rewrites rfl ⟨_, _, stored⟩
  have converts : (Completed.mk (.call call) o sampleState s').Converts [0x61] :=
    ⟨[0x6b], sampleRawFrame, samplePlan, rewrites, rfl, by decide,
      by rw [stored, Function.update_self]⟩
  simp [convertedTotal, Completed.converted_eq converts]

omit [Digests] in
/-- A replan_key of a stored "a" converts one byte; the reported total stays zero. -/
theorem replanned_bytes_uncounted :
    ¬ ∀ [Digests] (db : PiLsmDb) (start s : Db) (done : List Completed),
      start.rawBytesConvertedTotal = 0 → Session db start done s →
      convertedTotal done < 2 ^ 64 → s.rawBytesConvertedTotal.toNat = convertedTotal done := by
  intro claim
  let _ := sampleDigests
  let db := sampleDb .default
  let o : Oracle := ⟨stopped, 0, fun _ => 0⟩
  let options : VacuumOptions := ⟨(barePlanner true).options, none⟩
  obtain ⟨r, s', run, rewrote, _⟩ := alone_replanKey db (o := o) (t := 0)
    (rfl : sampleState.locks [0x6b] = none) options
  have unchanged : s'.rawBytesConvertedTotal = 0 :=
    alone_only spares_exec (only_replanKey db Mild.spares spares_write options) run
  have total := sample_converted (.replanKey [0x6b] options) (o := o) rfl (by decide) rewrote
  have session : Session db sampleState
      [⟨.call (.replanKey [0x6b] options), o, sampleState, s'⟩] s' :=
    .step (t := 0) .start (alone_answer .report run)
  have counted := claim db sampleState s' _ rfl session (by rw [total]; decide)
  rw [total, unchanged] at counted
  revert counted
  decide

omit [Digests] in
theorem raw_bytes_counted_sample :
    letI := sampleDigests
    ∃ done s, Session (sampleDb .default) sampleState done s ∧ convertedTotal done = 1 ∧
      s.rawBytesConvertedTotal.toNat = convertedTotal done := by
  let _ := sampleDigests
  let db := sampleDb .default
  let o : Oracle := ⟨stopped, 0, fun _ => 0⟩
  let options := (barePlanner true).options
  obtain ⟨r, s', run, rewrote, _⟩ := alone_planKey db (o := o) (t := 0)
    (rfl : sampleState.locks [0x6b] = none) options
  have total := sample_converted (.planKey [0x6b] options) (o := o) rfl (by decide) rewrote
  have session :
      Session db sampleState [⟨.call (.planKey [0x6b] options), o, sampleState, s'⟩] s' :=
    .step (t := 0) .start (alone_answer .report run)
  refine ⟨_, s', session, total, (raw_bytes_counted_iff db sampleState s' _ rfl session
    (by rw [total]; decide)).mpr ?_⟩
  rintro c member ⟨key, options', _, _, _, same, _⟩
  rw [List.mem_singleton.mp member] at same
  cases same

end PiLSMer
