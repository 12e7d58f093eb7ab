import PiLSMer.Core.Score
import PiLSMer.Lib.History
import PiLSMer.Slate.Durable
import PiLSMer.Slate.Footprint

/-! What a rewrite reports against what it did. The run is on record: the report is compared
with the one action of the thread that wrote, whatever the other clients did before and after
it. The lock keeps the frame that was compared until it is replaced. -/
namespace PiLSMer
open Interleave

def wrote (s s' : Db) : Bool := s'.log ≠ s.log

def Silent : ∀ β : Type, DbAct β → Prop
  | _, .put _ _ _ => False
  | _, .delete _ => False
  | _, _ => True

theorem Mild.silent (β : Type) (a : DbAct β) (mild : Mild β a) : Silent β a := by
  cases a with
  | put key frame origin => exact mild
  | delete key => exact mild
  | _ => exact trivial

theorem silent_exec {β : Type} {a : DbAct β} {o : Oracle} {t : Nat} {s s' : Db} {b : β}
    (silent : Silent β a) (exec : dbMachine.exec o t a s = some (b, s')) :
    s'.store = s.store ∧ s'.log = s.log := by
  cases a with
  | lock key =>
    obtain ⟨_, rfl⟩ := exec_lock exec
    exact ⟨rfl, rfl⟩
  | put key frame origin => exact silent.elim
  | delete key => exact silent.elim
  | _ =>
    cases exec
    exact ⟨rfl, rfl⟩

theorem Silent.quiet {t : Nat} (β : Type) (a : DbAct β) (silent : Silent β a) :
    dbMachine.Quiet wrote t β a := by
  intro o s b s' exec
  rw [wrote, (silent_exec silent exec).2]
  exact decide_eq_false (fun differs => differs rfl)

theorem store_of_unwritten {β : Type} {a : DbAct β} {o : Oracle} {t : Nat} {s s' : Db} {b : β}
    (exec : dbMachine.exec o t a s = some (b, s')) (unwritten : wrote s s' = false) :
    s'.store = s.store := by
  have logged : ∀ event, s'.log ≠ event :: s.log := by
    intro event same
    rw [wrote, same] at unwritten
    exact absurd (of_decide_eq_false unwritten) (fun h => h (List.cons_ne_self _ _))
  cases a with
  | put key frame origin =>
    cases exec
    exact absurd rfl (logged _)
  | delete key =>
    cases exec
    exact absurd rfl (logged _)
  | _ => exact (silent_exec (by exact trivial) exec).1

namespace Truthful

def Rely (t : Nat) (s s' : Db) : Prop :=
  ∀ key, s.locks key = some t → s'.locks key = some t ∧ s'.store key = s.store key

def protocol (frames : Set Bytes) : Protocol Db where
  good := StoredIn frames
  inv _ := True
  rely := Rely
  refl _ _ _ h := ⟨h, rfl⟩
  trans _ _ _ _ first second key held := by
    obtain ⟨held', same⟩ := first key held
    obtain ⟨held'', same'⟩ := second key held'
    exact ⟨held'', same'.trans same⟩

variable {frames : Set Bytes} {t : Nat} {key : Bytes}

theorem orderly : Orderly (protocol frames) t key where
  quiet _ _ step _ :=
    ⟨trivial, fun u other k held => ⟨(step.locks k u other).mpr held, congrFun step.store k⟩⟩
  locks _ _ moved held := (moved key held).1

/-- A thread knows of the frames it reads that they are frames of the run. -/
def discipline [Digests] (db : PiLsmDb) (frames : Set Bytes) (t : Nat) (key : Bytes)
    (limit : UInt64) : Discipline (protocol frames) t db key limit where
  before _ := True
  after _ := True
  seen frame := frame ∈ frames
  hit _ _ := True
  miss _ := True
  guarded c s := s.store key = some c
  orderly := orderly
  steady := Steady.pure True
  steady' := Steady.pure True
  guarded_stable := by
    rintro c s s' ⟨held, _, there⟩ moved _ _
    obtain ⟨held', same⟩ := moved key held
    exact ⟨held', trivial, same.trans there⟩
  sees s frame _ _ good there := good key frame there
  hits _ _ _ _ _ _ := trivial
  misses _ _ _ _ _ := trivial
  caches _ _ _ _ _ _ _ _ _ _ _ := ⟨trivial, fun _ _ _ held => ⟨held, rfl⟩, trivial⟩
  guards _ _ _ _ _ _ there := there

theorem write_others {s : Db} (frame : Option Bytes) (origin : Origin)
    (held : s.locks key = some t) : ∀ u, u ≠ t → Rely u s (s.write t key frame origin) := by
  intro u different other owned
  refine ⟨owned, ?_⟩
  have differs : other ≠ key := by
    rintro rfl
    rw [held] at owned
    exact different (Option.some.inj owned).symm
  exact Function.update_of_ne differs _ _

end Truthful

variable [Digests]

section Written

variable {p : Planner} {bytes : Bytes} {options : PlanOptions} {plan : ReconstructionPlan}

omit [Digests] in
theorem ChunkRef.Fresh.size_le {n : Nat} {c : ChunkRef} (fresh : c.Fresh n) :
    c.size ≤ 2 * c.encode.length := by
  cases c with
  | located ix offset len transform =>
    obtain ⟨_, _, small, _⟩ := fresh
    have := putVarint_pos ix.toUInt64
    have := putVarint_pos offset
    have := putVarint_pos len.toUInt64
    simp only [ChunkRef.size, ChunkRef.encode, List.length_cons, List.length_append]
    omega
  | literal bytes =>
    simp only [ChunkRef.size, ChunkRef.encode, List.length_cons, List.length_append]
    omega

variable (plan) in
theorem payload_le_encode :
    plan.encodePayload.length ≤ (ValueEnvelope.plan plan).encode.length := by
  have size := sealFrame_length (frameBody KIND_PLAN plan.logicalHash plan.encodePayload)
  simp only [frameBody, List.length_append] at size
  change (ValueEnvelope.plan plan).encode.length = _ at size
  omega

theorem Planner.Made.value_short (h : p.Made bytes options plan)
    (short : (ValueEnvelope.plan plan).encode.length < 2 ^ 63) : bytes.length < 2 ^ 64 := by
  have each : ∀ chunks : List ChunkRef, (∀ c ∈ chunks, c.Fresh plan.streams.length) →
      coveredSize chunks ≤ 2 * (chunks.flatMap ChunkRef.encode).length := by
    intro chunks fresh
    induction chunks with
    | nil => exact Nat.le_refl _
    | cons c cs ih =>
      have head := (fresh c (List.mem_cons_self ..)).size_le
      have tail := ih (fun d member => fresh d (List.mem_cons_of_mem _ member))
      simp only [coveredSize, List.map_cons, List.sum_cons, List.flatMap_cons,
        List.length_append] at tail ⊢
      omega
  have total := each plan.chunks h.chunks
  have payload := payload_le_encode plan
  rw [h.covered] at total
  simp only [ReconstructionPlan.encodePayload, List.length_append] at payload
  omega

theorem Planner.Made.admitted_loosest (h : p.Made bytes options plan)
    (few : p.indexes.length < 2 ^ 32)
    (short : (ValueEnvelope.plan plan).encode.length < 2 ^ 58) : plan.Admitted loosest := by
  have payload := payload_le_encode plan
  have counted := length_le_flatMap _ plan.chunks ChunkRef.encode_pos
  have inside : (plan.chunks.flatMap ChunkRef.encode).length ≤ plan.encodePayload.length := by
    simp only [ReconstructionPlan.encodePayload, List.length_append]
    omega
  have parts : plan.Addressable := ReconstructionPlan.addressable (by omega)
  have streams : plan.streams.length = p.indexes.length := by
    rw [h.streams, Planner.planStreams, List.length_map]
  have top : loosest.maxStreamsPerPlan.toNat = 2 ^ 32 - 1 := by decide
  have chunk : loosest.maxChunkLen.toNat = 2 ^ 32 - 1 := by decide
  have encoded : loosest.maxEncodedPlanLen.toNat = 2 ^ 64 - 1 := by decide
  have count : loosest.maxChunkCount.toNat = 2 ^ 64 - 1 := by decide
  have chunks := parts.chunks
  refine ⟨le_u64_max _, by omega, by omega, by omega, by omega, fun c member => ?_,
    fun _ _ => le_u64_max _⟩
  have fresh := h.chunks c member
  cases c with
  | located ix offset len transform =>
    obtain ⟨_, _, small, _⟩ := fresh
    simp only [ChunkRef.size]
    omega
  | literal bytes =>
    have one : bytes.length = 1 := fresh
    simp only [ChunkRef.size]
    omega

end Written

/-- The write that a report of Rewritten tells of. What was written decodes under all limits that
leave the plan alone, and the widest limits do. -/
structure PlanReport.Tells (key : Bytes) (report : PlanReport) (old : Bytes)
    (plan : ReconstructionPlan) (turn : Turn Db) : Prop where
  replaced : turn.before.store key = some old
  written : turn.after.store =
    Function.update turn.before.store key (some (ValueEnvelope.plan plan).encode)
  sourceHash : report.sourceEnvelopeHash = some (envelopeHash old)
  oldBytes : report.oldEnvelopeBytes = some old.length
  newBytes : report.newEnvelopeBytes = some (ValueEnvelope.plan plan).encode.length
  newChunks : report.newChunkCount = some plan.chunks.length
  decodes : ∀ limits, plan.Admitted limits →
    ValueEnvelope.decode (ValueEnvelope.plan plan).encode limits = .ok (.plan plan)
  unbounded : plan.Admitted loosest

def PlanReport.Truthful (key : Bytes) (report : PlanReport)
    (writes : List (Turn Db)) : Prop :=
  if report.status = .rewritten then
    ∃ turn old plan, writes = [turn] ∧ report.Tells key old plan turn
  else writes = []

namespace Truthful

variable {db : PiLsmDb} {frames : Set Bytes} {t : Nat} {key : Bytes}

def Unwritten (t : Nat) (r : Recorded Db) : Prop := r.own wrote t = []

def Reports (key : Bytes) (t : Nat) :
    Except PiLsmError PlanReport → Recorded Db → Prop :=
  onResult (fun report r => report.Truthful key (r.own wrote t)) (Unwritten t)

omit [Digests] in
theorem unwritten_stable : Stable ((protocol frames).recording wrote) t (Unwritten t) :=
  own_stable wrote (fun turns => turns = [])

omit [Digests] in
theorem recorded {α : Type} {x : DbOp α} {post : α → Prop}
    (h : Triple dbMachine (protocol frames) t (fun _ => True) x.run
      (onResult (fun a _ => post a) (fun _ => True))) (silent : x.run.Only Silent) :
    Triple dbMachine.recording ((protocol frames).recording wrote) t (Unwritten t) x.run
      (onResult (fun a r => post a ∧ Unwritten t r) (Unwritten t)) := by
  refine (h.recording_quiet wrote (silent.mono Silent.quiet) (fun turns => turns = [])).consequence
    (fun _ hr => ⟨trivial, hr⟩) (fun result r _ _ ends => ?_)
  cases result with
  | ok a => exact ends
  | error e => exact ends.2

omit [Digests] in
theorem recorded_holding {α : Type} {body : DbOp α} (post : α → List (Turn Db) → Prop)
    (err : List (Turn Db) → Prop)
    (h : Triple dbMachine.recording ((protocol frames).recording wrote) t
      (fun r => r.state.locks key = some t ∧ Unwritten t r) body.run
      (onResult (fun a r => r.state.locks key = some t ∧ post a (r.own wrote t))
        (fun r => r.state.locks key = some t ∧ err (r.own wrote t)))) :
    Triple dbMachine.recording ((protocol frames).recording wrote) t (Unwritten t)
      (holding key body).run
      (onResult (fun a r => post a (r.own wrote t)) (fun r => err (r.own wrote t))) := by
  have locks : Orderly (protocol frames) t key := orderly
  have take : Triple dbMachine.recording ((protocol frames).recording wrote) t (Unwritten t)
      (perform (.lock key)) (fun _ r => r.state.locks key = some t ∧ Unwritten t r) :=
    ((locks.take (Steady.pure True)).recording_quiet wrote
      ⟨Silent.quiet _ (.lock key) trivial, fun _ => trivial⟩ (fun turns => turns = [])).consequence
      (fun _ hr => ⟨trivial, hr⟩) (fun _ _ _ _ hr => ⟨hr.1.1, hr.2⟩)
  have release (known : List (Turn Db) → Prop) :
      Triple dbMachine.recording ((protocol frames).recording wrote) t
        (fun r => r.state.locks key = some t ∧ known (r.own wrote t)) (perform (.unlock key))
        (fun _ r => known (r.own wrote t)) :=
    ((locks.release (Steady.pure True)).recording_quiet wrote
      ⟨Silent.quiet _ (.unlock key) trivial, fun _ => trivial⟩ known).consequence
      (fun _ hr => ⟨⟨hr.1, trivial⟩, hr.2⟩) (fun _ _ _ _ hr => hr.2)
  refine Triple.bind take (fun _ => Triple.bind h (fun result => ?_))
  cases result with
  | ok a =>
    exact Triple.bind (release (post a))
      (fun _ => Triple.done (own_stable wrote (post a)) (fun _ hr _ _ => hr))
  | error e =>
    exact Triple.bind (release err)
      (fun _ => Triple.done (own_stable wrote err) (fun _ hr _ _ => hr))

omit [Digests] in
theorem held_stable (known : List (Turn Db) → Prop) :
    Stable ((protocol frames).recording wrote) t
      (fun r => r.state.locks key = some t ∧ known (r.own wrote t)) :=
  fun r r' h moved inv good =>
    ⟨(moved.1 key h.1).1, own_stable wrote known r r' h.2 moved inv good⟩

omit [Digests] in
theorem found_stable (found : Option Bytes) : Stable ((protocol frames).recording wrote) t
    (fun r => (r.state.locks key = some t ∧ r.state.store key = found) ∧ Unwritten t r) := by
  rintro r r' ⟨⟨held, there⟩, unwritten⟩ moved inv good
  obtain ⟨held', same⟩ := moved.1 key held
  exact ⟨⟨held', same.trans there⟩, unwritten_stable r r' unwritten moved inv good⟩

omit [Digests] in
theorem look_safe : Triple dbMachine.recording ((protocol frames).recording wrote) t
    (fun r => r.state.locks key = some t ∧ Unwritten t r)
    (issue (.get key) : DbOp (Option Bytes)).run
    (onResult (fun found r => (r.state.locks key = some t ∧ r.state.store key = found) ∧
      Unwritten t r) (fun r => r.state.locks key = some t ∧ Unwritten t r)) := by
  apply Triple.issued (held_stable (fun turns => turns = [])) found_stable
  intro r o b r' ⟨held, unwritten⟩ _ _ exec _
  obtain ⟨s', run, rfl⟩ := recording_exec exec
  cases run
  have same : (Recorded.mk r.state (r.history ++ [⟨t, r.state, r.state⟩])).own wrote t =
      r.own wrote t := own_unnoted (decide_eq_false (fun differs => differs rfl))
  exact ⟨trivial, fun u other => ⟨(protocol frames).refl u r.state, own_other other⟩,
    ⟨held, rfl⟩, same.trans unwritten⟩

theorem written_tells (few : db.planner.indexes.length < 2 ^ 32) {s : Db} {old w : Bytes}
    (there : s.store key = some old)
    {options : PlanOptions} {clock : Nat → Nat} {plan : ReconstructionPlan}
    (planned : db.planner.planWithOptions clock w options = .ok plan)
    (short : (ValueEnvelope.plan plan).encode.length < 2 ^ 58) (oldChunkCount : Option Nat) :
    PlanReport.Tells key ⟨.rewritten, some (envelopeHash old), some old.length,
      some (ValueEnvelope.plan plan).encode.length, oldChunkCount, some plan.chunks.length⟩ old plan
      ⟨t, s, s.write t key (some (ValueEnvelope.plan plan).encode) .rewrite⟩ where
  replaced := there
  written := rfl
  sourceHash := rfl
  oldBytes := rfl
  newBytes := rfl
  newChunks := rfl
  decodes _ admitted :=
    have made := Planner.planWithOptions_made planned
    made.decodes (made.value_short (by omega)) admitted
  unbounded := (Planner.planWithOptions_made planned).admitted_loosest few short

section Hashed

variable (injective : frames.InjOn envelopeHash) (short : ∀ frame ∈ frames, frame.length < 2 ^ 58)
  (few : db.planner.indexes.length < 2 ^ 32)

include injective short few

theorem write_truthful {source : Source} {frame : Bytes}
    (member : frame ∈ frames) (hash : source.hash = envelopeHash frame)
    (bytes : source.bytes = frame.length) {w : Bytes} {options : PlanOptions} {clock : Nat → Nat}
    {plan : ReconstructionPlan} (planned : db.planner.planWithOptions clock w options = .ok plan)
    (oldChunkCount : Option Nat) :
    Triple dbMachine.recording ((protocol frames).recording wrote) t (Unwritten t)
      (db.writeIfSourceUnchanged key source.hash (ValueEnvelope.plan plan).encode
        ⟨.rewritten, some source.hash, some source.bytes, none, oldChunkCount,
          some plan.chunks.length⟩).run (Reports key t) := by
  have held : Stable ((protocol frames).recording wrote) t
      (fun r => r.state.locks key = some t ∧ Unwritten t r) :=
    held_stable (fun turns => turns = [])
  refine recorded_holding (fun (report : PlanReport) turns => report.Truthful key turns)
    (fun turns => turns = []) ?_
  have stays : ∀ (found : Option Bytes) (report : PlanReport), report.status ≠ .rewritten →
      Triple dbMachine.recording ((protocol frames).recording wrote) t
        (fun r => (r.state.locks key = some t ∧ r.state.store key = found) ∧ Unwritten t r)
        (pure report : DbOp PlanReport).run (onResult
          (fun report r => r.state.locks key = some t ∧ report.Truthful key (r.own wrote t))
          (fun r => r.state.locks key = some t ∧ Unwritten t r)) := by
    intro found report kept
    refine Triple.pure (found_stable found) (fun r hr _ _ => ⟨hr.1.1, ?_⟩)
    rw [PlanReport.Truthful, if_neg kept]
    exact hr.2
  refine Triple.andThen look_safe held (fun found => ?_)
  cases found with
  | none => exact stays none .missing nofun
  | some current =>
    dsimp only
    split
    · exact stays (some current) _ nofun
    · rename_i unchanged
      let final : PlanReport := ⟨.rewritten, some source.hash, some source.bytes,
        some (ValueEnvelope.plan plan).encode.length, oldChunkCount, some plan.chunks.length⟩
      refine Triple.andThen (Q := fun _ r => r.state.locks key = some t ∧
        final.Truthful key (r.own wrote t)) (Triple.issued (found_stable (some current))
          (fun _ => held_stable (fun turns => final.Truthful key turns)) ?_) held
        (fun _ => Triple.pure (held_stable (fun turns => final.Truthful key turns))
          (fun _ hr _ _ => hr))
      rintro r o b r' ⟨⟨locked, there⟩, unwritten⟩ _ good exec good'
      obtain ⟨s', run, rfl⟩ := recording_exec exec
      cases run
      have same : current = frame :=
        injective (good key current there) member ((Decidable.not_not.mp unchanged).trans hash)
      subst same
      have stored : (ValueEnvelope.plan plan).encode ∈ frames :=
        good' key _ (Function.update_self ..)
      let after := r.state.write t key (some (ValueEnvelope.plan plan).encode) .rewrite
      have noted : (Recorded.mk after (r.history ++ [⟨t, r.state, after⟩])).own wrote t =
          r.own wrote t ++ [⟨t, r.state, after⟩] :=
        own_noted (decide_eq_true (List.cons_ne_self _ _))
      rw [show r.own wrote t = [] from unwritten, List.nil_append] at noted
      refine ⟨trivial, fun u other => ⟨write_others _ _ locked u other, own_other other⟩, locked,
        ?_⟩
      rw [PlanReport.Truthful, if_pos rfl]
      have tells := written_tells (t := t) few there planned (short _ stored) oldChunkCount
      rw [← hash, ← bytes] at tells
      exact ⟨_, current, plan, noted, tells⟩

omit injective short few in
theorem skip_truthful {report : PlanReport} (kept : report.status ≠ .rewritten) :
    Triple dbMachine.recording ((protocol frames).recording wrote) t (Unwritten t)
      (pure report : DbOp PlanReport).run (Reports key t) := by
  refine Triple.pure unwritten_stable (fun r hr _ _ => ?_)
  rw [PlanReport.Truthful, if_neg kept]
  exact hr

omit injective short few [Digests] in
theorem counted (counter : DbCounter) (value : UInt64) (known : List (Turn Db) → Prop) :
    Triple dbMachine.recording ((protocol frames).recording wrote) t
      (fun r => known (r.own wrote t)) (issue (.add counter value) : DbOp Unit).run
      (onResult (fun _ r => known (r.own wrote t)) (Unwritten t)) := by
  have add : Triple dbMachine (protocol frames) t (fun _ => True)
      (issue (.add counter value) : DbOp Unit).run
      (onResult (fun _ _ => True) (fun _ => False)) :=
    (orderly : Orderly (protocol frames) t []).issued (Steady.pure True).calm
      (DbAct.Counts.add counter value)
  refine (add.recording_quiet wrote (Prog.Only.issue (Silent.quiet _ _ trivial)) known).consequence
    (fun _ hr => ⟨trivial, hr⟩) (fun a r _ _ hr => ?_)
  cases a with
  | ok b => exact hr.2
  | error e => exact hr.1.elim

omit injective short few in
theorem countRewritten_truthful (report : PlanReport) (counter : DbCounter) (value : UInt64) :
    Triple dbMachine.recording ((protocol frames).recording wrote) t
      (fun r => report.Truthful key (r.own wrote t)) (countRewritten report counter value).run
      (Reports key t) := by
  have stable : Stable ((protocol frames).recording wrote) t
      (fun r => report.Truthful key (r.own wrote t)) :=
    own_stable wrote (fun turns => report.Truthful key turns)
  unfold countRewritten
  split
  · exact Triple.andThen (counted counter value (fun turns => report.Truthful key turns))
      unwritten_stable (fun _ => Triple.pure stable (fun _ hr _ _ => hr))
  · exact Triple.pure stable (fun _ hr _ _ => hr)

def ReadFrom (db : PiLsmDb) (frames : Set Bytes) (source : Source) : Prop :=
  ∃ frame ∈ frames, ValueEnvelope.decode frame db.decodeLimits = .ok source.envelope ∧
    source.hash = envelopeHash frame ∧ source.bytes = frame.length

theorem planAndWrite_truthful {source : Source}
    (read : ReadFrom db frames source) (w : Bytes) (options : PlanOptions)
    (oldChunkCount : Option Nat) (unwanted : Bytes → Nat → Bool) :
    Triple dbMachine.recording ((protocol frames).recording wrote) t (Unwritten t)
      (db.planAndWrite key source w options oldChunkCount unwanted).run (Reports key t) := by
  have plans : Triple dbMachine (protocol frames) t (fun _ => True)
      (db.planBytesWithOptions w options).run
      (fun result _ => (∃ clock, db.planner.planWithOptions clock w options = result) ∧ True) :=
    (orderly : Orderly (protocol frames) t key).planBytes (Steady.pure True).calm db w options
  have plans := plans.recording_quiet wrote
    (((mild_planBytes db w options).mono Mild.silent).mono Silent.quiet) (fun turns => turns = [])
  refine Triple.andThen (Q := fun result r =>
    (∃ clock, db.planner.planWithOptions clock w options = result) ∧ Unwritten t r)
    (Triple.attempted (plans.consequence (fun _ hr => ⟨trivial, hr⟩)
      (fun _ _ _ _ hr => ⟨hr.1.1, hr.2⟩))
      (fun _ => fun r r' hr moved inv good =>
        ⟨hr.1, unwritten_stable r r' hr.2 moved inv good⟩)) unwritten_stable
    (fun result => Triple.of_pure ?_)
  rintro ⟨clock, planned⟩
  cases result with
  | error e =>
    have failed : Triple dbMachine.recording ((protocol frames).recording wrote) t (Unwritten t)
        (throw e : DbOp PlanReport).run (Reports key t) :=
      Triple.throw unwritten_stable (fun _ hr _ _ => hr)
    cases e with
    | planningFailed reason =>
      exact Triple.andThen (counted _ _ (fun turns => turns = [])) unwritten_stable
        (fun _ => skip_truthful nofun)
    | _ => exact failed
  | ok plan =>
    dsimp only
    split
    · exact skip_truthful nofun
    · obtain ⟨frame, member, _, hash, bytes⟩ := read
      exact write_truthful injective short few member hash bytes planned oldChunkCount

omit injective short few in
theorem read_recorded : Triple dbMachine.recording ((protocol frames).recording wrote) t
    (Unwritten t) (holding key (db.readCurrentEnvelope key)).run
    (onResult (fun found r => (∀ source, found = some source → ReadFrom db frames source) ∧
      Unwritten t r) (Unwritten t)) := by
  refine recorded ((Discipline.readLocked (R := discipline db frames t key 0)).consequence
    (fun _ _ => trivial) (fun result s _ _ hs => ?_)) ((mild_readCurrentEnvelope db key).mono
      Mild.silent)
  cases result with
  | error e => trivial
  | ok found => exact hs.1

omit injective short few in
theorem logicalBytes_recorded {source : Source} (read : ReadFrom db frames source)
    (limit : UInt64) :
    Triple dbMachine.recording ((protocol frames).recording wrote) t (Unwritten t)
      (db.logicalBytes source.envelope limit).run
      (onResult (fun _ => Unwritten t) (Unwritten t)) := by
  have bytes : Triple dbMachine (protocol frames) t (fun _ => True)
      (db.logicalBytes source.envelope limit).run (onResult (fun _ _ => True) (fun _ => True)) :=
    (Discipline.logicalBytes (R := discipline db frames t [] limit) read).consequence
      (fun _ hs => hs) (fun result _ _ _ _ => by cases result <;> trivial)
  refine (recorded bytes ((mild_logicalBytes db _ _).mono
    Mild.silent)).consequence (fun _ hr => hr) (fun result r _ _ hr => ?_)
  cases result with
  | ok w => exact hr.2
  | error e => exact hr

theorem planKey_truthful (options : PlanOptions) :
    Triple dbMachine.recording ((protocol frames).recording wrote) t (Unwritten t)
      (db.planKey key options).run (Reports key t) := by
  refine Triple.andThen read_recorded unwritten_stable
    (fun found => Triple.of_pure (fun facts => ?_))
  cases found with
  | none => exact skip_truthful (by simp [PlanReport.missing])
  | some source =>
    have read := facts source rfl
    cases content : source.envelope with
    | plan p =>
      simp only [content]
      exact skip_truthful (by simp [PlanReport.alreadyPlanned])
    | raw bytes =>
      simp only [content]
      exact Triple.andThen (planAndWrite_truthful injective short few read bytes options none _)
        unwritten_stable (fun report => countRewritten_truthful report _ _)

theorem vacuumMeaning_truthful (options : VacuumOptions) :
    Triple dbMachine.recording ((protocol frames).recording wrote) t (Unwritten t)
      (db.vacuumMeaning key options).run (Reports key t) := by
  refine Triple.andThen (counted _ _ (fun turns => turns = [])) unwritten_stable
    (fun _ => Triple.andThen read_recorded unwritten_stable
      (fun found => Triple.of_pure (fun facts => ?_)))
  cases found with
  | none => exact skip_truthful (by simp [PlanReport.missing])
  | some source =>
    have read := facts source rfl
    cases content : source.envelope with
    | raw bytes =>
      simp only [content]
      exact planKey_truthful injective short few options.planOptions
    | plan old =>
      simp only [content]
      have rebuilt := logicalBytes_recorded (t := t) read (db.callLimit options)
      rw [content] at rebuilt
      exact Triple.andThen rebuilt unwritten_stable (fun w =>
        Triple.andThen (planAndWrite_truthful injective short few read w options.planOptions _ _)
          unwritten_stable (fun report => countRewritten_truthful report _ _))

theorem replanKey_truthful (options : VacuumOptions) :
    Triple dbMachine.recording ((protocol frames).recording wrote) t (Unwritten t)
      (db.replanKey key options).run (Reports key t) := by
  refine Triple.andThen read_recorded unwritten_stable
    (fun found => Triple.of_pure (fun facts => ?_))
  cases found with
  | none => exact skip_truthful (by simp [PlanReport.missing])
  | some source =>
    have read := facts source rfl
    exact Triple.andThen (logicalBytes_recorded read (db.callLimit options)) unwritten_stable
      (fun w => planAndWrite_truthful injective short few read w options.planOptions _ _)

end Hashed

theorem allows {limit : UInt64} {options : PlanOptions}
    {due : Source → ReconstructionPlan → Prop} :
    (discipline db frames t key limit).Allows options due := by
  intro s source w clock plan c _ _ _ _ _ held _ _ _ _ s' _
  exact ⟨trivial, write_others _ _ held, trivial⟩

theorem put_safe (value : Bytes) (options : PutOptions) :
    Triple dbMachine (protocol frames) t (fun _ => True)
      (db.putWithOptions key value options).run (fun _ _ => True) :=
  (orderly.put (Steady.pure True) (Steady.pure True) (fun _ _ _ held _ _ _ _ =>
    ⟨trivial, write_others _ _ held, trivial⟩)).consequence (fun _ hs => hs)
    (fun _ _ _ _ _ => trivial)

omit [Digests] in
theorem delete_safe : Triple dbMachine (protocol frames) t (fun _ => True)
    (db.delete key).run (fun _ _ => True) :=
  (orderly.delete (Steady.pure True) (Steady.pure True) (fun _ held _ _ _ _ =>
    ⟨trivial, write_others _ _ held, trivial⟩)).consequence (fun _ hs => hs)
    (fun _ _ _ _ _ => trivial)

end Truthful

/-- The clients of a handle. A thread ends with its call and what it returned. -/
def Answering (db : PiLsmDb) (p : Prog DbAct (Call × Except PiLsmError Answer)) : Prop :=
  ∃ call : Call, p = ((call.op db).run >>= fun result => .done (call, result))

/-- Anything else that respects the locks: scans, and compaction of keys nobody holds. -/
structure Respects (s s' : Db) : Prop where
  locks : s'.locks = s.locks
  held : ∀ key, s.locks key ≠ none → s'.store key = s.store key

namespace Truthful

variable {db : PiLsmDb} {frames : Set Bytes} {t : Nat}

def Promise (t : Nat) (ended : Call × Except PiLsmError Answer) (r : Recorded Db) : Prop :=
  ∀ key, ended.1.rewrites = some key →
    match ended.2 with
    | .ok (.report report) => report.Truthful key (r.own wrote t)
    | .ok _ => False
    | .error _ => Unwritten t r

theorem unreported {p : Prog DbAct (Except PiLsmError Answer)} {call : Call}
    (none : call.rewrites = none)
    (h : Triple dbMachine (protocol frames) t (fun _ => True) p (fun _ _ => True)) :
    Triple dbMachine.recording ((protocol frames).recording wrote) t (Unwritten t)
      (p >>= fun result => .done (call, result)) (Promise t) := by
  refine Triple.bind ((h.recording wrote).consequence (fun _ _ => trivial) (fun _ _ _ _ hr => hr))
    (fun result => Triple.done (fun _ _ h _ _ _ => h) (fun r _ _ _ key rewrites => ?_))
  cases none.symm.trans rewrites

theorem reported {x : DbOp PlanReport} {call : Call} {key : Bytes}
    (rewrites : call.rewrites = some key)
    (h : Triple dbMachine.recording ((protocol frames).recording wrote) t (Unwritten t) x.run
      (Reports key t)) :
    Triple dbMachine.recording ((protocol frames).recording wrote) t (Unwritten t)
      ((x >>= fun report => pure (.report report) : DbOp Answer).run >>=
        fun result => .done (call, result)) (Promise t) := by
  have answered : Triple dbMachine.recording ((protocol frames).recording wrote) t (Unwritten t)
      (x >>= fun report => pure (.report report) : DbOp Answer).run
      (onResult (fun answer r => ∃ report, answer = .report report ∧
        report.Truthful key (r.own wrote t)) (Unwritten t)) :=
    Triple.andThen (Q := fun (report : PlanReport) (r : Recorded Db) =>
      report.Truthful key (r.own wrote t)) h unwritten_stable (fun report =>
        Triple.pure (own_stable wrote (fun turns => report.Truthful key turns))
          (fun _ hr _ _ => ⟨report, rfl, hr⟩))
  refine Triple.bind answered (fun result => ?_)
  cases result with
  | error e =>
    refine Triple.done unwritten_stable (fun r hr _ _ other same => ?_)
    exact hr
  | ok answer =>
    refine Triple.done (own_stable wrote (fun turns => ∃ report, answer = .report report ∧
      report.Truthful key turns)) (fun r hr _ _ other same => ?_)
    obtain ⟨report, rfl, truthful⟩ := hr
    cases rewrites.symm.trans same
    exact truthful

theorem call_safe (injective : frames.InjOn envelopeHash)
    (short : ∀ frame ∈ frames, frame.length < 2 ^ 58) (few : db.planner.indexes.length < 2 ^ 32)
    {p : Prog DbAct (Call × Except PiLsmError Answer)} (call : Answering db p) (t : Nat) :
    Triple dbMachine.recording ((protocol frames).recording wrote) t (Unwritten t) p
      (Promise t) := by
  obtain ⟨call, rfl⟩ := call
  have answered : ∀ {α : Type} {x : DbOp α} {f : α → Answer},
      Triple dbMachine (protocol frames) t (fun _ => True) x.run (fun _ _ => True) →
      Triple dbMachine (protocol frames) t (fun _ => True)
        (x >>= fun a => pure (f a) : DbOp Answer).run (fun _ _ => True) := by
    intro α x f h
    refine Triple.bind (f := fun r => ExceptT.bindCont (fun a => (pure (f a) : DbOp Answer)) r) h
      (fun r => ?_)
    cases r with
    | ok a => exact Triple.done (fun _ _ h _ _ _ => h) (fun _ _ _ _ => trivial)
    | error e => exact Triple.done (fun _ _ h _ _ _ => h) (fun _ _ _ _ => trivial)
  cases call with
  | put key value options => exact unreported rfl (answered (put_safe value options))
  | delete key => exact unreported rfl (answered delete_safe)
  | get key =>
    exact unreported rfl (answered ((Discipline.get (R := discipline db frames t key _)
      rfl).consequence (fun _ _ => trivial) (fun _ _ _ _ _ => trivial)))
  | planKey key options => exact reported rfl (planKey_truthful injective short few options)
  | vacuumMeaning key options =>
    exact reported rfl (vacuumMeaning_truthful injective short few options)
  | replanKey key options => exact reported rfl (replanKey_truthful injective short few options)

end Truthful

/-- Rewrites write all or nothing and report what they wrote. In every run of any clients, a
call that ended without Rewritten has written nothing; one that ended with Rewritten has written
once, to its key, the plan frame the report describes over the frame it names. Frames are held in
memory, no two of the run have one hash, and a u32 counts the planner's streams. -/
theorem rewrites_truthful (db : PiLsmDb) (frames : Set Bytes)
    (injective : frames.InjOn envelopeHash)
    (short : ∀ frame ∈ frames, frame.length < 2 ^ 58)
    (few : db.planner.indexes.length < 2 ^ 32) (start : Db)
    {pool : Pool DbAct (Recorded Db) (Call × Except PiLsmError Answer)}
    (reach : Pool.Reach dbMachine.recording (Answering db) (Unrecorded Respects)
      (fun r => StoredIn frames r.state) ⟨start, []⟩ pool)
    {t : Nat} {call : Call} {result : Except PiLsmError Answer}
    (ended : pool.threads[t]? = some (.done (call, result))) {key : Bytes}
    (rewrites : call.rewrites = some key) :
    ((∀ report, result = .ok (.report report) → report.status ≠ .rewritten) →
      pool.state.own wrote t = []) ∧
    (∀ report, result = .ok (.report report) → report.status = .rewritten →
      ∃ turn old plan, pool.state.own wrote t = [turn] ∧ report.Tells key old plan turn) ∧
    ∀ turn ∈ pool.state.history, turn.thread = t → turn ∉ pool.state.own wrote t →
      turn.after.store = turn.before.store := by
  let P := (Truthful.protocol frames).recording wrote
  let fresh : Fresh P := ⟨Truthful.Unwritten, fun t r r' h moved => moved.2.trans h⟩
  have keeps : ∀ r r', Unrecorded Respects r r' → P.inv r → P.good r → P.good r' →
      P.inv r' ∧ ∀ t, P.rely t r r' := by
    intro r r' move _ _ _
    refine ⟨trivial, fun u => ⟨fun k held => ?_, by rw [Recorded.own, Recorded.own, move.2]⟩⟩
    exact ⟨by rw [move.1.locks, held], move.1.held k (by rw [held]; simp)⟩
  have newborn : ∀ u, fresh.holds u ⟨start, []⟩ := fun _ => rfl
  have kept := reach.kept (P := P) (F := fresh) (Q := Truthful.Promise) trivial newborn
    (fun p calls t => Truthful.call_safe injective short few calls t) keeps
  have promise := kept.result ended key rewrites
  refine ⟨fun idle => ?_, fun report same status => ?_, fun turn member thread other => ?_⟩
  · cases result with
    | error e => exact promise
    | ok answer =>
      cases answer with
      | handle written => exact promise.elim
      | value found => exact promise.elim
      | report report =>
        have truthful : report.Truthful key (pool.state.own wrote t) := promise
        rwa [PlanReport.Truthful, if_neg (idle report rfl)] at truthful
  · subst same
    have truthful : report.Truthful key (pool.state.own wrote t) := promise
    rwa [PlanReport.Truthful, if_pos status] at truthful
  · obtain ⟨β, a, o, b, exec⟩ := reach.turns turn member
    apply store_of_unwritten exec
    by_contra noted
    exact other (List.mem_filter.mpr ⟨member, by simp [thread, noted]⟩)

omit [Digests] in
theorem rewrites_truthful_sample :
    letI := frameDigests
    ∃ (pool : Pool DbAct (Recorded Db) (Call × Except PiLsmError Answer)) (report : PlanReport),
      report.newEnvelopeBytes = some 39 ∧
      ∃ turn old plan, pool.state.own wrote 0 = [turn] ∧
        report.Tells [0x6b] old plan turn := by
  let _ := frameDigests
  let db := sampleDb .default
  let o : Oracle := ⟨stopped, 0, fun _ => 0⟩
  let frames : Set Bytes := {sampleRawFrame, samplePlanFrame}
  let call : Call := .planKey [0x6b] (barePlanner true).options
  let fine : Recorded Db → Prop := fun r => StoredIn frames r.state
  let Run := Pool.Reach dbMachine.recording (Answering db) (Unrecorded Respects) fine
    ⟨sampleState, []⟩
  have good : ∀ (r : Recorded Db) (f : Bytes),
      r.state.store = Function.update (fun _ => none) [0x6b] (some f) → f ∈ frames → fine r := by
    intro r f same member k frame there
    rw [same] at there
    exact (only_stored there).2 ▸ member
  have before : ∀ r : Recorded Db, r.state.store = sampleState.store → fine r :=
    fun r same => good r sampleRawFrame same (Or.inl rfl)
  have calls : Answering db ((call.op db).run >>= fun result => .done (call, result)) := ⟨call, rfl⟩
  have spawned : Run _ := (Pool.Reach.start (before _ rfl)).step
    (Pool.Step.spawn calls) (before _ rfl)
  have locked : Run _ := spawned.step (Pool.Step.act (t := 0) (o := o) rfl rfl)
    (before _ rfl)
  have read : Run _ := locked.step (Pool.Step.act (t := 0) (o := o) rfl rfl)
    (before _ rfl)
  have unlocked : Run _ := read.step (Pool.Step.act (t := 0) (o := o) rfl rfl)
    (before _ rfl)
  have clocked : Run _ := unlocked.step (Pool.Step.act (t := 0) (o := o) rfl rfl)
    (before _ rfl)
  have planned : Run _ := clocked.step (Pool.Step.act (t := 0) (o := o) rfl rfl)
    (before _ rfl)
  have relocked : Run _ := planned.step (Pool.Step.act (t := 0) (o := o) rfl rfl)
    (before _ rfl)
  have compared : Run _ := relocked.step (Pool.Step.act (t := 0) (o := o) rfl rfl)
    (before _ rfl)
  have written : Run _ := compared.step (Pool.Step.act (t := 0) (o := o) rfl rfl)
    (good _ _ (Function.update_idem ..) (Or.inr (by decide)))
  have released : Run _ := written.step (Pool.Step.act (t := 0) (o := o) rfl rfl)
    (good _ _ (Function.update_idem ..) (Or.inr (by decide)))
  have counted : Run _ := released.step (Pool.Step.act (t := 0) (o := o) rfl rfl)
    (good _ _ (Function.update_idem ..) (Or.inr (by decide)))
  have injective : frames.InjOn envelopeHash := sampleFrames_injective
  have short : ∀ frame ∈ frames, frame.length < 2 ^ 58 := by
    rintro frame (rfl | rfl) <;> decide
  let report : PlanReport := ⟨.rewritten, some (envelopeHash sampleRawFrame), some 32, some 39,
    none, some 1⟩
  obtain ⟨pool, reached, ended⟩ : ∃ pool, Run pool ∧
      pool.threads[0]? = some (.done (call, .ok (.report report))) := ⟨_, counted, rfl⟩
  obtain ⟨_, told, _⟩ := rewrites_truthful db frames injective short (by decide) sampleState reached
    ended rfl
  exact ⟨pool, report, rfl, told report rfl rfl⟩

end PiLSMer
