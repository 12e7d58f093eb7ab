import PiLSMer.Cli.Passes
import PiLSMer.Slate.Truthful

/-! What a pass reports against what it wrote. The pass is a client among others; its turns are
on record, and each of its visits accounts for its own. -/
namespace PiLSMer
open Interleave

/-- A pass of the command line, given the entries that the engine's scan yields. -/
inductive Pass where
  | planAll (entries : List (Bytes × Bytes)) (planOptions : PlanOptions)
  | migrateAll (entries : List (Bytes × Bytes)) (planOptions : PlanOptions)
  | vacuumAll (entries : List (Bytes × Bytes)) (planOptions : PlanOptions) (budget : Option Nat)

def Pass.entries : Pass → List (Bytes × Bytes)
  | .planAll entries _ => entries
  | .migrateAll entries _ => entries
  | .vacuumAll entries _ _ => entries

inductive Outcome where
  | call (call : Call) (result : Except PiLsmError Answer)
  | pass (pass : Pass) (result : Except PiLsmError (VacuumAllReport × List RewriteStatus))

variable [Digests]

def Pass.op (db : PiLsmDb) : Pass → DbOp (VacuumAllReport × List RewriteStatus)
  | .planAll entries planOptions => db.planAll entries planOptions
  | .migrateAll entries planOptions => db.migrateAll entries planOptions
  | .vacuumAll entries planOptions budget => db.vacuumAll entries planOptions budget

def Working (db : PiLsmDb) (p : Prog DbAct Outcome) : Prop :=
  (∃ call : Call, p = ((call.op db).run >>= fun result => .done (.call call result))) ∨
    ∃ pass : Pass, p = ((pass.op db).run >>= fun result => .done (.pass pass result))

/-- Visits to keys, in order: what each of them said and what it wrote. -/
inductive Visits : List Bytes → List RewriteStatus → List (Turn Db) → Prop where
  | done : Visits [] [] []
  | visit {key : Bytes} {report : PlanReport} {writes : List (Turn Db)} {keys : List Bytes}
    {statuses : List RewriteStatus} {later : List (Turn Db)} :
    report.Truthful key writes → Visits keys statuses later →
    Visits (key :: keys) (report.status :: statuses) (writes ++ later)

theorem Visits.writes {keys : List Bytes} {statuses : List RewriteStatus}
    {writes : List (Turn Db)} (visits : Visits keys statuses writes) :
    statuses.count .rewritten = writes.length ∧ statuses.length = keys.length := by
  induction visits with
  | done => exact ⟨rfl, rfl⟩
  | @visit key report writes keys statuses later truthful _ ih =>
    rw [List.count_cons, List.length_append, ih.1, List.length_cons, List.length_cons, ih.2]
    unfold PlanReport.Truthful at truthful
    split at truthful
    · rename_i rewritten
      obtain ⟨turn, _, _, rfl, _⟩ := truthful
      simp [rewritten, Nat.add_comm]
    · rename_i kept
      subst truthful
      simp [kept]

/-- The report of a pass that visited the first n of its keys, against its writes. -/
structure VacuumAllReport.Accounted (report : VacuumAllReport) (keys : List Bytes) (n : Nat)
    (statuses : List RewriteStatus) (writes : List (Turn Db)) : Prop where
  visits : Visits (keys.take n) statuses writes
  within : n ≤ keys.length
  visited : report.visited = lenU64 n
  rewritten : report.rewritten = lenU64 writes.length
  kept : report.kept = lenU64 (statuses.countP RewriteStatus.isKept)
  staleOrMissing : report.staleOrMissing = lenU64 (statuses.countP RewriteStatus.isStaleOrMissing)
  split : report.visited = report.rewritten + report.kept + report.staleOrMissing
  timedOut : report.timedOut = decide (n < keys.length)

theorem VacuumAllReport.Tallies.accounted {report : VacuumAllReport} {keys : List Bytes} {n : Nat}
    {statuses : List RewriteStatus} {writes : List (Turn Db)}
    (tallies : VacuumAllReport.default.Tallies report statuses) (within : n ≤ keys.length)
    (visits : Visits (keys.take n) statuses writes) :
    (report.stopped (n < keys.length)).Accounted keys n statuses writes := by
  obtain ⟨wrote, size⟩ := visits.writes
  obtain ⟨visited, rewritten, kept, stale, split, timedOut⟩ := tallies.stopped (n < keys.length)
  rw [size, List.length_take, Nat.min_eq_left within] at visited
  rw [wrote] at rewritten
  exact ⟨visits, within, visited, rewritten, kept, stale, split, timedOut⟩

namespace Accounts

open Truthful

variable {db : PiLsmDb} {frames : Set Bytes} {t : Nat}

/-- A pass that failed at a key: the visits to the keys before it are done. -/
def Broken (t : Nat) (past : List (Turn Db)) (keys : List Bytes)
    (r : Recorded Db) : Prop :=
  ∃ done statuses writes, done <+: keys ∧ r.own wrote t = past ++ writes ∧
    Visits done statuses writes

def Whole (t : Nat) (past : List (Turn Db)) (keys : List Bytes)
    (before : VacuumAllReport) (pass : VacuumAllReport × List RewriteStatus)
    (r : Recorded Db) : Prop :=
  ∃ writes, r.own wrote t = past ++ writes ∧ Visits keys pass.2 writes ∧
    before.Tallies pass.1 pass.2

section Loop

variable {rewrite : Bytes → DbOp PlanReport}
  (one : ∀ key, Triple dbMachine.recording ((protocol frames).recording wrote) t (Unwritten t)
    (rewrite key).run (Reports key t))
include one

theorem visit_after (key : Bytes) (past : List (Turn Db)) :
    Triple dbMachine.recording ((protocol frames).recording wrote) t
      (fun r => r.own wrote t = past) (rewrite key).run
      (onResult (fun report r => ∃ writes, r.own wrote t = past ++ writes ∧
        report.Truthful key writes) (fun r => r.own wrote t = past)) := by
  let always : Db → Prop := fun _ => True
  let ends : Except PiLsmError PlanReport → Db → List (Turn Db) → Prop := fun result _ turns =>
    onResult (fun report turns => report.Truthful key turns) (fun turns => turns = [])
      result turns
  have fresh : Triple dbMachine.recording ((protocol frames).recording wrote) t
      (fun r => always r.state ∧ r.own wrote t = []) (rewrite key).run
      (fun result r => ends result r.state (r.own wrote t)) := by
    refine (one key).consequence (fun _ hr => hr.2) (fun result r _ _ hr => ?_)
    cases result with
    | ok report => exact hr
    | error e => exact hr
  refine (Triple.recording_after wrote fresh past).consequence
    (fun _ hr => ⟨trivial, hr⟩) (fun result r _ _ hr => ?_)
  obtain ⟨turns, own, ended⟩ := hr
  cases result with
  | ok report => exact ⟨turns, own, ended⟩
  | error e =>
    have nothing : turns = [] := ended
    rw [nothing, List.append_nil] at own
    exact own

theorem rewriteAll_accounts (keys : List Bytes) (before : VacuumAllReport)
    (past : List (Turn Db)) :
    Triple dbMachine.recording ((protocol frames).recording wrote) t
      (fun r => r.own wrote t = past) (rewriteAll rewrite keys before).run
      (onResult (Whole t past keys before) (Broken t past keys)) := by
  have stable (known : List (Turn Db) → Prop) :=
    own_stable (P := protocol frames) wrote (t := t) known
  induction keys generalizing before past with
  | nil =>
    exact Triple.pure (stable (fun turns => turns = past)) (fun r hr _ _ =>
      ⟨[], by rw [List.append_nil]; exact hr, .done, .nil⟩)
  | cons key keys ih =>
    refine Triple.andThen ((visit_after one key past).outcome (fun _ _ hr => hr) (fun r hr =>
      ⟨[], [], [], List.nil_prefix, by rw [List.append_nil]; exact hr, .done⟩))
      (stable (fun turns => ∃ done statuses writes, done <+: key :: keys ∧
        turns = past ++ writes ∧ Visits done statuses writes)) (fun report => ?_)
    rintro r ⟨writes, own, truthful⟩
    refine (?_ : Triple _ _ _ (fun r => Recorded.own wrote t r = past ++ writes) _ _) r own
    refine Triple.andThen (Q := fun rest r => ∃ later, r.own wrote t = past ++ (writes ++ later) ∧
      Visits keys rest.2 later ∧ (before.count report).Tallies rest.1 rest.2) ?_
      (stable (fun turns => ∃ done statuses writes, done <+: key :: keys ∧
        turns = past ++ writes ∧ Visits done statuses writes)) (fun rest => ?_)
    · refine (ih (before.count report) (past ++ writes)).outcome (fun rest r hr => ?_)
        (fun r hr => ?_)
      · obtain ⟨later, own', visits, tallies⟩ := hr
        exact ⟨later, own'.trans (List.append_assoc ..), visits, tallies⟩
      · obtain ⟨done, statuses, later, front, own', visits⟩ := hr
        exact ⟨key :: done, _, _, List.cons_prefix_cons.mpr ⟨rfl, front⟩,
          own'.trans (List.append_assoc ..), .visit truthful visits⟩
    · refine Triple.pure (stable (fun turns => ∃ later, turns = past ++ (writes ++ later) ∧
        Visits keys rest.2 later ∧ (before.count report).Tallies rest.1 rest.2))
        (fun r hr _ _ => ?_)
      obtain ⟨later, own', visits, tallies⟩ := hr
      exact ⟨_, own', .visit truthful visits, (before.tallies_count report).trans tallies⟩

end Loop

/-- A pass that returned accounts for what its thread wrote, over the first keys of its scan. -/
def Finished (db : PiLsmDb) (pass : Pass) (ended : VacuumAllReport × List RewriteStatus)
    (writes : List (Turn Db)) : Prop :=
  ∃ keys n, db.scanKeys pass.entries = .ok keys ∧ ended.1.Accounted keys n ended.2 writes

def Abandoned (pass : Pass) (writes : List (Turn Db)) : Prop :=
  ∃ done statuses, done <+: pass.entries.map Prod.fst ∧ Visits done statuses writes

def Settles (db : PiLsmDb) (pass : Pass) (t : Nat) :
    Except PiLsmError (VacuumAllReport × List RewriteStatus) → Recorded Db → Prop :=
  onResult (fun ended r => Finished db pass ended (r.own wrote t))
    (fun r => Abandoned pass (r.own wrote t))

theorem Whole.settles {pass : Pass} {keys : List Bytes} {n : Nat} (within : n ≤ keys.length)
    (scanned : db.scanKeys pass.entries = .ok keys)
    {ended : VacuumAllReport × List RewriteStatus} {r : Recorded Db}
    (whole : Whole t [] (keys.take n) .default ended r) :
    Finished db pass (ended.1.stopped (n < keys.length), ended.2) (r.own wrote t) := by
  obtain ⟨writes, own, visits, tallies⟩ := whole
  rw [List.nil_append] at own
  exact ⟨keys, n, scanned, own ▸ tallies.accounted within visits⟩

theorem Broken.settles {pass : Pass} {keys : List Bytes} {n : Nat}
    (scanned : db.scanKeys pass.entries = .ok keys) {r : Recorded Db}
    (broken : Broken t [] (keys.take n) r) : Abandoned pass (r.own wrote t) := by
  obtain ⟨done, statuses, writes, front, own, visits⟩ := broken
  rw [List.nil_append] at own
  cases Migrate.scanKeys_ok scanned
  exact ⟨done, statuses, front.trans (List.take_prefix _ _), own ▸ visits⟩

theorem abandoned_stable (pass : Pass) : Stable ((protocol frames).recording wrote) t
    (fun r => Abandoned pass (r.own wrote t)) :=
  own_stable wrote (Abandoned pass)

theorem unwritten_abandoned {pass : Pass} {r : Recorded Db} (unwritten : Unwritten t r) :
    Abandoned pass (r.own wrote t) := by
  have own : r.own wrote t = [] := unwritten
  exact ⟨[], [], List.nil_prefix, own ▸ .done⟩

theorem throw_settles {pass : Pass} (e : PiLsmError) :
    Triple dbMachine.recording ((protocol frames).recording wrote) t (Unwritten t)
      (throw e : DbOp (VacuumAllReport × List RewriteStatus)).run (Settles db pass t) :=
  Triple.throw unwritten_stable (fun _ hr _ _ => unwritten_abandoned hr)

theorem rewriteAll_settles {pass : Pass} {rewrite : Bytes → DbOp PlanReport}
    (one : ∀ key, Triple dbMachine.recording ((protocol frames).recording wrote) t (Unwritten t)
      (rewrite key).run (Reports key t))
    {keys : List Bytes} (scanned : db.scanKeys pass.entries = .ok keys) {n : Nat}
    (within : n ≤ keys.length) :
    Triple dbMachine.recording ((protocol frames).recording wrote) t (Unwritten t)
      (rewriteAll rewrite (keys.take n) .default >>= fun ended =>
        pure (ended.1.stopped (n < keys.length), ended.2) :
          DbOp (VacuumAllReport × List RewriteStatus)).run (Settles db pass t) := by
  have loop := (rewriteAll_accounts one (keys.take n) .default []).outcome
    (fun _ _ hr => hr.settles within scanned) (fun _ hr => hr.settles scanned)
  exact Triple.andThen loop (abandoned_stable pass)
    (fun _ => Triple.pure (own_stable wrote (Finished db pass _)) (fun _ hr _ _ => hr))

omit [Digests] in
theorem clock_recorded :
    Triple dbMachine.recording ((protocol frames).recording wrote) t (Unwritten t)
      (issue .clock : DbOp (Nat → Nat)).run (onResult (fun _ => Unwritten t) (Unwritten t)) := by
  have stays : Stable (protocol frames) t (fun _ => True) := fun _ _ _ _ _ _ => trivial
  have reads : Triple dbMachine (protocol frames) t (fun _ => True)
      (issue .clock : DbOp (Nat → Nat)).run (onResult (fun _ _ => True) (fun _ => True)) := by
    refine Triple.issued stays (fun _ => stays) (fun s o b s' _ _ _ run _ => ?_)
    cases run
    exact ⟨trivial, fun u _ => (protocol frames).refl u s, trivial⟩
  exact (recorded reads ⟨trivial, fun _ => trivial⟩).outcome (fun _ _ hr => hr.2) (fun _ hr => hr)

theorem pass_settles (injective : frames.InjOn envelopeHash)
    (short : ∀ frame ∈ frames, frame.length < 2 ^ 58) (few : db.planner.indexes.length < 2 ^ 32)
    (pass : Pass) :
    Triple dbMachine.recording ((protocol frames).recording wrote) t (Unwritten t)
      (pass.op db).run (Settles db pass t) := by
  cases pass with
  | planAll entries options =>
    simp only [Pass.op, PiLsmDb.planAll]
    cases scanned : db.scanKeys entries with
    | error e => exact throw_settles e
    | ok keys =>
      dsimp only
      rw [rewriteAll_stopped]
      exact rewriteAll_settles (fun key => planKey_truthful injective short few options) scanned
        (Nat.le_refl _)
  | migrateAll entries options =>
    simp only [Pass.op, PiLsmDb.migrateAll]
    cases scanned : db.scanKeys entries with
    | error e => exact throw_settles e
    | ok keys =>
      dsimp only
      rw [rewriteAll_stopped]
      exact rewriteAll_settles (fun key => replanKey_truthful injective short few _) scanned
        (Nat.le_refl _)
  | vacuumAll entries options budget =>
    simp only [Pass.op, PiLsmDb.vacuumAll]
    refine Triple.andThen (clock_recorded.outcome (fun _ _ hr => hr)
      (fun _ hr => unwritten_abandoned hr)) (abandoned_stable _) (fun elapsed => ?_)
    cases scanned : db.scanKeys entries with
    | error e => exact throw_settles e
    | ok keys =>
      simp only [PiLsmDb.vacuumWithin_eq]
      exact rewriteAll_settles (fun key => vacuumMeaning_truthful injective short few _) scanned
        (within_le ..)

def Promise (db : PiLsmDb) (t : Nat) : Outcome → Recorded Db → Prop
  | .call _ _, _ => True
  | .pass pass result, r => Settles db pass t result r

theorem working_safe (injective : frames.InjOn envelopeHash)
    (short : ∀ frame ∈ frames, frame.length < 2 ^ 58) (few : db.planner.indexes.length < 2 ^ 32)
    {p : Prog DbAct Outcome} (working : Working db p) (t : Nat) :
    Triple dbMachine.recording ((protocol frames).recording wrote) t (Unwritten t) p
      (Promise db t) := by
  have stays : Stable ((protocol frames).recording wrote) t (fun _ => True) :=
    fun _ _ _ _ _ _ => trivial
  rcases working with ⟨call, rfl⟩ | ⟨pass, rfl⟩
  · have answering : Answering db ((call.op db).run >>= fun result => .done (call, result)) :=
      ⟨call, rfl⟩
    have answers : Triple dbMachine.recording ((protocol frames).recording wrote) t (Unwritten t)
        ((call.op db).run >>= fun result => .done (call, result)) (fun _ _ => True) :=
      (call_safe injective short few answering t).consequence (fun _ hr => hr)
        (fun _ _ _ _ _ => trivial)
    have renamed : ((call.op db).run >>= fun result => .done (Outcome.call call result)) =
        ((call.op db).run >>= fun result => .done (call, result)) >>= fun ended =>
          .done (Outcome.call ended.1 ended.2) := by
      rw [bind_assoc]
      rfl
    rw [renamed]
    exact Triple.bind answers (fun ended => Triple.done stays (fun _ _ _ _ => trivial))
  · refine Triple.bind (pass_settles injective short few pass) (fun result => ?_)
    cases result with
    | ok ended => exact Triple.done (own_stable wrote (Finished db pass ended)) (fun _ h _ _ => h)
    | error e => exact Triple.done (abandoned_stable pass) (fun _ h _ _ => h)

end Accounts

/-- A pass accounts for what it wrote. In every run of any clients, a pass that ended visited the
first keys of its scan in their order; its thread wrote once for each visit that says Rewritten,
the plan frame that the visit describes over the frame it names, and nothing else. The counts of
the report are those of the visits; it timed out when keys are left. A pass that failed at a key
has done the visits before it. -/
theorem pass_accounts (db : PiLsmDb) (frames : Set Bytes) (injective : frames.InjOn envelopeHash)
    (short : ∀ frame ∈ frames, frame.length < 2 ^ 58)
    (few : db.planner.indexes.length < 2 ^ 32) (start : Db)
    {pool : Pool DbAct (Recorded Db) Outcome}
    (reach : Pool.Reach dbMachine.recording (Working db) (Unrecorded Respects)
      (fun r => StoredIn frames r.state) ⟨start, []⟩ pool)
    {t : Nat} {pass : Pass} {result : Except PiLsmError (VacuumAllReport × List RewriteStatus)}
    (ended : pool.threads[t]? = some (Prog.done (Outcome.pass pass result))) :
    (∀ report statuses, result = .ok (report, statuses) →
      ∃ n, report.Accounted (pass.entries.map Prod.fst) n statuses (pool.state.own wrote t)) ∧
    (∀ e, result = .error e → ∃ done statuses, done <+: pass.entries.map Prod.fst ∧
      Visits done statuses (pool.state.own wrote t)) ∧
    ∀ turn ∈ pool.state.history, turn.thread = t → turn ∉ pool.state.own wrote t →
      turn.after.store = turn.before.store := by
  let P := (Truthful.protocol frames).recording wrote
  let fresh : Fresh P := ⟨Truthful.Unwritten, fun t r r' h moved => moved.2.trans h⟩
  have keeps : ∀ r r', Unrecorded Respects r r' → P.inv r → P.good r → P.good r' →
      P.inv r' ∧ ∀ t, P.rely t r r' := by
    intro r r' move _ _ _
    refine ⟨trivial, fun u => ⟨fun k held => ?_, by rw [Recorded.own, Recorded.own, move.2]⟩⟩
    exact ⟨by rw [move.1.locks, held], move.1.held k (by rw [held]; simp)⟩
  have newborn : ∀ u, fresh.holds u ⟨start, []⟩ := fun _ => rfl
  have kept := reach.kept (P := P) (F := fresh) (Q := Accounts.Promise db) trivial newborn
    (fun p works t => Accounts.working_safe injective short few works t) keeps
  have promise : Accounts.Settles db pass t result pool.state := kept.result ended
  refine ⟨fun report statuses same => ?_, fun e same => ?_, fun turn member thread other => ?_⟩
  · subst same
    obtain ⟨keys, n, scanned, accounted⟩ := promise
    cases Migrate.scanKeys_ok scanned
    exact ⟨n, accounted⟩
  · subst same
    exact promise
  · obtain ⟨β, a, o, b, exec⟩ := reach.turns turn member
    apply store_of_unwritten exec
    by_contra noted
    exact other (List.mem_filter.mpr ⟨member, by simp [thread, noted]⟩)

omit [Digests] in
theorem pass_accounts_sample :
    letI := frameDigests
    ∃ (pool : Pool DbAct (Recorded Db) Outcome) (report : VacuumAllReport) (n : Nat),
      report.visited = 1 ∧ report.rewritten = 1 ∧
        report.Accounted [[0x6b]] n [.rewritten] (pool.state.own wrote 0) := by
  let _ := frameDigests
  let db := sampleDb .default
  let o : Oracle := ⟨stopped, 0, fun _ => 0⟩
  let frames : Set Bytes := {sampleRawFrame, samplePlanFrame}
  let pass : Pass := .planAll [([0x6b], sampleRawFrame)] (barePlanner true).options
  let fine : Recorded Db → Prop := fun r => StoredIn frames r.state
  let Run := Pool.Reach dbMachine.recording (Working db) (Unrecorded Respects) fine
    ⟨sampleState, []⟩
  have good : ∀ (r : Recorded Db) (f : Bytes),
      r.state.store = Function.update (fun _ => none) [0x6b] (some f) → f ∈ frames → fine r := by
    intro r f same member k frame there
    rw [same] at there
    exact (only_stored there).2 ▸ member
  have before : ∀ r : Recorded Db, r.state.store = sampleState.store → fine r :=
    fun r same => good r sampleRawFrame same (Or.inl rfl)
  have scanned : db.scanKeys [([0x6b], sampleRawFrame)] = .ok [[0x6b]] := by decide
  have works : Working db ((db.planKey [0x6b] (barePlanner true).options >>= fun one =>
      pure (VacuumAllReport.default.count one, [one.status])).run >>= fun result =>
        Prog.done (Outcome.pass pass result)) := by
    refine Or.inr ⟨pass, ?_⟩
    simp only [pass, Pass.op, PiLsmDb.planAll, scanned, rewriteAll, pure_bind]
  have spawned : Run _ := (Pool.Reach.start (before _ rfl)).step
    (Pool.Step.spawn works) (before _ rfl)
  have locked : Run _ := spawned.step (Pool.Step.act (t := 0) (o := o) rfl rfl)
    (before _ rfl)
  have read : Run _ := locked.step (Pool.Step.act (t := 0) (o := o) rfl rfl)
    (before _ rfl)
  have unlocked : Run _ := read.step (Pool.Step.act (t := 0) (o := o) rfl rfl)
    (before _ rfl)
  have clocked : Run _ := unlocked.step (Pool.Step.act (t := 0) (o := o) rfl rfl)
    (before _ rfl)
  have planned : Run _ := clocked.step (Pool.Step.act (t := 0) (o := o) rfl rfl)
    (before _ rfl)
  have relocked : Run _ := planned.step (Pool.Step.act (t := 0) (o := o) rfl rfl)
    (before _ rfl)
  have compared : Run _ := relocked.step (Pool.Step.act (t := 0) (o := o) rfl rfl)
    (before _ rfl)
  have written : Run _ := compared.step (Pool.Step.act (t := 0) (o := o) rfl rfl)
    (good _ _ (Function.update_idem ..) (Or.inr (by decide)))
  have released : Run _ := written.step (Pool.Step.act (t := 0) (o := o) rfl rfl)
    (good _ _ (Function.update_idem ..) (Or.inr (by decide)))
  have counted : Run _ := released.step (Pool.Step.act (t := 0) (o := o) rfl rfl)
    (good _ _ (Function.update_idem ..) (Or.inr (by decide)))
  have injective : frames.InjOn envelopeHash := sampleFrames_injective
  have short : ∀ frame ∈ frames, frame.length < 2 ^ 58 := by
    rintro frame (rfl | rfl) <;> decide
  let one : PlanReport := ⟨.rewritten, some (envelopeHash sampleRawFrame), some 32, some 39,
    none, some 1⟩
  let report := VacuumAllReport.default.count one
  obtain ⟨pool, reached, ended⟩ : ∃ pool, Run pool ∧ pool.threads[0]? =
      some (Prog.done (Outcome.pass pass (.ok (report, [.rewritten])))) := ⟨_, counted, rfl⟩
  obtain ⟨n, accounted⟩ :=
    (pass_accounts db frames injective short (by decide) sampleState reached ended).1 _ _ rfl
  exact ⟨pool, report, n, rfl, rfl, accounted⟩

end PiLSMer
