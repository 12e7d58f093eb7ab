import PiLSMer.Slate.Migrate

/-! plan_all and vacuum_all of the command line, over the keys of a scan. A budget cuts a pass
short: it is the pass over the first keys. -/
namespace PiLSMer
open Interleave

variable [Digests]

/-- plan_all, given the entries that the engine's scan yields. -/
def PiLsmDb.planAll (db : PiLsmDb) (entries : List (Bytes × Bytes)) (planOptions : PlanOptions) :
    DbOp (VacuumAllReport × List RewriteStatus) :=
  match db.scanKeys entries with
  | .error e => throw e
  | .ok keys => rewriteAll (fun key => db.planKey key planOptions) keys .default

/-- The loop of vacuum_all. The clock is read before each key if there is a budget. -/
def PiLsmDb.vacuumWithin (db : PiLsmDb) (options : VacuumOptions) (budget : Option Nat) :
    (Nat → Nat) → List Bytes → VacuumAllReport → DbOp (VacuumAllReport × List RewriteStatus)
  | _, [], report => pure (report, [])
  | elapsed, key :: keys, report =>
    if budget.any (fun budget => budget ≤ elapsed 0) then
      pure ({ report with timedOut := true }, [])
    else do
      let one ← db.vacuumMeaning key options
      let rest ← db.vacuumWithin options budget (fun i => elapsed (i + 1)) keys (report.count one)
      pure (rest.1, one.status :: rest.2)

def PiLsmDb.vacuumAll (db : PiLsmDb) (entries : List (Bytes × Bytes)) (planOptions : PlanOptions)
    (budget : Option Nat) : DbOp (VacuumAllReport × List RewriteStatus) := do
  let elapsed ← issue .clock
  match db.scanKeys entries with
  | .error e => throw e
  | .ok keys => db.vacuumWithin (.ofPlanOptions planOptions) budget elapsed keys .default

def within (budget : Option Nat) : (Nat → Nat) → Nat → Nat
  | _, 0 => 0
  | elapsed, n + 1 =>
    if budget.any (fun budget => budget ≤ elapsed 0) then 0
    else within budget (fun i => elapsed (i + 1)) n + 1

omit [Digests] in
theorem within_le (budget : Option Nat) (elapsed : Nat → Nat) (n : Nat) :
    within budget elapsed n ≤ n := by
  induction n generalizing elapsed with
  | zero => exact Nat.le_refl 0
  | succ n ih =>
    unfold within
    split
    · exact Nat.zero_le _
    · exact Nat.succ_le_succ (ih _)

omit [Digests] in
theorem within_none (elapsed : Nat → Nat) (n : Nat) : within none elapsed n = n := by
  induction n generalizing elapsed with
  | zero => rfl
  | succ n ih => simp [within, ih]

def VacuumAllReport.stopped (timedOut : Bool) (report : VacuumAllReport) : VacuumAllReport :=
  if timedOut then { report with timedOut := true } else report

omit [Digests] in
theorem rewriteAll_stopped (rewrite : Bytes → DbOp PlanReport) (keys : List Bytes) :
    rewriteAll rewrite keys .default =
      rewriteAll rewrite (keys.take keys.length) .default >>= fun ended =>
        pure (ended.1.stopped (keys.length < keys.length), ended.2) := by
  simp [VacuumAllReport.stopped]

theorem PiLsmDb.vacuumWithin_eq (db : PiLsmDb) (options : VacuumOptions) (budget : Option Nat)
    (elapsed : Nat → Nat) (keys : List Bytes) (report : VacuumAllReport) :
    db.vacuumWithin options budget elapsed keys report =
      rewriteAll (fun key => db.vacuumMeaning key options)
        (keys.take (within budget elapsed keys.length)) report >>= fun pass =>
      pure (pass.1.stopped (within budget elapsed keys.length < keys.length), pass.2) := by
  induction keys generalizing elapsed report with
  | nil => simp [PiLsmDb.vacuumWithin, rewriteAll, VacuumAllReport.stopped]
  | cons key keys ih =>
    simp only [PiLsmDb.vacuumWithin, within, List.length_cons]
    split
    · simp [rewriteAll, VacuumAllReport.stopped]
    · simp only [List.take_succ_cons, rewriteAll, ih, bind_assoc, pure_bind,
        Nat.add_lt_add_iff_right]

def RewriteStatus.isKept : RewriteStatus → Bool
  | .keptAlreadyPlanned | .skippedPlanningFailed | .skippedNotImproved => true
  | _ => false

def RewriteStatus.isStaleOrMissing : RewriteStatus → Bool
  | .skippedMissingKey | .skippedStaleSource => true
  | _ => false

structure VacuumAllReport.Tallies (before after : VacuumAllReport)
    (statuses : List RewriteStatus) : Prop where
  visited : after.visited = before.visited + lenU64 statuses.length
  rewritten : after.rewritten = before.rewritten + lenU64 (statuses.count .rewritten)
  kept : after.kept = before.kept + lenU64 (statuses.countP RewriteStatus.isKept)
  staleOrMissing : after.staleOrMissing =
    before.staleOrMissing + lenU64 (statuses.countP RewriteStatus.isStaleOrMissing)
  timedOut : after.timedOut = before.timedOut

section Tallies

omit [Digests]

variable {before after : VacuumAllReport} {statuses : List RewriteStatus}

theorem lenU64_add (a b : Nat) : lenU64 (a + b) = lenU64 a + lenU64 b := UInt64.ofNat_add a b

theorem VacuumAllReport.Tallies.nil : before.Tallies before [] where
  visited := (UInt64.add_zero _).symm
  rewritten := (UInt64.add_zero _).symm
  kept := (UInt64.add_zero _).symm
  staleOrMissing := (UInt64.add_zero _).symm
  timedOut := rfl

theorem VacuumAllReport.tallies_count (before : VacuumAllReport) (one : PlanReport) :
    before.Tallies (before.count one) [one.status] := by
  cases status : one.status <;> constructor <;>
    simp [VacuumAllReport.count, status, RewriteStatus.isKept, RewriteStatus.isStaleOrMissing,
      lenU64]

theorem VacuumAllReport.Tallies.trans {middle : VacuumAllReport} {more : List RewriteStatus}
    (first : before.Tallies middle statuses) (rest : middle.Tallies after more) :
    before.Tallies after (statuses ++ more) where
  visited := by
    rw [rest.visited, first.visited, List.length_append, lenU64_add, UInt64.add_assoc]
  rewritten := by
    rw [rest.rewritten, first.rewritten, List.count_append, lenU64_add, UInt64.add_assoc]
  kept := by rw [rest.kept, first.kept, List.countP_append, lenU64_add, UInt64.add_assoc]
  staleOrMissing := by
    rw [rest.staleOrMissing, first.staleOrMissing, List.countP_append, lenU64_add,
      UInt64.add_assoc]
  timedOut := rest.timedOut.trans first.timedOut

theorem statuses_split (statuses : List RewriteStatus) : statuses.length =
    statuses.count .rewritten + statuses.countP RewriteStatus.isKept +
      statuses.countP RewriteStatus.isStaleOrMissing := by
  induction statuses with
  | nil => rfl
  | cons status rest ih =>
    rw [List.length_cons, ih, List.count_cons, List.countP_cons, List.countP_cons]
    cases status <;> simp [RewriteStatus.isKept, RewriteStatus.isStaleOrMissing] <;> omega

theorem VacuumAllReport.Tallies.split (tallies : VacuumAllReport.default.Tallies after statuses) :
    after.visited = after.rewritten + after.kept + after.staleOrMissing := by
  obtain ⟨visited, rewritten, kept, stale, _⟩ := tallies
  have zero (n : UInt64) : (0 : UInt64) + n = n := UInt64.zero_add n
  simp only [VacuumAllReport.default, zero] at visited rewritten kept stale
  rw [visited, rewritten, kept, stale, statuses_split statuses, lenU64_add, lenU64_add]

theorem VacuumAllReport.Tallies.stopped (tallies : VacuumAllReport.default.Tallies after statuses)
    (early : Bool) :
    (after.stopped early).visited = lenU64 statuses.length ∧
    (after.stopped early).rewritten = lenU64 (statuses.count .rewritten) ∧
    (after.stopped early).kept = lenU64 (statuses.countP RewriteStatus.isKept) ∧
    (after.stopped early).staleOrMissing =
      lenU64 (statuses.countP RewriteStatus.isStaleOrMissing) ∧
    (after.stopped early).visited = (after.stopped early).rewritten + (after.stopped early).kept +
      (after.stopped early).staleOrMissing ∧
    (after.stopped early).timedOut = early := by
  have zero (n : UInt64) : (0 : UInt64) + n = n := UInt64.zero_add n
  have visited := tallies.visited
  have rewritten := tallies.rewritten
  have kept := tallies.kept
  have stale := tallies.staleOrMissing
  have timedOut := tallies.timedOut
  simp only [VacuumAllReport.default, zero] at visited rewritten kept stale timedOut
  cases early with
  | true => exact ⟨visited, rewritten, kept, stale, tallies.split, rfl⟩
  | false => exact ⟨visited, rewritten, kept, stale, tallies.split, timedOut⟩

end Tallies

omit [Digests] in
theorem rewriteAll_tallies {σ Ω : Type} {M : Machine DbAct σ Ω} {P : Protocol σ} {t : Nat}
    {pre err : σ → Prop} {rewrite : Bytes → DbOp PlanReport} (stable : Stable P t pre)
    (failed : Stable P t err)
    (one : ∀ key, Triple M P t pre (rewrite key).run (onResult (fun _ => pre) err))
    (keys : List Bytes) (report : VacuumAllReport) :
    Triple M P t pre (rewriteAll rewrite keys report).run (onResult (fun pass s =>
      (report.Tallies pass.1 pass.2 ∧ pass.2.length = keys.length) ∧ pre s) err) := by
  induction keys generalizing report with
  | nil => exact Triple.pure stable (fun _ hs _ _ => ⟨⟨.nil, rfl⟩, hs⟩)
  | cons key keys ih =>
    refine Triple.andThen (one key) failed (fun first => ?_)
    refine Triple.andThen (ih (report.count first)) failed
      (fun rest => Triple.of_pure (fun tallied => ?_))
    exact Triple.pure stable (fun _ hs _ _ =>
      ⟨⟨(report.tallies_count first).trans tallied.1, congrArg Nat.succ tallied.2⟩, hs⟩)

end PiLSMer
