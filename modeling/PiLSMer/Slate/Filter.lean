import PiLSMer.Core.Explain
import PiLSMer.Core.Planner

/-! The compaction filter of compaction_filter.rs. A call returns a decision or an error and
adds to two sets of counters, its own and the supplier's. Rows, decisions and the context
are the parts of the storage engine's types that the filter looks at. -/
namespace PiLSMer

inductive CompactionMode where
  | disabled
  | normal
  | forceRawToPlan
  | vacuumMeaning
  deriving DecidableEq, Repr

inductive ValueDeletable where
  | value (bytes : Bytes)
  | merge (operand : Bytes)
  | tombstone
  deriving DecidableEq, Repr

structure RowEntry where
  key : Bytes
  value : ValueDeletable
  seq : UInt64
  deriving DecidableEq, Repr

inductive CompactionFilterDecision where
  | keep
  | drop
  | modify (value : ValueDeletable)
  deriving DecidableEq, Repr

structure CompactionJobContext where
  retentionMinSeq : Option UInt64
  deriving DecidableEq, Repr

inductive FilterCounter where
  | rawValuesConverted
  | rawBytesConverted
  | plansImproved
  | plansKept
  | rawValuesKeptAfterPlanningFailure
  | corruptOrUnknownKept
  | snapshotProtectedEntries
  | tombstonesOrMergesKept
  | errors
  deriving DecidableEq, Repr

/-- PiLsmCompactionFilterStats, one number a counter. -/
abbrev FilterStats := FilterCounter → UInt64

/-- The filter's own stats and those it shares with its supplier. -/
structure FilterState where
  stats : FilterStats
  sharedStats : FilterStats

/-- One increment: plain on the filter's stats, saturating on the shared ones. -/
def FilterState.tally (s : FilterState) (counter : FilterCounter) (value : UInt64) :
    FilterState where
  stats := Function.update s.stats counter (s.stats counter + value)
  sharedStats := Function.update s.sharedStats counter (saturatingAdd (s.sharedStats counter) value)

structure PiLsmCompactionFilter where
  planner : Planner
  reconstructor : StreamRegistry
  decodeLimits : DecodeLimits
  mode : CompactionMode
  strictEnvelopes : Bool
  snapshotSafeFiltering : Bool
  context : CompactionJobContext

/-- What a step returns and the increments it makes on the way. -/
structure FilterOutcome where
  result : Except PiLsmError CompactionFilterDecision
  tallies : List (FilterCounter × UInt64)

def FilterOutcome.kept (counter : FilterCounter) : FilterOutcome := ⟨.ok .keep, [(counter, 1)]⟩

def FilterOutcome.failed (e : PiLsmError) : FilterOutcome := ⟨.error e, []⟩

def PiLsmCompactionFilter.snapshotSafeToModify (f : PiLsmCompactionFilter) (entry : RowEntry) :
    Bool :=
  match f.context.retentionMinSeq with
  | some minSeq => entry.seq < minSeq
  | none => true

/-- u128::MAX, the score of what is not a plan. -/
def maxScore : Nat := 2 ^ 128 - 1

/-- The filter's own plan_score: it decodes under the default limits. -/
def filterPlanScore [Digests] (encodedEnvelope : Bytes) : Nat :=
  match ValueEnvelope.decode encodedEnvelope .default with
  | .ok envelope =>
    let explain := explainEnvelope envelope encodedEnvelope.length
    match explain.storageClass with
    | .plan => encodedEnvelope.length + 16 * explain.chunks.toNat
    | .raw => maxScore
  -- the default limits leave no room for a panic
  | .error _ => maxScore

variable [Digests]

def PiLsmCompactionFilter.planRaw (f : PiLsmCompactionFilter) (clock : Nat → Nat) (raw : Bytes) :
    FilterOutcome :=
  match f.planner.plan clock raw with
  | .ok plan =>
    ⟨.ok (.modify (.value (ValueEnvelope.plan plan).encode)),
      [(.rawValuesConverted, 1), (.rawBytesConverted, lenU64 raw.length)]⟩
  | .error (.planningFailed reason) =>
    if f.mode = .normal then .kept .rawValuesKeptAfterPlanningFailure
    else .failed (.planningFailed reason)
  | .error e => .failed e

def PiLsmCompactionFilter.improvePlan (f : PiLsmCompactionFilter) (clock : Nat → Nat)
    (oldPlan : ReconstructionPlan) : FilterOutcome :=
  let oldEnvelope := (ValueEnvelope.plan oldPlan).encode
  match reconstruct f.reconstructor oldPlan with
  | .error e => .failed e
  | .ok logical =>
    match f.planner.plan clock logical with
    | .error (.planningFailed _) => .kept .plansKept
    | .error e => .failed e
    | .ok newPlan =>
      let newEnvelope := (ValueEnvelope.plan newPlan).encode
      if filterPlanScore newEnvelope < filterPlanScore oldEnvelope then
        ⟨.ok (.modify (.value newEnvelope)), [(.plansImproved, 1)]⟩
      else .kept .plansKept

/-- The match on mode and envelope at the end of filter_entry. -/
def PiLsmCompactionFilter.dispatch (f : PiLsmCompactionFilter) (clock : Nat → Nat) :
    CompactionMode → ValueEnvelope → FilterOutcome
  | .disabled, _ => ⟨.ok .keep, []⟩
  | _, .raw raw => f.planRaw clock raw
  | .vacuumMeaning, .plan plan => f.improvePlan clock plan
  | _, .plan _ => .kept .plansKept

/-- The error arms of filter_entry's match on decode. A panic reaches neither of them. -/
def PiLsmCompactionFilter.undecoded (f : PiLsmCompactionFilter) : PiLsmError → FilterOutcome
  | .panicked => .failed .panicked
  | e => if f.strictEnvelopes then .failed e else .kept .corruptOrUnknownKept

def PiLsmCompactionFilter.filterEntry (f : PiLsmCompactionFilter) (clock : Nat → Nat)
    (entry : RowEntry) : FilterOutcome :=
  if f.snapshotSafeFiltering ∧ ¬ f.snapshotSafeToModify entry then
    .kept .snapshotProtectedEntries
  else match entry.value with
    | .merge _ => .kept .tombstonesOrMergesKept
    | .tombstone => .kept .tombstonesOrMergesKept
    | .value bytes =>
      match ValueEnvelope.decode bytes f.decodeLimits with
      | .ok envelope => f.dispatch clock f.mode envelope
      | .error e => f.undecoded e

/-- A failed row is counted too. A panic passes the wrapper by, and nothing counts it. -/
def FilterOutcome.allTallies (outcome : FilterOutcome) : List (FilterCounter × UInt64) :=
  match outcome.result with
  | .ok _ => outcome.tallies
  | .error .panicked => outcome.tallies
  | .error _ => outcome.tallies ++ [(.errors, 1)]

def PiLsmCompactionFilter.filter (f : PiLsmCompactionFilter) (clock : Nat → Nat)
    (entry : RowEntry) (s : FilterState) :
    Except PiLsmError CompactionFilterDecision × FilterState :=
  let outcome := f.filterEntry clock entry
  (outcome.result, outcome.allTallies.foldl (fun s t => s.tally t.1 t.2) s)

/-- What the storage engine does with a decision: the row after the compaction, if any. -/
def CompactionFilterDecision.apply (entry : RowEntry) : CompactionFilterDecision → Option RowEntry
  | .keep => some entry
  | .drop => none
  | .modify value => some { entry with value }

def PiLsmCompactionFilter.Protected (f : PiLsmCompactionFilter) (entry : RowEntry) : Prop :=
  f.snapshotSafeFiltering ∧ ¬ f.snapshotSafeToModify entry

instance (f : PiLsmCompactionFilter) (entry : RowEntry) : Decidable (f.Protected entry) := by
  unfold PiLsmCompactionFilter.Protected; infer_instance

variable {f : PiLsmCompactionFilter} {clock : Nat → Nat} {entry : RowEntry}

theorem filterEntry_decoded {bytes : Bytes} {e : ValueEnvelope} (reach : ¬ f.Protected entry)
    (value : entry.value = .value bytes)
    (decoded : ValueEnvelope.decode bytes f.decodeLimits = .ok e) :
    f.filterEntry clock entry = f.dispatch clock f.mode e := by
  unfold PiLsmCompactionFilter.Protected at reach
  simp only [PiLsmCompactionFilter.filterEntry, if_neg reach, value, decoded]

omit [Digests] in
theorem undecoded_cases (e : PiLsmError) :
    f.undecoded e = .failed e ∨ e ≠ .panicked ∧ f.undecoded e = .kept .corruptOrUnknownKept := by
  by_cases panicked : e = .panicked
  · exact .inl (by rw [panicked, PiLsmCompactionFilter.undecoded])
  · rw [PiLsmCompactionFilter.undecoded]
    · split
      · exact .inl rfl
      · exact .inr ⟨panicked, rfl⟩
    · exact panicked

variable (clock) in
theorem planRaw_cases (raw : Bytes) :
    (∃ plan, f.planner.plan clock raw = .ok plan ∧
      f.planRaw clock raw = ⟨.ok (.modify (.value (ValueEnvelope.plan plan).encode)),
        [(.rawValuesConverted, 1), (.rawBytesConverted, lenU64 raw.length)]⟩) ∨
    (∃ reason, f.planner.plan clock raw = .error (.planningFailed reason) ∧ f.mode = .normal ∧
      f.planRaw clock raw = .kept .rawValuesKeptAfterPlanningFailure) ∨
    (∃ e, f.planner.plan clock raw = .error e ∧
      (f.mode = .normal → ∀ reason, e ≠ .planningFailed reason) ∧
      f.planRaw clock raw = .failed e) := by
  unfold PiLsmCompactionFilter.planRaw
  cases planned : f.planner.plan clock raw with
  | ok plan => exact Or.inl ⟨plan, rfl, rfl⟩
  | error e =>
    by_cases failed : ∃ reason, e = .planningFailed reason
    · obtain ⟨reason, rfl⟩ := failed
      by_cases normal : f.mode = .normal
      · exact Or.inr (Or.inl ⟨reason, rfl, normal, if_pos normal⟩)
      · exact Or.inr (Or.inr ⟨_, rfl, fun h => absurd h normal, if_neg normal⟩)
    · refine Or.inr (Or.inr ⟨e, rfl, fun _ reason h => failed ⟨reason, h⟩, ?_⟩)
      cases e with
      | planningFailed reason => exact absurd ⟨reason, rfl⟩ failed
      | _ => rfl

variable (clock) in
theorem improvePlan_cases (oldPlan : ReconstructionPlan) :
    (∃ logical newPlan, reconstruct f.reconstructor oldPlan = .ok logical ∧
      f.planner.plan clock logical = .ok newPlan ∧
      filterPlanScore (ValueEnvelope.plan newPlan).encode <
        filterPlanScore (ValueEnvelope.plan oldPlan).encode ∧
      f.improvePlan clock oldPlan = ⟨.ok (.modify (.value (ValueEnvelope.plan newPlan).encode)),
        [(.plansImproved, 1)]⟩) ∨
    (∃ logical, reconstruct f.reconstructor oldPlan = .ok logical ∧
      ((∃ newPlan, f.planner.plan clock logical = .ok newPlan ∧
        ¬ filterPlanScore (ValueEnvelope.plan newPlan).encode <
          filterPlanScore (ValueEnvelope.plan oldPlan).encode) ∨
        ∃ reason, f.planner.plan clock logical = .error (.planningFailed reason)) ∧
      f.improvePlan clock oldPlan = .kept .plansKept) ∨
    (∃ e, (reconstruct f.reconstructor oldPlan = .error e ∨
      ∃ logical, reconstruct f.reconstructor oldPlan = .ok logical ∧
        f.planner.plan clock logical = .error e ∧ ∀ reason, e ≠ .planningFailed reason) ∧
      f.improvePlan clock oldPlan = .failed e) := by
  unfold PiLsmCompactionFilter.improvePlan
  cases rebuilt : reconstruct f.reconstructor oldPlan with
  | error e => exact Or.inr (Or.inr ⟨e, Or.inl rfl, rfl⟩)
  | ok logical =>
    cases planned : f.planner.plan clock logical with
    | ok newPlan =>
      by_cases better : filterPlanScore (ValueEnvelope.plan newPlan).encode <
          filterPlanScore (ValueEnvelope.plan oldPlan).encode
      · exact Or.inl ⟨logical, newPlan, rfl, planned, better, by simp only [planned, if_pos better]⟩
      · exact Or.inr (Or.inl ⟨logical, rfl, Or.inl ⟨newPlan, planned, better⟩,
          by simp only [planned, if_neg better]⟩)
    | error e =>
      by_cases failed : ∃ reason, e = .planningFailed reason
      · obtain ⟨reason, rfl⟩ := failed
        exact Or.inr (Or.inl ⟨logical, rfl, Or.inr ⟨reason, planned⟩, by simp only [planned]⟩)
      · refine Or.inr (Or.inr ⟨e, Or.inr ⟨logical, rfl, planned,
          fun reason h => failed ⟨reason, h⟩⟩, ?_⟩)
        cases e with
        | planningFailed reason => exact absurd ⟨reason, rfl⟩ failed
        | _ => simp only [planned]

end PiLSMer
