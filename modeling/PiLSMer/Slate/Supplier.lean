import PiLSMer.Lib.Totals
import PiLSMer.Slate.Compaction

/-! The supplier of compaction filters and its shared stats, over any sequence of rows passed to
any of the filters it created. -/
namespace PiLSMer
open Totals

structure PiLsmCompactionFilterSupplier where
  planner : Planner
  reconstructor : StreamRegistry
  decodeLimits : DecodeLimits
  mode : CompactionMode
  strictEnvelopes : Bool
  snapshotSafeFiltering : Bool

def PiLsmCompactionFilterSupplier.createCompactionFilter (supplier : PiLsmCompactionFilterSupplier)
    (context : CompactionJobContext) : PiLsmCompactionFilter where
  planner := supplier.planner
  reconstructor := supplier.reconstructor
  decodeLimits := supplier.decodeLimits
  mode := supplier.mode
  strictEnvelopes := supplier.strictEnvelopes
  snapshotSafeFiltering := supplier.snapshotSafeFiltering
  context := context

/-- The filters created so far, each with its own stats, and the stats they share. -/
structure SupplierState where
  filters : List (PiLsmCompactionFilter × FilterStats)
  sharedStats : FilterStats

/-- A row and the filter it is passed to, with the clock its planner reads. -/
structure FilteredRow where
  filter : PiLsmCompactionFilter
  clock : Nat → Nat
  entry : RowEntry

/-- The increments that a list of tallies makes to one counter. -/
def counted (tallies : List (FilterCounter × UInt64)) (counter : FilterCounter) : Nat :=
  (tallies.map (fun t => if t.1 = counter then t.2.toNat else 0)).sum

theorem counted_cons (t : FilterCounter × UInt64) (tallies : List (FilterCounter × UInt64))
    (counter : FilterCounter) : counted (t :: tallies) counter =
      (if t.1 = counter then t.2.toNat else 0) + counted tallies counter := by
  rw [counted, List.map_cons, List.sum_cons]
  rfl

theorem tallies_counted (tallies : List (FilterCounter × UInt64)) (s : FilterState)
    (counter : FilterCounter)
    (own : (s.stats counter).toNat + counted tallies counter < 2 ^ 64)
    (shared : (s.sharedStats counter).toNat + counted tallies counter < 2 ^ 64) :
    ((tallies.foldl (fun s t => s.tally t.1 t.2) s).stats counter).toNat =
      (s.stats counter).toNat + counted tallies counter ∧
    ((tallies.foldl (fun s t => s.tally t.1 t.2) s).sharedStats counter).toNat =
      (s.sharedStats counter).toNat + counted tallies counter := by
  induction tallies generalizing s with
  | nil => exact ⟨rfl, rfl⟩
  | cons t tallies ih =>
    rw [counted_cons] at own shared ⊢
    have stepped : ((s.tally t.1 t.2).stats counter).toNat =
          (s.stats counter).toNat + (if t.1 = counter then t.2.toNat else 0) ∧
        ((s.tally t.1 t.2).sharedStats counter).toNat =
          (s.sharedStats counter).toNat + (if t.1 = counter then t.2.toNat else 0) := by
      by_cases same : t.1 = counter
      · rw [if_pos same] at own shared ⊢
        subst same
        simp only [FilterState.tally, Function.update_self]
        exact ⟨by rw [UInt64.toNat_add, Nat.mod_eq_of_lt (by omega)],
          saturatingAdd_toNat (by omega)⟩
      · rw [if_neg same]
        simp only [FilterState.tally, Function.update_of_ne (Ne.symm same), Nat.add_zero, and_self]
    obtain ⟨own', shared'⟩ := ih (s.tally t.1 t.2) (by omega) (by omega)
    rw [List.foldl_cons, own', shared', stepped.1, stepped.2]
    exact ⟨Nat.add_assoc .., Nat.add_assoc ..⟩

def FilterOutcome.modifies (outcome : FilterOutcome) : Bool :=
  match outcome.result with
  | .ok (.modify _) => true
  | _ => false

def FilterOutcome.fails (outcome : FilterOutcome) : Bool :=
  match outcome.result with
  | .ok _ => false
  | .error .panicked => false
  | .error _ => true

def FilterOutcome.panics (outcome : FilterOutcome) : Bool :=
  match outcome.result with
  | .error .panicked => true
  | _ => false

structure FilterOutcome.Counts (outcome : FilterOutcome) (kind : FilterCounter) (bytes : Nat) :
    Prop where
  rows : kind ≠ .rawBytesConverted
  amounts : ∀ counter, counted outcome.allTallies counter =
    if counter = .rawBytesConverted then bytes else if counter = kind then 1 else 0
  modifies : outcome.modifies = decide (kind = .rawValuesConverted ∨ kind = .plansImproved)
  fails : outcome.fails = decide (kind = .errors)
  returns : outcome.panics = false

/-- The row is counted, or the call panicked. -/
def FilterOutcome.Sorted (outcome : FilterOutcome) (bytes : Nat) : Prop :=
  (∃ kind, outcome.Counts kind bytes) ∨ outcome = .failed .panicked ∧ bytes = 0

def keptCounters : List FilterCounter :=
  [.plansKept, .rawValuesKeptAfterPlanningFailure, .corruptOrUnknownKept,
    .snapshotProtectedEntries, .tombstonesOrMergesKept]

theorem counts_kept {kind : FilterCounter} (rows : kind ∈ keptCounters) :
    (FilterOutcome.kept kind).Counts kind 0 := by
  simp only [keptCounters, List.mem_cons, List.not_mem_nil, or_false] at rows
  obtain rfl | rfl | rfl | rfl | rfl := rows
  all_goals exact ⟨by decide, fun counter => by cases counter <;> rfl, rfl, rfl, rfl⟩

theorem sorted_kept {kind : FilterCounter} (rows : kind ∈ keptCounters) :
    (FilterOutcome.kept kind).Sorted 0 :=
  .inl ⟨kind, counts_kept rows⟩

theorem sorted_failed (e : PiLsmError) : (FilterOutcome.failed e).Sorted 0 := by
  cases e with
  | panicked => exact .inr ⟨rfl, rfl⟩
  | _ =>
    exact .inl ⟨.errors, by decide, fun counter => by cases counter <;> rfl, rfl, rfl, rfl⟩

theorem counts_improved (value : ValueDeletable) :
    FilterOutcome.Counts ⟨.ok (.modify value), [(.plansImproved, 1)]⟩ .plansImproved 0 :=
  ⟨by decide, fun counter => by cases counter <;> rfl, rfl, rfl, rfl⟩

theorem counts_converted (value : ValueDeletable) {n : Nat} (small : n < 2 ^ 64) :
    FilterOutcome.Counts ⟨.ok (.modify value), [(.rawValuesConverted, 1),
      (.rawBytesConverted, lenU64 n)]⟩ .rawValuesConverted n := by
  have size := lenU64_toNat small
  refine ⟨by decide, fun counter => ?_, rfl, rfl, rfl⟩
  cases counter <;> simp [FilterOutcome.allTallies, counted, size]

theorem kept_panics (kind : FilterCounter) : (FilterOutcome.kept kind).panics = false := rfl

theorem failed_panics (e : PiLsmError) :
    (FilterOutcome.failed e).panics = true ↔ e = .panicked := by
  cases e <;> simp [FilterOutcome.panics, FilterOutcome.failed]

variable [Digests]

/-- The logical bytes of a raw value; a plan has none that count. -/
def ValueEnvelope.rawSize : ValueEnvelope → Nat
  | .raw bytes => bytes.length
  | .plan _ => 0

/-- What the filter returns for the row and what it counts; the stats so far do not matter. -/
def FilteredRow.outcome (row : FilteredRow) : FilterOutcome :=
  row.filter.filterEntry row.clock row.entry

def FilteredRow.rawSize (row : FilteredRow) : Nat :=
  match row.entry.value with
  | .value bytes =>
    match ValueEnvelope.decode bytes row.filter.decodeLimits with
    | .ok envelope => envelope.rawSize
    | .error _ => 0
  | _ => 0

def FilteredRow.convertedBytes (row : FilteredRow) : Nat :=
  if row.outcome.modifies then row.rawSize else 0

theorem planRaw_counts (f : PiLsmCompactionFilter) (clock : Nat → Nat) {raw : Bytes}
    (small : raw.length < 2 ^ 64) : (f.planRaw clock raw).Sorted
      (if (f.planRaw clock raw).modifies then raw.length else 0) := by
  obtain ⟨plan, _, eq⟩ | ⟨_, _, _, eq⟩ | ⟨e, _, _, eq⟩ := planRaw_cases (f := f) clock raw
  · rw [eq]
    exact .inl ⟨_, counts_converted _ small⟩
  · rw [eq]
    exact sorted_kept (by decide)
  · rw [eq]
    exact sorted_failed e

theorem improvePlan_counts (f : PiLsmCompactionFilter) (clock : Nat → Nat)
    (p : ReconstructionPlan) : (f.improvePlan clock p).Sorted 0 := by
  obtain ⟨_, _, _, _, _, eq⟩ | ⟨_, _, _, eq⟩ | ⟨e, _, eq⟩ := improvePlan_cases (f := f) clock p
  · rw [eq]
    exact .inl ⟨_, counts_improved _⟩
  · rw [eq]
    exact sorted_kept (by decide)
  · rw [eq]
    exact sorted_failed e

theorem dispatch_counts (f : PiLsmCompactionFilter) (clock : Nat → Nat) {mode : CompactionMode}
    (active : mode ≠ .disabled) {e : ValueEnvelope} (small : e.rawSize < 2 ^ 64) :
    (f.dispatch clock mode e).Sorted
      (if (f.dispatch clock mode e).modifies then e.rawSize else 0) := by
  cases e with
  | raw bytes =>
    cases mode with
    | disabled => exact absurd rfl active
    | normal => exact planRaw_counts f clock small
    | forceRawToPlan => exact planRaw_counts f clock small
    | vacuumMeaning => exact planRaw_counts f clock small
  | plan p =>
    rw [ValueEnvelope.rawSize, ite_self]
    cases mode with
    | disabled => exact absurd rfl active
    | normal => exact sorted_kept (by decide)
    | forceRawToPlan => exact sorted_kept (by decide)
    | vacuumMeaning => exact improvePlan_counts f clock p

theorem sorted_unmodified {row : FilteredRow} {outcome : FilterOutcome}
    (same : row.outcome = outcome) (keeps : outcome.modifies = false)
    (sorted : outcome.Sorted 0) : row.outcome.Sorted row.convertedBytes := by
  rw [FilteredRow.convertedBytes, same, if_neg (by rw [keeps]; exact Bool.false_ne_true)]
  exact sorted

/-- Every exit of filter_entry but the one of the disabled mode counts the row. -/
theorem filterEntry_counts {row : FilteredRow} (active : row.filter.mode ≠ .disabled) :
    row.outcome.Sorted row.convertedBytes := by
  by_cases guarded : row.filter.snapshotSafeFiltering ∧ ¬ row.filter.snapshotSafeToModify row.entry
  · have same : row.outcome = .kept .snapshotProtectedEntries := if_pos guarded
    exact sorted_unmodified same rfl (sorted_kept (by decide))
  · have reached : row.outcome = _ := if_neg guarded
    cases value : row.entry.value with
    | merge operand =>
      rw [value] at reached
      exact sorted_unmodified reached rfl (sorted_kept (by decide))
    | tombstone =>
      rw [value] at reached
      exact sorted_unmodified reached rfl (sorted_kept (by decide))
    | value bytes =>
      simp only [value] at reached
      cases decoded : ValueEnvelope.decode bytes row.filter.decodeLimits with
      | error e =>
        simp only [decoded] at reached
        obtain failed | ⟨_, kept⟩ := undecoded_cases (f := row.filter) e
        · exact sorted_unmodified (reached.trans failed) rfl (sorted_failed e)
        · exact sorted_unmodified (reached.trans kept) rfl (sorted_kept (by decide))
      | ok e =>
        simp only [decoded] at reached
        have size : row.rawSize = e.rawSize := by
          simp only [FilteredRow.rawSize, value, decoded]
        have small : e.rawSize < 2 ^ 64 := by
          cases e with
          | raw raw => exact Nat.lt_of_le_of_lt (decode_raw_short decoded) (UInt64.toNat_lt _)
          | plan p => exact Nat.two_pow_pos 64
        rw [FilteredRow.convertedBytes, reached, size]
        exact dispatch_counts row.filter row.clock active small

/-- Filters made and rows passed to them, in any order, from a new supplier on. -/
inductive SupplierRun (supplier : PiLsmCompactionFilterSupplier) :
    List FilteredRow → SupplierState → Prop
  | new : SupplierRun supplier [] ⟨[], fun _ => 0⟩
  | create {rows : List FilteredRow} {s : SupplierState} (run : SupplierRun supplier rows s)
      (context : CompactionJobContext) : SupplierRun supplier rows
        { s with filters := s.filters ++ [(supplier.createCompactionFilter context, fun _ => 0)] }
  | filter {rows : List FilteredRow} {s : SupplierState} (run : SupplierRun supplier rows s)
      {i : Nat} {f : PiLsmCompactionFilter} {stats : FilterStats}
      (created : s.filters[i]? = some (f, stats)) (clock : Nat → Nat) (entry : RowEntry) :
      SupplierRun supplier (rows ++ [⟨f, clock, entry⟩])
        ⟨s.filters.set i (f, (f.filter clock entry ⟨stats, s.sharedStats⟩).2.stats),
          (f.filter clock entry ⟨stats, s.sharedStats⟩).2.sharedStats⟩

def FilteredRow.counted (row : FilteredRow) (counter : FilterCounter) : Nat :=
  PiLSMer.counted row.outcome.allTallies counter

theorem filter_counted (row : FilteredRow) (stats shared : FilterStats) (counter : FilterCounter)
    (small : (stats counter).toNat + row.counted counter < 2 ^ 64 ∧
      (shared counter).toNat + row.counted counter < 2 ^ 64) :
    ((row.filter.filter row.clock row.entry ⟨stats, shared⟩).2.stats counter).toNat =
      (stats counter).toNat + row.counted counter ∧
    ((row.filter.filter row.clock row.entry ⟨stats, shared⟩).2.sharedStats counter).toNat =
      (shared counter).toNat + row.counted counter :=
  tallies_counted row.outcome.allTallies ⟨stats, shared⟩ counter small.1 small.2

structure SupplierState.Tallied (s : SupplierState) (rows : List FilteredRow)
    (counter : FilterCounter) : Prop where
  shared : (s.sharedStats counter).toNat = (rows.map (·.counted counter)).sum
  parts : (s.sharedStats counter).toNat = (s.filters.map (fun f => (f.2 counter).toNat)).sum

theorem SupplierRun.tallied {supplier : PiLsmCompactionFilterSupplier} {rows : List FilteredRow}
    {s : SupplierState} (run : SupplierRun supplier rows s) {counter : FilterCounter}
    (small : (rows.map (·.counted counter)).sum < 2 ^ 64) : s.Tallied rows counter := by
  induction run with
  | new => exact ⟨rfl, rfl⟩
  | @create rows s run context ih =>
    obtain ⟨shared, parts⟩ := ih small
    refine ⟨shared, parts.trans ?_⟩
    simp
  | @filter rows s run i f stats created clock entry ih =>
    rw [List.map_append, List.sum_append, List.map_singleton, List.sum_singleton] at small
    obtain ⟨shared, parts⟩ := ih (by omega)
    have there : (s.filters.map (fun f => (f.2 counter).toNat))[i]? =
        some (stats counter).toNat := by
      rw [List.getElem?_map, created]
      rfl
    have own : (stats counter).toNat ≤ (s.sharedStats counter).toNat := by
      rw [parts]
      exact List.single_le_sum (fun _ _ => Nat.zero_le _) _ (List.mem_of_getElem? there)
    obtain ⟨stats', shared'⟩ := filter_counted ⟨f, clock, entry⟩ stats s.sharedStats counter
      ⟨by omega, by omega⟩
    refine ⟨?_, ?_⟩
    · rw [shared', shared, List.map_append, List.sum_append, List.map_singleton,
        List.sum_singleton]
    · have moved := sum_set there
        ((stats counter).toNat + FilteredRow.counted ⟨f, clock, entry⟩ counter)
      rw [shared', List.map_set, stats']
      omega

theorem SupplierRun.modes {supplier : PiLsmCompactionFilterSupplier} {rows : List FilteredRow}
    {s : SupplierState} (run : SupplierRun supplier rows s) :
    (∀ f ∈ s.filters, f.1.mode = supplier.mode) ∧
      ∀ row ∈ rows, row.filter.mode = supplier.mode := by
  induction run with
  | new =>
    constructor
    · intro f none
      cases none
    · intro row none
      cases none
  | @create rows s run context ih =>
    refine ⟨fun f member => ?_, ih.2⟩
    obtain before | this := List.mem_append.mp member
    · exact ih.1 f before
    · obtain rfl := List.mem_singleton.mp this
      rfl
  | @filter rows s run i f stats created clock entry ih =>
    have mode : f.mode = supplier.mode := ih.1 _ (List.mem_of_getElem? created)
    constructor
    · intro g member
      obtain before | rfl := List.mem_or_eq_of_mem_set member
      · exact ih.1 g before
      · exact mode
    · intro row member
      obtain before | this := List.mem_append.mp member
      · exact ih.2 row before
      · obtain rfl := List.mem_singleton.mp this
        exact mode

theorem FilteredRow.partition {row : FilteredRow} (active : row.filter.mode ≠ .disabled) :
    row.counted .rawValuesConverted + row.counted .plansImproved + row.counted .plansKept +
      row.counted .rawValuesKeptAfterPlanningFailure + row.counted .corruptOrUnknownKept +
      row.counted .snapshotProtectedEntries + row.counted .tombstonesOrMergesKept +
      row.counted .errors = (if row.outcome.panics then 0 else 1) ∧
    row.counted .rawValuesConverted + row.counted .plansImproved =
      (if row.outcome.modifies then 1 else 0) ∧
    row.counted .errors = (if row.outcome.fails then 1 else 0) ∧
    row.counted .rawBytesConverted = row.convertedBytes := by
  obtain ⟨kind, counts⟩ | ⟨panicked, none⟩ := filterEntry_counts active
  · simp only [FilteredRow.counted, counts.amounts, counts.modifies, counts.fails, counts.returns]
    have rows := counts.rows
    cases kind with
    | rawBytesConverted => exact absurd rfl rows
    | _ => simp
  · rw [none]
    simp only [FilteredRow.counted, panicked]
    exact ⟨rfl, rfl, rfl, rfl⟩

def countedIn (rows : List FilteredRow) (counter : FilterCounter) : Nat :=
  (rows.map (·.counted counter)).sum

/-- What counts the Modify decisions, the Err results and the converted bytes. -/
structure Classes (rows : List FilteredRow) (amount : FilterCounter → Nat) : Prop where
  modified : rows.countP (·.outcome.modifies) =
    amount .rawValuesConverted + amount .plansImproved
  failed : rows.countP (·.outcome.fails) = amount .errors
  bytes : amount .rawBytesConverted = (rows.map FilteredRow.convertedBytes).sum

structure Partition (rows : List FilteredRow) (amount : FilterCounter → Nat) : Prop
    extends Classes rows amount where
  total : rows.length = amount .rawValuesConverted + amount .plansImproved + amount .plansKept +
    amount .rawValuesKeptAfterPlanningFailure + amount .corruptOrUnknownKept +
    amount .snapshotProtectedEntries + amount .tombstonesOrMergesKept + amount .errors

theorem countedIn_classes {rows : List FilteredRow}
    (active : ∀ row ∈ rows, row.filter.mode ≠ .disabled) : Classes rows (countedIn rows) := by
  induction rows with
  | nil => exact ⟨rfl, rfl, rfl⟩
  | cons row rows ih =>
    obtain ⟨_, modified, failed, bytes⟩ :=
      FilteredRow.partition (active row (List.mem_cons_self ..))
    obtain ⟨restModified, restFailed, restBytes⟩ :=
      ih (fun other member => active other (List.mem_cons_of_mem _ member))
    simp only [countedIn] at restModified restFailed restBytes
    constructor
    · simp only [countedIn, List.map_cons, List.sum_cons, List.countP_cons]
      omega
    · simp only [countedIn, List.map_cons, List.sum_cons, List.countP_cons]
      omega
    · simp only [countedIn, List.map_cons, List.sum_cons]
      omega

/-- The rows that no counter of rows has are those on which a call panicked. -/
theorem countedIn_total {rows : List FilteredRow}
    (active : ∀ row ∈ rows, row.filter.mode ≠ .disabled) :
    rows.length = countedIn rows .rawValuesConverted + countedIn rows .plansImproved +
      countedIn rows .plansKept + countedIn rows .rawValuesKeptAfterPlanningFailure +
      countedIn rows .corruptOrUnknownKept + countedIn rows .snapshotProtectedEntries +
      countedIn rows .tombstonesOrMergesKept + countedIn rows .errors +
      rows.countP (·.outcome.panics) := by
  induction rows with
  | nil => rfl
  | cons row rows ih =>
    obtain ⟨one, _⟩ := FilteredRow.partition (active row (List.mem_cons_self ..))
    have rest := ih (fun other member => active other (List.mem_cons_of_mem _ member))
    simp only [countedIn] at rest
    simp only [countedIn, List.map_cons, List.sum_cons, List.length_cons, List.countP_cons]
    cases panicked : row.outcome.panics
    all_goals simp only [panicked, if_true, if_false, Bool.false_eq_true] at one ⊢
    all_goals omega

/-- The panics of what filter_entry calls: in decoding the value of a row it may modify, in
planning a raw value, and, where plans are improved, in rebuilding a plan or planning anew. -/
def FilteredRow.Panics (row : FilteredRow) : Prop :=
  ¬ row.filter.Protected row.entry ∧ ∃ bytes, row.entry.value = .value bytes ∧
    match ValueEnvelope.decode bytes row.filter.decodeLimits with
    | .error e => e = .panicked
    | .ok (.raw raw) => row.filter.planner.plan row.clock raw = .error .panicked
    | .ok (.plan p) => row.filter.mode = .vacuumMeaning ∧
      match reconstruct row.filter.reconstructor p with
      | .error e => e = .panicked
      | .ok logical => row.filter.planner.plan row.clock logical = .error .panicked

theorem planRaw_panics {f : PiLsmCompactionFilter} {clock : Nat → Nat} {raw : Bytes} :
    (f.planRaw clock raw).panics = true ↔ f.planner.plan clock raw = .error .panicked := by
  obtain ⟨plan, planned, eq⟩ | ⟨_, planned, _, eq⟩ | ⟨e, planned, _, eq⟩ :=
    planRaw_cases (f := f) clock raw
  · rw [eq, planned]
    exact iff_of_false Bool.false_ne_true nofun
  · rw [eq, planned, kept_panics]
    exact iff_of_false Bool.false_ne_true nofun
  · rw [eq, planned, failed_panics]
    exact ⟨congrArg Except.error, Except.error.inj⟩

theorem improvePlan_panics {f : PiLsmCompactionFilter} {clock : Nat → Nat}
    {p : ReconstructionPlan} :
    (f.improvePlan clock p).panics = true ↔
      match reconstruct f.reconstructor p with
      | .error e => e = .panicked
      | .ok logical => f.planner.plan clock logical = .error .panicked := by
  obtain ⟨_, _, rebuilt, planned, _, eq⟩ | ⟨_, rebuilt, settled, eq⟩ | ⟨e, stopped, eq⟩ :=
    improvePlan_cases (f := f) clock p
  · simp only [eq, rebuilt, planned]
    exact iff_of_false Bool.false_ne_true nofun
  · rw [eq, kept_panics, rebuilt]
    refine iff_of_false Bool.false_ne_true (fun panicked => ?_)
    obtain ⟨_, planned, _⟩ | ⟨_, planned⟩ := settled
    all_goals cases planned.symm.trans panicked
  · rw [eq, failed_panics]
    obtain rebuilt | ⟨_, rebuilt, planned, _⟩ := stopped
    · rw [rebuilt]
    · simp only [rebuilt, planned]
      exact ⟨congrArg Except.error, Except.error.inj⟩

theorem dispatch_panics {f : PiLsmCompactionFilter} {clock : Nat → Nat}
    (active : f.mode ≠ .disabled) {e : ValueEnvelope} :
    (f.dispatch clock f.mode e).panics = true ↔
      match e with
      | .raw raw => f.planner.plan clock raw = .error .panicked
      | .plan p => f.mode = .vacuumMeaning ∧
        match reconstruct f.reconstructor p with
        | .error e => e = .panicked
        | .ok logical => f.planner.plan clock logical = .error .panicked := by
  cases e with
  | raw raw =>
    have same : f.dispatch clock f.mode (.raw raw) = f.planRaw clock raw := by
      cases mode : f.mode with
      | disabled => exact absurd mode active
      | _ => rfl
    rw [same, planRaw_panics]
  | plan p =>
    cases mode : f.mode with
    | vacuumMeaning =>
      rw [show f.dispatch clock .vacuumMeaning (.plan p) = f.improvePlan clock p from rfl,
        improvePlan_panics]
      simp only [true_and]
    | disabled => exact absurd mode active
    | normal => exact iff_of_false Bool.false_ne_true (fun h => nomatch h.1)
    | forceRawToPlan => exact iff_of_false Bool.false_ne_true (fun h => nomatch h.1)

theorem outcome_panics {row : FilteredRow} (active : row.filter.mode ≠ .disabled) :
    row.outcome.panics = true ↔ row.Panics := by
  by_cases guarded : row.filter.Protected row.entry
  · have same : row.outcome = .kept .snapshotProtectedEntries := if_pos guarded
    rw [same]
    exact iff_of_false Bool.false_ne_true (fun h => h.1 guarded)
  · have reached : row.outcome = _ := if_neg guarded
    simp only [FilteredRow.Panics, guarded, not_false_eq_true, true_and]
    cases value : row.entry.value with
    | merge operand =>
      rw [value] at reached
      rw [reached]
      exact iff_of_false Bool.false_ne_true (by rintro ⟨_, ⟨⟩, _⟩)
    | tombstone =>
      rw [value] at reached
      rw [reached]
      exact iff_of_false Bool.false_ne_true (by rintro ⟨_, ⟨⟩, _⟩)
    | value bytes =>
      simp only [value] at reached
      simp only [ValueDeletable.value.injEq, exists_eq_left']
      cases decoded : ValueEnvelope.decode bytes row.filter.decodeLimits with
      | error e =>
        simp only [decoded] at reached
        obtain failed | ⟨other, kept⟩ := undecoded_cases (f := row.filter) e
        · rw [reached, failed, failed_panics]
        · rw [reached, kept]
          exact iff_of_false Bool.false_ne_true other
      | ok e =>
        simp only [decoded] at reached
        rw [reached, dispatch_panics active]
        cases e <;> rfl

/-- The shared stats sort the rows of a run if and only if the filter panics on none of them, and
are the sums of the filters' own in every run. -/
theorem compaction_stats_partition_iff (supplier : PiLsmCompactionFilterSupplier)
    (active : supplier.mode ≠ .disabled) (rows : List FilteredRow) (s : SupplierState)
    (run : SupplierRun supplier rows s) (few : rows.length < 2 ^ 64)
    (bytes : (rows.map FilteredRow.convertedBytes).sum < 2 ^ 64) :
    Partition rows (fun counter => (s.sharedStats counter).toNat) ∧
      (∀ counter, (s.sharedStats counter).toNat =
        (s.filters.map (fun f => (f.2 counter).toNat)).sum) ↔
    ∀ row ∈ rows, ¬ row.Panics := by
  have modes (row : FilteredRow) (member : row ∈ rows) : row.filter.mode ≠ .disabled := by
    rw [run.modes.2 row member]
    exact active
  have classes := countedIn_classes modes
  have total := countedIn_total modes
  have small (counter : FilterCounter) : countedIn rows counter < 2 ^ 64 := by
    have converted := classes.bytes
    cases counter <;> omega
  have tallied (counter : FilterCounter) : s.Tallied rows counter := run.tallied (small counter)
  have same : (fun counter => (s.sharedStats counter).toNat) = countedIn rows :=
    funext (fun counter => (tallied counter).shared)
  rw [same, and_iff_left (fun counter => (tallied counter).parts)]
  have none : (∀ row ∈ rows, ¬ row.Panics) ↔ rows.countP (·.outcome.panics) = 0 := by
    rw [List.countP_eq_zero]
    exact forall₂_congr (fun row member => not_congr (outcome_panics (modes row member)).symm)
  rw [none]
  constructor
  · intro partition
    have total' := partition.total
    omega
  · exact fun calm => ⟨classes, by omega⟩

def sampleSupplier (mode : CompactionMode) : PiLsmCompactionFilterSupplier where
  planner := barePlanner true
  reconstructor := ⟨[]⟩
  decodeLimits := .default
  mode := mode
  strictEnvelopes := true
  snapshotSafeFiltering := true

def sampleFiltered : List FilteredRow :=
  [⟨(sampleSupplier .normal).createCompactionFilter ⟨some 10⟩, stopped, sampleRow⟩,
    ⟨(sampleSupplier .normal).createCompactionFilter ⟨some 2⟩, stopped, sampleRow⟩]

omit [Digests] in
theorem compaction_stats_partition_sample :
    letI := sampleDigests
    ∃ s, SupplierRun (sampleSupplier .normal) sampleFiltered s ∧
      s.sharedStats .rawBytesConverted = 1 ∧ s.sharedStats .snapshotProtectedEntries = 1 ∧
      Partition sampleFiltered (fun counter => (s.sharedStats counter).toNat) := by
  let _ := sampleDigests
  have start : SupplierRun (sampleSupplier .normal) [] _ := SupplierRun.new
  have created := (start.create ⟨some 10⟩).create ⟨some 2⟩
  have run := (created.filter (i := 0) rfl stopped sampleRow).filter (i := 1) rfl stopped sampleRow
  have calm : ∀ row ∈ sampleFiltered, ¬ row.Panics := by
    have returns : ∀ row ∈ sampleFiltered, ¬ row.outcome.panics = true := by decide
    have modes : ∀ row ∈ sampleFiltered, row.filter.mode ≠ .disabled := by decide
    exact fun row member panics =>
      returns row member ((outcome_panics (modes row member)).mpr panics)
  exact ⟨_, run, by decide, by decide,
    ((compaction_stats_partition_iff (sampleSupplier .normal) (by decide) sampleFiltered _ run
      (by decide) (by decide)).mpr calm).1⟩

/-- A plan frame that announces 2^62 chunks and has none. -/
def overfullFrame : Bytes :=
  [0x50, 0x4c, 0x53, 0x4d, 0x01, 0x01, 0x00, 0x00, 0x01, 0x0e, 0x00, 0x01, 0x00, 0x01, 0x00,
    0x80, 0x80, 0x80, 0x80, 0x80, 0x80, 0x80, 0x80, 0x40, 0x00, 0x00, 0x00, 0x00, 0x00, 0x00,
    0x00, 0x00, 0x00, 0x00, 0x00, 0x00, 0x00, 0x00, 0x00, 0x00, 0x35, 0x53, 0xe2, 0x0f]

@[reducible] def overfullDigests : Digests :=
  { sampleDigests with
    crc32 := fun b => if b = overfullFrame.take 40 then 0x0fe25335 else sampleDigests.crc32 b }

def wideSupplier : PiLsmCompactionFilterSupplier :=
  { sampleSupplier .normal with
    decodeLimits := { DecodeLimits.default with maxChunkCount := 0xffffffffffffffff } }

omit [Digests] in
theorem panicked_row_uncounted :
    ¬ ∀ [Digests] (supplier : PiLsmCompactionFilterSupplier) (rows : List FilteredRow)
      (s : SupplierState), supplier.mode ≠ .disabled → SupplierRun supplier rows s →
      rows.length < 2 ^ 64 → (rows.map FilteredRow.convertedBytes).sum < 2 ^ 64 →
      Partition rows (fun counter => (s.sharedStats counter).toNat) ∧
        ∀ counter, (s.sharedStats counter).toNat =
          (s.filters.map (fun f => (f.2 counter).toNat)).sum := by
  intro claim
  let _ := overfullDigests
  have start : SupplierRun wideSupplier [] _ := SupplierRun.new
  have run := (start.create ⟨none⟩).filter (i := 0) rfl stopped ⟨[0x6b], .value overfullFrame, 1⟩
  have total := (claim wideSupplier _ _ (by decide) run (by decide) (by decide +kernel)).1.total
  revert total
  decide +kernel

end PiLSMer
