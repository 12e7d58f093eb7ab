import PiLSMer.Core.Bounded
import PiLSMer.Core.Explain
import PiLSMer.Lib.Totals

/-! The metrics of lib.rs over the stored rows. The floating-point fields are left out: the
ratios that finish sets, and the seconds that observe_counters makes of two counters. -/
namespace PiLSMer
open Totals

structure PiLsmMetrics where
  rawValuesTotal : UInt64
  plannedValuesTotal : UInt64
  logicalBytesTotal : UInt64
  plannedLogicalBytesTotal : UInt64
  rawBytesConvertedTotal : UInt64
  rawEnvelopeBytesTotal : UInt64
  planEnvelopeBytesTotal : UInt64
  planMetadataBytesTotal : UInt64
  locatedUserBytesTotal : UInt64
  literalUserBytesTotal : UInt64
  physicalValueBytesTotal : UInt64
  philosophicalUserValueBytesStoredTotal : UInt64
  chunksTotal : UInt64
  longestNaturalRunBytes : UInt32
  streamPrefixBytesIndexed : UInt64
  compactionFilterErrorsTotal : UInt64
  snapshotProtectedEntriesTotal : UInt64
  vacuumMeaningAttemptsTotal : UInt64
  vacuumMeaningImprovementsTotal : UInt64
  reconstructionCacheBytes : UInt64
  philosophicalPurityViolationsTotal : UInt64
  representationEntropyExcusesTotal : UInt64
  deriving DecidableEq, Repr

def PiLsmMetrics.new : PiLsmMetrics :=
  ⟨0, 0, 0, 0, 0, 0, 0, 0, 0, 0, 0, 0, 0, 0, 0, 0, 0, 0, 0, 0, 0, 0⟩

def PiLsmMetrics.observe (m : PiLsmMetrics) (explain : ExplainValue) : PiLsmMetrics :=
  let m := { m with
    logicalBytesTotal := m.logicalBytesTotal + explain.logicalUserBytes
    physicalValueBytesTotal := m.physicalValueBytesTotal + explain.physicalValueBytes }
  match explain.storageClass with
  | .raw => { m with
      rawValuesTotal := m.rawValuesTotal + 1
      rawEnvelopeBytesTotal := m.rawEnvelopeBytesTotal + explain.physicalValueBytes
      philosophicalUserValueBytesStoredTotal :=
        m.philosophicalUserValueBytesStoredTotal + explain.logicalUserBytes }
  | .plan => { m with
      plannedValuesTotal := m.plannedValuesTotal + 1
      plannedLogicalBytesTotal := m.plannedLogicalBytesTotal + explain.logicalUserBytes
      planEnvelopeBytesTotal := m.planEnvelopeBytesTotal + explain.physicalValueBytes
      planMetadataBytesTotal := m.planMetadataBytesTotal + explain.planMetadataBytes
      locatedUserBytesTotal := m.locatedUserBytesTotal +
        saturatingSub explain.logicalUserBytes explain.literalBytes
      literalUserBytesTotal := m.literalUserBytesTotal + explain.literalBytes
      philosophicalUserValueBytesStoredTotal :=
        m.philosophicalUserValueBytesStoredTotal + explain.philosophicalUserValueBytesStored
      chunksTotal := m.chunksTotal + explain.chunks
      longestNaturalRunBytes := max m.longestNaturalRunBytes explain.longestNaturalRun
      philosophicalPurityViolationsTotal := m.philosophicalPurityViolationsTotal +
        if explain.purity = .contaminated then 1 else 0 }

def PiLsmMetrics.plus (a b : PiLsmMetrics) : PiLsmMetrics where
  rawValuesTotal := a.rawValuesTotal + b.rawValuesTotal
  plannedValuesTotal := a.plannedValuesTotal + b.plannedValuesTotal
  logicalBytesTotal := a.logicalBytesTotal + b.logicalBytesTotal
  plannedLogicalBytesTotal := a.plannedLogicalBytesTotal + b.plannedLogicalBytesTotal
  rawBytesConvertedTotal := a.rawBytesConvertedTotal + b.rawBytesConvertedTotal
  rawEnvelopeBytesTotal := a.rawEnvelopeBytesTotal + b.rawEnvelopeBytesTotal
  planEnvelopeBytesTotal := a.planEnvelopeBytesTotal + b.planEnvelopeBytesTotal
  planMetadataBytesTotal := a.planMetadataBytesTotal + b.planMetadataBytesTotal
  locatedUserBytesTotal := a.locatedUserBytesTotal + b.locatedUserBytesTotal
  literalUserBytesTotal := a.literalUserBytesTotal + b.literalUserBytesTotal
  physicalValueBytesTotal := a.physicalValueBytesTotal + b.physicalValueBytesTotal
  philosophicalUserValueBytesStoredTotal :=
    a.philosophicalUserValueBytesStoredTotal + b.philosophicalUserValueBytesStoredTotal
  chunksTotal := a.chunksTotal + b.chunksTotal
  longestNaturalRunBytes := max a.longestNaturalRunBytes b.longestNaturalRunBytes
  streamPrefixBytesIndexed := a.streamPrefixBytesIndexed + b.streamPrefixBytesIndexed
  compactionFilterErrorsTotal := a.compactionFilterErrorsTotal + b.compactionFilterErrorsTotal
  snapshotProtectedEntriesTotal :=
    a.snapshotProtectedEntriesTotal + b.snapshotProtectedEntriesTotal
  vacuumMeaningAttemptsTotal := a.vacuumMeaningAttemptsTotal + b.vacuumMeaningAttemptsTotal
  vacuumMeaningImprovementsTotal :=
    a.vacuumMeaningImprovementsTotal + b.vacuumMeaningImprovementsTotal
  reconstructionCacheBytes := a.reconstructionCacheBytes + b.reconstructionCacheBytes
  philosophicalPurityViolationsTotal :=
    a.philosophicalPurityViolationsTotal + b.philosophicalPurityViolationsTotal
  representationEntropyExcusesTotal :=
    a.representationEntropyExcusesTotal + b.representationEntropyExcusesTotal

theorem plus_right_comm (a b c : PiLsmMetrics) : (a.plus b).plus c = (a.plus c).plus b := by
  simp only [PiLsmMetrics.plus, add_right_comm, max_right_comm]

theorem observe_plus (m : PiLsmMetrics) (e : ExplainValue) :
    m.observe e = m.plus (PiLsmMetrics.new.observe e) := by
  unfold PiLsmMetrics.observe
  cases e.storageClass <;> simp [PiLsmMetrics.plus, PiLsmMetrics.new]

theorem observe_comm (m : PiLsmMetrics) (a b : ExplainValue) :
    (m.observe a).observe b = (m.observe b).observe a := by
  calc (m.observe a).observe b
      = (m.plus (PiLsmMetrics.new.observe a)).plus (PiLsmMetrics.new.observe b) := by
        rw [observe_plus (m.observe a), observe_plus m a]
    _ = (m.plus (PiLsmMetrics.new.observe b)).plus (PiLsmMetrics.new.observe a) :=
        plus_right_comm ..
    _ = (m.observe b).observe a := by rw [observe_plus (m.observe b), observe_plus m b]

variable [Digests]

structure Row where
  frame : Bytes
  limits : DecodeLimits
  envelope : ValueEnvelope
  decodes : ValueEnvelope.decode frame limits = .ok envelope

def Row.explain (row : Row) : ExplainValue := explainEnvelope row.envelope row.frame.length

def PiLsmMetrics.ofRows (rows : List Row) : PiLsmMetrics :=
  rows.foldl (fun m row => m.observe row.explain) .new

def ValueEnvelope.logicalSize : ValueEnvelope → Nat
  | .raw bytes => bytes.length
  | .plan p => p.logicalLen.toNat

def ValueEnvelope.plannedSize : ValueEnvelope → Nat
  | .raw _ => 0
  | .plan p => p.logicalLen.toNat

def ValueEnvelope.locatedSize : ValueEnvelope → Nat
  | .raw _ => 0
  | .plan p => p.locatedSize

def ValueEnvelope.literalSize : ValueEnvelope → Nat
  | .raw _ => 0
  | .plan p => p.literalSize

def total (amount : Row → Nat) (rows : List Row) : Nat := (rows.map amount).sum

/-- What the metrics say of the rows they were folded over. -/
structure PiLsmMetrics.Conserved (m : PiLsmMetrics) (rows : List Row) : Prop where
  physical : m.physicalValueBytesTotal.toNat = total (fun row => row.frame.length) rows
  envelopes : m.rawEnvelopeBytesTotal.toNat + m.planEnvelopeBytesTotal.toNat =
    m.physicalValueBytesTotal.toNat
  located : m.locatedUserBytesTotal.toNat = total (fun row => row.envelope.locatedSize) rows
  literal : m.literalUserBytesTotal.toNat = total (fun row => row.envelope.literalSize) rows
  planned : m.locatedUserBytesTotal.toNat + m.literalUserBytesTotal.toNat =
    m.plannedLogicalBytesTotal.toNat
  logical : m.logicalBytesTotal.toNat = total (fun row => row.envelope.logicalSize) rows
  below : m.plannedLogicalBytesTotal.toNat ≤ m.logicalBytesTotal.toNat
  philosophical : m.philosophicalUserValueBytesStoredTotal.toNat =
    (m.logicalBytesTotal.toNat - m.plannedLogicalBytesTotal.toNat) + m.literalUserBytesTotal.toNat

theorem ofRows_perm {rows order : List Row} (perm : order.Perm rows) :
    PiLsmMetrics.ofRows order = PiLsmMetrics.ofRows rows :=
  perm.foldl_eq' (fun _ _ _ _ m => observe_comm m _ _) PiLsmMetrics.new

section Counts

variable (field : PiLsmMetrics → UInt64) {amount : Row → Nat} {rows : List Row}

def Row.share (row : Row) : UInt64 :=
  field (PiLsmMetrics.new.observe row.explain)

theorem ofRows_counts (additive : ∀ a b, field (a.plus b) = field a + field b)
    (start : field .new = 0) (exact : ∀ row ∈ rows, (row.share field).toNat = amount row)
    (small : total amount rows < 2 ^ 64) :
    (field (PiLsmMetrics.ofRows rows)).toNat = total amount rows := by
  apply foldl_counts (fun m row => ?_) start exact small
  rw [observe_plus, additive]
  rfl

end Counts

section Shares

variable (row : Row)

theorem share_physical (long : row.frame.length < 2 ^ 64) :
    (row.share (·.physicalValueBytesTotal)).toNat = row.frame.length := by
  obtain ⟨frame, limits, envelope, decodes⟩ := row
  cases envelope <;>
    simp [Row.share, Row.explain, explainEnvelope, PiLsmMetrics.observe, PiLsmMetrics.new,
      lenU64_toNat long]

theorem share_envelopes (long : row.frame.length < 2 ^ 64) :
    (row.share (·.rawEnvelopeBytesTotal)).toNat + (row.share (·.planEnvelopeBytesTotal)).toNat =
      row.frame.length := by
  obtain ⟨frame, limits, envelope, decodes⟩ := row
  cases envelope <;>
    simp [Row.share, Row.explain, explainEnvelope, PiLsmMetrics.observe, PiLsmMetrics.new,
      lenU64_toNat long]

theorem share_logical (large : row.envelope.logicalSize < 2 ^ 64) :
    (row.share (·.logicalBytesTotal)).toNat = row.envelope.logicalSize := by
  obtain ⟨frame, limits, envelope, decodes⟩ := row
  cases envelope with
  | raw bytes => exact (congrArg UInt64.toNat (UInt64.zero_add _)).trans (lenU64_toNat large)
  | plan p => exact congrArg UInt64.toNat (UInt64.zero_add _)

theorem share_planned :
    (row.share (·.plannedLogicalBytesTotal)).toNat = row.envelope.plannedSize := by
  obtain ⟨frame, limits, envelope, decodes⟩ := row
  cases envelope with
  | raw bytes => rfl
  | plan p => exact congrArg UInt64.toNat (UInt64.zero_add _)

theorem share_literal : (row.share (·.literalUserBytesTotal)).toNat = row.envelope.literalSize := by
  obtain ⟨frame, limits, envelope, decodes⟩ := row
  cases envelope with
  | raw bytes => rfl
  | plan p =>
    exact (congrArg UInt64.toNat (UInt64.zero_add _)).trans
      (explain_literal (decode_plan_regular decodes) frame.length)

theorem share_located : (row.share (·.locatedUserBytesTotal)).toNat = row.envelope.locatedSize := by
  obtain ⟨frame, limits, envelope, decodes⟩ := row
  cases envelope with
  | raw bytes => rfl
  | plan p =>
    have regular := decode_plan_regular decodes
    have counted := explain_literal regular frame.length
    have split := regular.split
    change (0 + saturatingSub p.logicalLen
      (explainEnvelope (.plan p) frame.length).literalBytes).toNat = p.locatedSize
    rw [UInt64.zero_add, saturatingSub_toNat (by omega), counted]
    omega

theorem share_philosophical (large : row.envelope.logicalSize < 2 ^ 64) :
    (row.share (·.philosophicalUserValueBytesStoredTotal)).toNat =
      (row.envelope.logicalSize - row.envelope.plannedSize) + row.envelope.literalSize := by
  obtain ⟨frame, limits, envelope, decodes⟩ := row
  cases envelope with
  | raw bytes => exact (congrArg UInt64.toNat (UInt64.zero_add _)).trans (lenU64_toNat large)
  | plan p =>
    have counted := explain_literal (decode_plan_regular decodes) frame.length
    change (0 + (explainEnvelope (.plan p) frame.length).literalBytes).toNat =
      (p.logicalLen.toNat - p.logicalLen.toNat) + p.literalSize
    rw [UInt64.zero_add, counted, Nat.sub_self, Nat.zero_add]

end Shares

theorem Row.planned_split (row : Row) : row.envelope.locatedSize + row.envelope.literalSize =
    row.envelope.plannedSize := by
  obtain ⟨frame, limits, envelope, decodes⟩ := row
  cases envelope with
  | raw bytes => rfl
  | plan p => exact (decode_plan_regular decodes).split

omit [Digests] in
theorem ValueEnvelope.plannedSize_le (envelope : ValueEnvelope) :
    envelope.plannedSize ≤ envelope.logicalSize := by
  cases envelope with
  | raw bytes => exact Nat.zero_le _
  | plan p => exact Nat.le_refl _

theorem total_add (f g : Row → Nat) (rows : List Row) :
    total f rows + total g rows = total (fun row => f row + g row) rows :=
  List.sum_map_add.symm

theorem total_congr {f g : Row → Nat} {rows : List Row} (same : ∀ row ∈ rows, f row = g row) :
    total f rows = total g rows :=
  congrArg List.sum (List.map_congr_left same)

/-- Metrics folded over the rows, in any order, account for every byte. -/
theorem metrics_conserved (rows : List Row)
    (frames : total (fun row => row.frame.length) rows < 2 ^ 64)
    (values : total (fun row => row.envelope.logicalSize) rows < 2 ^ 64) :
    (∀ order, order.Perm rows → PiLsmMetrics.ofRows order = PiLsmMetrics.ofRows rows) ∧
      (PiLsmMetrics.ofRows rows).Conserved rows := by
  have long (row : Row) (mem : row ∈ rows) : row.frame.length < 2 ^ 64 := member_below frames mem
  have large (row : Row) (mem : row ∈ rows) : row.envelope.logicalSize < 2 ^ 64 :=
    member_below values mem
  have parts (row : Row) := And.intro row.planned_split row.envelope.plannedSize_le
  have envelopes (row : Row) (mem : row ∈ rows) := share_envelopes row (long row mem)
  have physical := ofRows_counts (·.physicalValueBytesTotal) (fun _ _ => rfl) rfl
    (fun row mem => share_physical row (long row mem)) frames
  have logical := ofRows_counts (·.logicalBytesTotal) (fun _ _ => rfl) rfl
    (fun row mem => share_logical row (large row mem)) values
  have planned := ofRows_counts (·.plannedLogicalBytesTotal) (fun _ _ => rfl) rfl
    (fun row _ => share_planned row) (sum_below (fun row _ => (parts row).2) values)
  have located := ofRows_counts (·.locatedUserBytesTotal) (fun _ _ => rfl) rfl
    (fun row _ => share_located row)
    (sum_below (fun row _ => by have := parts row; omega) values)
  have literal := ofRows_counts (·.literalUserBytesTotal) (fun _ _ => rfl) rfl
    (fun row _ => share_literal row)
    (sum_below (fun row _ => by have := parts row; omega) values)
  have stored := ofRows_counts (·.philosophicalUserValueBytesStoredTotal) (fun _ _ => rfl) rfl
    (fun row mem => share_philosophical row (large row mem))
    (sum_below (fun row _ => by have := parts row; omega) values)
  have raw := ofRows_counts (·.rawEnvelopeBytesTotal) (fun _ _ => rfl) rfl (fun _ _ => rfl)
    (sum_below (fun row mem => by have := envelopes row mem; omega) frames)
  have plan := ofRows_counts (·.planEnvelopeBytesTotal) (fun _ _ => rfl) rfl (fun _ _ => rfl)
    (sum_below (fun row mem => by have := envelopes row mem; omega) frames)
  refine ⟨fun order perm => ofRows_perm perm, physical, ?_, located, literal, ?_, logical, ?_, ?_⟩
  · rw [raw, plan, physical, total_add]
    exact total_congr envelopes
  · rw [located, literal, planned, total_add]
    exact total_congr (fun row _ => (parts row).1)
  · rw [planned, logical]
    exact List.sum_le_sum (fun row _ => (parts row).2)
  · have apart : total (fun row => row.envelope.logicalSize - row.envelope.plannedSize) rows +
        total (fun row => row.envelope.plannedSize) rows =
          total (fun row => row.envelope.logicalSize) rows := by
      rw [total_add]
      exact total_congr (fun row _ => Nat.sub_add_cancel (parts row).2)
    rw [stored, logical, planned, literal, ← total_add, ← apart, Nat.add_sub_cancel]

def sampleRows : @List (@Row sampleDigests) :=
  letI := sampleDigests
  [⟨sampleRawFrame, .default, .raw [0x61], by decide⟩,
    ⟨samplePlanFrame, .default, .plan samplePlan, by decide⟩]

omit [Digests] in
theorem metrics_conserved_sample :
    letI := sampleDigests
    total (fun row => row.frame.length) sampleRows < 2 ^ 64 ∧
      total (fun row => row.envelope.logicalSize) sampleRows < 2 ^ 64 ∧
      (PiLsmMetrics.ofRows sampleRows).Conserved sampleRows := by
  let _ := sampleDigests
  have frames : total (fun row => row.frame.length) sampleRows < 2 ^ 64 := by decide
  have values : total (fun row => row.envelope.logicalSize) sampleRows < 2 ^ 64 := by decide
  exact ⟨frames, values, (metrics_conserved sampleRows frames values).2⟩

end PiLSMer
