import Mathlib.Algebra.Order.BigOperators.Group.List
import Mathlib.Algebra.Order.Ring.Nat
import PiLSMer.Core.Room
import PiLSMer.Slate.Compaction
import PiLSMer.Slate.Solo

/-! The vacuum of the compaction filter and vacuum_meaning, side by side. The filter scores a
frame by decoding it under the default limits, the handle by its length and chunk count. The
two agree as long as no plan is beyond the default limits. -/
namespace PiLSMer
open Interleave Endian

variable [Digests]

theorem filterPlanScore_wellFormed {p : ReconstructionPlan} (wf : p.WellFormed .default) :
    filterPlanScore (ValueEnvelope.plan p).encode =
      planScore (ValueEnvelope.plan p).encode.length p.chunks.length := by
  have few : p.chunks.length < 2 ^ 64 := Nat.lt_of_le_of_lt wf.chunkCount (by decide)
  rw [filterPlanScore, decode_encode_plan.mpr ⟨wf, rfl⟩]
  simp only [explainEnvelope, lenU64_toNat few, planScore]

theorem filterPlanScore_illFormed {p : ReconstructionPlan} (illFormed : ¬ p.WellFormed .default) :
    filterPlanScore (ValueEnvelope.plan p).encode = maxScore := by
  unfold filterPlanScore
  cases decoded : ValueEnvelope.decode (ValueEnvelope.plan p).encode .default with
  | error e => rfl
  | ok e => exact absurd (decode_encode_plan.mp decoded).1 illFormed

theorem planScore_lt_maxScore {p : ReconstructionPlan} (wf : p.WellFormed .default) :
    planScore (ValueEnvelope.plan p).encode.length p.chunks.length < maxScore := by
  have payload : p.encodePayload.length ≤ 256 * 1024 * 1024 := wf.encoded
  have chunks : p.chunks.length ≤ 16 * 1024 * 1024 := wf.chunkCount
  have size := putVarint_length_le (lenU64 p.encodePayload.length)
  have whole : (ValueEnvelope.plan p).encode.length ≤ p.encodePayload.length + 64 := by
    change (sealFrame (frameBody KIND_PLAN p.logicalHash p.encodePayload)).length ≤ _
    have hash := p.logicalHash.bytes.property
    have flags : (putU16Le 0).length = 2 := toLeBytes_length 2 _
    simp only [sealFrame_length, frameBody, MAGIC, List.length_append, List.length_cons,
      List.length_nil, hash, flags]
    omega
  unfold planScore maxScore
  omega

/-- The plan the planner finds for the bytes of the old one, the clock being no obstacle. -/
def PiLsmDb.Replans (db : PiLsmDb) (old plan : ReconstructionPlan) : Prop :=
  ∃ w, reconstruct db.reconstructor old = .ok w ∧
    db.planner.planWithOptions stopped w db.planner.options = .ok plan

theorem PiLsmDb.Replans.unique {db : PiLsmDb} {old plan plan' : ReconstructionPlan}
    (h : db.Replans old plan) (h' : db.Replans old plan') : plan = plan' := by
  obtain ⟨w, rebuilt, planned⟩ := h
  obtain ⟨w', rebuilt', planned'⟩ := h'
  cases rebuilt.symm.trans rebuilt'
  exact Except.ok.inj (planned.symm.trans planned')

theorem PiLsmDb.Replans.wellFormed_iff {db : PiLsmDb} {old plan : ReconstructionPlan}
    (h : db.Replans old plan) : plan.WellFormed .default ↔ plan.Admitted .default := by
  obtain ⟨w, _, planned⟩ := h
  have made := Planner.planWithOptions_made planned
  refine ⟨fun wf => wf.admitted_iff.mp wf, fun admitted => ?_⟩
  have few : plan.chunks.length ≤ 16 * 1024 * 1024 := admitted.chunkCount
  have sizes : ∀ n ∈ plan.chunks.map ChunkRef.size, n ≤ 1024 * 1024 := by
    intro n hn
    obtain ⟨c, hc, rfl⟩ := List.mem_map.mp hn
    exact admitted.chunkLen c hc
  have total := List.sum_le_card_nsmul _ _ sizes
  rw [List.length_map, Nat.nsmul_eq_mul] at total
  have covered : (plan.chunks.map ChunkRef.size).sum = w.length := made.covered
  exact (made.wellFormed_iff (by omega) _).mpr admitted

/-- The default limits have room for every plan of a short value over few streams. -/
theorem PiLsmDb.Replans.admitted {db : PiLsmDb} {old plan : ReconstructionPlan} {n : Nat}
    (h : db.Replans old plan) (short : ∀ w, reconstruct db.reconstructor old = .ok w → w.length ≤ n)
    (roomy : DecodeLimits.default.Roomy db.planner.indexes.length n)
    (near : ∀ index ∈ db.planner.indexes, index.prefixLen ≤ DecodeLimits.default.maxOffset) :
    plan.Admitted .default := by
  obtain ⟨w, rebuilt, planned⟩ := h
  exact Planner.planWithOptions_admitted roomy near (short w rebuilt) planned

section

variable {db : PiLsmDb} {f : PiLsmCompactionFilter} {options : VacuumOptions}
  {old : ReconstructionPlan} {entry : RowEntry} {key : Bytes} {s : Db}

end

end PiLSMer
