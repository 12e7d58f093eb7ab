import PiLSMer.Core.Roundtrip

/-! The chunk count of a stored plan frame, read without any limit. The score of a frame is a
fact about its bytes; which handle decodes it does not matter. -/
namespace PiLSMer
open Reading

def loosest : DecodeLimits where
  maxLogicalLen := 0xffffffffffffffff
  maxChunkCount := 0xffffffffffffffff
  maxStreamsPerPlan := 0xffffffff
  maxChunkLen := 0xffffffff
  maxOffset := 0xffffffffffffffff
  maxEncodedPlanLen := 0xffffffffffffffff

def storedChunkCount (frame : Bytes) : Option Nat :=
  match whole (readFrame loosest) (.invalidPlan "trailing frame bytes") frame with
  | .ok f =>
    if f.kind = KIND_PLAN then
      match readChunkCount ⟨0, f.payload⟩ with
      | .ok (count, _) => some count.toNat
      | .error _ => none
    else none
  | .error _ => none

theorem DecodeLimits.le_loosest (limits : DecodeLimits) : limits.Le loosest := by
  have narrow : ∀ x : UInt32, x ≤ 0xffffffff :=
    fun x => UInt32.le_iff_toNat_le.mpr (Nat.le_of_lt_succ x.toNat_lt)
  exact ⟨le_u64_max _, le_u64_max _, le_u64_max _, le_u64_max _, narrow _, narrow _⟩

def storedScore (frame : Bytes) : Option Nat :=
  (storedChunkCount frame).map (fun count => frame.length + 16 * count)

theorem storedScore_plan [Digests] {frame : Bytes} {limits : DecodeLimits} {p : ReconstructionPlan}
    (decoded : ValueEnvelope.decode frame limits = .ok (.plan p)) :
    storedScore frame = some (frame.length + 16 * p.chunks.length) := by
  obtain ⟨f, run, _, _, content⟩ := ValueEnvelope.decode_ok_iff.mp decoded
  have loose := (readFrame_extends limits.le_loosest).whole run
  obtain ⟨_, raw⟩ | ⟨plan, q, isPlan, payload⟩ := Frame.decode_ok_iff.mp content
  · obtain ⟨_, _, _, isRaw⟩ := decodeRawPayload_ok_iff.mp raw
    cases isRaw
  · cases isPlan
    obtain ⟨t, ht, _⟩ := (whole_ok _ _ _ _).mp (decodePayload_ok_iff.mp payload)
    obtain ⟨count, t', counted, same⟩ := readPayload_chunkCount ht
    simp only [storedScore, storedChunkCount, loose, plan, if_true, counted, Option.map_some, same]

theorem storedScore_decode [Digests] {frame : Bytes} {limits : DecodeLimits} {e : ValueEnvelope}
    {n : Nat} (score : storedScore frame = some n)
    (decoded : ValueEnvelope.decode frame limits = .ok e) :
    ∃ p, e = .plan p ∧ n = frame.length + 16 * p.chunks.length := by
  cases e with
  | plan p => exact ⟨p, rfl, Option.some.inj (score.symm.trans (storedScore_plan decoded))⟩
  | raw bytes =>
    obtain ⟨f, run, _, _, content⟩ := ValueEnvelope.decode_ok_iff.mp decoded
    have loose := (readFrame_extends limits.le_loosest).whole run
    obtain ⟨raw, _⟩ | ⟨_, _, isPlan, _⟩ := Frame.decode_ok_iff.mp content
    · simp only [storedScore, storedChunkCount, loose, raw, if_neg raw_ne_plan] at score
      cases score
    · cases isPlan

theorem storedScore_encode [Digests] {p : ReconstructionPlan}
    (small : (ValueEnvelope.plan p).encode.length < 2 ^ 64) :
    storedScore (ValueEnvelope.plan p).encode =
      some ((ValueEnvelope.plan p).encode.length + 16 * p.chunks.length) := by
  have payload : p.encodePayload.length < 2 ^ 64 := by
    refine Nat.lt_of_le_of_lt ?_ small
    change _ ≤ (sealFrame (frameBody KIND_PLAN p.logicalHash p.encodePayload)).length
    simp only [sealFrame_length, frameBody, List.length_append]
    omega
  have run := (readFrame_accepts loosest KIND_PLAN p.logicalHash
    (Digests.crc32 (frameBody KIND_PLAN p.logicalHash p.encodePayload)) payload
    (fun h => absurd h.2 (Nat.not_lt.mpr (Nat.le_of_lt_succ payload)))).whole
      (.invalidPlan "trailing frame bytes")
  change whole _ _ (ValueEnvelope.plan p).encode = _ at run
  obtain ⟨t, counted⟩ := readChunkCount_encode (ReconstructionPlan.addressable payload)
  have chunks := lenU64_toNat (ReconstructionPlan.addressable payload).chunks
  simp only [storedScore, storedChunkCount, run, if_true, counted, Option.map_some, chunks]

end PiLSMer
