import Mathlib.Data.List.Forall2
import PiLSMer.Core.Planner

/-! The memory of a reconstruction. The reconstructor compares lengths before its loop and
after it; in between it relies on the covered length that decode summed up. -/
namespace PiLSMer

/-- What the trait asks of a stream: a read that succeeds has the length asked for. -/
def StreamRegistry.Exact (registry : StreamRegistry) : Prop :=
  ∀ stream ∈ registry.streams, ∀ offset len bytes,
    stream.readAt offset len = .ok bytes → bytes.length = len

/-- The states of the chunk loop at the top of a round: the output and the chunks to come. -/
inductive Reconstructing (registry : StreamRegistry) (plan : ReconstructionPlan) :
    Bytes → List ChunkRef → Prop where
  | start : Reconstructing registry plan [] plan.chunks
  | step {out bytes : Bytes} {chunk : ChunkRef} {rest : List ChunkRef} :
    Reconstructing registry plan out (chunk :: rest) →
    reconstructChunk registry plan.streams chunk = .ok bytes →
    Reconstructing registry plan (out ++ bytes) rest

def ChunkRef.Slice (registry : StreamRegistry) (streams : List PlanStream) :
    ChunkRef → Bytes → Prop
  | .located streamIx offset len transform, slice => ∃ streamMeta stream bytes,
    streams[streamIx.toNat]? = some streamMeta ∧ registry.get streamMeta.id = some stream ∧
      stream.fingerprint = streamMeta.fingerprint ∧
      stream.readAt offset len.toNat = .ok bytes ∧ slice = applyTransform bytes transform
  | .literal bytes, slice => slice = bytes

theorem okOr_ok {α : Type} {x : Option α} {e : PiLsmError} {a : α} :
    okOr x e = .ok a ↔ x = some a := by
  cases x <;> simp [okOr]

theorem reconstructChunk_ok_iff {registry : StreamRegistry} {streams : List PlanStream}
    {chunk : ChunkRef} {slice : Bytes} :
    reconstructChunk registry streams chunk = .ok slice ↔ chunk.Slice registry streams slice := by
  cases chunk with
  | located streamIx offset len transform =>
    simp only [reconstructChunk, except_bind_ok, okOr_ok, failWhen_ok, except_pure_ok, ne_eq,
      Decidable.not_not]
    constructor
    · rintro ⟨streamMeta, there, stream, registered, _, same, bytes, run, rfl⟩
      exact ⟨streamMeta, stream, bytes, there, registered, same, run, rfl⟩
    · rintro ⟨streamMeta, stream, bytes, there, registered, same, run, rfl⟩
      exact ⟨streamMeta, there, stream, registered, (), same, bytes, run, rfl⟩
  | literal bytes => exact ⟨fun h => (Except.ok.inj h).symm, fun h => congrArg Except.ok h.symm⟩

theorem reconstructFrom_slices {registry : StreamRegistry} {streams : List PlanStream}
    {chunks : List ChunkRef} {out v : Bytes} :
    reconstructFrom registry streams out chunks = .ok v ↔
      ∃ slices, List.Forall₂ (ChunkRef.Slice registry streams) chunks slices ∧
        v = out ++ slices.flatten := by
  induction chunks generalizing out with
  | nil =>
    constructor
    · intro run
      cases run
      exact ⟨[], .nil, by simp⟩
    · rintro ⟨slices, each, rfl⟩
      cases each
      simp [reconstructFrom, pure, Except.pure]
  | cons chunk chunks ih =>
    simp only [reconstructFrom, except_bind_ok, reconstructChunk_ok_iff, ih]
    constructor
    · rintro ⟨slice, first, slices, rest, rfl⟩
      exact ⟨slice :: slices, .cons first rest, by simp⟩
    · rintro ⟨slices, each, rfl⟩
      cases each with
      | @cons _ slice _ slices first rest => exact ⟨slice, first, slices, rest, by simp⟩

def StreamRegistry.Below (registry larger : StreamRegistry) : Prop :=
  ∀ id stream, registry.get id = some stream → larger.get id = some stream

theorem StreamRegistry.Below.refl (registry : StreamRegistry) : registry.Below registry :=
  fun _ _ there => there

section Below

variable {registry larger : StreamRegistry} (below : registry.Below larger)
include below

theorem StreamRegistry.Below.slice {streams : List PlanStream} {chunk : ChunkRef} {slice : Bytes}
    (h : chunk.Slice registry streams slice) : chunk.Slice larger streams slice := by
  cases chunk with
  | literal bytes => exact h
  | located streamIx offset len transform =>
    obtain ⟨streamMeta, stream, bytes, there, registered, rest⟩ := h
    exact ⟨streamMeta, stream, bytes, there, below _ _ registered, rest⟩

theorem StreamRegistry.Below.reconstruct [Digests] {plan : ReconstructionPlan} {v : Bytes}
    (h : reconstruct registry plan = .ok v) : PiLSMer.reconstruct larger plan = .ok v := by
  obtain ⟨room, run, checks⟩ := reconstruct_ok_iff.mp h
  obtain ⟨slices, each, same⟩ := reconstructFrom_slices.mp run
  have each' := each.imp (fun _ _ slice => below.slice slice)
  exact reconstruct_ok_iff.mpr ⟨room, reconstructFrom_slices.mpr ⟨slices, each', same⟩, checks⟩

theorem StreamRegistry.Below.holds [Digests] {e : ValueEnvelope} {v : Bytes}
    (h : e.Holds registry v) : e.Holds larger v := by
  cases e with
  | raw bytes => exact h
  | plan p => exact below.reconstruct h

end Below

theorem prefixReadAt_length {text bytes : Bytes} {offset : UInt64} {len : Nat}
    (h : prefixReadAt text offset len = .ok bytes) : bytes.length = len := by
  unfold prefixReadAt at h
  split at h
  · cases h
  · split at h
    · cases h
    · cases h
      exact window_length (by omega)

theorem applyTransform_length (bytes : Bytes) (transform : ChunkTransform) :
    (applyTransform bytes transform).length = bytes.length := by
  cases transform <;> simp [applyTransform]

theorem StreamRegistry.get_mem {registry : StreamRegistry} {id : StreamId} {stream : ByteStream}
    (h : registry.get id = some stream) : stream ∈ registry.streams :=
  List.mem_of_find?_eq_some h

theorem StreamRegistry.Exact.slice_length {registry : StreamRegistry} (exact : registry.Exact)
    {streams : List PlanStream} {chunk : ChunkRef} {slice : Bytes}
    (h : chunk.Slice registry streams slice) : slice.length = chunk.size := by
  cases chunk with
  | located streamIx offset len transform =>
    obtain ⟨_, stream, bytes, _, registered, _, run, rfl⟩ := h
    rw [applyTransform_length]
    exact exact stream (StreamRegistry.get_mem registered) offset len.toNat bytes run
  | literal bytes => exact congrArg List.length h

section Loop

variable {registry : StreamRegistry} {plan : ReconstructionPlan} {out : Bytes}
  {rest : List ChunkRef}

theorem Reconstructing.run (h : Reconstructing registry plan out rest) :
    reconstructFrom registry plan.streams [] plan.chunks =
      reconstructFrom registry plan.streams out rest := by
  induction h with
  | start => rfl
  | step _ added ih =>
    rw [ih, reconstructFrom, added]
    rfl

theorem Reconstructing.finish (h : Reconstructing registry plan out rest) {v : Bytes}
    (run : reconstructFrom registry plan.streams out rest = .ok v) :
    Reconstructing registry plan v [] := by
  induction rest generalizing out with
  | nil =>
    cases run
    exact h
  | cons chunk rest ih =>
    simp only [reconstructFrom, except_bind_ok] at run
    obtain ⟨bytes, added, run⟩ := run
    exact ih (h.step added) run

theorem Reconstructing.slices (h : Reconstructing registry plan out rest) :
    ∃ done slices, plan.chunks = done ++ rest ∧ out = slices.flatten ∧
      List.Forall₂ (ChunkRef.Slice registry plan.streams) done slices := by
  induction h with
  | start => exact ⟨[], [], rfl, rfl, .nil⟩
  | @step out bytes chunk rest _ added ih =>
    obtain ⟨done, slices, split, rfl, each⟩ := ih
    refine ⟨done ++ [chunk], slices ++ [bytes], by simp [split], by simp, ?_⟩
    exact List.rel_append each (.cons (reconstructChunk_ok_iff.mp added) .nil)

/-- The loop invariant: the bytes written and the bytes to come are the covered length. -/
theorem Reconstructing.covered (exact : registry.Exact)
    (h : Reconstructing registry plan out rest) :
    out.length + coveredSize rest = coveredSize plan.chunks := by
  induction h with
  | start => simp
  | @step out bytes chunk rest _ added ih =>
    have size := exact.slice_length (reconstructChunk_ok_iff.mp added)
    simp only [coveredSize, List.map_cons, List.sum_cons] at ih ⊢
    rw [List.length_append]
    omega

end Loop

theorem reconstructFrom_error {registry : StreamRegistry} {streams : List PlanStream}
    {chunks : List ChunkRef} {out : Bytes} {e : PiLsmError}
    (h : reconstructFrom registry streams out chunks = .error e) :
    e = .missingStream ∨ e = .streamFingerprintMismatch ∨
      ∃ stream ∈ registry.streams, ∃ offset len, stream.readAt offset len = .error e := by
  induction chunks generalizing out with
  | nil => cases h
  | cons chunk chunks ih =>
    cases added : reconstructChunk registry streams chunk with
    | ok bytes =>
      rw [reconstructFrom, added] at h
      exact ih h
    | error e' =>
      rw [reconstructFrom, added] at h
      cases h
      cases chunk with
      | literal bytes => cases added
      | located streamIx offset len transform =>
        simp only [reconstructChunk] at added
        cases there : streams[streamIx.toNat]? with
        | none =>
          rw [there] at added
          cases added
          exact Or.inl rfl
        | some streamMeta =>
          cases registered : registry.get streamMeta.id with
          | none =>
            simp only [there, okOr, bind, Except.bind, registered] at added
            cases added
            exact Or.inl rfl
          | some stream =>
            simp only [there, okOr, bind, Except.bind, registered, failWhen] at added
            split at added
            · rename_i differs
              split at differs
              · cases differs
                cases added
                exact Or.inr (Or.inl rfl)
              · cases differs
            · cases run : stream.readAt offset len.toNat with
              | ok bytes =>
                rw [run] at added
                cases added
              | error e'' =>
                rw [run] at added
                cases added
                exact Or.inr (Or.inr ⟨stream, StreamRegistry.get_mem registered, _, _, run⟩)

/-- A reconstruction that stays within the declared length of its plan from start to end. -/
structure ReconstructionPlan.Bounded [Digests] (plan : ReconstructionPlan)
    (registry : StreamRegistry) (limits : DecodeLimits) (maxLogicalLen : UInt64) : Prop where
  declared : plan.logicalLen ≤ limits.maxLogicalLen
  refused : maxLogicalLen < plan.logicalLen →
    reconstructWithLimit registry plan maxLogicalLen =
      .error (.decodeLimitExceeded "max_reconstruct_bytes")
  buffer : ∀ out rest, Reconstructing registry plan out rest →
    out.length ≤ plan.logicalLen.toNat
  reads : ∀ out streamIx offset len transform rest,
    Reconstructing registry plan out (.located streamIx offset len transform :: rest) →
      len.toNat ≤ plan.logicalLen.toNat ∧
        ∃ streamMeta, plan.streams[streamIx.toNat]? = some streamMeta
  lengths : ∀ out, Reconstructing registry plan out [] → lenU64 out.length = plan.logicalLen
  mismatch : reconstructWithLimit registry plan maxLogicalLen =
      .error (.invalidPlan "reconstructed length mismatch") →
    ∃ stream ∈ registry.streams, ∃ offset len,
      stream.readAt offset len = .error (.invalidPlan "reconstructed length mismatch")
  content : ∀ v, reconstructWithLimit registry plan maxLogicalLen = .ok v →
    ∃ slices, List.Forall₂ (ChunkRef.Slice registry plan.streams) plan.chunks slices ∧
      v = slices.flatten ∧ LogicalHash.new plan.logicalHash.kind v = plan.logicalHash

theorem decode_plan_regular [Digests] {input : Bytes} {limits : DecodeLimits}
    {p : ReconstructionPlan} (accepted : ValueEnvelope.decode input limits = .ok (.plan p)) :
    p.Regular limits := by
  obtain ⟨frame, _, _, _, content⟩ := ValueEnvelope.decode_ok_iff.mp accepted
  obtain ⟨_, raw⟩ | ⟨_, q, same, payload⟩ := Frame.decode_ok_iff.mp content
  · obtain ⟨_, _, _, wrong⟩ := decodeRawPayload_ok_iff.mp raw
    cases wrong
  · cases same
    exact (decodePayload_sound payload).2

theorem ReconstructionPlan.Regular.lengths {limits : DecodeLimits} {plan : ReconstructionPlan}
    (regular : plan.Regular limits) {registry : StreamRegistry} (exact : registry.Exact)
    {out : Bytes} (h : Reconstructing registry plan out []) :
    lenU64 out.length = plan.logicalLen := by
  have total := h.covered exact
  rw [regular.covered] at total
  simp only [coveredSize, List.map_nil, List.sum_nil, Nat.add_zero] at total
  rw [total, lenU64, UInt64.ofNat_toNat]

theorem ReconstructionPlan.Regular.mismatch [Digests] {limits : DecodeLimits}
    {plan : ReconstructionPlan} (regular : plan.Regular limits) {registry : StreamRegistry}
    (exact : registry.Exact) {maxLogicalLen : UInt64}
    (h : reconstructWithLimit registry plan maxLogicalLen =
      .error (.invalidPlan "reconstructed length mismatch")) :
    ∃ stream ∈ registry.streams, ∃ offset len,
      stream.readAt offset len = .error (.invalidPlan "reconstructed length mismatch") := by
  obtain other | ⟨other, _⟩ | loop | ⟨out, run, _, length⟩ | other := reconstructWithLimit_error h
  · simp at other
  · cases other
  · obtain wrong | wrong | raised := reconstructFrom_error loop
    · cases wrong
    · cases wrong
    · exact raised
  · exact absurd (regular.lengths exact (Reconstructing.start.finish run)) length
  · cases other

/-- Whatever decode accepts reconstructs within its declared length. -/
theorem reconstruction_bounded [Digests] (input : Bytes) (limits : DecodeLimits)
    (p : ReconstructionPlan) (accepted : ValueEnvelope.decode input limits = .ok (.plan p))
    (maxLogicalLen : UInt64) (registry : StreamRegistry) (exact : registry.Exact) :
    p.Bounded registry limits maxLogicalLen := by
  have regular := decode_plan_regular accepted
  refine ⟨regular.logical, fun small => ?_, fun out rest h => ?_, ?_, fun out h => ?_,
    regular.mismatch exact, fun v h => ?_⟩
  · simp only [reconstructWithLimit, failWhen, if_pos small, bind, Except.bind]
  · have total := h.covered exact
    rw [regular.covered] at total
    omega
  · intro out streamIx offset len transform rest h
    have total := h.covered exact
    obtain ⟨done, _, split, _⟩ := h.slices
    have member : ChunkRef.located streamIx offset len transform ∈ p.chunks := by simp [split]
    obtain ⟨inRange, _⟩ := regular.chunks _ member
    rw [regular.covered] at total
    simp only [coveredSize, List.map_cons, List.sum_cons, ChunkRef.size] at total
    exact ⟨by omega, _, List.getElem?_eq_getElem inRange⟩
  · exact regular.lengths exact h
  · obtain ⟨_, _, run, _, hash⟩ := reconstructWithLimit_ok_iff.mp h
    obtain ⟨done, slices, split, same, each⟩ := (Reconstructing.start.finish run).slices
    rw [List.append_nil] at split
    exact ⟨slices, split ▸ each, same, by rw [LogicalHash.new, hash]⟩

theorem reconstruction_bounded_sample :
    letI := locatedDigests
    let registry : StreamRegistry :=
      ⟨[PrefixByteStream.new (.piHexFractionPrefixV1 abDigest 2) [0x61, 0x62]]⟩
    registry.Exact ∧ locatedPlan.Bounded registry .default 3 ∧
      reconstructWithLimit registry locatedPlan 3 = .ok [0x61, 0x62, 0x61] := by
  let _ := locatedDigests
  let registry : StreamRegistry :=
    ⟨[PrefixByteStream.new (.piHexFractionPrefixV1 abDigest 2) [0x61, 0x62]]⟩
  have exact : registry.Exact := by
    intro stream member offset len bytes run
    obtain rfl := List.mem_singleton.mp member
    exact prefixReadAt_length run
  exact ⟨exact, reconstruction_bounded locatedPlanFrame .default locatedPlan
    locatedPlanFrame_decoded 3 registry exact, by decide +kernel⟩

end PiLSMer
