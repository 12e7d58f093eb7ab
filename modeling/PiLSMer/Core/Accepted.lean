import PiLSMer.Core.Payload

/-! What the payload reader accepts. Every accepted plan is regular for the limits, and
looser limits accept it too. Nothing here assumes that the payload was written by us. -/
namespace PiLSMer
open Reading

theorem readLocated_ok {limits : DecodeLimits} {count : UInt64} {c d : Cursor} {chunk : ChunkRef}
    (h : readLocated limits count c = .ok (chunk, d)) :
    chunk.WithinLimits limits count.toNat := by
  simp only [readLocated, bind_ok, failIf_ok, lift_ok, pure_ok] at h
  obtain ⟨ix, _, _, _, _, ⟨inRange, _⟩, offset, _, _, _, _, ⟨low, _⟩, len, _, _, _, _,
    ⟨nonempty, _⟩, _, _, ⟨short, _⟩, _, _, ⟨fits, _⟩, ix32, _, ⟨narrowIx, _⟩, len32, _,
    ⟨narrowLen, _⟩, transform, _, _, rfl, _⟩ := h
  have ixEq := tryU32_ok narrowIx
  have lenEq := tryU32_ok narrowLen
  obtain ⟨fits, _⟩ := checkedAdd_ok fits
  rw [UInt64.le_iff_toNat_le] at inRange
  rw [UInt64.lt_iff_toNat_lt, UInt32.toNat_toUInt64] at short
  have positive := ne_zero_iff.mp nonempty
  refine ⟨by omega, by omega, ?_, UInt64.not_lt.mp low, by omega⟩
  rw [UInt32.le_iff_toNat_le]
  omega

theorem readLiteral_ok {limits : DecodeLimits} {c d : Cursor} {chunk : ChunkRef} (n : Nat)
    (h : readLiteral limits c = .ok (chunk, d)) : chunk.WithinLimits limits n := by
  simp only [readLiteral, bind_ok, failIf_ok, lift_ok, pure_ok, checkedUsize] at h
  obtain ⟨len, _, _, _, _, ⟨nonempty, _⟩, _, _, ⟨short, _⟩, size, _, ⟨cast, _⟩, bytes, _, read,
    rfl, _⟩ := h
  obtain ⟨_, _, exact⟩ := readExact_ok read
  cases cast
  rw [UInt64.lt_iff_toNat_lt, UInt32.toNat_toUInt64] at short
  have positive := ne_zero_iff.mp nonempty
  exact ⟨by omega, by omega⟩

theorem readChunk_ok {limits : DecodeLimits} {count : UInt64} {c d : Cursor} {chunk : ChunkRef}
    (h : readChunk limits count c = .ok (chunk, d)) :
    chunk.WithinLimits limits count.toNat := by
  unfold readChunk at h
  rw [bind_ok] at h
  obtain ⟨kind, s, _, h⟩ := h
  split at h
  · exact readLocated_ok h
  · split at h
    · exact readLiteral_ok _ h
    · simp at h

/-- The running sum is the covered size so far, and it never wrapped. -/
theorem readChunks_ok {limits : DecodeLimits} {count : UInt64} {n : Nat} {covered : UInt64}
    {c d : Cursor} {read : List ChunkRef × UInt64}
    (h : readChunks limits count n covered c = .ok (read, d)) :
    read.1.length = n ∧ (∀ chunk ∈ read.1, chunk.WithinLimits limits count.toNat) ∧
      read.2.toNat = covered.toNat + coveredSize read.1 := by
  induction n generalizing covered c d read with
  | zero =>
    obtain ⟨rfl, _⟩ := (pure_ok _ _ _ _).mp h
    simp [coveredSize]
  | succ n ih =>
    simp only [readChunks, bind_ok, lift_ok, pure_ok] at h
    obtain ⟨chunk, _, first, next, _, ⟨sum, rfl⟩, rest, _, tail, rfl, _⟩ := h
    obtain ⟨length, within, total⟩ := ih tail
    have hc := readChunk_ok first
    obtain ⟨_, sum⟩ := checkedAdd_ok sum
    rw [ChunkRef.logicalLen_toNat hc.addressable] at sum
    refine ⟨by simp [length], ?_, ?_⟩
    · intro e he
      rcases List.mem_cons.mp he with rfl | he
      · exact hc
      · exact within e he
    · rw [total, sum]
      simp [coveredSize, Nat.add_assoc]

theorem readPayload_ok {logicalHash : LogicalHash} {limits : DecodeLimits} {c d : Cursor}
    {read : ReconstructionPlan × UInt64}
    (h : readPayload logicalHash limits c = .ok (read, d)) :
    read.1.logicalHash = logicalHash ∧ read.1.Readable limits ∧
      read.2.toNat = coveredSize read.1.chunks := by
  simp only [readPayload, bind_ok, failIf_ok, lift_ok, pure_ok, checkedUsize] at h
  obtain ⟨logicalLen, _, _, _, _, ⟨logical, _⟩, _, _, _, _, _, _, codec, _, ⟨_, _⟩, streamCount,
    _, _, _, _, ⟨few, _⟩, streamCap, _, ⟨cast₁, _⟩, streams, _, streamsRead, chunkCount, _, _, _,
    _, ⟨short, _⟩, chunkCap, _, ⟨cast₂, _⟩, _, _, ⟨room, _⟩, covering, _, chunksRead, _, _, _,
    rfl, _⟩ := h
  cases cast₁
  cases cast₂
  have streamLen := times_length streamsRead
  obtain ⟨chunkLen, within, total⟩ := readChunks_ok chunksRead
  rw [UInt64.lt_iff_toNat_lt, UInt32.toNat_toUInt64] at few
  rw [UInt64.lt_iff_toNat_lt] at short
  have sum : covering.2.toNat = coveredSize covering.1 := by simpa using total
  rw [chunks_overflow] at room
  refine ⟨rfl, ⟨UInt64.not_lt.mp logical, ?_, ?_, ?_, ?_, ?_⟩, sum⟩
  · change streams.length ≤ _
    omega
  · change covering.1.length ≤ _
    omega
  · change covering.1.length < _
    omega
  · change ∀ chunk ∈ covering.1, chunk.WithinLimits limits streams.length
    rw [streamLen]
    exact within
  · change coveredSize covering.1 < _
    rw [← sum]
    exact covering.2.toNat_lt

/-- decode_payload is a validator: it never returns an irregular plan. -/
theorem decodePayload_sound {payload : Bytes} {logicalHash : LogicalHash}
    {limits : DecodeLimits} {plan : ReconstructionPlan}
    (h : ReconstructionPlan.decodePayload payload logicalHash limits = .ok plan) :
    plan.logicalHash = logicalHash ∧ plan.Regular limits := by
  obtain ⟨t, ht, _⟩ := (whole_ok _ _ _ _).mp (decodePayload_ok_iff.mp h)
  obtain ⟨hash, readable, sum⟩ := readPayload_ok ht
  refine ⟨hash, ReconstructionPlan.regular_iff.mpr ⟨readable, ?_⟩⟩
  change plan.logicalLen.toNat = coveredSize plan.chunks at sum
  rw [← sum, lenU64, UInt64.ofNat_toNat]

theorem readLocated_delimited (limits : DecodeLimits) (count : UInt64) :
    Delimited (readLocated limits count) :=
  readVarint_delimited.bind (fun _ => (Delimited.failIf _ _).bind (fun _ =>
    readVarint_delimited.bind (fun _ => (Delimited.failIf _ _).bind (fun _ =>
      readVarint_delimited.bind (fun _ => (Delimited.failIf _ _).bind (fun _ =>
        (Delimited.failIf _ _).bind (fun _ => (Delimited.lift _).bind (fun _ =>
          (Delimited.lift _).bind (fun _ => (Delimited.lift _).bind (fun _ =>
            ChunkTransform.decode_delimited.bind (fun _ => Delimited.pure _)))))))))))

theorem readLiteral_delimited (limits : DecodeLimits) : Delimited (readLiteral limits) :=
  readVarint_delimited.bind (fun _ => (Delimited.failIf _ _).bind (fun _ =>
    (Delimited.failIf _ _).bind (fun _ => (Delimited.lift _).bind (fun size =>
      (readExact_delimited size).bind (fun _ => Delimited.pure _)))))

theorem readChunk_delimited (limits : DecodeLimits) (count : UInt64) :
    Delimited (readChunk limits count) := by
  refine readU8_delimited.bind (fun kind => ?_)
  split
  · exact readLocated_delimited limits count
  · split
    · exact readLiteral_delimited limits
    · exact Delimited.throw _

theorem readChunks_delimited (limits : DecodeLimits) (count : UInt64) (n : Nat)
    (covered : UInt64) : Delimited (readChunks limits count n covered) := by
  induction n generalizing covered with
  | zero => exact Delimited.pure _
  | succ n ih =>
    exact (readChunk_delimited limits count).bind (fun _ => (Delimited.lift _).bind
      (fun covered => (ih covered).bind (fun _ => Delimited.pure _)))

theorem readFooter_delimited (codec : PlanCodec) (logicalLen streams chunks : UInt64) :
    Delimited (readFooter codec logicalLen streams chunks) := by
  cases codec with
  | compactBinary => exact Delimited.pure ()
  | ceremonialCbor =>
    exact readVarint_delimited.bind (fun _ => (Delimited.lift _).bind (fun size =>
      (readExact_delimited size).bind (fun _ => Delimited.failIf _ _)))

theorem readPayload_delimited (logicalHash : LogicalHash) (limits : DecodeLimits) :
    Delimited (readPayload logicalHash limits) :=
  readVarint_delimited.bind (fun _ => (Delimited.failIf _ _).bind (fun _ =>
    readU16Le_delimited.bind (fun _ => readU8_delimited.bind (fun _ => (Delimited.lift _).bind
      (fun _ => readVarint_delimited.bind (fun _ => (Delimited.failIf _ _).bind (fun _ =>
        (Delimited.lift _).bind (fun n => (PlanStream.decode_delimited.times n).bind (fun _ =>
          readVarint_delimited.bind (fun _ => (Delimited.failIf _ _).bind (fun _ =>
            (Delimited.lift _).bind (fun n => (Delimited.failIf _ _).bind (fun _ =>
              (readChunks_delimited limits _ n 0).bind (fun _ =>
                (readFooter_delimited _ _ _ _).bind (fun _ => Delimited.pure _)))))))))))))))

structure DecodeLimits.Le (a b : DecodeLimits) : Prop where
  logicalLen : a.maxLogicalLen ≤ b.maxLogicalLen
  chunkCount : a.maxChunkCount ≤ b.maxChunkCount
  encodedPlanLen : a.maxEncodedPlanLen ≤ b.maxEncodedPlanLen
  offset : a.maxOffset ≤ b.maxOffset
  chunkLen : a.maxChunkLen ≤ b.maxChunkLen
  streamsPerPlan : a.maxStreamsPerPlan ≤ b.maxStreamsPerPlan

theorem widen_le {a b : UInt32} (h : a ≤ b) : a.toUInt64 ≤ b.toUInt64 := by
  rw [UInt64.le_iff_toNat_le, UInt32.toNat_toUInt64, UInt32.toNat_toUInt64]
  exact UInt32.le_iff_toNat_le.mp h

theorem readLocated_extends {a b : DecodeLimits} (h : a.Le b) (count : UInt64) :
    Extends (readLocated a count) (readLocated b count) :=
  (Extends.refl _).bind (fun _ => (Extends.refl _).bind (fun _ => (Extends.refl _).bind
    (fun _ => (Extends.failIf _ _ (UInt64.lt_of_le_of_lt h.offset)).bind
      (fun _ => (Extends.refl _).bind (fun _ => (Extends.refl _).bind (fun _ =>
        (Extends.failIf _ _ (UInt64.lt_of_le_of_lt (widen_le h.chunkLen))).bind
          (fun _ => Extends.refl _)))))))

theorem readLiteral_extends {a b : DecodeLimits} (h : a.Le b) :
    Extends (readLiteral a) (readLiteral b) :=
  (Extends.refl _).bind (fun _ => (Extends.refl _).bind (fun _ =>
    (Extends.failIf _ _ (UInt64.lt_of_le_of_lt (widen_le h.chunkLen))).bind
      (fun _ => Extends.refl _)))

theorem readChunk_extends {a b : DecodeLimits} (h : a.Le b) (count : UInt64) :
    Extends (readChunk a count) (readChunk b count) := by
  refine (Extends.refl _).bind (fun kind => ?_)
  split
  · exact readLocated_extends h count
  · split
    · exact readLiteral_extends h
    · exact Extends.refl _

theorem readChunks_extends {a b : DecodeLimits} (h : a.Le b) (count : UInt64) (n : Nat)
    (covered : UInt64) : Extends (readChunks a count n covered) (readChunks b count n covered) := by
  induction n generalizing covered with
  | zero => exact Extends.refl _
  | succ n ih =>
    exact (readChunk_extends h count).bind (fun _ => (Extends.refl _).bind (fun covered =>
      (ih covered).bind (fun _ => Extends.refl _)))

theorem readPayload_extends {a b : DecodeLimits} (h : a.Le b) (logicalHash : LogicalHash) :
    Extends (readPayload logicalHash a) (readPayload logicalHash b) :=
  (Extends.refl _).bind (fun _ =>
    (Extends.failIf _ _ (UInt64.lt_of_le_of_lt h.logicalLen)).bind (fun _ =>
      (Extends.refl _).bind (fun _ => (Extends.refl _).bind (fun _ => (Extends.refl _).bind
        (fun _ => (Extends.refl _).bind (fun _ => (Extends.failIf _ _
          (UInt64.lt_of_le_of_lt (widen_le h.streamsPerPlan))).bind (fun _ =>
            (Extends.refl _).bind (fun _ => (Extends.refl _).bind (fun _ => (Extends.refl _).bind
              (fun _ => (Extends.failIf _ _ (UInt64.lt_of_le_of_lt h.chunkCount)).bind (fun _ =>
                (Extends.refl _).bind (fun _ => (Extends.refl _).bind (fun _ =>
                  (readChunks_extends h _ _ _).bind (fun _ => Extends.refl _))))))))))))))

theorem decodePayload_monotone {a b : DecodeLimits} (h : a.Le b) {payload : Bytes}
    {logicalHash : LogicalHash} {plan : ReconstructionPlan}
    (accepted : ReconstructionPlan.decodePayload payload logicalHash a = .ok plan) :
    ReconstructionPlan.decodePayload payload logicalHash b = .ok plan := by
  exact decodePayload_ok_iff.mpr
    ((readPayload_extends h logicalHash).whole (decodePayload_ok_iff.mp accepted))

end PiLSMer
