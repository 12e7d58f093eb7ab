import PiLSMer.Core.Plan

/-! Writer and reader of a plan payload agree. A written payload is accepted exactly when
the plan is well formed for the limits, and everything accepted is well formed. -/
namespace PiLSMer
open Reading Endian

theorem LogicalHashKind.decode_encode (kind : LogicalHashKind) :
    LogicalHashKind.decode kind.encode = .ok kind := by
  cases kind <;> rfl

theorem PlanCodec.decode_encode (codec : PlanCodec) :
    PlanCodec.decode codec.encode = .ok codec := by
  cases codec <;> rfl

theorem decodePrefixStream_accepts (ctor : Arr 32 → UInt64 → StreamId) (digest : Arr 32)
    (bytes : UInt64) :
    Accepts (decodePrefixStream ctor) (digest.val ++ putVarint bytes) (ctor digest bytes) :=
  (readArray_accepts digest).bind ((readVarint_accepts bytes).map (ctor digest))

theorem decodePrefixStream_delimited (ctor : Arr 32 → UInt64 → StreamId) :
    Delimited (decodePrefixStream ctor) :=
  (readArray_delimited 32).bind
    (fun _ => readVarint_delimited.bind (fun _ => Delimited.pure _))

theorem StreamId.decode_accepts (id : StreamId) : Accepts StreamId.decode id.encode id := by
  cases id with
  | sha256CounterV1 seed =>
    exact (readU8_accepts 1).bind ((readArray_accepts seed).map StreamId.sha256CounterV1)
  | piHexFractionPrefixV1 digest bytes =>
    exact (readU8_accepts 2).bind (decodePrefixStream_accepts _ digest bytes)
  | eHexFractionPrefixV1 digest bytes =>
    exact (readU8_accepts 3).bind (decodePrefixStream_accepts _ digest bytes)
  | sqrt2HexFractionPrefixV1 digest bytes =>
    exact (readU8_accepts 4).bind (decodePrefixStream_accepts _ digest bytes)

theorem StreamId.decode_delimited : Delimited StreamId.decode := by
  refine readU8_delimited.bind (fun tag => ?_)
  split
  · exact (readArray_delimited 32).bind (fun _ => Delimited.pure _)
  · split
    · exact decodePrefixStream_delimited _
    · split
      · exact decodePrefixStream_delimited _
      · split
        · exact decodePrefixStream_delimited _
        · exact Delimited.throw _

theorem PlanStream.decode_accepts (stream : PlanStream) :
    Accepts PlanStream.decode stream.encode stream :=
  (StreamId.decode_accepts stream.id).bind
    ((readArray_accepts stream.fingerprint).map (PlanStream.mk stream.id))

theorem PlanStream.decode_delimited : Delimited PlanStream.decode :=
  StreamId.decode_delimited.bind
    (fun _ => (readArray_delimited 32).bind (fun _ => Delimited.pure _))

theorem ChunkTransform.decode_accepts (transform : ChunkTransform) :
    Accepts ChunkTransform.decode transform.encode transform := by
  cases transform with
  | identity => exact (readU8_accepts 0).bind (Accepts.pure ChunkTransform.identity)
  | xorByte mask =>
    exact (readU8_accepts 1).bind ((readU8_accepts mask).map ChunkTransform.xorByte)
  | reverse => exact (readU8_accepts 2).bind (Accepts.pure ChunkTransform.reverse)

theorem ChunkTransform.decode_delimited : Delimited ChunkTransform.decode := by
  refine readU8_delimited.bind (fun tag => ?_)
  split
  · exact Delimited.pure _
  · split
    · exact readU8_delimited.bind (fun _ => Delimited.pure _)
    · split
      · exact Delimited.pure _
      · exact Delimited.throw _

theorem checkedAdd_ok {a b c : UInt64} (h : checkedAdd a b = .ok c) :
    a.toNat + b.toNat < 2 ^ 64 ∧ c.toNat = a.toNat + b.toNat := by
  unfold checkedAdd at h
  split at h
  · contradiction
  · rename_i small
    cases h
    refine ⟨Nat.lt_of_not_le small, ?_⟩
    rw [UInt64.toNat_add]
    exact Nat.mod_eq_of_lt (Nat.lt_of_not_le small)

theorem checkedAdd_small {a b : UInt64} (h : a.toNat + b.toNat < 2 ^ 64) :
    checkedAdd a b = .ok (a + b) :=
  if_neg (Nat.not_le.mpr h)

theorem checkedAdd_large {a b : UInt64} (h : ¬ a.toNat + b.toNat < 2 ^ 64) :
    checkedAdd a b = .error .arithmeticOverflow :=
  if_pos (Nat.le_of_not_lt h)

theorem tryU32_ok {v : UInt64} {name : String} {w : UInt32} (h : tryU32 v name = .ok w) :
    v.toNat = w.toNat := by
  unfold tryU32 at h
  split at h
  · contradiction
  · rename_i small
    cases h
    rw [UInt64.toNat_toUInt32]
    exact (Nat.mod_eq_of_lt (Nat.lt_of_not_le small)).symm

theorem tryU32_widen (v : UInt32) (name : String) : tryU32 v.toUInt64 name = .ok v := by
  have small : ¬ 2 ^ 32 ≤ v.toUInt64.toNat := by
    rw [UInt32.toNat_toUInt64]
    exact Nat.not_le.mpr v.toNat_lt
  rw [tryU32, if_neg small]
  simp

def ChunkRef.size : ChunkRef → Nat
  | .located _ _ len _ => len.toNat
  | .literal bytes => bytes.length

/-- What decode_payload demands of one chunk. -/
def ChunkRef.WithinLimits (limits : DecodeLimits) (streamCount : Nat) : ChunkRef → Prop
  | .located streamIx offset len _ =>
    streamIx.toNat < streamCount ∧ 0 < len.toNat ∧ len ≤ limits.maxChunkLen ∧
      offset ≤ limits.maxOffset ∧ offset.toNat + len.toNat < 2 ^ 64
  | .literal bytes => 0 < bytes.length ∧ bytes.length ≤ limits.maxChunkLen.toNat

instance (limits : DecodeLimits) (streamCount : Nat) :
    DecidablePred (ChunkRef.WithinLimits limits streamCount)
  | .located .. => by unfold ChunkRef.WithinLimits; infer_instance
  | .literal .. => by unfold ChunkRef.WithinLimits; infer_instance

def coveredSize (chunks : List ChunkRef) : Nat := (chunks.map ChunkRef.size).sum

/-- The payload conditions on a plan, apart from the length of the payload itself. -/
structure ReconstructionPlan.Regular (limits : DecodeLimits) (plan : ReconstructionPlan) :
    Prop where
  chunks : ∀ c ∈ plan.chunks, c.WithinLimits limits plan.streams.length
  covered : coveredSize plan.chunks = plan.logicalLen.toNat
  logical : plan.logicalLen ≤ limits.maxLogicalLen
  streamCount : plan.streams.length ≤ limits.maxStreamsPerPlan.toNat
  chunkCount : plan.chunks.length ≤ limits.maxChunkCount.toNat
  -- what a Vec of chunks can hold at all
  capacity : plan.chunks.length < 2 ^ 58

theorem le_widen {a b : UInt32} : ¬ b.toUInt64 < a.toUInt64 ↔ a ≤ b := by
  rw [UInt64.lt_iff_toNat_lt, UInt32.le_iff_toNat_le, UInt32.toNat_toUInt64,
    UInt32.toNat_toUInt64, Nat.not_lt]

theorem ne_zero_iff {a : UInt64} : a ≠ 0 ↔ 0 < a.toNat := by
  rw [Nat.pos_iff_ne_zero, ne_eq, ne_eq, ← UInt64.toNat_inj]
  rfl

theorem readLocated_accepts (limits : DecodeLimits) (count : UInt64) (ix : UInt32)
    (offset : UInt64) (len : UInt32) (transform : ChunkTransform)
    (h : (ChunkRef.located ix offset len transform).WithinLimits limits count.toNat) :
    Accepts (readLocated limits count)
      (putVarint ix.toUInt64 ++ (putVarint offset ++ (putVarint len.toUInt64 ++ transform.encode)))
      (.located ix offset len transform) := by
  obtain ⟨inRange, nonempty, short, low, fits⟩ := h
  have wide : len.toUInt64.toNat = len.toNat := UInt32.toNat_toUInt64 len
  have h₁ : ¬ count ≤ ix.toUInt64 := by
    rw [UInt64.le_iff_toNat_le, UInt32.toNat_toUInt64]
    omega
  have h₂ : ¬ limits.maxOffset < offset := UInt64.not_lt.mpr low
  have h₃ : ¬ len.toUInt64 = 0 := ne_zero_iff.mpr (by rw [wide]; exact nonempty)
  have h₄ : ¬ limits.maxChunkLen.toUInt64 < len.toUInt64 := le_widen.mpr short
  have h₅ : offset.toNat + len.toUInt64.toNat < 2 ^ 64 := by rw [wide]; exact fits
  exact (readVarint_accepts _).bind ((Accepts.failIf _ h₁).skip
    ((readVarint_accepts offset).bind ((Accepts.failIf _ h₂).skip
      ((readVarint_accepts _).bind ((Accepts.failIf _ h₃).skip ((Accepts.failIf _ h₄).skip
        ((Accepts.lift (checkedAdd_small h₅)).skip
          ((Accepts.lift (tryU32_widen ix _)).skip ((Accepts.lift (tryU32_widen len _)).skip
            ((ChunkTransform.decode_accepts transform).map
              (ChunkRef.located ix offset len)))))))))))

theorem readLocated_rejects (limits : DecodeLimits) (count : UInt64) (ix : UInt32)
    (offset : UInt64) (len : UInt32) (transform : ChunkTransform)
    (h : ¬ (ChunkRef.located ix offset len transform).WithinLimits limits count.toNat) :
    Rejects (readLocated limits count)
      (putVarint ix.toUInt64 ++
        (putVarint offset ++ (putVarint len.toUInt64 ++ transform.encode))) := by
  have wide : len.toUInt64.toNat = len.toNat := UInt32.toNat_toUInt64 len
  apply Rejects.right (readVarint_accepts _)
  by_cases h₁ : count ≤ ix.toUInt64
  · exact Rejects.stop (Rejects.failIf _ h₁ _)
  refine Rejects.skip (Accepts.failIf _ h₁) (Rejects.right (readVarint_accepts _) ?_)
  by_cases h₂ : limits.maxOffset < offset
  · exact Rejects.stop (Rejects.failIf _ h₂ _)
  refine Rejects.skip (Accepts.failIf _ h₂) (Rejects.right (readVarint_accepts _) ?_)
  by_cases h₃ : len.toUInt64 = 0
  · exact Rejects.stop (Rejects.failIf _ h₃ _)
  apply Rejects.skip (Accepts.failIf _ h₃)
  by_cases h₄ : limits.maxChunkLen.toUInt64 < len.toUInt64
  · exact Rejects.stop (Rejects.failIf _ h₄ _)
  apply Rejects.skip (Accepts.failIf _ h₄)
  by_cases h₅ : offset.toNat + len.toUInt64.toNat < 2 ^ 64
  · refine absurd ⟨?_, ?_, le_widen.mp h₄, UInt64.not_lt.mp h₂, by rw [← wide]; exact h₅⟩ h
    · rw [UInt64.le_iff_toNat_le, UInt32.toNat_toUInt64] at h₁
      omega
    · rw [← wide]
      exact ne_zero_iff.mp h₃
  · exact Rejects.stop (Rejects.lift (checkedAdd_large h₅) _)

theorem readLiteral_accepts (limits : DecodeLimits) (bytes : Bytes)
    (h : (ChunkRef.literal bytes).WithinLimits limits n) :
    Accepts (readLiteral limits) (putVarint (lenU64 bytes.length) ++ bytes) (.literal bytes) := by
  obtain ⟨nonempty, short⟩ := h
  have small : bytes.length < 2 ^ 64 :=
    Nat.lt_of_le_of_lt short (Nat.lt_trans limits.maxChunkLen.toNat_lt (by decide))
  have size := lenU64_toNat small
  have h₁ : ¬ lenU64 bytes.length = 0 := ne_zero_iff.mpr (by rw [size]; exact nonempty)
  have h₂ : ¬ limits.maxChunkLen.toUInt64 < lenU64 bytes.length := by
    rw [UInt64.lt_iff_toNat_lt, UInt32.toNat_toUInt64, size]
    omega
  have cast := checkedUsize_accepts (lenU64 bytes.length) "literal_len"
  rw [size] at cast
  exact (readVarint_accepts _).bind ((Accepts.failIf _ h₁).skip ((Accepts.failIf _ h₂).skip
    (cast.skip ((readExact_accepts bytes).map ChunkRef.literal))))

/-- Only a literal too long for any address space could be misread, so it is excluded. -/
theorem readLiteral_rejects (limits : DecodeLimits) (bytes : Bytes)
    (small : bytes.length < 2 ^ 64) (h : ¬ (ChunkRef.literal bytes).WithinLimits limits n) :
    Rejects (readLiteral limits) (putVarint (lenU64 bytes.length) ++ bytes) := by
  have size := lenU64_toNat small
  apply Rejects.right (readVarint_accepts _)
  by_cases h₁ : lenU64 bytes.length = 0
  · exact Rejects.stop (Rejects.failIf _ h₁ _)
  apply Rejects.skip (Accepts.failIf _ h₁)
  have h₂ : limits.maxChunkLen.toUInt64 < lenU64 bytes.length := by
    rw [UInt64.lt_iff_toNat_lt, UInt32.toNat_toUInt64, size]
    have nonempty := ne_zero_iff.mp h₁
    rw [size] at nonempty
    exact Nat.lt_of_not_le (fun short => h ⟨nonempty, short⟩)
  exact Rejects.stop (Rejects.failIf _ h₂ _)

def ChunkRef.Addressable (c : ChunkRef) : Prop := c.size < 2 ^ 64

theorem ChunkRef.logicalLen_toNat {c : ChunkRef} (h : c.Addressable) :
    c.logicalLen.toNat = c.size := by
  cases c with
  | located => exact UInt32.toNat_toUInt64 _
  | literal bytes => exact lenU64_toNat h

theorem ChunkRef.WithinLimits.addressable {limits : DecodeLimits} {n : Nat} {c : ChunkRef}
    (h : c.WithinLimits limits n) : c.Addressable := by
  cases c with
  | located _ _ len _ => exact Nat.lt_trans len.toNat_lt (by decide)
  | literal bytes =>
    exact Nat.lt_of_le_of_lt h.2 (Nat.lt_trans limits.maxChunkLen.toNat_lt (by decide))

theorem readChunk_accepts (limits : DecodeLimits) (count : UInt64) {c : ChunkRef}
    (h : c.WithinLimits limits count.toNat) : Accepts (readChunk limits count) c.encode c := by
  cases c with
  | located ix offset len transform =>
    exact (readU8_accepts 0).bind (readLocated_accepts limits count ix offset len transform h)
  | literal bytes => exact (readU8_accepts 1).bind (readLiteral_accepts limits bytes h)

theorem readChunk_rejects (limits : DecodeLimits) (count : UInt64) {c : ChunkRef}
    (small : c.Addressable) (h : ¬ c.WithinLimits limits count.toNat) :
    Rejects (readChunk limits count) c.encode := by
  cases c with
  | located ix offset len transform =>
    exact Rejects.right (readU8_accepts 0)
      (readLocated_rejects limits count ix offset len transform h)
  | literal bytes =>
    exact Rejects.right (readU8_accepts 1) (readLiteral_rejects limits bytes small h)

theorem readChunks_accepts (limits : DecodeLimits) (count : UInt64) (cs : List ChunkRef)
    (within : ∀ c ∈ cs, c.WithinLimits limits count.toNat) (covered : UInt64)
    (fits : covered.toNat + coveredSize cs < 2 ^ 64) :
    Accepts (readChunks limits count cs.length covered) (cs.flatMap ChunkRef.encode)
      (cs, covered + lenU64 (coveredSize cs)) := by
  induction cs generalizing covered with
  | nil =>
    have total : covered + lenU64 (coveredSize []) = covered := by simp [coveredSize, lenU64]
    rw [total]
    exact Accepts.pure ([], covered)
  | cons c cs ih =>
    have hc := within c (List.mem_cons_self ..)
    have len := ChunkRef.logicalLen_toNat hc.addressable
    have sum : coveredSize (c :: cs) = c.size + coveredSize cs := by simp [coveredSize]
    rw [sum] at fits
    have step : covered.toNat + c.logicalLen.toNat < 2 ^ 64 := by rw [len]; omega
    have next : (covered + c.logicalLen).toNat = covered.toNat + c.size := by
      rw [UInt64.toNat_add, len]
      exact Nat.mod_eq_of_lt (by rw [← len]; exact step)
    have tail := ih (fun d hd => within d (List.mem_cons_of_mem _ hd)) (covered + c.logicalLen)
      (by rw [next]; omega)
    have total : covered + lenU64 (coveredSize (c :: cs)) =
        covered + c.logicalLen + lenU64 (coveredSize cs) := by
      apply UInt64.toNat_inj.mp
      rw [UInt64.toNat_add, UInt64.toNat_add, next, lenU64_toNat (by omega),
        lenU64_toNat (by omega), sum, Nat.add_assoc]
    rw [total]
    exact (readChunk_accepts limits count hc).bind ((Accepts.lift (checkedAdd_small step)).skip
      (tail.map (fun p => (c :: p.1, p.2))))

theorem readChunks_rejects (limits : DecodeLimits) (count : UInt64) {cs : List ChunkRef}
    (small : ∀ c ∈ cs, c.Addressable) (covered : UInt64)
    (h : ¬ ((∀ c ∈ cs, c.WithinLimits limits count.toNat) ∧
      covered.toNat + coveredSize cs < 2 ^ 64)) :
    Rejects (readChunks limits count cs.length covered) (cs.flatMap ChunkRef.encode) := by
  induction cs generalizing covered with
  | nil =>
    refine absurd ⟨by simp, ?_⟩ h
    simpa [coveredSize] using covered.toNat_lt
  | cons c cs ih =>
    by_cases hc : c.WithinLimits limits count.toNat
    · apply Rejects.right (readChunk_accepts limits count hc)
      have len := ChunkRef.logicalLen_toNat hc.addressable
      by_cases step : covered.toNat + c.logicalLen.toNat < 2 ^ 64
      · apply Rejects.skip (Accepts.lift (checkedAdd_small step))
        have next : (covered + c.logicalLen).toNat = covered.toNat + c.size := by
          rw [UInt64.toNat_add, Nat.mod_eq_of_lt step, len]
        refine Rejects.stop (ih (fun d hd => small d (List.mem_cons_of_mem _ hd)) _ ?_)
        rintro ⟨tail, fits⟩
        refine h ⟨?_, ?_⟩
        · intro d hd
          rcases List.mem_cons.mp hd with rfl | hd
          · exact hc
          · exact tail d hd
        · rw [next] at fits
          simpa [coveredSize, Nat.add_assoc] using fits
      · exact Rejects.stop (Rejects.lift (checkedAdd_large step) _)
    · exact Rejects.left (readChunk_rejects limits count (small c (List.mem_cons_self ..)) hc) _

theorem length_le_flatMap {α : Type} (write : α → Bytes) (xs : List α)
    (nonempty : ∀ x, 0 < (write x).length) : xs.length ≤ (xs.flatMap write).length := by
  induction xs with
  | nil => simp
  | cons x xs ih =>
    have := nonempty x
    simp only [List.length_cons, List.flatMap_cons, List.length_append]
    omega

theorem PlanStream.encode_pos (stream : PlanStream) : 0 < stream.encode.length := by
  simp [PlanStream.encode, stream.fingerprint.property]

theorem ChunkRef.encode_pos (c : ChunkRef) : 0 < c.encode.length := by
  cases c <;> simp [ChunkRef.encode]

theorem ChunkRef.addressable_of_encode {c : ChunkRef} (h : c.encode.length < 2 ^ 64) :
    c.Addressable := by
  cases c with
  | located _ _ len _ => exact Nat.lt_trans len.toNat_lt (by decide)
  | literal bytes =>
    simp only [ChunkRef.encode, List.length_cons, List.length_append] at h
    simp only [ChunkRef.Addressable, ChunkRef.size]
    omega

structure ReconstructionPlan.Addressable (plan : ReconstructionPlan) : Prop where
  streams : plan.streams.length < 2 ^ 64
  chunks : plan.chunks.length < 2 ^ 64
  each : ∀ c ∈ plan.chunks, c.Addressable
  footer : plan.encodeFooter.length < 2 ^ 64

theorem ReconstructionPlan.addressable {plan : ReconstructionPlan}
    (small : plan.encodePayload.length < 2 ^ 64) : plan.Addressable := by
  simp only [ReconstructionPlan.encodePayload, List.length_append] at small
  have streams := length_le_flatMap _ plan.streams PlanStream.encode_pos
  have chunks := length_le_flatMap _ plan.chunks ChunkRef.encode_pos
  refine ⟨by omega, by omega, ?_, by omega⟩
  intro c hc
  apply ChunkRef.addressable_of_encode
  have part : c.encode.length ≤ (plan.chunks.flatMap ChunkRef.encode).length :=
    (List.sublist_flatten_of_mem (List.mem_map_of_mem hc)).length_le
  omega

theorem readFooter_accepts {plan : ReconstructionPlan} (h : plan.Addressable) :
    Accepts (readFooter plan.planCodec plan.logicalLen (lenU64 plan.streams.length)
      (lenU64 plan.chunks.length)) plan.encodeFooter () := by
  have small := h.footer
  unfold ReconstructionPlan.encodeFooter at small ⊢
  cases hc : plan.planCodec with
  | compactBinary => exact Accepts.pure ()
  | ceremonialCbor =>
    simp only [hc, List.length_append] at small
    simp only [readFooter]
    generalize ceremonialFooter plan.logicalLen (lenU64 plan.streams.length)
      (lenU64 plan.chunks.length) = footer at small ⊢
    have size : (lenU64 footer.length).toNat = footer.length := lenU64_toNat (by omega)
    have cast := checkedUsize_accepts (lenU64 footer.length) "ceremonial_footer_len"
    rw [size] at cast
    have unchanged : Accepts (failIf (footer ≠ footer)
        (.invalidPlan "invalid ceremonial footer") : Read Unit) [] () :=
      Accepts.failIf _ (fun differs => differs rfl)
    have read := (readExact_accepts footer).bind
      (k := fun bytes => failIf (bytes ≠ footer) (.invalidPlan "invalid ceremonial footer"))
      unchanged
    rw [List.append_nil] at read
    exact (readVarint_accepts _).bind (cast.skip read)

/-- The conditions that readPayload checks itself, before the final comparison. -/
def ReconstructionPlan.Readable (limits : DecodeLimits) (plan : ReconstructionPlan) : Prop :=
  plan.logicalLen ≤ limits.maxLogicalLen ∧
  plan.streams.length ≤ limits.maxStreamsPerPlan.toNat ∧
  plan.chunks.length ≤ limits.maxChunkCount.toNat ∧
  plan.chunks.length < 2 ^ 58 ∧
  (∀ c ∈ plan.chunks, c.WithinLimits limits plan.streams.length) ∧
  coveredSize plan.chunks < 2 ^ 64

theorem chunks_overflow {count : Nat} :
    CapacityOverflow count CHUNK_REF_SIZE ↔ 2 ^ 58 ≤ count := by
  change 2 ^ 63 ≤ count * 32 ↔ _
  omega

theorem readPayload_accepts {limits : DecodeLimits} {plan : ReconstructionPlan}
    (small : plan.Addressable) (h : plan.Readable limits) :
    Accepts (readPayload plan.logicalHash limits) plan.encodePayload
      (plan, lenU64 (coveredSize plan.chunks)) := by
  obtain ⟨logical, streams, chunks, room, within, covered⟩ := h
  have streamsLen := lenU64_toNat small.streams
  have chunksLen := lenU64_toNat small.chunks
  have h₁ : ¬ limits.maxLogicalLen < plan.logicalLen := UInt64.not_lt.mpr logical
  have h₂ : ¬ limits.maxStreamsPerPlan.toUInt64 < lenU64 plan.streams.length := by
    rw [UInt64.lt_iff_toNat_lt, UInt32.toNat_toUInt64, streamsLen]
    omega
  have h₃ : ¬ limits.maxChunkCount < lenU64 plan.chunks.length := by
    rw [UInt64.lt_iff_toNat_lt, chunksLen]
    omega
  have h₄ : ¬ CapacityOverflow plan.chunks.length CHUNK_REF_SIZE :=
    fun overflow => Nat.not_le.mpr room (chunks_overflow.mp overflow)
  have cast₁ := checkedUsize_accepts (lenU64 plan.streams.length) "stream_count"
  have cast₂ := checkedUsize_accepts (lenU64 plan.chunks.length) "chunk_count"
  rw [streamsLen] at cast₁
  rw [chunksLen] at cast₂
  have loop := readChunks_accepts limits (lenU64 plan.streams.length) plan.chunks
    (by rw [streamsLen]; exact within) 0 (by simpa using covered)
  have sum : (0 : UInt64) + lenU64 (coveredSize plan.chunks) =
      lenU64 (coveredSize plan.chunks) := UInt64.zero_add _
  rw [sum] at loop
  have ending := (readFooter_accepts small).map
    (fun _ => (plan, lenU64 (coveredSize plan.chunks)))
  exact (readVarint_accepts _).bind ((Accepts.failIf _ h₁).skip
    ((readU16Le_accepts _).bind ((readU8_accepts _).bind
      ((Accepts.lift (PlanCodec.decode_encode _)).skip
        ((readVarint_accepts _).bind ((Accepts.failIf _ h₂).skip (cast₁.skip
          ((Accepts.times (fun s _ => PlanStream.decode_accepts s)).bind
            ((readVarint_accepts _).bind ((Accepts.failIf _ h₃).skip (cast₂.skip
              ((Accepts.failIf _ h₄).skip (loop.bind ending)))))))))))))

theorem readPayload_rejects {limits : DecodeLimits} {plan : ReconstructionPlan}
    (small : plan.Addressable) (h : ¬ plan.Readable limits) :
    Rejects (readPayload plan.logicalHash limits) plan.encodePayload := by
  have streamsLen := lenU64_toNat small.streams
  have chunksLen := lenU64_toNat small.chunks
  apply Rejects.right (readVarint_accepts _)
  by_cases h₁ : limits.maxLogicalLen < plan.logicalLen
  · exact Rejects.stop (Rejects.failIf _ h₁ _)
  refine Rejects.skip (Accepts.failIf _ h₁) (Rejects.right (readU16Le_accepts _)
    (Rejects.right (readU8_accepts _) (Rejects.skip
      (Accepts.lift (PlanCodec.decode_encode _)) (Rejects.right (readVarint_accepts _) ?_))))
  by_cases h₂ : limits.maxStreamsPerPlan.toUInt64 < lenU64 plan.streams.length
  · exact Rejects.stop (Rejects.failIf _ h₂ _)
  have cast₁ := checkedUsize_accepts (lenU64 plan.streams.length) "stream_count"
  rw [streamsLen] at cast₁
  refine Rejects.skip (Accepts.failIf _ h₂) (Rejects.skip cast₁ (Rejects.right
    (Accepts.times (fun s _ => PlanStream.decode_accepts s))
      (Rejects.right (readVarint_accepts _) ?_)))
  by_cases h₃ : limits.maxChunkCount < lenU64 plan.chunks.length
  · exact Rejects.stop (Rejects.failIf _ h₃ _)
  have cast₂ := checkedUsize_accepts (lenU64 plan.chunks.length) "chunk_count"
  rw [chunksLen] at cast₂
  refine Rejects.skip (Accepts.failIf _ h₃) (Rejects.skip cast₂ ?_)
  by_cases h₄ : CapacityOverflow plan.chunks.length CHUNK_REF_SIZE
  · exact Rejects.stop (Rejects.failIf _ h₄ _)
  refine Rejects.skip (Accepts.failIf _ h₄) (Rejects.left ?_ _)
  apply readChunks_rejects limits _ small.each
  rw [streamsLen]
  rintro ⟨within, covered⟩
  rw [UInt64.lt_iff_toNat_lt, UInt32.toNat_toUInt64, streamsLen] at h₂
  rw [UInt64.lt_iff_toNat_lt, chunksLen] at h₃
  rw [chunks_overflow] at h₄
  exact h ⟨UInt64.not_lt.mp h₁, by omega, by omega, by omega, within, by simpa using covered⟩

theorem ReconstructionPlan.regular_iff {limits : DecodeLimits} {plan : ReconstructionPlan} :
    plan.Regular limits ↔
      plan.Readable limits ∧ lenU64 (coveredSize plan.chunks) = plan.logicalLen := by
  constructor
  · intro h
    have small : coveredSize plan.chunks < 2 ^ 64 := h.covered ▸ plan.logicalLen.toNat_lt
    refine ⟨⟨h.logical, h.streamCount, h.chunkCount, h.capacity, h.chunks, small⟩, ?_⟩
    apply UInt64.toNat_inj.mp
    rw [lenU64_toNat small, h.covered]
  · rintro ⟨⟨logical, streams, chunks, room, within, small⟩, equal⟩
    refine ⟨within, ?_, logical, streams, chunks, room⟩
    rw [← lenU64_toNat small, equal]

theorem decodePayload_ok_iff {payload : Bytes} {logicalHash : LogicalHash}
    {limits : DecodeLimits} {plan : ReconstructionPlan} :
    ReconstructionPlan.decodePayload payload logicalHash limits = .ok plan ↔
      whole (readPayload logicalHash limits) (.invalidPlan "trailing bytes") payload =
        .ok (plan, plan.logicalLen) := by
  simp only [ReconstructionPlan.decodePayload, except_bind_ok, failWhen_ok, except_pure_ok]
  constructor
  · rintro ⟨⟨q, covered⟩, run, _, equal, rfl⟩
    rw [← Decidable.not_not.mp equal]
    exact run
  · intro run
    exact ⟨(plan, plan.logicalLen), run, (), fun differs => differs rfl, rfl⟩

theorem decodePayload_regular {limits : DecodeLimits} {plan : ReconstructionPlan}
    (small : plan.encodePayload.length < 2 ^ 64) (h : plan.Regular limits) :
    ReconstructionPlan.decodePayload plan.encodePayload plan.logicalHash limits = .ok plan := by
  obtain ⟨readable, equal⟩ := ReconstructionPlan.regular_iff.mp h
  have run := (readPayload_accepts (ReconstructionPlan.addressable small) readable).whole
    (.invalidPlan "trailing bytes")
  rw [equal] at run
  exact decodePayload_ok_iff.mpr run

theorem decodePayload_irregular {limits : DecodeLimits} {plan : ReconstructionPlan}
    (small : plan.encodePayload.length < 2 ^ 64) (h : ¬ plan.Regular limits)
    (q : ReconstructionPlan) :
    ReconstructionPlan.decodePayload plan.encodePayload plan.logicalHash limits ≠ .ok q := by
  intro accepted
  have run := decodePayload_ok_iff.mp accepted
  have addressable := ReconstructionPlan.addressable small
  by_cases readable : plan.Readable limits
  · rw [(readPayload_accepts addressable readable).whole] at run
    simp only [Except.ok.injEq, Prod.mk.injEq] at run
    obtain ⟨rfl, equal⟩ := run
    exact h (ReconstructionPlan.regular_iff.mpr ⟨readable, equal⟩)
  · obtain ⟨e, failed⟩ := (readPayload_rejects addressable readable).whole
      (.invalidPlan "trailing bytes")
    rw [failed] at run
    cases run

end PiLSMer
