import PiLSMer.Core.Reconstruct

/-! Where the code panics. Decoding panics when it asks for more chunks than a Vec can hold, and
rebuilding when the value is longer than memory or a stream panics; nothing else does. -/
namespace PiLSMer
open Reading Endian

def readChunkCount : Read UInt64 := do
  let _logicalLen ← readVarint
  let _plannerVersion ← readU16Le
  let _codecByte ← readU8
  let streamCount ← readVarint
  let _streams ← times PlanStream.decode streamCount.toNat
  readVarint

theorem readPayload_chunkCount {hash : LogicalHash} {limits : DecodeLimits} {c d : Cursor}
    {read : ReconstructionPlan × UInt64} (h : readPayload hash limits c = .ok (read, d)) :
    ∃ count t, readChunkCount c = .ok (count, t) ∧ count.toNat = read.1.chunks.length := by
  simp only [readPayload, bind_ok, failIf_ok, lift_ok, pure_ok, checkedUsize] at h
  obtain ⟨logicalLen, c₁, h₁, _, _, ⟨_, rfl⟩, version, c₂, h₂, codec, c₃, h₃, _, _, ⟨_, rfl⟩,
    streamCount, c₄, h₄, _, _, ⟨_, rfl⟩, streamCap, _, ⟨cast₁, rfl⟩, streams, c₅, h₅, chunkCount,
    c₆, h₆, _, _, ⟨_, rfl⟩, chunkCap, _, ⟨cast₂, rfl⟩, _, _, ⟨_, rfl⟩, covering, _, h₇, _, _, _,
    rfl, _⟩ := h
  cases cast₁
  cases cast₂
  refine ⟨chunkCount, c₆, ?_, (readChunks_ok h₇).1.symm⟩
  simp only [readChunkCount, bind_ok]
  exact ⟨logicalLen, c₁, h₁, version, c₂, h₂, codec, c₃, h₃, streamCount, c₄, h₄, streams, c₅, h₅,
    h₆⟩

theorem readChunkCount_encode {plan : ReconstructionPlan} (small : plan.Addressable) :
    ∃ t, readChunkCount ⟨0, plan.encodePayload⟩ = .ok (lenU64 plan.chunks.length, t) := by
  have streamsLen := lenU64_toNat small.streams
  have streams : Accepts (times PlanStream.decode (lenU64 plan.streams.length).toNat)
      (plan.streams.flatMap PlanStream.encode) plan.streams := by
    rw [streamsLen]
    exact Accepts.times (fun s _ => PlanStream.decode_accepts s)
  have front : Accepts readChunkCount (putVarint plan.logicalLen ++
      (putU16Le plan.plannerVersion ++ ([plan.planCodec.encode] ++
        (putVarint (lenU64 plan.streams.length) ++ (plan.streams.flatMap PlanStream.encode ++
          putVarint (lenU64 plan.chunks.length)))))) (lenU64 plan.chunks.length) :=
    (readVarint_accepts _).bind ((readU16Le_accepts _).bind ((readU8_accepts _).bind
      ((readVarint_accepts _).bind (streams.bind (readVarint_accepts _)))))
  have run := front 0 (plan.chunks.flatMap ChunkRef.encode ++ plan.encodeFooter)
  simp only [List.append_assoc] at run
  exact ⟨_, run⟩

def Serene {α : Type} (r : Read α) : Prop := Avoids .panicked r []

section Serene

variable {α β : Type}

theorem Serene.pure (a : α) : Serene (pure a : Read α) := Avoids.pure a []

theorem Serene.throw {e : PiLsmError} (other : e ≠ .panicked) : Serene (throw e : Read α) :=
  Avoids.throw other []

theorem Serene.lift {x : Except PiLsmError α} (other : x ≠ .error .panicked) :
    Serene (lift x : Read α) :=
  Avoids.lift other []

theorem Serene.bind {r : Read α} {k : α → Read β} (first : Serene r) (next : ∀ a, Serene (k a)) :
    Serene (r >>= k) :=
  Avoids.bind first next

theorem Serene.failIf {bad : Prop} [Decidable bad] {e : PiLsmError} (other : e ≠ .panicked) :
    Serene (failIf bad e) := by
  unfold Reading.failIf
  split
  · exact Serene.throw other
  · exact Serene.pure ()

theorem Serene.past {r : Read α} {k : α → Read β} {t : Cursor} (calm : Serene r)
    (panics : (r >>= k) t = .error .panicked) :
    ∃ a s, r t = .ok (a, s) ∧ k a s = .error .panicked := by
  obtain failed | next := bind_failed panics
  · exact absurd failed (calm t.pos t.rest)
  · exact next

theorem Serene.past_check {bad : Prop} [Decidable bad] {e : PiLsmError} {k : Unit → Read β}
    {t : Cursor} (other : e ≠ .panicked)
    (panics : (Reading.failIf bad e >>= k) t = .error .panicked) :
    ¬ bad ∧ k () t = .error .panicked := by
  obtain ⟨_, s, passed, panics⟩ := (Serene.failIf other).past panics
  obtain ⟨good, rfl⟩ := (failIf_ok bad e _ t s).mp passed
  exact ⟨good, panics⟩

end Serene

theorem checkedUsize_serene (value : UInt64) (name : String) :
    checkedUsize value name ≠ .error .panicked :=
  nofun

theorem checkedAdd_serene (a b : UInt64) : checkedAdd a b ≠ .error .panicked := by
  unfold checkedAdd
  split <;> nofun

theorem tryU32_serene (v : UInt64) (name : String) : tryU32 v name ≠ .error .panicked := by
  unfold tryU32
  split <;> nofun

theorem LogicalHashKind.decode_serene (value : UInt8) :
    LogicalHashKind.decode value ≠ .error .panicked := by
  unfold LogicalHashKind.decode
  repeat' split
  all_goals nofun

theorem PlanCodec.decode_serene (value : UInt8) : PlanCodec.decode value ≠ .error .panicked := by
  unfold PlanCodec.decode
  repeat' split
  all_goals nofun

theorem readExact_serene (len : Nat) : Serene (readExact len) := by
  intro pos rest failed
  unfold readExact at failed
  split at failed
  · split at failed <;> cases failed
  · cases failed

theorem readArray_serene (n : Nat) : Serene (readArray n) :=
  (readExact_serene n).bind (fun _ => Serene.pure _)

theorem readU8_serene : Serene readU8 := (readExact_serene 1).bind (fun _ => Serene.pure _)

theorem readU16Le_serene : Serene readU16Le := (readExact_serene 2).bind (fun _ => Serene.pure _)

theorem readU32Le_serene : Serene readU32Le := (readExact_serene 4).bind (fun _ => Serene.pure _)

theorem readVarintFrom_serene (rounds : Nat) (value : UInt64) (shift : Nat) :
    Serene (readVarintFrom rounds value shift) := by
  induction rounds generalizing value shift with
  | zero => exact Serene.throw nofun
  | succ rounds ih =>
    refine readU8_serene.bind (fun byte => ?_)
    dsimp only
    split
    · exact Serene.pure _
    · exact ih _ _

theorem readVarint_serene : Serene readVarint := readVarintFrom_serene 10 0 0

theorem decodePrefixStream_serene (ctor : Arr 32 → UInt64 → StreamId) :
    Serene (decodePrefixStream ctor) :=
  (readArray_serene 32).bind (fun _ => readVarint_serene.bind (fun _ => Serene.pure _))

theorem StreamId.decode_serene : Serene StreamId.decode := by
  refine readU8_serene.bind (fun tag => ?_)
  split
  · exact (readArray_serene 32).bind (fun _ => Serene.pure _)
  · split
    · exact decodePrefixStream_serene _
    · split
      · exact decodePrefixStream_serene _
      · split
        · exact decodePrefixStream_serene _
        · exact Serene.throw nofun

theorem PlanStream.decode_serene : Serene PlanStream.decode :=
  StreamId.decode_serene.bind (fun _ => (readArray_serene 32).bind (fun _ => Serene.pure _))

theorem ChunkTransform.decode_serene : Serene ChunkTransform.decode := by
  refine readU8_serene.bind (fun tag => ?_)
  split
  · exact Serene.pure _
  · split
    · exact readU8_serene.bind (fun _ => Serene.pure _)
    · split
      · exact Serene.pure _
      · exact Serene.throw nofun

theorem readLocated_serene (limits : DecodeLimits) (count : UInt64) :
    Serene (readLocated limits count) :=
  readVarint_serene.bind (fun _ => (Serene.failIf (by nofun)).bind (fun _ => readVarint_serene.bind
    (fun _ => (Serene.failIf (by nofun)).bind (fun _ => readVarint_serene.bind (fun _ =>
      (Serene.failIf (by nofun)).bind (fun _ => (Serene.failIf (by nofun)).bind (fun _ =>
        (Serene.lift (checkedAdd_serene _ _)).bind (fun _ =>
          (Serene.lift (tryU32_serene _ _)).bind (fun _ => (Serene.lift (tryU32_serene _ _)).bind
            (fun _ => ChunkTransform.decode_serene.bind (fun _ => Serene.pure _)))))))))))

theorem readLiteral_serene (limits : DecodeLimits) : Serene (readLiteral limits) :=
  readVarint_serene.bind (fun _ => (Serene.failIf (by nofun)).bind (fun _ =>
    (Serene.failIf (by nofun)).bind (fun _ => (Serene.lift (checkedUsize_serene _ _)).bind
      (fun size => (readExact_serene size).bind (fun _ => Serene.pure _)))))

theorem readChunk_serene (limits : DecodeLimits) (count : UInt64) :
    Serene (readChunk limits count) := by
  refine readU8_serene.bind (fun kind => ?_)
  split
  · exact readLocated_serene limits count
  · split
    · exact readLiteral_serene limits
    · exact Serene.throw nofun

theorem readChunks_serene (limits : DecodeLimits) (count : UInt64) (n : Nat) (covered : UInt64) :
    Serene (readChunks limits count n covered) := by
  induction n generalizing covered with
  | zero => exact Serene.pure _
  | succ n ih =>
    exact (readChunk_serene limits count).bind (fun _ =>
      (Serene.lift (checkedAdd_serene _ _)).bind (fun covered =>
        (ih covered).bind (fun _ => Serene.pure _)))

theorem readFooter_serene (codec : PlanCodec) (logicalLen streams chunks : UInt64) :
    Serene (readFooter codec logicalLen streams chunks) := by
  cases codec with
  | compactBinary => exact Serene.pure ()
  | ceremonialCbor =>
    exact readVarint_serene.bind (fun _ => (Serene.lift (checkedUsize_serene _ _)).bind (fun size =>
      (readExact_serene size).bind (fun _ => Serene.failIf (by nofun))))

theorem readFrame_serene (limits : DecodeLimits) : Serene (readFrame limits) :=
  (readExact_serene 4).bind (fun _ => (Serene.failIf (by nofun)).bind (fun _ =>
    readU8_serene.bind (fun _ => (Serene.failIf (by nofun)).bind (fun _ =>
      readU8_serene.bind (fun _ => readU16Le_serene.bind (fun _ => readU8_serene.bind (fun _ =>
        (Serene.lift (LogicalHashKind.decode_serene _)).bind (fun _ => readVarint_serene.bind
          (fun _ => (Serene.lift (checkedUsize_serene _ _)).bind (fun size =>
            (Serene.failIf (by nofun)).bind (fun _ => (readExact_serene size).bind (fun _ =>
              (readArray_serene 16).bind (fun _ => readU32Le_serene.bind
                (fun _ => Serene.pure _))))))))))))))

theorem readRawPayload_serene (limits : DecodeLimits) : Serene (readRawPayload limits) :=
  readVarint_serene.bind (fun _ => (Serene.failIf (by nofun)).bind (fun _ =>
    (Serene.lift (checkedUsize_serene _ _)).bind (fun size => readExact_serene size)))

/-- The one panic of a payload: it announces more chunks than a Vec can hold, and the limits let
it. -/
theorem readPayload_panicked {hash : LogicalHash} {limits : DecodeLimits} {t : Cursor}
    (panics : readPayload hash limits t = .error .panicked) :
    ∃ count t', readChunkCount t = .ok (count, t') ∧ 2 ^ 58 ≤ count.toNat ∧
      count ≤ limits.maxChunkCount := by
  obtain ⟨logicalLen, c₁, h₁, panics⟩ := readVarint_serene.past panics
  obtain ⟨_, panics⟩ := Serene.past_check (by nofun) panics
  obtain ⟨version, c₂, h₂, panics⟩ := readU16Le_serene.past panics
  obtain ⟨codec, c₃, h₃, panics⟩ := readU8_serene.past panics
  obtain ⟨_, _, kept, panics⟩ := (Serene.lift (PlanCodec.decode_serene codec)).past panics
  obtain ⟨_, rfl⟩ := (lift_ok _ _ _ _).mp kept
  obtain ⟨streamCount, c₄, h₄, panics⟩ := readVarint_serene.past panics
  obtain ⟨_, panics⟩ := Serene.past_check (by nofun) panics
  obtain ⟨_, _, kept, panics⟩ := (Serene.lift (checkedUsize_serene _ _)).past panics
  obtain ⟨cast, rfl⟩ := (lift_ok _ _ _ _).mp kept
  cases cast
  have streams_serene : Serene (times PlanStream.decode streamCount.toNat) :=
    Avoids.times PlanStream.decode_serene _
  obtain ⟨streams, c₅, h₅, panics⟩ := streams_serene.past panics
  obtain ⟨count, c₆, h₆, panics⟩ := readVarint_serene.past panics
  obtain ⟨short, panics⟩ := Serene.past_check (by nofun) panics
  obtain ⟨_, _, kept, panics⟩ := (Serene.lift (checkedUsize_serene _ _)).past panics
  obtain ⟨cast, rfl⟩ := (lift_ok _ _ _ _).mp kept
  cases cast
  refine ⟨count, c₆, ?_, ?_, UInt64.not_lt.mp short⟩
  · simp only [readChunkCount, bind_ok]
    exact ⟨logicalLen, c₁, h₁, version, c₂, h₂, codec, c₃, h₃, streamCount, c₄, h₄, streams, c₅,
      h₅, h₆⟩
  · by_contra few
    have room : ¬ CapacityOverflow count.toNat CHUNK_REF_SIZE := fun overflow =>
      few (chunks_overflow.mp overflow)
    obtain failed | ⟨_, _, passed, panics⟩ := bind_failed panics
    · rw [failIf, if_neg room] at failed
      cases failed
    obtain ⟨_, rfl⟩ := (failIf_ok _ _ _ _ _).mp passed
    obtain ⟨covering, _, _, panics⟩ := (readChunks_serene _ _ _ _).past panics
    obtain ⟨_, _, _, panics⟩ := (readFooter_serene _ _ _ _).past panics
    cases panics

section Decode

variable [Digests] {input : Bytes} {limits : DecodeLimits}

theorem decodeRawPayload_serene (payload : Bytes) (hash : LogicalHash) (limits : DecodeLimits) :
    decodeRawPayload payload hash limits ≠ .error .panicked := by
  intro panics
  simp only [decodeRawPayload, except_bind_error, failWhen_error] at panics
  obtain failed | ⟨_, _, ⟨_, failed⟩ | ⟨_, _, failed⟩⟩ := panics
  · exact Avoids.whole ((readRawPayload_serene limits).on payload) (by simp) failed
  · cases failed
  · cases failed

/-- The one panic of a frame is that of its payload. -/
theorem decode_panicked (panics : ValueEnvelope.decode input limits = .error .panicked) :
    ∃ frame, whole (readFrame limits) (.invalidPlan "trailing frame bytes") input = .ok frame ∧
      frame.kind = KIND_PLAN ∧ ∃ count t, readChunkCount ⟨0, frame.payload⟩ = .ok (count, t) ∧
        2 ^ 58 ≤ count.toNat ∧ count ≤ limits.maxChunkCount := by
  simp only [ValueEnvelope.decode, except_bind_error, failWhen_error] at panics
  obtain failed | ⟨frame, read, ⟨_, failed⟩ | ⟨_, _, ⟨_, failed⟩ | ⟨_, _, content⟩⟩⟩ := panics
  · exact absurd failed (Avoids.whole ((readFrame_serene limits).on input) (by simp))
  · cases failed
  · cases failed
  · refine ⟨frame, read, ?_⟩
    unfold Frame.decode at content
    split at content
    · exact absurd content (decodeRawPayload_serene _ _ _)
    · split at content
      · rename_i isPlan
        simp only [ReconstructionPlan.decodePayload, except_bind_error, failWhen_error] at content
        obtain (failed | ⟨_, _, ⟨_, failed⟩ | ⟨_, _, failed⟩⟩) | ⟨_, _, failed⟩ := content
        · exact ⟨isPlan, readPayload_panicked (whole_failed (by simp) failed)⟩
        · cases failed
        · cases failed
        · cases failed
      · cases content

/-- Under limits on the number of chunks that a Vec can keep, decoding never panics. -/
theorem decode_serene (few : limits.maxChunkCount.toNat < 2 ^ 58) :
    ValueEnvelope.decode input limits ≠ .error .panicked := by
  intro panics
  obtain ⟨_, _, _, count, _, _, many, short⟩ := decode_panicked panics
  rw [UInt64.le_iff_toNat_le] at short
  omega

theorem decode_read_or_rejected (input : Bytes) (limits : DecodeLimits) :
    (∃ frame, whole (readFrame limits) (.invalidPlan "trailing frame bytes") input = .ok frame ∧
      Digests.crc32 (input.take (input.length - 4)) = frame.expectedCrc) ∨
    ∃ err, err ≠ .panicked ∧ ValueEnvelope.decode input limits = .error err := by
  unfold ValueEnvelope.decode
  cases read : whole (readFrame limits) (.invalidPlan "trailing frame bytes") input with
  | error e =>
    refine .inr ⟨e, ?_, rfl⟩
    rintro rfl
    exact Avoids.whole ((readFrame_serene limits).on input) (by nofun) read
  | ok frame =>
    by_cases short : input.length < 4
    · exact .inr ⟨.unexpectedEof, nofun, by simp [failWhen, short, bind, Except.bind]⟩
    · by_cases crc : Digests.crc32 (input.take (input.length - 4)) = frame.expectedCrc
      · exact .inl ⟨frame, rfl, crc⟩
      · exact .inr ⟨.frameCrcMismatch, nofun, by simp [failWhen, short, crc, bind, Except.bind]⟩

theorem readFrame_sealed {kind : UInt8} {hash : LogicalHash} {payload : Bytes} {frame : Frame}
    (read : whole (readFrame limits) (.invalidPlan "trailing frame bytes")
      (sealFrame (frameBody kind hash payload)) = .ok frame) :
    payload.length < 2 ^ 64 ∧
      ¬ (kind = KIND_PLAN ∧ limits.maxEncodedPlanLen.toNat < payload.length) ∧
      frame.kind = kind ∧ frame.payload = payload := by
  rw [sealFrame] at read
  by_cases small : payload.length < 2 ^ 64
  · by_cases large : kind = KIND_PLAN ∧ limits.maxEncodedPlanLen.toNat < payload.length
    · obtain ⟨rfl, large⟩ := large
      obtain ⟨err, failed⟩ := (readFrame_rejects hash
        (Digests.crc32 (frameBody KIND_PLAN hash payload)) small large).whole
          (.invalidPlan "trailing frame bytes")
      rw [failed] at read
      cases read
    · rw [(readFrame_accepts limits kind hash _ small large).whole] at read
      cases read
      exact ⟨small, large, rfl, rfl⟩
  · exact absurd read (readFrame_wrapped (Nat.le_of_not_lt small) frame)

theorem decode_encode_serene {e : ValueEnvelope} {kind : LogicalHashKind}
    (room : ∀ p, e = .plan p → p.chunks.length < 2 ^ 58) :
    ValueEnvelope.decode (e.encodeWithHashKind kind) limits ≠ .error .panicked := by
  intro panics
  obtain ⟨frame, read, isPlan, count, t, counted, many, _⟩ := decode_panicked panics
  obtain ⟨small, _, kept, payload⟩ := readFrame_sealed read
  rw [payload] at counted
  cases e with
  | raw bytes => exact absurd (kept.symm.trans isPlan) raw_ne_plan
  | plan p =>
    have few := room p rfl
    obtain ⟨_, written⟩ := readChunkCount_encode (ReconstructionPlan.addressable small)
    cases written.symm.trans counted
    rw [lenU64_toNat (by omega)] at many
    omega

end Decode

section Reconstruct

variable {registry : StreamRegistry} {streams : List PlanStream}

theorem reconstructChunk_panicked {chunk : ChunkRef}
    (panics : reconstructChunk registry streams chunk = .error .panicked) :
    ∃ streamIx offset len transform entry stream,
      chunk = .located streamIx offset len transform ∧ streams[streamIx.toNat]? = some entry ∧
        registry.get entry.id = some stream ∧
        stream.readAt offset len.toNat = .error .panicked := by
  cases chunk with
  | literal bytes => cases panics
  | located streamIx offset len transform =>
    simp only [reconstructChunk] at panics
    cases there : streams[streamIx.toNat]? with
    | none =>
      rw [there] at panics
      cases panics
    | some entry =>
      cases found : registry.get entry.id with
      | none =>
        rw [there] at panics
        change (okOr (registry.get entry.id) .missingStream >>= _) = _ at panics
        rw [found] at panics
        cases panics
      | some stream =>
        refine ⟨streamIx, offset, len, transform, entry, stream, rfl, there, found, ?_⟩
        rw [there] at panics
        change (okOr (registry.get entry.id) .missingStream >>= _) = _ at panics
        rw [found] at panics
        change (failWhen _ _ >>= _) = _ at panics
        simp only [except_bind_error, failWhen_error] at panics
        obtain ⟨_, wrong⟩ | ⟨_, _, read | ⟨_, _, wrong⟩⟩ := panics
        · cases wrong
        · exact read
        · cases wrong

theorem reconstructFrom_panicked {out : Bytes} {chunks : List ChunkRef}
    (panics : reconstructFrom registry streams out chunks = .error .panicked) :
    ∃ chunk ∈ chunks, reconstructChunk registry streams chunk = .error .panicked := by
  induction chunks generalizing out with
  | nil => cases panics
  | cons chunk chunks ih =>
    simp only [reconstructFrom, except_bind_error] at panics
    obtain first | ⟨bytes, _, later⟩ := panics
    · exact ⟨chunk, List.mem_cons_self .., first⟩
    · obtain ⟨chunk', member, panicked⟩ := ih later
      exact ⟨chunk', List.mem_cons_of_mem _ member, panicked⟩

/-- A rebuild panics on a plan of more bytes than memory has, and where a stream it reads does. -/
theorem reconstruct_panicked [Digests] {plan : ReconstructionPlan} {limit : UInt64}
    (panics : reconstructWithLimit registry plan limit = .error .panicked) :
    2 ^ 63 ≤ plan.logicalLen.toNat ∨
      ∃ streamIx offset len transform entry stream,
        .located streamIx offset len transform ∈ plan.chunks ∧
          plan.streams[streamIx.toNat]? = some entry ∧ registry.get entry.id = some stream ∧
          stream.readAt offset len.toNat = .error .panicked := by
  obtain wrong | ⟨_, _, large⟩ | loop | ⟨_, _, wrong, _⟩ | wrong :=
    reconstructWithLimit_error panics
  · cases wrong
  · exact .inl large
  · obtain ⟨chunk, member, panicked⟩ := reconstructFrom_panicked loop
    obtain ⟨streamIx, offset, len, transform, entry, stream, rfl, there, found, read⟩ :=
      reconstructChunk_panicked panicked
    exact .inr ⟨streamIx, offset, len, transform, entry, stream, member, there, found, read⟩
  · cases wrong
  · cases wrong

end Reconstruct

end PiLSMer
