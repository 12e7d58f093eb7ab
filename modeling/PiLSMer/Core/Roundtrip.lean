import PiLSMer.Core.Panics

/-! Written frames read back, and what a read frame says. A frame we wrote decodes to what
was written or to nothing; a frame from anywhere decodes only to values within the limits. -/
namespace PiLSMer
open Reading Endian

theorem sealFrame_body [Digests] (body : Bytes) :
    (sealFrame body).take ((sealFrame body).length - 4) = body := by
  have size : (putU32Le (Digests.crc32 body)).length = 4 := toLeBytes_length 4 _
  simp [sealFrame, size]

theorem sealFrame_length [Digests] (body : Bytes) :
    (sealFrame body).length = body.length + 4 := by
  have size : (putU32Le (Digests.crc32 body)).length = 4 := toLeBytes_length 4 _
  simp [sealFrame, size]

theorem Frame.LaidOut.sealed [Digests] {frame : Frame} {input : Bytes} (h : frame.LaidOut input)
    (crc : Digests.crc32 (input.take (input.length - 4)) = frame.expectedCrc) :
    sealFrame (input.take (input.length - 4)) = input := by
  obtain ⟨flags, size, _, _, whole⟩ := h
  have last : ∃ body, input = body ++ putU32Le frame.expectedCrc := by
    refine ⟨MAGIC ++ ([VERSION] ++ ([frame.kind] ++ (putU16Le flags ++
      ([frame.hash.kind.encode] ++ (size ++ (frame.payload ++ frame.hash.bytes.val)))))), ?_⟩
    simpa only [List.append_assoc] using whole
  obtain ⟨body, parts⟩ := last
  have four : (putU32Le frame.expectedCrc).length = 4 := toLeBytes_length 4 _
  have start : input.length - 4 = body.length := by
    rw [parts, List.length_append, four]
    omega
  have front : input.take (input.length - 4) = body := by rw [start, parts, List.take_left]
  rw [sealFrame, crc, front, parts]

theorem readFrame_seal [Digests] {input : Bytes} {limits : DecodeLimits} {frame : Frame}
    (run : whole (readFrame limits) (.invalidPlan "trailing frame bytes") input = .ok frame)
    (crc : Digests.crc32 (input.take (input.length - 4)) = frame.expectedCrc) :
    sealFrame (input.take (input.length - 4)) = input := by
  obtain ⟨t, ht, finished⟩ := (whole_ok _ _ _ _).mp run
  obtain ⟨w, laidOut, split, _⟩ := readFrame_ok ht
  rw [finished, List.append_nil] at split
  change input = w at split
  exact Frame.LaidOut.sealed (split ▸ laidOut) crc

theorem decode_sealed [Digests] {limits : DecodeLimits} {kind : UInt8} {payload : Bytes}
    (hash : LogicalHash) (small : payload.length < 2 ^ 64)
    (fits : ¬ (kind = KIND_PLAN ∧ limits.maxEncodedPlanLen.toNat < payload.length))
    (e : ValueEnvelope) :
    ValueEnvelope.decode (sealFrame (frameBody kind hash payload)) limits = .ok e ↔
      Frame.decode ⟨kind, hash, payload, Digests.crc32 (frameBody kind hash payload)⟩ limits =
        .ok e := by
  have run := (readFrame_accepts limits kind hash (Digests.crc32 (frameBody kind hash payload))
    small fits).whole (.invalidPlan "trailing frame bytes")
  rw [ValueEnvelope.decode_ok_iff]
  constructor
  · rintro ⟨frame, run', _, _, decoded⟩
    rw [sealFrame, run] at run'
    cases run'
    exact decoded
  · intro decoded
    refine ⟨_, run, ?_, ?_, decoded⟩
    · rw [sealFrame_length]
      omega
    · rw [sealFrame_body]

theorem decode_sealed_large [Digests] {limits : DecodeLimits} {payload : Bytes}
    (hash : LogicalHash) (large : limits.maxEncodedPlanLen.toNat < payload.length)
    (e : ValueEnvelope) :
    ValueEnvelope.decode (sealFrame (frameBody KIND_PLAN hash payload)) limits ≠ .ok e := by
  intro accepted
  obtain ⟨frame, run, _⟩ := ValueEnvelope.decode_ok_iff.mp accepted
  obtain ⟨_, fits, _⟩ := readFrame_sealed run
  exact fits ⟨rfl, large⟩

theorem decode_sealed_wrapped [Digests] {limits : DecodeLimits} {kind : UInt8} {payload : Bytes}
    (hash : LogicalHash) (large : 2 ^ 64 ≤ payload.length) (e : ValueEnvelope) :
    ValueEnvelope.decode (sealFrame (frameBody kind hash payload)) limits ≠ .ok e := by
  intro accepted
  obtain ⟨frame, run, _⟩ := ValueEnvelope.decode_ok_iff.mp accepted
  have small := (readFrame_sealed run).1
  omega

theorem readRawPayload_accepts {limits : DecodeLimits} {bytes : Bytes}
    (short : bytes.length ≤ limits.maxLogicalLen.toNat) :
    Accepts (readRawPayload limits) (putVarint (lenU64 bytes.length) ++ bytes) bytes := by
  have size := lenU64_toNat (Nat.lt_of_le_of_lt short limits.maxLogicalLen.toNat_lt)
  have within : ¬ limits.maxLogicalLen < lenU64 bytes.length := by
    rw [UInt64.lt_iff_toNat_lt, size]
    omega
  have cast := checkedUsize_accepts (lenU64 bytes.length) "raw_len"
  rw [size] at cast
  exact (readVarint_accepts _).bind ((Accepts.failIf _ within).skip
    (cast.skip (readExact_accepts bytes)))

theorem readRawPayload_rejects {limits : DecodeLimits} {bytes : Bytes}
    (small : bytes.length < 2 ^ 64) (large : limits.maxLogicalLen.toNat < bytes.length) :
    Rejects (readRawPayload limits) (putVarint (lenU64 bytes.length) ++ bytes) := by
  have beyond : limits.maxLogicalLen < lenU64 bytes.length := by
    rw [UInt64.lt_iff_toNat_lt, lenU64_toNat small]
    exact large
  exact Rejects.right (readVarint_accepts _) (Rejects.stop (Rejects.failIf _ beyond _))

theorem readRawPayload_ok {limits : DecodeLimits} {c d : Cursor} {bytes : Bytes}
    (h : readRawPayload limits c = .ok (bytes, d)) :
    bytes.length ≤ limits.maxLogicalLen.toNat ∧
      ∃ size, Accepts readVarint size (lenU64 bytes.length) ∧ c.rest = size ++ bytes ++ d.rest := by
  simp only [readRawPayload, bind_ok, failIf_ok, lift_ok, checkedUsize] at h
  obtain ⟨rawLen, _, h₁, _, _, ⟨short, rfl⟩, size, _, ⟨cast, rfl⟩, h₂⟩ := h
  cases cast
  obtain ⟨w, rest, _, accepted⟩ := readVarint_delimited _ _ _ h₁
  obtain ⟨rest', _, exact⟩ := readExact_ok h₂
  rw [UInt64.not_lt, UInt64.le_iff_toNat_le] at short
  refine ⟨by omega, w, ?_, by rw [rest, rest', List.append_assoc]⟩
  rw [exact, lenU64, UInt64.ofNat_toNat]
  exact accepted

theorem readRawPayload_extends {a b : DecodeLimits} (h : a.Le b) :
    Extends (readRawPayload a) (readRawPayload b) :=
  (Extends.refl _).bind (fun _ => (Extends.failIf _ _ (UInt64.lt_of_le_of_lt h.logicalLen)).bind
    (fun _ => Extends.refl _))

theorem decodeRawPayload_ok_iff [Digests] {payload : Bytes} {hash : LogicalHash}
    {limits : DecodeLimits} {e : ValueEnvelope} :
    decodeRawPayload payload hash limits = .ok e ↔
      ∃ raw, whole (readRawPayload limits) (.invalidPlan "trailing raw payload bytes") payload =
        .ok raw ∧ computeLogicalHash hash.kind raw = hash.bytes ∧ e = .raw raw := by
  simp only [decodeRawPayload, except_bind_ok, failWhen_ok, except_pure_ok, ne_eq,
    Decidable.not_not]
  constructor
  · rintro ⟨raw, run, _, same, rfl⟩
    exact ⟨raw, run, same, rfl⟩
  · rintro ⟨raw, run, same, rfl⟩
    exact ⟨raw, run, (), same, rfl⟩

theorem Frame.decode_ok_iff [Digests] {frame : Frame} {limits : DecodeLimits}
    {e : ValueEnvelope} :
    frame.decode limits = .ok e ↔
      (frame.kind = KIND_RAW ∧ decodeRawPayload frame.payload frame.hash limits = .ok e) ∨
      (frame.kind = KIND_PLAN ∧ ∃ p, e = .plan p ∧
        ReconstructionPlan.decodePayload frame.payload frame.hash limits = .ok p) := by
  have distinct : KIND_PLAN ≠ KIND_RAW := by decide
  unfold Frame.decode
  by_cases raw : frame.kind = KIND_RAW
  · have notPlan : frame.kind ≠ KIND_PLAN := fun h => distinct (h.symm.trans raw)
    simp [raw, distinct.symm]
  · by_cases plan : frame.kind = KIND_PLAN
    · cases ReconstructionPlan.decodePayload frame.payload frame.hash limits <;>
        simp [plan, distinct, bind, Except.bind, pure, Except.pure, eq_comm]
    · simp [raw, plan, throw, throwThe, MonadExceptOf.throw]

theorem payload_raw_small {bytes : Bytes} (h : (ValueEnvelope.raw bytes).payload.length < 2 ^ 64) :
    bytes.length < 2 ^ 64 := by
  simp only [ValueEnvelope.payload, List.length_append] at h
  omega

theorem decode_written_raw [Digests] {bytes : Bytes} {kind : LogicalHashKind}
    {limits : DecodeLimits} (small : (ValueEnvelope.raw bytes).payload.length < 2 ^ 64)
    (e : ValueEnvelope) :
    ValueEnvelope.decode ((ValueEnvelope.raw bytes).encodeWithHashKind kind) limits = .ok e ↔
      bytes.length ≤ limits.maxLogicalLen.toNat ∧ e = .raw bytes := by
  unfold ValueEnvelope.encodeWithHashKind
  rw [show (ValueEnvelope.raw bytes).kind = KIND_RAW from rfl,
    decode_sealed _ small (fun h => raw_ne_plan h.1), Frame.decode_ok_iff]
  constructor
  · rintro (⟨_, decoded⟩ | ⟨wrong, _⟩)
    · obtain ⟨raw, run, _, rfl⟩ := decodeRawPayload_ok_iff.mp decoded
      change whole _ _ (putVarint (lenU64 bytes.length) ++ bytes) = _ at run
      by_cases short : bytes.length ≤ limits.maxLogicalLen.toNat
      · rw [(readRawPayload_accepts short).whole] at run
        cases run
        exact ⟨short, rfl⟩
      · obtain ⟨err, failed⟩ := (readRawPayload_rejects (payload_raw_small small)
          (Nat.lt_of_not_le short)).whole (.invalidPlan "trailing raw payload bytes")
        rw [failed] at run
        cases run
    · exact absurd wrong raw_ne_plan
  · rintro ⟨short, rfl⟩
    exact Or.inl ⟨rfl, decodeRawPayload_ok_iff.mpr
      ⟨bytes, (readRawPayload_accepts short).whole _, rfl, rfl⟩⟩

theorem decode_written_plan [Digests] {p : ReconstructionPlan} {kind : LogicalHashKind}
    {limits : DecodeLimits} {e : ValueEnvelope} :
    ValueEnvelope.decode ((ValueEnvelope.plan p).encodeWithHashKind kind) limits = .ok e ↔
      p.WellFormed limits ∧ e = .plan p := by
  unfold ValueEnvelope.encodeWithHashKind
  rw [show (ValueEnvelope.plan p).kind = KIND_PLAN from rfl,
    show (ValueEnvelope.plan p).payload = p.encodePayload from rfl]
  by_cases fits : limits.maxEncodedPlanLen.toNat < p.encodePayload.length
  · constructor
    · exact fun accepted => absurd accepted (decode_sealed_large _ fits e)
    · exact fun h => absurd h.1.encoded (Nat.not_le.mpr fits)
  · have small : p.encodePayload.length < 2 ^ 64 :=
      Nat.lt_of_le_of_lt (Nat.le_of_not_lt fits) limits.maxEncodedPlanLen.toNat_lt
    rw [decode_sealed _ small (fun h => fits h.2), Frame.decode_ok_iff]
    constructor
    · rintro (⟨wrong, _⟩ | ⟨_, q, rfl, decoded⟩)
      · exact absurd wrong.symm raw_ne_plan
      · change ReconstructionPlan.decodePayload p.encodePayload p.logicalHash limits = .ok q
          at decoded
        by_cases regular : p.Regular limits
        · rw [decodePayload_regular small regular] at decoded
          cases decoded
          exact ⟨⟨regular, Nat.le_of_not_lt fits⟩, rfl⟩
        · exact absurd decoded (decodePayload_irregular small regular q)
    · rintro ⟨h, rfl⟩
      exact Or.inr ⟨rfl, p, rfl, decodePayload_regular small h.toRegular⟩

theorem decode_encode_plan [Digests] {p : ReconstructionPlan} {limits : DecodeLimits}
    {e : ValueEnvelope} :
    ValueEnvelope.decode (ValueEnvelope.plan p).encode limits = .ok e ↔
      p.WellFormed limits ∧ e = .plan p :=
  decode_written_plan

/-- A frame we wrote never decodes to anything but what was written. -/
theorem decode_encode_sound [Digests] {e e' : ValueEnvelope} {kind : LogicalHashKind}
    {limits : DecodeLimits}
    (accepted : ValueEnvelope.decode (e.encodeWithHashKind kind) limits = .ok e') : e' = e := by
  cases e with
  | raw bytes =>
    by_cases small : (ValueEnvelope.raw bytes).payload.length < 2 ^ 64
    · exact ((decode_written_raw small e').mp accepted).2
    · exact absurd accepted (decode_sealed_wrapped _ (Nat.le_of_not_lt small) e')
  | plan p => exact (decode_written_plan.mp accepted).2

theorem Slice.payload_small (b : Slice) : (ValueEnvelope.raw b.val).payload.length < 2 ^ 64 := by
  have header := putVarint_length_le (lenU64 b.val.length)
  have bound := b.property
  simp only [ValueEnvelope.payload, List.length_append]
  omega

/-- Looser limits accept every frame that tighter ones do, with the same result. -/
theorem decode_monotone [Digests] {a b : DecodeLimits} (h : a.Le b) {input : Bytes}
    {e : ValueEnvelope} (accepted : ValueEnvelope.decode input a = .ok e) :
    ValueEnvelope.decode input b = .ok e := by
  obtain ⟨frame, run, long, crc, decoded⟩ := ValueEnvelope.decode_ok_iff.mp accepted
  refine ValueEnvelope.decode_ok_iff.mpr ⟨frame, (readFrame_extends h).whole run, long, crc, ?_⟩
  rw [Frame.decode_ok_iff] at decoded ⊢
  obtain ⟨raw, decoded⟩ | ⟨plan, p, rfl, decoded⟩ := decoded
  · obtain ⟨bytes, run, same, rfl⟩ := decodeRawPayload_ok_iff.mp decoded
    exact Or.inl ⟨raw, decodeRawPayload_ok_iff.mpr
      ⟨bytes, (readRawPayload_extends h).whole run, same, rfl⟩⟩
  · exact Or.inr ⟨plan, p, rfl, decodePayload_monotone h decoded⟩

theorem decode_raw_short [Digests] {input b : Bytes} {limits : DecodeLimits}
    (accepted : ValueEnvelope.decode input limits = .ok (.raw b)) :
    b.length ≤ limits.maxLogicalLen.toNat := by
  obtain ⟨frame, _, _, _, decoded⟩ := ValueEnvelope.decode_ok_iff.mp accepted
  obtain ⟨_, content⟩ | ⟨_, _, wrong, _⟩ := Frame.decode_ok_iff.mp decoded
  · obtain ⟨raw, run, _, same⟩ := decodeRawPayload_ok_iff.mp content
    cases same
    obtain ⟨t, ht, _⟩ := (whole_ok _ _ _ _).mp run
    exact (readRawPayload_ok ht).1
  · cases wrong

/-- Raw values and plans through the frame and back, at every size. What is not read
back is an error, which is no panic: a Vec holds fewer than 2^58 chunks. -/
theorem frame_round_trip [Digests] (limits : DecodeLimits) :
    (∀ (b : Slice) (kind : LogicalHashKind),
      (b.val.length ≤ limits.maxLogicalLen.toNat →
        ValueEnvelope.decode ((ValueEnvelope.raw b.val).encodeWithHashKind kind) limits =
          .ok (.raw b.val)) ∧
      (¬ b.val.length ≤ limits.maxLogicalLen.toNat →
        ∃ err, ValueEnvelope.decode ((ValueEnvelope.raw b.val).encodeWithHashKind kind) limits =
          .error err ∧ err ≠ .panicked)) ∧
    ∀ p : ReconstructionPlan,
      (ValueEnvelope.decode (ValueEnvelope.plan p).encode limits = .ok (.plan p) ↔
        p.WellFormed limits) ∧
      (¬ p.WellFormed limits →
        ∃ err, ValueEnvelope.decode (ValueEnvelope.plan p).encode limits = .error err ∧
          (p.chunks.length < 2 ^ 58 → err ≠ .panicked)) := by
  refine ⟨fun b kind => ⟨fun short => ?_, fun long => ?_⟩, fun p => ⟨?_, fun illFormed => ?_⟩⟩
  · exact (decode_written_raw b.payload_small _).mpr ⟨short, rfl⟩
  · obtain ⟨err, failed⟩ := error_of_not_ok (fun e accepted =>
      long ((decode_written_raw b.payload_small e).mp accepted).1)
    refine ⟨err, failed, ?_⟩
    rintro rfl
    exact decode_encode_serene (fun p wrong => ValueEnvelope.noConfusion wrong) failed
  · constructor
    · exact fun accepted => (decode_encode_plan.mp accepted).1
    · exact fun h => decode_encode_plan.mpr ⟨h, rfl⟩
  · obtain ⟨err, failed⟩ := error_of_not_ok (fun e accepted =>
      illFormed (decode_encode_plan.mp accepted).1)
    refine ⟨err, failed, ?_⟩
    rintro room rfl
    exact decode_encode_serene (fun q same => ValueEnvelope.plan.inj same ▸ room) failed

def digestOf (n : Nat) : Arr 32 := ⟨toBeBytes 32 n, by simp [toBeBytes]⟩

def sampleRawFrame : Bytes :=
  [0x50, 0x4c, 0x53, 0x4d, 0x01, 0x00, 0x00, 0x00, 0x01, 0x02, 0x01, 0x61, 0x17, 0x76, 0x2f,
    0xdd, 0xd9, 0x69, 0xa4, 0x53, 0x92, 0x5d, 0x65, 0x71, 0x7a, 0xc3, 0xee, 0xa2, 0xf6, 0x98,
    0xde, 0xbe]

def samplePlanFrame : Bytes :=
  [0x50, 0x4c, 0x53, 0x4d, 0x01, 0x01, 0x00, 0x00, 0x01, 0x09, 0x01, 0x01, 0x00, 0x01, 0x00,
    0x01, 0x01, 0x01, 0x61, 0x17, 0x76, 0x2f, 0xdd, 0xd9, 0x69, 0xa4, 0x53, 0x92, 0x5d, 0x65,
    0x71, 0x7a, 0xc3, 0xee, 0xa2, 0xb0, 0x0c, 0xf0, 0xff]

/-- Tabulated digests: what the real functions return on the inputs listed, zero elsewhere. -/
@[reducible] def sampleDigests : Digests where
  blake3 b := digestOf
    (if b = [0x61] then 0x17762fddd969a453925d65717ac3eea21320b66b54342fde15128d6caf21215f
    else 0)
  sha256 _ := digestOf 0
  crc32 b :=
    if b = sampleRawFrame.take 28 then 0xbede98f6
    else if b = samplePlanFrame.take 35 then 0xfff00cb0
    else 0

@[reducible] def frameDigests : Digests :=
  { sampleDigests with
    sha256 := fun b => digestOf (if b = sampleRawFrame then
      0xf20aeb6ed7746dd65f05181584cb09cc4d1f616bb3e832a2ad2fbe096c38050b else 0) }

/-- An accepted frame is the whole input, sealed by its checksum, and its content is within
the limits. -/
theorem decode_validates [Digests] (input : Bytes) (limits : DecodeLimits) (e : ValueEnvelope)
    (accepted : ValueEnvelope.decode input limits = .ok e) :
    ∃ frame : Frame, frame.LaidOut input ∧ 4 ≤ input.length ∧
      input.drop (input.length - 4) =
        putU32Le (Digests.crc32 (input.take (input.length - 4))) ∧
      match e with
      | .raw b => frame.kind = KIND_RAW ∧ b.length ≤ limits.maxLogicalLen.toNat ∧
          computeLogicalHash frame.hash.kind b = frame.hash.bytes ∧
          ∃ size, Accepts readVarint size (lenU64 b.length) ∧ frame.payload = size ++ b
      | .plan p => frame.kind = KIND_PLAN ∧ p.logicalHash = frame.hash ∧
          Accepts (readPayload frame.hash limits) frame.payload (p, p.logicalLen) ∧
          (∀ chunk ∈ p.chunks, chunk.WithinLimits limits p.streams.length) ∧
          coveredSize p.chunks = p.logicalLen.toNat ∧ p.logicalLen ≤ limits.maxLogicalLen ∧
          p.chunks.length ≤ limits.maxChunkCount.toNat ∧
          p.streams.length ≤ limits.maxStreamsPerPlan.toNat := by
  obtain ⟨frame, run, long, crc, decoded⟩ := ValueEnvelope.decode_ok_iff.mp accepted
  obtain ⟨t, ht, finished⟩ := (whole_ok _ _ _ _).mp run
  obtain ⟨w, laidOut, split, _⟩ := readFrame_ok ht
  rw [finished, List.append_nil] at split
  change input = w at split
  subst split
  refine ⟨frame, laidOut, long, ?_, ?_⟩
  · have whole := (laidOut.sealed crc).trans (List.take_append_drop (input.length - 4) input).symm
    exact (List.append_cancel_left whole).symm
  · obtain ⟨raw, content⟩ | ⟨plan, p, rfl, content⟩ := Frame.decode_ok_iff.mp decoded
    · obtain ⟨b, run, same, rfl⟩ := decodeRawPayload_ok_iff.mp content
      obtain ⟨t, ht, finished⟩ := (whole_ok _ _ _ _).mp run
      obtain ⟨short, size, accepts, split⟩ := readRawPayload_ok ht
      rw [finished, List.append_nil] at split
      exact ⟨raw, short, same, size, accepts, split⟩
    · obtain ⟨hash, regular⟩ := decodePayload_sound content
      exact ⟨plan, hash, (readPayload_delimited _ _).whole (decodePayload_ok_iff.mp content),
        regular.chunks, regular.covered, regular.logical, regular.chunkCount, regular.streamCount⟩

/-- SHA-256 of "ab", and the fingerprint of the stream of its two bytes. -/
def abDigest : Arr 32 := digestOf 0xfb8e20fc2e4c3f248c60c39bd652f3c1347298bb977b8b4d5903b85055620603

def abFingerprint : Arr 32 :=
  digestOf 0x8a8839b3b7a842d1b2733e2005814921da088031df6fc54a55be0bcc87958360

/-- A plan of "aba": the stream of "ab" from its start, then a literal. -/
def locatedPlan : ReconstructionPlan where
  logicalLen := 3
  logicalHash := ⟨.blake3_128, truncateDigest
    (digestOf 0xa98fb11fd5a1e8e6db258810f35325600d51595fad71c4adee8dc9418a46ccb2)⟩
  plannerVersion := 1
  planCodec := .compactBinary
  streams := [⟨.piHexFractionPrefixV1 abDigest 2, abFingerprint⟩]
  chunks := [.located 0 0 2 .identity, .literal [0x61]]

def locatedPlanFrame : Bytes :=
  [0x50, 0x4c, 0x53, 0x4d, 0x01, 0x01, 0x00, 0x00, 0x01, 0x50, 0x03, 0x01, 0x00, 0x01, 0x01,
    0x02] ++ abDigest.val ++ [0x02] ++ abFingerprint.val ++
    [0x02, 0x00, 0x00, 0x00, 0x02, 0x00, 0x01, 0x01, 0x61, 0xa9, 0x8f, 0xb1, 0x1f, 0xd5, 0xa1,
      0xe8, 0xe6, 0xdb, 0x25, 0x88, 0x10, 0xf3, 0x53, 0x25, 0x60, 0x8f, 0x12, 0x1b, 0x1e]

@[reducible] def locatedDigests : Digests where
  blake3 b := digestOf (if b = [0x61, 0x62, 0x61] then
    0xa98fb11fd5a1e8e6db258810f35325600d51595fad71c4adee8dc9418a46ccb2 else 0)
  sha256 b :=
    if b = "PiLSMer prefix stream fingerprint:v1".toUTF8.toList ++ [0x61, 0x62] then abFingerprint
    else digestOf 0
  crc32 b := if b = locatedPlanFrame.take 106 then 0x1e1b128f else 0

theorem locatedPlanFrame_decoded :
    letI := locatedDigests
    ValueEnvelope.decode locatedPlanFrame .default = .ok (.plan locatedPlan) := by
  decide +kernel

theorem decode_validates_sample :
    letI := locatedDigests
    ∃ frame : Frame, frame.LaidOut locatedPlanFrame ∧ frame.kind = KIND_PLAN ∧
      locatedPlan.logicalHash = frame.hash ∧
      (∀ chunk ∈ locatedPlan.chunks, chunk.WithinLimits .default 1) ∧
      coveredSize locatedPlan.chunks = 3 := by
  let _ := locatedDigests
  obtain ⟨frame, laidOut, _, _, kind, hash, _, within, covered, _⟩ :=
    decode_validates locatedPlanFrame .default (.plan locatedPlan) locatedPlanFrame_decoded
  exact ⟨frame, laidOut, kind, hash, within, covered⟩

end PiLSMer
