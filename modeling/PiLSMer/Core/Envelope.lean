import PiLSMer.Core.Accepted

/-! The value envelope of envelope.rs: a frame around a raw value or a plan payload. The
frame ends in the checksum of everything before it. -/
namespace PiLSMer
open Reading Endian

inductive ValueEnvelope where
  | raw (bytes : Bytes)
  | plan (plan : ReconstructionPlan)
  deriving DecidableEq

/-- b"PLSM". -/
def MAGIC : Bytes := [0x50, 0x4c, 0x53, 0x4d]
def VERSION : UInt8 := 1
def KIND_RAW : UInt8 := 0
def KIND_PLAN : UInt8 := 1

def ValueEnvelope.kind : ValueEnvelope → UInt8
  | .raw _ => KIND_RAW
  | .plan _ => KIND_PLAN

def ValueEnvelope.hash [Digests] (rawHashKind : LogicalHashKind) : ValueEnvelope → LogicalHash
  | .raw bytes => LogicalHash.new rawHashKind bytes
  | .plan p => p.logicalHash

def ValueEnvelope.payload : ValueEnvelope → Bytes
  | .raw bytes => putVarint (lenU64 bytes.length) ++ bytes
  | .plan p => p.encodePayload

def frameBody (kind : UInt8) (hash : LogicalHash) (payload : Bytes) : Bytes :=
  MAGIC ++ ([VERSION] ++ ([kind] ++ (putU16Le 0 ++ ([hash.kind.encode] ++
    (putVarint (lenU64 payload.length) ++ (payload ++ hash.bytes.val))))))

def sealFrame [Digests] (body : Bytes) : Bytes := body ++ putU32Le (Digests.crc32 body)

def ValueEnvelope.encodeWithHashKind [Digests] (e : ValueEnvelope)
    (rawHashKind : LogicalHashKind) : Bytes :=
  sealFrame (frameBody e.kind (e.hash rawHashKind) e.payload)

def ValueEnvelope.encode [Digests] (e : ValueEnvelope) : Bytes :=
  e.encodeWithHashKind .blake3_128

structure Frame where
  kind : UInt8
  hash : LogicalHash
  payload : Bytes
  expectedCrc : UInt32
  deriving DecidableEq

def readFrameTail (kind : UInt8) (hashKind : LogicalHashKind) (size : Nat) : Read Frame := do
  let payload ← readExact size
  let hashBytes ← readArray 16
  let expectedCrc ← readU32Le
  pure { kind, hash := ⟨hashKind, hashBytes⟩, payload, expectedCrc }

def readFrame (limits : DecodeLimits) : Read Frame := do
  let magic ← readExact 4
  failIf (magic ≠ MAGIC) .invalidMagic
  let version ← readU8
  failIf (version ≠ VERSION) (.unsupportedVersion version)
  let kind ← readU8
  let _flags ← readU16Le
  let hashByte ← readU8
  let hashKind ← lift (LogicalHashKind.decode hashByte)
  let payloadLen ← readVarint
  let size ← lift (checkedUsize payloadLen "payload_len")
  failIf (kind = KIND_PLAN ∧ limits.maxEncodedPlanLen < payloadLen)
    (.decodeLimitExceeded "plan_payload_len")
  readFrameTail kind hashKind size

def readRawPayload (limits : DecodeLimits) : Read Bytes := do
  let rawLen ← readVarint
  failIf (limits.maxLogicalLen < rawLen) (.decodeLimitExceeded "raw_len")
  let size ← lift (checkedUsize rawLen "raw_len")
  readExact size

def decodeRawPayload [Digests] (payload : Bytes) (logicalHash : LogicalHash)
    (limits : DecodeLimits) : Except PiLsmError ValueEnvelope := do
  let raw ← whole (readRawPayload limits) (.invalidPlan "trailing raw payload bytes") payload
  failWhen (computeLogicalHash logicalHash.kind raw ≠ logicalHash.bytes) .logicalHashMismatch
  pure (.raw raw)

def Frame.decode [Digests] (frame : Frame) (limits : DecodeLimits) :
    Except PiLsmError ValueEnvelope :=
  if frame.kind = KIND_RAW then decodeRawPayload frame.payload frame.hash limits
  else if frame.kind = KIND_PLAN then do
    let plan ← ReconstructionPlan.decodePayload frame.payload frame.hash limits
    pure (.plan plan)
  else throw (.unknownEnvelopeKind frame.kind)

def ValueEnvelope.decode [Digests] (input : Bytes) (limits : DecodeLimits) :
    Except PiLsmError ValueEnvelope := do
  let frame ← whole (readFrame limits) (.invalidPlan "trailing frame bytes") input
  failWhen (input.length < 4) .unexpectedEof
  failWhen (Digests.crc32 (input.take (input.length - 4)) ≠ frame.expectedCrc) .frameCrcMismatch
  frame.decode limits

/-- The well-formedness that a plan needs to survive decode under these limits. -/
structure ReconstructionPlan.WellFormed (limits : DecodeLimits) (plan : ReconstructionPlan) :
    Prop extends ReconstructionPlan.Regular limits plan where
  encoded : plan.encodePayload.length ≤ limits.maxEncodedPlanLen.toNat

theorem raw_ne_plan : KIND_RAW ≠ KIND_PLAN := by decide

theorem readFrameTail_accepts (kind : UInt8) (hash : LogicalHash) (payload : Bytes)
    (crc : UInt32) :
    Accepts (readFrameTail kind hash.kind payload.length)
      (payload ++ (hash.bytes.val ++ putU32Le crc)) ⟨kind, hash, payload, crc⟩ :=
  (readExact_accepts payload).bind ((readArray_accepts hash.bytes).bind
    ((readU32Le_accepts crc).map (Frame.mk kind hash payload)))

theorem LogicalHashKind.accepts (kind : LogicalHashKind) :
    Accepts (lift (LogicalHashKind.decode kind.encode) : Read LogicalHashKind) [] kind :=
  Accepts.lift (LogicalHashKind.decode_encode kind)

theorem readFrame_accepts (limits : DecodeLimits) (kind : UInt8) {payload : Bytes}
    (hash : LogicalHash) (crc : UInt32) (small : payload.length < 2 ^ 64)
    (fits : ¬ (kind = KIND_PLAN ∧ limits.maxEncodedPlanLen.toNat < payload.length)) :
    Accepts (readFrame limits) (frameBody kind hash payload ++ putU32Le crc)
      ⟨kind, hash, payload, crc⟩ := by
  have size := lenU64_toNat small
  have short : ¬ (kind = KIND_PLAN ∧ limits.maxEncodedPlanLen < lenU64 payload.length) := by
    rw [UInt64.lt_iff_toNat_lt, size]
    exact fits
  have cast := checkedUsize_accepts (lenU64 payload.length) "payload_len"
  rw [size] at cast
  have h : Accepts (readFrame limits) (MAGIC ++ ([VERSION] ++ ([kind] ++ (putU16Le 0 ++
      ([hash.kind.encode] ++ (putVarint (lenU64 payload.length) ++
        (payload ++ (hash.bytes.val ++ putU32Le crc)))))))) ⟨kind, hash, payload, crc⟩ :=
    (readExact_accepts MAGIC).bind ((Accepts.failIf _ (fun h => h rfl)).skip
      ((readU8_accepts VERSION).bind ((Accepts.failIf _ (fun h => h rfl)).skip
        ((readU8_accepts kind).bind ((readU16Le_accepts 0).bind
          ((readU8_accepts hash.kind.encode).bind ((LogicalHashKind.accepts hash.kind).skip
            ((readVarint_accepts (lenU64 payload.length)).bind (cast.skip
              ((Accepts.failIf _ short).skip
                (readFrameTail_accepts kind hash payload crc)))))))))))
  simpa only [frameBody, List.append_assoc] using h

theorem readFrame_rejects {limits : DecodeLimits} {payload : Bytes} (hash : LogicalHash)
    (crc : UInt32) (small : payload.length < 2 ^ 64)
    (large : limits.maxEncodedPlanLen.toNat < payload.length) :
    Rejects (readFrame limits) (frameBody KIND_PLAN hash payload ++ putU32Le crc) := by
  have size := lenU64_toNat small
  have long : KIND_PLAN = KIND_PLAN ∧ limits.maxEncodedPlanLen < lenU64 payload.length := by
    rw [UInt64.lt_iff_toNat_lt, size]
    exact ⟨rfl, large⟩
  have cast := checkedUsize_accepts (lenU64 payload.length) "payload_len"
  have h : Rejects (readFrame limits) (MAGIC ++ ([VERSION] ++ ([KIND_PLAN] ++ (putU16Le 0 ++
      ([hash.kind.encode] ++ (putVarint (lenU64 payload.length) ++
        (payload ++ (hash.bytes.val ++ putU32Le crc)))))))) :=
    Rejects.right (readExact_accepts MAGIC) (Rejects.skip (Accepts.failIf _ (fun h => h rfl))
      (Rejects.right (readU8_accepts VERSION) (Rejects.skip (Accepts.failIf _ (fun h => h rfl))
        (Rejects.right (readU8_accepts KIND_PLAN) (Rejects.right (readU16Le_accepts 0)
          (Rejects.right (readU8_accepts hash.kind.encode)
            (Rejects.skip (LogicalHashKind.accepts hash.kind)
              (Rejects.right (readVarint_accepts (lenU64 payload.length)) (Rejects.skip cast
                (Rejects.stop (Rejects.failIf _ long _)))))))))))
  simpa only [frameBody, List.append_assoc] using h

/-- The input is this frame from its first byte to its last. Flags are not checked, and the
length may be written with more bytes than it needs. -/
def Frame.LaidOut (frame : Frame) (input : Bytes) : Prop :=
  ∃ (flags : UInt16) (size : Bytes),
    Accepts readVarint size (lenU64 frame.payload.length) ∧
    frame.payload.length < 2 ^ 64 ∧
    input = MAGIC ++ ([VERSION] ++ ([frame.kind] ++ (putU16Le flags ++
      ([frame.hash.kind.encode] ++ (size ++ (frame.payload ++ (frame.hash.bytes.val ++
        putU32Le frame.expectedCrc)))))))

theorem LogicalHashKind.decode_ok {b : UInt8} {kind : LogicalHashKind}
    (h : LogicalHashKind.decode b = .ok kind) : b = kind.encode := by
  unfold LogicalHashKind.decode at h
  split at h
  · cases h
    assumption
  · split at h
    · cases h
      assumption
    · cases h

theorem readFrame_ok {limits : DecodeLimits} {c d : Cursor} {frame : Frame}
    (h : readFrame limits c = .ok (frame, d)) :
    ∃ input, frame.LaidOut input ∧ c.rest = input ++ d.rest ∧
      (frame.kind = KIND_PLAN → frame.payload.length ≤ limits.maxEncodedPlanLen.toNat) := by
  simp only [readFrame, readFrameTail, bind_ok, failIf_ok, lift_ok, pure_ok, checkedUsize] at h
  obtain ⟨magic, _, h₁, _, _, ⟨isMagic, rfl⟩, version, _, h₂, _, _, ⟨isVersion, rfl⟩, kind, _, h₃,
    flags, _, h₄, hashByte, _, h₅, hashKind, _, ⟨isKind, rfl⟩, payloadLen, _, h₆, size, _,
    ⟨cast, rfl⟩, _, _, ⟨fits, rfl⟩, payload, _, h₇, hashBytes, _, h₈, crc, _, h₉, rfl, rfl⟩ := h
  cases cast
  obtain ⟨rest₁, _, _⟩ := readExact_ok h₁
  obtain ⟨lenBytes, rest₆, _, sizeRead⟩ := readVarint_delimited _ _ _ h₆
  obtain ⟨rest₇, _, exact⟩ := readExact_ok h₇
  have length : lenU64 payload.length = payloadLen := by
    rw [exact, lenU64, UInt64.ofNat_toNat]
  refine ⟨_, ⟨flags, lenBytes, ?_, ?_, rfl⟩, ?_, ?_⟩
  · change Accepts readVarint lenBytes (lenU64 payload.length)
    rw [length]
    exact sizeRead
  · change payload.length < 2 ^ 64
    rw [exact]
    exact payloadLen.toNat_lt
  · have isMagic := Decidable.not_not.mp isMagic
    have isVersion := Decidable.not_not.mp isVersion
    rw [rest₁, readU8_ok h₂, readU8_ok h₃, readU16Le_ok h₄, readU8_ok h₅, rest₆, rest₇,
      readArray_ok h₈, readU32Le_ok h₉, LogicalHashKind.decode_ok isKind, isMagic, isVersion]
    simp only [List.append_assoc]
  · intro isPlan
    have bound : ¬ limits.maxEncodedPlanLen < payloadLen := fun large => fits ⟨isPlan, large⟩
    change payload.length ≤ _
    rw [exact]
    exact UInt64.le_iff_toNat_le.mp (UInt64.not_lt.mp bound)

theorem readFrame_extends {a b : DecodeLimits} (h : a.Le b) :
    Extends (readFrame a) (readFrame b) :=
  (Extends.refl _).bind (fun _ => (Extends.refl _).bind (fun _ => (Extends.refl _).bind
    (fun _ => (Extends.refl _).bind (fun _ => (Extends.refl _).bind (fun _ =>
      (Extends.refl _).bind (fun _ => (Extends.refl _).bind (fun _ => (Extends.refl _).bind
        (fun _ => (Extends.refl _).bind (fun _ => (Extends.refl _).bind (fun _ =>
          (Extends.failIf _ _ (fun large =>
            ⟨large.1, UInt64.lt_of_le_of_lt h.encodedPlanLen large.2⟩)).bind
              (fun _ => Extends.refl _)))))))))))

/-- A payload of 2^64 bytes or more wraps its length field, and bytes are left over. -/
theorem readFrame_wrapped {limits : DecodeLimits} {kind : UInt8} {hash : LogicalHash}
    {payload : Bytes} {crc : UInt32} (large : 2 ^ 64 ≤ payload.length) (frame : Frame) :
    whole (readFrame limits) (.invalidPlan "trailing frame bytes")
      (frameBody kind hash payload ++ putU32Le crc) ≠ .ok frame := by
  intro run
  obtain ⟨t, ht, finished⟩ := (whole_ok _ _ _ _).mp run
  obtain ⟨input, ⟨flags, size, accepted, small, rfl⟩, split, _⟩ := readFrame_ok ht
  rw [finished, List.append_nil] at split
  simp only [frameBody, List.append_assoc, List.append_cancel_left_eq] at split
  obtain ⟨_, split⟩ := List.append_inj split rfl
  obtain ⟨_, split⟩ := List.append_inj split (by simp [putU16Le])
  obtain ⟨_, split⟩ := List.append_inj split rfl
  obtain ⟨_, _, tail⟩ := (readVarint_accepts (lenU64 payload.length)).unique accepted split
  have lengths := congrArg List.length tail
  simp only [List.length_append, hash.bytes.property, frame.hash.bytes.property, putU32Le,
    toLeBytes_length] at lengths
  omega

theorem ValueEnvelope.decode_ok_iff [Digests] {input : Bytes} {limits : DecodeLimits}
    {e : ValueEnvelope} :
    ValueEnvelope.decode input limits = .ok e ↔
      ∃ frame, whole (readFrame limits) (.invalidPlan "trailing frame bytes") input = .ok frame ∧
        4 ≤ input.length ∧ Digests.crc32 (input.take (input.length - 4)) = frame.expectedCrc ∧
        frame.decode limits = .ok e := by
  simp only [ValueEnvelope.decode, except_bind_ok, failWhen_ok, Nat.not_lt, ne_eq,
    Decidable.not_not]
  constructor
  · rintro ⟨frame, run, _, long, _, crc, decoded⟩
    exact ⟨frame, run, long, crc, decoded⟩
  · rintro ⟨frame, run, long, crc, decoded⟩
    exact ⟨frame, run, (), long, (), crc, decoded⟩

end PiLSMer
