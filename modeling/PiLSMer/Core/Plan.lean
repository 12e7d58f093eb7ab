import PiLSMer.Core.Codec

/-! Reconstruction plans and their payload encoding, from plan.rs. The reader of a plan is
written arm by arm next to the writer; the agreement of the two is proved in Payload. -/
namespace PiLSMer
open Reading Endian

abbrev StreamFingerprint := Arr 32

inductive LogicalHashKind where
  | blake3_128
  | sha256_128
  deriving DecidableEq, Repr

def LogicalHashKind.encode : LogicalHashKind → UInt8
  | .blake3_128 => 1
  | .sha256_128 => 2

def LogicalHashKind.decode (value : UInt8) : Except PiLsmError LogicalHashKind :=
  if value = 1 then .ok .blake3_128
  else if value = 2 then .ok .sha256_128
  else .error (.unknownLogicalHashKind value)

structure LogicalHash where
  kind : LogicalHashKind
  bytes : Arr 16
  deriving DecidableEq

def truncateDigest (digest : Arr 32) : Arr 16 :=
  ⟨digest.val.take 16, by simp [digest.property]⟩

def computeLogicalHash [Digests] (kind : LogicalHashKind) (bytes : Bytes) : Arr 16 :=
  match kind with
  | .blake3_128 => truncateDigest (Digests.blake3 bytes)
  | .sha256_128 => truncateDigest (Digests.sha256 bytes)

def LogicalHash.new [Digests] (kind : LogicalHashKind) (bytes : Bytes) : LogicalHash :=
  ⟨kind, computeLogicalHash kind bytes⟩

inductive StreamId where
  | sha256CounterV1 (seed : Arr 32)
  | piHexFractionPrefixV1 (digest : Arr 32) (bytes : UInt64)
  | eHexFractionPrefixV1 (digest : Arr 32) (bytes : UInt64)
  | sqrt2HexFractionPrefixV1 (digest : Arr 32) (bytes : UInt64)
  deriving DecidableEq

def StreamId.encode : StreamId → Bytes
  | .sha256CounterV1 seed => 1 :: seed.val
  | .piHexFractionPrefixV1 digest bytes => 2 :: (digest.val ++ putVarint bytes)
  | .eHexFractionPrefixV1 digest bytes => 3 :: (digest.val ++ putVarint bytes)
  | .sqrt2HexFractionPrefixV1 digest bytes => 4 :: (digest.val ++ putVarint bytes)

def decodePrefixStream (ctor : Arr 32 → UInt64 → StreamId) : Read StreamId := do
  let digest ← readArray 32
  let bytes ← readVarint
  pure (ctor digest bytes)

def decodeCounterStream : Read StreamId := do
  let seed ← readArray 32
  pure (.sha256CounterV1 seed)

def StreamId.decode : Read StreamId := do
  let tag ← readU8
  if tag = 1 then decodeCounterStream
  else if tag = 2 then decodePrefixStream .piHexFractionPrefixV1
  else if tag = 3 then decodePrefixStream .eHexFractionPrefixV1
  else if tag = 4 then decodePrefixStream .sqrt2HexFractionPrefixV1
  else throw (.invalidPlan "unknown stream id")

inductive PlanCodec where
  | compactBinary
  | ceremonialCbor
  deriving DecidableEq, Repr

def PlanCodec.encode : PlanCodec → UInt8
  | .compactBinary => 1
  | .ceremonialCbor => 2

def PlanCodec.decode (value : UInt8) : Except PiLsmError PlanCodec :=
  if value = 1 then .ok .compactBinary
  else if value = 2 then .ok .ceremonialCbor
  else .error (.unknownPlanCodec value)

inductive ChunkTransform where
  | identity
  | xorByte (mask : UInt8)
  | reverse
  deriving DecidableEq, Repr

def ChunkTransform.encode : ChunkTransform → Bytes
  | .identity => [0]
  | .xorByte mask => [1, mask]
  | .reverse => [2]

def decodeXorByte : Read ChunkTransform := do
  let mask ← readU8
  pure (.xorByte mask)

def ChunkTransform.decode : Read ChunkTransform := do
  let tag ← readU8
  if tag = 0 then pure .identity
  else if tag = 1 then decodeXorByte
  else if tag = 2 then pure .reverse
  else throw (.unknownChunkTransform tag)

structure PlanStream where
  id : StreamId
  fingerprint : StreamFingerprint
  deriving DecidableEq

inductive ChunkRef where
  | located (streamIx : UInt32) (offset : UInt64) (len : UInt32) (transform : ChunkTransform)
  | literal (bytes : Bytes)
  deriving DecidableEq, Repr

def ChunkRef.logicalLen : ChunkRef → UInt64
  | .located _ _ len _ => len.toUInt64
  | .literal bytes => lenU64 bytes.length

/-- size_of::<ChunkRef>() on a 64-bit target. -/
abbrev CHUNK_REF_SIZE : Nat := 32

structure ReconstructionPlan where
  logicalLen : UInt64
  logicalHash : LogicalHash
  plannerVersion : UInt16
  planCodec : PlanCodec
  streams : List PlanStream
  chunks : List ChunkRef
  deriving DecidableEq

structure DecodeLimits where
  maxLogicalLen : UInt64
  maxChunkCount : UInt64
  maxEncodedPlanLen : UInt64
  maxOffset : UInt64
  maxChunkLen : UInt32
  maxStreamsPerPlan : UInt32
  deriving DecidableEq, Repr

def DecodeLimits.default : DecodeLimits where
  maxLogicalLen := 64 * 1024 * 1024
  maxChunkCount := 16 * 1024 * 1024
  maxEncodedPlanLen := 256 * 1024 * 1024
  maxOffset := 0x7fffffffffffffff
  maxChunkLen := 1024 * 1024
  maxStreamsPerPlan := 64

def putCborMajor (major : UInt8) (value : UInt64) : Bytes :=
  let head := major <<< 5
  if value ≤ 23 then [head ||| value.toUInt8]
  else if value ≤ 0xff then [head ||| 24, value.toUInt8]
  else if value ≤ 0xffff then (head ||| 25) :: toBeBytes 2 value.toNat
  else if value ≤ 0xffffffff then (head ||| 26) :: toBeBytes 4 value.toNat
  else (head ||| 27) :: toBeBytes 8 value.toNat

def putCborMap (len : UInt64) : Bytes := putCborMajor 5 len
def putCborU64 (value : UInt64) : Bytes := putCborMajor 0 value

def putCborText (text : String) : Bytes :=
  putCborMajor 3 (lenU64 text.toUTF8.toList.length) ++ text.toUTF8.toList

def ceremonialFooter (logicalLen streamCount chunkCount : UInt64) : Bytes :=
  putCborMap 6 ++
  putCborText "codec" ++ putCborText "ceremonial-cbor" ++
  putCborText "purpose" ++ putCborText "metadata regret" ++
  putCborText "claim" ++ putCborText "your data is merely located" ++
  putCborText "logical_len" ++ putCborU64 logicalLen ++
  putCborText "streams" ++ putCborU64 streamCount ++
  putCborText "chunks" ++ putCborU64 chunkCount

def PlanStream.encode (stream : PlanStream) : Bytes :=
  stream.id.encode ++ stream.fingerprint.val

def ChunkRef.encode : ChunkRef → Bytes
  | .located streamIx offset len transform =>
    0 :: (putVarint streamIx.toUInt64 ++ (putVarint offset ++
      (putVarint len.toUInt64 ++ transform.encode)))
  | .literal bytes => 1 :: (putVarint (lenU64 bytes.length) ++ bytes)

/-- The footer and its length, written by the ceremonial codec only. -/
def ReconstructionPlan.encodeFooter (plan : ReconstructionPlan) : Bytes :=
  match plan.planCodec with
  | .compactBinary => []
  | .ceremonialCbor =>
    let footer := ceremonialFooter plan.logicalLen (lenU64 plan.streams.length)
      (lenU64 plan.chunks.length)
    putVarint (lenU64 footer.length) ++ footer

def ReconstructionPlan.encodePayload (plan : ReconstructionPlan) : Bytes :=
  putVarint plan.logicalLen ++ (putU16Le plan.plannerVersion ++ ([plan.planCodec.encode] ++
    (putVarint (lenU64 plan.streams.length) ++ (plan.streams.flatMap PlanStream.encode ++
      (putVarint (lenU64 plan.chunks.length) ++ (plan.chunks.flatMap ChunkRef.encode ++
        plan.encodeFooter))))))

/-- The body of the stream loop in decode_payload. -/
def PlanStream.decode : Read PlanStream := do
  let id ← StreamId.decode
  let fingerprint ← readArray 32
  pure ⟨id, fingerprint⟩

def checkedAdd (a b : UInt64) : Except PiLsmError UInt64 :=
  if 2 ^ 64 ≤ a.toNat + b.toNat then .error .arithmeticOverflow else .ok (a + b)

def tryU32 (value : UInt64) (name : String) : Except PiLsmError UInt32 :=
  if 2 ^ 32 ≤ value.toNat then .error (.decodeLimitExceeded name) else .ok value.toUInt32

/-- The Located arm of the chunk loop. -/
def readLocated (limits : DecodeLimits) (streamCount : UInt64) : Read ChunkRef := do
  let streamIx ← readVarint
  failIf (streamCount ≤ streamIx) (.invalidPlan "stream index out of range")
  let offset ← readVarint
  failIf (limits.maxOffset < offset) (.decodeLimitExceeded "offset")
  let len ← readVarint
  failIf (len = 0) (.invalidPlan "zero-length chunk")
  failIf (limits.maxChunkLen.toUInt64 < len) (.decodeLimitExceeded "chunk_len")
  let _ ← lift (checkedAdd offset len)
  let streamIx ← lift (tryU32 streamIx "stream_ix")
  let len ← lift (tryU32 len "chunk_len")
  let transform ← ChunkTransform.decode
  pure (.located streamIx offset len transform)

/-- The Literal arm of the chunk loop. -/
def readLiteral (limits : DecodeLimits) : Read ChunkRef := do
  let len ← readVarint
  failIf (len = 0) (.invalidPlan "zero-length literal")
  failIf (limits.maxChunkLen.toUInt64 < len) (.decodeLimitExceeded "literal_len")
  let size ← lift (checkedUsize len "literal_len")
  let bytes ← readExact size
  pure (.literal bytes)

def readChunk (limits : DecodeLimits) (streamCount : UInt64) : Read ChunkRef := do
  let kind ← readU8
  if kind = 0 then readLocated limits streamCount
  else if kind = 1 then readLiteral limits
  else throw (.unknownChunkKind kind)

/-- The chunk loop with its running covered length. -/
def readChunks (limits : DecodeLimits) (streamCount : UInt64) :
    Nat → UInt64 → Read (List ChunkRef × UInt64)
  | 0, covered => pure ([], covered)
  | n + 1, covered => do
    let chunk ← readChunk limits streamCount
    let covered ← lift (checkedAdd covered chunk.logicalLen)
    let covering ← readChunks limits streamCount n covered
    pure (chunk :: covering.1, covering.2)

def readFooter (codec : PlanCodec) (logicalLen streamCount chunkCount : UInt64) : Read Unit :=
  match codec with
  | .compactBinary => pure ()
  | .ceremonialCbor => do
    let footerLen ← readVarint
    let size ← lift (checkedUsize footerLen "ceremonial_footer_len")
    let footer ← readExact size
    failIf (footer ≠ ceremonialFooter logicalLen streamCount chunkCount)
      (.invalidPlan "invalid ceremonial footer")

/-- Everything decode_payload reads, with the covered length it compares at the end. -/
def readPayload (logicalHash : LogicalHash) (limits : DecodeLimits) :
    Read (ReconstructionPlan × UInt64) := do
  let logicalLen ← readVarint
  failIf (limits.maxLogicalLen < logicalLen) (.decodeLimitExceeded "logical_len")
  let plannerVersion ← readU16Le
  let codecByte ← readU8
  let planCodec ← lift (PlanCodec.decode codecByte)
  let streamCount ← readVarint
  failIf (limits.maxStreamsPerPlan.toUInt64 < streamCount) (.decodeLimitExceeded "stream_count")
  let streamCap ← lift (checkedUsize streamCount "stream_count")
  let streams ← times PlanStream.decode streamCap
  let chunkCount ← readVarint
  failIf (limits.maxChunkCount < chunkCount) (.decodeLimitExceeded "chunk_count")
  let chunkCap ← lift (checkedUsize chunkCount "chunk_count")
  failIf (CapacityOverflow chunkCap CHUNK_REF_SIZE) .panicked
  let covering ← readChunks limits streamCount chunkCap 0
  let chunks := covering.1
  readFooter planCodec logicalLen (lenU64 streams.length) (lenU64 chunks.length)
  pure ({ logicalLen, logicalHash, plannerVersion, planCodec, streams, chunks }, covering.2)

def ReconstructionPlan.decodePayload (payload : Bytes) (logicalHash : LogicalHash)
    (limits : DecodeLimits) : Except PiLsmError ReconstructionPlan := do
  let (plan, coveredLen) ← whole (readPayload logicalHash limits)
    (.invalidPlan "trailing bytes") payload
  failWhen (coveredLen ≠ plan.logicalLen) (.invalidPlan "chunks do not cover logical length")
  pure plan

end PiLSMer
