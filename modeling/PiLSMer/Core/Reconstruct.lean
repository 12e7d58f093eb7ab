import PiLSMer.Core.Envelope

/-! Streams, the registry and the reconstructor, from stream.rs and reconstruct.rs. A stream
is whatever implements the trait: its reads may fail and need not have the asked length. -/
namespace PiLSMer
open Endian

structure ByteStream where
  id : StreamId
  fingerprint : StreamFingerprint
  readAt : UInt64 → Nat → Except PiLsmError Bytes

/-- The read_at of PrefixByteStream. -/
def prefixReadAt (bytes : Bytes) (offset : UInt64) (len : Nat) : Except PiLsmError Bytes :=
  if 2 ^ 64 ≤ offset.toNat + len then .error .arithmeticOverflow
  else if bytes.length < offset.toNat + len then .error .streamReadOutOfBounds
  else .ok ((bytes.drop offset.toNat).take len)

def PrefixByteStream.new [Digests] (id : StreamId) (bytes : Bytes) : ByteStream where
  id := id
  fingerprint := Digests.sha256 ("PiLSMer prefix stream fingerprint:v1".toUTF8.toList ++ bytes)
  readAt := prefixReadAt bytes

def sha256CounterBlock [Digests] (seed : Arr 32) (blockIx : UInt64) : Bytes :=
  (Digests.sha256 ("PiLSMer sha256-counter:v1".toUTF8.toList ++
    (seed.val ++ toLeBytes 8 blockIx.toNat))).val

/-- bytes[start..stop], which panics out of bounds. -/
def slice (bytes : Bytes) (start stop : Nat) : Option Bytes :=
  if start ≤ stop ∧ stop ≤ bytes.length then some ((bytes.drop start).take (stop - start))
  else none

/-- The read_at of Sha256CounterStream; no result at all is a panic. -/
def sha256CounterReadAt [Digests] (seed : Arr 32) (offset : UInt64) (len : Nat) :
    Option (Except PiLsmError Bytes) :=
  if len = 0 then some (.ok [])
  else
    let startBlock := offset.toNat / 32
    let blockOffset := offset.toNat % 32
    if 2 ^ 64 ≤ offset.toNat + len then some (.error .arithmeticOverflow)
    else
      let endOffset := offset.toNat + len
      let endBlock := min (endOffset + 31) (2 ^ 64 - 1) / 32
      let bytes := (List.range' startBlock (endBlock - startBlock)).flatMap
        (fun blockIx => sha256CounterBlock seed (UInt64.ofNat blockIx))
      (slice bytes blockOffset (blockOffset + len)).map .ok

def Sha256CounterStream.new [Digests] (seed : Arr 32) : ByteStream where
  id := .sha256CounterV1 seed
  fingerprint := Digests.sha256
    ("PiLSMer stream fingerprint sha256-counter:v1".toUTF8.toList ++ seed.val)
  readAt offset len := (sha256CounterReadAt seed offset len).getD (.error .panicked)

/-- At most one stream under each id; the HashMap of the source keeps no order. -/
structure StreamRegistry where
  streams : List ByteStream

def StreamRegistry.register (registry : StreamRegistry) (stream : ByteStream) : StreamRegistry :=
  ⟨stream :: registry.streams.filter (fun s => s.id ≠ stream.id)⟩

def StreamRegistry.get (registry : StreamRegistry) (id : StreamId) : Option ByteStream :=
  registry.streams.find? (fun s => s.id = id)

theorem StreamRegistry.get_register (registry : StreamRegistry) (stream : ByteStream) :
    (registry.register stream).get stream.id = some stream := by
  simp [StreamRegistry.get, StreamRegistry.register]

def applyTransform (bytes : Bytes) : ChunkTransform → Bytes
  | .identity => bytes
  | .xorByte mask => bytes.map (fun byte => byte ^^^ mask)
  | .reverse => bytes.reverse

def okOr {α : Type} (x : Option α) (e : PiLsmError) : Except PiLsmError α :=
  match x with
  | some a => .ok a
  | none => .error e

def reconstructChunk (registry : StreamRegistry) (streams : List PlanStream) :
    ChunkRef → Except PiLsmError Bytes
  | .located streamIx offset len transform => do
    let streamMeta ← okOr streams[streamIx.toNat]? .missingStream
    let stream ← okOr (registry.get streamMeta.id) .missingStream
    failWhen (stream.fingerprint ≠ streamMeta.fingerprint) .streamFingerprintMismatch
    let bytes ← stream.readAt offset len.toNat
    pure (applyTransform bytes transform)
  | .literal bytes => pure bytes

/-- The chunk loop; the second-last argument is the output so far. -/
def reconstructFrom (registry : StreamRegistry) (streams : List PlanStream) :
    Bytes → List ChunkRef → Except PiLsmError Bytes
  | out, [] => pure out
  | out, chunk :: chunks => do
    let bytes ← reconstructChunk registry streams chunk
    reconstructFrom registry streams (out ++ bytes) chunks

def reconstructWithLimit [Digests] (registry : StreamRegistry) (plan : ReconstructionPlan)
    (maxLogicalLen : UInt64) : Except PiLsmError Bytes := do
  failWhen (maxLogicalLen < plan.logicalLen) (.decodeLimitExceeded "max_reconstruct_bytes")
  let cap ← checkedUsize plan.logicalLen "logical_len"
  failWhen (CapacityOverflow cap 1) .panicked
  let out ← reconstructFrom registry plan.streams [] plan.chunks
  failWhen (lenU64 out.length ≠ plan.logicalLen) (.invalidPlan "reconstructed length mismatch")
  failWhen (computeLogicalHash plan.logicalHash.kind out ≠ plan.logicalHash.bytes)
    .logicalHashMismatch
  pure out

def reconstruct [Digests] (registry : StreamRegistry) (plan : ReconstructionPlan) :
    Except PiLsmError Bytes :=
  reconstructWithLimit registry plan 0xffffffffffffffff

def ValueEnvelope.Holds [Digests] (registry : StreamRegistry) (v : Bytes) : ValueEnvelope → Prop
  | .raw bytes => v = bytes
  | .plan p => reconstruct registry p = .ok v

theorem reconstructWithLimit_ok_iff [Digests] {registry : StreamRegistry}
    {plan : ReconstructionPlan} {limit : UInt64} {v : Bytes} :
    reconstructWithLimit registry plan limit = .ok v ↔
      plan.logicalLen ≤ limit ∧ plan.logicalLen.toNat < 2 ^ 63 ∧
        reconstructFrom registry plan.streams [] plan.chunks = .ok v ∧
        lenU64 v.length = plan.logicalLen ∧
        computeLogicalHash plan.logicalHash.kind v = plan.logicalHash.bytes := by
  simp only [reconstructWithLimit, except_bind_ok, failWhen_ok, except_pure_ok, UInt64.not_lt,
    ne_eq, Decidable.not_not, checkedUsize, Except.ok.injEq, Nat.mul_one, Nat.not_le]
  constructor
  · rintro ⟨_, within, _, rfl, _, room, out, run, _, length, _, hash, rfl⟩
    exact ⟨within, room, run, length, hash⟩
  · rintro ⟨within, room, run, length, hash⟩
    exact ⟨(), within, _, rfl, (), room, v, run, (), length, (), hash, rfl⟩

/-- Where a reconstruction stopped: at the limit, at the allocation, in the loop, or at one of
the two last checks. -/
theorem reconstructWithLimit_error [Digests] {registry : StreamRegistry}
    {plan : ReconstructionPlan} {limit : UInt64} {e : PiLsmError}
    (failed : reconstructWithLimit registry plan limit = .error e) :
    e = .decodeLimitExceeded "max_reconstruct_bytes" ∨
      e = .panicked ∧ plan.logicalLen ≤ limit ∧ 2 ^ 63 ≤ plan.logicalLen.toNat ∨
      reconstructFrom registry plan.streams [] plan.chunks = .error e ∨
      (∃ out, reconstructFrom registry plan.streams [] plan.chunks = .ok out ∧
        e = .invalidPlan "reconstructed length mismatch" ∧ lenU64 out.length ≠ plan.logicalLen) ∨
      e = .logicalHashMismatch := by
  simp only [reconstructWithLimit, except_bind_error, failWhen_error, failWhen_ok, checkedUsize,
    UInt64.not_lt] at failed
  obtain ⟨_, rfl⟩ | ⟨_, within, h | ⟨cap, cast, ⟨large, rfl⟩ | ⟨_, _, loop | ⟨out, run, rest⟩⟩⟩⟩ :=
    failed
  · exact .inl rfl
  · cases h
  · cases cast
    rw [CapacityOverflow, Nat.mul_one] at large
    exact .inr (.inl ⟨rfl, within, large⟩)
  · exact .inr (.inr (.inl loop))
  · obtain ⟨length, rfl⟩ | ⟨_, _, ⟨_, rfl⟩ | ⟨_, _, h⟩⟩ := rest
    · exact .inr (.inr (.inr (.inl ⟨out, run, rfl, length⟩)))
    · exact .inr (.inr (.inr (.inr rfl)))
    · cases h

theorem reconstruct_ok_iff [Digests] {registry : StreamRegistry} {plan : ReconstructionPlan}
    {v : Bytes} :
    reconstruct registry plan = .ok v ↔ plan.logicalLen.toNat < 2 ^ 63 ∧
      reconstructFrom registry plan.streams [] plan.chunks = .ok v ∧
        lenU64 v.length = plan.logicalLen ∧
        computeLogicalHash plan.logicalHash.kind v = plan.logicalHash.bytes := by
  rw [reconstruct, reconstructWithLimit_ok_iff]
  exact ⟨fun h => h.2, fun h => ⟨le_u64_max _, h⟩⟩

theorem reconstructWithLimit_iff [Digests] {registry : StreamRegistry}
    {plan : ReconstructionPlan} {limit : UInt64} {v : Bytes} :
    reconstructWithLimit registry plan limit = .ok v ↔
      plan.logicalLen ≤ limit ∧ reconstruct registry plan = .ok v := by
  rw [reconstructWithLimit_ok_iff, reconstruct_ok_iff]

theorem reconstructFrom_congr {registry registry' : StreamRegistry} {streams : List PlanStream}
    (same : ∀ entry ∈ streams, registry.get entry.id = registry'.get entry.id)
    (out : Bytes) (chunks : List ChunkRef) :
    reconstructFrom registry streams out chunks = reconstructFrom registry' streams out chunks := by
  have each : ∀ chunk, reconstructChunk registry streams chunk =
      reconstructChunk registry' streams chunk := by
    intro chunk
    cases chunk with
    | literal bytes => rfl
    | located streamIx offset len transform =>
      simp only [reconstructChunk]
      cases there : streams[streamIx.toNat]? with
      | none => rfl
      | some entry =>
        change (okOr (registry.get entry.id) .missingStream >>= _) =
          (okOr (registry'.get entry.id) .missingStream >>= _)
        rw [same entry (List.mem_of_getElem? there)]
  induction chunks generalizing out with
  | nil => rfl
  | cons chunk chunks ih => simp only [reconstructFrom, each, ih]

theorem reconstruct_congr [Digests] {registry registry' : StreamRegistry}
    {plan : ReconstructionPlan}
    (same : ∀ entry ∈ plan.streams, registry.get entry.id = registry'.get entry.id) :
    reconstruct registry plan = reconstruct registry' plan := by
  simp only [reconstruct, reconstructWithLimit, reconstructFrom_congr same]

theorem reconstructWithLimit_over [Digests] {registry : StreamRegistry}
    {plan : ReconstructionPlan} {limit : UInt64} (large : limit < plan.logicalLen) :
    reconstructWithLimit registry plan limit =
      .error (.decodeLimitExceeded "max_reconstruct_bytes") := by
  unfold reconstructWithLimit failWhen
  rw [if_pos large]
  rfl

theorem reconstructWithLimit_within [Digests] {registry : StreamRegistry}
    {plan : ReconstructionPlan} {limit : UInt64} (within : plan.logicalLen ≤ limit) :
    reconstructWithLimit registry plan limit = reconstruct registry plan := by
  have top := le_u64_max plan.logicalLen
  simp only [reconstruct, reconstructWithLimit, UInt64.not_lt.mpr within, UInt64.not_lt.mpr top]

end PiLSMer
