import PiLSMer.Core.HexPrefix
import PiLSMer.Slate.Migrate

/-! The runtimes that the command line starts: a stream, its index, a registry and a planner
over it. Which runtime can read what another one planned, and what a longer prefix is good for. -/
namespace PiLSMer

inductive StreamKind where
  | sha256Counter
  | piPrefix
  | ePrefix
  | sqrt2Prefix
  deriving DecidableEq, Repr

inductive ConstantKind where
  | pi
  | e
  | sqrt2
  deriving DecidableEq, Repr

/-- The same prefix, of the length of the other one unless the stream has no end. -/
def SameStream (kind kind' : StreamKind) (prefixBytes prefixBytes' : UInt64) : Prop :=
  kind = kind' ∧ (kind = .sha256Counter ∨ prefixBytes = prefixBytes')

instance (kind kind' : StreamKind) (prefixBytes prefixBytes' : UInt64) :
    Decidable (SameStream kind kind' prefixBytes prefixBytes') := by
  unfold SameStream
  infer_instance

def ConstantKind.streamKind : ConstantKind → StreamKind
  | .pi => .piPrefix
  | .e => .ePrefix
  | .sqrt2 => .sqrt2Prefix

def ChunkRef.isLiteral : ChunkRef → Bool
  | .literal _ => true
  | .located .. => false

variable [Digests]

def StreamKind.stream (kind : StreamKind) (prefixBytes : UInt64) : Except PiLsmError ByteStream :=
  match kind with
  | .sha256Counter => .ok (Sha256CounterStream.new ⟨List.replicate 32 0, List.length_replicate⟩)
  | .piPrefix => piHexFractionPrefixStream prefixBytes
  | .ePrefix => eHexFractionPrefixStream prefixBytes
  | .sqrt2Prefix => sqrt2HexFractionPrefixStream prefixBytes

def constantStream (kind : ConstantKind) (prefixBytes : UInt64) : Except PiLsmError ByteStream :=
  match kind with
  | .pi => piHexFractionPrefixStream prefixBytes
  | .e => eHexFractionPrefixStream prefixBytes
  | .sqrt2 => sqrt2HexFractionPrefixStream prefixBytes

omit [Digests] in
def PlanOptions.indexOptions (planOptions : PlanOptions) : StreamIndexOptions where
  maxPrefixLen := planOptions.maxPrefixLen
  maxK := planOptions.maxK
  maxIndexMemoryBytes := planOptions.maxIndexMemoryBytes
  maxOffsetsPerKgram := planOptions.maxOffsetsPerKgram

/-- The index of build_runtime and the runtime around it. -/
def runtimeOver (planOptions : PlanOptions) (stream : ByteStream) : Except PiLsmError PiLsmDb :=
  let registry := (StreamRegistry.mk []).register stream
  match built : StreamIndex.build stream planOptions.indexOptions with
  | .error e => .error e
  | .ok index => .ok (PiLsmDb.ofRuntime registry ⟨[index], registry, planOptions,
      fun _ member => List.mem_singleton.mp member ▸ (StreamIndex.build_built built).1⟩)

def buildRuntime (planOptions : PlanOptions) (streamKind : StreamKind) :
    Except PiLsmError PiLsmDb := do
  let stream ← streamKind.stream planOptions.maxPrefixLen
  runtimeOver planOptions stream

/-- The two ways to start: for a stream, or to migrate from one constant to another. -/
inductive Launch where
  | runtime (streamKind : StreamKind)
  | migration (source target : ConstantKind)

def Launch.start (planOptions : PlanOptions) : Launch → Except PiLsmError PiLsmDb
  | .runtime streamKind => buildRuntime planOptions streamKind
  | .migration source target => do
    let source ← constantStream source planOptions.maxPrefixLen
    let target ← constantStream target planOptions.maxPrefixLen
    buildMigrationRuntime planOptions source target

omit [Digests] in
def Launch.plansOver : Launch → StreamKind
  | .runtime streamKind => streamKind
  | .migration _ target => target.streamKind

omit [Digests] in
def Launch.knows : Launch → List StreamKind
  | .runtime streamKind => [streamKind]
  | .migration source target => [target.streamKind, source.streamKind]

section Streams

theorem constantStream_eq (kind : ConstantKind) (prefixBytes : UInt64) :
    constantStream kind prefixBytes = kind.streamKind.stream prefixBytes := by
  cases kind <;> rfl

def StreamKind.Names (kind : StreamKind) (prefixBytes : UInt64) : StreamId → Prop
  | .sha256CounterV1 _ => kind = .sha256Counter
  | .piHexFractionPrefixV1 _ bytes => kind = .piPrefix ∧ bytes = prefixBytes
  | .eHexFractionPrefixV1 _ bytes => kind = .ePrefix ∧ bytes = prefixBytes
  | .sqrt2HexFractionPrefixV1 _ bytes => kind = .sqrt2Prefix ∧ bytes = prefixBytes

theorem hexFractionPrefixStream_ok {prefixBytes : UInt64} {table : HexTable} {limitName : String}
    {streamId : Arr 32 → UInt64 → StreamId} {stream : ByteStream}
    (h : hexFractionPrefixStream prefixBytes table limitName streamId = .ok stream) :
    ∃ bytes, stream = PrefixByteStream.new (streamId (Digests.sha256 bytes) prefixBytes) bytes := by
  unfold hexFractionPrefixStream at h
  split at h
  · simp only [except_bind_ok, except_pure_ok] at h
    obtain ⟨bytes, _, rfl⟩ := h
    exact ⟨bytes, rfl⟩
  · cases h

theorem StreamKind.stream_names {kind : StreamKind} {prefixBytes : UInt64} {stream : ByteStream}
    (h : kind.stream prefixBytes = .ok stream) : kind.Names prefixBytes stream.id := by
  cases kind with
  | sha256Counter =>
    cases h
    exact rfl
  | piPrefix =>
    obtain ⟨_, rfl⟩ := hexFractionPrefixStream_ok h
    exact ⟨rfl, rfl⟩
  | ePrefix =>
    obtain ⟨_, rfl⟩ := hexFractionPrefixStream_ok h
    exact ⟨rfl, rfl⟩
  | sqrt2Prefix =>
    obtain ⟨_, rfl⟩ := hexFractionPrefixStream_ok h
    exact ⟨rfl, rfl⟩

theorem StreamKind.stream_lawful {kind : StreamKind} {prefixBytes : UInt64} {stream : ByteStream}
    (h : kind.stream prefixBytes = .ok stream) : stream.Lawful := by
  cases kind with
  | sha256Counter =>
    cases h
    exact Sha256CounterStream.lawful _
  | piPrefix =>
    obtain ⟨_, rfl⟩ := hexFractionPrefixStream_ok h
    exact PrefixByteStream.lawful _ _
  | ePrefix =>
    obtain ⟨_, rfl⟩ := hexFractionPrefixStream_ok h
    exact PrefixByteStream.lawful _ _
  | sqrt2Prefix =>
    obtain ⟨_, rfl⟩ := hexFractionPrefixStream_ok h
    exact PrefixByteStream.lawful _ _

variable {kind kind' : StreamKind} {n n' : UInt64} {stream stream' : ByteStream}

theorem SameStream.equal (same : SameStream kind kind' n n') :
    kind.stream n = kind'.stream n' := by
  obtain ⟨rfl, rfl | rfl⟩ := same <;> rfl

theorem StreamKind.stream_id (h : kind.stream n = .ok stream) (h' : kind'.stream n' = .ok stream') :
    stream.id = stream'.id ↔ SameStream kind kind' n n' := by
  constructor
  · intro same
    have named := StreamKind.stream_names h
    have named' := StreamKind.stream_names h'
    rw [← same] at named'
    revert named named'
    cases stream.id with
    | sha256CounterV1 =>
      rintro rfl rfl
      exact ⟨rfl, Or.inl rfl⟩
    | piHexFractionPrefixV1 | eHexFractionPrefixV1 | sqrt2HexFractionPrefixV1 =>
      rintro ⟨rfl, rfl⟩ ⟨rfl, rfl⟩
      exact ⟨rfl, Or.inr rfl⟩
  · intro same
    cases (same.equal.symm.trans h).symm.trans h'
    rfl

end Streams

section Registry

omit [Digests]

variable {registry : StreamRegistry} {stream : ByteStream} {id : StreamId}

theorem StreamRegistry.get_register_ne (differs : id ≠ stream.id) :
    (registry.register stream).get id = registry.get id := by
  have other : ¬ stream.id = id := fun same => differs same.symm
  simp only [StreamRegistry.get, StreamRegistry.register, List.find?_cons, other, decide_false,
    List.find?_filter]
  congr 1
  funext s
  by_cases here : s.id = id
  · simp [here, differs]
  · simp [here]

end Registry

/-- What a launch leads to: a planner over one of the streams, and a registry of all of them. -/
structure Launch.Started (launch : Launch) (planOptions : PlanOptions) (db : PiLsmDb) : Prop where
  shared : db.planner.registry = db.reconstructor
  target : ∃ stream index, launch.plansOver.stream planOptions.maxPrefixLen = .ok stream ∧
    StreamIndex.build stream planOptions.indexOptions = .ok index ∧
    db.planner.indexes = [index] ∧ db.reconstructor.get stream.id = some stream
  known : ∀ kind ∈ launch.knows, ∃ stream, kind.stream planOptions.maxPrefixLen = .ok stream ∧
    db.reconstructor.get stream.id = some stream
  only : ∀ id stream, db.reconstructor.get id = some stream →
    ∃ kind ∈ launch.knows, ∃ stream, kind.stream planOptions.maxPrefixLen = .ok stream ∧
      stream.id = id

omit [Digests] in
theorem runtimeOver_ok {planOptions : PlanOptions} {stream : ByteStream} {db : PiLsmDb}
    (h : runtimeOver planOptions stream = .ok db) : ∃ index,
    StreamIndex.build stream planOptions.indexOptions = .ok index ∧
    db.planner.indexes = [index] ∧ db.planner.registry = db.reconstructor ∧
    db.reconstructor = (StreamRegistry.mk []).register stream := by
  unfold runtimeOver at h
  dsimp only at h
  split at h
  · cases h
  · rename_i index built
    cases h
    exact ⟨index, built, rfl, rfl, rfl⟩

omit [Digests] in
theorem buildMigrationRuntime_ok {planOptions : PlanOptions} {source target : ByteStream}
    {db : PiLsmDb} (h : buildMigrationRuntime planOptions source target = .ok db) : ∃ index,
    StreamIndex.build target planOptions.indexOptions = .ok index ∧
    db.planner.indexes = [index] := by
  unfold buildMigrationRuntime at h
  dsimp only at h
  split at h
  · cases h
  · rename_i index built
    cases h
    exact ⟨index, built, rfl⟩

theorem Launch.started {launch : Launch} {planOptions : PlanOptions} {db : PiLsmDb}
    (h : launch.start planOptions = .ok db) : launch.Started planOptions db := by
  cases launch with
  | runtime kind =>
    simp only [Launch.start, buildRuntime, except_bind_ok] at h
    obtain ⟨stream, made, h⟩ := h
    obtain ⟨index, built, indexes, shared, registry⟩ := runtimeOver_ok h
    refine ⟨shared, ⟨stream, index, made, built, indexes,
      registry ▸ StreamRegistry.get_register _ stream⟩, ?_, fun id found there => ?_⟩
    · intro other member
      obtain rfl := List.mem_singleton.mp member
      exact ⟨stream, made, registry ▸ StreamRegistry.get_register _ stream⟩
    · refine ⟨kind, List.mem_singleton_self _, stream, made, ?_⟩
      by_contra differs
      rw [registry, StreamRegistry.get_register_ne (Ne.symm differs)] at there
      cases there
  | migration _ _ =>
    simp only [Launch.start, except_bind_ok, constantStream_eq] at h
    obtain ⟨source, source_made, target, target_made, h⟩ := h
    obtain ⟨index, built, indexes⟩ := buildMigrationRuntime_ok h
    obtain ⟨both, shared, _⟩ := buildMigrationRuntime_migrates h
    refine ⟨shared, ⟨target, index, target_made, built, indexes,
      both ▸ StreamRegistry.get_register _ target⟩, ?_, fun id found there => ?_⟩
    · intro kind member
      rcases List.mem_cons.mp member with rfl | member
      · exact ⟨target, target_made, both ▸ StreamRegistry.get_register _ target⟩
      · obtain rfl := List.mem_singleton.mp member
        refine ⟨source, source_made, ?_⟩
        by_cases same : source.id = target.id
        · have one := ((StreamKind.stream_id source_made target_made).mp same).equal
          cases (one.symm.trans source_made).symm.trans target_made
          exact both ▸ StreamRegistry.get_register _ source
        · rw [both, StreamRegistry.get_register_ne same, StreamRegistry.get_register]
    · by_cases first : target.id = id
      · exact ⟨_, List.mem_cons_self .., target, target_made, first⟩
      · refine ⟨_, List.mem_cons_of_mem _ (List.mem_singleton_self _), source, source_made, ?_⟩
        by_contra differs
        rw [both, StreamRegistry.get_register_ne (Ne.symm first),
          StreamRegistry.get_register_ne (Ne.symm differs)] at there
        cases there

section Every

omit [Digests] in
def StreamKind.longest : StreamKind → Nat
  | .sha256Counter => 0
  | .piPrefix => PI_HEX_FRACTION_PREFIX_BYTES
  | .ePrefix => E_HEX_FRACTION_PREFIX_BYTES
  | .sqrt2Prefix => SQRT2_HEX_FRACTION_PREFIX_BYTES

def everyStream : StreamRegistry where
  streams := [StreamKind.sha256Counter, .piPrefix, .ePrefix, .sqrt2Prefix].flatMap (fun kind =>
    (List.range (kind.longest + 1)).filterMap (fun n => (kind.stream (UInt64.ofNat n)).toOption))

theorem hexFractionPrefixStream_short {n : UInt64} {table : HexTable} {limitName : String}
    {streamId : Arr 32 → UInt64 → StreamId} {stream : ByteStream}
    (h : hexFractionPrefixStream n table limitName streamId = .ok stream) :
    n.toNat ≤ table.availableBytes := by
  unfold hexFractionPrefixStream at h
  split at h
  · assumption
  · cases h

theorem StreamKind.stream_short {kind : StreamKind} {n : UInt64} {stream : ByteStream}
    (h : kind.stream n = .ok stream) : kind = .sha256Counter ∨ n.toNat ≤ kind.longest := by
  cases kind with
  | sha256Counter => exact Or.inl rfl
  | piPrefix =>
    have short : n.toNat ≤ piHexTable.availableBytes := hexFractionPrefixStream_short h
    exact Or.inr short
  | ePrefix =>
    have short : n.toNat ≤ eHexTable.availableBytes := hexFractionPrefixStream_short h
    exact Or.inr short
  | sqrt2Prefix =>
    have short : n.toNat ≤ sqrt2HexTable.availableBytes := hexFractionPrefixStream_short h
    exact Or.inr short

theorem mem_everyStream {stream : ByteStream} :
    stream ∈ everyStream.streams ↔ ∃ kind n, StreamKind.stream kind n = .ok stream := by
  have opened {x : Except PiLsmError ByteStream} : x.toOption = some stream ↔ x = .ok stream := by
    cases x <;> simp [Except.toOption]
  simp only [everyStream, List.mem_flatMap, List.mem_filterMap, List.mem_range, opened]
  constructor
  · rintro ⟨kind, _, n, _, made⟩
    exact ⟨kind, _, made⟩
  · rintro ⟨kind, n, made⟩
    refine ⟨kind, by cases kind <;> simp, ?_⟩
    rcases StreamKind.stream_short made with rfl | short
    · exact ⟨0, Nat.succ_pos _, made⟩
    · exact ⟨n.toNat, Nat.lt_succ_of_le short, by rw [UInt64.ofNat_toNat]; exact made⟩

theorem everyStream_get {kind : StreamKind} {n : UInt64} {stream : ByteStream}
    (made : kind.stream n = .ok stream) : everyStream.get stream.id = some stream := by
  have member := mem_everyStream.mpr ⟨kind, n, made⟩
  obtain ⟨found, there⟩ := Option.isSome_iff_exists.mp
    (List.find?_isSome.mpr ⟨stream, member, decide_eq_true rfl⟩ :
      (everyStream.get stream.id).isSome)
  have test := List.find?_some there
  have same : found.id = stream.id := of_decide_eq_true test
  obtain ⟨kind', n', made'⟩ := mem_everyStream.mp (List.mem_of_find?_eq_some there)
  have one := ((StreamKind.stream_id made' made).mp same).equal
  cases (one.symm.trans made').symm.trans made
  exact there

/-- Whatever the options, a runtime has no other streams. -/
theorem Launch.Started.below {launch : Launch} {planOptions : PlanOptions} {db : PiLsmDb}
    (started : launch.Started planOptions db) : db.reconstructor.Below everyStream := by
  intro id stream there
  obtain ⟨kind, knows, stream', made, rfl⟩ := started.only id stream there
  obtain ⟨stream'', made', there'⟩ := started.known kind knows
  cases made'.symm.trans made
  cases there'.symm.trans there
  exact everyStream_get made

end Every

section Reads

variable {registry : StreamRegistry} {streams : List PlanStream}

omit [Digests] in
theorem reconstructFrom_literal (registry' : StreamRegistry) {chunks : List ChunkRef}
    (literal : ∀ chunk ∈ chunks, chunk.isLiteral = true) (out : Bytes) :
    reconstructFrom registry streams out chunks = reconstructFrom registry' streams out chunks := by
  induction chunks generalizing out with
  | nil => rfl
  | cons chunk chunks ih =>
    obtain ⟨first, rest⟩ := List.forall_mem_cons.mp literal
    cases chunk with
    | literal bytes => exact ih rest (out ++ bytes)
    | located => cases first

omit [Digests] in
theorem reconstructFrom_missing (unknown : ∀ entry ∈ streams, registry.get entry.id = none)
    {chunks : List ChunkRef} (located : ¬ ∀ chunk ∈ chunks, chunk.isLiteral = true) (out : Bytes) :
    reconstructFrom registry streams out chunks = .error .missingStream := by
  induction chunks generalizing out with
  | nil => exact absurd (by simp) located
  | cons chunk chunks ih =>
    cases chunk with
    | literal bytes =>
      refine ih (fun rest => located ?_) (out ++ bytes)
      exact List.forall_mem_cons.mpr ⟨rfl, rest⟩
    | located streamIx offset len transform =>
      cases there : streams[streamIx.toNat]? with
      | none => simp only [reconstructFrom, reconstructChunk, there, okOr, bind, Except.bind]
      | some entry =>
        have absent := unknown entry (List.mem_of_getElem? there)
        simp only [reconstructFrom, reconstructChunk, there, okOr, absent, bind, Except.bind]

end Reads

/-- Another runtime reads a plan just when it knows the stream that the plan was made over, or
there is nothing to read. -/
theorem runtimes_read (writer reader : Launch) (written read : PlanOptions) (a b : PiLsmDb)
    (started : writer.start written = .ok a) (started' : reader.start read = .ok b)
    (clock : Nat → Nat) (bytes : Bytes) (options : PlanOptions) (plan : ReconstructionPlan)
    (planned : a.planner.planWithOptions clock bytes options = .ok plan) :
    reconstruct b.reconstructor plan =
      if (∃ kind ∈ reader.knows,
            SameStream kind writer.plansOver read.maxPrefixLen written.maxPrefixLen) ∨
          ∀ chunk ∈ plan.chunks, chunk.isLiteral = true
      then .ok bytes else .error .missingStream := by
  obtain ⟨shared, ⟨stream, index, made, built, indexes, own⟩, _, _⟩ := Launch.started started
  have registered : a.planner.registry.get stream.id = some stream := shared ▸ own
  obtain ⟨_, _, known, only⟩ := Launch.started started'
  have rebuilt := (Planner.planWithOptions_made planned).rebuilds
  have entries : ∀ entry ∈ plan.streams, entry.id = stream.id := by
    rw [(Planner.planWithOptions_made planned).streams, Planner.planStreams, indexes]
    simp [(StreamIndex.build_built built).2]
  split
  · rename_i able
    rcases able with ⟨kind, member, same⟩ | literal
    · obtain ⟨stream', made', there⟩ := known kind member
      cases (same.equal.symm.trans made').symm.trans made
      have agree : ∀ entry ∈ plan.streams,
          b.reconstructor.get entry.id = a.planner.registry.get entry.id := by
        intro entry member
        rw [entries entry member, there, registered]
      rw [reconstruct_congr agree, rebuilt]
    · rw [← rebuilt]
      simp only [reconstruct, reconstructWithLimit,
        reconstructFrom_literal a.planner.registry literal]
  · rename_i unable
    obtain ⟨unknown, located⟩ := not_or.mp unable
    have absent : ∀ entry ∈ plan.streams, b.reconstructor.get entry.id = none := by
      intro entry member
      rw [entries entry member]
      by_contra found
      obtain ⟨found, there⟩ := Option.ne_none_iff_exists'.mp found
      obtain ⟨kind, among, stream', made', same⟩ := only stream.id found there
      exact unknown ⟨kind, among, (StreamKind.stream_id made' made).mp same⟩
    have within : ¬ (0xffffffffffffffff : UInt64) < plan.logicalLen :=
      UInt64.not_lt.mpr (le_u64_max _)
    have room : ¬ CapacityOverflow plan.logicalLen.toNat 1 := by
      rw [CapacityOverflow, Nat.mul_one, Nat.not_le]
      exact (reconstruct_ok_iff.mp rebuilt).1
    simp only [reconstruct, reconstructWithLimit, failWhen, if_neg within, if_neg room,
      checkedUsize, reconstructFrom_missing absent located, bind, Except.bind]

def shortPrefix (prefixBytes : UInt64) : PlanOptions :=
  { PlanOptions.default with maxPrefixLen := prefixBytes }

omit [Digests] in
/-- The digests of the first bytes of pi and e, and of the fingerprints of their streams. -/
@[reducible] def prefixDigests : Digests where
  blake3 b := digestOf
    (if b = [0x24] then 0xe76980f6b3cf168e48700ac616f9080f06dfe8a9b2f0227138ad524b4cc9a5f4 else 0)
  sha256 b := digestOf
    (if b = [0x24, 0x3f] then 0x3a7494a25ddba0825f3b329bd0f3c370086396e2ede4204819e1d223f85a2468
    else if b = [0x24, 0x3f, 0x6a] then
      0x7abbeed9bb5cdadec25e11f3d8d2f572d1ef69daae5282419b4bcf416c05bc88
    else if b = [0xb7, 0xe1] then
      0x8a3b2eb123d52a5c43cf837116e6f21ee787b995402b53ad106008dea126f904
    else if b = "PiLSMer prefix stream fingerprint:v1".toUTF8.toList ++ [0x24, 0x3f] then
      0xc7636757141c6085dceaca471321750674f35c8c63edcb0118e6630dc25b2605
    else if b = "PiLSMer prefix stream fingerprint:v1".toUTF8.toList ++ [0x24, 0x3f, 0x6a] then
      0xdd76bf94cbdd4727538d5b5d34143aca5048caa2b2001d40066c075e77e2591b
    else if b = "PiLSMer prefix stream fingerprint:v1".toUTF8.toList ++ [0xb7, 0xe1] then
      0x4355c0cd8745646f7fa4678f799e189030cb43ab4ceadf00e844b55ef36ff705
    else 0)
  crc32 _ := 0

omit [Digests] in
theorem runtimes_read_sample : letI := prefixDigests
    ∃ a b c plan, (Launch.runtime .piPrefix).start (shortPrefix 2) = .ok a ∧
      (Launch.migration .pi .e).start (shortPrefix 2) = .ok b ∧
      (Launch.runtime .piPrefix).start (shortPrefix 3) = .ok c ∧
      a.planner.planWithOptions stopped [0x24] .default = .ok plan ∧
      reconstruct b.reconstructor plan = .ok [0x24] ∧
      reconstruct c.reconstructor plan = .error .missingStream := by
  let _ := prefixDigests
  have first : ((Launch.runtime .piPrefix).start (shortPrefix 2)).toOption.any (fun a =>
      (a.planner.planWithOptions stopped [0x24] .default).toOption.any (fun plan =>
        !plan.chunks.all ChunkRef.isLiteral)) = true := by decide +kernel
  have second : ((Launch.migration .pi .e).start (shortPrefix 2)).toOption.isSome = true := by
    decide +kernel
  have third : ((Launch.runtime .piPrefix).start (shortPrefix 3)).toOption.isSome = true := by
    decide +kernel
  cases started : (Launch.runtime .piPrefix).start (shortPrefix 2) with
  | error => simp [started, Except.toOption] at first
  | ok a =>
    cases migrating : (Launch.migration .pi .e).start (shortPrefix 2) with
    | error => simp [migrating, Except.toOption] at second
    | ok b =>
      cases longer : (Launch.runtime .piPrefix).start (shortPrefix 3) with
      | error => simp [longer, Except.toOption] at third
      | ok c =>
        simp only [started, Except.toOption, Option.any_some] at first
        cases planned : a.planner.planWithOptions stopped [0x24] .default with
        | error => simp [planned] at first
        | ok plan =>
          simp only [planned, Option.any_some, Bool.not_eq_true', List.all_eq_false] at first
          have located : ¬ ∀ chunk ∈ plan.chunks, chunk.isLiteral = true := by
            obtain ⟨chunk, member, other⟩ := first
            exact fun literal => other (literal chunk member)
          have reads := runtimes_read (.runtime .piPrefix) (.migration .pi .e) (shortPrefix 2)
            (shortPrefix 2) a b started migrating stopped [0x24] .default plan planned
          have fails := runtimes_read (.runtime .piPrefix) (.runtime .piPrefix) (shortPrefix 2)
            (shortPrefix 3) a c started longer stopped [0x24] .default plan planned
          rw [if_pos (Or.inl ⟨.piPrefix, by decide, by decide⟩)] at reads
          rw [if_neg (not_or.mpr ⟨by decide, located⟩)] at fails
          exact ⟨a, b, c, plan, rfl, rfl, rfl, planned, reads, fails⟩

section Growth

theorem Launch.Started.indexed {launch : Launch} {planOptions : PlanOptions} {db : PiLsmDb}
    (started : launch.Started planOptions db) : ∃ stream index text,
    launch.plansOver.stream planOptions.maxPrefixLen = .ok stream ∧
    stream.readAt 0 planOptions.maxPrefixLen.toNat = .ok text ∧
    text.length = planOptions.maxPrefixLen.toNat ∧ db.planner.indexes = [index] ∧
    StreamIndex.fromPrefix stream.id stream.fingerprint text planOptions.indexOptions =
      .ok index := by
  obtain ⟨stream, index, made, built, indexes, _⟩ := started.target
  have whole := built
  simp only [StreamIndex.build, checkedUsize, except_bind_ok] at whole
  obtain ⟨_, size, text, read, _⟩ := whole
  cases size
  exact ⟨stream, index, text, made, read,
    (StreamKind.stream_lawful made).exact _ _ _ read, indexes, build_fromPrefix read built⟩

theorem hexFractionPrefixStream_nested {table : HexTable} (digits : table.Digits)
    {limitName : String} {streamId : Arr 32 → UInt64 → StreamId} {n n' : UInt64}
    {stream stream' : ByteStream} {text text' : Bytes} (fewer : n ≤ n')
    (made : hexFractionPrefixStream n table limitName streamId = .ok stream)
    (made' : hexFractionPrefixStream n' table limitName streamId = .ok stream')
    (read : stream.readAt 0 n.toNat = .ok text) (read' : stream'.readAt 0 n'.toNat = .ok text') :
    text <+: text' := by
  obtain ⟨whole, _, each⟩ := hexFractionPrefixStream_eq digits limitName streamId
  have taken : ∀ (m : UInt64) (s : ByteStream) (t : Bytes),
      hexFractionPrefixStream m table limitName streamId = .ok s →
      s.readAt 0 m.toNat = .ok t → t = whole.take m.toNat := by
    intro m s t made read
    rw [each m] at made
    split at made
    · cases made
      simp only [PrefixByteStream.new, prefixReadAt] at read
      split at read
      · cases read
      · split at read
        · cases read
        · cases read
          rw [UInt64.toNat_zero, List.drop_zero, List.take_take, Nat.min_self]
    · cases made
  rw [taken n stream text made read, taken n' stream' text' made' read']
  rw [← Nat.min_eq_left (UInt64.le_iff_toNat_le.mp fewer), ← List.take_take]
  exact List.take_prefix _ _

theorem StreamKind.nested {kind : StreamKind} {n n' : UInt64} {stream stream' : ByteStream}
    {text text' : Bytes} (fewer : n ≤ n') (made : kind.stream n = .ok stream)
    (made' : kind.stream n' = .ok stream') (read : stream.readAt 0 n.toNat = .ok text)
    (read' : stream'.readAt 0 n'.toNat = .ok text') : text <+: text' := by
  cases kind with
  | sha256Counter =>
    have lawful := StreamKind.stream_lawful made'
    cases made
    cases made'
    have front := lawful.agrees _ _ read' 0 n.toNat
      (by simpa using UInt64.le_iff_toNat_le.mp fewer)
    cases front.symm.trans read
    exact (List.take_prefix _ _).trans (List.drop_zero ▸ List.prefix_refl _)
  | piPrefix => exact hexFractionPrefixStream_nested piHexTable_digits fewer made made' read read'
  | ePrefix => exact hexFractionPrefixStream_nested eHexTable_digits fewer made made' read read'
  | sqrt2Prefix =>
    exact hexFractionPrefixStream_nested sqrt2HexTable_digits fewer made made' read read'

/-- The one index of a handle is over the first bytes of the stream that its launch plans over. -/
structure PiLsmDb.Indexes (db : PiLsmDb) (launch : Launch) (planOptions : PlanOptions)
    (index : StreamIndex) (text : Bytes) : Prop where
  only : db.planner.indexes = [index]
  made : ∃ stream, launch.plansOver.stream planOptions.maxPrefixLen = .ok stream ∧
    stream.readAt 0 planOptions.maxPrefixLen.toNat = .ok text ∧
    StreamIndex.fromPrefix stream.id stream.fingerprint text planOptions.indexOptions = .ok index
  size : text.length = planOptions.maxPrefixLen.toNat

theorem Launch.Started.indexes {launch : Launch} {planOptions : PlanOptions} {db : PiLsmDb}
    (started : launch.Started planOptions db) :
    ∃ index text, db.Indexes launch planOptions index text := by
  obtain ⟨stream, index, text, made, read, size, indexes, built⟩ := started.indexed
  exact ⟨index, text, indexes, ⟨stream, made, read, built⟩, size⟩

/-- A longer prefix of the same stream goes on where the shorter one ends. With room for its index
there is a table for every length, and no plan gets dearer. -/
theorem longer_prefix (writer reader : Launch) (same : writer.plansOver = reader.plansOver)
    (less more : PlanOptions) (a b : PiLsmDb) (started : writer.start less = .ok a)
    (started' : reader.start more = .ok b) (longer : less.maxPrefixLen ≤ more.maxPrefixLen)
    (wider : less.Wider more)
    (roomy : 24 * more.maxPrefixLen.toNat * more.maxK ≤ more.maxIndexMemoryBytes.toNat) :
    (∃ index index' text text', a.Indexes writer less index text ∧
      b.Indexes reader more index' text' ∧ text <+: text' ∧
      index'.byLen.length = min more.maxK text'.length) ∧
    ∀ (clock clock' : Nat → Nat) (bytes : Bytes) (choices : List Choice),
      more.maxPlanMillisPerValue ≠ 0 → more.Unhurried clock' →
      a.planner.chooseChunks clock bytes less = .ok choices →
      ∃ choices', b.planner.chooseChunks clock' bytes more = .ok choices' ∧
        ¬ (totalScore choices).lt (totalScore choices') := by
  obtain ⟨index, text, first⟩ := (Launch.started started).indexes
  obtain ⟨index', text', second⟩ := (Launch.started started').indexes
  obtain ⟨stream, made, read, built⟩ := first.made
  obtain ⟨stream', made', read', built'⟩ := second.made
  have nested : text <+: text' := StreamKind.nested longer (same ▸ made) made' read read'
  have full := fromPrefix_roomy (by rw [second.size]; exact roomy) built'
  have tables : index'.byLen.length = min more.maxK text'.length :=
    (fromPrefix_ok built').count.symm.trans full
  have outgrown : a.planner.Outgrown b.planner [text] [text'] := by
    intro ix found t there textThere
    rw [first.only] at there
    cases ix with
    | zero =>
      cases there
      cases textThere
      refine ⟨0, index', text', by rw [second.only]; rfl, rfl, nested, ?_⟩
      have short := fromPrefix_fits built
      have longer := nested.length_le
      have deeper := wider.maxK
      simp only [PlanOptions.indexOptions] at short full
      omega
    | succ ix => cases textThere
  refine ⟨⟨index, index', text, text', first, second, nested, tables⟩,
    fun clock clock' bytes choices budgeted unhurried chosen => ?_⟩
  exact outgrown.chosen (first.only ▸ .cons ⟨_, _, _, built⟩ .nil)
    (second.only ▸ .cons ⟨_, _, _, built'⟩ .nil) wider budgeted unhurried chosen

omit [Digests] in
theorem longer_prefix_sample : letI := prefixDigests
    ∃ a b choices choices', (Launch.runtime .piPrefix).start (shortPrefix 2) = .ok a ∧
      (Launch.migration .e .pi).start (shortPrefix 3) = .ok b ∧
      a.planner.chooseChunks stopped [0x24, 0x3f] (shortPrefix 2) = .ok choices ∧
      b.planner.chooseChunks stopped [0x24, 0x3f] (shortPrefix 3) = .ok choices' ∧
      ¬ (totalScore choices).lt (totalScore choices') := by
  let _ := prefixDigests
  have first : ((Launch.runtime .piPrefix).start (shortPrefix 2)).toOption.any (fun a =>
      (a.planner.chooseChunks stopped [0x24, 0x3f] (shortPrefix 2)).toOption.isSome) = true := by
    decide +kernel
  have second : ((Launch.migration .e .pi).start (shortPrefix 3)).toOption.isSome = true := by
    decide +kernel
  cases started : (Launch.runtime .piPrefix).start (shortPrefix 2) with
  | error => simp [started, Except.toOption] at first
  | ok a =>
    cases migrating : (Launch.migration .e .pi).start (shortPrefix 3) with
    | error => simp [migrating, Except.toOption] at second
    | ok b =>
      simp only [started, Except.toOption, Option.any_some] at first
      cases chosen : a.planner.chooseChunks stopped [0x24, 0x3f] (shortPrefix 2) with
      | error => simp [chosen] at first
      | ok choices =>
        have grown := longer_prefix (.runtime .piPrefix) (.migration .e .pi) rfl (shortPrefix 2)
          (shortPrefix 3) a b started migrating (by decide)
          ⟨by decide, fun allowed => allowed⟩ (by decide)
        obtain ⟨choices', chosen', least⟩ := grown.2 stopped stopped [0x24, 0x3f] choices
          (by decide) (fun _ => Nat.zero_le _) chosen
        exact ⟨a, b, choices, choices', rfl, rfl, chosen, chosen', least⟩

end Growth

end PiLSMer
