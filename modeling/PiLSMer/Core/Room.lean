import PiLSMer.Core.Expressible

/-! How long the plan of a value can get. A chunk covers a byte of the value at least and takes
33 bytes at most, so the limits of decode leave room for every plan of a value that is short
enough, whatever the options it was planned with. And planning fails in one way only. -/
namespace PiLSMer
open Cover Endian

section Lengths

theorem putCborMajor_length_le (major : UInt8) (value : UInt64) :
    (putCborMajor major value).length ≤ 9 := by
  unfold putCborMajor
  dsimp only
  split
  · exact Nat.le_of_ble_eq_true rfl
  split
  · exact Nat.le_of_ble_eq_true rfl
  split
  · rw [List.length_cons, toBeBytes_length]
    omega
  split
  · rw [List.length_cons, toBeBytes_length]
    omega
  · rw [List.length_cons, toBeBytes_length]

theorem putCborText_length_le (text : String) :
    (putCborText text).length ≤ 9 + text.toUTF8.toList.length := by
  rw [putCborText, List.length_append]
  exact Nat.add_le_add_right (putCborMajor_length_le _ _) _

theorem ceremonialFooter_length_le (logicalLen streamCount chunkCount : UInt64) :
    (ceremonialFooter logicalLen streamCount chunkCount).length ≤ 215 := by
  have labels : [("codec" : String), "ceremonial-cbor", "purpose", "metadata regret", "claim",
      "your data is merely located", "logical_len", "streams", "chunks"].map
      (fun label => label.toUTF8.toList.length) = [5, 15, 7, 15, 5, 27, 11, 7, 6] := by
    decide +kernel
  simp only [List.map_cons, List.map_nil, List.cons.injEq, and_true] at labels
  obtain ⟨codec, name, purpose, regret, claim, located, logical, streams, chunks⟩ := labels
  have map := putCborMajor_length_le 5 6
  have number (n : UInt64) := putCborMajor_length_le 0 n
  have := putCborText_length_le "codec"
  have := putCborText_length_le "ceremonial-cbor"
  have := putCborText_length_le "purpose"
  have := putCborText_length_le "metadata regret"
  have := putCborText_length_le "claim"
  have := putCborText_length_le "your data is merely located"
  have := putCborText_length_le "logical_len"
  have := putCborText_length_le "streams"
  have := putCborText_length_le "chunks"
  have := number logicalLen
  have := number streamCount
  have := number chunkCount
  simp only [ceremonialFooter, putCborMap, putCborU64, List.length_append]
  omega

theorem encodeFooter_length_le (plan : ReconstructionPlan) : plan.encodeFooter.length ≤ 225 := by
  unfold ReconstructionPlan.encodeFooter
  split
  · exact Nat.zero_le _
  · have := ceremonialFooter_length_le plan.logicalLen (lenU64 plan.streams.length)
      (lenU64 plan.chunks.length)
    dsimp only
    rw [List.length_append]
    have := putVarint_length_le (lenU64 (ceremonialFooter plan.logicalLen
      (lenU64 plan.streams.length) (lenU64 plan.chunks.length)).length)
    omega

theorem StreamId.encode_length_le (id : StreamId) : id.encode.length ≤ 43 := by
  cases id with
  | sha256CounterV1 seed =>
    rw [StreamId.encode, List.length_cons, seed.property]
    omega
  | piHexFractionPrefixV1 digest bytes
  | eHexFractionPrefixV1 digest bytes
  | sqrt2HexFractionPrefixV1 digest bytes =>
    have := putVarint_length_le bytes
    rw [StreamId.encode, List.length_cons, List.length_append, digest.property]
    omega

theorem PlanStream.encode_length_le (stream : PlanStream) : stream.encode.length ≤ 75 := by
  have := stream.id.encode_length_le
  rw [PlanStream.encode, List.length_append, stream.fingerprint.property]
  omega

theorem ChunkRef.Fresh.encode_length_le {streams : Nat} {c : ChunkRef} (fresh : c.Fresh streams) :
    c.encode.length ≤ 33 := by
  cases c with
  | located ix offset len transform =>
    have := putVarint_length_le ix.toUInt64
    have := putVarint_length_le offset
    have := putVarint_length_le len.toUInt64
    have : transform.encode.length ≤ 2 := by
      cases transform <;> exact Nat.le_of_ble_eq_true rfl
    simp only [ChunkRef.encode, List.length_cons, List.length_append]
    omega
  | literal bytes =>
    have one : bytes.length = 1 := fresh
    have := putVarint_length_le (lenU64 bytes.length)
    simp only [ChunkRef.encode, List.length_cons, List.length_append]
    omega

theorem ChunkRef.Fresh.size_pos {streams : Nat} {c : ChunkRef} (fresh : c.Fresh streams) :
    1 ≤ c.size ∧ c.size ≤ 8 := by
  cases c with
  | located ix offset len transform => exact ⟨fresh.2.1, fresh.2.2.1⟩
  | literal bytes =>
    have one : bytes.length = 1 := fresh
    exact ⟨Nat.le_of_eq one.symm, by rw [ChunkRef.size, one]; omega⟩

theorem flatMap_length_le {α : Type} {write : α → Bytes} {bound : Nat} {xs : List α}
    (each : ∀ x ∈ xs, (write x).length ≤ bound) :
    (xs.flatMap write).length ≤ bound * xs.length := by
  induction xs with
  | nil => exact Nat.zero_le _
  | cons x xs ih =>
    obtain ⟨first, rest⟩ := List.forall_mem_cons.mp each
    rw [List.flatMap_cons, List.length_append, List.length_cons, Nat.mul_succ, Nat.add_comm]
    exact Nat.add_le_add (ih rest) first

end Lengths

/-- Room for every plan of n bytes over so many streams. -/
structure DecodeLimits.Roomy (limits : DecodeLimits) (streams n : Nat) : Prop where
  logical : n ≤ limits.maxLogicalLen.toNat
  encoded : 258 + 75 * streams + 33 * n ≤ limits.maxEncodedPlanLen.toNat
  streamCount : streams ≤ limits.maxStreamsPerPlan.toNat
  chunkCount : n ≤ limits.maxChunkCount.toNat
  capacity : n < 2 ^ 58
  chunkLen : 8 ≤ limits.maxChunkLen.toNat

section Made

variable [Digests] {p : Planner} {clock : Nat → Nat} {bytes : Bytes} {options : PlanOptions}
  {plan : ReconstructionPlan}

theorem Planner.Made.chunks_length_le (made : p.Made bytes options plan) :
    plan.chunks.length ≤ bytes.length := by
  have ones : (plan.chunks.map (fun _ => 1)).sum ≤ coveredSize plan.chunks :=
    List.sum_le_sum (fun c member => (made.chunks c member).size_pos.1)
  rw [List.map_const', List.sum_replicate_nat, Nat.mul_one, made.covered] at ones
  exact ones

theorem Planner.Made.payload_length_le (made : p.Made bytes options plan) :
    plan.encodePayload.length ≤ 258 + 75 * p.indexes.length + 33 * bytes.length := by
  have streams : (plan.streams.flatMap PlanStream.encode).length ≤ 75 * plan.streams.length :=
    flatMap_length_le (fun stream _ => stream.encode_length_le)
  have chunks : (plan.chunks.flatMap ChunkRef.encode).length ≤ 33 * plan.chunks.length :=
    flatMap_length_le (fun c member => (made.chunks c member).encode_length_le)
  have count : plan.streams.length = p.indexes.length := by
    rw [made.streams, Planner.planStreams, List.length_map]
  have few := made.chunks_length_le
  have footer := encodeFooter_length_le plan
  have := putVarint_length_le plan.logicalLen
  have := putVarint_length_le (lenU64 plan.streams.length)
  have := putVarint_length_le (lenU64 plan.chunks.length)
  have version : (putU16Le plan.plannerVersion).length = 2 := toLeBytes_length 2 _
  simp only [ReconstructionPlan.encodePayload, List.length_append, List.length_singleton]
  omega

omit [Digests] in
theorem covers_near {bound : UInt64} (near : ∀ index ∈ p.indexes, index.prefixLen ≤ bound)
    {i : Nat} {choices : List Choice} (covered : (p.problem bytes options).Covers i choices) :
    ∀ choice ∈ choices, choice.toChunk.offset ≤ bound := by
  unfold Problem.Covers at covered
  induction covered with
  | done => exact fun _ none => (by cases none)
  | @step i choice rest offered _ ih =>
    refine List.forall_mem_cons.mpr ⟨?_, ih⟩
    rcases Planner.mem_candidatesAt.mp offered with ⟨_, _, _, _, located⟩ | ⟨_, _, _, rfl⟩
    · obtain ⟨ix, index, there, found, member, rfl⟩ := mem_locatedChoices.mp located
      have among := List.mem_of_getElem? there
      obtain ⟨_, _, _, inside⟩ := (p.built index among).candidate member
      have far := UInt64.le_iff_toNat_le.mp (near index among)
      rw [Choice.toChunk, ChunkRef.offset, UInt64.le_iff_toNat_le]
      omega
    · exact UInt64.zero_le

/-- With room for it, no plan of a short value is turned down. -/
theorem Planner.planWithOptions_admitted {limits : DecodeLimits} {n : Nat}
    (roomy : limits.Roomy p.indexes.length n)
    (near : ∀ index ∈ p.indexes, index.prefixLen ≤ limits.maxOffset) (short : bytes.length ≤ n)
    (planned : p.planWithOptions clock bytes options = .ok plan) : plan.Admitted limits := by
  have made := Planner.planWithOptions_made planned
  have small : bytes.length < 2 ^ 64 :=
    Nat.lt_of_le_of_lt (short.trans roomy.logical) limits.maxLogicalLen.toNat_lt
  have payload := made.payload_length_le
  have few := made.chunks_length_le
  have encoded := roomy.encoded
  constructor
  · rw [made.logicalLen, UInt64.le_iff_toNat_le, lenU64_toNat small]
    exact short.trans roomy.logical
  · omega
  · rw [made.streams, Planner.planStreams, List.length_map]
    exact roomy.streamCount
  · exact (few.trans short).trans roomy.chunkCount
  · exact Nat.lt_of_le_of_lt (few.trans short) roomy.capacity
  · exact fun c member => (made.chunks c member).size_pos.2.trans roomy.chunkLen
  · obtain ⟨choices, chosen, rfl⟩ := Planner.planWithOptions_chunks planned
    exact List.forall_mem_map.mpr (covers_near near (Planner.chooseChunks_picks chosen).covers)

end Made

section Settings

variable (p : Planner) (settings : PlanOptions) (clock : Nat → Nat) (bytes : Bytes)
  (options : PlanOptions)

theorem Planner.fill_settings (budget i : Nat) (dp : List (Option State)) :
    Planner.fill { p with options := settings } clock budget bytes options i dp =
      p.fill clock budget bytes options i dp := by
  induction i generalizing dp with
  | zero => rfl
  | succ i ih =>
    rw [Planner.fill, Planner.fill]
    exact congrArg _ (funext (fun _ => ih _))

/-- A planner plans with the options it is given, not with its own. -/
theorem Planner.planWithOptions_settings [Digests] :
    Planner.planWithOptions { p with options := settings } clock bytes options =
      p.planWithOptions clock bytes options := by
  simp only [Planner.planWithOptions, Planner.chooseChunks, Planner.fill_settings]
  rfl

end Settings

section Failed

variable {p : Planner} {texts : List Bytes} {clock : Nat → Nat} {bytes : Bytes}
  {options : PlanOptions} {e : PiLsmError}

theorem okOr_error {α : Type} {x : Option α} {e e' : PiLsmError} (h : okOr x e = .error e') :
    e' = e := by
  cases x with
  | some a => cases h
  | none => exact (Except.error.inj h).symm

theorem Planner.fill_error {budget i : Nat} {dp : List (Option State)}
    (failed : p.fill clock budget bytes options i dp = .error e) :
    ∃ reason, e = .planningFailed reason := by
  induction i generalizing dp with
  | zero => cases failed
  | succ i ih =>
    rw [Planner.fill, except_bind_error] at failed
    rcases failed with late | ⟨_, _, rest⟩
    · exact ⟨_, (failWhen_error.mp late).2.symm⟩
    · exact ih rest

theorem walk_error {dp : List (Option State)} {n rounds i : Nat}
    (failed : walk dp n rounds i = .error e) : ∃ reason, e = .planningFailed reason := by
  induction rounds generalizing i with
  | zero => cases failed
  | succ rounds ih =>
    unfold walk at failed
    split at failed
    · cases failed
    · rcases except_bind_error.mp failed with uncovered | ⟨state, _, failed⟩
      · exact ⟨_, okOr_error uncovered⟩
      rcases except_bind_error.mp failed with missing | ⟨choice, _, failed⟩
      · exact ⟨_, okOr_error missing⟩
      rcases except_bind_error.mp failed with rest | ⟨_, _, never⟩
      · exact ih rest
      · cases never

theorem Planner.chooseChunks_error (failed : p.chooseChunks clock bytes options = .error e) :
    ∃ reason, e = .planningFailed reason := by
  rcases except_bind_error.mp failed with spent | ⟨_, _, failed⟩
  · exact ⟨_, (failWhen_error.mp spent).2.symm⟩
  rcases except_bind_error.mp failed with unfilled | ⟨_, _, failed⟩
  · exact Planner.fill_error unfilled
  · exact walk_error failed

/-- Over the texts that were indexed the self-check of the planner is silent, whatever the clock
reads: planning fails because it takes too long or finds no cover. -/
theorem Planner.planWithOptions_error [Digests] (registered : p.Registered texts)
    (lawful : ∀ stream ∈ p.registry.streams, stream.Lawful) (few : p.indexes.length ≤ 2 ^ 32)
    (short : bytes.length < 2 ^ 63) (failed : p.planWithOptions clock bytes options = .error e) :
    ∃ reason, e = .planningFailed reason := by
  cases chosen : p.chooseChunks clock bytes options with
  | error e' =>
    rw [Planner.planWithOptions, chosen] at failed
    cases failed
    exact Planner.chooseChunks_error chosen
  | ok choices =>
    have covers := (Planner.chooseChunks_picks chosen).covers
    have run := (reconstructFrom_cover_iff registered lawful covers []).mpr
      (Planner.covers_survive few covers)
    rw [Planner.planWithOptions_of_run short chosen run] at failed
    cases failed

end Failed

end PiLSMer
