import PiLSMer.Core.Reconstruct
import PiLSMer.Core.Roundtrip
import PiLSMer.Core.StreamIndex

/-! The planner of planner.rs: a table of cheapest covers, filled from the end of the value,
and a walk through it from the start. The clock is an argument; a plan does not depend on
it unless the time budget fires. -/
namespace PiLSMer

structure PlanOptions where
  maxPrefixLen : UInt64
  maxK : Nat
  maxIndexMemoryBytes : UInt64
  maxOffsetsPerKgram : UInt16
  maxPlanMillisPerValue : UInt64
  allowLiterals : Bool
  planCodec : PlanCodec
  logicalHashKind : LogicalHashKind
  deriving DecidableEq, Repr

def PlanOptions.default : PlanOptions where
  maxPrefixLen := 16 * 1024 * 1024
  maxK := 3
  maxIndexMemoryBytes := 256 * 1024 * 1024
  maxOffsetsPerKgram := 4
  maxPlanMillisPerValue := 500
  allowLiterals := false
  planCodec := .compactBinary
  logicalHashKind := .blake3_128

def PLANNER_VERSION : UInt16 := 1

/-- A planner holds indexes that from_prefix built. -/
structure Planner where
  indexes : List StreamIndex
  registry : StreamRegistry
  options : PlanOptions
  built : ∀ index ∈ indexes, index.Built

def Planner.streamPrefixBytesIndexed (p : Planner) : UInt64 :=
  (p.indexes.map (·.prefixLen)).foldl (· + ·) 0

inductive Choice where
  | located (streamIx : Nat) (offset : UInt64) (len : Nat) (encodedCost readCostHint : UInt16)
  | literal (byte : UInt8)
  deriving DecidableEq, Repr

def Choice.len : Choice → Nat
  | .located _ _ len _ _ => len
  | .literal _ => 1

/-- The sums stay far below 2^64: the table of a value fits in memory. -/
structure Score where
  encodedBytes : Nat
  chunks : Nat
  readCost : Nat
  deriving DecidableEq, Repr

/-- The derived lexicographic order. -/
def Score.lt (a b : Score) : Prop :=
  a.encodedBytes < b.encodedBytes ∨ (a.encodedBytes = b.encodedBytes ∧
    (a.chunks < b.chunks ∨ (a.chunks = b.chunks ∧ a.readCost < b.readCost)))

instance (a b : Score) : Decidable (a.lt b) := by unfold Score.lt; infer_instance

def Score.zero : Score := ⟨0, 0, 0⟩

def Score.combine (a b : Score) : Score :=
  ⟨a.encodedBytes + b.encodedBytes, a.chunks + b.chunks, a.readCost + b.readCost⟩

def Choice.score : Choice → Score
  | .located _ _ _ encodedCost readCostHint => ⟨encodedCost.toNat, 1, readCostHint.toNat⟩
  | .literal _ => ⟨3 + (varintLen 1).toNat, 1, 0⟩

structure State where
  score : Score
  choice : Option Choice
  deriving DecidableEq, Repr

def locatedChoices (indexes : List StreamIndex) (needle : Bytes) : List Choice :=
  indexes.zipIdx.flatMap (fun (index, streamIx) => (index.findCandidates needle).map
    (fun found => .located streamIx found.offset found.len.toNat found.encodedCost
      found.readCostHint))

def literalChoice (options : PlanOptions) (bytes : Bytes) (pos : Nat) : List Choice :=
  if options.allowLiterals then (bytes[pos]?).toList.map Choice.literal else []

def Planner.candidatesAt (p : Planner) (bytes : Bytes) (pos : Nat) (options : PlanOptions) :
    List Choice :=
  let remaining := bytes.length - pos
  let maxK := min options.maxK remaining
  (List.range' 1 maxK).flatMap
    (fun len => locatedChoices p.indexes ((bytes.drop pos).take len)) ++
  literalChoice options bytes pos

/-- One candidate against the best so far. The table starts at the position being filled,
whose own entry is still empty. -/
def betterOf (dp : List (Option State)) (best : Option State) (candidate : Choice) :
    Option State :=
  match (dp[candidate.len]?).join with
  | none => best
  | some nextState =>
    let score := candidate.score.combine nextState.score
    if best.all (fun current => score.lt current.score) then some ⟨score, some candidate⟩ else best

/-- The loop for i in (0..n).rev(). The table holds the positions from i on. -/
def Planner.fill (p : Planner) (clock : Nat → Nat) (budget : Nat) (bytes : Bytes)
    (options : PlanOptions) : Nat → List (Option State) → Except PiLsmError (List (Option State))
  | 0, dp => pure dp
  | i + 1, dp => do
    failWhen (i % 64 = 0 ∧ budget < clock i) (.planningFailed "planning budget exceeded")
    let best := (p.candidatesAt bytes i options).foldl (betterOf (none :: dp)) none
    p.fill clock budget bytes options i (best :: dp)

/-- The loop while i < n. Every choice moves i on, so n rounds are enough. -/
def walk (dp : List (Option State)) (n : Nat) : Nat → Nat → Except PiLsmError (List Choice)
  | 0, _ => pure []
  | rounds + 1, i =>
    if n ≤ i then pure [] else do
      let state ← okOr (dp[i]?).join (.planningFailed "target cannot be covered")
      let choice ← okOr state.choice (.planningFailed "missing planner choice")
      let rest ← walk dp n rounds (i + choice.len)
      pure (choice :: rest)

def PlanOptions.budget (options : PlanOptions) : Nat :=
  options.maxPlanMillisPerValue.toNat * 1000000

def Planner.chooseChunks (p : Planner) (clock : Nat → Nat) (bytes : Bytes)
    (options : PlanOptions) : Except PiLsmError (List Choice) := do
  failWhen (options.maxPlanMillisPerValue = 0) (.planningFailed "planning budget exceeded")
  let n := bytes.length
  let dp ← p.fill clock options.budget bytes options n [some ⟨.zero, none⟩]
  walk dp n n 0

def Choice.toChunk : Choice → ChunkRef
  | .located streamIx offset len _ _ =>
    .located (UInt32.ofNat streamIx) offset (UInt32.ofNat len) .identity
  | .literal byte => .literal [byte]

def Planner.planStreams (p : Planner) : List PlanStream :=
  p.indexes.map (fun index => ⟨index.streamId, index.streamFingerprint⟩)

def Planner.assemble [Digests] (p : Planner) (bytes : Bytes) (options : PlanOptions)
    (choices : List Choice) : ReconstructionPlan where
  logicalLen := lenU64 bytes.length
  logicalHash := LogicalHash.new options.logicalHashKind bytes
  plannerVersion := PLANNER_VERSION
  planCodec := options.planCodec
  streams := p.planStreams
  chunks := choices.map Choice.toChunk

def Planner.planWithOptions [Digests] (p : Planner) (clock : Nat → Nat) (bytes : Bytes)
    (options : PlanOptions) : Except PiLsmError ReconstructionPlan := do
  let choices ← p.chooseChunks clock bytes options
  let plan := p.assemble bytes options choices
  let reconstructed ← reconstruct p.registry plan
  failWhen (reconstructed ≠ bytes) .logicalHashMismatch
  pure plan

def Planner.plan [Digests] (p : Planner) (clock : Nat → Nat) (bytes : Bytes) :
    Except PiLsmError ReconstructionPlan :=
  p.planWithOptions clock bytes p.options

def Choice.Fits (streams remaining : Nat) : Choice → Prop
  | .located streamIx offset len _ _ =>
    streamIx < streams ∧ 0 < len ∧ len ≤ 8 ∧ len ≤ remaining ∧ offset.toNat + len < 2 ^ 64
  | .literal _ => 0 < remaining

theorem Planner.candidatesAt_fits (p : Planner) (bytes : Bytes) (pos : Nat)
    (options : PlanOptions) :
    ∀ c ∈ p.candidatesAt bytes pos options, c.Fits p.indexes.length (bytes.length - pos) := by
  intro c hc
  rcases List.mem_append.mp hc with hc | hc
  · obtain ⟨len, hlen, hc⟩ := List.mem_flatMap.mp hc
    obtain ⟨⟨index, ix⟩, hix, hc⟩ := List.mem_flatMap.mp hc
    obtain ⟨found, hfound, rfl⟩ := List.mem_map.mp hc
    obtain ⟨_, lt, member⟩ := List.mem_zipIdx hix
    have built := p.built index (member ▸ List.getElem_mem _)
    obtain ⟨size, positive, short, inPrefix⟩ := built.candidate hfound
    have bound : index.prefixLen.toNat < 2 ^ 64 := index.prefixLen.toNat_lt
    have taken : ((bytes.drop pos).take len).length ≤ bytes.length - pos := by
      rw [List.length_take, List.length_drop]
      exact Nat.min_le_right _ _
    refine ⟨by omega, by omega, by omega, by omega, by omega⟩
  · unfold literalChoice at hc
    split at hc
    · obtain ⟨b, hb, rfl⟩ := List.mem_map.mp hc
      have there : bytes[pos]? = some b := by
        cases h : bytes[pos]? with
        | none => simp [h] at hb
        | some x => simp_all
      have := (List.getElem?_eq_some_iff.mp there).1
      change 0 < bytes.length - pos
      omega
    · simp at hc

theorem betterOf_choice (dp : List (Option State)) (candidates : List Choice)
    (best : Option State) (state : State)
    (h : candidates.foldl (betterOf dp) best = some state) :
    best = some state ∨ ∃ c ∈ candidates, state.choice = some c := by
  induction candidates generalizing best with
  | nil => exact Or.inl h
  | cons c cs ih =>
    rcases ih (betterOf dp best c) h with same | ⟨d, hd, eq⟩
    · unfold betterOf at same
      split at same
      · exact Or.inl same
      · dsimp only at same
        split at same
        · cases same
          exact Or.inr ⟨c, List.mem_cons_self .., rfl⟩
        · exact Or.inl same
    · exact Or.inr ⟨d, List.mem_cons_of_mem _ hd, eq⟩

/-- Position j of a table from i on holds a candidate of i + j or the empty cover of the end. -/
def Planner.TableFits (p : Planner) (n i : Nat) (dp : List (Option State)) : Prop :=
  ∀ (j : Nat) (state : State) (choice : Choice), dp[j]? = some (some state) →
    state.choice = some choice → choice.Fits p.indexes.length (n - (i + j))

theorem Planner.fill_fits {p : Planner} {clock : Nat → Nat} {budget : Nat} {bytes : Bytes}
    {options : PlanOptions} {i : Nat} {dp filled : List (Option State)}
    (sofar : p.TableFits bytes.length i dp)
    (h : p.fill clock budget bytes options i dp = .ok filled) :
    p.TableFits bytes.length 0 filled := by
  induction i generalizing dp with
  | zero =>
    cases h
    exact sofar
  | succ i ih =>
    simp only [Planner.fill, except_bind_ok, failWhen_ok] at h
    obtain ⟨_, _, h⟩ := h
    refine ih ?_ h
    intro j state choice there chosen
    cases j with
    | zero =>
      simp only [List.getElem?_cons_zero, Option.some.injEq] at there
      rcases betterOf_choice _ _ _ _ there with none | ⟨c, hc, eq⟩
      · cases none
      · rw [chosen] at eq
        cases eq
        exact p.candidatesAt_fits bytes i options choice hc
    | succ j =>
      have := sofar j state choice there chosen
      rwa [Nat.add_assoc, Nat.add_comm 1 j] at this

theorem walk_covers {p : Planner} {dp : List (Option State)} {n : Nat}
    (fits : p.TableFits n 0 dp) {rounds i : Nat} {choices : List Choice}
    (enough : n ≤ i + rounds) (h : walk dp n rounds i = .ok choices) :
    (∀ c ∈ choices, ∃ remaining, c.Fits p.indexes.length remaining) ∧
      (choices.map Choice.len).sum = n - i := by
  induction rounds generalizing i choices with
  | zero =>
    cases h
    simp
    omega
  | succ rounds ih =>
    unfold walk at h
    split at h
    · cases h
      simp
      omega
    · rename_i more
      simp only [except_bind_ok, except_pure_ok] at h
      obtain ⟨state, here, choice, chosen, rest, tail, rfl⟩ := h
      have stored : dp[i]? = some (some state) := by
        cases hd : dp[i]? with
        | none => simp [hd, okOr] at here
        | some entry => cases entry <;> simp_all [okOr]
      have picked : state.choice = some choice := by
        cases hs : state.choice <;> simp_all [okOr]
      have this := fits i state choice stored picked
      rw [Nat.zero_add] at this
      have step : 0 < choice.len ∧ choice.len ≤ n - i := by
        cases choice with
        | located => exact ⟨this.2.1, this.2.2.2.1⟩
        | literal => exact ⟨Nat.one_pos, this⟩
      obtain ⟨each, total⟩ := ih (by omega) tail
      refine ⟨?_, ?_⟩
      · intro c hc
        rcases List.mem_cons.mp hc with rfl | hc
        · exact ⟨n - i, this⟩
        · exact each c hc
      · rw [List.map_cons, List.sum_cons, total]
        omega

def ChunkRef.Fresh (streamCount : Nat) : ChunkRef → Prop
  | .located streamIx offset len _ =>
    streamIx.toNat < streamCount ∧ 0 < len.toNat ∧ len.toNat ≤ 8 ∧ offset.toNat + len.toNat < 2 ^ 64
  | .literal bytes => bytes.length = 1

theorem Choice.Fits.fresh {streams remaining : Nat} {c : Choice} (h : c.Fits streams remaining) :
    c.toChunk.Fresh streams ∧ c.toChunk.size = c.len := by
  cases c with
  | located ix offset len _ _ =>
    obtain ⟨inRange, positive, short, _, fits⟩ := h
    have size : (UInt32.ofNat len).toNat = len := by
      rw [UInt32.toNat_ofNat']
      omega
    have low : (UInt32.ofNat ix).toNat ≤ ix := by
      rw [UInt32.toNat_ofNat']
      exact Nat.mod_le ix _
    refine ⟨⟨by omega, by omega, by omega, by omega⟩, size⟩
  | literal byte => exact ⟨rfl, rfl⟩

/-- Everything a caller may rely on in a plan the planner returned. -/
structure Planner.Made [Digests] (p : Planner) (bytes : Bytes) (options : PlanOptions)
    (plan : ReconstructionPlan) : Prop where
  rebuilds : reconstruct p.registry plan = .ok bytes
  logicalLen : plan.logicalLen = lenU64 bytes.length
  logicalHash : plan.logicalHash = LogicalHash.new options.logicalHashKind bytes
  streams : plan.streams = p.planStreams
  chunks : ∀ c ∈ plan.chunks, c.Fresh plan.streams.length
  covered : coveredSize plan.chunks = bytes.length

theorem Planner.chooseChunks_covers {p : Planner} {clock : Nat → Nat} {bytes : Bytes}
    {options : PlanOptions} {choices : List Choice}
    (h : p.chooseChunks clock bytes options = .ok choices) :
    (∀ c ∈ choices, ∃ remaining, c.Fits p.indexes.length remaining) ∧
      (choices.map Choice.len).sum = bytes.length := by
  simp only [Planner.chooseChunks, except_bind_ok, failWhen_ok] at h
  obtain ⟨_, _, dp, filled, walked⟩ := h
  have start : p.TableFits bytes.length bytes.length [some ⟨.zero, none⟩] := by
    intro j state choice there chosen
    cases j with
    | zero =>
      cases there
      cases chosen
    | succ j => simp at there
  exact walk_covers (Planner.fill_fits start filled) (by omega) walked

theorem Planner.planWithOptions_made [Digests] {p : Planner} {clock : Nat → Nat} {bytes : Bytes}
    {options : PlanOptions} {plan : ReconstructionPlan}
    (h : p.planWithOptions clock bytes options = .ok plan) : p.Made bytes options plan := by
  simp only [Planner.planWithOptions, except_bind_ok, failWhen_ok, except_pure_ok, ne_eq,
    Decidable.not_not] at h
  obtain ⟨choices, chosen, _, rebuilt, _, rfl, rfl⟩ := h
  obtain ⟨each, total⟩ := Planner.chooseChunks_covers chosen
  have streamCount : p.planStreams.length = p.indexes.length := by simp [Planner.planStreams]
  refine ⟨rebuilt, rfl, rfl, rfl, ?_, ?_⟩
  · intro c hc
    obtain ⟨choice, hchoice, rfl⟩ := List.mem_map.mp hc
    obtain ⟨remaining, fits⟩ := each choice hchoice
    change choice.toChunk.Fresh p.planStreams.length
    rw [streamCount]
    exact fits.fresh.1
  · rw [← total]
    simp only [coveredSize, Planner.assemble, List.map_map]
    congr 1
    apply List.map_congr_left
    intro choice hchoice
    obtain ⟨remaining, fits⟩ := each choice hchoice
    exact fits.fresh.2

def ChunkRef.offset : ChunkRef → UInt64
  | .located _ offset _ _ => offset
  | .literal _ => 0

/-- The limits of decode that a fresh plan may exceed. -/
structure ReconstructionPlan.Admitted (limits : DecodeLimits) (plan : ReconstructionPlan) :
    Prop where
  logical : plan.logicalLen ≤ limits.maxLogicalLen
  encoded : plan.encodePayload.length ≤ limits.maxEncodedPlanLen.toNat
  streamCount : plan.streams.length ≤ limits.maxStreamsPerPlan.toNat
  chunkCount : plan.chunks.length ≤ limits.maxChunkCount.toNat
  capacity : plan.chunks.length < 2 ^ 58
  chunkLen : ∀ c ∈ plan.chunks, c.size ≤ limits.maxChunkLen.toNat
  offset : ∀ c ∈ plan.chunks, c.offset ≤ limits.maxOffset

theorem ReconstructionPlan.WellFormed.admitted_iff {limits limits' : DecodeLimits}
    {plan : ReconstructionPlan} (h : plan.WellFormed limits) :
    plan.WellFormed limits' ↔ plan.Admitted limits' := by
  have each : ∀ c ∈ plan.chunks, c.WithinLimits limits' plan.streams.length ↔
      c.size ≤ limits'.maxChunkLen.toNat ∧ c.offset ≤ limits'.maxOffset := by
    intro c hc
    have within := h.chunks c hc
    cases c with
    | located ix offset len transform =>
      obtain ⟨inRange, positive, _, _, fits⟩ := within
      simp only [ChunkRef.WithinLimits, ChunkRef.size, ChunkRef.offset, UInt32.le_iff_toNat_le]
      exact ⟨fun h => ⟨h.2.2.1, h.2.2.2.1⟩, fun h => ⟨inRange, positive, h.1, h.2, fits⟩⟩
    | literal bytes => exact ⟨fun h => ⟨h.2, UInt64.zero_le⟩, fun h => ⟨within.1, h.1⟩⟩
  constructor
  · intro wf
    exact ⟨wf.logical, wf.encoded, wf.streamCount, wf.chunkCount, wf.capacity,
      fun c hc => ((each c hc).mp (wf.chunks c hc)).1,
      fun c hc => ((each c hc).mp (wf.chunks c hc)).2⟩
  · intro admitted
    exact ⟨⟨fun c hc => (each c hc).mpr ⟨admitted.chunkLen c hc, admitted.offset c hc⟩,
      h.covered, admitted.logical, admitted.streamCount, admitted.chunkCount, admitted.capacity⟩,
      admitted.encoded⟩

theorem ChunkRef.Fresh.withinLimits_iff {limits : DecodeLimits} {n : Nat} {c : ChunkRef}
    (h : c.Fresh n) :
    c.WithinLimits limits n ↔ c.size ≤ limits.maxChunkLen.toNat ∧ c.offset ≤ limits.maxOffset := by
  cases c with
  | located ix offset len transform =>
    obtain ⟨inRange, positive, _, fits⟩ := h
    simp only [ChunkRef.WithinLimits, ChunkRef.size, ChunkRef.offset, UInt32.le_iff_toNat_le]
    constructor
    · rintro ⟨_, _, short, low, _⟩
      exact ⟨short, low⟩
    · rintro ⟨short, low⟩
      exact ⟨inRange, positive, short, low, fits⟩
  | literal bytes =>
    have one : bytes.length = 1 := h
    simp only [ChunkRef.WithinLimits, ChunkRef.size, ChunkRef.offset]
    constructor
    · exact fun within => ⟨within.2, UInt64.zero_le⟩
    · exact fun within => ⟨by omega, within.1⟩

theorem Planner.Made.wellFormed_iff [Digests] {p : Planner} {bytes : Bytes}
    {options : PlanOptions} {plan : ReconstructionPlan} (h : p.Made bytes options plan)
    (small : bytes.length < 2 ^ 64) (limits : DecodeLimits) :
    plan.WellFormed limits ↔ plan.Admitted limits := by
  constructor
  · intro wf
    have each := fun c hc => (h.chunks c hc).withinLimits_iff.mp (wf.chunks c hc)
    exact ⟨wf.logical, wf.encoded, wf.streamCount, wf.chunkCount, wf.capacity,
      fun c hc => (each c hc).1, fun c hc => (each c hc).2⟩
  · intro admitted
    refine ⟨⟨fun c hc => ?_, ?_, admitted.logical, admitted.streamCount, admitted.chunkCount,
      admitted.capacity⟩, admitted.encoded⟩
    · exact (h.chunks c hc).withinLimits_iff.mpr ⟨admitted.chunkLen c hc, admitted.offset c hc⟩
    · rw [h.covered, h.logicalLen, lenU64_toNat small]

theorem Planner.Made.decodes [Digests] {p : Planner} {bytes : Bytes} {options : PlanOptions}
    {plan : ReconstructionPlan} (h : p.Made bytes options plan) (small : bytes.length < 2 ^ 64)
    {limits : DecodeLimits} (admitted : plan.Admitted limits) :
    ValueEnvelope.decode (ValueEnvelope.plan plan).encode limits = .ok (.plan plan) :=
  decode_encode_plan.mpr ⟨(h.wellFormed_iff small limits).mpr admitted, rfl⟩

theorem Planner.Made.logicalLen_le [Digests] {p : Planner} {bytes : Bytes}
    {options : PlanOptions} {plan : ReconstructionPlan} (h : p.Made bytes options plan)
    {limit : UInt64} (within : bytes.length ≤ limit.toNat) : plan.logicalLen ≤ limit := by
  have small : bytes.length < 2 ^ 64 := Nat.lt_of_le_of_lt within limit.toNat_lt
  rw [h.logicalLen, UInt64.le_iff_toNat_le, lenU64_toNat small]
  exact within

def stopped : Nat → Nat := fun _ => 0

def Planner.Admits [Digests] (p : Planner) (limits : DecodeLimits) (bytes : Bytes)
    (options : PlanOptions) : Prop :=
  ∀ plan, p.planWithOptions stopped bytes options = .ok plan → plan.Admitted limits

theorem Planner.fill_stopped {p : Planner} {clock : Nat → Nat} {budget : Nat} {bytes : Bytes}
    {options : PlanOptions} {i : Nat} {dp filled : List (Option State)}
    (h : p.fill clock budget bytes options i dp = .ok filled) :
    p.fill stopped budget bytes options i dp = .ok filled := by
  induction i generalizing dp with
  | zero => exact h
  | succ i ih =>
    have still : ¬ (i % 64 = 0 ∧ budget < stopped i) := by simp [stopped]
    simp only [Planner.fill, except_bind_ok, failWhen_ok] at h ⊢
    obtain ⟨_, _, h⟩ := h
    exact ⟨(), still, ih h⟩

/-- The clock can only make planning fail; a plan that is found does not depend on it. -/
theorem Planner.planWithOptions_stopped [Digests] {p : Planner} {clock : Nat → Nat}
    {bytes : Bytes} {options : PlanOptions} {plan : ReconstructionPlan}
    (h : p.planWithOptions clock bytes options = .ok plan) :
    p.planWithOptions stopped bytes options = .ok plan := by
  simp only [Planner.planWithOptions, Planner.chooseChunks, except_bind_ok, failWhen_ok] at h ⊢
  obtain ⟨choices, ⟨u, budgeted, dp, filled, walked⟩, rest⟩ := h
  exact ⟨choices, ⟨u, budgeted, dp, Planner.fill_stopped filled, walked⟩, rest⟩

theorem Planner.Admits.plan [Digests] {p : Planner} {limits : DecodeLimits}
    {clock : Nat → Nat} {bytes : Bytes} {options : PlanOptions} {plan : ReconstructionPlan}
    (admits : p.Admits limits bytes options)
    (h : p.planWithOptions clock bytes options = .ok plan) : plan.Admitted limits :=
  admits plan (Planner.planWithOptions_stopped h)

theorem Planner.fill_unhurried {p : Planner} {clock : Nat → Nat} {budget : Nat}
    (unhurried : ∀ i, clock i ≤ budget) (bytes : Bytes) (options : PlanOptions) (i : Nat)
    (dp : List (Option State)) :
    p.fill clock budget bytes options i dp = p.fill stopped budget bytes options i dp := by
  induction i generalizing dp with
  | zero => rfl
  | succ i ih =>
    have calm : ¬ (i % 64 = 0 ∧ budget < clock i) := fun h => by
      have := unhurried i
      omega
    have still : ¬ (i % 64 = 0 ∧ budget < stopped i) := by simp [stopped]
    simp only [Planner.fill, failWhen, if_neg calm, if_neg still, ih]

def PlanOptions.Unhurried (options : PlanOptions) (clock : Nat → Nat) : Prop :=
  ∀ i, clock i ≤ options.budget

theorem Planner.planWithOptions_unhurried [Digests] (p : Planner) {clock : Nat → Nat}
    {options : PlanOptions} (unhurried : options.Unhurried clock) (bytes : Bytes) :
    p.planWithOptions clock bytes options = p.planWithOptions stopped bytes options := by
  simp only [Planner.planWithOptions, Planner.chooseChunks,
    Planner.fill_unhurried unhurried bytes options]

def barePlanner (allowLiterals : Bool) : Planner where
  indexes := []
  registry := ⟨[]⟩
  options := { PlanOptions.default with allowLiterals }
  built := by simp

def samplePlan : ReconstructionPlan where
  logicalLen := 1
  logicalHash := ⟨.blake3_128, ⟨(sampleRawFrame.drop 12).take 16, rfl⟩⟩
  plannerVersion := 1
  planCodec := .compactBinary
  streams := []
  chunks := [.literal [0x61]]

def narrowLimits : DecodeLimits := { DecodeLimits.default with maxEncodedPlanLen := 8 }

end PiLSMer
