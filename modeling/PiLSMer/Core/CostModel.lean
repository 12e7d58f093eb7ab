import PiLSMer.Core.Optimal

/-! The planner's encoded bytes against the bytes of the plan. The score charges a literal one
byte too much and a stream number one byte however long it is, so the two agree on a plan just
where its literals make up for the longer stream numbers. -/
namespace PiLSMer
open Cover

/-- The bytes of a stream number beyond the one that the score counts. -/
def Choice.extraBytes : Choice → Nat
  | .located streamIx _ _ _ _ => (putVarint (UInt32.ofNat streamIx).toUInt64).length - 1
  | .literal _ => 0

def Choice.literals : Choice → Nat
  | .located .. => 0
  | .literal _ => 1

def extraBytes (choices : List Choice) : Nat := (choices.map Choice.extraBytes).sum
def literalCount (choices : List Choice) : Nat := (choices.map Choice.literals).sum

theorem Choice.encode_length {p : Planner} {bytes : Bytes} {options : PlanOptions} {pos : Nat}
    {c : Choice} (offered : c ∈ p.candidatesAt bytes pos options) :
    c.score.encodedBytes + c.extraBytes = c.toChunk.encode.length + c.literals := by
  cases c with
  | literal byte => rfl
  | located ix offset len cost hint =>
    obtain ⟨texts, indexed⟩ := p.indexed
    obtain ⟨_, _, _, _, _, _, _, _, rfl, _⟩ := Planner.offers_cuttable indexed offered
    obtain ⟨_, _, short, _⟩ := p.candidatesAt_fits bytes pos options _ offered
    have width : (UInt32.ofNat len).toUInt64 = UInt64.ofNat len := by
      apply UInt64.toNat_inj.mp
      rw [UInt32.toNat_toUInt64, UInt32.toNat_ofNat', UInt64.toNat_ofNat',
        Nat.mod_eq_of_lt (by omega), Nat.mod_eq_of_lt (by omega)]
    have := putVarint_pos (UInt32.ofNat ix).toUInt64
    simp only [Choice.score, Choice.extraBytes, Choice.toChunk, Choice.literals, ChunkRef.encode,
      ChunkTransform.encode, locatedChunkEncodedCost_toNat, width, List.length_cons,
      List.length_append, List.length_nil]
    omega

theorem totalScore_encode {p : Planner} {bytes : Bytes} {options : PlanOptions} {i : Nat}
    {choices : List Choice} (covered : (p.problem bytes options).Covers i choices) :
    (totalScore choices).encodedBytes + extraBytes choices =
      ((choices.map Choice.toChunk).flatMap ChunkRef.encode).length + literalCount choices := by
  unfold Problem.Covers at covered
  induction covered with
  | done => rfl
  | @step i c cs offered _ ih =>
    have here := Choice.encode_length offered
    simp only [totalScore, extraBytes, literalCount, List.foldr_cons, List.map_cons,
      List.sum_cons, List.flatMap_cons, List.length_append, Score.combine] at ih ⊢
    omega

theorem Planner.planWithOptions_chunks [Digests] {p : Planner} {clock : Nat → Nat}
    {bytes : Bytes} {options : PlanOptions} {plan : ReconstructionPlan}
    (planned : p.planWithOptions clock bytes options = .ok plan) :
    ∃ choices, p.chooseChunks clock bytes options = .ok choices ∧
      plan = p.assemble bytes options choices := by
  simp only [Planner.planWithOptions, except_bind_ok, except_pure_ok] at planned
  obtain ⟨choices, chosen, _, _, _, _, rfl⟩ := planned
  exact ⟨choices, chosen, rfl⟩

/-- Neither a literal nor in a stream whose number takes a second byte. -/
def Choice.Priced : Choice → Prop
  | .located streamIx _ _ _ _ => streamIx < 128
  | .literal _ => False

theorem Choice.Priced.exact {c : Choice} (priced : c.Priced) : c.extraBytes = c.literals := by
  cases c with
  | literal byte => exact priced.elim
  | located ix offset len cost hint =>
    have narrow : ix < 128 := priced
    have small : (UInt32.ofNat ix).toUInt64 < 0x80 := by
      rw [UInt64.lt_iff_toNat_lt, UInt32.toNat_toUInt64, UInt32.toNat_ofNat',
        Nat.mod_eq_of_lt (by omega)]
      change ix < 128
      exact narrow
    simp only [Choice.extraBytes, Choice.literals, putVarint, putVarintFrom, if_pos small,
      List.length_singleton]

section

variable {p : Planner} {bytes : Bytes} {options : PlanOptions}

theorem priced_balanced (priced : ∀ i, ∀ c ∈ p.candidatesAt bytes i options, c.Priced) {i : Nat}
    {choices : List Choice} (covered : (p.problem bytes options).Covers i choices) :
    extraBytes choices = literalCount choices := by
  unfold Problem.Covers at covered
  induction covered with
  | done => rfl
  | @step i c cs offered _ ih =>
    have here := (priced i c offered).exact
    simp only [extraBytes, literalCount, List.map_cons, List.sum_cons] at ih ⊢
    rw [here, ih]

theorem Planner.offers_priced (few : p.indexes.length ≤ 128)
    (located_only : options.allowLiterals = false) :
    ∀ i, ∀ c ∈ p.candidatesAt bytes i options, c.Priced := by
  intro i c offered
  cases c with
  | located ix offset len cost hint =>
    obtain ⟨inside, _⟩ := p.candidatesAt_fits bytes i options _ offered
    exact Nat.lt_of_lt_of_le inside few
  | literal byte =>
    rcases Planner.mem_candidatesAt.mp offered with ⟨_, _, _, _, located⟩ | ⟨_, allowed, _⟩
    · obtain ⟨_, _, _, _, _, located⟩ := mem_locatedChoices.mp located
      cases located
    · rw [located_only] at allowed
      cases allowed

theorem located_dearer {pos ix len : Nat} {offset : UInt64}
    {cost hint : UInt16}
    (offered : Choice.located ix offset len cost hint ∈ p.candidatesAt bytes pos options) :
    4 < (Choice.located ix offset len cost hint).score.encodedBytes := by
  obtain ⟨texts, indexed⟩ := p.indexed
  obtain ⟨_, _, _, _, _, _, _, _, rfl, _⟩ := Planner.offers_cuttable indexed offered
  have far := putVarint_pos offset
  have long := putVarint_pos (UInt64.ofNat len)
  simp only [Choice.score, locatedChunkEncodedCost_toNat]
  omega

/-- Nothing is cheaper than a literal, so one byte is planned as one. -/
theorem byte_picks_literal (allowed : options.allowLiterals = true) (one : bytes.length = 1)
    {choices : List Choice} (picked : (p.problem bytes options).Picks 0 choices) :
    ∃ byte, choices = [.literal byte] := by
  obtain ⟨byte, rfl⟩ := List.length_eq_one_iff.mp one
  have positive := p.problem_positive [byte] options
  have literal : (p.problem [byte] options).Covers 0 [.literal byte] :=
    .step (Planner.mem_candidatesAt.mpr (.inr ⟨byte, allowed, rfl, rfl⟩)) .done
  have least := picked.least positive literal
  have covered := picked.covers
  have lengths : 0 + (choices.map Choice.len).sum = 1 := covered.length
  unfold Problem.Covers at covered
  cases covered with
  | @step _ c cs offered rest =>
    have used := positive 0 c offered
    change 0 < c.len at used
    rw [List.map_cons, List.sum_cons] at lengths
    have last : 0 + c.len = 1 := by omega
    change (p.problem [byte] options).Covers (0 + c.len) cs at rest
    rw [last] at rest
    obtain rfl := Problem.Covers.goal (P := p.problem [byte] options) positive rest
    cases c with
    | literal byte' => exact ⟨byte', rfl⟩
    | located ix offset len cost hint =>
      have dearer := located_dearer offered
      rw [Planner.total_problem, Planner.total_problem, ← not_lt] at least
      exact absurd (Score.lt_iff.mp (Or.inl dearer)) least

end

/-- The score of a plan is its size where no piece on offer is mispriced; a byte that may be a
literal is scored one too high. -/
theorem score_is_size [Digests] {p : Planner} {clock : Nat → Nat} {bytes : Bytes}
    {options : PlanOptions} {plan : ReconstructionPlan} {choices : List Choice}
    (planned : p.planWithOptions clock bytes options = .ok plan)
    (chosen : p.chooseChunks clock bytes options = .ok choices) :
    ((∀ i, ∀ c ∈ p.candidatesAt bytes i options, c.Priced) →
      (totalScore choices).encodedBytes = (plan.chunks.flatMap ChunkRef.encode).length) ∧
    (options.allowLiterals = true → bytes.length = 1 →
      (totalScore choices).encodedBytes =
        (plan.chunks.flatMap ChunkRef.encode).length + 1) := by
  obtain ⟨cs, chosen', rfl⟩ := Planner.planWithOptions_chunks planned
  cases chosen.symm.trans chosen'
  have picked := Planner.chooseChunks_picks chosen
  have sizes := totalScore_encode picked.covers
  change _ = ((p.assemble bytes options choices).chunks.flatMap ChunkRef.encode).length + _ at sizes
  refine ⟨fun priced => ?_, fun allowed one => ?_⟩
  · have balanced := priced_balanced priced picked.covers
    omega
  · obtain ⟨byte, rfl⟩ := byte_picks_literal allowed one picked
    exact sizes

theorem score_is_size_sample :
    letI := sampleDigests
    let p := samplePlanner (digestOf 0)
      ⟨[PrefixByteStream.new (.piHexFractionPrefixV1 (digestOf 0) 2) [0x61, 0x62]]⟩
    let options := { PlanOptions.default with allowLiterals := false }
    (∃ plan choices, p.planWithOptions stopped [0x61, 0x62] options = .ok plan ∧
      p.chooseChunks stopped [0x61, 0x62] options = .ok choices ∧ choices.length = 1 ∧
      (totalScore choices).encodedBytes = 5 ∧
      (totalScore choices).encodedBytes = (plan.chunks.flatMap ChunkRef.encode).length) ∧
    (totalScore [.literal 0x61]).encodedBytes =
      (samplePlan.chunks.flatMap ChunkRef.encode).length + 1 := by
  let _ := sampleDigests
  let p := samplePlanner (digestOf 0)
    ⟨[PrefixByteStream.new (.piHexFractionPrefixV1 (digestOf 0) 2) [0x61, 0x62]]⟩
  let options := { PlanOptions.default with allowLiterals := false }
  let choices : List Choice := [Choice.occurrence 0 2 0]
  have chosen : p.chooseChunks stopped [0x61, 0x62] options = .ok choices := by decide
  have planned : p.planWithOptions stopped [0x61, 0x62] options =
      .ok (p.assemble [0x61, 0x62] options choices) := by decide
  have bare : (barePlanner true).planWithOptions stopped [0x61] (barePlanner true).options =
      .ok samplePlan := by decide
  have spelled : (barePlanner true).chooseChunks stopped [0x61] (barePlanner true).options =
      .ok [.literal 0x61] := by decide
  exact ⟨⟨_, _, planned, chosen, rfl, rfl,
    (score_is_size planned chosen).1 (Planner.offers_priced (by decide) rfl)⟩,
    (score_is_size bare spelled).2 rfl rfl⟩

/-- A literal is scored at four bytes and stored in three. -/
theorem literal_overcharged :
    ¬ ∀ [Digests] (p : Planner) (clock : Nat → Nat) (bytes : Bytes) (options : PlanOptions)
      (plan : ReconstructionPlan) (choices : List Choice),
      p.planWithOptions clock bytes options = .ok plan →
      p.chooseChunks clock bytes options = .ok choices →
      (totalScore choices).encodedBytes = (plan.chunks.flatMap ChunkRef.encode).length := by
  intro claim
  let _ := sampleDigests
  have same := claim (barePlanner true) stopped [0x61] (barePlanner true).options samplePlan
    [.literal 0x61] (by decide) (by decide)
  exact absurd same (by decide)

end PiLSMer
