import PiLSMer.Core.Expressible

/-! The plans of parts and the plans of more. The chunks of two values together make a cover of
the value put together from them, and the front of a cover is a cover of the front. A planner
that has longer texts to cut from, of longer pieces, chooses no dearer chunks. -/
namespace PiLSMer
open Cover

theorem Score.key_nonneg (s : Score) : 0 ≤ s.key := by
  change Score.zero.key ≤ s.key
  rw [← not_lt, ← Score.lt_iff]
  simp [Score.lt, Score.zero]

theorem totalScore_key (choices : List Choice) :
    (totalScore choices).key = (choices.map (fun c => c.score.key)).sum := by
  induction choices with
  | nil => rfl
  | cons c cs ih =>
    rw [List.map_cons, List.sum_cons, ← ih]
    rfl

theorem Choice.occurrence_narrow (ix offset : Nat) {len len' : Nat} (short : len ≤ len')
    (wide : len' < 2 ^ 16) :
    (Choice.occurrence ix len offset).score.key ≤ (Choice.occurrence ix len' offset).score.key := by
  have below : UInt64.ofNat len ≤ UInt64.ofNat len' := by
    rw [UInt64.le_iff_toNat_le, UInt64.toNat_ofNat', UInt64.toNat_ofNat',
      Nat.mod_eq_of_lt (by omega), Nat.mod_eq_of_lt (by omega)]
    exact short
  have cheaper := putVarint_length_mono below
  have reads : (UInt16.ofNat len).toNat ≤ (UInt16.ofNat len').toNat := by
    rw [UInt16.toNat_ofNat', UInt16.toNat_ofNat', Nat.mod_eq_of_lt (by omega),
      Nat.mod_eq_of_lt wide]
    exact short
  rw [← not_lt, ← Score.lt_iff]
  simp only [Choice.occurrence, Choice.score, Score.lt, locatedChunkEncodedCost_toNat]
  omega

section Chosen

variable {p : Planner} {texts : List Bytes} {clock : Nat → Nat} {bytes : Bytes}
  {options : PlanOptions} {choices pieces : List Choice}

theorem Planner.chosen_cut (indexed : Indexed p.indexes texts)
    (chosen : p.chooseChunks clock bytes options = .ok choices) :
    Cut Choice.len bytes.length (Cuttable p.indexes texts bytes options) 0 choices := by
  have covered := (Planner.chooseChunks_picks chosen).covers
  exact covered.mono (fun _ _ offered => Planner.offers_cuttable indexed offered)

theorem Planner.chosen_least (indexed : Indexed p.indexes texts)
    (chosen : p.chooseChunks clock bytes options = .ok choices)
    (cut : Cut Choice.len bytes.length (Cuttable p.indexes texts bytes options) 0 pieces) :
    (totalScore choices).key ≤ (totalScore pieces).key := by
  have picked := Planner.chooseChunks_picks chosen
  obtain ⟨cs, covered, le⟩ := cut.dominated (fun c => c.score.key)
    (fun _ _ cuttable => Planner.cuttable_dominated indexed cuttable)
  have least := picked.least (p.problem_positive bytes options) covered
  rw [p.total_problem bytes options, p.total_problem bytes options] at least
  rw [totalScore_key cs] at least
  rw [totalScore_key pieces]
  exact least.trans le

theorem Planner.chosen_iff_covers (unhurried : options.Unhurried clock)
    (budgeted : options.maxPlanMillisPerValue ≠ 0) :
    (∃ choices, p.chooseChunks clock bytes options = .ok choices) ↔
      ∃ choices, (p.problem bytes options).Covers 0 choices := by
  constructor
  · rintro ⟨choices, chosen⟩
    exact ⟨choices, (Planner.chooseChunks_picks chosen).covers⟩
  · rintro ⟨cs, covered⟩
    rcases p.picks_or_uncovered bytes options with ⟨choices, picked⟩ | uncovered
    · exact ⟨choices, Planner.chooseChunks_of_picks unhurried budgeted picked⟩
    · exact absurd covered (uncovered cs)

end Chosen

section Parts

variable {indexes : List StreamIndex} {texts : List Bytes} {options : PlanOptions} {x y : Bytes}
  {pos : Nat} {c : Choice}

theorem Cuttable.of_front (h : Cuttable indexes texts x options pos c) :
    Cuttable indexes texts (x ++ y) options pos c := by
  cases c with
  | literal byte =>
    obtain ⟨allowed, there⟩ := h
    exact ⟨allowed, by rw [List.getElem?_append_left (List.getElem?_eq_some_iff.mp there).1, there]⟩
  | located ix offset len cost hint =>
    obtain ⟨index, text, there, textThere, positive, short, inside, occurs, costs⟩ := h
    have needle : ((x ++ y).drop pos).take len = (x.drop pos).take len := by
      rw [List.drop_append_of_le_length (by omega),
        List.take_append_of_le_length (by rw [List.length_drop]; omega)]
    refine ⟨index, text, there, textThere, positive, short, ?_, needle ▸ occurs, costs⟩
    rw [List.length_append]
    omega

theorem Cuttable.of_back (h : Cuttable indexes texts y options pos c) :
    Cuttable indexes texts (x ++ y) options (x.length + pos) c := by
  cases c with
  | literal byte =>
    obtain ⟨allowed, there⟩ := h
    refine ⟨allowed, ?_⟩
    rw [List.getElem?_append_right (Nat.le_add_right ..), Nat.add_sub_cancel_left, there]
  | located ix offset len cost hint =>
    obtain ⟨index, text, there, textThere, positive, short, inside, occurs, costs⟩ := h
    have needle : (x ++ y).drop (x.length + pos) = y.drop pos := by
      rw [← List.drop_drop, List.drop_left]
    refine ⟨index, text, there, textThere, positive, short, ?_, needle ▸ occurs, costs⟩
    rw [List.length_append]
    omega

theorem occurrences_take {text needle : Bytes} {i len : Nat}
    (occurs : i ∈ occurrences text needle) : i ∈ occurrences text (needle.take len) := by
  obtain ⟨inside, same⟩ := mem_occurrences.mp occurs
  refine mem_occurrences.mpr ⟨inside, ?_⟩
  have front := congrArg (List.take len) same
  rwa [List.take_take, ← List.length_take] at front

theorem Cuttable.front (indexed : Indexed indexes texts)
    (h : Cuttable indexes texts (x ++ y) options pos c) (before : pos < x.length) :
    ∃ d, Cuttable indexes texts x options pos d ∧ pos + d.len = min (pos + c.len) x.length ∧
      d.score.key ≤ c.score.key := by
  cases c with
  | literal byte =>
    obtain ⟨allowed, there⟩ := h
    rw [List.getElem?_append_left before] at there
    refine ⟨.literal byte, ⟨allowed, there⟩, ?_, le_refl _⟩
    exact (Nat.min_eq_left before).symm
  | located ix offset len cost hint =>
    obtain ⟨index, text, there, textThere, positive, short, inside, occurs, rfl, rfl⟩ := h
    obtain ⟨text', id, fingerprint, indexOptions, textThere', made⟩ := indexed.get there
    have within := (fromPrefix_ok made).within
    have bound := (fromPrefix_ok made).bound
    have needle : (((x ++ y).drop pos).take len).take (min len (x.length - pos)) =
        (x.drop pos).take (min len (x.length - pos)) := by
      rw [List.take_take, Nat.min_eq_left (Nat.min_le_left ..),
        List.drop_append_of_le_length (by omega),
        List.take_append_of_le_length (by rw [List.length_drop]; omega)]
    refine ⟨.located ix offset (min len (x.length - pos))
      (locatedChunkEncodedCost offset (UInt64.ofNat (min len (x.length - pos))))
      (UInt16.ofNat (min len (x.length - pos))), ⟨index, text, there, textThere, by omega,
        by omega, by omega, needle ▸ occurrences_take occurs, rfl, rfl⟩, ?_, ?_⟩
    · change pos + min len (x.length - pos) = min (pos + len) x.length
      omega
    · have cheaper := Choice.occurrence_narrow ix offset.toNat
        (Nat.min_le_left len (x.length - pos)) (by omega)
      simp only [Choice.occurrence, UInt64.ofNat_toNat] at cheaper
      exact cheaper

theorem Expressible.append : Expressible texts options (x ++ y) ↔
    Expressible texts options x ∧ Expressible texts options y := by
  simp only [Expressible, List.append_eq_nil_iff, List.mem_append]
  constructor
  · rintro (⟨rfl, rfl⟩ | allowed | ⟨someK, each⟩)
    · exact ⟨Or.inl rfl, Or.inl rfl⟩
    · exact ⟨Or.inr (Or.inl allowed), Or.inr (Or.inl allowed)⟩
    · exact ⟨Or.inr (Or.inr ⟨someK, fun b member => each b (Or.inl member)⟩),
        Or.inr (Or.inr ⟨someK, fun b member => each b (Or.inr member)⟩)⟩
  · rintro ⟨rfl | allowed | ⟨someK, front⟩, back⟩
    · simpa using back
    · exact Or.inr (Or.inl allowed)
    · rcases back with rfl | allowed | ⟨_, back⟩
      · exact Or.inr (Or.inr ⟨someK, by simpa using front⟩)
      · exact Or.inr (Or.inl allowed)
      · exact Or.inr (Or.inr ⟨someK, fun b member => member.elim (front b) (back b)⟩)

end Parts

/-- The chunks of two values put together cost no less than those of the value put together,
which cost no less than those of its front; and all three values have chunks or the whole and
one of the parts have none. -/
theorem planner_parts (p : Planner) (options : PlanOptions)
    (budgeted : options.maxPlanMillisPerValue ≠ 0) (x y : Bytes) (f g h : Nat → Nat)
    (front : options.Unhurried f) (back : options.Unhurried g) (whole : options.Unhurried h) :
    ((∃ c, p.chooseChunks h (x ++ y) options = .ok c) ↔
      (∃ a, p.chooseChunks f x options = .ok a) ∧ ∃ b, p.chooseChunks g y options = .ok b) ∧
    ∀ a b c, p.chooseChunks f x options = .ok a → p.chooseChunks g y options = .ok b →
      p.chooseChunks h (x ++ y) options = .ok c →
        ¬ (totalScore c).lt (totalScore a) ∧
          ¬ ((totalScore a).combine (totalScore b)).lt (totalScore c) := by
  obtain ⟨texts, indexed⟩ := p.indexed
  constructor
  · simp only [Planner.chosen_iff_covers front budgeted, Planner.chosen_iff_covers back budgeted,
      Planner.chosen_iff_covers whole budgeted, covers_iff_expressible _ options indexed]
    exact Expressible.append
  · intro a b c first second both
    rw [Score.lt_iff, Score.lt_iff, not_lt, not_lt, Score.key_combine]
    constructor
    · have cut := Planner.chosen_cut indexed both
      obtain ⟨ds, shorter, le⟩ := cut.front (fun c => c.score.key) (fun c => c.score.key_nonneg)
        (fun pos c cuttable before => cuttable.front indexed before) (Nat.zero_le _)
        (by rw [List.length_append]; exact Nat.le_add_right ..)
      rw [totalScore_key c]
      have least := Planner.chosen_least indexed first shorter
      rw [totalScore_key ds] at least
      exact least.trans le
    · have cutFirst := (Planner.chosen_cut indexed first).mono
        (fun pos c (cuttable : Cuttable _ _ _ _ pos c) => cuttable.of_front (y := y))
      have cutSecond := (Planner.chosen_cut indexed second).shift
        (fun pos c (cuttable : Cuttable _ _ _ _ pos c) => cuttable.of_back (x := x))
      rw [← List.length_append, Nat.add_zero] at cutSecond
      have least := Planner.chosen_least indexed both (cutFirst.append cutSecond)
      rw [totalScore_key (a ++ b), List.map_append, List.sum_append, ← totalScore_key,
        ← totalScore_key] at least
      exact least

theorem planner_parts_sample :
    let p := samplePlanner (digestOf 0) ⟨[]⟩
    (∃ c, p.chooseChunks stopped ([0x61] ++ [0x62]) .default = .ok c) ∧
      ¬ (totalScore [Choice.occurrence 0 2 0]).lt (totalScore [Choice.occurrence 0 1 0]) ∧
      ¬ ((totalScore [Choice.occurrence 0 1 0]).combine
        (totalScore [Choice.occurrence 0 1 1])).lt (totalScore [Choice.occurrence 0 2 0]) := by
  have calm : PlanOptions.default.Unhurried stopped := fun _ => Nat.zero_le _
  have parts := planner_parts (samplePlanner (digestOf 0) ⟨[]⟩) .default (by decide) [0x61] [0x62]
    stopped stopped stopped calm calm calm
  have front : (samplePlanner (digestOf 0) ⟨[]⟩).chooseChunks stopped [0x61] .default =
      .ok [Choice.occurrence 0 1 0] := by decide
  have back : (samplePlanner (digestOf 0) ⟨[]⟩).chooseChunks stopped [0x62] .default =
      .ok [Choice.occurrence 0 1 1] := by decide
  exact ⟨parts.1.mpr ⟨⟨_, front⟩, ⟨_, back⟩⟩, parts.2 _ _ _ front back (by decide)⟩

section Growth

/-- Every text of p is the front of one of q, indexed for pieces no shorter. -/
def Planner.Outgrown (p q : Planner) (texts texts' : List Bytes) : Prop :=
  ∀ (ix : Nat) (index : StreamIndex) (text : Bytes),
    p.indexes[ix]? = some index → texts[ix]? = some text →
    ∃ (jx : Nat) (index' : StreamIndex) (text' : Bytes),
      q.indexes[jx]? = some index' ∧ texts'[jx]? = some text' ∧
      text <+: text' ∧ index.maxK ≤ index'.maxK

structure PlanOptions.Wider (options options' : PlanOptions) : Prop where
  maxK : options.maxK ≤ options'.maxK
  literals : options.allowLiterals = true → options'.allowLiterals = true

theorem occurrences_prefix {text text' needle : Bytes} {i : Nat} (grown : text <+: text')
    (occurs : i ∈ occurrences text needle) :
    i ∈ occurrences text' needle := by
  obtain ⟨inside, same⟩ := mem_occurrences.mp occurs
  obtain ⟨more, rfl⟩ := grown
  have size := congrArg List.length same
  rw [List.length_take, List.length_drop] at size
  refine mem_occurrences.mpr ⟨by rw [List.length_append]; omega, ?_⟩
  rw [List.drop_append_of_le_length (by omega),
    List.take_append_of_le_length (by rw [List.length_drop]; omega), same]

variable {p q : Planner} {texts texts' : List Bytes} {options options' : PlanOptions}

theorem Planner.Outgrown.cuttable (outgrown : p.Outgrown q texts texts')
    (wider : options.Wider options') {bytes : Bytes} {pos : Nat} {c : Choice}
    (h : Cuttable p.indexes texts bytes options pos c) :
    ∃ d, Cuttable q.indexes texts' bytes options' pos d ∧ d.len = c.len ∧
      d.score.key ≤ c.score.key := by
  cases c with
  | literal byte =>
    obtain ⟨allowed, there⟩ := h
    exact ⟨.literal byte, ⟨wider.literals allowed, there⟩, rfl, le_refl _⟩
  | located ix offset len cost hint =>
    obtain ⟨index, text, there, textThere, positive, short, inside, occurs, costs⟩ := h
    obtain ⟨jx, index', text', there', textThere', grown, longer⟩ :=
      outgrown ix index text there textThere
    have size : ((bytes.drop pos).take len).length = len := window_length (by omega)
    have := wider.maxK
    exact ⟨.located jx offset len cost hint, ⟨index', text', there', textThere', positive, by omega,
      inside, occurrences_prefix grown occurs, costs⟩, rfl, le_refl _⟩

theorem Planner.Outgrown.chosen (outgrown : p.Outgrown q texts texts')
    (indexed : Indexed p.indexes texts) (indexed' : Indexed q.indexes texts')
    (wider : options.Wider options') (budgeted : options'.maxPlanMillisPerValue ≠ 0)
    {clock clock' : Nat → Nat} (unhurried : options'.Unhurried clock') {bytes : Bytes}
    {choices : List Choice} (chosen : p.chooseChunks clock bytes options = .ok choices) :
    ∃ choices', q.chooseChunks clock' bytes options' = .ok choices' ∧
      ¬ (totalScore choices).lt (totalScore choices') := by
  obtain ⟨ds, cut, le⟩ := (Planner.chosen_cut indexed chosen).dominated (fun c => c.score.key)
    (fun pos c cuttable => outgrown.cuttable wider cuttable)
  obtain ⟨cs, covered, _⟩ := cut.dominated (fun c => c.score.key)
    (fun _ _ cuttable => Planner.cuttable_dominated indexed' cuttable)
  obtain ⟨choices', chosen'⟩ := (Planner.chosen_iff_covers unhurried budgeted).mpr ⟨cs, covered⟩
  refine ⟨choices', chosen', ?_⟩
  have least := Planner.chosen_least indexed' chosen' cut
  rw [Score.lt_iff, not_lt, totalScore_key choices]
  rw [totalScore_key ds] at least
  exact least.trans le

/-- Longer texts, longer pieces and wider options never make the chunks dearer. -/
theorem planner_outgrown (p q : Planner) (texts texts' : List Bytes)
    (indexed : Indexed p.indexes texts) (indexed' : Indexed q.indexes texts')
    (outgrown : p.Outgrown q texts texts') (options options' : PlanOptions)
    (wider : options.Wider options') (budgeted : options'.maxPlanMillisPerValue ≠ 0)
    (clock clock' : Nat → Nat) (unhurried : options'.Unhurried clock') (bytes : Bytes)
    (choices : List Choice) (chosen : p.chooseChunks clock bytes options = .ok choices) :
    ∃ choices', q.chooseChunks clock' bytes options' = .ok choices' ∧
      ¬ (totalScore choices).lt (totalScore choices') :=
  outgrown.chosen indexed indexed' wider budgeted unhurried chosen

def byteIndex : StreamIndex where
  streamId := .piHexFractionPrefixV1 (digestOf 0) 1
  streamFingerprint := digestOf 1
  prefixLen := 1
  maxK := 1
  memoryBudgetBytes := 1024
  byLen := [⟨1, [⟨packed [0x62], 0, 1⟩], [0]⟩]

theorem byteIndex_made : StreamIndex.fromPrefix byteIndex.streamId (digestOf 1) [0x62]
    { narrowIndex with maxPrefixLen := 1 } = .ok byteIndex :=
  rfl

def grownPlanner : Planner where
  indexes := [byteIndex, sampleIndex (digestOf 0)]
  registry := ⟨[]⟩
  options := .default
  built := by
    intro index member
    rcases List.mem_cons.mp member with rfl | member
    · exact ⟨_, _, _, _, byteIndex_made⟩
    · obtain rfl := List.mem_singleton.mp member
      exact ⟨_, _, _, _, sampleIndex_made (digestOf 0)⟩

theorem planner_outgrown_sample :
    ∃ choices, grownPlanner.chooseChunks stopped [0x61, 0x62]
      { PlanOptions.default with allowLiterals := true } = .ok choices ∧
      ¬ (totalScore [Choice.occurrence 0 2 0]).lt (totalScore choices) := by
  have indexed : Indexed grownPlanner.indexes [[0x62], [0x61, 0x62]] :=
    .cons ⟨_, _, _, byteIndex_made⟩
      (.cons ⟨_, _, _, sampleIndex_made (digestOf 0)⟩ .nil)
  refine planner_outgrown (samplePlanner (digestOf 0) ⟨[]⟩) grownPlanner [[0x61, 0x62]] _
    (samplePlanner_indexed _ _) indexed ?_ .default _ ⟨by decide, fun _ => rfl⟩ (by decide)
    stopped stopped (fun _ => Nat.zero_le _) _ _ (by decide)
  intro ix index text there textThere
  cases ix with
  | zero =>
    cases there
    cases textThere
    exact ⟨1, _, _, rfl, rfl, List.prefix_refl _, Nat.le_refl _⟩
  | succ ix => cases textThere

end Growth

section Roomy

theorem groupRuns_fewer {max : UInt16} {rounds : Nat} {pairs : List (UInt64 × UInt64)}
    {entries : List PackedKGramEntry} {offsets : List UInt64}
    {grouped : List PackedKGramEntry × List UInt64}
    (h : groupRuns max rounds pairs entries offsets = .ok grouped) :
    grouped.2.length ≤ offsets.length + pairs.length := by
  induction rounds generalizing pairs entries offsets with
  | zero =>
    cases h
    exact Nat.le_add_right _ _
  | succ rounds ih =>
    cases pairs with
    | nil =>
      cases h
      exact Nat.le_add_right _ _
    | cons pair rest =>
      obtain ⟨key, offset⟩ := pair
      obtain ⟨start, retained, kept, _, _, _, run, h⟩ := groupRuns_round h
      have split := congrArg List.length
        (List.takeWhile_append_dropWhile (p := fun p => decide (p.1 = key))
          (l := (key, offset) :: rest))
      have fewer := ih h
      have short : kept.length ≤
          (((key, offset) :: rest).takeWhile (fun p => p.1 = key)).length := by
        rw [run, List.length_take, List.length_map]
        exact Nat.min_le_right _ _
      rw [List.length_append] at split fewer
      omega

/-- A table takes no more than 24 bytes for each byte of the text. -/
theorem build_size_le {text : Bytes} {k : Nat} {max : UInt16} {table : PackedKGramTable}
    (h : PackedKGramTable.build text k max = .ok table) (some_room : max ≠ 0) (positive : 0 < k)
    (fits : k ≤ text.length) : table.size ≤ 24 * text.length := by
  simp only [PackedKGramTable.build, except_bind_ok] at h
  obtain ⟨pairs, made, grouped, runs, _, _, same⟩ := h
  cases same
  obtain ⟨fewer, _⟩ := groupRuns_size some_room (Nat.le_refl _) (by simp) runs
  have bound := groupRuns_fewer runs
  rw [mapM_ok_map (fun _ _ => kgramPair_ok) made] at bound
  simp only [List.length_nil, List.length_insertionSort, List.length_map, List.length_range]
    at bound
  simp only [PackedKGramTable.size, packedKGramEntrySize]
  omega

theorem buildTables_full {text : Bytes} {options : StreamIndexOptions} {n : Nat}
    {byLen tables : List PackedKGramTable} {estimated : UInt64}
    (some_room : options.maxOffsetsPerKgram ≠ 0)
    (total : estimated.toNat ≤ 24 * text.length * byLen.length)
    (roomy : 24 * text.length * (byLen.length + n) ≤ options.maxIndexMemoryBytes.toNat)
    (sofar : byLen.length ≤ text.length)
    (h : buildTables text options (List.range' (byLen.length + 1) n) byLen estimated =
      .ok tables) : tables.length = min (byLen.length + n) text.length := by
  induction n generalizing byLen estimated with
  | zero =>
    cases h
    rw [Nat.add_zero, Nat.min_eq_left sofar]
  | succ n ih =>
    rw [List.range'_succ, buildTables] at h
    split at h
    · rename_i short
      cases h
      omega
    · rename_i fits
      simp only [except_bind_ok] at h
      obtain ⟨table, made, next, added, h⟩ := h
      obtain ⟨_, sum⟩ := checkedAdd_ok added
      have size := build_size_le made some_room (Nat.succ_pos _) (Nat.not_lt.mp fits)
      have total' : next.toNat ≤ 24 * text.length * (byLen ++ [table]).length := by
        rw [List.length_append, List.length_singleton, sum, build_size made some_room,
          Nat.mul_add, Nat.mul_one]
        omega
      have within : ¬ options.maxIndexMemoryBytes < next := by
        rw [UInt64.not_lt, UInt64.le_iff_toNat_le]
        refine total'.trans (Nat.le_trans (Nat.mul_le_mul_left _ ?_) roomy)
        rw [List.length_append, List.length_singleton]
        omega
      rw [if_neg within] at h
      have grown : (byLen ++ [table]).length = byLen.length + 1 := by
        rw [List.length_append, List.length_singleton]
      have room : 24 * text.length * ((byLen ++ [table]).length + n) ≤
          options.maxIndexMemoryBytes.toNat := by
        rw [grown, Nat.add_assoc, Nat.add_comm 1 n]
        exact roomy
      have whole := ih total' room (by rw [grown]; omega) (by rw [grown]; exact h)
      rw [whole, grown]
      omega

theorem fromPrefix_roomy {id : StreamId} {fingerprint : StreamFingerprint} {text : Bytes}
    {options : StreamIndexOptions} {index : StreamIndex}
    (roomy : 24 * text.length * options.maxK ≤ options.maxIndexMemoryBytes.toNat)
    (made : StreamIndex.fromPrefix id fingerprint text options = .ok index) :
    index.maxK = min options.maxK text.length := by
  have indexes := fromPrefix_ok made
  have room : 24 * text.length * (([] : List PackedKGramTable).length + options.maxK) ≤
      options.maxIndexMemoryBytes.toNat := by
    rw [List.length_nil, Nat.zero_add]
    exact roomy
  have full := buildTables_full indexes.retained (Nat.zero_le _) room (Nat.zero_le _)
    indexes.tables
  rw [indexes.count, full, List.length_nil, Nat.zero_add]

theorem buildTables_fits {text : Bytes} {options : StreamIndexOptions} {n : Nat}
    {byLen tables : List PackedKGramTable} {estimated : UInt64}
    (sofar : byLen.length ≤ text.length)
    (h : buildTables text options (List.range' (byLen.length + 1) n) byLen estimated =
      .ok tables) : tables.length ≤ text.length := by
  induction n generalizing byLen estimated with
  | zero =>
    cases h
    exact sofar
  | succ n ih =>
    rw [List.range'_succ, buildTables] at h
    split at h
    · cases h
      exact sofar
    · rename_i fits
      simp only [except_bind_ok] at h
      obtain ⟨table, _, next, _, h⟩ := h
      have grown : (byLen ++ [table]).length = byLen.length + 1 := by
        rw [List.length_append, List.length_singleton]
      split at h
      · split at h
        · cases h
        · cases h
          exact sofar
      · exact ih (by rw [grown]; omega) (by rw [grown]; exact h)

theorem fromPrefix_fits {id : StreamId} {fingerprint : StreamFingerprint} {text : Bytes}
    {options : StreamIndexOptions} {index : StreamIndex}
    (made : StreamIndex.fromPrefix id fingerprint text options = .ok index) :
    index.maxK ≤ min options.maxK text.length := by
  have indexes := fromPrefix_ok made
  have none : ([] : List PackedKGramTable).length ≤ text.length := Nat.zero_le _
  have fits := buildTables_fits none indexes.tables
  have within := indexes.within
  rw [indexes.count] at within ⊢
  exact Nat.le_min.mpr ⟨within, fits⟩

end Roomy

end PiLSMer
