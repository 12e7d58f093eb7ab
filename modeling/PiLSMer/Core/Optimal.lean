import Mathlib.Algebra.Order.Group.Nat
import Mathlib.Algebra.Order.Monoid.Prod
import Mathlib.Data.List.Forall2
import PiLSMer.Core.Lookup
import PiLSMer.Core.Planner
import PiLSMer.Lib.Cover

/-! The planner finds the cheapest cover. Its table is right at every position, its walk reads
the first of the cheapest covers out of it, and no way of cutting the value into pieces of the
indexed texts costs less, wherever the pieces occur. -/
namespace PiLSMer
open Cover

def Score.key (s : Score) : ℕ ×ₗ ℕ ×ₗ ℕ := toLex (s.encodedBytes, toLex (s.chunks, s.readCost))

theorem Score.lt_iff {a b : Score} : a.lt b ↔ a.key < b.key := by
  simp only [Score.lt, Score.key, Prod.Lex.toLex_lt_toLex]

theorem Score.key_combine (a b : Score) : (a.combine b).key = a.key + b.key := rfl

def totalScore (choices : List Choice) : Score :=
  choices.foldr (fun c total => c.score.combine total) .zero

/-- The cover that the planner looks for: what candidates_at offers, at its score. -/
def Planner.problem (p : Planner) (bytes : Bytes) (options : PlanOptions) :
    Problem Choice (ℕ ×ₗ ℕ ×ₗ ℕ) where
  goal := bytes.length
  len := Choice.len
  cost c := c.score.key
  offers pos := p.candidatesAt bytes pos options

section Table

variable {p : Planner} {bytes : Bytes} {options : PlanOptions}

theorem Planner.total_problem (p : Planner) (bytes : Bytes) (options : PlanOptions)
    (choices : List Choice) :
    (p.problem bytes options).total choices = (totalScore choices).key := by
  induction choices with
  | nil => rfl
  | cons c cs ih =>
    rw [Problem.total_cons, ih]
    rfl

theorem Planner.problem_positive (p : Planner) (bytes : Bytes) (options : PlanOptions) :
    (p.problem bytes options).Positive := by
  intro i c offered
  have fits := p.candidatesAt_fits bytes i options c offered
  cases c with
  | located => exact fits.2.1
  | literal => exact Nat.one_pos

def State.extend (c : Choice) (next : State) : State := ⟨c.score.combine next.score, some c⟩

theorem betterOf_eq_improve (dp : List (Option State)) :
    betterOf dp = improve (fun c => ((dp[c.len]?).join).map (State.extend c))
      (fun state => state.score.key) := by
  funext best c
  simp only [betterOf, improve]
  cases (dp[c.len]?).join with
  | none => rfl
  | some next => simp only [Option.map_some, Score.lt_iff, State.extend]

abbrev Planner.Right (p : Planner) (bytes : Bytes) (options : PlanOptions) :
    Nat → Option State → Prop :=
  (p.problem bytes options).Right (fun state => state.score.key) State.choice

def Planner.TableRight (p : Planner) (bytes : Bytes) (options : PlanOptions) (i : Nat)
    (dp : List (Option State)) : Prop :=
  ∀ j, i + j ≤ bytes.length → p.Right bytes options (i + j) (dp[j]?).join

theorem Planner.fill_step {i : Nat} {dp : List (Option State)} (inside : i < bytes.length)
    (sofar : p.TableRight bytes options (i + 1) dp) :
    p.TableRight bytes options i
      ((p.candidatesAt bytes i options).foldl (betterOf (none :: dp)) none :: dp) := by
  intro j hj
  cases j with
  | succ j =>
    have := sofar j (by omega)
    rwa [Nat.add_assoc, Nat.add_comm 1 j] at this
  | zero =>
    rw [betterOf_eq_improve, Nat.add_zero]
    refine Problem.right_step (P := p.problem bytes options) (p.problem_positive bytes options)
      (Nat.ne_of_lt inside) (fun c s => rfl) (fun c s => rfl) (fun c offered => ?_)
    have positive : 0 < c.len := p.problem_positive bytes options i c offered
    have fits := p.candidatesAt_fits bytes i options c offered
    have short : i + c.len ≤ bytes.length := by
      cases c with
      | located =>
        have := fits.2.2.2.1
        change i + _ ≤ _
        simp only [Choice.len]
        omega
      | literal =>
        have : 0 < bytes.length - i := fits
        simp only [Choice.len]
        omega
    have entry : (none :: dp)[c.len]? = dp[c.len - 1]? := by
      rw [List.getElem?_cons, if_neg (by omega)]
    have right := sofar (c.len - 1) (by omega)
    rw [show i + 1 + (c.len - 1) = i + c.len by omega] at right
    rw [entry]
    exact right

theorem Planner.fill_right {i budget : Nat} {dp : List (Option State)}
    (inside : i ≤ bytes.length) (sofar : p.TableRight bytes options i dp) :
    ∃ filled, p.fill stopped budget bytes options i dp = .ok filled ∧
      p.TableRight bytes options 0 filled := by
  induction i generalizing dp with
  | zero => exact ⟨dp, rfl, sofar⟩
  | succ i ih =>
    have still : ¬ (i % 64 = 0 ∧ budget < stopped i) := by simp [stopped]
    obtain ⟨filled, run, right⟩ := ih (by omega) (Planner.fill_step inside sofar)
    refine ⟨filled, ?_, right⟩
    rw [Planner.fill, failWhen, if_neg still]
    exact run

theorem Planner.table_right (p : Planner) (bytes : Bytes) (options : PlanOptions)
    (budget : Nat) :
    ∃ filled, p.fill stopped budget bytes options bytes.length [some ⟨.zero, none⟩] = .ok filled ∧
      p.TableRight bytes options 0 filled := by
  refine Planner.fill_right (Nat.le_refl _) (fun j hj => ?_)
  obtain rfl : j = 0 := by omega
  exact Problem.right_goal rfl rfl

theorem walk_picks {dp : List (Option State)} (right : p.TableRight bytes options 0 dp)
    {i rounds : Nat} {choices : List Choice} (enough : bytes.length ≤ i + rounds)
    (picked : (p.problem bytes options).Picks i choices) :
    walk dp bytes.length rounds i = .ok choices := by
  induction picked generalizing rounds with
  | done =>
    cases rounds with
    | zero => rfl
    | succ rounds => exact if_pos (Nat.le_refl _)
  | @step i before after rest c offered picked dearer notCheaper ih =>
    have later := picked.covers.le_goal
    have positive := p.problem_positive bytes options i c (by simp [offered])
    change i + c.len ≤ bytes.length at later
    change 0 < c.len at positive
    obtain ⟨r, rfl⟩ : ∃ r, rounds = r + 1 := ⟨rounds - 1, by omega⟩
    have whole : (p.problem bytes options).Picks i (c :: rest) :=
      .step offered picked dearer notCheaper
    have entry := right i (by omega)
    rw [Nat.zero_add] at entry
    cases stored : (dp[i]?).join with
    | none =>
      rw [stored] at entry
      exact absurd whole.covers (entry _)
    | some state =>
      rw [stored] at entry
      obtain ⟨cs, pick, _, head⟩ := entry
      rw [pick.unique (p.problem_positive bytes options) whole] at head
      rw [walk, if_neg (by omega), stored]
      change (okOr state.choice _ >>= _) = _
      rw [head]
      change (walk dp bytes.length r (i + c.len) >>= _) = _
      have tail : walk dp bytes.length r (i + c.len) = .ok rest :=
        ih (by change bytes.length ≤ i + c.len + r; omega)
      rw [tail]
      rfl

theorem walk_uncovered {dp : List (Option State)} (right : p.TableRight bytes options 0 dp)
    (uncovered : ∀ choices, ¬ (p.problem bytes options).Covers 0 choices) :
    walk dp bytes.length bytes.length 0 = .error (.planningFailed "target cannot be covered") := by
  have nonempty : 0 < bytes.length := by
    refine Nat.pos_of_ne_zero (fun zero => uncovered [] ?_)
    have : (p.problem bytes options).Covers bytes.length [] := .done
    rwa [zero] at this
  obtain ⟨r, size⟩ : ∃ r, bytes.length = r + 1 := ⟨bytes.length - 1, by omega⟩
  have entry := right 0 (by omega)
  cases stored : (dp[0]?).join with
  | none =>
    rw [size, walk, if_neg (by omega), stored]
    rfl
  | some state =>
    rw [stored] at entry
    obtain ⟨cs, pick, _⟩ := entry
    exact absurd pick.covers (uncovered cs)

theorem Planner.picks_or_uncovered (p : Planner) (bytes : Bytes) (options : PlanOptions) :
    (∃ choices, (p.problem bytes options).Picks 0 choices) ∨
      ∀ choices, ¬ (p.problem bytes options).Covers 0 choices := by
  obtain ⟨filled, _, right⟩ := p.table_right bytes options 0
  have entry := right 0 (by omega)
  cases stored : (filled[0]?).join with
  | none =>
    rw [stored] at entry
    exact Or.inr entry
  | some state =>
    rw [stored] at entry
    obtain ⟨cs, pick, _⟩ := entry
    exact Or.inl ⟨cs, pick⟩

/-- What choose_chunks returns, for any clock: the pick. -/
theorem Planner.chooseChunks_picks {clock : Nat → Nat} {choices : List Choice}
    (h : p.chooseChunks clock bytes options = .ok choices) :
    (p.problem bytes options).Picks 0 choices := by
  simp only [Planner.chooseChunks, except_bind_ok, failWhen_ok] at h
  obtain ⟨_, _, dp, filled, walked⟩ := h
  obtain ⟨dp', filled', right⟩ := p.table_right bytes options options.budget
  cases (Planner.fill_stopped filled).symm.trans filled'
  rcases p.picks_or_uncovered bytes options with ⟨cs, pick⟩ | uncovered
  · cases (walk_picks right (by omega) pick).symm.trans walked
    exact pick
  · cases (walk_uncovered right uncovered).symm.trans walked

section Unhurried

variable {clock : Nat → Nat} (unhurried : options.Unhurried clock)
  (budgeted : options.maxPlanMillisPerValue ≠ 0)
include unhurried budgeted

theorem Planner.chooseChunks_eq_walk (p : Planner) (bytes : Bytes) :
    ∃ dp, p.TableRight bytes options 0 dp ∧
      p.chooseChunks clock bytes options = walk dp bytes.length bytes.length 0 := by
  obtain ⟨dp, filled, right⟩ := p.table_right bytes options options.budget
  refine ⟨dp, right, ?_⟩
  simp only [Planner.chooseChunks, failWhen, if_neg budgeted,
    Planner.fill_unhurried unhurried bytes options, filled]
  rfl

theorem Planner.chooseChunks_of_picks {choices : List Choice}
    (picked : (p.problem bytes options).Picks 0 choices) :
    p.chooseChunks clock bytes options = .ok choices := by
  obtain ⟨dp, right, run⟩ := Planner.chooseChunks_eq_walk unhurried budgeted p bytes
  rw [run]
  exact walk_picks right (by omega) picked

theorem Planner.chooseChunks_uncovered
    (uncovered : ∀ choices, ¬ (p.problem bytes options).Covers 0 choices) :
    p.chooseChunks clock bytes options =
      .error (.planningFailed "target cannot be covered") := by
  obtain ⟨dp, right, run⟩ := Planner.chooseChunks_eq_walk unhurried budgeted p bytes
  rw [run]
  exact walk_uncovered right uncovered

end Unhurried

end Table

theorem locatedChunkEncodedCost_toNat (offset len : UInt64) :
    (locatedChunkEncodedCost offset len).toNat =
      3 + (putVarint offset).length + (putVarint len).length := by
  have := putVarint_length_le offset
  have := putVarint_length_le len
  simp only [locatedChunkEncodedCost, UInt16.toNat_add, varintLen_toNat, UInt16.toNat_one]
  omega

/-- A piece that the value may be cut into at a position: an occurrence in an indexed text, at
any of its offsets, or a literal byte. -/
def Cuttable (indexes : List StreamIndex) (texts : List Bytes) (bytes : Bytes)
    (options : PlanOptions) (pos : Nat) : Choice → Prop
  | .located streamIx offset len encodedCost readCostHint => ∃ index text,
    indexes[streamIx]? = some index ∧ texts[streamIx]? = some text ∧
      0 < len ∧ len ≤ min options.maxK index.maxK ∧ pos + len ≤ bytes.length ∧
      offset.toNat ∈ occurrences text ((bytes.drop pos).take len) ∧
      encodedCost = locatedChunkEncodedCost offset (UInt64.ofNat len) ∧
      readCostHint = UInt16.ofNat len
  | .literal byte => options.allowLiterals = true ∧ bytes[pos]? = some byte

def Indexed (indexes : List StreamIndex) (texts : List Bytes) : Prop :=
  List.Forall₂ (fun index text => ∃ id fingerprint options,
    StreamIndex.fromPrefix id fingerprint text options = .ok index) indexes texts

theorem Indexed.get {indexes : List StreamIndex} {texts : List Bytes}
    (indexed : Indexed indexes texts) {ix : Nat} {index : StreamIndex}
    (there : indexes[ix]? = some index) :
    ∃ text id fingerprint options, texts[ix]? = some text ∧
      StreamIndex.fromPrefix id fingerprint text options = .ok index := by
  obtain ⟨inside, rfl⟩ := List.getElem?_eq_some_iff.mp there
  have same := indexed.length_eq
  obtain ⟨id, fingerprint, options, made⟩ := List.Forall₂.get indexed inside (same ▸ inside)
  exact ⟨_, id, fingerprint, options, List.getElem?_eq_getElem (same ▸ inside), made⟩

theorem Planner.indexed (p : Planner) : ∃ texts, Indexed p.indexes texts := by
  have each := p.built
  revert each
  generalize p.indexes = indexes
  intro each
  induction indexes with
  | nil => exact ⟨[], .nil⟩
  | cons index indexes ih =>
    obtain ⟨id, fingerprint, text, options, made⟩ := each index (List.mem_cons_self ..)
    obtain ⟨texts, rest⟩ := ih (fun i member => each i (List.mem_cons_of_mem _ member))
    exact ⟨text :: texts, .cons ⟨id, fingerprint, options, made⟩ rest⟩

theorem mem_locatedChoices {indexes : List StreamIndex} {needle : Bytes} {c : Choice} :
    c ∈ locatedChoices indexes needle ↔ ∃ ix index, indexes[ix]? = some index ∧
      ∃ found ∈ index.findCandidates needle, c = .located ix found.offset found.len.toNat
        found.encodedCost found.readCostHint := by
  simp only [locatedChoices, List.mem_flatMap, List.mem_map, Prod.exists,
    List.mem_zipIdx_iff_getElem?]
  constructor
  · rintro ⟨index, ix, there, found, member, rfl⟩
    exact ⟨ix, index, there, found, member, rfl⟩
  · rintro ⟨ix, index, there, found, member, rfl⟩
    exact ⟨index, ix, there, found, member, rfl⟩

def Choice.occurrence (ix len offset : Nat) : Choice :=
  .located ix (UInt64.ofNat offset) len
    (locatedChunkEncodedCost (UInt64.ofNat offset) (UInt64.ofNat len)) (UInt16.ofNat len)

theorem Choice.occurrence_mono (ix len : Nat) {i j : Nat} (before : i ≤ j) (wide : j < 2 ^ 64) :
    (Choice.occurrence ix len i).score.key ≤ (Choice.occurrence ix len j).score.key := by
  have below : UInt64.ofNat i ≤ UInt64.ofNat j := by
    rw [UInt64.le_iff_toNat_le, UInt64.toNat_ofNat', UInt64.toNat_ofNat',
      Nat.mod_eq_of_lt (by omega), Nat.mod_eq_of_lt wide]
    exact before
  have cheaper := putVarint_length_mono below
  rw [← not_lt, ← Score.lt_iff]
  simp only [Choice.occurrence, Choice.score, Score.lt, locatedChunkEncodedCost_toNat]
  omega

section Offers

variable {p : Planner} {texts : List Bytes} {bytes : Bytes} {options : PlanOptions} {pos : Nat}

theorem Planner.mem_candidatesAt {c : Choice} :
    c ∈ p.candidatesAt bytes pos options ↔
      (∃ len, 0 < len ∧ len ≤ options.maxK ∧ len ≤ bytes.length - pos ∧
        c ∈ locatedChoices p.indexes ((bytes.drop pos).take len)) ∨
      ∃ byte, options.allowLiterals = true ∧ bytes[pos]? = some byte ∧ c = .literal byte := by
  simp only [Planner.candidatesAt, List.mem_append, List.mem_flatMap, List.mem_range'_1]
  constructor
  · rintro (⟨len, size, located⟩ | literal)
    · exact Or.inl ⟨len, by omega, by omega, by omega, located⟩
    · unfold literalChoice at literal
      split at literal
      · rename_i allowed
        obtain ⟨byte, there, rfl⟩ := List.mem_map.mp literal
        exact Or.inr ⟨byte, allowed, by simpa using there, rfl⟩
      · cases literal
  · rintro (⟨len, positive, short, inside, located⟩ | ⟨byte, allowed, there, rfl⟩)
    · exact Or.inl ⟨len, by omega, located⟩
    · right
      rw [literalChoice, if_pos allowed, there]
      exact List.mem_singleton.mpr rfl

theorem found_occurrence {id : StreamId} {fingerprint : StreamFingerprint} {text needle : Bytes}
    {indexOptions : StreamIndexOptions} {index : StreamIndex}
    (made : StreamIndex.fromPrefix id fingerprint text indexOptions = .ok index) (ix : Nat) :
    (index.findCandidates needle).map (fun found => Choice.located ix found.offset
        found.len.toNat found.encodedCost found.readCostHint) =
      if 0 < needle.length ∧ needle.length ≤ index.maxK then
        ((occurrences text needle).take indexOptions.maxOffsetsPerKgram.toNat).map
          (Choice.occurrence ix needle.length)
      else [] := by
  have within := (fromPrefix_ok made).within
  have bound := (fromPrefix_ok made).bound
  rw [fromPrefix_findCandidates made]
  split
  · rename_i usable
    rw [List.map_map]
    apply List.map_congr_left
    intro offset _
    have size : (UInt16.ofNat needle.length).toNat = needle.length := by
      rw [UInt16.toNat_ofNat', Nat.mod_eq_of_lt (by omega)]
    simp only [Function.comp, IndexedChunk.at, Choice.occurrence, size]
  · rfl

theorem occurrence_offset {id : StreamId} {fingerprint : StreamFingerprint} {text needle : Bytes}
    {indexOptions : StreamIndexOptions} {index : StreamIndex}
    (made : StreamIndex.fromPrefix id fingerprint text indexOptions = .ok index) {i : Nat}
    (occurs : i ∈ occurrences text needle) : (UInt64.ofNat i).toNat = i := by
  have small := (fromPrefix_ok made).small
  have := (mem_occurrences.mp occurs).1
  exact lenU64_toNat (by omega)

theorem Planner.offers_cuttable (indexed : Indexed p.indexes texts) {c : Choice}
    (offered : c ∈ p.candidatesAt bytes pos options) :
    Cuttable p.indexes texts bytes options pos c := by
  rcases Planner.mem_candidatesAt.mp offered with ⟨len, positive, short, inside, located⟩ |
    ⟨byte, allowed, there, rfl⟩
  · obtain ⟨ix, index, there, found, member, rfl⟩ := mem_locatedChoices.mp located
    obtain ⟨text, id, fingerprint, indexOptions, textThere, made⟩ := indexed.get there
    have size : ((bytes.drop pos).take len).length = len := window_length (by omega)
    have image := List.mem_map_of_mem (f := fun found : IndexedChunk => Choice.located ix
      found.offset found.len.toNat found.encodedCost found.readCostHint) member
    rw [found_occurrence made, size] at image
    split at image
    · rename_i usable
      obtain ⟨offset, kept, same⟩ := List.mem_map.mp image
      have occurs := List.mem_of_mem_take kept
      rw [← same]
      refine ⟨index, text, there, textThere, positive, by omega, by omega, ?_, rfl, rfl⟩
      rw [occurrence_offset made occurs]
      exact occurs
    · cases image
  · exact ⟨allowed, there⟩

/-- Of every piece that may be cut out there is one on offer of the same length that costs no
more: the first occurrence is always kept. -/
theorem Planner.cuttable_dominated (indexed : Indexed p.indexes texts) {d : Choice}
    (cuttable : Cuttable p.indexes texts bytes options pos d) :
    ∃ c ∈ p.candidatesAt bytes pos options, c.len = d.len ∧ c.score.key ≤ d.score.key := by
  cases d with
  | literal byte =>
    obtain ⟨allowed, there⟩ := cuttable
    exact ⟨.literal byte, Planner.mem_candidatesAt.mpr (Or.inr ⟨byte, allowed, there, rfl⟩), rfl,
      le_refl _⟩
  | located ix offset len cost hint =>
    obtain ⟨index, text, there, textThere, positive, short, inside, occurs, rfl, rfl⟩ := cuttable
    obtain ⟨text', id, fingerprint, indexOptions, textThere', made⟩ := indexed.get there
    cases textThere.symm.trans textThere'
    have room : indexOptions.maxOffsetsPerKgram.toNat ≠ 0 :=
      fun zero => (fromPrefix_ok made).retained (UInt16.toNat_inj.mp zero)
    have size : ((bytes.drop pos).take len).length = len := window_length (by omega)
    obtain ⟨first, later, order⟩ := List.exists_cons_of_ne_nil (List.ne_nil_of_mem occurs)
    have least : first ≤ offset.toNat := by
      have increasing := occurrences_pairwise text ((bytes.drop pos).take len)
      rw [order] at increasing occurs
      rcases List.mem_cons.mp occurs with same | behind
      · exact Nat.le_of_eq same.symm
      · exact Nat.le_of_lt ((List.pairwise_cons.mp increasing).1 _ behind)
    have member : Choice.occurrence ix len first ∈
        (index.findCandidates ((bytes.drop pos).take len)).map (fun found => Choice.located ix
          found.offset found.len.toNat found.encodedCost found.readCostHint) := by
      rw [found_occurrence made, size, if_pos ⟨positive, by omega⟩, order]
      obtain ⟨n, count⟩ := Nat.exists_eq_succ_of_ne_zero room
      rw [count, List.take_succ_cons]
      exact List.mem_map_of_mem (List.mem_cons_self ..)
    obtain ⟨found, here, same⟩ := List.mem_map.mp member
    refine ⟨Choice.occurrence ix len first, Planner.mem_candidatesAt.mpr (Or.inl ⟨len, positive,
      by omega, by omega, mem_locatedChoices.mpr ⟨ix, index, there, found, here, same.symm⟩⟩), rfl,
      ?_⟩
    have cheaper := Choice.occurrence_mono ix len least offset.toNat_lt
    simp only [Choice.occurrence, UInt64.ofNat_toNat] at cheaper
    exact cheaper

end Offers

/-- No way of cutting the value into pieces has a smaller score than the chunks that are
chosen. -/
theorem planner_optimal (p : Planner) (texts : List Bytes) (indexed : Indexed p.indexes texts)
    (clock : Nat → Nat) (bytes : Bytes) (options : PlanOptions) (choices : List Choice)
    (chosen : p.chooseChunks clock bytes options = .ok choices) (pieces : List Choice)
    (cut : Cut Choice.len bytes.length (Cuttable p.indexes texts bytes options) 0 pieces) :
    ¬ (totalScore pieces).lt (totalScore choices) := by
  have picked := Planner.chooseChunks_picks chosen
  obtain ⟨cs, covered, le⟩ := cut.dominated (fun c => c.score.key)
    (fun _ _ cuttable => Planner.cuttable_dominated indexed cuttable)
  have least := picked.least (p.problem_positive bytes options) covered
  rw [Score.lt_iff, not_lt, ← p.total_problem bytes options, ← p.total_problem bytes options]
  exact least.trans le

def sampleIndex (fingerprint : StreamFingerprint) : StreamIndex where
  streamId := .piHexFractionPrefixV1 (digestOf 0) 2
  streamFingerprint := fingerprint
  prefixLen := 2
  maxK := 2
  memoryBudgetBytes := 1024
  byLen := [⟨1, [⟨0x61, 0, 1⟩, ⟨0x62, 1, 1⟩], [0, 1]⟩, ⟨2, [⟨0x6162, 0, 1⟩], [0]⟩]

theorem sampleIndex_made (fingerprint : StreamFingerprint) :
    StreamIndex.fromPrefix (.piHexFractionPrefixV1 (digestOf 0) 2) fingerprint [0x61, 0x62]
      narrowIndex = .ok (sampleIndex fingerprint) := rfl

def samplePlanner (fingerprint : StreamFingerprint) (registry : StreamRegistry) : Planner where
  indexes := [sampleIndex fingerprint]
  registry := registry
  options := PlanOptions.default
  built := by
    intro index member
    obtain rfl := List.mem_singleton.mp member
    exact ⟨_, fingerprint, _, _, sampleIndex_made fingerprint⟩

theorem samplePlanner_indexed (fingerprint : StreamFingerprint) (registry : StreamRegistry) :
    Indexed (samplePlanner fingerprint registry).indexes [[0x61, 0x62]] :=
  .cons ⟨_, fingerprint, _, sampleIndex_made fingerprint⟩ .nil

theorem planner_optimal_sample :
    let p := samplePlanner (digestOf 0) ⟨[]⟩
    p.chooseChunks stopped [0x61, 0x62] .default = .ok [Choice.occurrence 0 2 0] ∧
      ¬ (totalScore [Choice.occurrence 0 1 0, Choice.occurrence 0 1 1]).lt
        (totalScore [Choice.occurrence 0 2 0]) := by
  refine ⟨by decide, planner_optimal (samplePlanner (digestOf 0) ⟨[]⟩) [[0x61, 0x62]]
    (samplePlanner_indexed _ _) stopped [0x61, 0x62] .default _ (by decide) _ ?_⟩
  have first : Cuttable [sampleIndex (digestOf 0)] [[0x61, 0x62]] [0x61, 0x62] .default 0
      (Choice.occurrence 0 1 0) :=
    ⟨_, _, rfl, rfl, by decide, by decide, by decide, by decide, rfl, rfl⟩
  have second : Cuttable [sampleIndex (digestOf 0)] [[0x61, 0x62]] [0x61, 0x62] .default 1
      (Choice.occurrence 0 1 1) :=
    ⟨_, _, rfl, rfl, by decide, by decide, by decide, by decide, rfl, rfl⟩
  exact .step first (.step second .done)

end PiLSMer
