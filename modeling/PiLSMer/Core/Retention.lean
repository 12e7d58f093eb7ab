import PiLSMer.Core.Optimal

/-! Retained offsets do not change a plan. Of the offsets an index keeps for a k-gram only the
first can ever be chosen: the others come after it, are as long and cost no less, and a tie is
left to the earlier one. -/
namespace PiLSMer
open Cover

def StreamIndex.Alike (index index' : StreamIndex) : Prop :=
  ∃ id fingerprint text options options',
    StreamIndex.fromPrefix id fingerprint text options = .ok index ∧
      StreamIndex.fromPrefix id fingerprint text options' = .ok index' ∧ index.maxK = index'.maxK

section Fold

variable (dp : List (Option State))

theorem foldl_occurrences {offsets : List Nat} (ix len : Nat)
    (increasing : offsets.Pairwise (· < ·)) (wide : ∀ i ∈ offsets, i < 2 ^ 64) {max : Nat}
    (room : max ≠ 0) (best : Option State) :
    ((offsets.take max).map (Choice.occurrence ix len)).foldl (betterOf dp) best =
      ((offsets.take 1).map (Choice.occurrence ix len)).foldl (betterOf dp) best := by
  obtain ⟨n, rfl⟩ := Nat.exists_eq_succ_of_ne_zero room
  cases offsets with
  | nil => rfl
  | cons first later =>
    rw [List.take_succ_cons, List.take_succ_cons, List.map_cons, List.take_zero,
      betterOf_eq_improve]
    refine foldl_improve_dominated best (fun d hd t led => ?_)
    obtain ⟨i, member, rfl⟩ := List.mem_map.mp hd
    have behind := List.mem_of_mem_take member
    have cheaper := Choice.occurrence_mono ix len
      (Nat.le_of_lt ((List.pairwise_cons.mp increasing).1 i behind))
      (wide i (List.mem_cons_of_mem _ behind))
    obtain ⟨next, there, rfl⟩ := Option.map_eq_some_iff.mp led
    refine ⟨State.extend (Choice.occurrence ix len first) next, ?_, ?_⟩
    · exact Option.map_eq_some_iff.mpr ⟨next, there, rfl⟩
    · simp only [State.extend, Score.key_combine]
      exact add_le_add_left cheaper _

def indexChoices (index : StreamIndex) (ix : Nat) (needle : Bytes) : List Choice :=
  (index.findCandidates needle).map (fun found => Choice.located ix found.offset
    found.len.toNat found.encodedCost found.readCostHint)

theorem StreamIndex.Alike.fold {index index' : StreamIndex} (alike : index.Alike index')
    (ix : Nat) (needle : Bytes) (best : Option State) :
    (indexChoices index ix needle).foldl (betterOf dp) best =
      (indexChoices index' ix needle).foldl (betterOf dp) best := by
  obtain ⟨id, fingerprint, text, options, options', made, made', same⟩ := alike
  have room : ∀ m : UInt16, m ≠ 0 → m.toNat ≠ 0 :=
    fun m some_room zero => some_room (UInt16.toNat_inj.mp zero)
  have wide : ∀ i ∈ occurrences text needle, i < 2 ^ 64 := by
    intro i occurs
    rw [← occurrence_offset made occurs]
    exact UInt64.toNat_lt _
  have increasing := occurrences_pairwise text needle
  rw [indexChoices, indexChoices, found_occurrence made, found_occurrence made', same]
  split
  · rw [foldl_occurrences dp ix _ increasing wide (room _ (fromPrefix_ok made).retained),
      foldl_occurrences dp ix _ increasing wide (room _ (fromPrefix_ok made').retained)]
  · rfl

theorem foldl_zipIdx {indexes indexes' : List StreamIndex}
    (alike : List.Forall₂ StreamIndex.Alike indexes indexes') (needle : Bytes) (n : Nat)
    (best : Option State) :
    (indexes.zipIdx n).foldl
        (fun acc x => (indexChoices x.1 x.2 needle).foldl (betterOf dp) acc) best =
      (indexes'.zipIdx n).foldl
        (fun acc x => (indexChoices x.1 x.2 needle).foldl (betterOf dp) acc) best := by
  induction alike generalizing n best with
  | nil => rfl
  | cons head _ ih =>
    rw [List.zipIdx_cons, List.zipIdx_cons, List.foldl_cons, List.foldl_cons, head.fold]
    exact ih (n + 1) _

variable {p q : Planner} (alike : List.Forall₂ StreamIndex.Alike p.indexes q.indexes)
include alike

theorem foldl_locatedChoices (needle : Bytes) (best : Option State) :
    (locatedChoices p.indexes needle).foldl (betterOf dp) best =
      (locatedChoices q.indexes needle).foldl (betterOf dp) best := by
  rw [locatedChoices, locatedChoices, List.foldl_flatMap, List.foldl_flatMap]
  exact foldl_zipIdx dp alike needle 0 best

theorem foldl_candidatesAt (bytes : Bytes) (pos : Nat) (options : PlanOptions)
    (best : Option State) :
    (p.candidatesAt bytes pos options).foldl (betterOf dp) best =
      (q.candidatesAt bytes pos options).foldl (betterOf dp) best := by
  simp only [Planner.candidatesAt, List.foldl_append, List.foldl_flatMap,
    foldl_locatedChoices dp alike]

end Fold

section Plans

variable {p q : Planner} (alike : List.Forall₂ StreamIndex.Alike p.indexes q.indexes)
include alike

theorem Planner.fill_alike (clock : Nat → Nat) (budget : Nat) (bytes : Bytes)
    (options : PlanOptions) (i : Nat) (dp : List (Option State)) :
    p.fill clock budget bytes options i dp = q.fill clock budget bytes options i dp := by
  induction i generalizing dp with
  | zero => rfl
  | succ i ih => simp only [Planner.fill, foldl_candidatesAt _ alike, ih]

theorem Planner.chooseChunks_alike (clock : Nat → Nat) (bytes : Bytes) (options : PlanOptions) :
    p.chooseChunks clock bytes options = q.chooseChunks clock bytes options := by
  simp only [Planner.chooseChunks, Planner.fill_alike alike]

omit alike in
theorem planStreams_alike {indexes indexes' : List StreamIndex}
    (alike : List.Forall₂ StreamIndex.Alike indexes indexes') :
    indexes.map (fun index => PlanStream.mk index.streamId index.streamFingerprint) =
      indexes'.map (fun index => PlanStream.mk index.streamId index.streamFingerprint) := by
  induction alike with
  | nil => rfl
  | cons head _ ih =>
    obtain ⟨id, fingerprint, text, options, options', made, made', _⟩ := head
    have indexes := fromPrefix_ok made
    have indexes' := fromPrefix_ok made'
    rw [List.map_cons, List.map_cons, ih, indexes.streamId, indexes.streamFingerprint,
      indexes'.streamId, indexes'.streamFingerprint]

theorem Planner.assemble_alike [Digests] (bytes : Bytes) (options : PlanOptions)
    (choices : List Choice) :
    p.assemble bytes options choices = q.assemble bytes options choices := by
  simp only [Planner.assemble, Planner.planStreams, planStreams_alike alike]

end Plans

/-- Planners over indexes of the same texts plan alike, however many offsets each index keeps. -/
theorem retention_irrelevant [Digests] (p q : Planner)
    (alike : List.Forall₂ StreamIndex.Alike p.indexes q.indexes)
    (registries : p.registry = q.registry) (clock clock' : Nat → Nat) (bytes : Bytes)
    (options : PlanOptions) (unhurried : options.Unhurried clock)
    (unhurried' : options.Unhurried clock') :
    p.chooseChunks clock bytes options = q.chooseChunks clock' bytes options ∧
      p.planWithOptions clock bytes options = q.planWithOptions clock' bytes options := by
  have chosen : p.chooseChunks clock bytes options = q.chooseChunks clock' bytes options := by
    rw [Planner.chooseChunks_alike alike]
    simp only [Planner.chooseChunks, Planner.fill_unhurried unhurried bytes options,
      Planner.fill_unhurried unhurried' bytes options]
  refine ⟨chosen, ?_⟩
  simp only [Planner.planWithOptions, chosen, Planner.assemble_alike alike, registries]

def sampleIndexTwice : StreamIndex where
  streamId := .sha256CounterV1 (digestOf 0)
  streamFingerprint := digestOf 0
  prefixLen := 3
  maxK := 1
  memoryBudgetBytes := 1024
  byLen := [⟨1, [⟨0x61, 0, 2⟩, ⟨0x62, 2, 1⟩], [0, 2, 1]⟩]

def sampleIndexOnce : StreamIndex :=
  { sampleIndexTwice with byLen := [⟨1, [⟨0x61, 0, 1⟩, ⟨0x62, 1, 1⟩], [0, 1]⟩] }

theorem sampleIndexes_alike : sampleIndexTwice.Alike sampleIndexOnce :=
  ⟨.sha256CounterV1 (digestOf 0), digestOf 0, [0x61, 0x62, 0x61],
    { narrowIndex with maxK := 1, maxOffsetsPerKgram := 2 }, { narrowIndex with maxK := 1 },
    rfl, rfl, rfl⟩

def onePlanner [Digests] (index : StreamIndex) (built : index.Built) : Planner where
  indexes := [index]
  registry := ⟨[PrefixByteStream.new (.sha256CounterV1 (digestOf 0)) [0x61, 0x62, 0x61]]⟩
  options := .default
  built := fun _ member => List.mem_singleton.mp member ▸ built

theorem retention_irrelevant_sample :
    letI := sampleDigests
    ∃ (p q : Planner) (plan : ReconstructionPlan), p.indexes = [sampleIndexTwice] ∧
      q.indexes = [sampleIndexOnce] ∧ p.planWithOptions stopped [0x61, 0x61] .default = .ok plan ∧
      p.planWithOptions stopped [0x61, 0x61] .default =
        q.planWithOptions stopped [0x61, 0x61] .default := by
  let _ := sampleDigests
  have calm : PlanOptions.default.Unhurried stopped := fun _ => Nat.zero_le _
  obtain ⟨id, fingerprint, text, options, options', made, made', same⟩ := sampleIndexes_alike
  let p := onePlanner sampleIndexTwice ⟨id, fingerprint, text, options, made⟩
  let q := onePlanner sampleIndexOnce ⟨id, fingerprint, text, options', made'⟩
  exact ⟨p, q, _, rfl, rfl, rfl, (retention_irrelevant p q (.cons sampleIndexes_alike .nil) rfl
    stopped stopped [0x61, 0x61] .default calm calm).2⟩

end PiLSMer
