import PiLSMer.Core.Bounded
import PiLSMer.Core.CounterStream
import PiLSMer.Core.CostModel

/-! When planning succeeds. A value has a cover just when it is empty, literals are allowed, or
each of its bytes is in an indexed text; a cover reconstructs as long as its stream numbers
survive the cast to u32. -/
namespace PiLSMer
open Cover

def StreamIndex.build (stream : ByteStream) (options : StreamIndexOptions) :
    Except PiLsmError StreamIndex := do
  let prefixLen ← checkedUsize options.maxPrefixLen "prefix_len"
  let text ← stream.readAt 0 prefixLen
  StreamIndex.fromPrefix stream.id stream.fingerprint text options

structure ByteStream.Lawful (stream : ByteStream) : Prop where
  exact : ∀ offset len bytes, stream.readAt offset len = .ok bytes → bytes.length = len
  agrees : ∀ n text, stream.readAt 0 n = .ok text → ∀ offset len, offset.toNat + len ≤ n →
    stream.readAt offset len = .ok ((text.drop offset.toNat).take len)

theorem PrefixByteStream.lawful [Digests] (id : StreamId) (bytes : Bytes) :
    (PrefixByteStream.new id bytes).Lawful := by
  refine ⟨fun offset len read run => prefixReadAt_length run, fun n text run offset len low => ?_⟩
  simp only [PrefixByteStream.new, prefixReadAt] at run ⊢
  split at run
  · cases run
  · rename_i small
    split at run
    · cases run
    · rename_i inside
      cases run
      rw [UInt64.toNat_zero, Nat.zero_add] at small inside
      rw [if_neg (by omega), if_neg (by omega), UInt64.toNat_zero, List.drop_zero,
        List.drop_take, List.take_take, Nat.min_eq_left (by omega)]

theorem Sha256CounterStream.lawful [Digests] (seed : Arr 32) :
    (Sha256CounterStream.new seed).Lawful := by
  have readable : ∀ offset len bytes, (Sha256CounterStream.new seed).readAt offset len =
      .ok bytes → len ≠ 0 → offset.toNat + len ≤ 2 ^ 64 - 32 := by
    intro offset len bytes run some_bytes
    by_contra high
    simp only [Sha256CounterStream.new] at run
    by_cases low : offset.toNat + len < 2 ^ 64
    · rw [counterRead_panics seed offset (by omega) (by omega) low] at run
      cases run
    · rw [sha256CounterReadAt, if_neg some_bytes] at run
      dsimp only at run
      rw [if_pos (by omega)] at run
      cases run
  have empty : ∀ offset, (Sha256CounterStream.new seed).readAt offset 0 = .ok [] := fun _ => rfl
  have returns : ∀ offset len, offset.toNat + len ≤ 2 ^ 64 - 32 → ∃ bytes,
      (Sha256CounterStream.new seed).readAt offset len = .ok bytes ∧ bytes.length = len ∧
      ∀ j, j < len → bytes[j]? = counterByte seed (offset.toNat + j) := by
    intro offset len low
    obtain ⟨bytes, run, size, each⟩ := counterRead_exact seed offset len low
    exact ⟨bytes, by simp only [Sha256CounterStream.new, run, Option.getD_some], size, each⟩
  constructor
  · intro offset len bytes run
    by_cases none_asked : len = 0
    · subst none_asked
      cases (empty offset).symm.trans run
      rfl
    · obtain ⟨bytes', run', size, _⟩ :=
        returns offset len (readable offset len bytes run none_asked)
      cases run.symm.trans run'
      exact size
  · intro n text run offset len low
    by_cases none_asked : len = 0
    · subst none_asked
      rw [empty, List.take_zero]
    · have high := readable 0 n text run (by omega)
      rw [UInt64.toNat_zero] at high
      obtain ⟨text', run', size, each⟩ := returns 0 n (by rw [UInt64.toNat_zero]; exact high)
      cases run.symm.trans run'
      obtain ⟨bytes, read, size', each'⟩ := returns offset len (by omega)
      rw [read]
      congr 1
      apply List.ext_getElem?
      intro j
      by_cases inside : j < len
      · rw [each' j inside, List.getElem?_take_of_lt inside, List.getElem?_drop,
          each _ (by omega), UInt64.toNat_zero, Nat.zero_add]
      · rw [List.getElem?_eq_none (by omega), List.getElem?_eq_none]
        rw [List.length_take, List.length_drop]
        omega

/-- The planner's indexes are built over these texts from streams in its registry. -/
def Planner.Registered (p : Planner) (texts : List Bytes) : Prop :=
  List.Forall₂ (fun index text => ∃ stream options,
    p.registry.get stream.id = some stream ∧
      stream.readAt 0 options.maxPrefixLen.toNat = .ok text ∧
      StreamIndex.build stream options = .ok index) p.indexes texts

/-- The values that the indexed texts and the options can express. -/
def Expressible (texts : List Bytes) (options : PlanOptions) (bytes : Bytes) : Prop :=
  bytes = [] ∨ options.allowLiterals = true ∨
    (1 ≤ options.maxK ∧ ∀ byte ∈ bytes, ∃ text ∈ texts, byte ∈ text)

theorem build_fromPrefix {stream : ByteStream} {options : StreamIndexOptions} {text : Bytes}
    {index : StreamIndex} (read : stream.readAt 0 options.maxPrefixLen.toNat = .ok text)
    (h : StreamIndex.build stream options = .ok index) :
    StreamIndex.fromPrefix stream.id stream.fingerprint text options = .ok index := by
  simp only [StreamIndex.build, checkedUsize, except_bind_ok] at h
  obtain ⟨n, size, text', read', made⟩ := h
  cases size
  cases read.symm.trans read'
  exact made

theorem Planner.Registered.indexed {p : Planner} {texts : List Bytes}
    (h : p.Registered texts) : Indexed p.indexes texts :=
  h.imp (fun _ _ built_over => by
    obtain ⟨stream, options, _, read, built⟩ := built_over
    exact ⟨stream.id, stream.fingerprint, options, build_fromPrefix read built⟩)

theorem Planner.Registered.get {p : Planner} {texts : List Bytes} (h : p.Registered texts)
    {ix : Nat} {index : StreamIndex} (there : p.indexes[ix]? = some index) :
    ∃ text stream, texts[ix]? = some text ∧ p.registry.get index.streamId = some stream ∧
      stream.fingerprint = index.streamFingerprint ∧
      ∃ n, stream.readAt 0 n = .ok text := by
  obtain ⟨inside, rfl⟩ := List.getElem?_eq_some_iff.mp there
  have same := List.Forall₂.length_eq h
  obtain ⟨stream, options, registered, read, built⟩ := List.Forall₂.get h inside (same ▸ inside)
  have indexes := fromPrefix_ok (build_fromPrefix read built)
  refine ⟨_, stream, List.getElem?_eq_getElem (same ▸ inside), ?_,
    indexes.streamFingerprint.symm, _, read⟩
  exact indexes.streamId ▸ registered

section Cover

variable {p : Planner} {texts : List Bytes} {bytes : Bytes} {options : PlanOptions}

theorem buildTables_grows {text : Bytes} {options : StreamIndexOptions} {ks : List Nat}
    {byLen tables : List PackedKGramTable} {estimated : UInt64}
    (h : buildTables text options ks byLen estimated = .ok tables) :
    byLen.length ≤ tables.length := by
  induction ks generalizing byLen estimated with
  | nil =>
    cases h
    exact Nat.le_refl _
  | cons k ks ih =>
    unfold buildTables at h
    split at h
    · cases h
      exact Nat.le_refl _
    · simp only [except_bind_ok] at h
      obtain ⟨table, _, next, _, h⟩ := h
      split at h
      · split at h
        · cases h
        · cases h
          exact Nat.le_refl _
      · have := ih h
        rw [List.length_append] at this
        omega

theorem fromPrefix_maxK {id : StreamId} {fingerprint : StreamFingerprint} {text : Bytes}
    {options : StreamIndexOptions} {index : StreamIndex} (nonempty : 0 < text.length)
    (made : StreamIndex.fromPrefix id fingerprint text options = .ok index) : 1 ≤ index.maxK := by
  have built := (fromPrefix_ok made).tables
  have count := (fromPrefix_ok made).count
  simp only [StreamIndex.fromPrefix, except_bind_ok, failWhen_ok] at made
  obtain ⟨_, k, _⟩ := made
  obtain ⟨n, size⟩ := Nat.exists_eq_succ_of_ne_zero (n := options.maxK) (by omega)
  rw [size, List.range'_succ, buildTables, if_neg (by omega)] at built
  simp only [except_bind_ok] at built
  obtain ⟨table, _, next, _, built⟩ := built
  split at built
  · simp [throw, throwThe, MonadExceptOf.throw] at built
  · have := buildTables_grows built
    rw [count]
    exact this

theorem Expressible.covers (indexed : Indexed p.indexes texts)
    (h : Expressible texts options bytes) :
    ∃ choices, (p.problem bytes options).Covers 0 choices := by
  have onto : ∀ pos, pos < bytes.length →
      ∃ c, Cuttable p.indexes texts bytes options pos c ∧ c.len = 1 := by
    intro pos inside
    rcases h with rfl | allowed | ⟨someK, each⟩
    · exact absurd inside (Nat.not_lt_zero _)
    · exact ⟨.literal bytes[pos], ⟨allowed, List.getElem?_eq_getElem inside⟩, rfl⟩
    · obtain ⟨text, member, occurs⟩ := each bytes[pos] (List.getElem_mem inside)
      obtain ⟨ix, there, rfl⟩ := List.getElem_of_mem member
      obtain ⟨offset, low, found⟩ := List.getElem_of_mem occurs
      have same := List.Forall₂.length_eq indexed
      obtain ⟨id, fingerprint, indexOptions, made⟩ :=
        List.Forall₂.get indexed (same ▸ there) there
      have needle : (bytes.drop pos).take 1 = [bytes[pos]] := by
        rw [List.drop_eq_getElem_cons inside]
        rfl
      have occurrence : offset ∈ occurrences texts[ix] [bytes[pos]] := by
        refine mem_occurrences.mpr ⟨low, ?_⟩
        rw [List.drop_eq_getElem_cons low, ← found]
        rfl
      refine ⟨Choice.occurrence ix 1 offset, ?_, rfl⟩
      refine ⟨_, _, List.getElem?_eq_getElem (same ▸ there), List.getElem?_eq_getElem there,
        Nat.one_pos, ?_, inside, ?_, rfl, rfl⟩
      · have := fromPrefix_maxK (Nat.zero_lt_of_lt low) made
        change 1 ≤ min _ _
        simp only [List.get_eq_getElem] at this
        omega
      · rw [needle, occurrence_offset made occurrence]
        exact occurrence
  -- From the end of the value backwards, a byte at a time.
  have from_end : ∀ left, left ≤ bytes.length →
      ∃ choices, (p.problem bytes options).Covers (bytes.length - left) choices := by
    intro left
    induction left with
    | zero => exact fun _ => ⟨[], .done⟩
    | succ left ih =>
      intro room
      obtain ⟨choices, covered⟩ := ih (by omega)
      obtain ⟨d, cuttable, one⟩ := onto (bytes.length - (left + 1)) (by omega)
      obtain ⟨c, offered, size, _⟩ := Planner.cuttable_dominated indexed cuttable
      refine ⟨c :: choices, .step offered ?_⟩
      have next : bytes.length - (left + 1) + c.len = bytes.length - left := by omega
      change Cut _ _ _ (bytes.length - (left + 1) + c.len) choices
      rw [next]
      exact covered
  have whole := from_end bytes.length (Nat.le_refl _)
  rwa [Nat.sub_self] at whole

theorem cut_bytes (located_only : ¬ options.allowLiterals = true) {i : Nat} {pieces : List Choice}
    (cut : Cut Choice.len bytes.length (Cuttable p.indexes texts bytes options) i pieces) :
    (i < bytes.length → 1 ≤ options.maxK) ∧
      ∀ j (inside : j < bytes.length), i ≤ j → ∃ text ∈ texts, bytes[j] ∈ text := by
  induction cut with
  | done => exact ⟨fun h => absurd h (Nat.lt_irrefl _), fun j inside low => by omega⟩
  | @step i c cs cuttable _ ih =>
    cases c with
    | literal byte => exact absurd cuttable.1 located_only
    | located ix offset len cost hint =>
      obtain ⟨index, text, _, there, positive, short, fits, occurs, _⟩ := cuttable
      refine ⟨fun _ => by omega, fun j inside low => ?_⟩
      by_cases here : j < i + len
      · refine ⟨text, List.mem_of_getElem? there, ?_⟩
        have needle := (mem_occurrences.mp occurs).2
        have size : ((bytes.drop i).take len).length = len := window_length (by omega)
        rw [size] at needle
        have byte : ((text.drop offset.toNat).take len)[j - i]? = some bytes[j] := by
          rw [needle, List.getElem?_take_of_lt (by omega), List.getElem?_drop,
            show i + (j - i) = j by omega, List.getElem?_eq_getElem inside]
        exact List.mem_of_mem_drop (List.mem_of_mem_take (List.mem_of_getElem? byte))
      · exact ih.2 j inside (by simp only [Choice.len]; omega)

theorem covers_iff_expressible (bytes : Bytes) (options : PlanOptions)
    (indexed : Indexed p.indexes texts) :
    (∃ choices, (p.problem bytes options).Covers 0 choices) ↔ Expressible texts options bytes := by
  refine ⟨?_, Expressible.covers indexed⟩
  rintro ⟨choices, covered⟩
  have cut : ∀ {i cs}, (p.problem bytes options).Covers i cs →
      Cut Choice.len bytes.length (Cuttable p.indexes texts bytes options) i cs := by
    intro i cs h
    unfold Problem.Covers at h
    induction h with
    | done => exact .done
    | step offered _ ih => exact .step (Planner.offers_cuttable indexed offered) ih
  by_cases allowed : options.allowLiterals = true
  · exact Or.inr (Or.inl allowed)
  · obtain ⟨someK, each⟩ := cut_bytes allowed (cut covered)
    by_cases empty : bytes = []
    · exact Or.inl empty
    · refine Or.inr (Or.inr ⟨someK (List.length_pos_iff.mpr empty), fun byte member => ?_⟩)
      obtain ⟨j, inside, rfl⟩ := List.getElem_of_mem member
      exact each j inside (Nat.zero_le _)

end Cover

def Planner.readOf (p : Planner) (ix : Nat) (offset : UInt64) (len : Nat) :
    Option (Except PiLsmError Bytes) := do
  let index ← p.indexes[ix]?
  let stream ← p.registry.get index.streamId
  some (stream.readAt offset len)

/-- The chunk of a choice names its stream by a u32: the stream of that number reads the same. -/
def Choice.Survives (p : Planner) : Choice → Prop
  | .located streamIx offset len _ _ =>
    p.readOf (streamIx % 2 ^ 32) offset len = p.readOf streamIx offset len
  | .literal _ => True

section Reads

variable {p : Planner} {texts : List Bytes} {bytes : Bytes} {options : PlanOptions}

theorem own_read (registered : p.Registered texts)
    (lawful : ∀ stream ∈ p.registry.streams, stream.Lawful) {pos ix len : Nat} {offset : UInt64}
    {cost hint : UInt16}
    (cuttable : Cuttable p.indexes texts bytes options pos (.located ix offset len cost hint)) :
    p.readOf ix offset len = some (.ok ((bytes.drop pos).take len)) := by
  obtain ⟨index, text, there, textThere, _, _, inside, occurs, _⟩ := cuttable
  obtain ⟨text', stream, textThere', found, _, n, read⟩ := registered.get there
  cases textThere.symm.trans textThere'
  have law := lawful stream (StreamRegistry.get_mem found)
  have whole := law.exact 0 n text read
  have size : ((bytes.drop pos).take len).length = len := window_length (by omega)
  obtain ⟨low, needle⟩ := mem_occurrences.mp occurs
  rw [size] at needle
  have fits : offset.toNat + len ≤ n := by
    have := congrArg List.length needle
    rw [size, List.length_take, List.length_drop] at this
    omega
  simp only [Planner.readOf, there, found, law.agrees n text read offset len fits, needle,
    Option.bind_eq_bind, Option.bind_some]

theorem chunk_read (registered : p.Registered texts) {ix len : Nat} (inside : ix < p.indexes.length)
    (short : len ≤ 8) (offset : UInt64) (cost hint : UInt16) : ∃ run,
      p.readOf (ix % 2 ^ 32) offset len = some run ∧
      reconstructChunk p.registry p.planStreams
        (Choice.toChunk (.located ix offset len cost hint)) = run := by
  have inside' : ix % 2 ^ 32 < p.indexes.length := Nat.lt_of_le_of_lt (Nat.mod_le _ _) inside
  have there := List.getElem?_eq_getElem inside'
  obtain ⟨_, stream, _, found, fingerprint, _⟩ := registered.get there
  have streamMeta : p.planStreams[ix % 2 ^ 32]? =
      some ⟨(p.indexes[ix % 2 ^ 32]).streamId, (p.indexes[ix % 2 ^ 32]).streamFingerprint⟩ := by
    rw [Planner.planStreams, List.getElem?_map, there]
    rfl
  have width : (UInt32.ofNat len).toNat = len := by
    rw [UInt32.toNat_ofNat', Nat.mod_eq_of_lt (by omega)]
  refine ⟨stream.readAt offset len, ?_, ?_⟩
  · simp only [Planner.readOf, there, found, Option.bind_eq_bind, Option.bind_some]
  · simp only [Choice.toChunk, reconstructChunk, UInt32.toNat_ofNat', streamMeta, okOr, bind,
      Except.bind, found, width, failWhen, fingerprint, ne_eq, not_true_eq_false, if_false]
    cases stream.readAt offset len <;> rfl

theorem reconstructFrom_extends {registry : StreamRegistry} {streams : List PlanStream}
    {chunks : List ChunkRef} {out v : Bytes}
    (h : reconstructFrom registry streams out chunks = .ok v) : ∃ w, v = out ++ w := by
  induction chunks generalizing out with
  | nil =>
    cases h
    exact ⟨[], by simp⟩
  | cons chunk chunks ih =>
    simp only [reconstructFrom, except_bind_ok] at h
    obtain ⟨slice, _, run⟩ := h
    obtain ⟨w, rfl⟩ := ih run
    exact ⟨slice ++ w, by simp⟩

theorem reconstructFrom_cover_iff (registered : p.Registered texts)
    (lawful : ∀ stream ∈ p.registry.streams, stream.Lawful) {i : Nat} {choices : List Choice}
    (covered : (p.problem bytes options).Covers i choices) (out : Bytes) :
    reconstructFrom p.registry p.planStreams out (choices.map Choice.toChunk) =
        .ok (out ++ bytes.drop i) ↔ ∀ c ∈ choices, c.Survives p := by
  have later := covered.le_goal
  unfold Problem.Covers at covered
  induction covered generalizing out with
  | done =>
    change reconstructFrom _ _ out [] = .ok (out ++ bytes.drop bytes.length) ↔ _
    simp [reconstructFrom, pure, Except.pure]
  | @step i c cs offered rest ih =>
    have beyond : i + c.len ≤ bytes.length := Problem.Covers.le_goal rest
    have split : bytes.drop i = (bytes.drop i).take c.len ++ bytes.drop (i + c.len) := by
      rw [← List.drop_drop, List.take_append_drop]
    have size : ((bytes.drop i).take c.len).length = c.len := window_length (by omega)
    -- The chunk adds the bytes of its piece, or it adds something else and survives nothing.
    have chunk : reconstructChunk p.registry p.planStreams c.toChunk =
          .ok ((bytes.drop i).take c.len) ↔ c.Survives p := by
      have cuttable := Planner.offers_cuttable registered.indexed offered
      cases c with
      | literal byte =>
        obtain ⟨_, there⟩ := cuttable
        obtain ⟨inside, rfl⟩ := List.getElem?_eq_some_iff.mp there
        simp only [Choice.Survives, iff_true]
        change Except.ok [bytes[i]] = .ok ((bytes.drop i).take 1)
        rw [List.drop_eq_getElem_cons inside]
        rfl
      | located ix offset len cost hint =>
        obtain ⟨inside, _, short, _⟩ := p.candidatesAt_fits bytes i options _ offered
        obtain ⟨run, read, same⟩ := chunk_read registered inside short offset cost hint
        rw [same, Choice.Survives, read, own_read registered lawful cuttable, Option.some.injEq]
        rfl
    have exact_slice : ∀ slice, reconstructChunk p.registry p.planStreams c.toChunk = .ok slice →
        slice.length = c.len := by
      intro slice run
      have exact : p.registry.Exact := fun stream member => (lawful stream member).exact
      rw [exact.slice_length (reconstructChunk_ok_iff.mp run)]
      exact (p.candidatesAt_fits bytes i options c offered).fresh.2
    generalize (bytes.drop i).take c.len = piece at split size chunk
    simp only [List.map_cons, reconstructFrom, except_bind_ok, List.forall_mem_cons]
    constructor
    · rintro ⟨slice, run, tail⟩
      obtain ⟨w, whole⟩ := reconstructFrom_extends tail
      rw [List.append_assoc, List.append_cancel_left_eq, split] at whole
      obtain ⟨same, _⟩ := List.append_inj whole (by rw [size, exact_slice slice run])
      rw [← same] at run tail
      rw [split, ← List.append_assoc] at tail
      exact ⟨chunk.mp run, (ih _ beyond).mp tail⟩
    · rintro ⟨survives, others⟩
      refine ⟨_, chunk.mpr survives, ?_⟩
      rw [split, ← List.append_assoc]
      exact (ih _ beyond).mpr others

end Reads

/-- Planning as it is meant: it succeeds on the values that can be expressed, says so of the
others, and its self-check stays silent. -/
structure Planner.Complete [Digests] (p : Planner) (texts : List Bytes) (clock : Nat → Nat)
    (bytes : Bytes) (options : PlanOptions) : Prop where
  succeeds : (∃ plan, p.planWithOptions clock bytes options = .ok plan) ↔
    Expressible texts options bytes
  otherwise : ¬ Expressible texts options bytes → p.planWithOptions clock bytes options =
    .error (.planningFailed "target cannot be covered")
  silent : ∀ e, p.planWithOptions clock bytes options = .error e →
    e ≠ .logicalHashMismatch ∧ e ≠ .missingStream ∧ e ≠ .streamFingerprintMismatch ∧
      e ≠ .streamReadOutOfBounds ∧ e ≠ .panicked
  rebuilds : ∀ plan, p.planWithOptions clock bytes options = .ok plan →
    reconstruct p.registry plan = .ok bytes

section Planning

variable [Digests] {p : Planner} {texts : List Bytes} {clock : Nat → Nat} {bytes : Bytes}
  {options : PlanOptions}

theorem Planner.planWithOptions_of_run (short : bytes.length < 2 ^ 63) {choices : List Choice}
    (chosen : p.chooseChunks clock bytes options = .ok choices)
    (run : reconstructFrom p.registry p.planStreams [] (choices.map Choice.toChunk) = .ok bytes) :
    p.planWithOptions clock bytes options = .ok (p.assemble bytes options choices) := by
  have room : (p.assemble bytes options choices).logicalLen.toNat < 2 ^ 63 := by
    change (lenU64 bytes.length).toNat < _
    rw [lenU64_toNat (by omega)]
    exact short
  have rebuilt : reconstruct p.registry (p.assemble bytes options choices) = .ok bytes :=
    reconstruct_ok_iff.mpr ⟨room, run, rfl, rfl⟩
  simp only [Planner.planWithOptions, chosen, bind, Except.bind, rebuilt, failWhen, ne_eq,
    not_true_eq_false, if_false]
  rfl

omit [Digests] in
theorem Planner.covers_survive (few : p.indexes.length ≤ 2 ^ 32) {i : Nat} {choices : List Choice}
    (covered : (p.problem bytes options).Covers i choices) : ∀ c ∈ choices, c.Survives p := by
  unfold Problem.Covers at covered
  induction covered with
  | done => simp
  | @step i c cs offered _ ih =>
    refine List.forall_mem_cons.mpr ⟨?_, ih⟩
    cases c with
    | literal => trivial
    | located ix offset len cost hint =>
      obtain ⟨inside, _⟩ := p.candidatesAt_fits bytes i options _ offered
      rw [Choice.Survives, Nat.mod_eq_of_lt (by omega)]

end Planning

/-- A planner whose streams can be numbered in a u32 plans what can be expressed. -/
theorem planning_complete [Digests] (p : Planner) (texts : List Bytes)
    (registered : p.Registered texts) (lawful : ∀ stream ∈ p.registry.streams, stream.Lawful)
    (few : p.indexes.length ≤ 2 ^ 32) (clock : Nat → Nat) (bytes : Slice) (options : PlanOptions)
    (budgeted : options.maxPlanMillisPerValue ≠ 0) (unhurried : options.Unhurried clock) :
    p.Complete texts clock bytes.val options := by
  have expressible := covers_iff_expressible bytes.val options registered.indexed
  rcases p.picks_or_uncovered bytes.val options with ⟨choices, picked⟩ | uncovered
  · have chosen := Planner.chooseChunks_of_picks unhurried budgeted picked
    have run := (reconstructFrom_cover_iff registered lawful picked.covers []).mpr
      (Planner.covers_survive few picked.covers)
    have planned := Planner.planWithOptions_of_run bytes.property chosen run
    have able := expressible.mp ⟨choices, picked.covers⟩
    refine ⟨⟨fun _ => able, fun _ => ⟨_, planned⟩⟩, fun unable => absurd able unable,
      fun e failed => ?_, fun plan h => (Planner.planWithOptions_made h).rebuilds⟩
    rw [planned] at failed
    cases failed
  · have unable : ¬ Expressible texts options bytes.val := fun able =>
      (expressible.mpr able).elim uncovered
    have failed : p.planWithOptions clock bytes.val options =
        .error (.planningFailed "target cannot be covered") := by
      rw [Planner.planWithOptions,
        Planner.chooseChunks_uncovered unhurried budgeted uncovered]
      rfl
    refine ⟨⟨fun succeeded => ?_, fun able => absurd able unable⟩, fun _ => failed,
      fun e h => ?_, fun plan planned => ?_⟩
    · obtain ⟨plan, planned⟩ := succeeded
      rw [failed] at planned
      cases planned
    · rw [failed] at h
      cases h
      exact ⟨by simp, by simp, by simp, by simp, by simp⟩
    · rw [failed] at planned
      cases planned

theorem planning_complete_sample :
    letI := sampleDigests
    let p := samplePlanner (digestOf 0)
      ⟨[PrefixByteStream.new (.piHexFractionPrefixV1 (digestOf 0) 2) [0x61, 0x62]]⟩
    p.Complete [[0x61, 0x62]] stopped [0x62, 0x61, 0x62] .default ∧
      p.Complete [[0x61, 0x62]] stopped [0x62, 0x63] .default := by
  let _ := sampleDigests
  let stream := PrefixByteStream.new (.piHexFractionPrefixV1 (digestOf 0) 2) [0x61, 0x62]
  let p := samplePlanner (digestOf 0) ⟨[stream]⟩
  have registered : p.Registered [[0x61, 0x62]] :=
    .cons ⟨stream, { narrowIndex with maxPrefixLen := 2 }, rfl, rfl, rfl⟩ .nil
  have lawful : ∀ s ∈ p.registry.streams, s.Lawful :=
    fun s member => List.mem_singleton.mp member ▸ PrefixByteStream.lawful _ _
  have complete := fun bytes : Slice => planning_complete p [[0x61, 0x62]] registered lawful
    (by decide) stopped bytes .default (by decide) (fun _ => Nat.zero_le _)
  exact ⟨complete ⟨[0x62, 0x61, 0x62], by decide⟩, complete ⟨[0x62, 0x63], by decide⟩⟩

end PiLSMer
