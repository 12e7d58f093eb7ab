import PiLSMer.Core.Explain
import PiLSMer.Slate.CachedReads

/-! The three ways to read a row: get, a step of a scan, and explain with its own scan. The
engine's iterator hands out the rows of a range; what the steps make of a row is compared with
a get of its key. -/
namespace PiLSMer
open Interleave

def ScanOptions.default : ScanOptions := ⟨true, none⟩

def PiLsmDb.scan (db : PiLsmDb) : PiLsmIterator := db.scanWithOptions .default

structure PiLsmExplainKeyValue where
  key : Bytes
  explain : ExplainValue
  deriving DecidableEq, Repr

/-- An iterator for explanations has nothing to reconstruct with. -/
structure PiLsmExplainIterator where
  decodeLimits : DecodeLimits

def PiLsmDb.scanExplain (db : PiLsmDb) : PiLsmExplainIterator := ⟨db.decodeLimits⟩

variable [Digests]

def PiLsmDb.explain (db : PiLsmDb) (key : Bytes) : DbOp (Option ExplainValue) := do
  match ← issue (.get key) with
  | none => pure none
  | some encoded =>
    match ValueEnvelope.decode encoded db.decodeLimits with
    | .ok envelope => pure (some (explainEnvelope envelope encoded.length))
    | .error e => throw e

def PiLsmExplainIterator.next (it : PiLsmExplainIterator) (entry : Option (Bytes × Bytes)) :
    DbOp (Option PiLsmExplainKeyValue) :=
  match entry with
  | none => pure none
  | some (key, encoded) =>
    match ValueEnvelope.decode encoded it.decodeLimits with
    | .ok envelope => pure (some ⟨key, explainEnvelope envelope encoded.length⟩)
    | .error e => throw e

/-- What the engine promises of a scan: the stored rows of the range, in key order. -/
structure EngineRows (store : Bytes → Option Bytes) (range : Bytes → Prop)
    (rows : List (Bytes × Bytes)) : Prop where
  stored : ∀ key encoded, (key, encoded) ∈ rows ↔ range key ∧ store key = some encoded
  ordered : rows.Pairwise (fun a b => a.1 < b.1)

/-- A result of a read as a step of a scan returns it, under its key. -/
def under (key : Bytes) (result : Except PiLsmError (Option Bytes)) :
    Except PiLsmError (Option PiLsmKeyValue) :=
  result.map (Option.map (PiLsmKeyValue.mk key))

section Alone

variable {db : PiLsmDb} {o : Oracle} {t : Nat} {s : Db}

variable (db) in
theorem next_as_get {g : Db} {key encoded : Bytes} (there : g.store key = some encoded)
    (same : g.cache = s.cache) {o' : Oracle} (pick : o'.pick = o.pick) (t' : Nat) :
    ∃ result cache counters counters',
    alone dbMachine o t (db.get key).run g = some (result, { g with counters, cache }) ∧
    alone dbMachine o' t' (db.scan.next (some (key, encoded))).run s =
      some (under key result, { s with counters := counters', cache }) := by
  have envelope := alone_getEnvelope db key (o := o) (t := t) (s := g)
  simp only [PiLsmDb.envelopeAt, there] at envelope
  cases decoded : ValueEnvelope.decode encoded db.decodeLimits with
  | error e =>
    rw [decoded] at envelope
    refine ⟨.error e, g.cache, g.counters, s.counters, alone_error _ envelope, ?_⟩
    simp only [PiLsmDb.scan, PiLsmIterator.next, PiLsmDb.scanWithOptions, ScanOptions.default,
      decoded, if_true, same]
    rfl
  | ok e =>
    rw [decoded] at envelope
    cases e with
    | raw b =>
      refine ⟨.ok (some b), g.cache, g.counters, s.counters, alone_ok _ envelope, ?_⟩
      simp only [PiLsmDb.scan, PiLsmIterator.next, PiLsmDb.scanWithOptions, ScanOptions.default,
        decoded, if_true, same]
      rfl
    | plan p =>
      obtain ⟨counters, got⟩ :=
        alone_plan db (o := o) (t := t) (s := g) some p db.maxReconstructBytes
      obtain ⟨counters', stepped⟩ := alone_plan db (o := o') (t := t') (s := s)
        (fun w => some (PiLsmKeyValue.mk key w)) p db.maxReconstructBytes
      refine ⟨_, _, counters, counters', (alone_ok _ envelope).trans got, ?_⟩
      have unfolded : db.scan.next (some (key, encoded)) =
          (db.reconstructPlan p db.maxReconstructBytes >>= fun w => pure (some ⟨key, w⟩)) :=
        next_plan key rfl decoded
      rw [unfolded, stepped, pick, same]
      cases db.recover s.cache p db.maxReconstructBytes with
      | error e => rfl
      | ok w => rfl

variable (db) in
theorem alone_explain {key encoded : Bytes} (there : s.store key = some encoded) :
    alone dbMachine o t (db.explain key).run s =
      some ((ValueEnvelope.decode encoded db.decodeLimits).map
        (fun e => some (explainEnvelope e encoded.length)), s) := by
  have look : alone dbMachine o t (issue (.get key) : DbOp (Option Bytes)).run s =
      some (.ok (some encoded), s) := alone_issue (by rw [← there]; rfl)
  apply (alone_ok _ look).trans
  dsimp only
  cases ValueEnvelope.decode encoded db.decodeLimits with
  | ok e => rfl
  | error e => rfl

variable (db) in
theorem alone_scanExplain (key encoded : Bytes) :
    alone dbMachine o t (db.scanExplain.next (some (key, encoded))).run s =
      some ((ValueEnvelope.decode encoded db.decodeLimits).map
        (fun e => some ⟨key, explainEnvelope e encoded.length⟩), s) := by
  simp only [PiLsmExplainIterator.next, PiLsmDb.scanExplain]
  cases ValueEnvelope.decode encoded db.decodeLimits with
  | ok e => rfl
  | error e => rfl

end Alone

def ExplainValue.Fits (e : ExplainValue) (length : Nat) : Prop :=
  e.logicalUserBytes.toNat = length ∧ e.literalBytes.toNat ≤ length

theorem explain_fits {encoded : Bytes} {limits : DecodeLimits} {e : ValueEnvelope}
    (decoded : ValueEnvelope.decode encoded limits = .ok e) {registry : StreamRegistry}
    {v : Slice} (holds : e.Holds registry v.val) :
    (explainEnvelope e encoded.length).Fits v.val.length := by
  have small : v.val.length < 2 ^ 64 := Nat.lt_trans v.property (by decide)
  cases e with
  | raw bytes =>
    change v.val = bytes at holds
    subst holds
    exact ⟨lenU64_toNat small, Nat.le_of_eq (lenU64_toNat small)⟩
  | plan p =>
    have regular := decode_plan_regular decoded
    have length : p.logicalLen.toNat = v.val.length := by
      rw [← (reconstruct_ok_iff.mp holds).2.2.1, lenU64_toNat small]
    refine ⟨length, ?_⟩
    rw [explain_literal regular, ← length, ← regular.split]
    exact Nat.le_add_left ..

/-- Steps of one scan over these rows, one after the other, each with its result. -/
inductive ScanRun (db : PiLsmDb) (pick : Victim) : List (Bytes × Bytes) → Db →
    List (Except PiLsmError (Option PiLsmKeyValue)) → Db → Prop
  | done (s : Db) : ScanRun db pick [] s [] s
  | next {row : Bytes × Bytes} {rows : List (Bytes × Bytes)} {s s₁ s₂ : Db} {o : Oracle} {t : Nat}
      {result : Except PiLsmError (Option PiLsmKeyValue)}
      {results : List (Except PiLsmError (Option PiLsmKeyValue))} (picks : o.pick = pick)
      (step : alone dbMachine o t (db.scan.next (some row)).run s = some (result, s₁))
      (rest : ScanRun db pick rows s₁ results s₂) :
      ScanRun db pick (row :: rows) s (result :: results) s₂

inductive GetRun (db : PiLsmDb) (pick : Victim) : List Bytes → Db →
    List (Except PiLsmError (Option Bytes)) → Db → Prop
  | done (s : Db) : GetRun db pick [] s [] s
  | get {key : Bytes} {keys : List Bytes} {s s₁ s₂ : Db} {o : Oracle} {t : Nat}
      {result : Except PiLsmError (Option Bytes)}
      {results : List (Except PiLsmError (Option Bytes))} (picks : o.pick = pick)
      (step : alone dbMachine o t (db.get key).run s = some (result, s₁))
      (rest : GetRun db pick keys s₁ results s₂) :
      GetRun db pick (key :: keys) s (result :: results) s₂

theorem ScanRun.length_eq {db : PiLsmDb} {pick : Victim} {rows : List (Bytes × Bytes)} {s s' : Db}
    {results : List (Except PiLsmError (Option PiLsmKeyValue))}
    (run : ScanRun db pick rows s results s') : results.length = rows.length := by
  induction run with
  | done s => rfl
  | next _ _ _ ih => exact congrArg (· + 1) ih

theorem scan_as_gets {db : PiLsmDb} {pick : Victim} {rows : List (Bytes × Bytes)} {s s' g : Db}
    {results : List (Except PiLsmError (Option PiLsmKeyValue))}
    (run : ScanRun db pick rows s results s') (same : g.cache = s.cache)
    (stored : ∀ row ∈ rows, g.store row.1 = some row.2) :
    ∃ answers g', GetRun db pick (rows.map Prod.fst) g answers g' ∧ g'.cache = s'.cache ∧
      results = List.zipWith under (rows.map Prod.fst) answers := by
  induction run generalizing g with
  | done s => exact ⟨[], g, GetRun.done g, same, rfl⟩
  | @next row rows s s₁ s₂ o t result results picks step rest ih =>
    obtain ⟨answer, cache, counters, counters', got, stepped⟩ :=
      next_as_get db (o := o) (t := t) (stored row (List.mem_cons_self ..)) same
        (rfl : o.pick = o.pick) t
    cases step.symm.trans stepped
    obtain ⟨answers, g', gets, end_cache, results_eq⟩ :=
      ih (g := { g with counters, cache }) rfl
        (fun other member => stored other (List.mem_cons_of_mem _ member))
    exact ⟨answer :: answers, g', GetRun.get picks got gets, end_cache,
      congrArg (under row.1 answer :: ·) results_eq⟩

def returned (results : List (Except PiLsmError (Option PiLsmKeyValue))) : List Bytes :=
  results.filterMap (fun
    | .ok (some row) => some row.key
    | _ => none)

omit [Digests] in
theorem returned_sublist (keys : List Bytes) (answers : List (Except PiLsmError (Option Bytes))) :
    (returned (List.zipWith under keys answers)).Sublist keys := by
  induction keys generalizing answers with
  | nil => exact List.Sublist.refl _
  | cons key keys ih =>
    cases answers with
    | nil => exact List.nil_sublist _
    | cons answer answers =>
      match answer with
      | .error e => exact (ih answers).cons key
      | .ok none => exact (ih answers).cons key
      | .ok (some v) => exact (ih answers).cons_cons key

theorem scan_ends (db : PiLsmDb) (pick : Victim) (rows : List (Bytes × Bytes)) (s : Db)
    (stored : ∀ row ∈ rows, s.store row.1 = some row.2) :
    ∃ results s', ScanRun db pick rows s results s' := by
  induction rows generalizing s with
  | nil => exact ⟨[], s, ScanRun.done s⟩
  | cons row rows ih =>
    let o : Oracle := ⟨stopped, 0, pick⟩
    have same : o.pick = o.pick := rfl
    obtain ⟨answer, cache, _, counters, _, stepped⟩ :=
      next_as_get db (t := 0) (stored row (List.mem_cons_self ..)) rfl same 0
    obtain ⟨results, s', rest⟩ := ih { s with counters, cache }
      (fun other member => stored other (List.mem_cons_of_mem _ member))
    exact ⟨_, s', ScanRun.next rfl stepped rest⟩

theorem get_holds {db : PiLsmDb} {o : Oracle} {t : Nat} {s s' : Db} {key encoded v : Bytes}
    (there : s.store key = some encoded) (disabled : s.cache = .new 0)
    (got : alone dbMachine o t (db.get key).run s = some (.ok (some v), s')) :
    ∃ e, ValueEnvelope.decode encoded db.decodeLimits = .ok e ∧ e.Holds db.reconstructor v := by
  obtain ⟨s'', run⟩ := alone_get db key (o := o) (t := t) (s := s)
  have reading : db.reading s key = .ok (some v) :=
    (congrArg Prod.fst (Option.some.inj (got.symm.trans run))).symm
  simp only [PiLsmDb.reading, there, disabled] at reading
  cases decoded : ValueEnvelope.decode encoded db.decodeLimits with
  | error e =>
    rw [decoded] at reading
    cases reading
  | ok e =>
    rw [decoded] at reading
    refine ⟨e, rfl, ?_⟩
    cases e with
    | raw bytes => exact (Option.some.inj (Except.ok.inj reading)).symm
    | plan p =>
      change (db.recover (.new 0) p db.maxReconstructBytes).map some = .ok (some v) at reading
      cases content : db.recover (.new 0) p db.maxReconstructBytes with
      | error e =>
        rw [content] at reading
        cases reading
      | ok w =>
        rw [content] at reading
        cases reading
        obtain ⟨_, hit | ⟨_, rebuilt⟩⟩ := PiLsmDb.recover_iff.mp content
        · cases hit
        · exact rebuilt

section Agreement

variable (db : PiLsmDb) {store : Bytes → Option Bytes} {range : Bytes → Prop}
  {rows : List (Bytes × Bytes)}

omit [Digests] in
theorem EngineRows.returned_ordered (engine : EngineRows store range rows)
    (answers : List (Except PiLsmError (Option Bytes))) :
    (returned (List.zipWith under (rows.map Prod.fst) answers)).Pairwise (· < ·) := by
  have keys : (rows.map Prod.fst).Pairwise (· < ·) := List.pairwise_map.mpr engine.ordered
  exact keys.sublist (returned_sublist _ answers)

/-- The read paths agree. A step of a scan with default options returns what a get of the
row's key returns, errors included, and changes the cache alike; a scan over the rows of a
range ends and is such gets one after the other, with the rows in key order; and without a
cache both explanations of a key that can be read tell the length of its value. -/
theorem read_paths_agree (engine : EngineRows store range rows) :
    (∀ key encoded, (key, encoded) ∈ rows → ∀ (o o' : Oracle) (t t' : Nat) (g s : Db),
      g.store = store → g.cache = s.cache → o'.pick = o.pick →
      ∃ result g' s', alone dbMachine o t (db.get key).run g = some (result, g') ∧
        alone dbMachine o' t' (db.scan.next (some (key, encoded))).run s =
          some (under key result, s') ∧
        g'.cache = s'.cache) ∧
    (∀ (pick : Victim) (s : Db), s.store = store →
      (∃ results s', ScanRun db pick rows s results s') ∧
      ∀ results s', ScanRun db pick rows s results s' →
        (∃ answers g', GetRun db pick (rows.map Prod.fst) s answers g' ∧ g'.cache = s'.cache ∧
          results = List.zipWith under (rows.map Prod.fst) answers) ∧
        results.length = rows.length ∧ (returned results).Pairwise (· < ·)) ∧
    ∀ key encoded, (key, encoded) ∈ rows → ∀ (o : Oracle) (t : Nat) (s s' : Db) (v : Slice),
      s.store = store → s.cache = .new 0 →
      alone dbMachine o t (db.get key).run s = some (.ok (some v.val), s') →
      ∃ e : ExplainValue, alone dbMachine o t (db.explain key).run s = some (.ok (some e), s) ∧
        alone dbMachine o t (db.scanExplain.next (some (key, encoded))).run s =
          some (.ok (some ⟨key, e⟩), s) ∧
        e.logicalUserBytes.toNat = v.val.length ∧ e.literalBytes.toNat ≤ v.val.length := by
  refine ⟨?_, ?_, ?_⟩
  · intro key encoded member o o' t t' g s content same pick
    have there : g.store key = some encoded :=
      content ▸ ((engine.stored key encoded).mp member).2
    obtain ⟨result, cache, counters, counters', got, stepped⟩ :=
      next_as_get db (o := o) (t := t) there same pick t'
    exact ⟨result, _, _, got, stepped, rfl⟩
  · intro pick s content
    have stored : ∀ row ∈ rows, s.store row.1 = some row.2 := by
      intro row member
      exact content ▸ ((engine.stored row.1 row.2).mp member).2
    refine ⟨scan_ends db pick rows s stored, ?_⟩
    intro results s' run
    obtain ⟨answers, g', gets, caches, rfl⟩ := scan_as_gets run rfl stored
    exact ⟨⟨answers, g', gets, caches, rfl⟩, run.length_eq, engine.returned_ordered answers⟩
  · intro key encoded member o t s s' v content disabled got
    have there : s.store key = some encoded :=
      content ▸ ((engine.stored key encoded).mp member).2
    obtain ⟨e, decoded, holds⟩ := get_holds there disabled got
    have explained := alone_explain db (o := o) (t := t) there
    have scanned := alone_scanExplain db (o := o) (t := t) (s := s) key encoded
    rw [decoded] at explained scanned
    exact ⟨_, explained, scanned, explain_fits decoded holds⟩

end Agreement

def sampleContents (key : Bytes) : Option Bytes :=
  if key = [0x6a] then some samplePlanFrame
  else if key = [0x6b] then some sampleRawFrame
  else if key = [0x6c] then some [0x00]
  else none

def contentRows : List (Bytes × Bytes) :=
  [([0x6a], samplePlanFrame), ([0x6b], sampleRawFrame), ([0x6c], [0x00])]

omit [Digests] in
theorem sampleContents_rows : EngineRows sampleContents (fun _ => True) contentRows where
  stored := by
    intro key encoded
    by_cases first : key = [0x6a]
    · simp [sampleContents, contentRows, first, eq_comm]
    · by_cases second : key = [0x6b]
      · simp [sampleContents, contentRows, second, eq_comm]
      · by_cases third : key = [0x6c]
        · simp [sampleContents, contentRows, third, eq_comm]
        · simp [sampleContents, contentRows, first, second, third]
  ordered := by decide

omit [Digests] in
/-- The planned row is read into the cache by a get as by a step of a scan. -/
theorem read_paths_agree_sample :
    letI := sampleDigests
    let db := sampleDb .default
    let o : Oracle := ⟨stopped, 0, fun _ => 0⟩
    let s : Db := { Db.empty 16 with store := sampleContents }
    let bare : Db := { Db.empty 0 with store := sampleContents }
    (∃ g s', alone dbMachine o 0 (db.get [0x6a]).run s = some (.ok (some [0x61]), g) ∧
      alone dbMachine o 1 (db.scan.next (some ([0x6a], samplePlanFrame))).run s =
        some (.ok (some ⟨[0x6a], [0x61]⟩), s') ∧
      g.cache = s'.cache ∧ s'.cache.get (reconstructionCacheKey samplePlan) = some [0x61]) ∧
    (∃ results s', ScanRun db o.pick contentRows s results s' ∧ results.length = 3 ∧
      (returned results).Pairwise (· < ·)) ∧
    ∃ e : ExplainValue, alone dbMachine o 0 (db.explain [0x6a]).run bare =
        some (.ok (some e), bare) ∧
      e.logicalUserBytes.toNat = 1 ∧ e.literalBytes.toNat ≤ 1 := by
  let _ := sampleDigests
  intro db o s bare
  have planned : ([0x6a], samplePlanFrame) ∈ contentRows := List.mem_cons_self ..
  have decoded : ValueEnvelope.decode samplePlanFrame db.decodeLimits =
      .ok (.plan samplePlan) := by decide +kernel
  have got : ∀ start : Db, start.store = sampleContents →
      db.recover start.cache samplePlan db.maxReconstructBytes = .ok [0x61] →
      ∃ g, alone dbMachine o 0 (db.get [0x6a]).run start = some (.ok (some [0x61]), g) ∧
        g.cache = db.refill o.pick start.cache samplePlan db.maxReconstructBytes := by
    intro start content recovered
    have there : start.store [0x6a] = some samplePlanFrame := content ▸ rfl
    have envelope := alone_getEnvelope db [0x6a] (o := o) (t := 0) (s := start)
    simp only [PiLsmDb.envelopeAt, there, decoded] at envelope
    obtain ⟨counters, read⟩ := alone_plan db (o := o) (t := 0) (s := start) some samplePlan
      db.maxReconstructBytes
    rw [recovered] at read
    exact ⟨_, (alone_ok _ envelope).trans read, rfl⟩
  obtain ⟨steps, scans, explains⟩ := read_paths_agree db sampleContents_rows
  refine ⟨?_, ?_, ?_⟩
  · obtain ⟨g, got, filled⟩ := got s rfl (by decide)
    obtain ⟨result, g', s', again, stepped, same⟩ :=
      steps [0x6a] samplePlanFrame planned o o 0 1 s s rfl rfl rfl
    cases got.symm.trans again
    exact ⟨g, s', got, stepped, same, by rw [← same, filled]; decide⟩
  · obtain ⟨⟨results, s', run⟩, all⟩ := scans o.pick s rfl
    exact ⟨results, s', run, (all results s' run).2⟩
  · obtain ⟨g, got, _⟩ := got bare rfl (by decide)
    obtain ⟨e, explained, _, length, literal⟩ :=
      explains [0x6a] samplePlanFrame planned o 0 bare g ⟨[0x61], by decide⟩ rfl rfl got
    exact ⟨e, explained, length, literal⟩

end PiLSMer
