import Mathlib.Data.List.Sort
import PiLSMer.Core.Plan

/-! The k-gram index over a stream prefix, from stream_index.rs. Offsets of equal k-grams
are kept in increasing order up to a bound; a lookup is a binary search. -/
namespace PiLSMer

structure IndexedChunk where
  offset : UInt64
  len : UInt16
  encodedCost : UInt16
  readCostHint : UInt16
  deriving DecidableEq, Repr

structure StreamIndexOptions where
  maxPrefixLen : UInt64
  maxK : Nat
  maxIndexMemoryBytes : UInt64
  maxOffsetsPerKgram : UInt16
  deriving DecidableEq, Repr

structure PackedKGramEntry where
  packedKey : UInt64
  offsetsStart : UInt32
  offsetsLen : UInt16
  deriving DecidableEq, Repr

/-- size_of::<PackedKGramEntry>() with its padding. -/
def packedKGramEntrySize : Nat := 16

structure PackedKGramTable where
  k : UInt8
  entries : List PackedKGramEntry
  offsets : List UInt64
  deriving DecidableEq, Repr

structure StreamIndex where
  streamId : StreamId
  streamFingerprint : StreamFingerprint
  prefixLen : UInt64
  maxK : Nat
  memoryBudgetBytes : UInt64
  byLen : List PackedKGramTable
  deriving DecidableEq

def packKgram (bytes : Bytes) : Except PiLsmError UInt64 :=
  if bytes.isEmpty ∨ 8 < bytes.length then .error (.indexLimitExceeded "k")
  else .ok (bytes.foldl (fun key byte => (key <<< 8) ||| byte.toUInt64) 0)

/-- u64::try_from of a usize. -/
def tryU64 (n : Nat) (name : String) : Except PiLsmError UInt64 :=
  if 2 ^ 64 ≤ n then .error (.indexLimitExceeded name) else .ok (UInt64.ofNat n)

def tryU32Len (n : Nat) (name : String) : Except PiLsmError UInt32 :=
  if 2 ^ 32 ≤ n then .error (.indexLimitExceeded name) else .ok (UInt32.ofNat n)

def tryU8 (n : Nat) (name : String) : Except PiLsmError UInt8 :=
  if 2 ^ 8 ≤ n then .error (.indexLimitExceeded name) else .ok (UInt8.ofNat n)

/-- The order of sort_unstable on pairs. -/
def pairLe (a b : UInt64 × UInt64) : Prop := a.1 < b.1 ∨ (a.1 = b.1 ∧ a.2 ≤ b.2)

instance : DecidableRel pairLe := fun _ _ => by unfold pairLe; infer_instance

def kgramPair (text : Bytes) (k offset : Nat) : Except PiLsmError (UInt64 × UInt64) := do
  let key ← packKgram ((text.drop offset).take k)
  let offset ← tryU64 offset "offset"
  pure (key, offset)

/-- The inner loop of build: the run of one key, keeping at most max of its offsets. -/
def retainRun (max : UInt16) (key : UInt64) :
    List (UInt64 × UInt64) → UInt16 → List UInt64 → UInt16 × List UInt64 × List (UInt64 × UInt64)
  | [], retained, offsets => (retained, offsets, [])
  | (k, offset) :: pairs, retained, offsets =>
    if k = key then
      if retained < max then retainRun max key pairs (retained + 1) (offsets ++ [offset])
      else retainRun max key pairs retained offsets
    else (retained, offsets, (k, offset) :: pairs)

/-- The outer loop of build. A round takes at least one pair, so the number of pairs bounds
the rounds. -/
def groupRuns (max : UInt16) :
    Nat → List (UInt64 × UInt64) → List PackedKGramEntry → List UInt64 →
      Except PiLsmError (List PackedKGramEntry × List UInt64)
  | rounds + 1, (key, offset) :: pairs, entries, offsets => do
    let (retained, kept, rest) := retainRun max key ((key, offset) :: pairs) 0 offsets
    let offsetsStart ← tryU32Len offsets.length "offset table"
    groupRuns max rounds rest (entries ++ [⟨key, offsetsStart, retained⟩]) kept
  | _, _, entries, offsets => pure (entries, offsets)

def PackedKGramTable.build (text : Bytes) (k : Nat) (maxOffsetsPerKgram : UInt16) :
    Except PiLsmError PackedKGramTable := do
  let pairs ← (List.range (text.length - k + 1)).mapM (kgramPair text k)
  let sorted := pairs.insertionSort pairLe
  let (entries, offsets) ← groupRuns maxOffsetsPerKgram sorted.length sorted [] []
  let k ← tryU8 k "k"
  pure { k, entries, offsets }

def PackedKGramTable.estimatedBytes (table : PackedKGramTable) : UInt64 :=
  lenU64 (table.entries.length * packedKGramEntrySize + table.offsets.length * 8)

/-- The loop over k in from_prefix, with the tables and the bytes so far. -/
def buildTables (text : Bytes) (options : StreamIndexOptions) :
    List Nat → List PackedKGramTable → UInt64 → Except PiLsmError (List PackedKGramTable)
  | [], byLen, _ => pure byLen
  | k :: ks, byLen, estimatedBytes => do
    if text.length < k then pure byLen else
    let table ← PackedKGramTable.build text k options.maxOffsetsPerKgram
    let nextEstimatedBytes ← checkedAdd estimatedBytes table.estimatedBytes
    if options.maxIndexMemoryBytes < nextEstimatedBytes then
      if byLen.isEmpty then throw (.indexLimitExceeded "index memory budget") else pure byLen
    else buildTables text options ks (byLen ++ [table]) nextEstimatedBytes

def StreamIndex.fromPrefix (streamId : StreamId) (streamFingerprint : StreamFingerprint)
    (text : Bytes) (options : StreamIndexOptions) : Except PiLsmError StreamIndex := do
  failWhen (options.maxK = 0 ∨ 8 < options.maxK) (.indexLimitExceeded "max_k")
  failWhen (options.maxOffsetsPerKgram = 0) (.indexLimitExceeded "max_offsets_per_kgram")
  let prefixLen ← tryU64 text.length "prefix_len"
  let byLen ← buildTables text options (List.range' 1 options.maxK) [] 0
  pure { streamId, streamFingerprint, prefixLen, maxK := byLen.length,
         memoryBudgetBytes := options.maxIndexMemoryBytes, byLen }

def locatedChunkEncodedCost (offset len : UInt64) : UInt16 :=
  1 + 1 + varintLen offset + varintLen len + 1

/-- The halving loop of the standard library's binary search: the candidate position. -/
def bisect (entries : List PackedKGramEntry) (key : UInt64) : Nat → Nat → Nat → Nat
  | 0, base, _ => base
  | rounds + 1, base, size =>
    if 1 < size then
      let half := size / 2
      let mid := base + half
      let above := (entries[mid]?).any (fun entry => key < entry.packedKey)
      bisect entries key rounds (if above then base else mid) (size - half)
    else base

def binarySearchByKey (entries : List PackedKGramEntry) (key : UInt64) :
    Option PackedKGramEntry :=
  (entries[bisect entries key entries.length 0 entries.length]?).filter
    (fun entry => entry.packedKey = key)

def PackedKGramTable.findCandidates (table : PackedKGramTable) (needle : Bytes) :
    List IndexedChunk :=
  match packKgram needle with
  | .error _ => []
  | .ok key =>
    match binarySearchByKey table.entries key with
    | none => []
    | some entry =>
      ((table.offsets.drop entry.offsetsStart.toNat).take entry.offsetsLen.toNat).map
        (fun offset =>
          { offset, len := table.k.toUInt16,
            encodedCost := locatedChunkEncodedCost offset table.k.toUInt64,
            readCostHint := table.k.toUInt16 })

def StreamIndex.findCandidates (index : StreamIndex) (needle : Bytes) : List IndexedChunk :=
  if needle.isEmpty ∨ index.maxK < needle.length ∨ index.byLen.length < needle.length then []
  else match index.byLen[needle.length - 1]? with
    | some table => table.findCandidates needle
    | none => []

/-- An index as from_prefix makes it; its fields are private in the source. -/
def StreamIndex.Built (index : StreamIndex) : Prop :=
  ∃ id fingerprint text options, StreamIndex.fromPrefix id fingerprint text options = .ok index

def PackedKGramTable.InRange (text : Bytes) (k : Nat) (table : PackedKGramTable) : Prop :=
  table.k.toNat = k ∧ ∀ offset ∈ table.offsets, offset.toNat + k ≤ text.length

theorem tryU64_ok {n : Nat} {name : String} {v : UInt64} (h : tryU64 n name = .ok v) :
    v.toNat = n := by
  unfold tryU64 at h
  split at h
  · cases h
  · rename_i small
    cases h
    rw [UInt64.toNat_ofNat']
    exact Nat.mod_eq_of_lt (Nat.lt_of_not_le small)

theorem tryU8_ok {n : Nat} {name : String} {v : UInt8} (h : tryU8 n name = .ok v) :
    v.toNat = n := by
  unfold tryU8 at h
  split at h
  · cases h
  · rename_i small
    cases h
    rw [UInt8.toNat_ofNat']
    exact Nat.mod_eq_of_lt (Nat.lt_of_not_le small)

theorem mapM_ok_mem {α β : Type} {f : α → Except PiLsmError β} {xs : List α} {ys : List β}
    (h : xs.mapM f = .ok ys) : ∀ y ∈ ys, ∃ x ∈ xs, f x = .ok y := by
  induction xs generalizing ys with
  | nil =>
    rw [List.mapM_nil] at h
    cases h
    simp
  | cons x xs ih =>
    simp only [List.mapM_cons, except_bind_ok] at h
    obtain ⟨y, head, zs, tail, same⟩ := h
    cases same
    intro z hz
    rcases List.mem_cons.mp hz with rfl | hz
    · exact ⟨x, List.mem_cons_self .., head⟩
    · obtain ⟨w, hw, eq⟩ := ih tail z hz
      exact ⟨w, List.mem_cons_of_mem _ hw, eq⟩

theorem retainRun_offsets (max : UInt16) (key : UInt64) (pairs : List (UInt64 × UInt64))
    (retained : UInt16) (offsets : List UInt64) :
    (∀ o ∈ (retainRun max key pairs retained offsets).2.1,
      o ∈ offsets ∨ o ∈ pairs.map Prod.snd) ∧
    ∀ p ∈ (retainRun max key pairs retained offsets).2.2, p ∈ pairs := by
  induction pairs generalizing retained offsets with
  | nil => simp [retainRun]
  | cons pair pairs ih =>
    obtain ⟨k, offset⟩ := pair
    unfold retainRun
    split
    · split
      · obtain ⟨kept, rest⟩ := ih (retained + 1) (offsets ++ [offset])
        refine ⟨fun o ho => ?_, fun p hp => List.mem_cons_of_mem _ (rest p hp)⟩
        rcases kept o ho with h | h
        · rcases List.mem_append.mp h with h | h
          · exact Or.inl h
          · exact Or.inr (by simp_all)
        · exact Or.inr (List.mem_cons_of_mem _ h)
      · obtain ⟨kept, rest⟩ := ih retained offsets
        refine ⟨fun o ho => ?_, fun p hp => List.mem_cons_of_mem _ (rest p hp)⟩
        rcases kept o ho with h | h
        · exact Or.inl h
        · exact Or.inr (List.mem_cons_of_mem _ h)
    · exact ⟨fun o ho => Or.inl ho, fun p hp => hp⟩

theorem groupRuns_offsets {max : UInt16} {rounds : Nat} {pairs : List (UInt64 × UInt64)}
    {entries : List PackedKGramEntry} {offsets : List UInt64}
    {grouped : List PackedKGramEntry × List UInt64}
    (h : groupRuns max rounds pairs entries offsets = .ok grouped) :
    ∀ o ∈ grouped.2, o ∈ offsets ∨ o ∈ pairs.map Prod.snd := by
  induction rounds generalizing pairs entries offsets with
  | zero =>
    cases h
    exact fun o ho => Or.inl ho
  | succ rounds ih =>
    cases pairs with
    | nil =>
      cases h
      exact fun o ho => Or.inl ho
    | cons pair pairs =>
      obtain ⟨key, offset⟩ := pair
      simp only [groupRuns, except_bind_ok] at h
      obtain ⟨start, _, h⟩ := h
      have run := retainRun_offsets max key ((key, offset) :: pairs) 0 offsets
      intro o ho
      rcases ih h o ho with kept | rest
      · exact run.1 o kept
      · obtain ⟨p, hp, rfl⟩ := List.mem_map.mp rest
        exact Or.inr (List.mem_map_of_mem (run.2 p hp))

theorem build_inRange {text : Bytes} {k : Nat} {max : UInt16} {table : PackedKGramTable}
    (fits : k ≤ text.length) (h : PackedKGramTable.build text k max = .ok table) :
    table.InRange text k := by
  simp only [PackedKGramTable.build, except_bind_ok] at h
  obtain ⟨pairs, mapped, grouped, runs, small, narrow, same⟩ := h
  cases same
  refine ⟨tryU8_ok narrow, fun o ho => ?_⟩
  rcases groupRuns_offsets runs o ho with none | sorted
  · simp at none
  · obtain ⟨p, hp, rfl⟩ := List.mem_map.mp sorted
    obtain ⟨i, hi, made⟩ := mapM_ok_mem mapped p ((List.mem_insertionSort _).mp hp)
    simp only [kgramPair, except_bind_ok] at made
    obtain ⟨_, _, offset, wide, same⟩ := made
    cases same
    have := List.mem_range.mp hi
    rw [tryU64_ok wide]
    omega

def InOrder (text : Bytes) (tables : List PackedKGramTable) : Prop :=
  ∀ j table, tables[j]? = some table → PackedKGramTable.InRange text (j + 1) table

def Tabled (text : Bytes) (max : UInt16) (tables : List PackedKGramTable) : Prop :=
  ∀ j table, tables[j]? = some table →
    j + 1 ≤ text.length ∧ PackedKGramTable.build text (j + 1) max = .ok table

theorem Tabled.inOrder {text : Bytes} {max : UInt16} {tables : List PackedKGramTable}
    (h : Tabled text max tables) : InOrder text tables := by
  intro j table there
  obtain ⟨fits, made⟩ := h j table there
  exact build_inRange fits made

theorem buildTables_tabled {text : Bytes} {options : StreamIndexOptions} {count : Nat}
    {byLen tables : List PackedKGramTable} {estimated : UInt64}
    (sofar : Tabled text options.maxOffsetsPerKgram byLen)
    (h : buildTables text options (List.range' (byLen.length + 1) count) byLen estimated =
      .ok tables) :
    Tabled text options.maxOffsetsPerKgram tables ∧ tables.length ≤ byLen.length + count := by
  induction count generalizing byLen estimated with
  | zero =>
    cases h
    exact ⟨sofar, Nat.le_refl _⟩
  | succ count ih =>
    simp only [List.range'_succ, buildTables] at h
    split at h
    · cases h
      exact ⟨sofar, by omega⟩
    · rename_i fits
      simp only [except_bind_ok] at h
      obtain ⟨table, made, next, _, h⟩ := h
      split at h
      · split at h
        · cases h
        · cases h
          exact ⟨sofar, by omega⟩
      · have extended : Tabled text options.maxOffsetsPerKgram (byLen ++ [table]) := by
          intro j t ht
          rcases Nat.lt_trichotomy j byLen.length with before | rfl | after
          · rw [List.getElem?_append_left before] at ht
            exact sofar j t ht
          · simp at ht
            exact ht ▸ ⟨Nat.le_of_not_lt fits, made⟩
          · rw [List.getElem?_eq_none (by simp; omega)] at ht
            cases ht
        have size : (byLen ++ [table]).length = byLen.length + 1 := by simp
        rw [← size] at h
        obtain ⟨order, length⟩ := ih extended h
        exact ⟨order, by rw [size] at length; omega⟩

structure StreamIndex.Indexes (index : StreamIndex) (id : StreamId)
    (fingerprint : StreamFingerprint) (text : Bytes) (options : StreamIndexOptions) : Prop where
  retained : options.maxOffsetsPerKgram ≠ 0
  prefixLen : index.prefixLen.toNat = text.length
  tables : buildTables text options (List.range' 1 options.maxK) [] 0 = .ok index.byLen
  tabled : Tabled text options.maxOffsetsPerKgram index.byLen
  count : index.maxK = index.byLen.length
  within : index.maxK ≤ options.maxK
  bound : options.maxK ≤ 8
  streamId : index.streamId = id
  streamFingerprint : index.streamFingerprint = fingerprint

theorem fromPrefix_ok {id : StreamId} {fingerprint : StreamFingerprint} {text : Bytes}
    {options : StreamIndexOptions} {index : StreamIndex}
    (h : StreamIndex.fromPrefix id fingerprint text options = .ok index) :
    index.Indexes id fingerprint text options := by
  simp only [StreamIndex.fromPrefix, except_bind_ok, failWhen_ok, except_pure_ok] at h
  obtain ⟨_, k, _, retained, len, whole, tables, built, rfl⟩ := h
  have none : Tabled text options.maxOffsetsPerKgram [] := by simp [Tabled]
  obtain ⟨order, length⟩ := buildTables_tabled none built
  rw [List.length_nil, Nat.zero_add] at length
  exact ⟨retained, tryU64_ok whole, built, order, rfl, length, by omega, rfl, rfl⟩

theorem StreamIndex.Indexes.small {index : StreamIndex} {id : StreamId}
    {fingerprint : StreamFingerprint} {text : Bytes} {options : StreamIndexOptions}
    (h : index.Indexes id fingerprint text options) : text.length < 2 ^ 64 :=
  h.prefixLen ▸ index.prefixLen.toNat_lt

theorem StreamIndex.Built.tables {index : StreamIndex} (h : index.Built) :
    ∃ text : Bytes, index.prefixLen.toNat = text.length ∧ InOrder text index.byLen ∧
      index.maxK = index.byLen.length ∧ index.maxK ≤ 8 := by
  obtain ⟨id, fingerprint, text, options, made⟩ := h
  have indexes := fromPrefix_ok made
  exact ⟨text, indexes.prefixLen, indexes.tabled.inOrder, indexes.count,
    Nat.le_trans indexes.within indexes.bound⟩

theorem StreamIndex.Built.candidate {index : StreamIndex} (h : index.Built) {needle : Bytes}
    {c : IndexedChunk} (found : c ∈ index.findCandidates needle) :
    c.len.toNat = needle.length ∧ 0 < needle.length ∧ needle.length ≤ 8 ∧
      c.offset.toNat + needle.length ≤ index.prefixLen.toNat := by
  obtain ⟨text, whole, order, count, bound⟩ := h.tables
  unfold StreamIndex.findCandidates at found
  split at found
  · simp at found
  · rename_i usable
    have nonempty : 0 < needle.length := by
      cases needle <;> simp_all
    have short : needle.length ≤ index.maxK := by omega
    split at found
    · rename_i table ht
      obtain ⟨k, inRange⟩ := order _ table ht
      have index : needle.length - 1 + 1 = needle.length := by omega
      rw [index] at k inRange
      unfold PackedKGramTable.findCandidates at found
      split at found
      · simp at found
      · split at found
        · simp at found
        · obtain ⟨o, ho, rfl⟩ := List.mem_map.mp found
          have kept := List.mem_of_mem_drop (List.mem_of_mem_take ho)
          refine ⟨?_, nonempty, by omega, ?_⟩
          · change table.k.toUInt16.toNat = _
            rw [UInt8.toNat_toUInt16, k]
          · rw [whole]
            exact inRange o kept
    · simp at found

end PiLSMer
