import PiLSMer.Core.Plan

/-! The reconstruction cache of lib.rs. Which entry an eviction removes depends on the order
of a HashMap; here it is an argument, any function of the cached entries. -/
namespace PiLSMer

structure ReconstructionCacheKey where
  hashKind : UInt8
  hash : Arr 16
  deriving DecidableEq

structure ReconstructionCacheState where
  maxBytes : UInt64
  currentBytes : UInt64
  values : List (ReconstructionCacheKey × Bytes)

abbrev Victim := List (ReconstructionCacheKey × Bytes) → Nat

def logicalHashKindTag : LogicalHashKind → UInt8
  | .blake3_128 => 1
  | .sha256_128 => 2

def reconstructionCacheKey (plan : ReconstructionPlan) : ReconstructionCacheKey :=
  ⟨logicalHashKindTag plan.logicalHash.kind, plan.logicalHash.bytes⟩

theorem logicalHashKindTag_inj {a b : LogicalHashKind}
    (h : logicalHashKindTag a = logicalHashKindTag b) : a = b := by
  cases a <;> cases b <;> first | rfl | exact absurd h (by decide)

def cacheKeyOf [Digests] (kind : LogicalHashKind) (v : Bytes) : ReconstructionCacheKey :=
  ⟨logicalHashKindTag kind, computeLogicalHash kind v⟩

def ReconstructionCacheState.new (maxBytes : UInt64) : ReconstructionCacheState :=
  ⟨maxBytes, 0, []⟩

def ReconstructionCacheState.get (cache : ReconstructionCacheState)
    (key : ReconstructionCacheKey) : Option Bytes :=
  (cache.values.find? (fun entry => entry.1 = key)).map Prod.snd

/-- The eviction loop. Every round removes an entry, so their number bounds the rounds. -/
def ReconstructionCacheState.evict (pick : Victim) (len : UInt64) :
    Nat → ReconstructionCacheState → ReconstructionCacheState
  | 0, cache => cache
  | rounds + 1, cache =>
    if cache.maxBytes < saturatingAdd cache.currentBytes len then
      match cache.values[pick cache.values % cache.values.length]? with
      | none => cache
      | some (victim, removed) =>
        evict pick len rounds
          { cache with
            currentBytes := saturatingSub cache.currentBytes (lenU64 removed.length)
            values := cache.values.filter (fun entry => entry.1 ≠ victim) }
    else cache

def ReconstructionCacheState.insert (pick : Victim) (cache : ReconstructionCacheState)
    (key : ReconstructionCacheKey) (value : Bytes) : ReconstructionCacheState :=
  let len := lenU64 value.length
  if cache.maxBytes = 0 ∨ cache.maxBytes < len then cache
  else if (cache.get key).isSome then cache
  else
    let cache := cache.evict pick len cache.values.length
    if saturatingAdd cache.currentBytes len ≤ cache.maxBytes then
      { cache with
        currentBytes := cache.currentBytes + len
        values := (key, value) :: cache.values }
    else cache

theorem find_removed (values : List (ReconstructionCacheKey × Bytes))
    (victim key : ReconstructionCacheKey) :
    (values.filter (fun entry => entry.1 ≠ victim)).find? (fun entry => entry.1 = key) =
      if key = victim then none else values.find? (fun entry => entry.1 = key) := by
  induction values with
  | nil => simp
  | cons entry values ih =>
    by_cases gone : entry.1 = victim
    · rw [List.filter_cons_of_neg (by simp [gone]), ih, List.find?_cons]
      by_cases same : key = victim
      · simp [same]
      · have other : decide (entry.1 = key) = false :=
          decide_eq_false (fun h => same (h.symm.trans gone))
        simp [same, other]
    · rw [List.filter_cons_of_pos (by simp [gone]), List.find?_cons, List.find?_cons, ih]
      by_cases hit : entry.1 = key
      · have other : key ≠ victim := fun h => gone (hit.trans h)
        simp [hit, other]
      · simp [hit]

theorem evict_get {pick : Victim} {len : UInt64} {rounds : Nat}
    {cache : ReconstructionCacheState} {key : ReconstructionCacheKey} {w : Bytes}
    (h : (cache.evict pick len rounds).get key = some w) : cache.get key = some w := by
  induction rounds generalizing cache with
  | zero => exact h
  | succ rounds ih =>
    unfold ReconstructionCacheState.evict at h
    split at h
    · split at h
      · exact h
      · rename_i victim removed _
        have kept := ih h
        simp only [ReconstructionCacheState.get, find_removed] at kept
        split at kept
        · cases kept
        · exact kept
    · exact h

theorem insert_get {pick : Victim} {cache : ReconstructionCacheState}
    {key key' : ReconstructionCacheKey} {value w : Bytes}
    (h : (cache.insert pick key value).get key' = some w) :
    cache.get key' = some w ∨ (key' = key ∧ w = value) := by
  unfold ReconstructionCacheState.insert at h
  dsimp only at h
  split at h
  · exact Or.inl h
  · split at h
    · exact Or.inl h
    · split at h
      · by_cases same : key' = key
        · subst same
          simp only [ReconstructionCacheState.get, List.find?_cons, decide_true] at h
          cases h
          exact Or.inr ⟨rfl, rfl⟩
        · have other : decide (key = key') = false := decide_eq_false (fun h => same h.symm)
          simp only [ReconstructionCacheState.get, List.find?_cons, other] at h
          exact Or.inl (evict_get h)
      · exact Or.inl (evict_get h)

end PiLSMer
