import Mathlib.Data.List.Induction
import PiLSMer.Core.Codec
import PiLSMer.Slate.Cache

/-! The byte count of the reconstruction cache over whole histories of insertions. It is kept
apart from the map and summed without wrapping, except that the test before the sum saturates:
under the largest capacity the test always passes. -/
namespace PiLSMer

abbrev CacheEntry := ReconstructionCacheKey × Bytes

def cachedBytes (values : List CacheEntry) : Nat :=
  (values.map (fun entry => entry.2.length)).sum

/-- The count is right and within the capacity, and no key is cached twice. -/
structure ReconstructionCacheState.Accounted (cache : ReconstructionCacheState) : Prop where
  distinct : (cache.values.map Prod.fst).Nodup
  counted : cache.currentBytes.toNat = cachedBytes cache.values
  within : cache.currentBytes ≤ cache.maxBytes

def ReconstructionCacheState.Full (cache : ReconstructionCacheState) (len : UInt64) : Prop :=
  cache.maxBytes < saturatingAdd cache.currentBytes len

def ReconstructionCacheState.remove (cache : ReconstructionCacheState) (victim : CacheEntry) :
    ReconstructionCacheState :=
  { cache with
    currentBytes := saturatingSub cache.currentBytes (lenU64 victim.2.length)
    values := cache.values.filter (fun entry => entry.1 ≠ victim.1) }

/-- So many rounds of the eviction loop, whichever entries the map iteration offers. -/
inductive Evicting (len : UInt64) : Nat → ReconstructionCacheState → ReconstructionCacheState → Prop
  | stay (cache : ReconstructionCacheState) : Evicting len 0 cache cache
  | round {cache after : ReconstructionCacheState} {n : Nat} (victim : CacheEntry)
      (full : cache.Full len) (offered : victim ∈ cache.values)
      (rest : Evicting len n (cache.remove victim) after) : Evicting len (n + 1) cache after

def ReconstructionCacheState.Settled (cache : ReconstructionCacheState) (len : UInt64) : Prop :=
  ¬ cache.Full len ∨ cache.values = []

variable {cache after : ReconstructionCacheState} {len : UInt64}

theorem saturatingAdd_le_iff {a b limit : UInt64} :
    saturatingAdd a b ≤ limit ↔ a.toNat + b.toNat ≤ limit.toNat ∨ limit = 0xffffffffffffffff := by
  have top : (0xffffffffffffffff : UInt64).toNat = 2 ^ 64 - 1 := by decide
  have below := limit.toNat_lt
  rw [saturatingAdd, UInt64.le_iff_toNat_le, ← UInt64.toNat_inj, top]
  split
  · rw [top]
    omega
  · rw [UInt64.toNat_add, Nat.mod_eq_of_lt (by omega)]
    omega

theorem cachedBytes_remove {values : List CacheEntry} {victim : CacheEntry}
    (distinct : (values.map Prod.fst).Nodup) (offered : victim ∈ values) :
    cachedBytes (values.filter (fun entry => entry.1 ≠ victim.1)) + victim.2.length =
      cachedBytes values := by
  induction values with
  | nil => cases offered
  | cons entry values ih =>
    obtain ⟨fresh, distinct⟩ := List.nodup_cons.mp distinct
    by_cases same : entry.1 = victim.1
    · have others : values.filter (fun entry => entry.1 ≠ victim.1) = values := by
        refine List.filter_eq_self.mpr (fun other member => decide_eq_true (fun equal => ?_))
        exact fresh (same.trans equal.symm ▸ List.mem_map_of_mem member)
      have isVictim : victim = entry := by
        obtain rfl | later := List.mem_cons.mp offered
        · rfl
        · exact absurd (same ▸ List.mem_map_of_mem later) fresh
      rw [List.filter_cons_of_neg (by simp [same]), others, isVictim, Nat.add_comm]
      rfl
    · have later : victim ∈ values := by
        obtain rfl | later := List.mem_cons.mp offered
        · exact absurd rfl same
        · exact later
      rw [List.filter_cons_of_pos (by simp [same])]
      have rest := ih distinct later
      simp only [cachedBytes, List.map_cons, List.sum_cons] at rest ⊢
      omega

theorem length_remove_lt {victim : CacheEntry} (offered : victim ∈ cache.values) :
    (cache.remove victim).values.length < cache.values.length :=
  List.length_filter_lt_length_iff_exists.mpr ⟨victim, offered, by simp⟩

theorem ReconstructionCacheState.Accounted.remove (accounted : cache.Accounted)
    {victim : CacheEntry} (offered : victim ∈ cache.values) :
    (cache.remove victim).Accounted := by
  have removed := cachedBytes_remove accounted.distinct offered
  have bound := cache.currentBytes.toNat_lt
  have size : (lenU64 victim.2.length).toNat = victim.2.length :=
    lenU64_toNat (by rw [accounted.counted] at bound; omega)
  have count : (cache.remove victim).currentBytes.toNat =
      cache.currentBytes.toNat - victim.2.length := by
    rw [← size]
    exact saturatingSub_toNat (by rw [size, accounted.counted]; omega)
  refine ⟨accounted.distinct.sublist (List.filter_sublist.map _), ?_, ?_⟩
  · rw [count, accounted.counted]
    exact Nat.sub_eq_of_eq_add removed.symm
  · have within := UInt64.le_iff_toNat_le.mp accounted.within
    rw [UInt64.le_iff_toNat_le, count]
    change _ ≤ cache.maxBytes.toNat
    omega

theorem Evicting.accounted {n : Nat} (evicting : Evicting len n cache after)
    (accounted : cache.Accounted) : after.Accounted := by
  induction evicting with
  | stay => exact accounted
  | round victim _ offered _ ih => exact ih (accounted.remove offered)

theorem Evicting.maxBytes {n : Nat} (evicting : Evicting len n cache after) :
    after.maxBytes = cache.maxBytes := by
  induction evicting with
  | stay => rfl
  | round _ _ _ _ ih => exact ih

theorem Evicting.bytes {n : Nat} (evicting : Evicting len n cache after)
    (accounted : cache.Accounted) : cachedBytes after.values ≤ cachedBytes cache.values := by
  induction evicting with
  | stay => exact Nat.le_refl _
  | round victim _ offered _ ih =>
    have rest := ih (accounted.remove offered)
    have removed := cachedBytes_remove accounted.distinct offered
    exact Nat.le_trans rest (Nat.le_of_add_right_le (Nat.le_of_eq removed))

theorem Evicting.rounds {n : Nat} (evicting : Evicting len n cache after) :
    n + after.values.length ≤ cache.values.length := by
  induction evicting with
  | stay => omega
  | round victim _ offered _ ih =>
    have fewer := length_remove_lt offered
    omega

/-- The largest capacity evicts nothing: the test passes with any sum. -/
theorem Evicting.unlimited {n : Nat} (evicting : Evicting len n cache after)
    (largest : cache.maxBytes = 0xffffffffffffffff) : after = cache := by
  cases evicting with
  | stay => rfl
  | round victim full =>
    refine absurd full (UInt64.not_lt.mpr ?_)
    exact saturatingAdd_le_iff.mpr (Or.inr largest)

/-- The modelled loop takes rounds of the source's and goes on until it stops. -/
theorem evict_settles (pick : Victim) (len : UInt64) {rounds : Nat}
    {cache : ReconstructionCacheState} (enough : cache.values.length ≤ rounds) :
    (∃ n, Evicting len n cache (cache.evict pick len rounds)) ∧
      (cache.evict pick len rounds).Settled len := by
  induction rounds generalizing cache with
  | zero =>
    exact ⟨⟨0, Evicting.stay cache⟩, Or.inr (List.eq_nil_of_length_eq_zero (Nat.le_zero.mp enough))⟩
  | succ rounds ih =>
    unfold ReconstructionCacheState.evict
    split
    · rename_i full
      cases chosen : cache.values[pick cache.values % cache.values.length]? with
      | none =>
        have short : cache.values.length ≤ pick cache.values % cache.values.length :=
          List.getElem?_eq_none_iff.mp chosen
        have empty : cache.values.length = 0 := by
          by_contra some
          exact absurd (Nat.mod_lt (pick cache.values) (Nat.pos_of_ne_zero some)) (by omega)
        exact ⟨⟨0, Evicting.stay cache⟩, Or.inr (List.eq_nil_of_length_eq_zero empty)⟩
      | some victim =>
        have offered := List.mem_of_getElem? chosen
        have fewer := length_remove_lt offered
        have enough' : (cache.remove victim).values.length ≤ rounds := by omega
        obtain ⟨⟨n, evicting⟩, settled⟩ := ih enough'
        exact ⟨⟨n + 1, Evicting.round victim full offered evicting⟩, settled⟩
    · rename_i room
      exact ⟨⟨0, Evicting.stay cache⟩, Or.inl room⟩

theorem get_isSome_iff {key : ReconstructionCacheKey} :
    (cache.get key).isSome ↔ key ∈ cache.values.map Prod.fst := by
  simp [ReconstructionCacheState.get]

theorem Slice.lenU64_toNat (value : Slice) : (lenU64 value.val.length).toNat = value.val.length :=
  PiLSMer.lenU64_toNat (Nat.lt_trans value.property (by decide))

theorem ReconstructionCacheState.Accounted.add (accounted : cache.Accounted)
    {key : ReconstructionCacheKey} {value : Slice} (absent : ¬ (cache.get key).isSome)
    (below : cachedBytes cache.values + value.val.length ≤ cache.maxBytes.toNat) :
    ReconstructionCacheState.Accounted { cache with
      currentBytes := cache.currentBytes + lenU64 value.val.length
      values := (key, value.val) :: cache.values } := by
  have bound := cache.maxBytes.toNat_lt
  have count : (cache.currentBytes + lenU64 value.val.length).toNat =
      cachedBytes cache.values + value.val.length := by
    rw [UInt64.toNat_add, accounted.counted, value.lenU64_toNat, Nat.mod_eq_of_lt (by omega)]
  refine ⟨?_, count.trans (Nat.add_comm ..), ?_⟩
  · exact List.nodup_cons.mpr ⟨fun member => absent (get_isSome_iff.mpr member), accounted.distinct⟩
  · rw [UInt64.le_iff_toNat_le]
    exact Nat.le_trans (Nat.le_of_eq count) below

theorem insert_fresh (pick : Victim) {key : ReconstructionCacheKey} {value : Slice}
    (accounted : cache.Accounted) (enabled : cache.maxBytes ≠ 0)
    (small : value.val.length ≤ cache.maxBytes.toNat) (fresh : ¬ (cache.get key).isSome) :
    ∃ n kept, Evicting (lenU64 value.val.length) n cache kept ∧
      ¬ kept.Full (lenU64 value.val.length) ∧ ¬ (kept.get key).isSome ∧
      cache.insert pick key value.val = { kept with
        currentBytes := kept.currentBytes + lenU64 value.val.length
        values := (key, value.val) :: kept.values } := by
  let len := lenU64 value.val.length
  have size : len.toNat = value.val.length := value.lenU64_toNat
  obtain ⟨⟨n, evicting⟩, settled⟩ := evict_settles pick len (Nat.le_refl cache.values.length)
  have kept := evicting.accounted accounted
  have room : ¬ (cache.evict pick len cache.values.length).Full len := by
    obtain room | empty := settled
    · exact room
    · rw [ReconstructionCacheState.Full, UInt64.not_lt, saturatingAdd_le_iff, kept.counted, empty,
        evicting.maxBytes, size]
      exact Or.inl (by simpa [cachedBytes] using small)
  have absent : ¬ ((cache.evict pick len cache.values.length).get key).isSome := by
    intro found
    obtain ⟨w, there⟩ := Option.isSome_iff_exists.mp found
    exact fresh (evict_get there ▸ rfl)
  have within : ¬ cache.maxBytes < len := by
    rw [UInt64.lt_iff_toNat_lt, size]
    omega
  refine ⟨n, _, evicting, room, absent, ?_⟩
  unfold ReconstructionCacheState.insert
  dsimp only
  rw [if_neg (not_or.mpr ⟨enabled, within⟩), if_neg fresh, if_pos (UInt64.not_lt.mp room)]

theorem insert_present (pick : Victim) {key : ReconstructionCacheKey} (value : Bytes)
    (there : (cache.get key).isSome) : cache.insert pick key value = cache := by
  unfold ReconstructionCacheState.insert
  dsimp only
  rw [if_pos there, ite_self]

theorem insert_refused (pick : Victim) (key : ReconstructionCacheKey) {value : Slice}
    (large : cache.maxBytes = 0 ∨ cache.maxBytes.toNat < value.val.length) :
    cache.insert pick key value.val = cache := by
  refine if_pos (large.imp id (fun beyond => ?_))
  rw [UInt64.lt_iff_toNat_lt, value.lenU64_toNat]
  exact beyond

structure Insertion where
  pick : Victim
  key : ReconstructionCacheKey
  value : Slice

def Insertion.apply (cache : ReconstructionCacheState) (i : Insertion) : ReconstructionCacheState :=
  cache.insert i.pick i.key i.value.val

def cacheAfter (maxBytes : UInt64) (insertions : List Insertion) : ReconstructionCacheState :=
  insertions.foldl Insertion.apply (.new maxBytes)

/-- The sum that the insertion makes fits into its counter. The test before it makes sure of
that under every capacity but the largest. -/
def Insertion.Fits (i : Insertion) (cache : ReconstructionCacheState) : Prop :=
  cache.maxBytes ≠ 0xffffffffffffffff ∨ (cache.get i.key).isSome ∨
    cachedBytes cache.values + i.value.val.length < 2 ^ 64

/-- What the cache owes in every state: a right count, evictions that end whichever entries
are offered, and insertions that change nothing where the key is known and cache the value
where it may be cached. -/
structure ReconstructionCacheState.Sound (cache : ReconstructionCacheState) : Prop
    extends cache.Accounted where
  ends : ∀ len n after, Evicting len n cache after → n ≤ cache.values.length
  settles : ∀ pick len, (∃ n, Evicting len n cache (cache.evict pick len cache.values.length)) ∧
    (cache.evict pick len cache.values.length).Settled len
  known : ∀ pick key value, (cache.get key).isSome → cache.insert pick key value = cache
  cached : ∀ pick key (value : Slice), cache.maxBytes ≠ 0 →
    value.val.length ≤ cache.maxBytes.toNat → ((cache.insert pick key value.val).get key).isSome

theorem ReconstructionCacheState.Accounted.sound (accounted : cache.Accounted) : cache.Sound where
  toAccounted := accounted
  ends len n after evicting := by
    have rounds := evicting.rounds
    omega
  settles pick len := evict_settles pick len (Nat.le_refl _)
  known pick key value := insert_present pick value
  cached pick key value enabled small := by
    by_cases there : (cache.get key).isSome
    · rw [insert_present pick value.val there]
      exact there
    · obtain ⟨n, kept, _, _, _, inserted⟩ := insert_fresh pick accounted enabled small there
      rw [inserted, get_isSome_iff]
      exact List.mem_cons_self ..

theorem ReconstructionCacheState.Accounted.apply_iff (accounted : cache.Accounted)
    (i : Insertion) : (i.apply cache).Accounted ↔ i.Fits cache := by
  unfold Insertion.apply
  by_cases there : (cache.get i.key).isSome
  · rw [insert_present i.pick i.value.val there]
    exact ⟨fun _ => Or.inr (Or.inl there), fun _ => accounted⟩
  have top : (0xffffffffffffffff : UInt64).toNat = 2 ^ 64 - 1 := by decide
  by_cases refused : cache.maxBytes = 0 ∨ cache.maxBytes.toNat < i.value.val.length
  · rw [insert_refused i.pick i.key refused]
    refine ⟨fun _ => Or.inl (fun largest => ?_), fun _ => accounted⟩
    have short := i.value.property
    obtain zero | large := refused
    · exact absurd (zero.symm.trans largest) (by decide)
    · rw [largest, top] at large
      omega
  obtain ⟨enabled, small⟩ := not_or.mp refused
  obtain ⟨n, kept, evicting, room, absent, inserted⟩ :=
    insert_fresh i.pick accounted enabled (Nat.le_of_not_lt small) there
  have before := evicting.accounted accounted
  rw [ReconstructionCacheState.Full, UInt64.not_lt, saturatingAdd_le_iff, i.value.lenU64_toNat,
    before.counted] at room
  rw [inserted]
  constructor
  · intro after
    by_cases largest : cache.maxBytes = 0xffffffffffffffff
    · obtain rfl := evicting.unlimited largest
      have total : _ = i.value.val.length + cachedBytes kept.values := after.counted
      have bound := UInt64.toNat_lt (kept.currentBytes + lenU64 i.value.val.length)
      rw [total, Nat.add_comm] at bound
      exact Or.inr (Or.inr bound)
    · exact Or.inl largest
  · intro fits
    apply before.add absent
    obtain fine | largest := room
    · exact fine
    · have same : cache.maxBytes = 0xffffffffffffffff := evicting.maxBytes ▸ largest
      obtain other | found | sum := fits
      · exact absurd same other
      · exact absurd found there
      · have fewer := evicting.bytes accounted
        rw [largest, top]
        omega

theorem cacheAfter_concat (maxBytes : UInt64) (before : List Insertion) (i : Insertion) :
    cacheAfter maxBytes (before ++ [i]) = i.apply (cacheAfter maxBytes before) :=
  List.foldl_concat ..

theorem sound_iff (maxBytes : UInt64) (insertions : List Insertion) :
    (∀ before, before <+: insertions → (cacheAfter maxBytes before).Sound) ↔
      ∀ before i, before ++ [i] <+: insertions → i.Fits (cacheAfter maxBytes before) := by
  constructor
  · intro sound before i there
    have after := sound _ there
    rw [cacheAfter_concat] at after
    exact ((sound before ((List.prefix_append ..).trans there)).toAccounted.apply_iff i).mp
      after.toAccounted
  · intro fits before there
    apply ReconstructionCacheState.Accounted.sound
    induction before using List.reverseRecOn with
    | nil => exact ⟨List.nodup_nil, rfl, UInt64.zero_le⟩
    | append_singleton before i ih =>
      rw [cacheAfter_concat]
      exact ((ih ((List.prefix_append ..).trans there)).apply_iff i).mpr (fits before i there)

/-- The cached values and the one that is inserted are live at once, so memory holds them all. -/
def Live (maxBytes : UInt64) (insertions : List Insertion) : Prop :=
  ∀ before i, before ++ [i] <+: insertions →
    cachedBytes (cacheAfter maxBytes before).values + i.value.val.length < 2 ^ 64

/-- The cache is sound throughout every history of insertions. -/
theorem cache_accounting (maxBytes : UInt64) (insertions : List Insertion)
    (live : Live maxBytes insertions) :
    ∀ before, before <+: insertions → (cacheAfter maxBytes before).Sound :=
  (sound_iff maxBytes insertions).mpr (fun before i there => .inr (.inr (live before i there)))

def sampleKey (n : UInt8) : ReconstructionCacheKey := ⟨n, ⟨List.replicate 16 0, by decide⟩⟩

def sampleInsertions : List Insertion :=
  [⟨fun _ => 0, sampleKey 0, ⟨[0x61, 0x62], by decide⟩⟩,
    ⟨fun _ => 0, sampleKey 1, ⟨[0x63, 0x64], by decide⟩⟩,
    ⟨fun _ => 0, sampleKey 0, ⟨[0x65], by decide⟩⟩]

theorem cache_accounting_sample :
    (cacheAfter 3 sampleInsertions).values = [(sampleKey 0, [0x65]), (sampleKey 1, [0x63, 0x64])] ∧
      (cacheAfter 3 sampleInsertions).Sound := by
  refine ⟨by decide, cache_accounting 3 sampleInsertions ?_ _ (List.prefix_refl _)⟩
  intro before i there
  obtain ⟨rest, same⟩ := there
  match before with
  | [] =>
    cases same
    decide
  | [a] =>
    cases same
    decide
  | [a, b] =>
    cases same
    decide
  | a :: b :: c :: more => simp [sampleInsertions] at same

end PiLSMer
