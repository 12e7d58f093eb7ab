import Mathlib.Data.List.TakeWhile
import PiLSMer.Core.StreamIndex
import PiLSMer.Core.Payload
import PiLSMer.Lib.Sorted

/-! What a lookup in the index finds: the first occurrences of the k-gram in the text, as a
scan over the text would list them. Sorting, grouping, the bound on a group and the binary
search are each shown to change nothing about that. -/
namespace PiLSMer

def occurrences (text needle : Bytes) : List Nat :=
  (List.range text.length).filter (fun i => (text.drop i).take needle.length = needle)

def pushByte (key : UInt64) (byte : UInt8) : UInt64 := (key <<< 8) ||| byte.toUInt64

def packed (bytes : Bytes) : UInt64 := bytes.foldl pushByte 0

theorem packKgram_ok {bytes : Bytes} {key : UInt64} :
    packKgram bytes = .ok key ↔ 0 < bytes.length ∧ bytes.length ≤ 8 ∧ packed bytes = key := by
  unfold packKgram
  split
  · rename_i bad
    rcases bad with empty | long
    · simp [List.isEmpty_iff.mp empty]
    · simp only [reduceCtorEq, false_iff]
      omega
  · rename_i fine
    rw [not_or, Bool.not_eq_true, List.isEmpty_eq_false_iff] at fine
    have := List.length_pos_iff.mpr fine.1
    rw [Except.ok.injEq]
    exact ⟨fun h => ⟨this, by omega, h⟩, fun h => h.2.2⟩

theorem key_push (key : UInt64) (room : key.toNat < 2 ^ 56) (byte : UInt8) :
    (pushByte key byte).toNat = key.toNat * 256 + byte.toNat := by
  have small : byte.toNat < 2 ^ 8 := byte.toNat_lt
  have shifted : (key <<< 8).toNat = key.toNat <<< 8 := by
    rw [UInt64.toNat_shiftLeft, Nat.mod_eq_of_lt]
    · rfl
    · change key.toNat <<< 8 < 2 ^ 64
      rw [Nat.shiftLeft_eq]
      omega
  rw [pushByte, UInt64.toNat_or, shifted, UInt8.toNat_toUInt64,
    ← Nat.shiftLeft_add_eq_or_of_lt small, Nat.shiftLeft_eq]

theorem foldl_key_injective {a b : Bytes} (same : a.length = b.length) (short : a.length ≤ 8)
    {key key' : UInt64} (room : key.toNat < 256 ^ (8 - a.length))
    (room' : key'.toNat < 256 ^ (8 - a.length))
    (h : a.foldl pushByte key = b.foldl pushByte key') : key = key' ∧ a = b := by
  induction a generalizing b key key' with
  | nil =>
    obtain rfl := List.length_eq_zero_iff.mp same.symm
    exact ⟨h, rfl⟩
  | cons x a ih =>
    obtain ⟨y, b, rfl⟩ : ∃ y b', b = y :: b' :=
      List.exists_cons_of_length_pos (same ▸ Nat.succ_pos _)
    simp only [List.length_cons] at same short room room'
    have more : 256 ^ (8 - a.length) = 256 ^ (8 - (a.length + 1)) * 256 := by
      rw [← Nat.pow_succ]
      congr 1
      omega
    have bound : 256 ^ (8 - (a.length + 1)) ≤ 256 ^ 7 := Nat.pow_le_pow_right (by decide) (by omega)
    have low : x.toNat < 256 := x.toNat_lt
    have low' : y.toNat < 256 := y.toNat_lt
    have push := key_push key (by omega) x
    have push' := key_push key' (by omega) y
    obtain ⟨keys, rest⟩ := ih (Nat.succ.inj same) (by omega) (by omega) (by omega) h
    have equal := congrArg UInt64.toNat keys
    rw [push, push'] at equal
    refine ⟨UInt64.toNat_inj.mp (by omega), ?_⟩
    rw [rest, UInt8.toNat_inj.mp (by omega : x.toNat = y.toNat)]

theorem packed_injective {a b : Bytes} (same : a.length = b.length) (short : a.length ≤ 8) :
    packed a = packed b ↔ a = b := by
  have room : (0 : UInt64).toNat < 256 ^ (8 - a.length) := Nat.pow_pos (by decide)
  constructor
  · exact fun h => (foldl_key_injective same short room room h).2
  · rintro rfl
    rfl

section Pairs

def kgramPairs (text : Bytes) (k : Nat) : List (UInt64 × UInt64) :=
  (List.range (text.length - k + 1)).map
    (fun i => (packed ((text.drop i).take k), UInt64.ofNat i))

theorem mapM_ok_map {α β : Type} {f : α → Except PiLsmError β} {g : α → β} {xs : List α}
    {ys : List β} (value : ∀ x y, f x = .ok y → y = g x) (h : xs.mapM f = .ok ys) :
    ys = xs.map g := by
  induction xs generalizing ys with
  | nil =>
    rw [List.mapM_nil] at h
    cases h
    rfl
  | cons x xs ih =>
    simp only [List.mapM_cons, except_bind_ok, except_pure_ok] at h
    obtain ⟨y, head, zs, tail, rfl⟩ := h
    rw [List.map_cons, value x y head, ih tail]

theorem kgramPair_ok {text : Bytes} {k i : Nat} {pair : UInt64 × UInt64}
    (h : kgramPair text k i = .ok pair) :
    pair = (packed ((text.drop i).take k), UInt64.ofNat i) := by
  simp only [kgramPair, except_bind_ok, except_pure_ok] at h
  obtain ⟨key, made, offset, whole, rfl⟩ := h
  have place := tryU64_ok whole
  rw [← (packKgram_ok.mp made).2.2, ← place, UInt64.ofNat_toNat]

theorem occurrences_eq {text needle : Bytes} (positive : 0 < needle.length)
    (fits : needle.length ≤ text.length) :
    occurrences text needle = (List.range (text.length - needle.length + 1)).filter
      (fun i => (text.drop i).take needle.length = needle) := by
  have whole : text.length = text.length - needle.length + 1 + (needle.length - 1) := by omega
  have beyond : ((List.range (needle.length - 1)).map
      (fun j => text.length - needle.length + 1 + j)).filter
        (fun i => (text.drop i).take needle.length = needle) = [] := by
    rw [List.filter_eq_nil_iff]
    intro i hi same
    obtain ⟨j, hj, rfl⟩ := List.mem_map.mp hi
    have size := congrArg List.length (of_decide_eq_true same)
    rw [List.length_take, List.length_drop] at size
    omega
  unfold occurrences
  conv_lhs => rw [whole, List.range_add, List.filter_append, beyond, List.append_nil]

theorem mem_occurrences {text needle : Bytes} {i : Nat} :
    i ∈ occurrences text needle ↔ i < text.length ∧ (text.drop i).take needle.length = needle := by
  simp [occurrences]

theorem occurrences_pairwise (text needle : Bytes) : (occurrences text needle).Pairwise (· < ·) :=
  List.pairwise_lt_range.filter _

theorem kgramPairs_key {text needle : Bytes} (positive : 0 < needle.length)
    (short : needle.length ≤ 8) (fits : needle.length ≤ text.length) :
    (kgramPairs text needle.length).filter (fun p => p.1 = packed needle) =
      (occurrences text needle).map (fun i => (packed needle, UInt64.ofNat i)) := by
  rw [occurrences_eq positive fits, kgramPairs, List.filter_map]
  have same : ∀ i ∈ List.range (text.length - needle.length + 1),
      ((fun p : UInt64 × UInt64 => decide (p.1 = packed needle)) ∘
        (fun i => (packed ((text.drop i).take needle.length), UInt64.ofNat i))) i =
      decide ((text.drop i).take needle.length = needle) := by
    intro i hi
    have := List.mem_range.mp hi
    have size : ((text.drop i).take needle.length).length = needle.length :=
      window_length (by omega)
    exact decide_eq_decide.mpr (packed_injective size (by omega))
  rw [List.filter_congr same]
  apply List.map_congr_left
  intro i hi
  rw [of_decide_eq_true (List.mem_filter.mp hi).2]

end Pairs

instance : Std.Total pairLe :=
  ⟨fun a b => by
    simp only [pairLe, UInt64.lt_iff_toNat_lt, UInt64.le_iff_toNat_le, ← UInt64.toNat_inj]
    omega⟩

instance : IsTrans (UInt64 × UInt64) pairLe :=
  ⟨fun a b c => by
    simp only [pairLe, UInt64.lt_iff_toNat_lt, UInt64.le_iff_toNat_le, ← UInt64.toNat_inj]
    omega⟩

instance : Std.Antisymm pairLe :=
  ⟨fun a b h h' => by
    simp only [pairLe, UInt64.lt_iff_toNat_lt, UInt64.le_iff_toNat_le, ← UInt64.toNat_inj] at h h'
    exact Prod.ext (UInt64.toNat_inj.mp (by omega)) (UInt64.toNat_inj.mp (by omega))⟩

/-- The offsets of one key come out of the sort in the order of the text. -/
theorem sorted_key {text needle : Bytes} (positive : 0 < needle.length)
    (short : needle.length ≤ 8) (fits : needle.length ≤ text.length)
    (small : text.length < 2 ^ 64) :
    (((kgramPairs text needle.length).insertionSort pairLe).filter
        (fun p => p.1 = packed needle)).map Prod.snd =
      (occurrences text needle).map UInt64.ofNat := by
  have key := kgramPairs_key positive short fits
  have ordered : ((kgramPairs text needle.length).filter
      (fun p => p.1 = packed needle)).Pairwise pairLe := by
    rw [key, List.pairwise_map]
    apply (occurrences_pairwise text needle).imp_of_mem
    intro i j hi hj before
    have := (mem_occurrences.mp hi).1
    have := (mem_occurrences.mp hj).1
    refine Or.inr ⟨rfl, ?_⟩
    rw [UInt64.le_iff_toNat_le, UInt64.toNat_ofNat', UInt64.toNat_ofNat',
      Nat.mod_eq_of_lt (by omega), Nat.mod_eq_of_lt (by omega)]
    omega
  rw [Sorted.filter_insertionSort pairLe _ ordered, key, List.map_map]
  rfl

section Groups

theorem retainRun_eq (max : UInt16) (key : UInt64) (pairs : List (UInt64 × UInt64))
    (retained : UInt16) (offsets : List UInt64) (room : retained ≤ max) :
    let kept := ((pairs.takeWhile (fun p => p.1 = key)).map Prod.snd).take
      (max.toNat - retained.toNat)
    (retainRun max key pairs retained offsets).1.toNat = retained.toNat + kept.length ∧
    (retainRun max key pairs retained offsets).2 =
      (offsets ++ kept, pairs.dropWhile (fun p => p.1 = key)) := by
  rw [UInt16.le_iff_toNat_le] at room
  induction pairs generalizing retained offsets with
  | nil => simp [retainRun]
  | cons pair pairs ih =>
    obtain ⟨k, offset⟩ := pair
    by_cases here : k = key
    · by_cases more : retained < max
      · rw [UInt16.lt_iff_toNat_lt] at more
        have bound : max.toNat < 2 ^ 16 := max.toNat_lt
        have next : (retained + 1).toNat = retained.toNat + 1 := by
          rw [UInt16.toNat_add, UInt16.toNat_one, Nat.mod_eq_of_lt (by omega)]
        have left : max.toNat - retained.toNat = (max.toNat - (retained.toNat + 1)) + 1 := by omega
        obtain ⟨count, rest⟩ := ih (retained + 1) (offsets ++ [offset]) (by omega)
        rw [next] at count rest
        simp only [retainRun, here, if_true, UInt16.lt_iff_toNat_lt.mpr more, count, rest,
          decide_true, List.takeWhile_cons_of_pos, List.dropWhile_cons_of_pos, List.map_cons, left,
          List.take_succ_cons, List.length_cons, List.append_assoc, List.singleton_append, and_true]
        omega
      · have full : max.toNat - retained.toNat = 0 := by
          rw [UInt16.lt_iff_toNat_lt] at more
          omega
        obtain ⟨count, rest⟩ := ih retained offsets room
        simp only [full, List.take_zero] at count rest
        simp only [retainRun, here, if_true, more, if_false, count, rest, decide_true,
          List.dropWhile_cons_of_pos, full, List.take_zero, and_self]
    · simp [retainRun, here]

variable {max : UInt16} {key : UInt64} {pairs : List (UInt64 × UInt64)}

/-- The table of a sorted list of pairs: increasing keys, each with the slice of the offsets
that holds the first offsets of that key. -/
structure Grouped (max : UInt16) (pairs : List (UInt64 × UInt64))
    (entries : List PackedKGramEntry) (offsets : List UInt64) : Prop where
  increasing : entries.Pairwise (fun a b => a.packedKey < b.packedKey)
  every : ∀ p ∈ pairs, ∃ entry ∈ entries, entry.packedKey = p.1
  only : ∀ entry ∈ entries, ∃ p ∈ pairs, p.1 = entry.packedKey
  kept : ∀ entry ∈ entries,
    (offsets.drop entry.offsetsStart.toNat).take entry.offsetsLen.toNat =
      ((pairs.filter (fun p => p.1 = entry.packedKey)).map Prod.snd).take max.toNat

theorem tryU32Len_ok {n : Nat} {name : String} {v : UInt32} (h : tryU32Len n name = .ok v) :
    v.toNat = n ∧ n < 2 ^ 32 := by
  unfold tryU32Len at h
  split at h
  · cases h
  · rename_i small
    cases h
    rw [UInt32.toNat_ofNat', Nat.mod_eq_of_lt (Nat.lt_of_not_le small)]
    exact ⟨rfl, Nat.lt_of_not_le small⟩

theorem groupRuns_round {rounds : Nat} {offset : UInt64} {entries : List PackedKGramEntry}
    {offsets : List UInt64} {grouped : List PackedKGramEntry × List UInt64}
    (h : groupRuns max (rounds + 1) ((key, offset) :: pairs) entries offsets = .ok grouped) :
    ∃ start retained kept, start.toNat = offsets.length ∧ offsets.length < 2 ^ 32 ∧
      retained.toNat = kept.length ∧
      kept = ((((key, offset) :: pairs).takeWhile (fun p => p.1 = key)).map Prod.snd).take
        max.toNat ∧
      groupRuns max rounds (((key, offset) :: pairs).dropWhile (fun p => p.1 = key))
        (entries ++ [⟨key, start, retained⟩]) (offsets ++ kept) = .ok grouped := by
  simp only [groupRuns, except_bind_ok] at h
  obtain ⟨start, whole, h⟩ := h
  obtain ⟨count, rest⟩ := retainRun_eq max key ((key, offset) :: pairs) 0 offsets
    UInt16.zero_le
  rw [UInt16.toNat_zero, Nat.sub_zero, Nat.zero_add] at count
  rw [UInt16.toNat_zero, Nat.sub_zero] at rest
  obtain ⟨place, room⟩ := tryU32Len_ok whole
  refine ⟨start, _, _, place, room, count, rfl, ?_⟩
  have kept := congrArg Prod.fst rest
  have left := congrArg Prod.snd rest
  dsimp only at kept left
  rw [← kept, ← left]
  exact h

theorem Grouped.cons {new : List PackedKGramEntry} {offsets : List UInt64} {start : UInt32}
    {retained : UInt16} (member : ∃ p ∈ pairs, p.1 = key)
    (above : ∀ p ∈ pairs.dropWhile (fun p => p.1 = key), key.toNat < p.1.toNat)
    (tail : Grouped max (pairs.dropWhile (fun p => p.1 = key)) new offsets)
    (kept : (offsets.drop start.toNat).take retained.toNat =
      ((pairs.filter (fun p => p.1 = key)).map Prod.snd).take max.toNat) :
    Grouped max pairs (⟨key, start, retained⟩ :: new) offsets := by
  have split := List.takeWhile_append_dropWhile (p := fun p => decide (p.1 = key)) (l := pairs)
  have onRun : ∀ p ∈ pairs.takeWhile (fun p => p.1 = key), p.1 = key :=
    fun p hp => by simpa using List.mem_takeWhile_imp hp
  constructor
  · refine List.pairwise_cons.mpr ⟨fun entry he => ?_, tail.increasing⟩
    obtain ⟨p, hp, equal⟩ := tail.only entry he
    rw [← equal, UInt64.lt_iff_toNat_lt]
    exact above p hp
  · intro p hp
    rw [← split] at hp
    rcases List.mem_append.mp hp with hp | hp
    · exact ⟨_, List.mem_cons_self .., (onRun p hp).symm⟩
    · obtain ⟨entry, he, equal⟩ := tail.every p hp
      exact ⟨entry, List.mem_cons_of_mem _ he, equal⟩
  · intro entry he
    rcases List.mem_cons.mp he with rfl | he
    · exact member
    · obtain ⟨p, hp, equal⟩ := tail.only entry he
      exact ⟨p, (List.dropWhile_sublist _).subset hp, equal⟩
  · intro entry he
    rcases List.mem_cons.mp he with rfl | he
    · exact kept
    · obtain ⟨p, hp, equal⟩ := tail.only entry he
      have other : (pairs.takeWhile (fun p => p.1 = key)).filter
          (fun p => p.1 = entry.packedKey) = [] := by
        rw [List.filter_eq_nil_iff]
        intro q hq match_entry
        have beyond := above p hp
        rw [equal, ← of_decide_eq_true match_entry, onRun q hq] at beyond
        exact Nat.lt_irrefl _ beyond
      rw [tail.kept entry he]
      conv_rhs => rw [← split, List.filter_append, other, List.nil_append]

theorem groupRuns_grouped {rounds : Nat} {entries : List PackedKGramEntry}
    {offsets : List UInt64} {grouped : List PackedKGramEntry × List UInt64}
    (sorted : pairs.Pairwise (fun a b => a.1.toNat ≤ b.1.toNat)) (enough : pairs.length ≤ rounds)
    (h : groupRuns max rounds pairs entries offsets = .ok grouped) :
    ∃ new more, grouped = (entries ++ new, offsets ++ more) ∧ Grouped max pairs new grouped.2 := by
  induction rounds generalizing pairs entries offsets with
  | zero =>
    cases h
    obtain rfl := List.length_eq_zero_iff.mp (Nat.le_zero.mp enough)
    exact ⟨[], [], by simp, .nil, by simp, by simp, by simp⟩
  | succ rounds ih =>
    cases pairs with
    | nil =>
      cases h
      exact ⟨[], [], by simp, .nil, by simp, by simp, by simp⟩
    | cons pair rest =>
      obtain ⟨key, offset⟩ := pair
      obtain ⟨start, retained, kept, place, _, count, run, h⟩ := groupRuns_round h
      have onKey : (fun p : UInt64 × UInt64 => decide (p.1 = key)) =
          (fun p => decide (p.1.toNat = key.toNat)) := by
        funext p
        exact decide_eq_decide.mpr UInt64.toNat_inj.symm
      have low : ∀ p ∈ (key, offset) :: rest, key.toNat ≤ p.1.toNat := by
        intro p hp
        rcases List.mem_cons.mp hp with rfl | hp
        · exact Nat.le_refl _
        · exact (List.pairwise_cons.mp sorted).1 p hp
      have above := Sorted.dropWhile_above sorted low
      have front := Sorted.takeWhile_eq_filter sorted low
      rw [← onKey] at above front
      generalize all : (key, offset) :: rest = pairs at *
      have short : (pairs.dropWhile (fun p => p.1 = key)).length ≤ rounds := by
        rw [← all, List.dropWhile_cons_of_pos (by simp)]
        have := (List.dropWhile_sublist (fun p : UInt64 × UInt64 => decide (p.1 = key))
          (l := rest)).length_le
        rw [← all, List.length_cons] at enough
        omega
      obtain ⟨new, more, same, tail⟩ :=
        ih (sorted.sublist (List.dropWhile_sublist _)) short h
      have member : ∃ p ∈ pairs, p.1 = key := ⟨(key, offset), all ▸ List.mem_cons_self .., rfl⟩
      refine ⟨⟨key, start, retained⟩ :: new, kept ++ more, by simp [same],
        Grouped.cons member above tail ?_⟩
      rw [same, place, count, ← front, ← run]
      simp

theorem groupRuns_size {rounds : Nat} {entries : List PackedKGramEntry}
    {offsets : List UInt64} {grouped : List PackedKGramEntry × List UInt64} (some_room : max ≠ 0)
    (sofar : entries.length ≤ offsets.length) (low : offsets.length ≤ 2 ^ 32 + 2 ^ 16)
    (h : groupRuns max rounds pairs entries offsets = .ok grouped) :
    grouped.1.length ≤ grouped.2.length ∧ grouped.2.length ≤ 2 ^ 32 + 2 ^ 16 := by
  induction rounds generalizing pairs entries offsets with
  | zero =>
    cases h
    exact ⟨sofar, low⟩
  | succ rounds ih =>
    cases pairs with
    | nil =>
      cases h
      exact ⟨sofar, low⟩
    | cons pair rest =>
      obtain ⟨key, offset⟩ := pair
      obtain ⟨start, retained, kept, _, small, count, run, h⟩ := groupRuns_round h
      have bound : max.toNat < 2 ^ 16 := max.toNat_lt
      have room : 0 < max.toNat :=
        Nat.pos_of_ne_zero (fun zero => some_room (UInt16.toNat_inj.mp zero))
      have size : 0 < kept.length ∧ kept.length ≤ max.toNat := by
        rw [run, List.takeWhile_cons_of_pos (by simp), List.length_take, List.map_cons,
          List.length_cons]
        omega
      refine ih ?_ ?_ h
      · simp only [List.length_append, List.length_singleton]
        omega
      · rw [List.length_append]
        omega

end Groups

theorem bisect_eq_halve (entries : List PackedKGramEntry) (key : UInt64)
    (rounds base size : Nat) :
    bisect entries key rounds base size =
      Sorted.halve (fun i => (entries[i]?).any (fun entry => key < entry.packedKey))
        rounds base size := by
  induction rounds generalizing base size with
  | zero => rfl
  | succ rounds ih =>
    simp only [bisect, Sorted.halve, ih]

theorem binarySearchByKey_eq {entries : List PackedKGramEntry} {key : UInt64}
    {entry : PackedKGramEntry}
    (increasing : entries.Pairwise (fun a b => a.packedKey < b.packedKey)) :
    binarySearchByKey entries key = some entry ↔ entry ∈ entries ∧ entry.packedKey = key := by
  simp only [binarySearchByKey, Option.filter_eq_some_iff, decide_eq_true_eq]
  constructor
  · rintro ⟨there, same⟩
    exact ⟨List.mem_of_getElem? there, same⟩
  · rintro ⟨member, same⟩
    obtain ⟨target, inside, there⟩ := List.getElem_of_mem member
    have cut : ∀ i < entries.length,
        (entries[i]?).any (fun entry => key < entry.packedKey) = true ↔ target < i := by
      intro i hi
      rw [List.getElem?_eq_getElem hi, Option.any_some, decide_eq_true_eq, ← same, ← there]
      rcases Nat.lt_trichotomy i target with before | rfl | after
      · have := List.pairwise_iff_getElem.mp increasing i target hi inside before
        rw [UInt64.lt_iff_toNat_lt] at this ⊢
        omega
      · simp
      · have := List.pairwise_iff_getElem.mp increasing target i inside hi after
        exact ⟨fun _ => after, fun _ => this⟩
    rw [bisect_eq_halve, Sorted.halve_finds cut (Nat.zero_le _) (by omega) (by omega) (by omega),
      List.getElem?_eq_getElem inside, there]
    exact ⟨rfl, same⟩

def IndexedChunk.at (len offset : Nat) : IndexedChunk where
  offset := UInt64.ofNat offset
  len := UInt16.ofNat len
  encodedCost := locatedChunkEncodedCost (UInt64.ofNat offset) (UInt64.ofNat len)
  readCostHint := UInt16.ofNat len

section Table

variable {text : Bytes} {k : Nat} {max : UInt16} {table : PackedKGramTable}

theorem build_grouped (h : PackedKGramTable.build text k max = .ok table) :
    table.k.toNat = k ∧
      Grouped max ((kgramPairs text k).insertionSort pairLe) table.entries table.offsets := by
  simp only [PackedKGramTable.build, except_bind_ok] at h
  obtain ⟨pairs, mapped, grouped, runs, small, narrow, same⟩ := h
  cases same
  have pairs_eq : pairs = kgramPairs text k := mapM_ok_map (fun _ _ => kgramPair_ok) mapped
  rw [pairs_eq] at runs
  have sorted : ((kgramPairs text k).insertionSort pairLe).Pairwise
      (fun a b => a.1.toNat ≤ b.1.toNat) := by
    refine (List.pairwise_insertionSort pairLe _).imp (fun {a b} le => ?_)
    rcases le with lt | ⟨same, _⟩
    · exact Nat.le_of_lt (UInt64.lt_iff_toNat_lt.mp lt)
    · exact Nat.le_of_eq (congrArg UInt64.toNat same)
  obtain ⟨new, more, whole, groups⟩ :=
    groupRuns_grouped sorted (Nat.le_refl _) runs
  have entries : grouped.1 = new := by rw [whole, List.nil_append]
  exact ⟨tryU8_ok narrow, entries ▸ groups⟩

theorem build_findCandidates (h : PackedKGramTable.build text k max = .ok table)
    (fits : k ≤ text.length) (short : k ≤ 8) (small : text.length < 2 ^ 64) {needle : Bytes}
    (positive : 0 < needle.length) (size : needle.length = k) :
    table.findCandidates needle =
      ((occurrences text needle).take max.toNat).map (IndexedChunk.at k) := by
  subst size
  obtain ⟨length, groups⟩ := build_grouped h
  have key : packKgram needle = .ok (packed needle) := packKgram_ok.mpr ⟨positive, short, rfl⟩
  have found := sorted_key positive short fits small
  have k16 : table.k.toUInt16 = UInt16.ofNat needle.length := by
    apply UInt16.toNat_inj.mp
    rw [UInt8.toNat_toUInt16, UInt16.toNat_ofNat', length, Nat.mod_eq_of_lt (by omega)]
  have k64 : table.k.toUInt64 = UInt64.ofNat needle.length := by
    apply UInt64.toNat_inj.mp
    rw [UInt8.toNat_toUInt64, UInt64.toNat_ofNat', length, Nat.mod_eq_of_lt (by omega)]
  cases searched : binarySearchByKey table.entries (packed needle) with
  | none =>
    -- No pair has the key, so the needle does not occur.
    have nowhere : ((kgramPairs text needle.length).insertionSort pairLe).filter
        (fun p => p.1 = packed needle) = [] := by
      rw [List.filter_eq_nil_iff]
      intro p hp onKey
      obtain ⟨entry, he, same⟩ := groups.every p hp
      have := (binarySearchByKey_eq groups.increasing).mpr
        ⟨he, same.trans (of_decide_eq_true onKey)⟩
      rw [searched] at this
      cases this
    rw [nowhere, List.map_nil, eq_comm, List.map_eq_nil_iff] at found
    simp [PackedKGramTable.findCandidates, key, searched, found]
  | some entry =>
    obtain ⟨member, same⟩ := (binarySearchByKey_eq groups.increasing).mp searched
    have slice := groups.kept entry member
    rw [same, found, ← List.map_take] at slice
    simp only [PackedKGramTable.findCandidates, key, searched, slice, List.map_map, k16, k64]
    rfl

/-- The bytes that from_prefix accounts for a table, before they become a u64. -/
def PackedKGramTable.size (table : PackedKGramTable) : Nat :=
  table.entries.length * packedKGramEntrySize + table.offsets.length * 8

theorem build_size (h : PackedKGramTable.build text k max = .ok table) (some_room : max ≠ 0) :
    table.estimatedBytes.toNat = table.size := by
  simp only [PackedKGramTable.build, except_bind_ok] at h
  obtain ⟨_, _, grouped, runs, _, _, same⟩ := h
  cases same
  obtain ⟨fewer, low⟩ := groupRuns_size some_room (Nat.le_refl _) (by simp) runs
  apply lenU64_toNat
  simp only [packedKGramEntrySize]
  omega

end Table

theorem buildTables_memory {text : Bytes} {options : StreamIndexOptions} {ks : List Nat}
    {byLen tables : List PackedKGramTable} {estimated : UInt64}
    (some_room : options.maxOffsetsPerKgram ≠ 0)
    (total : estimated.toNat = (byLen.map PackedKGramTable.size).sum)
    (within : estimated ≤ options.maxIndexMemoryBytes)
    (h : buildTables text options ks byLen estimated = .ok tables) :
    (tables.map PackedKGramTable.size).sum ≤ options.maxIndexMemoryBytes.toNat := by
  have kept : (byLen.map PackedKGramTable.size).sum ≤ options.maxIndexMemoryBytes.toNat :=
    total ▸ UInt64.le_iff_toNat_le.mp within
  induction ks generalizing byLen estimated with
  | nil =>
    cases h
    exact kept
  | cons k ks ih =>
    unfold buildTables at h
    split at h
    · cases h
      exact kept
    · simp only [except_bind_ok] at h
      obtain ⟨table, made, next, added, h⟩ := h
      obtain ⟨_, sum⟩ := checkedAdd_ok added
      split at h
      · split at h
        · cases h
        · cases h
          exact kept
      · rename_i fits
        have total' : next.toNat = ((byLen ++ [table]).map PackedKGramTable.size).sum := by
          rw [List.map_append, List.sum_append, ← total, sum, build_size made some_room]
          simp
        exact ih total' (UInt64.not_lt.mp fits) h
          (total' ▸ UInt64.le_iff_toNat_le.mp (UInt64.not_lt.mp fits))

/-- A lookup in an index finds what a scan of its text finds first. -/
theorem fromPrefix_findCandidates {id : StreamId} {fingerprint : StreamFingerprint}
    {text : Bytes} {options : StreamIndexOptions} {index : StreamIndex}
    (made : StreamIndex.fromPrefix id fingerprint text options = .ok index) (needle : Bytes) :
    index.findCandidates needle =
      if 0 < needle.length ∧ needle.length ≤ index.maxK then
        ((occurrences text needle).take options.maxOffsetsPerKgram.toNat).map
          (IndexedChunk.at needle.length)
      else [] := by
  have indexes := fromPrefix_ok made
  have small := indexes.small
  have count := indexes.count
  have within := indexes.within
  have bound := indexes.bound
  by_cases usable : 0 < needle.length ∧ needle.length ≤ index.maxK
  · obtain ⟨positive, short⟩ := usable
    have nonempty : needle ≠ [] := List.length_pos_iff.mp positive
    have inside : needle.length - 1 < index.byLen.length := by omega
    obtain ⟨fits, built⟩ := indexes.tabled _ _ (List.getElem?_eq_getElem inside)
    rw [show needle.length - 1 + 1 = needle.length by omega] at fits built
    rw [if_pos ⟨positive, short⟩, StreamIndex.findCandidates, if_neg (by simp [nonempty]; omega),
      List.getElem?_eq_getElem inside]
    exact build_findCandidates built fits (by omega) small positive rfl
  · rw [if_neg usable, StreamIndex.findCandidates, if_pos]
    by_cases empty : needle = []
    · exact Or.inl (by simp [empty])
    · have := List.length_pos_iff.mpr empty
      exact Or.inr (Or.inl (by omega))

/-- The index of a text: its lookups are scans, its tables those for 1 to max_k, and they stay
within the budget. -/
structure StreamIndex.Scans (index : StreamIndex) (text : Bytes) (options : StreamIndexOptions) :
    Prop where
  finds : ∀ needle, 0 < needle.length → needle.length ≤ index.maxK →
    (index.findCandidates needle).map (fun found => found.offset.toNat) =
      (occurrences text needle).take options.maxOffsetsPerKgram.toNat
  increasing : ∀ needle, (index.findCandidates needle).Pairwise
    (fun a b => a.offset.toNat < b.offset.toNat)
  lengths : ∀ needle, ∀ found ∈ index.findCandidates needle, found.len.toNat = needle.length
  otherwise : ∀ needle, ¬ (0 < needle.length ∧ needle.length ≤ index.maxK) →
    index.findCandidates needle = []
  tables : index.byLen.length = index.maxK ∧ ∀ k table, index.byLen[k]? = some table →
    table.k.toNat = k + 1 ∧
      PackedKGramTable.build text (k + 1) options.maxOffsetsPerKgram = .ok table
  memory : (index.byLen.map PackedKGramTable.size).sum ≤ options.maxIndexMemoryBytes.toNat

theorem lookup_scans (id : StreamId) (fingerprint : StreamFingerprint) (text : Bytes)
    (options : StreamIndexOptions) (index : StreamIndex)
    (made : StreamIndex.fromPrefix id fingerprint text options = .ok index) :
    index.Scans text options := by
  have found := fromPrefix_findCandidates made
  have indexes := fromPrefix_ok made
  have small := indexes.small
  have place : ∀ needle, ∀ i ∈ occurrences text needle, (UInt64.ofNat i).toNat = i := by
    intro needle i hi
    have := (mem_occurrences.mp hi).1
    exact lenU64_toNat (by omega)
  refine ⟨fun needle positive short => ?_, fun needle => ?_, fun needle => ?_, fun needle h => ?_,
    ⟨indexes.count.symm, fun k table there => ?_⟩, ?_⟩
  · rw [found, if_pos ⟨positive, short⟩, List.map_map]
    refine (List.map_congr_left (fun i hi => ?_)).trans (List.map_id _)
    exact place needle i (List.mem_of_mem_take hi)
  · rw [found]
    split
    · rw [List.pairwise_map]
      apply ((occurrences_pairwise text needle).sublist (List.take_sublist _ _)).imp_of_mem
      intro i j hi hj before
      change (UInt64.ofNat i).toNat < (UInt64.ofNat j).toNat
      rw [place needle i (List.mem_of_mem_take hi), place needle j (List.mem_of_mem_take hj)]
      exact before
    · exact .nil
  · rw [found]
    split
    · rename_i usable
      intro chunk member
      obtain ⟨i, _, rfl⟩ := List.mem_map.mp member
      have short := Nat.le_trans indexes.within indexes.bound
      change (UInt16.ofNat needle.length).toNat = _
      rw [UInt16.toNat_ofNat', Nat.mod_eq_of_lt (by omega)]
    · simp
  · rw [found, if_neg h]
  · obtain ⟨_, made⟩ := indexes.tabled k table there
    exact ⟨(build_grouped made).1, made⟩
  · exact buildTables_memory indexes.retained rfl UInt64.zero_le indexes.tables

def narrowIndex : StreamIndexOptions where
  maxPrefixLen := 3
  maxK := 2
  maxIndexMemoryBytes := 1024
  maxOffsetsPerKgram := 1

theorem lookup_scans_sample : ∃ index,
    StreamIndex.fromPrefix (.sha256CounterV1 ⟨List.replicate 32 0, rfl⟩)
      ⟨List.replicate 32 0, rfl⟩ [0x61, 0x62, 0x61] narrowIndex = .ok index ∧
    index.maxK = 2 ∧ index.Scans [0x61, 0x62, 0x61] narrowIndex := by
  refine ⟨_, rfl, rfl, ?_⟩
  exact lookup_scans (.sha256CounterV1 ⟨List.replicate 32 0, rfl⟩) ⟨List.replicate 32 0, rfl⟩
    [0x61, 0x62, 0x61] narrowIndex _ rfl

end PiLSMer
