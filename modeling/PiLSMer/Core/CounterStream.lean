import PiLSMer.Core.Roundtrip
import PiLSMer.Core.Reconstruct

/-! Random access into the counter stream. A read cuts its bytes out of whole blocks; it is
exact as long as the rounded-up end of the last block does not saturate. -/
namespace PiLSMer

variable [Digests]

def counterByte (seed : Arr 32) (n : Nat) : Option UInt8 :=
  (sha256CounterBlock seed (UInt64.ofNat (n / 32)))[n % 32]?

theorem sha256CounterBlock_length (seed : Arr 32) (blockIx : UInt64) :
    (sha256CounterBlock seed blockIx).length = 32 :=
  (Digests.sha256 _).property

def counterBlocks (seed : Arr 32) (start count : Nat) : Bytes :=
  (List.range' start count).flatMap
    (fun blockIx => sha256CounterBlock seed (UInt64.ofNat blockIx))

theorem counterBlocks_length (seed : Arr 32) (start count : Nat) :
    (counterBlocks seed start count).length = 32 * count := by
  induction count generalizing start with
  | zero => rfl
  | succ count ih =>
    have tail := ih (start + 1)
    simp only [counterBlocks] at tail
    simp only [counterBlocks, List.range'_succ, List.flatMap_cons, List.length_append,
      sha256CounterBlock_length, tail]
    omega

theorem counterBlocks_getElem? (seed : Arr 32) (start count j : Nat) (inside : j < 32 * count) :
    (counterBlocks seed start count)[j]? = counterByte seed (32 * start + j) := by
  induction count generalizing start j with
  | zero => omega
  | succ count ih =>
    have first := sha256CounterBlock_length seed (UInt64.ofNat start)
    have split : counterBlocks seed start (count + 1) =
        sha256CounterBlock seed (UInt64.ofNat start) ++ counterBlocks seed (start + 1) count := by
      simp only [counterBlocks, List.range'_succ, List.flatMap_cons]
    rw [split]
    by_cases early : j < 32
    · have block : (32 * start + j) / 32 = start := by omega
      have place : (32 * start + j) % 32 = j := by omega
      rw [List.getElem?_append_left (first.symm ▸ early), counterByte, block, place]
    · have place : 32 * (start + 1) + (j - 32) = 32 * start + j := by omega
      rw [List.getElem?_append_right (by omega), first, ih (start + 1) (j - 32) (by omega), place]

theorem counterRead_cut (seed : Arr 32) (offset : UInt64) {len : Nat} (some_bytes : 0 < len)
    (low : offset.toNat + len < 2 ^ 64) : sha256CounterReadAt seed offset len =
      (slice (counterBlocks seed (offset.toNat / 32)
        (min (offset.toNat + len + 31) (2 ^ 64 - 1) / 32 - offset.toNat / 32))
        (offset.toNat % 32) (offset.toNat % 32 + len)).map .ok := by
  rw [sha256CounterReadAt, if_neg (by omega)]
  dsimp only
  rw [if_neg (by omega)]
  rfl

theorem counterRead_exact (seed : Arr 32) (offset : UInt64) (len : Nat)
    (low : offset.toNat + len ≤ 2 ^ 64 - 32) : ∃ bytes,
      sha256CounterReadAt seed offset len = some (.ok bytes) ∧ bytes.length = len ∧
      ∀ j, j < len → bytes[j]? = counterByte seed (offset.toNat + j) := by
  by_cases empty : len = 0
  · exact ⟨[], by rw [sha256CounterReadAt, if_pos empty], empty.symm, fun j h => by omega⟩
  · rw [counterRead_cut seed offset (by omega) (by omega), Nat.min_eq_left (by omega)]
    have size := counterBlocks_length seed (offset.toNat / 32)
      ((offset.toNat + len + 31) / 32 - offset.toNat / 32)
    have enough : offset.toNat % 32 + len ≤
        32 * ((offset.toNat + len + 31) / 32 - offset.toNat / 32) := by omega
    rw [slice, if_pos ⟨Nat.le_add_right .., by rw [size]; exact enough⟩]
    refine ⟨_, rfl, ?_, fun j h => ?_⟩
    · rw [List.length_take, List.length_drop, size]
      omega
    · have place : 32 * (offset.toNat / 32) + (offset.toNat % 32 + j) = offset.toNat + j := by omega
      rw [List.getElem?_take_of_lt (by omega), List.getElem?_drop,
        counterBlocks_getElem? seed _ _ _ (by omega), place]

theorem counterRead_panics (seed : Arr 32) (offset : UInt64) {len : Nat} (some_bytes : 0 < len)
    (high : 2 ^ 64 - 32 < offset.toNat + len) (low : offset.toNat + len < 2 ^ 64) :
    sha256CounterReadAt seed offset len = none := by
  have size := counterBlocks_length seed (offset.toNat / 32)
    ((2 ^ 64 - 1) / 32 - offset.toNat / 32)
  rw [counterRead_cut seed offset some_bytes low, Nat.min_eq_right (by omega), slice, if_neg ?_]
  · rfl
  · rintro ⟨_, enough⟩
    rw [size] at enough
    omega

/-- What the stream promises of one read: the bytes at these offsets, which are also those of
two reads in a row; an error past the end of the offsets; and never a panic. -/
structure CounterRead (seed : Arr 32) (offset : UInt64) (len : Nat) : Prop where
  exact : offset.toNat + len ≤ 2 ^ 64 - 1 → ∃ bytes,
    sha256CounterReadAt seed offset len = some (.ok bytes) ∧ bytes.length = len ∧
    ∀ j, j < len → bytes[j]? = counterByte seed (offset.toNat + j)
  joins : offset.toNat + len ≤ 2 ^ 64 - 1 → ∀ a b, a + b = len → ∃ x y,
    sha256CounterReadAt seed offset a = some (.ok x) ∧
    sha256CounterReadAt seed (offset + lenU64 a) b = some (.ok y) ∧
    sha256CounterReadAt seed offset len = some (.ok (x ++ y))
  beyond : 2 ^ 64 ≤ offset.toNat + len → 0 < len →
    sha256CounterReadAt seed offset len = some (.error .arithmeticOverflow)
  bounded : sha256CounterReadAt seed offset len ≠ none

theorem counterRead_joins (seed : Arr 32) (offset : UInt64) (a b : Nat)
    (low : offset.toNat + (a + b) ≤ 2 ^ 64 - 32) : ∃ x y,
      sha256CounterReadAt seed offset a = some (.ok x) ∧
      sha256CounterReadAt seed (offset + lenU64 a) b = some (.ok y) ∧
      sha256CounterReadAt seed offset (a + b) = some (.ok (x ++ y)) := by
  have moved : (offset + lenU64 a).toNat = offset.toNat + a := by
    rw [UInt64.toNat_add, lenU64_toNat (by omega), Nat.mod_eq_of_lt (by omega)]
  obtain ⟨x, first, size, bytes⟩ := counterRead_exact seed offset a (by omega)
  obtain ⟨y, second, size', bytes'⟩ := counterRead_exact seed (offset + lenU64 a) b (by omega)
  obtain ⟨z, whole, size'', bytes''⟩ := counterRead_exact seed offset (a + b) low
  have same : z = x ++ y := by
    apply List.ext_getElem?
    intro j
    by_cases early : j < a
    · rw [List.getElem?_append_left (by omega), bytes'' j (by omega), bytes j early]
    · rw [List.getElem?_append_right (by omega), size]
      by_cases inside : j < a + b
      · have place : (offset + lenU64 a).toNat + (j - a) = offset.toNat + j := by omega
        rw [bytes'' j inside, bytes' (j - a) (by omega), place]
      · rw [List.getElem?_eq_none (by omega), List.getElem?_eq_none (by omega)]
  exact ⟨x, y, first, second, same ▸ whole⟩

/-- A read of the counter stream keeps its promise unless it ends in the last block. -/
theorem counter_read_iff (seed : Arr 32) (offset : UInt64) (len : Nat) :
    CounterRead seed offset len ↔
      len = 0 ∨ offset.toNat + len ≤ 2 ^ 64 - 32 ∨ 2 ^ 64 ≤ offset.toNat + len := by
  have start : offset.toNat < 2 ^ 64 := offset.toNat_lt
  constructor
  · intro promise
    by_contra outside
    exact promise.bounded (counterRead_panics seed offset (by omega) (by omega) (by omega))
  · intro condition
    by_cases low : offset.toNat + len ≤ 2 ^ 64 - 32
    · obtain ⟨bytes, run, size, each⟩ := counterRead_exact seed offset len low
      refine ⟨fun _ => ⟨bytes, run, size, each⟩, fun _ a b total => ?_, fun high => by omega, ?_⟩
      · subst total
        exact counterRead_joins seed offset a b low
      · rw [run]
        simp
    · by_cases empty : len = 0
      · subst empty
        have nothing : ∀ o, sha256CounterReadAt seed o 0 = some (.ok []) := fun _ => rfl
        refine ⟨fun _ => ⟨[], nothing _, rfl, fun j h => by omega⟩, fun _ a b total => ?_,
          fun _ some_bytes => by omega, by rw [nothing]; simp⟩
        obtain ⟨rfl, rfl⟩ : a = 0 ∧ b = 0 := by omega
        exact ⟨[], [], nothing _, nothing _, nothing _⟩
      · have overflow : sha256CounterReadAt seed offset len =
            some (.error .arithmeticOverflow) := by
          rw [sha256CounterReadAt, if_neg empty]
          exact if_pos (by omega)
        exact ⟨fun _ => by omega, fun _ => by omega, fun _ _ => overflow, by rw [overflow]; simp⟩

omit [Digests] in
theorem last_block_panics :
    ¬ ∀ [Digests] (seed : Arr 32) (offset : UInt64) (len : Nat), CounterRead seed offset len := by
  intro claim
  let _ := sampleDigests
  let seed : Arr 32 := ⟨List.replicate 32 0, rfl⟩
  exact (claim seed 0xffffffffffffffe0 1).bounded
    (counterRead_panics seed 0xffffffffffffffe0 (by decide) (by decide) (by decide))

end PiLSMer
