import PiLSMer.Core.Envelope

/-! What explain.rs reports about an envelope. The floating-point ratios are left out; no
modelled function reads them. -/
namespace PiLSMer

inductive StorageClass where
  | raw
  | plan
  deriving DecidableEq, Repr

inductive Purity where
  | pure
  | contaminated
  deriving DecidableEq, Repr

structure ExplainValue where
  storageClass : StorageClass
  logicalUserBytes : UInt64
  physicalValueBytes : UInt64
  planMetadataBytes : UInt64
  chunks : UInt64
  longestNaturalRun : UInt32
  literalBytes : UInt64
  philosophicalUserValueBytesStored : UInt64
  purity : Purity
  deriving DecidableEq, Repr

/-- The loop of explain_envelope: the longest chunk and the literal bytes so far. -/
def explainChunk (sofar : UInt32 × UInt64) : ChunkRef → UInt32 × UInt64
  | .located _ _ len _ => (max sofar.1 len, sofar.2)
  | .literal bytes => (max sofar.1 (UInt32.ofNat bytes.length), sofar.2 + lenU64 bytes.length)

def explainEnvelope (envelope : ValueEnvelope) (encodedLen : Nat) : ExplainValue :=
  match envelope with
  | .raw bytes =>
    { storageClass := .raw
      logicalUserBytes := lenU64 bytes.length
      physicalValueBytes := lenU64 encodedLen
      planMetadataBytes := 0
      chunks := 0
      longestNaturalRun := 0
      literalBytes := lenU64 bytes.length
      philosophicalUserValueBytesStored := lenU64 bytes.length
      purity := .contaminated }
  | .plan plan =>
    let counted := plan.chunks.foldl explainChunk (0, 0)
    { storageClass := .plan
      logicalUserBytes := plan.logicalLen
      physicalValueBytes := lenU64 encodedLen
      planMetadataBytes := lenU64 encodedLen
      chunks := lenU64 plan.chunks.length
      longestNaturalRun := counted.1
      literalBytes := counted.2
      philosophicalUserValueBytesStored := counted.2
      purity := if counted.2 = 0 then .pure else .contaminated }

def ChunkRef.locatedSize : ChunkRef → Nat
  | .located _ _ len _ => len.toNat
  | .literal _ => 0

def ChunkRef.literalSize : ChunkRef → Nat
  | .located .. => 0
  | .literal bytes => bytes.length

def ReconstructionPlan.locatedSize (plan : ReconstructionPlan) : Nat :=
  (plan.chunks.map ChunkRef.locatedSize).sum

def ReconstructionPlan.literalSize (plan : ReconstructionPlan) : Nat :=
  (plan.chunks.map ChunkRef.literalSize).sum

theorem coveredSize_split (chunks : List ChunkRef) : coveredSize chunks =
    (chunks.map ChunkRef.locatedSize).sum + (chunks.map ChunkRef.literalSize).sum := by
  induction chunks with
  | nil => rfl
  | cons c cs ih =>
    simp only [coveredSize] at ih
    simp only [coveredSize, List.map_cons, List.sum_cons, ih]
    cases c with
    | located => simp only [ChunkRef.size, ChunkRef.locatedSize, ChunkRef.literalSize]; omega
    | literal => simp only [ChunkRef.size, ChunkRef.locatedSize, ChunkRef.literalSize]; omega

theorem explainChunk_literal (chunks : List ChunkRef) (sofar : UInt32 × UInt64)
    (small : sofar.2.toNat + (chunks.map ChunkRef.literalSize).sum < 2 ^ 64) :
    (chunks.foldl explainChunk sofar).2.toNat =
      sofar.2.toNat + (chunks.map ChunkRef.literalSize).sum := by
  induction chunks generalizing sofar with
  | nil => rfl
  | cons c cs ih =>
    rw [List.map_cons, List.sum_cons] at small
    have head : (explainChunk sofar c).2.toNat = sofar.2.toNat + c.literalSize := by
      cases c with
      | located => rfl
      | literal bytes =>
        change sofar.2.toNat + (bytes.length + _) < _ at small
        change (sofar.2 + lenU64 bytes.length).toNat = sofar.2.toNat + bytes.length
        rw [UInt64.toNat_add, lenU64_toNat (by omega), Nat.mod_eq_of_lt (by omega)]
    rw [List.foldl_cons, ih _ (by omega), head, List.map_cons, List.sum_cons, Nat.add_assoc]

section Accepted

variable {limits : DecodeLimits} {plan : ReconstructionPlan}

theorem ReconstructionPlan.Regular.split (regular : plan.Regular limits) :
    plan.locatedSize + plan.literalSize = plan.logicalLen.toNat := by
  rw [← regular.covered, coveredSize_split]
  rfl

theorem explain_literal (regular : plan.Regular limits) (encodedLen : Nat) :
    (explainEnvelope (.plan plan) encodedLen).literalBytes.toNat = plan.literalSize := by
  have below : plan.literalSize ≤ plan.logicalLen.toNat :=
    Nat.le_trans (Nat.le_add_left ..) (Nat.le_of_eq regular.split)
  have counted := explainChunk_literal plan.chunks (0, 0)
    (Nat.lt_of_le_of_lt (Nat.le_of_eq (Nat.zero_add _))
      (Nat.lt_of_le_of_lt below plan.logicalLen.toNat_lt))
  exact counted.trans (Nat.zero_add _)

end Accepted

end PiLSMer
