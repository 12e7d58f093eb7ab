import PiLSMer.Core.Score
import PiLSMer.Lib.Crc

/-! Damaged frames. The checksum of a frame is the standard CRC-32, written behind the frame
low byte first, so that frame and checksum together are one string that the register takes to
a fixed residue. No damage within four bytes keeps the residue, wherever it lies. Nor is a frame
cut short or continued: its header says where it ends. -/
namespace PiLSMer
open Endian Reading

/-- Without its top coefficient, low power first. -/
def crc32Polynomial : BitVec 32 := 0xedb88320#32

/-- What crc32fast::hash computes. -/
def standardCrc32 (bytes : Bytes) : UInt32 :=
  UInt32.ofBitVec (~~~ Crc.run crc32Polynomial (BitVec.allOnes 32) bytes)

example : standardCrc32 [0x31, 0x32, 0x33, 0x34, 0x35, 0x36, 0x37, 0x38, 0x39] = 0xcbf43926 := by
  decide +kernel

theorem run_sealFrame [Digests] (standard : ∀ bytes, Digests.crc32 bytes = standardCrc32 bytes)
    (body : Bytes) : Crc.run crc32Polynomial (BitVec.allOnes 32) (sealFrame body) =
      Crc.shifts crc32Polynomial 32 (BitVec.allOnes 32) := by
  have trailer : putU32Le (Digests.crc32 body) =
      toLeBytes 4 (~~~ Crc.run crc32Polynomial (BitVec.allOnes 32) body).toNat := by
    rw [standard, putU32Le]
    rfl
  rw [sealFrame, trailer]
  exact Crc.run_sealed crc32Polynomial 4 rfl _ body

theorem window_split (x : Bytes) (i : Nat) :
    x = x.take i ++ ((x.drop i).take 4 ++ x.drop (i + 4)) := by
  rw [← List.drop_drop, List.take_append_drop, List.take_append_drop]

/-- A frame damaged within four neighbouring bytes does not decode. -/
theorem corruption_detected [Digests]
    (standard : ∀ bytes, Digests.crc32 bytes = standardCrc32 bytes) (e : ValueEnvelope)
    (kind : LogicalHashKind) (limits : DecodeLimits) (x : Bytes) (i : Nat)
    (length : x.length = (e.encodeWithHashKind kind).length)
    (outside : ∀ j, j < i ∨ i + 4 ≤ j → x[j]? = (e.encodeWithHashKind kind)[j]?)
    (damaged : x ≠ e.encodeWithHashKind kind) :
    ∃ err, err ≠ .panicked ∧ ValueEnvelope.decode x limits = .error err := by
  obtain ⟨frame, framed, crc⟩ | rejected := decode_read_or_rejected x limits
  case inr => exact rejected
  exfalso
  -- accepted or written, both strings leave the residue behind
  have written := run_sealFrame standard (frameBody e.kind (e.hash kind) e.payload)
  have read := run_sealFrame standard (x.take (x.length - 4))
  rw [readFrame_seal framed crc] at read
  change Crc.run _ _ (e.encodeWithHashKind kind) = _ at written
  generalize e.encodeWithHashKind kind = y at length outside damaged written
  have front : x.take i = y.take i := by
    apply List.ext_getElem?
    intro j
    simp only [List.getElem?_take]
    split
    · rename_i inside
      exact outside j (Or.inl inside)
    · rfl
  have back : x.drop (i + 4) = y.drop (i + 4) := by
    apply List.ext_getElem?
    intro j
    simp only [List.getElem?_drop]
    exact outside _ (Or.inr (Nat.le_add_right ..))
  have short : 8 * ((x.drop i).take 4).length ≤ 32 := by
    rw [List.length_take]
    omega
  have size : ((x.drop i).take 4).length = ((y.drop i).take 4).length := by
    simp only [List.length_take, List.length_drop, length]
  have residue := read.trans written.symm
  rw [window_split x i, window_split y i, front, back] at residue
  have window := Crc.run_window crc32Polynomial (by decide) _ _ _ short size residue
  apply damaged
  rw [window_split x i, window_split y i, front, back, window]

/-- The tabulated digests of sampleDigests over the standard checksum. -/
@[reducible] def checkedDigests : Digests := { sampleDigests with crc32 := standardCrc32 }

theorem corruption_detected_sample :
    letI := checkedDigests
    ∃ err, err ≠ .panicked ∧
      ValueEnvelope.decode (((ValueEnvelope.raw [0x61]).encode).set 5 1) .default =
        .error err := by
  let _ := checkedDigests
  refine corruption_detected (fun _ => rfl) (.raw [0x61]) .blake3_128 .default _ 5
    (List.length_set ..) ?_ ?_
  · intro j far
    exact List.getElem?_set_ne (by omega)
  · intro same
    have kinds := congrArg (fun frame => frame[5]?) same
    revert kinds
    decide

theorem readFrameTail_delimited (kind : UInt8) (hashKind : LogicalHashKind) (size : Nat) :
    Delimited (readFrameTail kind hashKind size) :=
  (readExact_delimited size).bind (fun _ => (readArray_delimited 16).bind (fun _ =>
    ((readExact_delimited 4).bind (fun _ => Delimited.pure _)).bind (fun _ => Delimited.pure _)))

theorem readFrame_delimited (limits : DecodeLimits) : Delimited (readFrame limits) :=
  (readExact_delimited 4).bind (fun _ => (Delimited.failIf _ _).bind (fun _ =>
    readU8_delimited.bind (fun _ => (Delimited.failIf _ _).bind (fun _ =>
      readU8_delimited.bind (fun kind => readU16Le_delimited.bind (fun _ =>
        readU8_delimited.bind (fun _ => (Delimited.lift _).bind (fun hashKind =>
          readVarint_delimited.bind (fun _ => (Delimited.lift _).bind (fun size =>
            (Delimited.failIf _ _).bind (fun _ =>
              readFrameTail_delimited kind hashKind size)))))))))))

theorem readFrame_word {x : Bytes} {limits : DecodeLimits} {frame : Frame}
    (run : whole (readFrame limits) (.invalidPlan "trailing frame bytes") x = .ok frame) :
    Accepts (readFrame loosest) x frame :=
  (readFrame_delimited loosest).whole ((readFrame_extends limits.le_loosest).whole run)

theorem encode_accepts_frame [Digests] {e : ValueEnvelope} {kind : LogicalHashKind}
    (inMemory : (e.encodeWithHashKind kind).length < 2 ^ 63) :
    ∃ frame, Accepts (readFrame loosest) (e.encodeWithHashKind kind) frame := by
  have small : e.payload.length < 2 ^ 63 := by
    have size := sealFrame_length (frameBody e.kind (e.hash kind) e.payload)
    simp only [frameBody, List.length_append] at size
    change (e.encodeWithHashKind kind).length = _ at size
    omega
  have top : loosest.maxEncodedPlanLen.toNat = 2 ^ 64 - 1 := by decide
  have fits : ¬ (e.kind = KIND_PLAN ∧ loosest.maxEncodedPlanLen.toNat < e.payload.length) := by
    rintro ⟨_, large⟩
    omega
  exact ⟨_, readFrame_accepts loosest e.kind (e.hash kind) _ (by omega) fits⟩

/-- A frame ends where its own header says: of two accepted inputs, under whatever limits, none
is the beginning of the other, and what is short of a written frame or goes on behind it is
rejected. Frames are held in memory, so they are no longer than isize::MAX bytes. -/
theorem frames_self_delimiting [Digests] :
    (∀ (x y : Bytes) (limits limits' : DecodeLimits) (e e' : ValueEnvelope),
      ValueEnvelope.decode x limits = .ok e → ValueEnvelope.decode y limits' = .ok e' →
      x <+: y → x = y) ∧
    ∀ (e : ValueEnvelope) (kind : LogicalHashKind) (limits : DecodeLimits) (x : Bytes),
      (e.encodeWithHashKind kind).length < 2 ^ 63 →
      x <+: e.encodeWithHashKind kind ∨ e.encodeWithHashKind kind <+: x →
      x ≠ e.encodeWithHashKind kind →
      ∃ err, err ≠ .panicked ∧ ValueEnvelope.decode x limits = .error err := by
  have apart : ∀ {x y : Bytes} {f g : Frame}, Accepts (readFrame loosest) x f →
      Accepts (readFrame loosest) y g → x <+: y → x = y := by
    rintro x _ f g first second ⟨rest, rfl⟩
    exact (first.unique second (List.append_nil _).symm).1
  refine ⟨fun x y limits limits' e e' first second start => ?_,
    fun e kind limits x inMemory start other => ?_⟩
  · obtain ⟨f, run, _⟩ := ValueEnvelope.decode_ok_iff.mp first
    obtain ⟨g, run', _⟩ := ValueEnvelope.decode_ok_iff.mp second
    exact apart (readFrame_word run) (readFrame_word run') start
  · obtain ⟨f, run, _⟩ | rejected := decode_read_or_rejected x limits
    case inr => exact rejected
    exfalso
    have read := readFrame_word run
    obtain ⟨g, written⟩ := encode_accepts_frame inMemory
    obtain short | long := start
    · exact other (apart read written short)
    · exact other (apart written read long).symm

end PiLSMer
