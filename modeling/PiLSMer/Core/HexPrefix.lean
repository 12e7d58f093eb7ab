import PiLSMer.Core.Parts

/-! The streams of the constants, from stream.rs: the bytes of their first hexadecimal digits.
A digit table is long enough for the bytes it offers, so that reading it never runs out. -/
namespace PiLSMer

def PI_HEX_FRACTION_PREFIX_BYTES : Nat := 256
def E_HEX_FRACTION_PREFIX_BYTES : Nat := 256
def SQRT2_HEX_FRACTION_PREFIX_BYTES : Nat := 256

def PI_HEX_FRACTION_PREFIX_HEX : List String :=
  ["243F6A8885A308D313198A2E03707344A4093822299F31D0082EFA98EC4E6C89",
   "452821E638D01377BE5466CF34E90C6CC0AC29B7C97C50DD3F84D5B5B5470917",
   "9216D5D98979FB1BD1310BA698DFB5AC2FFD72DBD01ADFB7B8E1AFED6A267E96",
   "BA7C9045F12C7F9924A19947B3916CF70801F2E2858EFC16636920D871574E69",
   "A458FEA3F4933D7E0D95748F728EB658718BCD5882154AEE7B54A41DC25A59B5",
   "9C30D5392AF26013C5D1B023286085F0CA417918B8DB38EF8E79DCB0603A180E",
   "6C9E0E8BB01E8A3ED71577C1BD314B2778AF2FDA55605C60E65525F3AA55AB94",
   "5748986263E8144055CA396A2AAB10B6B4CC5C341141E8CEA15486AF7C72E993"]

def E_HEX_FRACTION_PREFIX_HEX : List String :=
  ["B7E151628AED2A6ABF7158809CF4F3C762E7160F38B4DA56A784D9045190CFEF",
   "324E7738926CFBE5F4BF8D8D8C31D763DA06C80ABB1185EB4F7C7B5757F59584",
   "90CFD47D7C19BB42158D9554F7B46BCED55C4D79FD5F24D6613C31C3839A2DDF",
   "8A9A276BCFBFA1C877C56284DAB79CD4C2B3293D20E9E5EAF02AC60ACC93ED87",
   "4422A52ECB238FEEE5AB6ADD835FD1A0753D0A8F78E537D2B95BB79D8DCAEC64",
   "2C1E9F23B829B5C2780BF38737DF8BB300D01334A0D0BD8645CBFA73A6160FFE",
   "393C48CBBBCA060F0FF8EC6D31BEB5CCEED7F2F0BB088017163BC60DF45A0ECB",
   "1BCD289B06CBBFEA21AD08E1847F3F7378D56CED94640D6EF0D3D37BE67008E1"]

def SQRT2_HEX_FRACTION_PREFIX_HEX : List String :=
  ["6A09E667F3BCC908B2FB1366EA957D3E3ADEC17512775099DA2F590B0667322A",
   "95F90608757145875163FCDFB907B6721EE950BC8738F694F0090E6C7BF44ED1",
   "A4405D0E855E3E9CA60B38C0237866F7956379222D108B148C1578E45EF89C67",
   "8DAB5147176FD3B99654C68663E7909BEA5E241F06DCB05DD549411320819495",
   "0272956DB1FA1DFBE9A74059D7927C1884C9B579AA516CA3719E6836DF046D8E",
   "0209B803FC646A5E6654BD3EF7B43D7FED437C7F9444260FBD40C483EF550385",
   "83F97BBD45EFB8663107145D5FEBE765A49E94EC7F597105FBFC2E1FA763EF01",
   "F3599C82F2FE500B848CF0BD252AE046BF9F1EF7947D46769AF8C14BCC67C7C2"]

/-- The bytes of concat!. -/
def concatBytes (lines : List String) : Bytes := lines.flatMap (fun line => line.toUTF8.data.toList)

section Digits

def isHexDigit (n : Nat) : Bool :=
  (Nat.ble 0x30 n && Nat.ble n 0x39) || (Nat.ble 0x41 n && Nat.ble n 0x46)

def IsHexLine (line : String) : Prop :=
  ∃ text : List Char, line = String.ofList text ∧ text.length = 64 ∧
    text.all (fun c => isHexDigit c.toNat) = true

theorem hexLine_bytes {text : List Char} (digits : text.all (fun c => isHexDigit c.toNat) = true) :
    (String.ofList text).toUTF8.data.toList = text.map (fun c => UInt8.ofNat c.toNat) := by
  have each : text.flatMap String.utf8EncodeChar = text.map (fun c => UInt8.ofNat c.toNat) := by
    induction text with
    | nil => rfl
    | cons c text ih =>
      simp only [List.all_cons, Bool.and_eq_true] at digits
      obtain ⟨first, rest⟩ := digits
      simp only [isHexDigit, Nat.ble_eq, Bool.or_eq_true, Bool.and_eq_true] at first
      have ascii : c.val.toNat ≤ 0x7f := by
        change _ ≤ c.val.toNat ∧ c.val.toNat ≤ _ ∨ _ ≤ c.val.toNat ∧ c.val.toNat ≤ _ at first
        omega
      rw [List.flatMap_cons, List.map_cons, ih rest, String.utf8EncodeChar, if_pos ascii]
      rfl
  rw [← each, String.toUTF8_eq_toByteArray, String.toByteArray_ofList, List.utf8Encode]
  simp

theorem concatBytes_digits {lines : List String} (each : ∀ line ∈ lines, IsHexLine line) :
    (concatBytes lines).length = 64 * lines.length ∧
      ∀ byte ∈ concatBytes lines, isHexDigit byte.toNat = true := by
  induction lines with
  | nil => simp [concatBytes]
  | cons line lines ih =>
    obtain ⟨⟨text, rfl, size, digits⟩, rest⟩ := List.forall_mem_cons.mp each
    obtain ⟨length, later⟩ := ih rest
    have first : concatBytes (String.ofList text :: lines) =
        text.map (fun c => UInt8.ofNat c.toNat) ++ concatBytes lines := by
      rw [concatBytes, List.flatMap_cons, hexLine_bytes digits]
      rfl
    rw [first]
    constructor
    · rw [List.length_append, List.length_map, size, length, List.length_cons]
      omega
    · intro byte member
      rcases List.mem_append.mp member with here | there
      · obtain ⟨c, inside, rfl⟩ := List.mem_map.mp here
        have digit := List.all_eq_true.mp digits c inside
        have small : c.toNat < 2 ^ 8 := by
          simp only [isHexDigit, Nat.ble_eq, Bool.or_eq_true, Bool.and_eq_true] at digit
          omega
        rwa [UInt8.toNat_ofNat', Nat.mod_eq_of_lt small]
      · exact later byte there

theorem piLines : ∀ line ∈ PI_HEX_FRACTION_PREFIX_HEX, IsHexLine line := by
  simp only [PI_HEX_FRACTION_PREFIX_HEX, List.forall_mem_cons]
  refine ⟨?_, ?_, ?_, ?_, ?_, ?_, ?_, ?_, by simp⟩ <;>
    exact ⟨_, rfl, by decide +kernel, by decide +kernel⟩

theorem eLines : ∀ line ∈ E_HEX_FRACTION_PREFIX_HEX, IsHexLine line := by
  simp only [E_HEX_FRACTION_PREFIX_HEX, List.forall_mem_cons]
  refine ⟨?_, ?_, ?_, ?_, ?_, ?_, ?_, ?_, by simp⟩ <;>
    exact ⟨_, rfl, by decide +kernel, by decide +kernel⟩

theorem sqrt2Lines : ∀ line ∈ SQRT2_HEX_FRACTION_PREFIX_HEX, IsHexLine line := by
  simp only [SQRT2_HEX_FRACTION_PREFIX_HEX, List.forall_mem_cons]
  refine ⟨?_, ?_, ?_, ?_, ?_, ?_, ?_, ?_, by simp⟩ <;>
    exact ⟨_, rfl, by decide +kernel, by decide +kernel⟩

end Digits

structure HexTable where
  availableBytes : Nat
  hex : Bytes
  enough : 2 * availableBytes ≤ hex.length

def piHexTable : HexTable where
  availableBytes := PI_HEX_FRACTION_PREFIX_BYTES
  hex := concatBytes PI_HEX_FRACTION_PREFIX_HEX
  enough := Nat.le_of_eq (concatBytes_digits piLines).1.symm

def eHexTable : HexTable where
  availableBytes := E_HEX_FRACTION_PREFIX_BYTES
  hex := concatBytes E_HEX_FRACTION_PREFIX_HEX
  enough := Nat.le_of_eq (concatBytes_digits eLines).1.symm

def sqrt2HexTable : HexTable where
  availableBytes := SQRT2_HEX_FRACTION_PREFIX_BYTES
  hex := concatBytes SQRT2_HEX_FRACTION_PREFIX_HEX
  enough := Nat.le_of_eq (concatBytes_digits sqrt2Lines).1.symm

def hexNibble (byte : UInt8) : Except PiLsmError UInt8 :=
  if 0x30 ≤ byte ∧ byte ≤ 0x39 then pure (byte - 0x30)
  else if 0x61 ≤ byte ∧ byte ≤ 0x66 then pure (byte - 0x61 + 10)
  else if 0x41 ≤ byte ∧ byte ≤ 0x46 then pure (byte - 0x41 + 10)
  else throw (.invalidPlan "invalid pi hex prefix")

/-- The loop over the bytes; each takes two digits off the table. -/
def decodeHexPrefix : (hex : Bytes) → (prefixBytes : Nat) → 2 * prefixBytes ≤ hex.length →
    Except PiLsmError Bytes
  | _, 0, _ => pure []
  | high :: low :: hex, prefixBytes + 1, inside => do
    let high ← hexNibble high
    let low ← hexNibble low
    let rest ← decodeHexPrefix hex prefixBytes (by simp only [List.length_cons] at inside; omega)
    pure (((high <<< 4) ||| low) :: rest)
  | [], _ + 1, inside => absurd inside (by simp)
  | [_], _ + 1, inside => absurd inside (by simp only [List.length_singleton]; omega)

variable [Digests]

def hexFractionPrefixStream (prefixBytes : UInt64) (table : HexTable) (limitName : String)
    (streamId : Arr 32 → UInt64 → StreamId) : Except PiLsmError ByteStream :=
  if inside : prefixBytes.toNat ≤ table.availableBytes then do
    let bytes ← decodeHexPrefix table.hex prefixBytes.toNat
      (Nat.le_trans (Nat.mul_le_mul_left 2 inside) table.enough)
    pure (PrefixByteStream.new (streamId (Digests.sha256 bytes) prefixBytes) bytes)
  else throw (.indexLimitExceeded limitName)

def piHexFractionPrefixStream (prefixBytes : UInt64) : Except PiLsmError ByteStream :=
  hexFractionPrefixStream prefixBytes piHexTable "pi prefix" .piHexFractionPrefixV1

def eHexFractionPrefixStream (prefixBytes : UInt64) : Except PiLsmError ByteStream :=
  hexFractionPrefixStream prefixBytes eHexTable "e prefix" .eHexFractionPrefixV1

def sqrt2HexFractionPrefixStream (prefixBytes : UInt64) : Except PiLsmError ByteStream :=
  hexFractionPrefixStream prefixBytes sqrt2HexTable "sqrt2 prefix" .sqrt2HexFractionPrefixV1

section Table

omit [Digests]

def HexTable.Digits (table : HexTable) : Prop :=
  ∀ byte ∈ table.hex, isHexDigit byte.toNat = true

theorem piHexTable_digits : piHexTable.Digits := (concatBytes_digits piLines).2
theorem eHexTable_digits : eHexTable.Digits := (concatBytes_digits eLines).2
theorem sqrt2HexTable_digits : sqrt2HexTable.Digits := (concatBytes_digits sqrt2Lines).2

theorem hexNibble_digit {byte : UInt8} (digit : isHexDigit byte.toNat = true) :
    ∃ nibble, hexNibble byte = .ok nibble := by
  simp only [isHexDigit, Nat.ble_eq, Bool.or_eq_true, Bool.and_eq_true] at digit
  unfold hexNibble
  rcases digit with number | letter
  · rw [if_pos ⟨UInt8.le_iff_toNat_le.mpr number.1, UInt8.le_iff_toNat_le.mpr number.2⟩]
    exact ⟨_, rfl⟩
  · have high : ¬ (0x30 ≤ byte ∧ byte ≤ 0x39) := fun h => by
      have := UInt8.le_iff_toNat_le.mp h.2
      change byte.toNat ≤ 0x39 at this
      omega
    have capital : ¬ (0x61 ≤ byte ∧ byte ≤ 0x66) := fun h => by
      have := UInt8.le_iff_toNat_le.mp h.1
      change 0x61 ≤ byte.toNat at this
      omega
    rw [if_neg high, if_neg capital,
      if_pos ⟨UInt8.le_iff_toNat_le.mpr letter.1, UInt8.le_iff_toNat_le.mpr letter.2⟩]
    exact ⟨_, rfl⟩

theorem decodeHexPrefix_ok {hex : Bytes} {n : Nat} (inside : 2 * n ≤ hex.length)
    (digits : ∀ byte ∈ hex, isHexDigit byte.toNat = true) :
    ∃ bytes, decodeHexPrefix hex n inside = .ok bytes ∧ bytes.length = n := by
  induction hex, n, inside using decodeHexPrefix.induct with
  | case1 => exact ⟨[], by simp [decodeHexPrefix, pure, Except.pure], rfl⟩
  | case2 high low hex n inside ih =>
    simp only [List.forall_mem_cons] at digits
    obtain ⟨first, second, later⟩ := digits
    obtain ⟨h, high_ok⟩ := hexNibble_digit first
    obtain ⟨l, low_ok⟩ := hexNibble_digit second
    obtain ⟨rest, run, size⟩ := ih later
    refine ⟨((h <<< 4) ||| l) :: rest, ?_, congrArg Nat.succ size⟩
    simp only [decodeHexPrefix, high_ok, low_ok, run, bind, Except.bind, pure, Except.pure]

theorem decodeHexPrefix_take {hex : Bytes} {m : Nat} (inside : 2 * m ≤ hex.length)
    {bytes : Bytes} (run : decodeHexPrefix hex m inside = .ok bytes) {n : Nat} (fewer : n ≤ m) :
    decodeHexPrefix hex n (Nat.le_trans (Nat.mul_le_mul_left 2 fewer) inside) =
      .ok (bytes.take n) := by
  induction hex, m, inside using decodeHexPrefix.induct generalizing n bytes with
  | case1 =>
    obtain rfl := Nat.le_zero.mp fewer
    simp [decodeHexPrefix, pure, Except.pure]
  | case2 high low hex m inside ih =>
    simp only [decodeHexPrefix, except_bind_ok, except_pure_ok] at run
    obtain ⟨h, high_ok, l, low_ok, rest, run, rfl⟩ := run
    cases n with
    | zero => simp [decodeHexPrefix, pure, Except.pure]
    | succ n =>
      have front := ih run (Nat.le_of_succ_le_succ fewer)
      simp only [decodeHexPrefix, high_ok, low_ok, front, bind, Except.bind, pure, Except.pure,
        List.take_succ_cons]

end Table

/-- A stream of a constant is read off one text, whatever its length. -/
theorem hexFractionPrefixStream_eq {table : HexTable} (digits : table.Digits)
    (limitName : String) (streamId : Arr 32 → UInt64 → StreamId) :
    ∃ text : Bytes, text.length = table.availableBytes ∧ ∀ n : UInt64,
      hexFractionPrefixStream n table limitName streamId =
        if n.toNat ≤ table.availableBytes then .ok (PrefixByteStream.new
          (streamId (Digests.sha256 (text.take n.toNat)) n) (text.take n.toNat))
        else .error (.indexLimitExceeded limitName) := by
  obtain ⟨text, whole, size⟩ := decodeHexPrefix_ok table.enough digits
  refine ⟨text, size, fun n => ?_⟩
  unfold hexFractionPrefixStream
  split
  · rename_i inside
    rw [decodeHexPrefix_take table.enough whole inside]
    rfl
  · rfl

end PiLSMer
