import PiLSMer.Core.Error
import PiLSMer.Lib.Trim

/-! The statements of the SQL-like shell, over arbitrary Unicode text. -/
namespace PiLSMer
open Trimming

/-- The Unicode scalar values of a string. -/
abbrev Text := List Char

inductive ShellCommand where
  | put (key : Text) (value : Bytes)
  | get (key : Text)
  | explainGet (key : Text)
  | compactIntoNonexistence
  | vacuumMeaning
  | exit
  deriving DecidableEq, Repr

/-- The Unicode property White_Space. -/
def isWhitespace (c : Char) : Bool :=
  let n := c.toNat
  (9 ≤ n && n ≤ 13) || n == 0x20 || n == 0x85 || n == 0xa0 || n == 0x1680 ||
    (0x2000 ≤ n && n ≤ 0x200a) || n == 0x2028 || n == 0x2029 || n == 0x202f || n == 0x205f ||
    n == 0x3000

def asBytes (text : Text) : Bytes := text.flatMap String.utf8EncodeChar

def toAsciiUppercase (text : Text) : Text := text.map Char.toUpper

def stripMatchingQuotes (value : Text) (quote : Char) : Option Text := do
  let value ← value.dropPrefix? [quote]
  value.dropSuffix? [quote]

def parseShellValue (value : Text) : Except Text Bytes :=
  if value = [] then .error "value must not be empty".toList
  else match stripMatchingQuotes value '\'' with
    | some unquoted => .ok (asBytes unquoted)
    | none => match stripMatchingQuotes value '"' with
      | some unquoted => .ok (asBytes unquoted)
      | none => .ok (asBytes value)

def parseKeyed (statement : Text) : Except Text (Option ShellCommand) :=
  match statement.dropPrefix? "PUT ".toList with
  | some rest => match splitOnce isWhitespace (trim isWhitespace rest) with
    | none => .error "PUT requires a key and value".toList
    | some (key, value) => do
      let value ← parseShellValue (trim isWhitespace value)
      .ok (some (.put key value))
  | none => match statement.dropPrefix? "GET ".toList with
  | some rest =>
    let key := trim isWhitespace rest
    if key = [] then .error "GET requires a key".toList else .ok (some (.get key))
  | none => match statement.dropPrefix? "EXPLAIN GET ".toList with
  | some rest =>
    let key := trim isWhitespace rest
    if key = [] then .error "EXPLAIN GET requires a key".toList
    else .ok (some (.explainGet key))
  | none => .error ("unsupported shell command: ".toList ++ statement)

/-- What is done with a line without the blanks around it and the semicolons behind it. -/
def parseStatement (statement : Text) : Except Text (Option ShellCommand) :=
  let upper := toAsciiUppercase statement
  if upper = "EXIT".toList ∨ upper = "QUIT".toList then .ok (some .exit)
  else if upper = "COMPACT INTO NONEXISTENCE".toList then .ok (some .compactIntoNonexistence)
  else if upper = "VACUUM MEANING".toList then .ok (some .vacuumMeaning)
  else parseKeyed statement

def parseShellCommand (line : Text) : Except Text (Option ShellCommand) :=
  let statement := trim isWhitespace line
  if statement = [] ∨ "--".toList <+: statement ∨ "#".toList <+: statement then .ok none
  else
    let statement := trim isWhitespace (statement.rdropWhile (· == ';'))
    if statement = [] then .ok none else parseStatement statement

theorem parse_keyed (statement front : Text)
    (starts : (toAsciiUppercase statement).take 3 = front)
    (other : front ∉ ["EXI".toList, "QUI".toList, "COM".toList, "VAC".toList]) :
    parseStatement statement = parseKeyed statement := by
  have differs (w : Text) (among : w.take 3 ∈ ["EXI".toList, "QUI".toList, "COM".toList,
      "VAC".toList]) : toAsciiUppercase statement ≠ w :=
    fun same => other (starts ▸ same ▸ among)
  unfold parseStatement
  rw [if_neg (not_or.mpr ⟨differs _ (by decide), differs _ (by decide)⟩),
    if_neg (differs _ (by decide)), if_neg (differs _ (by decide))]

theorem parse_put (rest : Text) : parseStatement ("PUT ".toList ++ rest) =
    match splitOnce isWhitespace (trim isWhitespace rest) with
    | none => .error "PUT requires a key and value".toList
    | some (key, value) =>
      parseShellValue (trim isWhitespace value) >>= fun value => .ok (some (.put key value)) := by
  rw [parse_keyed _ "PUT".toList rfl (by decide), parseKeyed,
    List.dropPrefix?_append_of_beq rest (by decide : "PUT ".toList == "PUT ".toList)]

theorem parse_get (rest : Text) : parseStatement ("GET ".toList ++ rest) =
    if trim isWhitespace rest = [] then .error "GET requires a key".toList
    else .ok (some (.get (trim isWhitespace rest))) := by
  have skip : ("GET ".toList ++ rest).dropPrefix? "PUT ".toList = none := by
    simp [List.dropPrefix?]
  rw [parse_keyed _ "GET".toList rfl (by decide), parseKeyed, skip,
    List.dropPrefix?_append_of_beq rest (by decide : "GET ".toList == "GET ".toList)]

theorem parse_explain_get (rest : Text) : parseStatement ("EXPLAIN GET ".toList ++ rest) =
    if trim isWhitespace rest = [] then .error "EXPLAIN GET requires a key".toList
    else .ok (some (.explainGet (trim isWhitespace rest))) := by
  have skip : ("EXPLAIN GET ".toList ++ rest).dropPrefix? "PUT ".toList = none := by
    simp [List.dropPrefix?]
  have pass : ("EXPLAIN GET ".toList ++ rest).dropPrefix? "GET ".toList = none := by
    simp [List.dropPrefix?]
  rw [parse_keyed _ "EXP".toList rfl (by decide), parseKeyed, skip, pass,
    List.dropPrefix?_append_of_beq rest (by decide : "EXPLAIN GET ".toList == _)]

def keywords : List Text :=
  ["PUT ".toList, "GET ".toList, "EXPLAIN GET ".toList]

theorem keyword_facts : ∀ word ∈ keywords, (∀ x ∈ word.head?, isWhitespace x = false) ∧
    word.rdropWhile (· == ';') = word ∧ word ≠ [] := by
  intro word keyword
  simp only [keywords, List.mem_cons, List.not_mem_nil, or_false] at keyword
  obtain rfl | rfl | rfl := keyword
  · exact ⟨end_fails (by decide), by decide⟩
  · exact ⟨end_fails (by decide), by decide⟩
  · exact ⟨end_fails (by decide), by decide⟩

theorem parse_terminated {word : Text} (rest : Text) (keyword : word ∈ keywords) :
    parseShellCommand (word ++ rest ++ ";".toList) =
      parseStatement (trim isWhitespace ((word ++ rest).rdropWhile (· == ';'))) := by
  obtain ⟨c, tail, rfl, visible, kept, dash, hash⟩ : ∃ c tail, word = c :: tail ∧
      isWhitespace c = false ∧ (c == ';') = false ∧ c ≠ '-' ∧ c ≠ '#' := by
    simp only [keywords, List.mem_cons, List.not_mem_nil, or_false] at keyword
    obtain rfl | rfl | rfl := keyword
    · exact ⟨_, _, rfl, by decide⟩
    · exact ⟨_, _, rfl, by decide⟩
    · exact ⟨_, _, rfl, by decide⟩
  have firm : Firm isWhitespace (c :: (tail ++ rest) ++ ";".toList) := by
    refine Firm.append ?_ (end_fails (by decide)) (by simp) (by decide)
    intro x first
    cases first
    exact visible
  have command : ¬ (c :: (tail ++ rest) ++ ";".toList = [] ∨
      "--".toList <+: c :: (tail ++ rest) ++ ";".toList ∨
      "#".toList <+: c :: (tail ++ rest) ++ ";".toList) := by
    simp [dash.symm, hash.symm]
  obtain ⟨front, stripped⟩ := rdropWhile_cons (p := (· == ';')) (tail ++ rest) kept
  obtain ⟨statement, trimmed⟩ := trim_cons front visible
  change parseShellCommand (c :: (tail ++ rest) ++ ";".toList) =
    parseStatement (trim isWhitespace ((c :: (tail ++ rest)).rdropWhile (· == ';')))
  unfold parseShellCommand
  rw [firm.trim]
  dsimp only
  rw [if_neg command, rdropWhile_append_of_all _ (List.all_eq_true.mp (by decide)), stripped,
    trimmed, if_neg (List.cons_ne_nil c statement)]

def quoted (value : Text) : Text := "'".toList ++ value ++ "'".toList

theorem quoted_firm (value : Text) : Firm isWhitespace (quoted value) :=
  Firm.append (fun x first => by cases first; decide) (end_fails (by decide))
    (List.cons_ne_nil '\'' value) (by decide)

/-- A quoted value is taken as it stands, whatever is between the quotes. -/
theorem parse_quoted (value : Text) : parseShellValue (quoted value) = .ok (asBytes value) := by
  have opened : (quoted value).dropPrefix? ['\''] = some (value ++ "'".toList) :=
    List.dropPrefix?_append_of_beq (value ++ "'".toList) (by decide : "'".toList == ['\''])
  have closed : (value ++ "'".toList).dropSuffix? ['\''] = some value :=
    List.dropSuffix?_eq_some_iff.mpr ⟨"'".toList, rfl, by decide⟩
  have unquoted : stripMatchingQuotes (quoted value) '\'' = some value := by
    rw [stripMatchingQuotes, opened]
    exact closed
  rw [parseShellValue, if_neg (by simp [quoted]), unquoted]

def putStatement (key value : Text) : Text :=
  "PUT ".toList ++ key ++ " '".toList ++ value ++ "';".toList

def getStatement (key : Text) : Text := "GET ".toList ++ key ++ ";".toList

def explainGetStatement (key : Text) : Text := "EXPLAIN GET ".toList ++ key ++ ";".toList

section Statements

variable {key : Text} (nonempty : key ≠ []) (solid : ∀ c ∈ key, isWhitespace c = false)

include nonempty solid

theorem parse_putStatement (value : Text) :
    parseShellCommand (putStatement key value) = .ok (some (.put key (asBytes value))) := by
  have split : putStatement key value =
      "PUT ".toList ++ (key ++ ' ' :: quoted value) ++ ";".toList := by
    change "PUT ".toList ++ key ++ " '".toList ++ value ++ "';".toList = _
    simp only [quoted, List.append_assoc, List.cons_append]
    rfl
  have ends : key ++ ' ' :: quoted value = key ++ ' ' :: '\'' :: value ++ ['\''] := by
    simp [quoted]
  have starts : ∀ x ∈ (key ++ ' ' :: '\'' :: value).head?, isWhitespace x = false := by
    rw [List.head?_append_of_ne_nil key nonempty]
    exact fun x first => solid x (List.mem_of_mem_head? first)
  have rest_firm : Firm isWhitespace (key ++ ' ' :: quoted value) :=
    ends ▸ Firm.append starts (end_fails (by decide)) (by simp) (by decide)
  have whole : Firm isWhitespace ("PUT ".toList ++ (key ++ ' ' :: quoted value)) :=
    Firm.append (end_fails (by decide)) rest_firm.last (by decide) (by simp)
  have kept : ("PUT ".toList ++ (key ++ ' ' :: quoted value)).rdropWhile (· == ';') =
      "PUT ".toList ++ (key ++ ' ' :: quoted value) := by
    rw [ends, ← List.append_assoc]
    exact List.rdropWhile_concat_neg _ _ _ (by decide)
  rw [split, parse_terminated _ (by decide), kept, whole.trim, parse_put, rest_firm.trim,
    splitOnce_append solid (by decide)]
  dsimp only
  rw [(quoted_firm value).trim, parse_quoted]
  rfl

omit nonempty in
/-- A statement about a key is about what stands before the key's trailing semicolons. -/
theorem parse_key_statement (word : Text) {command : Text → ShellCommand}
    (keyword : word ∈ keywords)
    (parses : ∀ rest, trim isWhitespace rest ≠ [] →
      parseStatement (word ++ rest) = .ok (some (command (trim isWhitespace rest)))) :
    parseShellCommand (word ++ key ++ ";".toList) =
      if key.rdropWhile (· == ';') = [] then parseStatement (trim isWhitespace word)
      else .ok (some (command (key.rdropWhile (· == ';')))) := by
  obtain ⟨starts, blank_end, word_nonempty⟩ := keyword_facts word keyword
  rw [parse_terminated key keyword]
  split
  · rename_i gone
    rw [rdropWhile_append_of_all word (List.rdropWhile_eq_nil_iff.mp gone), blank_end]
  · rename_i served
    have within : ∀ c ∈ key.rdropWhile (· == ';'), isWhitespace c = false :=
      fun c mem => solid c ((List.rdropWhile_prefix _ key).subset mem)
    have key_firm : Firm isWhitespace (key.rdropWhile (· == ';')) := Firm.of_solid within
    have firm : Firm isWhitespace (word ++ key.rdropWhile (· == ';')) :=
      Firm.append starts key_firm.last word_nonempty served
    rw [rdropWhile_append word served, firm.trim, parses _ (by rwa [key_firm.trim]), key_firm.trim]

theorem parse_key_statement_iff (word : Text) {command : Text → ShellCommand}
    (keyword : word ∈ keywords) (injective : ∀ a b, command a = command b → a = b)
    (parses : ∀ rest, trim isWhitespace rest ≠ [] →
      parseStatement (word ++ rest) = .ok (some (command (trim isWhitespace rest))))
    (bare : (parseStatement (trim isWhitespace word)).isOk = false) :
    parseShellCommand (word ++ key ++ ";".toList) = .ok (some (command key)) ↔
      key.getLast? ≠ some ';' := by
  have kept_iff : key.rdropWhile (· == ';') = key ↔ key.getLast? ≠ some ';' := by
    rw [List.rdropWhile_eq_self_iff, List.getLast?_eq_some_getLast nonempty]
    simp [nonempty]
  rw [parse_key_statement solid word keyword parses, ← kept_iff]
  split
  · rename_i gone
    rw [gone]
    constructor
    · intro parsed
      rw [parsed] at bare
      cases bare
    · exact fun empty => absurd empty.symm nonempty
  · constructor
    · intro parsed
      exact injective _ _ (Option.some.inj (Except.ok.inj parsed))
    · intro kept
      rw [kept]

theorem parse_spaced_statement (word : Text) {command : Text → ShellCommand}
    (keyword : word ∈ keywords)
    (parses : ∀ rest, trim isWhitespace rest ≠ [] →
      parseStatement (word ++ rest) = .ok (some (command (trim isWhitespace rest)))) :
    parseShellCommand (word ++ (key ++ " ".toList) ++ ";".toList) =
      .ok (some (command key)) := by
  obtain ⟨starts, _, word_nonempty⟩ := keyword_facts word keyword
  have key_firm : Firm isWhitespace key := Firm.of_solid solid
  have firm : Firm isWhitespace (word ++ key) :=
    Firm.append starts key_firm.last word_nonempty nonempty
  have kept : (word ++ (key ++ " ".toList)).rdropWhile (· == ';') = word ++ key ++ " ".toList := by
    rw [← List.append_assoc]
    exact List.rdropWhile_concat_neg _ _ _ (by decide)
  rw [parse_terminated _ keyword, kept, firm.trim_append (List.all_eq_true.mp (by decide)),
    parses _ (by rwa [key_firm.trim]), key_firm.trim]

end Statements

theorem get_parses (rest : Text) (key : trim isWhitespace rest ≠ []) :
    parseStatement ("GET ".toList ++ rest) = .ok (some (.get (trim isWhitespace rest))) := by
  rw [parse_get, if_neg key]

theorem explain_get_parses (rest : Text) (key : trim isWhitespace rest ≠ []) :
    parseStatement ("EXPLAIN GET ".toList ++ rest) =
      .ok (some (.explainGet (trim isWhitespace rest))) := by
  rw [parse_explain_get, if_neg key]

structure Addresses (key value : Text) : Prop where
  put : parseShellCommand (putStatement key value) = .ok (some (.put key (asBytes value)))
  get : parseShellCommand (getStatement key) = .ok (some (.get key))
  explainGet : parseShellCommand (explainGetStatement key) = .ok (some (.explainGet key))

theorem shell_addresses_iff (key value : Text) (nonempty : key ≠ [])
    (solid : ∀ c ∈ key, isWhitespace c = false) :
    Addresses key value ↔ key.getLast? ≠ some ';' := by
  have get_iff := parse_key_statement_iff nonempty solid "GET ".toList (by decide)
    (fun a b same => ShellCommand.get.inj same) get_parses (by decide)
  have explain_iff := parse_key_statement_iff nonempty solid "EXPLAIN GET ".toList
    (by decide) (fun a b same => ShellCommand.explainGet.inj same) explain_get_parses (by decide)
  constructor
  · exact fun addresses => get_iff.mp addresses.get
  · exact fun ends => ⟨parse_putStatement nonempty solid value, get_iff.mpr ends,
      explain_iff.mpr ends⟩

theorem shell_addresses_sample :
    Addresses "invoice:123".toList "it's;".toList ↔ "invoice:123".toList.getLast? ≠ some ';' :=
  shell_addresses_iff _ _ (by decide) (none_pass (by decide))

theorem semicolon_key_unread : (∀ c ∈ "a;".toList, isWhitespace c = false) ∧
    parseShellCommand (putStatement "a;".toList "v".toList) =
      .ok (some (.put "a;".toList (asBytes "v".toList))) ∧
    parseShellCommand (getStatement "a;".toList) = .ok (some (.get "a".toList)) ∧
    parseShellCommand (explainGetStatement "a;".toList) = .ok (some (.explainGet "a".toList)) ∧
    ¬ Addresses "a;".toList "v".toList :=
  ⟨none_pass (by decide), by decide, by decide, by decide,
    fun addresses => absurd addresses.get (by decide)⟩

theorem parseKeyed_put {statement key : Text} {value : Bytes}
    (parsed : parseKeyed statement = .ok (some (.put key value))) :
    ∃ rest after, splitOnce isWhitespace (trim isWhitespace rest) = some (key, after) := by
  unfold parseKeyed at parsed
  split at parsed
  · rename_i rest _
    split at parsed
    · cases parsed
    · rename_i k after split
      obtain ⟨v, _, stored⟩ := except_bind_ok.mp parsed
      cases stored
      exact ⟨rest, after, split⟩
  · split at parsed
    · dsimp only at parsed
      split at parsed <;> cases parsed
    · split at parsed
      · dsimp only at parsed
        split at parsed <;> cases parsed
      · cases parsed

theorem put_key_solid {line key : Text} {value : Bytes}
    (parsed : parseShellCommand line = .ok (some (.put key value))) :
    key ≠ [] ∧ ∀ c ∈ key, isWhitespace c = false := by
  have keyed : ∃ statement, parseKeyed statement = .ok (some (.put key value)) := by
    unfold parseShellCommand at parsed
    dsimp only at parsed
    split at parsed
    · cases parsed
    · split at parsed
      · cases parsed
      · unfold parseStatement at parsed
        dsimp only at parsed
        split_ifs at parsed
        · cases parsed
        · cases parsed
        · cases parsed
        · exact ⟨_, parsed⟩
  obtain ⟨statement, parsed⟩ := keyed
  obtain ⟨rest, after, split⟩ := parseKeyed_put parsed
  obtain ⟨x, whole, blank, solid⟩ := splitOnce_some split
  refine ⟨?_, solid⟩
  rintro rfl
  rw [trim_first whole] at blank
  cases blank

/-- Every key that some PUT stores under is read and explained by some statement. -/
theorem stored_key_read {line key : Text} {value : Bytes}
    (parsed : parseShellCommand line = .ok (some (.put key value))) :
    (∃ line, parseShellCommand line = .ok (some (.get key))) ∧
    (∃ line, parseShellCommand line = .ok (some (.explainGet key))) := by
  obtain ⟨nonempty, solid⟩ := put_key_solid parsed
  constructor
  · exact ⟨_, parse_spaced_statement nonempty solid "GET ".toList (by decide) get_parses⟩
  · exact ⟨_, parse_spaced_statement nonempty solid "EXPLAIN GET ".toList (by decide)
      explain_get_parses⟩

end PiLSMer
