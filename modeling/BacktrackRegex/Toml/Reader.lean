import BacktrackRegex.CodePoint.Range
import BacktrackRegex.Toml.Scalar
import BacktrackRegex.Toml.Table

/-!
# Reading TOML

A document is a list of statements on lines of their own: headers that open a table or a new element
of an array of tables, and keys with values. Keys and strings are read character by character;
arrays and inline tables nest, and are read with a bound on their number of parts that the length of
the text provides.
-/

namespace BacktrackRegex.Toml

/-- A statement of a document. -/
inductive Statement where
  /-- Opens a table. -/
  | header (key : DottedKey)
  /-- Opens a new element of an array of tables. -/
  | arrayHeader (key : DottedKey)
  /-- Puts a value under a dotted key of the open table. -/
  | assign (key : DottedKey) (value : Value)
  deriving Repr

/-- Whether a character is a blank inside a line. -/
def isBlank (c : Char) : Bool :=
  c == ' ' || c == '\t'

/-- The text after blanks. -/
def skipBlanks (cs : List Char) : List Char :=
  cs.dropWhile isBlank

/-- Whether a character may stand in a comment, or unescaped in a string on one line. -/
def isPlain (c : Char) : Bool :=
  c == '\t' || (0x20 ≤ c.toNat && c.toNat != 0x7F)

/-- The text after an end of line. -/
def newline? : List Char → Option (List Char)
  | '\n' :: rest => some rest
  | '\r' :: '\n' :: rest => some rest
  | _ => none

/-- The text after a comment, if there is one. -/
def skipComment : List Char → List Char
  | '#' :: rest => rest.dropWhile isPlain
  | rest => rest

/-- The text after blanks and a comment that end a line. -/
def lineEnd? (cs : List Char) : Option (List Char) :=
  match skipComment (skipBlanks cs) with
  | [] => some []
  | rest => newline? rest

/-- The character with the code point of some hexadecimal digits. -/
def unicodeChar? (ds : List Char) : Option Char :=
  if ds.all (isDigitOf 16) then charOfCodePoint? (ofDigits 16 ds) else none

/-- The character of an escape with a single letter. -/
def escapeChar? : Char → Option Char
  | 'b' => some '\x08'
  | 't' => some '\t'
  | 'n' => some '\n'
  | 'f' => some '\x0C'
  | 'r' => some '\r'
  | '"' => some '"'
  | '\\' => some '\\'
  | _ => none

/-- Reads the escape after a backslash. -/
def escape? : List Char → Option (Char × List Char)
  | 'u' :: cs => do
    if cs.length < 4 then none else some (← unicodeChar? (cs.take 4), cs.drop 4)
  | 'U' :: cs => do
    if cs.length < 8 then none else some (← unicodeChar? (cs.take 8), cs.drop 8)
  | c :: cs => do some (← escapeChar? c, cs)
  | [] => none

/-- Reads a string on one line up to its closing quote, with escapes if `escapes` holds. -/
def readLineString (quote : Char) (escapes : Bool) :
    Nat → List Char → Option (List Char × List Char)
  | 0, _ => none
  | _ + 1, [] => none
  | bound + 1, c :: cs =>
    if c = quote then some ([], cs)
    else if escapes ∧ c = '\\' then do
      let (c, cs) ← escape? cs
      let (s, rest) ← readLineString quote escapes bound cs
      some (c :: s, rest)
    else if isPlain c then do
      let (s, rest) ← readLineString quote escapes bound cs
      some (c :: s, rest)
    else none

/-- The text after blanks and ends of lines. -/
def skipLines : Nat → List Char → List Char
  | 0, cs => cs
  | bound + 1, cs =>
    match newline? (skipBlanks cs) with
    | some rest => skipLines bound rest
    | none => skipBlanks cs

/-- Reads a string over several lines up to its three closing quotes, before which one or two more
may stand. A backslash at the end of a line skips the white space after it. -/
def readBlockString (quote : Char) (escapes : Bool) :
    Nat → List Char → Option (List Char × List Char)
  | 0, _ => none
  | bound + 1, cs =>
    let quotes := (cs.takeWhile (· == quote)).length
    if 3 ≤ quotes then
      let closing := min quotes 5
      some (List.replicate (closing - 3) quote, cs.drop closing)
    else match cs with
      | [] => none
      | c :: cs =>
        if escapes ∧ c = '\\' then
          match newline? (skipBlanks cs) with
          | some rest => readBlockString quote escapes bound (skipLines bound rest)
          | none => do
            let (c, cs) ← escape? cs
            let (s, rest) ← readBlockString quote escapes bound cs
            some (c :: s, rest)
        else if isPlain c then do
          let (s, rest) ← readBlockString quote escapes bound cs
          some (c :: s, rest)
        else do
          let rest ← newline? (c :: cs)
          let (s, rest) ← readBlockString quote escapes bound rest
          some ('\n' :: s, rest)

/-- Reads a string over several lines after its three opening quotes. An end of line right there
does not belong to it. -/
def openBlockString (quote : Char) (escapes : Bool) (bound : Nat) (cs : List Char) :
    Option (List Char × List Char) :=
  readBlockString quote escapes bound ((newline? cs).getD cs)

/-- Whether a character may stand in a key without quotes. -/
def isBareKeyChar (c : Char) : Bool :=
  c.isAlphanum || c == '_' || c == '-'

/-- Reads a key without dots. -/
def readSimpleKey (bound : Nat) : List Char → Option (String × List Char)
  | '"' :: cs => (readLineString '"' true bound cs).map fun (s, rest) => (String.ofList s, rest)
  | '\'' :: cs => (readLineString '\'' false bound cs).map fun (s, rest) => (String.ofList s, rest)
  | cs =>
    let key := cs.takeWhile isBareKeyChar
    if key.isEmpty then none else some (String.ofList key, cs.dropWhile isBareKeyChar)

/-- Reads the names of a dotted key, the last one and those before it, and the blanks after them. -/
def readNames : Nat → List Char → Option (DottedKey × List Char)
  | 0, _ => none
  | bound + 1, cs => do
    let (name, rest) ← readSimpleKey (bound + 1) (skipBlanks cs)
    match skipBlanks rest with
    | '.' :: rest =>
      let (key, rest) ← readNames bound rest
      some (⟨name :: key.tables, key.name⟩, rest)
    | rest => some (⟨[], name⟩, rest)

/-- Values are nested, and the names of a dotted key are, to a depth below this one. -/
def nestingLimit : Nat := 80

/-- Reads a dotted key and the blanks after it. -/
def readKey (bound : Nat) (cs : List Char) : Option (DottedKey × List Char) := do
  let (key, rest) ← readNames bound cs
  if key.names.length < nestingLimit then some (key, rest) else none

/-- Reads a word: a number, a boolean, a date or a time. A date may be followed by a blank and a
time. -/
def readWord (cs : List Char) : Option (Value × List Char) := do
  let word := cs.takeWhile isWordChar
  let rest := cs.dropWhile isWordChar
  match rest with
  | ' ' :: d :: more =>
    if isDate word && d.isDigit then
      let time := (d :: more).takeWhile isWordChar
      some (← scalar? (word ++ ' ' :: time), (d :: more).dropWhile isWordChar)
    else some (← scalar? word, rest)
  | _ => some (← scalar? word, rest)

/-- The text after blanks, comments and ends of lines. -/
def skipFiller : Nat → List Char → List Char
  | 0, cs => cs
  | bound + 1, cs =>
    match newline? (skipComment (skipBlanks cs)) with
    | some rest => skipFiller bound rest
    | none => skipComment (skipBlanks cs)

mutual
/-- Reads a value inside `depth` arrays and inline tables. -/
def readValue (depth : Nat) : Nat → List Char → Option (Value × List Char)
  | 0, _ => none
  | bound + 1, cs =>
    let asString : List Char × List Char → Value × List Char
      | (s, rest) => (.string (String.ofList s), rest)
    match cs with
    | '"' :: '"' :: '"' :: cs => (openBlockString '"' true (bound + 1) cs).map asString
    | '\'' :: '\'' :: '\'' :: cs => (openBlockString '\'' false (bound + 1) cs).map asString
    | '"' :: cs => (readLineString '"' true (bound + 1) cs).map asString
    | '\'' :: cs => (readLineString '\'' false (bound + 1) cs).map asString
    | '[' :: cs =>
      if depth + 1 < nestingLimit then readElements (depth + 1) bound (skipFiller bound cs)
      else none
    | '{' :: cs =>
      if depth + 1 < nestingLimit then
        match skipBlanks cs with
        | '}' :: rest => some (.table [], rest)
        | cs => readEntries (depth + 1) bound [] cs
      else none
    | cs => readWord cs

/-- Reads the elements of an array from the first one on; the last may be followed by a comma. -/
def readElements (depth : Nat) : Nat → List Char → Option (Value × List Char)
  | 0, _ => none
  | _ + 1, ']' :: rest => some (.array [], rest)
  | bound + 1, cs => do
    let (first, rest) ← readValue depth bound cs
    match skipFiller bound rest with
    | ',' :: rest =>
      match ← readElements depth bound (skipFiller bound rest) with
      | (.array more, rest) => some (.array (first :: more), rest)
      | _ => none
    | ']' :: rest => some (.array [first], rest)
    | _ => none

/-- Reads the entries of an inline table after those that it has already. -/
def readEntries (depth : Nat) : Nat → Entries → List Char → Option (Value × List Char)
  | 0, _, _ => none
  | bound + 1, entries, cs => do
    let (key, rest) ← readKey (bound + 1) cs
    match rest with
    | '=' :: rest =>
      let (value, rest) ← readValue depth bound (skipBlanks rest)
      let entries ← entries.assign key value
      match skipBlanks rest with
      | ',' :: rest => readEntries depth bound entries rest
      | '}' :: rest => some (.table (entryValues entries), rest)
      | _ => none
    | _ => none
end

/-- Reads a statement and the end of its line. -/
def readStatement (bound : Nat) (cs : List Char) : Option (Statement × List Char) :=
  match cs with
  | '[' :: '[' :: cs => do
    let (key, rest) ← readKey bound cs
    match rest with
    | ']' :: ']' :: rest => some (.arrayHeader key, ← lineEnd? rest)
    | _ => none
  | '[' :: cs => do
    let (key, rest) ← readKey bound cs
    match rest with
    | ']' :: rest => some (.header key, ← lineEnd? rest)
    | _ => none
  | cs => do
    let (key, rest) ← readKey bound cs
    match rest with
    | '=' :: rest =>
      let (value, rest) ← readValue 0 bound (skipBlanks rest)
      some (.assign key value, ← lineEnd? rest)
    | _ => none

/-- Reads statements up to the end of the text. -/
def readStatements : Nat → List Char → Option (List Statement)
  | 0, _ => none
  | bound + 1, cs =>
    match skipFiller (bound + 1) cs with
    | [] => some []
    | cs => do
      let (first, rest) ← readStatement (bound + 1) cs
      return first :: (← readStatements bound rest)

/-- The statements of a document. A byte order mark in front of it is ignored. -/
def statements? (text : String) : Option (List Statement) :=
  let cs := match text.toList with
    | '\uFEFF' :: cs => cs
    | cs => cs
  readStatements (cs.length + 1) cs

end BacktrackRegex.Toml
