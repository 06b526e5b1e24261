import NodeGraph.Toml.Date
import NodeGraph.Toml.Numeral
import NodeGraph.Toml.Table

/-! Reading TOML text. -/
namespace NodeGraph.Toml

def isBare (c : Char) : Bool :=
  c.isAlphanum || c = '_' || c = '-'

/-- One part of a key: bare, or a quoted string on one line. -/
def readPart? : List Char → Option (String × List Char)
  | '"' :: rest => (readBasic (rest.length + 1) rest).map fun (s, rest) => (.ofList s, rest)
  | '\'' :: rest => (readLiteral rest).map fun (s, rest) => (.ofList s, rest)
  | cs =>
    let bare := cs.takeWhile isBare
    if bare.isEmpty then none else some (.ofList bare, cs.dropWhile isBare)

/-- The parts of a key, which points separate, with the blanks around each. -/
def readKey : Nat → List Char → Option (List String × List Char)
  | 0, _ => none
  | fuel + 1, cs => do
    let (part, rest) ← readPart? (skipBlanks cs)
    match skipBlanks rest with
    | '.' :: rest => (readKey fuel rest).map fun (path, rest) => (part :: path, rest)
    | rest => some ([part], rest)

/-- A key may have fewer parts than this, and fewer arrays and tables may be open in a value. -/
def limit : Nat := 80

def isCommentChar (c : Char) : Bool :=
  c = '\t' || decide (0x20 ≤ c.toNat)

/-- What follows a comment, if there is one. It ends before the line does. -/
def skipComment : List Char → List Char
  | '#' :: rest => rest.dropWhile isCommentChar
  | rest => rest

/-- Blanks, line ends and comments. -/
def skipFiller (fuel : Nat) (cs : List Char) : List Char :=
  match fuel with
  | 0 => cs
  | fuel + 1 =>
    match skipLines cs with
    | '#' :: rest => skipFiller fuel (skipComment ('#' :: rest))
    | rest => rest

/-- A number, a date or a time. -/
def readScalar (cs : List Char) : Option (Json × List Char) :=
  ((readDate cs).or (readFloat cs)).or (readInteger cs)

mutual

/-- Reads one value. Fewer than `room` arrays and tables may be open in it, and `fuel` bounds the
number of calls; three for each character are enough. -/
def readValue (fuel room : Nat) (cs : List Char) : Option (Json × List Char) :=
  match fuel with
  | 0 => none
  | fuel + 1 =>
    match cs with
    | 't' :: 'r' :: 'u' :: 'e' :: rest => some (.bool true, rest)
    | 'f' :: 'a' :: 'l' :: 's' :: 'e' :: rest => some (.bool false, rest)
    | '[' :: rest =>
      match room with
      | 0 => none
      | room + 1 => (readItems fuel room rest).map fun (items, rest) => (.arr items, rest)
    | '\x7b' :: rest =>
      match room with
      | 0 => none
      | room + 1 =>
        match skipBlanks rest with
        | '\x7d' :: rest => some (.obj [], rest)
        | rest => do
          let (entries, rest) ← readEntries fuel room rest
          return (← inlineTable entries, rest)
    | '"' :: _ => (readText cs).map fun (s, rest) => (.str (.ofList s), rest)
    | '\'' :: _ => (readText cs).map fun (s, rest) => (.str (.ofList s), rest)
    | cs => readScalar cs

/-- Reads the items of an array up to its closing bracket. The last may have a comma, too. -/
def readItems (fuel room : Nat) (cs : List Char) : Option (List Json × List Char) :=
  match fuel with
  | 0 => none
  | fuel + 1 =>
    match skipFiller cs.length cs with
    | ']' :: rest => some ([], rest)
    | rest =>
      match readValue fuel room rest with
      | none => none
      | some (v, rest) =>
        match skipFiller rest.length rest with
        | ']' :: rest => some ([v], rest)
        | ',' :: rest => (readItems fuel room rest).map fun (items, rest) => (v :: items, rest)
        | _ => none

/-- Reads the entries of a table in braces up to the closing one, all on one line. -/
def readEntries (fuel room : Nat) (cs : List Char) :
    Option (List (List String × Json) × List Char) :=
  match fuel with
  | 0 => none
  | fuel + 1 =>
    match readKey (limit - 1) cs with
    | some (path, '=' :: rest) =>
      match readValue fuel room (skipBlanks rest) with
      | none => none
      | some (v, rest) =>
        match skipBlanks rest with
        | '\x7d' :: rest => some ([(path, v)], rest)
        | ',' :: rest =>
          (readEntries fuel room rest).map fun (entries, rest) => ((path, v) :: entries, rest)
        | _ => none
    | _ => none

end

/-- What follows a line after its last word: blanks, a comment and the line end. -/
def endLine (cs : List Char) : Option (List Char) :=
  match skipComment (skipBlanks cs) with
  | [] => some []
  | rest => newline? rest

/-- A key and its value. -/
def readAssignment (cs : List Char) : Option (Statement × List Char) :=
  match readKey (limit - 1) cs with
  | some (path, '=' :: rest) =>
    (readValue (3 * rest.length + 3) (limit - 1) (skipBlanks rest)).map fun (v, rest) =>
      (.assign path v, rest)
  | _ => none

/-- A key in brackets: one pair for a table, two for a table of an array. -/
def readHeader : List Char → Option (Statement × List Char)
  | '[' :: '[' :: rest =>
    match readKey (limit - 1) rest with
    | some (path, ']' :: ']' :: rest) => some (.append path, rest)
    | _ => none
  | '[' :: rest =>
    match readKey (limit - 1) rest with
    | some (path, ']' :: rest) => some (.declare path, rest)
    | _ => none
  | _ => none

def readStatement (cs : List Char) : Option (Statement × List Char) :=
  match cs with
  | '[' :: _ => readHeader cs
  | _ => readAssignment cs

/-- The statements of the lines of a text. Each turn takes a line, so the length of the text is
enough for `fuel`. -/
def readLines (fuel : Nat) (cs : List Char) : Option (List Statement) :=
  match fuel with
  | 0 => none
  | fuel + 1 =>
    match skipBlanks cs with
    | [] => some []
    | c :: rest =>
      if c = '#' ∨ c = '\n' ∨ c = '\r' then
        match endLine (c :: rest) with
        | some rest => readLines fuel rest
        | none => none
      else
        match readStatement (c :: rest) with
        | some (statement, rest) =>
          match endLine rest with
          | some rest => (readLines fuel rest).map (statement :: ·)
          | none => none
        | none => none

/-- A mark of the byte order may lead the text. -/
def skipMark : List Char → List Char
  | '\uFEFF' :: rest => rest
  | cs => cs

/-- The table of a whole text, as an object. -/
def parse (text : String) : Option Json :=
  let cs := skipMark text.toList
  (readLines (cs.length + 1) cs).bind assemble

end NodeGraph.Toml
