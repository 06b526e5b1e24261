import NodeGraph.Toml.Text

/-! Dates and times in TOML text. Only their form and range are checked. -/
namespace NodeGraph.Toml

/-- Takes the number of a fixed count of digits. -/
def readPadded (count : Nat) (cs : List Char) : Option (Nat × List Char) :=
  let digits := cs.take count
  if digits.length = count ∧ digits.all Char.isDigit then
    some (Nat.ofDigitChars 10 digits 0, cs.drop count)
  else none

/-- A padded number between two bounds. -/
def readPart (count least most : Nat) (cs : List Char) : Option (Nat × List Char) := do
  let (n, rest) ← readPadded count cs
  if least ≤ n ∧ n ≤ most then some (n, rest) else none

def expect (c : Char) : List Char → Option (List Char)
  | d :: rest => if d = c then some rest else none
  | [] => none

def isLeapYear (year : Nat) : Bool :=
  year % 4 = 0 && (year % 100 ≠ 0 || year % 400 = 0)

def daysIn (year month : Nat) : Nat :=
  if month = 2 then (if isLeapYear year then 29 else 28)
  else if month = 4 ∨ month = 6 ∨ month = 9 ∨ month = 11 then 30
  else 31

/-- What follows a date without a time. -/
def skipDate (cs : List Char) : Option (List Char) := do
  let (year, rest) ← readPadded 4 cs
  let (month, rest) ← readPart 2 1 12 (← expect '-' rest)
  let (_, rest) ← readPart 2 1 (daysIn year month) (← expect '-' rest)
  return rest

/-- What follows a fraction of a second; a point without digits is left. -/
def skipFraction : List Char → List Char
  | '.' :: rest =>
    if rest.head?.any Char.isDigit then rest.dropWhile Char.isDigit else '.' :: rest
  | rest => rest

/-- What follows a time of day, which may hold a leap second. -/
def skipTime (cs : List Char) : Option (List Char) := do
  let (_, rest) ← readPart 2 0 23 cs
  let (_, rest) ← readPart 2 0 59 (← expect ':' rest)
  let (_, rest) ← readPart 2 0 60 (← expect ':' rest)
  return skipFraction rest

/-- What follows the offset of a time, if there is one. -/
def skipOffset : List Char → Option (List Char)
  | c :: rest =>
    if c = 'Z' ∨ c = 'z' then some rest
    else if c = '+' ∨ c = '-' then do
      let (_, rest) ← readPart 2 0 23 rest
      let (_, rest) ← readPart 2 0 59 (← expect ':' rest)
      return rest
    else some (c :: rest)
  | [] => some []

/-- What follows a date and the time that may stand after a blank or the letter `T`. -/
def skipDateTime (cs : List Char) : Option (List Char) := do
  let rest ← skipDate cs
  match rest with
  | c :: after =>
    if c = 'T' ∨ c = 't' ∨ c = ' ' then
      match skipTime after with
      | some after => skipOffset after
      | none => some rest
    else some rest
  | [] => some rest

/-- A date, a time, or both. It is kept as an object that holds the text. -/
def readDate (cs : List Char) : Option (Json × List Char) := do
  let rest ← (skipDateTime cs).or (skipTime cs)
  return (.obj [("date", .str (.ofList (cs.take (cs.length - rest.length))))], rest)

end NodeGraph.Toml
