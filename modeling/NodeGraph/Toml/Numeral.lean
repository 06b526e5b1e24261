import NodeGraph.Json.Numeral
import NodeGraph.Toml.Text

/-! Numbers in TOML text. -/
namespace NodeGraph.Toml

/-- The digits of a run in which single underscores may stand between digits, and what follows.
`after` says that a digit has just been read. -/
def readDigits (isDigit : Char → Bool) (after : Bool) : List Char → Option (List Char × List Char)
  | [] => if after then some ([], []) else none
  | '_' :: rest => if after then readDigits isDigit false rest else none
  | c :: rest =>
    if isDigit c then
      (readDigits isDigit true rest).map fun (digits, rest) => (c :: digits, rest)
    else if after then some ([], c :: rest) else none

/-- Digits of a whole number in base ten: no zero leads, except alone. -/
def readWhole : List Char → Option (List Char × List Char)
  | '0' :: rest => some (['0'], rest)
  | cs => readDigits Char.isDigit false cs

/-- A sign and what follows it; true for minus. -/
def readSign : List Char → Bool × List Char
  | '+' :: rest => (false, rest)
  | '-' :: rest => (true, rest)
  | rest => (false, rest)

/-- Signed 64-bit integers. -/
def integer? (i : Int) : Option Json :=
  if Int64.minValue.toInt ≤ i ∧ i ≤ Int64.maxValue.toInt then some (.int i) else none

/-- An integer in a base that a letter after the zero names; it has no sign. -/
def readBased (base : Nat) (isDigit : Char → Bool) (cs : List Char) :
    Option (Json × List Char) := do
  let (digits, rest) ← readDigits isDigit false cs
  let n := digits.foldl (fun n c => n * base + (Json.hexValue c).getD 0) 0
  return (← integer? n, rest)

def signed (negative : Bool) (n : Nat) : Int :=
  if negative then -(n : Int) else n

def readInteger : List Char → Option (Json × List Char)
  | '0' :: 'x' :: rest => readBased 16 (fun c => (Json.hexValue c).isSome) rest
  | '0' :: 'o' :: rest => readBased 8 (fun c => decide ('0' ≤ c ∧ c ≤ '7')) rest
  | '0' :: 'b' :: rest => readBased 2 (fun c => c = '0' || c = '1') rest
  | cs => do
    let (negative, rest) := readSign cs
    let (digits, rest) ← readWhole rest
    return (← integer? (signed negative (Nat.ofDigitChars 10 digits 0)), rest)

/-- The double nearest to `digits * 10 ^ e`, which is infinite beyond the finite doubles. -/
def nearest (negative : Bool) (digits : List Char) (e : Int) : Binary64 :=
  let n := Nat.ofDigitChars 10 digits 0
  let infinite : Binary64 := ⟨if negative then 0xFFF0000000000000 else 0x7FF0000000000000⟩
  if n = 0 ∨ e + digits.length < -400 then .ofRat negative 0
  else if 400 < e then infinite
  else
    let x := Binary64.round ((n : Rat) * (10 : Rat) ^ e)
    if Binary64.overflows x then infinite else .ofRat negative x

def readExponent : List Char → Option (Option Int × List Char)
  | c :: rest =>
    if c = 'e' ∨ c = 'E' then do
      let (negative, rest) := readSign rest
      let (digits, rest) ← readDigits Char.isDigit false rest
      return (some (signed negative (Nat.ofDigitChars 10 digits 0)), rest)
    else some (none, c :: rest)
  | [] => some (none, [])

def readFraction : List Char → Option (Option (List Char) × List Char)
  | '.' :: rest =>
    (readDigits Char.isDigit false rest).map fun (digits, rest) => (some digits, rest)
  | rest => some (none, rest)

/-- Infinity and not-a-number by name. -/
def readNamed (negative : Bool) : List Char → Option (Json × List Char)
  | 'i' :: 'n' :: 'f' :: rest =>
    some (.float ⟨if negative then 0xFFF0000000000000 else 0x7FF0000000000000⟩, rest)
  | 'n' :: 'a' :: 'n' :: rest =>
    some (.float ⟨if negative then 0xFFF8000000000000 else 0x7FF8000000000000⟩, rest)
  | _ => none

/-- A float has a fraction, an exponent or both. Digits that read as infinity are refused, but
not as minus infinity. -/
def readDecimal (cs : List Char) : Option (Json × List Char) := do
  let (negative, rest) := readSign cs
  let (whole, rest) ← readWhole rest
  let (fraction, rest) ← readFraction rest
  let (power, rest) ← readExponent rest
  if fraction.isNone ∧ power.isNone then none
  let fraction := fraction.getD []
  let x := nearest negative (whole ++ fraction) (power.getD 0 - fraction.length)
  if x.bits = 0x7FF0000000000000 then none else some (.float x, rest)

def readFloat (cs : List Char) : Option (Json × List Char) :=
  match readNamed (readSign cs).1 (readSign cs).2 with
  | some done => some done
  | none => readDecimal cs

end NodeGraph.Toml
