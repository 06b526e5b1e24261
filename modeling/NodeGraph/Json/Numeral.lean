import NodeGraph.Json.Value

/-! Reading a JSON number. -/
namespace NodeGraph.Json

def digitValue (c : Char) : Nat :=
  c.toNat - '0'.toNat

/-- Appends digits for as long as the significand stays below `2 ^ 64`, and counts the digits
left over. -/
def gather (significand : Nat) : List Char → Nat × Nat
  | [] => (significand, 0)
  | c :: rest =>
    let longer := significand * 10 + digitValue c
    if longer < UInt64.size then gather longer rest else (significand, rest.length + 1)

/-- The double nearest to `10 ^ e`. -/
def powerOfTen (e : Nat) : Rat :=
  Binary64.round ((10 : Rat) ^ e)

/-- Division by `10 ^ e`, in strides of at most 308 powers, each rounded. -/
def scaleDown (x : Rat) (e : Nat) : Rat :=
  if e ≤ 308 then Binary64.round (x / powerOfTen e)
  else if x = 0 then 0
  else scaleDown (Binary64.round (x / powerOfTen 308)) (e - 308)
termination_by e

/-- The double read for `significand * 10 ^ e`: the significand is rounded first and scaled by a
rounded power of ten after. A value above the finite doubles is refused. -/
def scale (significand : Nat) (e : Int) : Option Rat :=
  let x := Binary64.round significand
  if e < 0 then some (scaleDown x (-e).toNat)
  else if 308 < e then (if x = 0 then some 0 else none)
  else
    let y := Binary64.round (x * powerOfTen e.toNat)
    if Binary64.overflows y then none else some y

/-- An integer outside the 64-bit ranges is a double, and so is minus zero. -/
def integer (negative : Bool) (n : Nat) : Json :=
  if negative then
    if n = 0 ∨ 1 <<< 63 < n then .float (.ofRat true (Binary64.round n)) else .int (-(n : Int))
  else .int n

def splitDigits (cs : List Char) : List Char × List Char :=
  (cs.takeWhile Char.isDigit, cs.dropWhile Char.isDigit)

/-- The digits after a point, or `[]` where there is no point. -/
def readFraction : List Char → Option (List Char × List Char)
  | '.' :: rest =>
    let (digits, rest) := splitDigits rest
    if digits.isEmpty then none else some (digits, rest)
  | rest => some ([], rest)

def readExponentDigits (sign : Int) (cs : List Char) : Option (Option Int × List Char) :=
  let (digits, rest) := splitDigits cs
  if digits.isEmpty then none else some (some (sign * Nat.ofDigitChars 10 digits 0), rest)

def readUnsignedExponent : List Char → Option (Option Int × List Char)
  | '+' :: rest => readExponentDigits 1 rest
  | '-' :: rest => readExponentDigits (-1) rest
  | rest => readExponentDigits 1 rest

/-- The power of ten, or `none` where no exponent is written. -/
def readExponent : List Char → Option (Option Int × List Char)
  | 'e' :: rest => readUnsignedExponent rest
  | 'E' :: rest => readUnsignedExponent rest
  | rest => some (none, rest)

/-- A number without its sign. Leading zeros are refused. -/
def readMagnitude (negative : Bool) (cs : List Char) : Option (Json × List Char) := do
  let (whole, rest) := splitDigits cs
  if whole.isEmpty ∨ (whole.head? = some '0' ∧ whole.length ≠ 1) then none
  let (significand, dropped) := gather 0 whole
  let (fraction, rest) ← readFraction rest
  let (power, rest) ← readExponent rest
  if fraction.isEmpty ∧ power.isNone ∧ dropped = 0 then
    some (integer negative significand, rest)
  else
    let (significand, ignored) := gather significand fraction
    let e := (dropped : Int) - (fraction.length - ignored : Nat) + power.getD 0
    let x ← scale significand e
    some (.float (.ofRat negative x), rest)

def readNumeral : List Char → Option (Json × List Char)
  | '-' :: rest => readMagnitude true rest
  | cs => readMagnitude false cs

end NodeGraph.Json
