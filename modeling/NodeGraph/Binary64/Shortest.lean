import NodeGraph.Binary64.Rounding

/-! The decimal with the fewest digits that rounds to a given double, and its text. -/
namespace NodeGraph.Binary64

/-- The lower end of the numbers that round to `n * 2 ^ q`; the gap below a power of two is half
the gap above it. -/
def lowerEnd (n : Nat) (q : Int) : Rat :=
  if n = 1 <<< 52 ∧ -1074 < q then (4 * n - 1) * (2 : Rat) ^ (q - 2)
  else (2 * n - 1) * (2 : Rat) ^ (q - 1)

def upperEnd (n : Nat) (q : Int) : Rat :=
  (2 * n + 1) * (2 : Rat) ^ (q - 1)

/-- Whether `x` rounds to `n * 2 ^ q`; the ends belong to the even significand. -/
def readsBackAs (n : Nat) (q : Int) (x : Rat) : Bool :=
  if n % 2 = 0 then decide (lowerEnd n q ≤ x ∧ x ≤ upperEnd n q)
  else decide (lowerEnd n q < x ∧ x < upperEnd n q)

/-- The largest `k` with `10 ^ k ≤ x`, for positive `x`. -/
def decade (x : Rat) : Int :=
  let k := Int.fdiv (binade x * 30103) 100000
  if x < (10 : Rat) ^ k then k - 1
  else if (10 : Rat) ^ (k + 1) ≤ x then k + 1 else k

/-- The multiple of `10 ^ e` that rounds to `n * 2 ^ q`, the nearer one if there are two and the
even one if these are equally near. -/
def decimalOn (n : Nat) (q : Int) (e : Int) : Option Nat :=
  let x := (n : Rat) * (2 : Rat) ^ q
  let unit := (10 : Rat) ^ e
  let below := (x / unit).floor.toNat
  let nearest := (roundEven (x / unit)).toNat
  if readsBackAs n q (nearest * unit) then some nearest
  else if readsBackAs n q (below * unit) then some below
  else if readsBackAs n q ((below + 1) * unit) then some (below + 1)
  else none

def dropZeros : Nat → Nat → Int → Nat × Int
  | 0, d, e => (d, e)
  | fuel + 1, d, e => if d % 10 = 0 then dropZeros fuel (d / 10) (e + 1) else (d, e)

/-- Digits and exponent of the shortest decimal for positive `n * 2 ^ q`; 17 digits suffice. -/
def shortest (n : Nat) (q : Int) : Nat × Int :=
  let x := (n : Rat) * (2 : Rat) ^ q
  let k := decade x
  let found := (List.range 17).findSome? fun (i : Nat) => do
    let d ← decimalOn n q (k - i)
    return (d, k - i)
  let (d, e) := found.getD ((roundEven (x / (10 : Rat) ^ (k - 16))).toNat, k - 16)
  dropZeros 17 d e

/-- Positional between `1e-5` and `1e16`, always with a fraction; otherwise one digit before the
point and a signed exponent. -/
def magnitudeText (digits : List Char) (e : Int) : List Char :=
  let point := digits.length + e
  if 0 ≤ e ∧ point ≤ 16 then digits ++ List.replicate e.toNat '0' ++ ['.', '0']
  else if 0 < point ∧ point ≤ 16 then
    digits.take point.toNat ++ '.' :: digits.drop point.toNat
  else if -5 < point ∧ point ≤ 0 then
    '0' :: '.' :: (List.replicate (-point).toNat '0' ++ digits)
  else
    let scale := (if point - 1 < 0 then ['-'] else ['+']) ++ Nat.toDigits 10 (point - 1).natAbs
    match digits with
    | [] => scale
    | d :: [] => d :: 'e' :: scale
    | d :: rest => d :: '.' :: rest ++ 'e' :: scale

/-- The text of a finite double: the fewest digits that read back as it. -/
def text (x : Binary64) : List Char :=
  let sign := if x.isNegative then ['-'] else []
  if x.significand = 0 then sign ++ ['0', '.', '0'] else
    let (d, e) := shortest x.significand x.exponent
    sign ++ magnitudeText (Nat.toDigits 10 d) e

end NodeGraph.Binary64
