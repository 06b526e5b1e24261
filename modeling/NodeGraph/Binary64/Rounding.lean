/-! The binary64 grid over the rationals, and rounding to it with halves going to even. -/
namespace NodeGraph

/-- A double, held as its bit pattern, so that equality is equality of bits. -/
structure Binary64 where
  bits : UInt64
  deriving DecidableEq, Repr

namespace Binary64

/-- The largest `e` with `2 ^ e ≤ x`, for positive `x`. -/
def binade (x : Rat) : Int :=
  let e := (x.num.natAbs.log2 : Int) - x.den.log2
  if (2 : Rat) ^ e ≤ x then e else e - 1

/-- The exponent of the grid around positive `x`: 53 significant bits, but never finer than the
least subnormal. -/
def gridExponent (x : Rat) : Int :=
  max (binade x - 52) (-1074)

/-- The nearest integer; a half goes to the even neighbour. -/
def roundEven (x : Rat) : Int :=
  let below := x.floor
  let excess := x - below
  if excess < 1 / 2 then below
  else if 1 / 2 < excess then below + 1
  else if below % 2 = 0 then below else below + 1

/-- The grid point nearest to `x`, with no upper limit on the exponent. -/
def round (x : Rat) : Rat :=
  if x = 0 then 0 else
    let unit := (2 : Rat) ^ gridExponent x.abs
    roundEven (x / unit) * unit

/-- Whether a grid point lies outside the finite doubles. -/
def overflows (x : Rat) : Bool :=
  decide ((2 : Rat) ^ (1024 : Int) ≤ x.abs)

/-- The double with the given sign and magnitude; the magnitude is a finite grid point. -/
def ofRat (negative : Bool) (magnitude : Rat) : Binary64 :=
  let sign := if negative then 1 <<< 63 else 0
  if magnitude = 0 then ⟨.ofNat sign⟩ else
    let g := gridExponent magnitude
    let n := (magnitude / (2 : Rat) ^ g).floor.toNat
    let word := if n < 1 <<< 52 then n else ((g + 1075).toNat <<< 52) + (n - 1 <<< 52)
    ⟨.ofNat (sign + word)⟩

def isNegative (x : Binary64) : Bool :=
  decide (1 <<< 63 ≤ x.bits.toNat)

/-- The integer `n` of the magnitude `n * 2 ^ x.exponent`. -/
def significand (x : Binary64) : Nat :=
  let word := x.bits.toNat % 1 <<< 63
  if word >>> 52 = 0 then word else word % 1 <<< 52 + 1 <<< 52

/-- The integer `q` of the magnitude `x.significand * 2 ^ q`. -/
def exponent (x : Binary64) : Int :=
  let word := x.bits.toNat % 1 <<< 63
  (max (word >>> 52) 1 : Nat) - 1075

theorem roundEven_intCast (k : Int) : roundEven (k : Rat) = k := by
  simp only [roundEven, Rat.floor_intCast]
  grind

theorem round_zero : round 0 = 0 := by
  simp [round]

end Binary64
end NodeGraph
