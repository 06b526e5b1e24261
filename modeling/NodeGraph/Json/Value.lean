import NodeGraph.Binary64.Rounding
import NodeGraph.Keyed

/-! JSON values. -/
namespace NodeGraph

/-- A JSON value. Numbers in the signed or unsigned 64-bit range are integers and all others
doubles; the fields of an object are in the order they were written. -/
inductive Json where
  | null
  | bool (b : Bool)
  | int (i : Int)
  | float (x : Binary64)
  | str (s : String)
  | arr (items : List Json)
  | obj (fields : List (String × Json))
  deriving Inhabited, Repr

namespace Json

def string? : Json → Option String
  | str s => some s
  | _ => none

def fields? : Json → Option (List (String × Json))
  | obj fields => some fields
  | _ => none

def field? (key : String) : Json → Option Json
  | obj fields => Keyed.get? key fields
  | _ => none

mutual

/-- The value with the fields of every object sorted by key; of a repeated key the last field is
kept. -/
def canonical : Json → Json
  | arr items => arr (canonicalItems items)
  | obj fields => obj (Keyed.ofList (canonicalFields fields))
  | v => v

def canonicalItems : List Json → List Json
  | [] => []
  | v :: rest => canonical v :: canonicalItems rest

def canonicalFields : List (String × Json) → List (String × Json)
  | [] => []
  | (k, v) :: rest => (k, canonical v) :: canonicalFields rest

end

mutual

/-- How many arrays and objects are open at the deepest point. -/
def depth : Json → Nat
  | arr items => depthItems items + 1
  | obj fields => depthFields fields + 1
  | _ => 0

def depthItems : List Json → Nat
  | [] => 0
  | v :: rest => max (depth v) (depthItems rest)

def depthFields : List (String × Json) → Nat
  | [] => 0
  | (_, v) :: rest => max (depth v) (depthFields rest)

end

end Json
end NodeGraph
