import NodeGraph.Json.Value

/-! The text leaves of a rich-text tree. -/
namespace NodeGraph.Json

/-- Whether an object is a text leaf: its `type` is the string `text`. -/
def isTextLeaf (fields : List (String × Json)) : Bool :=
  (Keyed.get? "type" fields).bind string? = some "text"

mutual

/-- The texts of the leaves in document order. Arrays are walked through, text leaves end the
walk, and any other object is walked through its `content` alone. -/
def textLeaves : Json → List String
  | arr items => textLeavesOfItems items
  | obj fields =>
    if isTextLeaf fields then ((Keyed.get? "text" fields).bind string?).toList
    else textLeavesOfContent fields
  | _ => []

def textLeavesOfItems : List Json → List String
  | [] => []
  | v :: rest => textLeaves v ++ textLeavesOfItems rest

def textLeavesOfContent : List (String × Json) → List String
  | [] => []
  | (k, v) :: rest => if k = "content" then textLeaves v else textLeavesOfContent rest

end

/-- The plain text of an optional tree: its leaves joined by single spaces. -/
def plainText (content : Option Json) : String :=
  match content with
  | none => ""
  | some tree => " ".intercalate tree.textLeaves

theorem textLeavesOfContent_eq (fields : List (String × Json)) :
    textLeavesOfContent fields = ((Keyed.get? "content" fields).map textLeaves).getD [] := by
  induction fields with
  | nil => simp [textLeavesOfContent, Keyed.get?]
  | cons entry rest ih =>
    obtain ⟨k, v⟩ := entry
    by_cases h : k = "content" <;> simp [textLeavesOfContent, Keyed.get?, h, ih]

end NodeGraph.Json
