import NodeGraph.Text.AsciiFold

/-! Slugs: the lower-case ASCII short form of a title. -/
namespace NodeGraph.Slug

def isSpace (c : Char) : Bool :=
  c = ' ' || decide ('\t' ≤ c ∧ c ≤ '\r')

def isWord (c : Char) : Bool :=
  c.isAlphanum || c = '_'

/-- Blanks and dashes separate words. -/
def isSeparator (c : Char) : Bool :=
  c = '-' || isSpace c

def isEdge (c : Char) : Bool :=
  c = '-' || c = '_'

def trim (p : Char → Bool) (cs : List Char) : List Char :=
  ((cs.dropWhile p).reverse.dropWhile p).reverse

/-- Each run of separators becomes one dash; `inRun` says that the last character was one. -/
def collapse (inRun : Bool) : List Char → List Char
  | [] => []
  | c :: rest =>
    if isSeparator c then
      if inRun then collapse true rest else '-' :: collapse true rest
    else c :: collapse false rest

/-- The slug of an ASCII text: lower case, other characters than words and separators dropped,
separators collapsed, no dash or underscore at either end. -/
def ofAscii (cs : List Char) : List Char :=
  let kept := (cs.map Char.toLower).filter fun c => isWord c || isSeparator c
  trim isEdge (collapse false (trim isSpace kept))

/-- Accents are folded and characters without an ASCII form are dropped. -/
def ofTitle (title : String) : String :=
  .ofList (ofAscii (AsciiFold.ofList title.toList))

end NodeGraph.Slug
