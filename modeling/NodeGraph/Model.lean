import NodeGraph.Fault

/-! The language models whose tokens can be counted. -/
namespace NodeGraph.Model

def default : String := "gpt-3.5-turbo"

/-- Models known by their whole name. -/
def names : List String :=
  ["gpt-4", "gpt-3.5-turbo", "gpt-3.5", "text-embedding-ada-002"]

/-- How the names of families of models begin. -/
def families : List String :=
  ["gpt-4-", "gpt-35-turbo-", "ft:gpt-4"]

def isKnown (model : String) : Bool :=
  names.contains model || families.any fun family => family.toList.isPrefixOf model.toList

def check (model : String) : Except Fault Unit :=
  if isKnown model then .ok () else .error (.unknownModel model)

/-- The token count of an optional text. -/
def count (tokens : String → Nat) (text : Option String) : Option Nat :=
  text.map tokens

end NodeGraph.Model
