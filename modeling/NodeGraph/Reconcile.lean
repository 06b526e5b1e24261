import NodeGraph.Plan
import NodeGraph.Store.Spaces

/-! Carrying out a plan on the graph. -/
namespace NodeGraph

/-- Whether a plan was carried out or asked for nothing. -/
inductive Outcome where
  | applied
  | ignored (reason : Inaction)
  deriving DecidableEq, Repr

namespace Reconcile

/-- Replaces the content of a node, creating it where there is none; null is no content. -/
def editor (env : Env) (publicId : String) (content : Json) : Command Unit := do
  let node ← Nodes.ensure env publicId .default
  let (_, node) := Nodes.withDocuments (← EStateM.get) .graph node
  let content :=
    match content with
    | .null => none
    | value => some value
  discard <| Nodes.save env { node with content }

/-- Gives the nodes whose title differs the one that is listed. -/
def retitleAll (env : Env) (titles : Keyed String) (summaries : List NodeSummary) (s : Store) :
    Store :=
  summaries.foldl (fun s node =>
    match Keyed.get? node.publicId titles with
    | some title => if title = node.title then s else Nodes.retitle env node.id title s
    | none => s) s

/-- Creates a node for a space with the documents it has, and yields its id. -/
def createMember (env : Env) (publicId title : String) : Command Int := do
  let node ← Nodes.create env publicId title .default
  let (changed, attached) := Nodes.withDocuments (← EStateM.get) .graph node
  if changed then discard <| Nodes.save env attached
  return node.id

/-- Makes the titled nodes the members of a space. Nodes that exist become members and take their
title, then the others are created in key order. -/
def setMembers (env : Env) (space : Int) (titles : Keyed String) : Command Unit := do
  let existing ← Nodes.summaries titles.keys
  Spaces.replaceNodes space (existing.map (·.id))
  modify (retitleAll env titles existing)
  let missing := titles.filter fun entry => !existing.any (·.publicId = entry.1)
  let created ← missing.mapM fun entry => createMember env entry.1 entry.2
  Spaces.includeNodes space created

/-- Gives a space, which must exist, its document and its members. -/
def space (env : Env) (publicId : String) (titles : Keyed String) : Command Unit := do
  let some space := (← EStateM.get).space? publicId | throw (.missingSpace publicId)
  modify fun s => (Spaces.withDocument env space s).2.2
  setMembers env space.id titles

/-- Puts a child below a node, creating it where there is none; a node is not its own child. -/
def addChild (env : Env) (parent : Node) (publicId child : String) : Command Unit := do
  if child ≠ publicId then
    let node ← Nodes.ensure env child .default
    discard <| Nodes.link parent.id node.id

/-- Puts the children below a node, creating it where there is none, and gives the node its graph
document if it lacks one. -/
def graph (env : Env) (publicId : String) (type : DocumentType) (kind : NodeKind)
    (children : List String) : Command Unit := do
  let parent ← Nodes.ensure env publicId kind
  if parent.graphDocument.isNone then
    match (← EStateM.get).documentId? publicId type with
    | some id => discard <| Nodes.save env { parent with graphDocument := some id }
    | none => pure ()
  children.forM (addChild env parent publicId)

def apply (env : Env) : Plan → Command Outcome
  | .editor publicId content => do
    editor env publicId content
    return .applied
  | .space publicId titles => do
    space env publicId titles
    return .applied
  | .graph publicId type kind children => do
    graph env publicId type kind children
    return .applied
  | .ignore reason => return .ignored reason

end Reconcile
end NodeGraph
