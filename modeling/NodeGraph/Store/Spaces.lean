import NodeGraph.Store.Nodes
import NodeGraph.Text.Slug

/-! Spaces and their members. -/
namespace NodeGraph

namespace Store

def space? (s : Store) (publicId : String) : Option Space :=
  s.spaces.find? (·.publicId = publicId)

def hasSlug (s : Store) (slug : String) : Bool :=
  s.spaces.any (·.slug = slug)

def hasSpaceId (s : Store) (id : Int) : Bool :=
  s.spaces.any (·.id = id)

/-- Adds nodes to the members of a space; a fault, and nothing added, if the space or one of the
new nodes is missing. -/
def addMembers (space : Int) (nodes : List Int) (s : Store) : Except Fault Store :=
  let isNew (node : Int) : Bool := !s.live.contains (space, node)
  if nodes.all fun node => !isNew node || (s.hasSpaceId space && s.hasNodeId node) then
    .ok { s with live := nodes.foldl (fun live node => addPair (space, node) live) s.live }
  else .error .brokenReference

end Store

namespace Spaces

def ownerRole : String := "owner"

def get (publicId : String) (s : Store) : Option Space :=
  s.space? publicId

/-- Sets the document of a space that has none; tells whether one was found. -/
def withDocument (env : Env) (space : Space) (s : Store) : Bool × Space × Store :=
  match space.document, s.documentId? space.publicId .space with
  | none, some id =>
    (true, { space with document := some id, updatedAt := env.now },
      { s with
        spaces := s.spaces.update (·.id = space.id) fun row =>
          { row with document := some id, updatedAt := env.now } })
  | _, _ => (false, space, s)

/-- Adds nodes to the members of a space with one statement, which is given two parameters for each
of them. -/
def includeNodes (space : Int) (nodes : List Int) : Command Unit := do
  Command.given (2 * nodes.length)
  EStateM.set (← Command.ofExcept ((← EStateM.get).addMembers space nodes))

/-- Makes the nodes the only members of a space. -/
def replaceNodes (space : Int) (nodes : List Int) : Command Unit := do
  let s ← EStateM.get
  EStateM.set { s with live := withoutFirst space s.live }
  includeNodes space nodes

def newSpace (env : Env) (publicId title slug : String) (id : Int) : Space where
  id := id
  publicId := publicId
  title := title
  slug := slug
  document := none
  createdAt := env.now
  updatedAt := env.now

/-- Inserts a space. Public id and slug must be free, and a rival for the slug makes the insertion
fail. -/
def insert (env : Env) (publicId title slug : String) : Command Space := do
  let s ← EStateM.get
  match env.rivals.space.filter (·.slug = slug) with
  | some rival =>
    if (s.space? rival.publicId).isNone && !s.hasSlug slug then
      EStateM.set { s with spaces := s.spaces.add (newSpace env rival.publicId "rival" slug) }
    throw (.duplicateKey "spaces.title_slug")
  | none =>
    if s.hasSlug slug then throw (.duplicateKey "spaces.title_slug")
    if (s.space? publicId).isSome then throw (.duplicateKey "spaces.public_id")
    EStateM.set { s with spaces := s.spaces.add (newSpace env publicId title slug) }
    return newSpace env publicId title slug s.spaces.nextId

/-- What the slugs of a space with this title begin with. -/
def baseSlug (title : String) : String :=
  let slug := Slug.ofTitle title
  if slug = "" then "space" else slug

/-- The slugs tried for a title: the base alone, then with each suffix drawn. -/
def candidates (title : String) (suffix : Nat → String) : List String :=
  baseSlug title :: (List.range (slugTries - 1)).map fun i => baseSlug title ++ "-" ++ suffix i

/-- Inserts a space under the first slug that is free and stays so. -/
def insertFirst (db : Database) (env : Env) (publicId title : String) :
    List String → Command Space
  | [] => throw (.noFreeSlug title)
  | slug :: rest => do
    if ← db.run (.findSlug slug) (return (← EStateM.get).hasSlug slug) then
      insertFirst db env publicId title rest
    else
      (db.run (.insertSpace slug) (insert env publicId title slug)).ifTaken
        (insertFirst db env publicId title rest)

/-- Records the first member of a space. -/
def insertOwner (space : Space) (principal : String) : Command Unit :=
  modify fun s =>
    { s with members := s.members ++ [{ space := space.id, principal, role := ownerRole }] }

/-- Creates a space with a slug of its own, and its owner as the first member if there is one. The
`n`th suffix drawn is `suffix n`. -/
def createOn (db : Database) (env : Env) (publicId title : String) (owner : Option String)
    (suffix : Nat → String) : Command Space :=
  db.transaction do
    let taken ← db.run .findSpace (return ((← EStateM.get).space? publicId).isSome)
    if taken then throw (.takenSpace publicId)
    let space ← insertFirst db env publicId title (candidates title suffix)
    match owner with
    | none => return space
    | some principal =>
      db.run .insertOwner (insertOwner space principal)
      return space

def create (env : Env) (publicId title : String) (owner : Option String)
    (suffix : Nat → String) : Command Space :=
  createOn .sound env publicId title owner suffix

/-- The nodes that a list of pairs joins to a space, by public id. -/
def related (pairs : Store → List (Int × Int)) (publicId : String) : Command (List Node) := do
  let s ← EStateM.get
  match s.space? publicId with
  | none => return []
  | some space =>
    (s.nodesOf (((pairs s).filter (·.1 = space.id)).map (·.2))).mapM Nodes.decode

def nodes (publicId : String) : Command (List Node) :=
  related Store.live publicId

def deletedNodes (publicId : String) : Command (List Node) :=
  related Store.deleted publicId

/-- The members of a space by principal. -/
def members (publicId : String) (s : Store) : List Member :=
  match s.space? publicId with
  | none => []
  | some space =>
    (s.members.filter (·.space = space.id)).mergeSort fun a b =>
      decide (a.principal ≤ b.principal)

/-- Moves a node from the live members of a space to the deleted ones. -/
def expelOn (db : Database) (publicId nodePublicId : String) : Command Unit :=
  db.transaction do
    let some space ← db.run .findSpace (return (← EStateM.get).space? publicId)
      | throw (.missingSpace publicId)
    let some node ← db.run .findNode (Nodes.get nodePublicId) | throw (.missingNode nodePublicId)
    db.run .leaveLive <| modify fun s =>
      { s with live := s.live.filter (· ≠ (space.id, node.id)) }
    db.run .enterDeleted <| modify fun s =>
      { s with deleted := addPair (space.id, node.id) s.deleted }

def expel (publicId nodePublicId : String) : Command Unit :=
  expelOn .sound publicId nodePublicId

end Spaces
end NodeGraph
