import NodeGraph.Clock
import NodeGraph.Event
import NodeGraph.Node

/-! The tables of documents, events and graph, and commands on them. -/
namespace NodeGraph

/-- Rows in the order of their ids. An id is one more than the highest ever given. -/
structure Table (ρ : Type) where
  rows : List ρ := []
  lastId : Int := 0

namespace Table

variable {ρ : Type}

def nextId (t : Table ρ) : Int :=
  t.lastId + 1

def add (t : Table ρ) (row : Int → ρ) : Table ρ :=
  { rows := t.rows ++ [row t.nextId], lastId := t.nextId }

/-- Takes an id without a row. -/
def skipId (t : Table ρ) : Table ρ :=
  { t with lastId := t.nextId }

def find? (t : Table ρ) (p : ρ → Bool) : Option ρ :=
  t.rows.find? p

def any (t : Table ρ) (p : ρ → Bool) : Bool :=
  t.rows.any p

def keep (t : Table ρ) (p : ρ → Bool) : Table ρ :=
  { t with rows := t.rows.filter p }

def update (t : Table ρ) (p : ρ → Bool) (f : ρ → ρ) : Table ρ :=
  { t with rows := t.rows.map fun row => if p row then f row else row }

end Table

/-- A named lock with its holder and the time it ends. -/
structure LeaseRow where
  name : String
  owner : Nat
  expiresAt : Int
  deriving DecidableEq, Repr

/-- All that is stored. Pairs in `edges` are parent and child, in `live` and `deleted` a space and
a node that is, or was taken out of being, its member. -/
structure Store where
  documents : Table DocumentRow := {}
  queue : Table QueuedEvent := {}
  deadLetters : Table DeadLetter := {}
  versions : Table Version := {}
  nodes : Table NodeRow := {}
  edges : List (Int × Int) := []
  spaces : Table Space := {}
  live : List (Int × Int) := []
  deleted : List (Int × Int) := []
  members : List Member := []
  leases : List LeaseRow := []

/-- A writer that inserts a node just before anyone else can; its row may be gone again at once. -/
structure RivalNode where
  publicId : String
  kind : String
  title : String
  vanishes : Bool

/-- A writer that takes a slug just before anyone else can. -/
structure RivalSpace where
  publicId : String
  slug : String

/-- A pass that takes the events of a public id once a node has been inserted. -/
structure Theft where
  node : String
  events : String

/-- The writers that act in between the statements of a command, one of each kind at most. -/
structure Rivals where
  node : Option RivalNode := none
  space : Option RivalSpace := none
  theft : Option Theft := none

namespace Rivals

/-- Sets the writer of a kind, whose trigger cannot be made twice. -/
def place {ρ : Type} (trigger : String) (rival : ρ) : Option ρ → Except Fault (Option ρ)
  | none => .ok (some rival)
  | some _ => .error (.takenTrigger trigger)

def addNode (r : Rivals) (rival : RivalNode) : Except Fault Rivals := do
  return { r with node := ← place "rival_node" rival r.node }

def addSpace (r : Rivals) (rival : RivalSpace) : Except Fault Rivals := do
  return { r with space := ← place "rival_space" rival r.space }

def addTheft (r : Rivals) (theft : Theft) : Except Fault Rivals := do
  return { r with theft := ← place "steal" theft r.theft }

end Rivals

/-- What a command depends on besides the store. -/
structure Env where
  clock : Int
  tokens : Tokenizer
  rivals : Rivals := {}

def Env.now (env : Env) : Int :=
  Clock.now env.clock

/-- How many parameters a statement can be given. -/
def maxParameters : Nat := 32766

/-- Changes the store and yields a result or a fault. What was changed before a fault stays. -/
abbrev Command := EStateM Fault Store

namespace Command

variable {α : Type}

/-- After a fault nothing has changed. -/
def transaction (c : Command α) : Command α := fun s =>
  match c s with
  | .ok a s' => .ok a s'
  | .error e _ => .error e s

/-- The result and the store that a command leaves. -/
def outcome (c : Command α) (s : Store) : Except Fault α × Store :=
  match c s with
  | .ok a s' => (.ok a, s')
  | .error e s' => (.error e, s')

def ofExcept : Except Fault α → Command α
  | .ok a => pure a
  | .error e => throw e

/-- A row whose columns are not understood. -/
def decoded (r : Except Fault α) : Command α :=
  match r with
  | .ok a => pure a
  | .error e => throw (.undecodableRow e)

/-- Goes on with another command where a key was taken. -/
def ifTaken (c again : Command α) : Command α := fun s =>
  match c s with
  | .ok a s' => .ok a s'
  | .error fault s' => if fault.isDuplicateKey then again s' else .error fault s'

/-- A statement that is given `n` parameters is refused if these are too many. -/
def given (n : Nat) : Command Unit :=
  if n ≤ maxParameters then pure () else throw .tooManyParameters

end Command

/-- The statements that commands are made of, told apart by what they are for. -/
inductive Database.Statement where
  | begin
  | commit
  | writeDocument
  | deleteDocument
  | queueEvent
  | replayFailures
  | forgetFailures
  | findNode
  | findNodeAgain
  | insertNode
  | saveNode
  | markNode
  | findSpace
  | findSlug (slug : String)
  | insertSpace (slug : String)
  | insertOwner
  | leaveLive
  | enterDeleted
  | findDue
  | findUnversioned
  | insertVersion (document : Int)
  | takeLease
  | releaseLease
  deriving DecidableEq, Repr

/-- A database that may refuse any statement with any fault, depending on what is stored then. What
the rows and the rivals forbid need not be among that. -/
structure Database where
  refusal? : Database.Statement → Store → Option Fault

namespace Database

variable {α : Type}

/-- A database that refuses nothing. -/
def sound : Database where
  refusal? _ _ := none

/-- Carries a statement out unless it is refused, in which case it changes nothing. -/
def run (db : Database) (statement : Statement) (c : Command α) : Command α := fun s =>
  match db.refusal? statement s with
  | some fault => .error fault s
  | none => c s

/-- Statements of which all take effect or none does. -/
def transaction (db : Database) (c : Command α) : Command α :=
  db.run .begin <| Command.transaction do
    let a ← c
    db.run .commit (return a)

end Database

/-- Removes the pairs that begin with an id. -/
def withoutFirst (id : Int) (pairs : List (Int × Int)) : List (Int × Int) :=
  pairs.filter fun pair => pair.1 ≠ id

/-- Removes the pairs that end with an id. -/
def withoutSecond (id : Int) (pairs : List (Int × Int)) : List (Int × Int) :=
  pairs.filter fun pair => pair.2 ≠ id

/-- Adds a pair unless it is there. -/
def addPair (pair : Int × Int) (pairs : List (Int × Int)) : List (Int × Int) :=
  if pair ∈ pairs then pairs else pairs ++ [pair]

/-- Order by time, then by id. -/
def stampLe (a b : Int × Int) : Bool :=
  decide (a.1 < b.1 ∨ (a.1 = b.1 ∧ a.2 ≤ b.2))

end NodeGraph
