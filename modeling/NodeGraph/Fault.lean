import NodeGraph.Text.Quoted

/-! What can go wrong, and how it is reported. -/
namespace NodeGraph

/-- The classes that failures are reported in. -/
inductive FaultClass where
  | config
  | custom
  | database
  | io
  | missingPayload
  | notFound
  | serialization
  | timeout
  deriving DecidableEq, Repr

def FaultClass.all : List FaultClass :=
  [.config, .custom, .database, .io, .missingPayload, .notFound, .serialization, .timeout]

def FaultClass.name : FaultClass → String
  | config => "Config"
  | custom => "Custom"
  | database => "Database"
  | io => "Io"
  | missingPayload => "MissingPayload"
  | notFound => "NotFound"
  | serialization => "Serialization"
  | timeout => "Timeout"

/-- The words a message of the class begins with. -/
def FaultClass.label : FaultClass → String
  | config => "Configuration error"
  | custom => "Custom error"
  | database => "Database error"
  | io => "File System error"
  | missingPayload => "Event payload missing"
  | notFound => "Item Not Found"
  | serialization => "(De)Serialization error"
  | timeout => "Operation timed out"

/-- A failure as it is shown: its class and a text. -/
structure Report where
  kind : FaultClass
  detail : String
  deriving DecidableEq, Repr

def Report.message (r : Report) : String :=
  r.kind.label ++ ": " ++ r.detail

/-- The failures of the file system that are told apart; any other is `other`. -/
inductive FileFault where
  | denied
  | taken
  | isDirectory
  | invalidData
  | invalidName
  | invalidInput
  | other
  deriving DecidableEq, Repr

def FileFault.words : FileFault → String
  | denied => "permission denied"
  | taken => "entity already exists"
  | isDirectory => "is a directory"
  | invalidData => "invalid data"
  | invalidName => "invalid filename"
  | invalidInput => "invalid input parameter"
  | other => "other error"

/-- The causes of failure. -/
inductive Fault where
  | unknownDocumentType (name : String)
  | unknownAction (name : String)
  | unknownNodeKind (name : String)
  | malformedJson
  | malformedToml
  | unwritableToml
  | zeroTimeout (path : String)
  | unknownModel (model : String)
  | missingSpace (publicId : String)
  | missingNode (publicId : String)
  | vanishedNode (publicId : String)
  | takenSpace (publicId : String)
  | noFreeSlug (title : String)
  | alreadyRunning
  | duplicateKey (columns : String)
  | brokenReference
  | missingColumn (column : String)
  | tooManyParameters
  | takenTrigger (name : String)
  | undecodableRow (cause : Fault)
  | missingRow
  | unopenableDatabase
  | pathWithoutText
  | poolExhausted
  | poolClosed
  | missingResultColumn (text : String)
  | protocolViolation (text : String)
  | missingMigration (version : Int)
  | changedMigration (version : Int)
  | missingFile (text : String)
  | file (cause : FileFault) (text : String)
  | formatting
  | elapsed
  | reported (r : Report)
  deriving DecidableEq, Repr

/-- How many slugs are tried for a new space. -/
def slugTries : Nat := 16

def Fault.report : Fault → Report
  | unknownDocumentType name => ⟨.serialization, "unknown document type '" ++ name ++ "'"⟩
  | unknownAction name => ⟨.serialization, "unknown event action '" ++ name ++ "'"⟩
  | unknownNodeKind name => ⟨.serialization, "unknown node kind '" ++ name ++ "'"⟩
  | malformedJson => ⟨.serialization, "JSON (de)serialization error"⟩
  | malformedToml => ⟨.serialization, "Toml deserialization error"⟩
  | unwritableToml => ⟨.serialization, "Toml serialization error"⟩
  | zeroTimeout path =>
    ⟨.config, Quoted.quote path ++ ": pass timeouts must be at least one second"⟩
  | unknownModel model =>
    ⟨.config, "unsupported tokenizer model '" ++ model ++ "': No tokenizer found for model "
      ++ model⟩
  | missingSpace publicId => ⟨.notFound, "space " ++ publicId⟩
  | missingNode publicId => ⟨.notFound, "node " ++ publicId⟩
  | vanishedNode publicId =>
    ⟨.notFound, "node " ++ publicId ++ " vanished after unique violation"⟩
  | takenSpace publicId => ⟨.custom, "space " ++ publicId ++ " already exists"⟩
  | noFreeSlug title =>
    ⟨.custom, "could not find a free slug for space '" ++ title ++ "' after "
      ++ toString slugTries ++ " attempts"⟩
  | alreadyRunning => ⟨.custom, "SyncService workers are already running"⟩
  | duplicateKey columns =>
    ⟨.database, "error returned from database: (code: 2067) UNIQUE constraint failed: "
      ++ columns⟩
  | brokenReference =>
    ⟨.database, "error returned from database: (code: 787) FOREIGN KEY constraint failed"⟩
  | missingColumn column =>
    ⟨.database, "error returned from database: (code: 1299) NOT NULL constraint failed: "
      ++ column⟩
  | tooManyParameters =>
    ⟨.database, "error returned from database: (code: 1) too many SQL variables"⟩
  | takenTrigger name =>
    ⟨.database, "error returned from database: (code: 1) trigger " ++ name ++ " already exists"⟩
  | undecodableRow cause =>
    ⟨.database, "error returned from database: " ++ cause.report.message⟩
  | missingRow => ⟨.notFound, "database row not found"⟩
  | unopenableDatabase =>
    ⟨.database, "error returned from database: (code: 14) unable to open database file"⟩
  | pathWithoutText =>
    ⟨.database, "error communicating with database: filename passed to SQLite must be valid UTF-8"⟩
  | poolExhausted => ⟨.database, "pool timed out while waiting for an open connection"⟩
  | poolClosed => ⟨.database, "attempted to acquire a connection on a closed pool"⟩
  | missingResultColumn text => ⟨.database, "no column found for name: " ++ text⟩
  | protocolViolation text => ⟨.database, "encountered unexpected or invalid data: " ++ text⟩
  | missingMigration version =>
    ⟨.database, "migration error: migration " ++ toString version
      ++ " was previously applied but is missing in the resolved migrations"⟩
  | changedMigration version =>
    ⟨.database, "migration error: migration " ++ toString version
      ++ " was previously applied but has been modified"⟩
  | missingFile text => ⟨.notFound, text⟩
  | file cause text => ⟨.io, "IOError: " ++ cause.words ++ ": " ++ text⟩
  | formatting => ⟨.custom, "an error occurred when formatting an argument"⟩
  | elapsed => ⟨.timeout, "deadline has elapsed"⟩
  | reported r => r

def Fault.message (fault : Fault) : String :=
  fault.report.message

/-- What any failure says of itself when the database carries it through. -/
def Fault.rowMessage : String :=
  "docgraph FromRow parsing failure"

/-- Another writer has taken a key. -/
def Fault.isDuplicateKey : Fault → Bool
  | duplicateKey _ => true
  | _ => false

end NodeGraph
