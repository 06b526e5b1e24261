import NodeGraph.Settings.Text

/-! The file that settings are kept in. -/
namespace NodeGraph

/-- A folder without folders in it: what its files hold, by their names. -/
abbrev Folder := Keyed RawText

namespace Folder

/-- What a path means from inside a folder. -/
inductive Place where
  | file (name : String)
  /-- The folder itself, or one around it. -/
  | folder
  /-- Something in a folder that does not exist. -/
  | nowhere
  /-- A name that no file can have. -/
  | refused (fault : Fault)
  deriving DecidableEq, Repr

def here : String := "."

def up : String := ".."

/-- The names on a path, without those that lead nowhere else. -/
def steps (path : String) : List String :=
  (path.toList.splitOn '/').filterMap fun part =>
    if part = [] ∨ part = here.toList then none else some (.ofList part)

/-- The most bytes that a name may have. -/
def maxNameLength : Nat := 255

/-- Where a name leads from the folder. -/
def placeOfName (name : String) : Place :=
  if maxNameLength < name.utf8ByteSize then
    .refused (.file .invalidName "File name too long (os error 36)")
  else .file name

def place (path : String) : Place :=
  if path.toList.contains '\x00' then
    .refused (.file .invalidInput "file name contained an unexpected NUL byte")
  else if path.isEmpty then .nowhere
  else if (steps path).all (· = up) then .folder
  else
    match steps path with
    | [name] => if path = name ∨ path = "./" ++ name then placeOfName name else .nowhere
    | _ => .nowhere

/-- The text of a file; `none` if there is no such file. -/
def read (path : String) (folder : Folder) : Except Fault (Option String) :=
  match place path with
  | .file name =>
    match folder.get? name with
    | none => .ok none
    | some raw =>
      match raw.text? with
      | some text => .ok (some text)
      | none => .error (.file .invalidData "stream did not contain valid UTF-8")
  | .folder => .error (.file .isDirectory "Is a directory (os error 21)")
  | .nowhere => .ok none
  | .refused _ => .ok none

/-- Puts a file with a text in place of what was there. -/
def write (path text : String) (folder : Folder) : Except Fault Folder :=
  match place path with
  | .file name => .ok (folder.insert name text)
  | .folder => .error (.file .isDirectory "Is a directory (os error 21)")
  | .nowhere => .error (.missingFile "No such file or directory (os error 2)")
  | .refused fault => .error fault

end Folder

namespace Settings

def defaultPath : String := "docgraph.toml"

/-- The settings in a file. Without the file all have their defaults. -/
def load (path : String) (folder : Folder) : Except Fault Settings := do
  match ← folder.read path with
  | none => return {}
  | some text =>
    let settings ← ofToml text
    if settings.lacksTime then throw (.zeroTimeout path)
    return settings

/-- Writes the settings to a file. If that fails the folder is as before. -/
def save (settings : Settings) (path : String) (folder : Folder) : Except Fault Folder := do
  folder.write path (← settings.toToml)

end Settings
end NodeGraph
