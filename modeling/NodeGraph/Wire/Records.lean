import NodeGraph.Hex
import NodeGraph.Plan
import NodeGraph.Store.Basic
import NodeGraph.Wire.Reading

/-! Records as JSON values. -/
namespace NodeGraph

open Json Wire

def Wire.bytes (data : List UInt8) : Json :=
  str (Hex.encode data)

def Document.toJson (d : Document) : Json :=
  obj [
    ("id", int d.id), ("public_id", str d.publicId), ("document_type", str d.type.name),
    ("data", bytes d.data), ("json", d.json.getD null), ("created_at", int d.createdAt),
    ("updated_at", int d.updatedAt)]

def Version.toJson (v : Version) : Json :=
  obj [
    ("id", int v.id), ("public_id", str v.publicId), ("document_type", str v.type),
    ("document_id", int v.documentId), ("json_hash", str v.fingerprint), ("data", bytes v.data),
    ("created_at", int v.createdAt)]

def QueuedEvent.toJson (e : QueuedEvent) : Json :=
  obj [
    ("id", int e.id), ("public_id", str e.publicId), ("document_type", str e.type),
    ("action", str e.action), ("old_data", orNull str e.oldData),
    ("new_data", orNull str e.newData), ("created_at", int e.createdAt)]

def QueuedEvent.ofJson? : Reading QueuedEvent := fun v => do
  let fields ← record
    ["id", "public_id", "document_type", "action", "old_data", "new_data", "created_at"] v
  return {
    id := ← field fields "id" int64
    publicId := ← field fields "public_id" text
    type := ← field fields "document_type" text
    action := ← field fields "action" text
    oldData := ← optionalField fields "old_data" text
    newData := ← optionalField fields "new_data" text
    createdAt := ← field fields "created_at" int64 }

def Event.toJson (e : Event) : Json :=
  obj [
    ("id", int e.id), ("public_id", str e.publicId), ("document_type", str e.type.name),
    ("action", str e.action.name), ("old_data", e.oldData.getD null),
    ("new_data", e.newData.getD null), ("created_at", int e.createdAt)]

def DeadLetter.toJson (l : DeadLetter) : Json :=
  obj [
    ("id", int l.id), ("event_id", int l.eventId), ("public_id", str l.publicId),
    ("document_type", str l.type), ("action", str l.action), ("old_data", orNull str l.oldData),
    ("new_data", orNull str l.newData), ("event_created_at", int l.eventCreatedAt),
    ("error", str l.error), ("failed_at", int l.failedAt)]

def Node.toJson (n : Node) : Json :=
  obj [
    ("id", int n.id), ("public_id", str n.publicId), ("kind", str n.kind.name),
    ("title", str n.title), ("title_token_count", orNull int n.titleTokens),
    ("content", n.content.getD null), ("text", str n.text),
    ("text_token_count", orNull int n.textTokens), ("removed", Json.bool n.removed),
    ("editor_document_id", orNull int n.editorDocument),
    ("graph_document_id", orNull int n.graphDocument), ("created_at", int n.createdAt),
    ("updated_at", int n.updatedAt)]

def Node.ofJson? : Reading Node := fun v => do
  let fields ← record
    ["id", "public_id", "kind", "title", "title_token_count", "content", "text",
      "text_token_count", "removed", "editor_document_id", "graph_document_id", "created_at",
      "updated_at"] v
  return {
    id := ← field fields "id" int64
    publicId := ← field fields "public_id" Wire.text
    kind := ← field fields "kind" (choice NodeKind.all NodeKind.name)
    title := ← field fields "title" Wire.text
    titleTokens := ← optionalField fields "title_token_count" int64
    content := ← optionalField fields "content" some
    text := ← field fields "text" Wire.text
    textTokens := ← optionalField fields "text_token_count" int64
    removed := ← field fields "removed" flag
    editorDocument := ← optionalField fields "editor_document_id" int64
    graphDocument := ← optionalField fields "graph_document_id" int64
    createdAt := ← field fields "created_at" int64
    updatedAt := ← field fields "updated_at" int64 }

def NodeSummary.toJson (h : NodeSummary) : Json :=
  obj [
    ("id", int h.id), ("public_id", str h.publicId), ("title", str h.title),
    ("created_at", int h.createdAt)]

def Space.toJson (s : Space) : Json :=
  obj [
    ("id", int s.id), ("public_id", str s.publicId), ("title", str s.title),
    ("title_slug", str s.slug), ("document_id", orNull int s.document),
    ("created_at", int s.createdAt), ("updated_at", int s.updatedAt)]

def Member.toJson (m : Member) : Json :=
  obj [("space_id", int m.space), ("principal", str m.principal), ("role", str m.role)]

def Plan.toJson : Plan → Json
  | editor publicId content =>
    obj [("Editor", obj [("public_id", str publicId), ("content", content)])]
  | space publicId titles =>
    let titles := titles.map fun entry => (entry.1, str entry.2)
    obj [("Space", obj [("public_id", str publicId), ("titles", obj titles)])]
  | graph publicId type kind children =>
    obj [("Graph", obj [
      ("public_id", str publicId), ("document_type", str type.name), ("kind", str kind.name),
      ("children", texts children)])]
  | ignore reason => obj [("Ignore", str reason.name)]

/-- Titles by node, sorted. -/
def Wire.titles : Reading (Keyed String)
  | obj fields => (fields.mapM fun entry => (text entry.2).map (entry.1, ·)).map Keyed.ofList
  | _ => none

def Plan.ofJson? : Reading Plan := fun v => do
  let (name, payload) ← variant v
  let payload ← payload
  match name with
  | "Editor" =>
    let fields ← record ["public_id", "content"] payload
    return .editor (← field fields "public_id" text) (← field fields "content" some)
  | "Space" =>
    let fields ← record ["public_id", "titles"] payload
    return .space (← field fields "public_id" text) (← field fields "titles" titles)
  | "Graph" =>
    let fields ← record ["public_id", "document_type", "kind", "children"] payload
    return .graph (← field fields "public_id" text)
      (← field fields "document_type" (choice DocumentType.all DocumentType.name))
      (← field fields "kind" (choice NodeKind.all NodeKind.name))
      (← field fields "children" (list text))
  | "Ignore" => return .ignore (← choice Inaction.all Inaction.name payload)
  | _ => none

def Report.toJson (r : Report) : Json :=
  obj [(r.kind.name, str r.detail)]

def Report.ofJson? : Reading Report := fun v => do
  let (name, payload) ← variant v
  let kind ← FaultClass.all.find? (·.name = name)
  return ⟨kind, ← payload.bind text⟩

end NodeGraph
