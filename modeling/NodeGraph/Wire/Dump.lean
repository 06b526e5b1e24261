import NodeGraph.Wire.Records

/-! The whole store as a JSON value: one array of rows for each table. -/
namespace NodeGraph

open Json Wire

def Wire.row (cells : List Json) : Json := arr cells

def DocumentRow.cells (r : DocumentRow) : Json :=
  row [int r.id, str r.publicId, str r.type, bytes r.data, orNull str r.json, int r.createdAt,
    int r.updatedAt]

def QueuedEvent.cells (e : QueuedEvent) : Json :=
  row [int e.id, str e.publicId, str e.type, str e.action, orNull str e.oldData,
    orNull str e.newData, int e.createdAt]

def DeadLetter.cells (l : DeadLetter) : Json :=
  row [int l.id, int l.eventId, str l.publicId, str l.type, str l.action, orNull str l.oldData,
    orNull str l.newData, int l.eventCreatedAt, str l.error, int l.failedAt]

def Version.cells (v : Version) : Json :=
  row [int v.id, str v.publicId, str v.type, int v.documentId, str v.fingerprint, bytes v.data,
    int v.createdAt]

def NodeRow.cells (n : NodeRow) : Json :=
  row [int n.id, str n.publicId, str n.kind, str n.title, orNull int n.titleTokens,
    orNull str n.content, str n.text, orNull int n.textTokens, int (if n.removed then 1 else 0),
    orNull int n.editorDocument, orNull int n.graphDocument, int n.createdAt, int n.updatedAt]

def Space.cells (s : Space) : Json :=
  row [int s.id, str s.publicId, str s.title, str s.slug, orNull int s.document, int s.createdAt,
    int s.updatedAt]

def Member.cells (m : Member) : Json :=
  row [int m.space, str m.principal, str m.role]

def LeaseRow.cells (l : LeaseRow) : Json :=
  row [str l.name, int l.expiresAt]

/-- Pairs in order. -/
def Wire.pairs (pairs : List (Int × Int)) : Json :=
  arr ((pairs.mergeSort stampLe).map fun pair => row [int pair.1, int pair.2])

def memberLe (a b : Member) : Bool :=
  decide (a.space < b.space ∨ (a.space = b.space ∧ a.principal ≤ b.principal))

def Store.toJson (s : Store) : Json :=
  obj [
    ("documents", arr (s.documents.rows.map DocumentRow.cells)),
    ("events", arr ((s.queue.rows.mergeSort fun a b =>
      stampLe (a.createdAt, a.id) (b.createdAt, b.id)).map QueuedEvent.cells)),
    ("failures", arr (s.deadLetters.rows.map DeadLetter.cells)),
    ("versions", arr (s.versions.rows.map Version.cells)),
    ("nodes", arr (s.nodes.rows.map NodeRow.cells)),
    ("edges", pairs s.edges),
    ("spaces", arr (s.spaces.rows.map Space.cells)),
    ("space_nodes", pairs s.live),
    ("space_deleted_nodes", pairs s.deleted),
    ("space_members", arr ((s.members.mergeSort memberLe).map Member.cells)),
    ("leases", arr ((s.leases.mergeSort fun a b => decide (a.name ≤ b.name)).map
      LeaseRow.cells))]

end NodeGraph
