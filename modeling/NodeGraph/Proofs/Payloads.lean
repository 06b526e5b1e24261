import NodeGraph.Proofs.Persistence
import NodeGraph.Proofs.Replay

/-!
Payloads: a value that is written is read back as it was, from its document, from the event that
tells of it, and from the node that it becomes the content of.
-/
namespace NodeGraph

open Store

/-! ### Documents -/

namespace Documents

variable {tokens : Tokenizer} {env : Env} {s : Store} {p : String} {type : DocumentType}

end Documents

/-! ### Events -/

namespace Store

variable {tokens : Tokenizer} {env : Env} {s : Store} {p : String} {type : DocumentType}
  {json : Option Json}

end Store

/-! ### Passes -/

namespace Pass

variable {env : Env} {s : Store} {p : String} {json : Option Json}

/-- The node of the public id is there, and its content is the value. -/
def HasValue (p : String) (json : Option Json) (s : Store) : Prop :=
  s.hasNode p = true ∧ s.contentAt p = json.bind Reconcile.contentOf

theorem HasValue.get {tokens : Tokenizer} (h : s.GraphSound tokens) (hvalue : HasValue p json s) :
    ∃ node, Nodes.get p s = .ok (some node) s ∧ node.content = json.bind Reconcile.contentOf := by
  obtain ⟨hnode, hcontent⟩ := hvalue
  obtain ⟨row, hrow⟩ : ∃ row, s.nodeRow? p = some row := by
    rw [← Option.ne_none_iff_exists', Ne, nodeRow?_eq_none, hnode]
    simp
  unfold contentAt at hcontent
  rw [hrow] at hcontent
  have hderived := h.derived row (List.mem_of_find?_eq_some hrow)
  exact ⟨row.value, Nodes.get_of_some hrow hderived, hcontent⟩

/-- An event of another document keeps it. -/
theorem HasValue.settledAs (quiet : env.rivals = {}) (h : s.Sound env.tokens) {e : QueuedEvent}
    (hkey : e.key ≠ (p, DocumentType.editor.name)) (hjson : ∀ v ∈ json, v.Sound ∧ v.ReadsBack)
    (hvalue : HasValue p json s) : HasValue p json (settledAs env e s (e.verdict s)) := by
  obtain ⟨hnode, hcontent⟩ := hvalue
  constructor
  · rcases settledAs_cases env s e with ⟨hnodes, -⟩ | ⟨event, -, -, hsettled⟩
    · unfold hasNode at hnode ⊢
      rw [hnodes]
      exact hnode
    · have hclaimed : (s.claim e.id).hasNode p = true := hnode
      rw [hsettled]
      exact (Reconcile.persists_carriedOut env _ _).toExtends.hasNode hclaimed
  · rcases content_settledAs quiet h p with ⟨k, hkept⟩ | ⟨hsets, -⟩
    · rw [hkept, hcontent, Reconcile.map_iterate_reread hjson]
    · exact absurd hsets.1 hkey

end Pass

/-- Numbers at the ends of their ranges, a fraction, and texts that have to be escaped. -/
def awkward : Json :=
  .obj [("", .arr [.int 18446744073709551615, .int (-9223372036854775808),
    .float ⟨4609434218613702656⟩, .arr [], .obj []]), ("\"\\", .str "\u0000\n\u00e9"),
    ("z", .null)]

/-- The value that an editor document had before waits in the queue. -/
def rewritten : List (ℤ × Operation) :=
  [(1000, .upsert "n" .editor [] (some (.bool true)))]

end NodeGraph
