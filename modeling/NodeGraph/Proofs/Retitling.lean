import NodeGraph.Proofs.Json.Distinct
import NodeGraph.Proofs.Redelivery

/-!
Two ways to a new title: to write its columns alone, and to save the whole node. What they leave
differs by what is lost when the content of the node is read and printed anew.
-/
namespace NodeGraph

namespace Json

variable {v : Json}

/-- A value is what its text is read as if and only if its doubles read back. -/
theorem reread_eq_self_iff (h : v.Fits) : v.reread = v ↔ v.ReadsBack := by
  refine ⟨fun hsame => ?_, reread_of_readsBack h⟩
  induction v with
  | float x =>
    intro y hy
    obtain rfl := List.mem_singleton.mp hy
    have hparse := parse_compact (v := .float y) ⟨h, rfl, Nat.zero_le _⟩
    rwa [hsame] at hparse
  | arr items ih =>
    have hitems : items.map reread = items.map id := by
      rw [List.map_id, ← rereadItems_eq]
      exact Json.arr.inj hsame
    intro x hx
    obtain ⟨v, hv, hmem⟩ := mem_floatsOfItems.mp hx
    exact ih v hv (fitsItems_iff.mp h v hv) (List.map_inj_left.mp hitems v hv) x hmem
  | obj fields ih =>
    have hfields : fields.map (fun entry => (entry.1, entry.2.reread)) = fields.map id := by
      rw [List.map_id, ← rereadFields_eq]
      exact Json.obj.inj hsame
    intro x hx
    obtain ⟨entry, hentry, hmem⟩ := mem_floatsOfFields.mp hx
    have hvalue : entry.2.reread = entry.2 :=
      congrArg Prod.snd (List.map_inj_left.mp hfields entry hentry)
    exact ih entry hentry (fitsFields_iff.mp h entry hentry) hvalue x hmem
  | _ => exact fun x hx => absurd hx List.not_mem_nil

/-- Printing a value that has been read yields its text again if and only if its doubles read
back. -/
theorem compact_reread_iff (h : v.Fits) : v.reread.compact = v.compact ↔ v.ReadsBack := by
  rw [← reread_eq_self_iff h]
  exact compact_injOn.eq_iff (reread_fits h) h

end Json

/-- The text of a value that can be held, or none. -/
def IsPrinted (text : Option String) : Prop :=
  ∃ content : Option Json, (∀ v ∈ content, v.Sound) ∧ text = content.map Json.compact

theorem isPrinted_none : IsPrinted none :=
  ⟨none, by simp, rfl⟩

theorem isPrinted_rewritten (text : Option String) : IsPrinted (NodeFacts.rewritten text) := by
  unfold NodeFacts.rewritten
  cases hread : decodePayload text with
  | error fault => exact isPrinted_none
  | ok content => exact ⟨content, sound_of_decodePayload hread, rfl⟩

/-- What becomes of the text of a value when it is read and printed anew. -/
theorem rewritten_compact {content : Option Json} (h : ∀ v ∈ content, v.Sound) :
    NodeFacts.rewritten (content.map Json.compact) =
      content.map fun v => v.reread.compact := by
  unfold NodeFacts.rewritten
  rw [decodePayload_compact h]
  exact Option.map_map _ _ _

/-- The text stays if and only if the doubles of the value read back. -/
theorem rewritten_compact_eq_iff {content : Option Json} (h : ∀ v ∈ content, v.Sound) :
    NodeFacts.rewritten (content.map Json.compact) = content.map Json.compact ↔
      ∀ v ∈ content, v.ReadsBack := by
  rw [rewritten_compact h]
  cases content with
  | none => simp
  | some v => simpa using Json.compact_reread_iff (h v rfl).fits

theorem isPrinted_contentFor {plan : Plan} (hplan : plan.Sound) {q : String} :
    ∀ text ∈ plan.contentFor? q, IsPrinted text := by
  intro text htext
  cases plan with
  | editor p content =>
    unfold Plan.contentFor? at htext
    dsimp only at htext
    split at htext
    · obtain rfl := Option.some.inj htext
      exact ⟨_, Reconcile.contentOf_sound hplan, rfl⟩
    · cases htext
  | _ => cases htext

/-- A plan leaves printed contents. -/
theorem isPrinted_touch {plan : Plan} (hplan : plan.Sound) {r : Surroundings} {q : String}
    {facts : Option NodeFacts} (h : ∀ old ∈ facts, IsPrinted old.content) :
    ∀ new ∈ plan.touch r q facts, IsPrinted new.content := by
  intro new hnew
  unfold Plan.touch at hnew
  split at hnew
  · obtain rfl := Option.some.inj hnew
    have hstart : IsPrinted (facts.getD (plan.seed r q)).content := by
      cases facts with
      | none => cases plan <;> exact isPrinted_none
      | some old => exact h old rfl
    show IsPrinted ((plan.contentFor? q).getD _)
    cases hgiven : plan.contentFor? q with
    | some text => exact isPrinted_contentFor hplan text hgiven
    | none =>
      rcases (plan.attach_frame (facts.getD (plan.seed r q))).2.1 with hsame | hrewritten
      · exact hsame ▸ hstart
      · exact hrewritten ▸ isPrinted_rewritten _
  · exact h new hnew

namespace Store

variable {tokens : Tokenizer} {env : Env} {s : Store}

/-- The contents of all nodes have been printed. -/
def Printed (s : Store) : Prop :=
  ∀ row ∈ s.nodes.rows, IsPrinted row.content

theorem Printed.mapNodes (h : s.Printed) {f : NodeRow → NodeRow}
    (hf : ∀ row ∈ s.nodes.rows, (f row).content = row.content ∨ IsPrinted (f row).content) :
    (s.mapNodes f).Printed := by
  intro row' hrow'
  obtain ⟨row, hrow, rfl⟩ := List.mem_map.mp hrow'
  rcases hf row hrow with hsame | hprinted
  · rw [hsame]
    exact h row hrow
  · exact hprinted

theorem Printed.changeNode (h : s.Printed) {p : String} {f : NodeRow → NodeRow}
    (hf : ∀ row ∈ s.nodes.rows, row.publicId = p →
      (f row).content = row.content ∨ IsPrinted (f row).content) :
    (s.changeNode p f).Printed := by
  refine h.mapNodes fun row hrow => ?_
  by_cases hkey : row.publicId = p
  · rw [if_pos hkey]
    exact hf row hrow hkey
  · rw [if_neg hkey]
    exact Or.inl rfl

theorem Printed.deleteDocument (h : s.Printed) (clock : ℤ) (row : DocumentRow) :
    (s.deleteDocument clock row).Printed := by
  have hrows : (s.deleteDocument clock row).nodes.rows =
      (s.mapNodes (NodeRow.detached row.id)).nodes.rows := (rows_deleteDocument clock s row).1
  have hmapped : (s.mapNodes (NodeRow.detached row.id)).Printed := h.mapNodes fun _ _ => Or.inl rfl
  unfold Printed
  rw [hrows]
  exact hmapped

theorem Printed.carriedOut (h : s.Printed) (quiet : env.rivals = {}) (hs : s.GraphSound env.tokens)
    {plan : Plan} (hplan : plan.Sound) (hfits : plan.Fits s) :
    (Reconcile.carriedOut env plan s).Printed := by
  intro row hrow
  have hsound := Reconcile.carriedOut_sound quiet hs hplan
  have hthere : (Reconcile.carriedOut env plan s).facts? row.publicId = some row.facts := by
    unfold facts?
    rw [hsound.nodeRow?_eq_some.mpr ⟨hrow, rfl⟩]
    rfl
  rw [Reconcile.facts?_carriedOut quiet hs hplan hfits] at hthere
  refine isPrinted_touch hplan ?_ _ hthere
  intro old hold
  obtain ⟨before, hbefore, rfl⟩ := Option.map_eq_some_iff.mp hold
  exact h before (hs.nodeRow?_eq_some.mp hbefore).1

theorem Printed.settle (h : s.Printed) (quiet : env.rivals = {}) (hs : s.GraphSound env.tokens)
    (e : QueuedEvent) : (Pass.settle env s e).Printed := by
  rcases Pass.settle_cases quiet hs e with ⟨-, hsame⟩ | ⟨-, hsettled⟩
  · rw [hsame]
    exact h
  · rw [hsettled]
    cases hverdict : e.verdict s with
    | dropped => exact h
    | buried fault => exact h
    | carried plan =>
      have hclaimed : (s.claim e.id).Printed := h
      obtain ⟨hplan, hobstacle⟩ := Pass.sound_of_verdict hverdict
      exact hclaimed.carriedOut quiet (Pass.claim_sound hs e.id) hplan
        (Plan.fits_of_obstacle? hobstacle)

end Store

open Store

variable {tokens : Tokenizer} {env : Env} {s : Store}

theorem Pass.printed_run (h : s.Printed) (quiet : env.rivals = {}) (hs : s.Sound env.tokens)
    (owner : ℕ) (strict : Bool) (ttl : ℤ) : ((run env owner strict ttl).outcome s).2.Printed :=
  run_induction quiet (P := Store.Printed) (fun _ _ ht => ht)
    (fun _ e ht hkept => hkept.settle quiet ht.toGraphSound e) hs h owner strict ttl

theorem Passes.printed_run (h : s.Printed) (hs : s.Sound tokens) (schedule : List Turn) :
    (run tokens schedule { store := s }).store.Printed := by
  refine run_induction (P := fun _ t => t.Printed) hs h (fun _ _ _ hkept => hkept) ?_ schedule
  intro log t e clock ht _ hkept
  have hquiet : ({ clock, tokens } : Env).rivals = {} := rfl
  exact hkept.settle hquiet ht.toGraphSound e

/-! ### Operations -/

/-- A node is saved with the text of its content. -/
theorem Nodes.isPrinted_savedRow {node : Node} (hcontent : ∀ v ∈ node.content, v.Sound)
    (row : NodeRow) : IsPrinted (savedRow env node row).content :=
  ⟨node.content, hcontent, rfl⟩

theorem printed_replaces {clock : ℤ} {t : Store} (h : s.Printed)
    (hreplaces : Operation.Replaces clock s t) : t.Printed := by
  induction hreplaces with
  | refl => exact h
  | tail _ hstep ih =>
    obtain ⟨old, row, -, rfl⟩ := hstep
    exact ih

theorem Operation.printed_perform (h : s.Printed) (quiet : env.rivals = {})
    (hs : s.Sound env.tokens) {op : Operation} (hheld : op.Held) :
    (op.perform env s).Printed := by
  have heffect := op.effect_perform quiet hs.toGraphSound
  generalize op.perform env s = t at heffect ⊢
  cases heffect with
  | upsert p type data json =>
    unfold upserted
    split <;> exact h
  | delete hrow => exact h.deleteDocument env.clock _
  | changeDocuments p column cell hreplaces hkeys => exact printed_replaces h hreplaces
  | deleteDocuments p =>
    exact List.foldlRecOn (motive := Store.Printed) _ _ h
      fun t ht row _ => ht.deleteDocument env.clock row
  | pass owner strict ttl => exact Pass.printed_run h quiet hs owner strict ttl
  | @setTitle p row hrow title =>
    have hderived := hs.derived row (hs.nodeRow?_eq_some.mp hrow).1
    exact h.changeNode fun old _ _ => Or.inr (Nodes.isPrinted_savedRow hderived.sound old)
  | setRemoved hnode removed => exact h.changeNode fun _ _ _ => Or.inl rfl
  | save heditor hgraph =>
    rw [updateNode_eq_mapNodes]
    refine h.mapNodes fun row _ => ?_
    split
    · exact Or.inr (Nodes.isPrinted_savedRow hheld row)
    · exact Or.inl rfl
  | _ => exact h

/-- In every reachable store the contents of nodes have been printed. -/
theorem Reachable.printed (h : Reachable tokens s) : s.Printed := by
  induction h with
  | empty => exact fun _ hrow => absurd hrow List.not_mem_nil
  | perform hreachable clock op hheld ih =>
    have hquiet : ({ clock, tokens } : Env).rivals = {} := rfl
    exact op.printed_perform ih hquiet hreachable.sound hheld
  | passes hreachable schedule ih => exact Passes.printed_run ih hreachable.sound schedule

/-! ### Both ways to a title -/

namespace NodeRow

/-- The row with its content read and printed anew. -/
def reprinted (row : NodeRow) : NodeRow :=
  { row with content := NodeFacts.rewritten row.content }

/-- Saving the node of a row with another title reprints it, besides retitling it. -/
theorem savedRow_title {row : NodeRow} (h : row.Derived env.tokens) (title : String) :
    Nodes.savedRow env { row.value with title } row = (row.retitled env title).reprinted := by
  have hcontent : row.contentValue.map Json.compact = NodeFacts.rewritten row.content := by
    unfold NodeFacts.rewritten
    rw [h.content]
  unfold reprinted retitled
  rw [← hcontent]
  unfold Nodes.savedRow Node.encode Node.refresh value
  dsimp only
  rw [h.kind_name, ← h.text, ← h.textTokens]

end NodeRow

namespace Nodes

variable {row : NodeRow}

theorem retitle_eq_changeNode (h : s.GraphSound tokens) (hrow : row ∈ s.nodes.rows)
    (title : String) :
    retitle env row.id title s = s.changeNode row.publicId (NodeRow.retitled env title) :=
  updateNode_eq_changeNode h hrow _

/-- To fetch a node, give it a title and save it is to write its title and reprint its content. -/
theorem save_title (h : s.GraphSound env.tokens) (hrow : row ∈ s.nodes.rows) (title : String) :
    s.changeNode row.publicId (savedRow env { row.value with title }) =
      (retitle env row.id title s).changeNode row.publicId NodeRow.reprinted := by
  rw [retitle_eq_changeNode h hrow]
  unfold changeNode
  rw [mapNodes_mapNodes]
  refine mapNodes_congr fun other hother => ?_
  by_cases hkey : other.publicId = row.publicId
  · obtain rfl := List.inj_on_of_nodup_map h.nodeKeys hother hrow hkey
    have hkept : (other.retitled env title).publicId = other.publicId := rfl
    rw [if_pos rfl, if_pos rfl, if_pos hkept, NodeRow.savedRow_title (h.derived other hrow)]
  · rw [if_neg hkey, if_neg hkey, if_neg hkey]

/-- Reprinting a node leaves the store as it is if and only if the text of its content stays. -/
theorem changeNode_reprinted_eq_iff (h : s.GraphSound tokens) (hrow : row ∈ s.nodes.rows) :
    s.changeNode row.publicId NodeRow.reprinted = s ↔
      NodeFacts.rewritten row.content = row.content := by
  constructor
  · intro hsame
    have hrows : s.nodes.rows.map (fun other =>
        if other.publicId = row.publicId then other.reprinted else other) =
        s.nodes.rows.map id := by
      rw [List.map_id, ← rows_changeNode, hsame]
    have hreprinted := List.map_inj_left.mp hrows row hrow
    rw [if_pos rfl] at hreprinted
    exact congrArg NodeRow.content hreprinted
  · intro hcontent
    refine changeNode_self fun other hother hkey => ?_
    obtain rfl := List.inj_on_of_nodup_map h.nodeKeys hother hrow hkey
    unfold NodeRow.reprinted
    rw [hcontent]

end Nodes

/-- In every reachable store the content of a node is none or the text of a value. A new title can
be written alone, or with the node fetched and saved. The second way reprints the content and leaves
otherwise what the first one does: all the same if and only if the doubles of the value read
back. -/
theorem Reachable.setTitle_eq_retitle_iff (h : Reachable tokens s) (clock : ℤ) {row : NodeRow}
    (hrow : row ∈ s.nodes.rows) (title : String) :
    let env : Env := { clock, tokens }
    let retitled := Nodes.retitle env row.id title s
    ∃ content : Option Json, (∀ v ∈ content, v.Sound) ∧ row.content = content.map Json.compact ∧
      ∃ node saved t, Nodes.get row.publicId s = .ok (some node) s ∧
        Nodes.save env { node with title } s = .ok saved t ∧
        Nodes.setTitle env row.publicId title s = .ok saved t ∧
        t = retitled.changeNode row.publicId NodeRow.reprinted ∧
        (t = retitled ↔ ∀ v ∈ content, v.ReadsBack) := by
  intro env retitled
  have hs : s.GraphSound env.tokens := h.sound.toGraphSound
  obtain ⟨content, hsound, hprinted⟩ := h.printed row hrow
  have hfound : s.nodeRow? row.publicId = some row := hs.nodeRow?_eq_some.mpr ⟨hrow, rfl⟩
  refine ⟨content, hsound, hprinted, row.value, _, _,
    Nodes.get_of_some hfound (hs.derived row hrow),
    Nodes.save_value env hs hrow { row.value with title } rfl (hs.references row hrow),
    Nodes.setTitle_of_some hs hfound title, Nodes.save_title hs hrow title, ?_⟩
  rw [Nodes.save_title hs hrow title]
  -- The row after its title has been written has the content it had before.
  have hretitled : retitled = s.changeNode row.publicId (NodeRow.retitled env title) :=
    Nodes.retitle_eq_changeNode hs hrow title
  have hthere : row.retitled env title ∈ retitled.nodes.rows := by
    rw [hretitled, rows_changeNode]
    exact List.mem_map.mpr ⟨row, hrow, if_pos rfl⟩
  have hgraph : retitled.GraphSound env.tokens := by
    rw [hretitled]
    refine hs.changeNode fun other hother _ => ⟨rfl, rfl, ?_, hs.references other hother⟩
    have hderived := hs.derived other hother
    exact ⟨hderived.kind, hderived.content, hderived.text, hderived.textTokens, rfl⟩
  have hiff := Nodes.changeNode_reprinted_eq_iff hgraph hthere
  have hcontent : (row.retitled env title).content = content.map Json.compact := hprinted
  rw [hcontent, rewritten_compact_eq_iff hsound] at hiff
  exact hiff

/-- A node with a content and a node below it. -/
def greeting : List (ℤ × Operation) :=
  [(1000, .upsert "x" .editor [] (some (.obj [("n", .float ⟨0x3ff8000000000000⟩),
      ("text", .str "hi"), ("type", .str "text")]))),
    (2000, .pass 1 false 60000),
    (2500, .upsert "x" .graph [] (some (.obj [("nodes", .arr [.str "y"])]))),
    (3000, .pass 1 false 60000)]

theorem Reachable.setTitle_eq_retitle_iff_greeting :
    let s := History.run String.length greeting {}
    let env : Env := { clock := 4000, tokens := String.length }
    Reachable String.length s ∧
      s.nodes.rows.map (fun row => (row.id, row.publicId, row.content)) =
        [(1, "x", some "\x7b\"n\":1.5,\"text\":\"hi\",\"type\":\"text\"\x7d"), (2, "y", none)] ∧
      ((Nodes.setTitle env "x" "T").outcome s).2.nodes.rows =
        (Nodes.retitle env 1 "T" s).nodes.rows ∧
      ∃ row ∈ s.nodes.rows, row.publicId = "x" ∧ ∃ content : Option Json,
        (∀ v ∈ content, v.Sound) ∧ row.content = content.map Json.compact ∧
        ∃ node saved t, Nodes.get row.publicId s = .ok (some node) s ∧
          Nodes.save env { node with title := "T" } s = .ok saved t ∧
          Nodes.setTitle env row.publicId "T" s = .ok saved t ∧
          t = (Nodes.retitle env row.id "T" s).changeNode row.publicId NodeRow.reprinted ∧
          (t = Nodes.retitle env row.id "T" s ↔ ∀ v ∈ content, v.ReadsBack) := by
  intro s env
  have hheld : ∀ entry ∈ greeting, entry.2.Held := by
    simp [greeting, Operation.Held]
  have hreachable : Reachable String.length s := Reachable.empty.run hheld
  obtain ⟨row, hrow, hkey⟩ := hasNode_iff.mp (by decide +kernel : s.hasNode "x" = true)
  exact ⟨hreachable, by decide +kernel, by decide +kernel, row, hrow, hkey,
    hreachable.setTitle_eq_retitle_iff 4000 hrow "T"⟩

/-- Of the two ways to a new title, the one that saves the whole node gives a content with a drifting
double another text. -/
theorem saving_title_changes_drifting :
    let s := History.run String.length
      [(1000, .upsert "x" .editor [] (some drifting)), (2000, .pass 1 false 60000)] {}
    let env : Env := { clock := 3000, tokens := String.length }
    Reachable String.length s ∧
      s.nodes.rows.map (fun row => (row.id, row.publicId, row.content)) =
        [(1, "x", some "4.214359928052123e+40")] ∧
      (Nodes.retitle env 1 "t" s).nodes.rows.map (fun row => (row.title, row.content)) =
        [("t", some "4.214359928052123e+40")] ∧
      ∃ node saved t, Nodes.get "x" s = .ok (some node) s ∧
        Nodes.save env { node with title := "t" } s = .ok saved t ∧
        t.nodes.rows.map (fun row => (row.title, row.content)) =
          [("t", some "4.2143599280521236e+40")] ∧
        t ≠ Nodes.retitle env 1 "t" s := by
  intro s env
  have hreachable : Reachable String.length s := Reachable.empty.run (by simp [Operation.Held])
  have hs : s.GraphSound env.tokens := hreachable.sound.toGraphSound
  obtain ⟨row, hrow, hkey⟩ := hasNode_iff.mp (by decide +kernel : s.hasNode "x" = true)
  have hfound : s.nodeRow? "x" = some row := hs.nodeRow?_eq_some.mpr ⟨hrow, hkey⟩
  have hshort : (Nodes.retitle env 1 "t" s).nodes.rows.map (fun row => (row.title, row.content)) =
      [("t", some "4.214359928052123e+40")] := by decide +kernel
  have hlong : ((Nodes.setTitle env "x" "t").outcome s).2.nodes.rows.map
      (fun row => (row.title, row.content)) = [("t", some "4.2143599280521236e+40")] := by
    decide +kernel
  rw [Command.outcome_of_ok (Nodes.setTitle_of_some hs hfound "t")] at hlong
  refine ⟨hreachable, by decide +kernel, hshort, row.value, _, _,
    Nodes.get_of_some hfound (hs.derived row hrow),
    Nodes.save_value env hs hrow { row.value with title := "t" } rfl (hs.references row hrow),
    hkey ▸ hlong, fun hsame => ?_⟩
  rw [hkey] at hsame
  rw [hsame, hshort] at hlong
  simp at hlong

end NodeGraph
