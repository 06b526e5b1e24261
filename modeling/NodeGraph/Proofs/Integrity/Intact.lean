import NodeGraph.Proofs.Integrity.Pairs
import NodeGraph.Proofs.Integrity.References

/-!
Integrity: in whatever order operations of the program follow one another, keys are not repeated,
references lead to the rows that they should, and no id is given twice.
-/
namespace NodeGraph

open Store

namespace Store

variable {tokens : Tokenizer} {s t u : Store}

/-- Keys are not repeated, every reference leads to a row, and it is a row that may be referred
to. -/
structure Intact (tokens : Tokenizer) (s : Store) : Prop extends Sound tokens s, Tidy s,
    Referred s where
  versionIds : s.versions.Numbered (·.id)

/-- In every table the ids that `s` has given so far belong to the same rows in `t`, or to none if
`s` has lost the row or `t` has. -/
structure Continued (s t : Store) : Prop where
  documents : s.documents.Continues (·.id) (fun row => (row.publicId, row.type, row.createdAt))
    t.documents
  queue : s.queue.Continues (·.id) (fun event => event) t.queue
  deadLetters : s.deadLetters.Continues (·.id) (fun letter => letter) t.deadLetters
  versions : s.versions.Continues (·.id) (fun version => version) t.versions
  nodes : s.nodes.Continues (·.id) (·.publicId) t.nodes
  spaces : s.spaces.Continues (·.id) (fun space => (space.publicId, space.slug)) t.spaces

theorem Continued.refl (s : Store) : Continued s s :=
  ⟨.refl _, .refl _, .refl _, .refl _, .refl _, .refl _⟩

theorem Continued.trans (h : Continued s t) (h' : Continued t u) : Continued s u :=
  ⟨h.documents.trans h'.documents, h.queue.trans h'.queue, h.deadLetters.trans h'.deadLetters,
    h.versions.trans h'.versions, h.nodes.trans h'.nodes, h.spaces.trans h'.spaces⟩

theorem intact_empty (tokens : Tokenizer) : Intact tokens {} where
  toSound := sound_empty tokens
  toTidy := tidy_empty
  toReferred := referred_empty
  versionIds := Table.numbered_empty

/-- A document that is written again keeps its id and its key. -/
theorem documents_upserted (h : s.Sound tokens) (env : Env) (p : String) (type : DocumentType)
    (data : List UInt8) (json : Option Json) :
    s.documents.Continues (·.id) (fun row => (row.publicId, row.type, row.createdAt))
      (s.upserted env p type data json).documents := by
  unfold upserted
  split
  · exact Table.continues_of_append rfl rfl rfl
  · rename_i old hold
    have hmem : old ∈ s.documents.rows := List.mem_of_find?_eq_some hold
    refine Table.continues_skipId.trans (Table.continues_of_keys rfl ?_)
    show ((s.documents.rows.map fun row =>
      if decide (row.id = old.id) = true then _ else row).map _) = s.documents.rows.map _
    rw [List.map_map]
    refine List.map_congr_left fun row hrow => ?_
    rw [Function.comp_apply]
    split
    · rename_i heq
      rw [h.documentIds.eq_of_id_eq hrow hmem (of_decide_eq_true heq)]
    · rfl

end Store

variable {tokens : Tokenizer} {s t : Store}

theorem Change.versionIds (hchange : Change tokens s t) (h : s.versions.Numbered (·.id)) :
    t.versions.Numbered (·.id) := by
  cases hchange with
  | version now hrow hash => exact h.add rfl
  | upsert clock p type data json =>
    rw [(upserted_records { clock, tokens } s p type data json).1]
    exact h
  | delete clock row => exact h.keep _
  | carry clock hdata =>
    rw [(Reconcile.sameRecords_carriedOut { clock, tokens } s _).versions]
    exact h
  | edit hedited =>
    obtain ⟨p, f, -, rfl⟩ := hedited
    exact h
  | _ => exact h

/-- A change gives ids above all that were given, and changes no row into another. -/
theorem Change.continued (h : s.Sound tokens) (hchange : Change tokens s t) : Continued s t := by
  obtain ⟨-, hnodes, hspaces, -⟩ := hchange.persists
  cases hchange with
  | queue hid => exact ⟨.refl _, Table.continues_add (hid _), .refl _, .refl _, hnodes, hspaces⟩
  | claim id => exact ⟨.refl _, Table.continues_keep _, .refl _, .refl _, hnodes, hspaces⟩
  | bury now e fault =>
    exact ⟨.refl _, .refl _, Table.continues_of_append rfl rfl rfl, .refl _, hnodes, hspaces⟩
  | forget =>
    have hletters : ∀ letter ∈ ([] : List DeadLetter), letter ∈ s.deadLetters.rows :=
      fun _ hletter => absurd hletter List.not_mem_nil
    exact ⟨.refl _, .refl _, Table.continues_of_subset le_rfl hletters, .refl _, hnodes, hspaces⟩
  | version now hrow hash =>
    exact ⟨.refl _, .refl _, .refl _, Table.continues_of_append rfl rfl rfl, hnodes, hspaces⟩
  | upsert clock p type data json =>
    obtain ⟨-, -, -, -, hletters, -⟩ := upserted_frame { clock, tokens } s p type data json
    obtain ⟨action, oldData, -, -, hqueue⟩ := queue_upserted { clock, tokens } s p type data json
    obtain ⟨hversions, -⟩ := upserted_records { clock, tokens } s p type data json
    refine ⟨documents_upserted h _ p type data json, ?_, Table.continues_of_eq hletters,
      Table.continues_of_eq hversions, hnodes, hspaces⟩
    rw [hqueue]
    exact Table.continues_add rfl
  | delete clock row =>
    exact ⟨Table.continues_keep _, Table.continues_of_append rfl rfl rfl, .refl _,
      Table.continues_keep _, hnodes, hspaces⟩
  | carry clock hdata =>
    obtain ⟨hdocuments, hqueue, hletters, hversions, -⟩ :=
      Reconcile.sameRecords_carriedOut { clock, tokens } s (Plan.ofEvent _)
    exact ⟨Table.continues_of_eq hdocuments, Table.continues_of_eq hqueue,
      Table.continues_of_eq hletters, Table.continues_of_eq hversions, hnodes, hspaces⟩
  | edit hedited =>
    obtain ⟨p, f, -, rfl⟩ := hedited
    exact ⟨.refl _, .refl _, .refl _, .refl _, hnodes, hspaces⟩
  | _ => exact ⟨.refl _, .refl _, .refl _, .refl _, hnodes, hspaces⟩

/-- Every change keeps a store intact and continues it. -/
theorem Change.integrity (hchange : Change tokens s t) (h : s.Intact tokens) :
    t.Intact tokens ∧ Continued s t :=
  ⟨{ toSound := hchange.sound h.toSound
     toTidy := hchange.tidy h.toSound h.toTidy
     toReferred := hchange.referred h.toSound h.toReferred
     versionIds := hchange.versionIds h.versionIds }, hchange.continued h.toSound⟩

theorem Changes.integrity (h : Changes tokens s t) (hs : s.Intact tokens) :
    t.Intact tokens ∧ Continued s t := by
  induction h with
  | refl => exact ⟨hs, .refl s⟩
  | tail _ hchange ih =>
    obtain ⟨hintact, hcontinued⟩ := hchange.integrity ih.1
    exact ⟨hintact, ih.2.trans hcontinued⟩

theorem moves_run {history : List (ℤ × Operation)} (h : ∀ entry ∈ history, entry.2.Guarded) :
    Relation.ReflTransGen (Moves tokens) s (History.run tokens history s) := by
  induction history generalizing s with
  | nil => exact .refl
  | cons entry rest ih =>
    exact (Relation.ReflTransGen.single (.perform entry.1 (h entry List.mem_cons_self))).trans
      (ih fun other hother => h other (List.mem_cons_of_mem entry hother))

/-- Whatever the program does to an empty store leaves it intact, at any time; and whatever it does
then keeps the ids given so far to the rows that have them: an id is never given to another row,
and never again once its row is gone. -/
theorem Moves.integrity_preserved (hs : Relation.ReflTransGen (Moves tokens) {} s)
    (ht : Relation.ReflTransGen (Moves tokens) s t) :
    s.Intact tokens ∧ t.Intact tokens ∧ Continued s t := by
  have hrun : ∀ {u v : Store}, u.Intact tokens → Relation.ReflTransGen (Moves tokens) u v →
      v.Intact tokens ∧ Continued u v := by
    intro u v hu hmoves
    induction hmoves with
    | refl => exact ⟨hu, .refl u⟩
    | tail _ hmove ih =>
      obtain ⟨hintact, hcontinued⟩ := (hmove.changes ih.1.toSound).integrity ih.1
      exact ⟨hintact, ih.2.trans hcontinued⟩
  obtain ⟨hintact, -⟩ := hrun (intact_empty tokens) hs
  exact ⟨hintact, hrun hintact ht⟩

/-- The document of a node is written and versioned. -/
def versioned : List (ℤ × Operation) :=
  [(1000, .upsert "n" .editor [] (some (.obj []))), (2000, .pass 1 false 60000),
    (3000, .snapshot 1 { interval := 0, lookback := 60000, leaseTtl := 60000 } 3000)]

/-- The document is deleted and another one written in its place. -/
def recreated : List (ℤ × Operation) :=
  [(4000, .delete "n" .editor), (5000, .pass 1 false 60000),
    (6000, .upsert "n" .editor [] (some (.obj []))), (7000, .pass 1 false 60000)]

theorem Moves.integrity_recreated :
    let s := History.run String.length versioned {}
    let t := History.run String.length recreated s
    (s.nodes.rows.map (·.editorDocument) = [some 1] ∧ s.versions.rows.map (·.documentId) = [1]) ∧
      (t.nodes.rows.map (·.editorDocument) = [some 2] ∧ t.versions.rows.map (·.documentId) = []) ∧
      Relation.ReflTransGen (Moves String.length) {} s ∧
      Relation.ReflTransGen (Moves String.length) s t ∧
      s.Intact String.length ∧ t.Intact String.length ∧ Continued s t := by
  intro s t
  have hs : Relation.ReflTransGen (Moves String.length) {} s :=
    moves_run fun entry hentry => by
      simp only [versioned, List.mem_cons, List.not_mem_nil, or_false] at hentry
      rcases hentry with rfl | rfl | rfl <;> trivial
  have ht : Relation.ReflTransGen (Moves String.length) s t :=
    moves_run fun entry hentry => by
      simp only [recreated, List.mem_cons, List.not_mem_nil, or_false] at hentry
      rcases hentry with rfl | rfl | rfl | rfl <;> trivial
  exact ⟨by decide +kernel, by decide +kernel, hs, ht, integrity_preserved hs ht⟩

end NodeGraph
