import NodeGraph.Proofs.Clock
import NodeGraph.Proofs.Converging
import NodeGraph.Proofs.Reading
import NodeGraph.Proofs.Reconcile.Crowds

/-!
Convergence: whatever has been written, deleted, tried and replayed, one more replay and one more
pass make the graph show every document as it is now, unless it lists more nodes of a space than a
statement can be given.
-/
namespace NodeGraph

open Store

/-! ### Histories -/

namespace Operation

/-- What is done where nothing but documents and spaces is written, every value can be held and
is read back as it was, and no pass is strict. -/
def Ordinary (op : Operation) : Prop :=
  op.Tame ∧ ∀ p type data json, op = upsert p type data json →
    ∀ v ∈ json, v.Sound ∧ v.ReadsBack

variable {env : Env} {s : Store} {now : ℤ}

theorem perform_converging (quiet : env.rivals = {}) {op : Operation} (hop : op.Ordinary)
    (hnow : now ≤ Clock.eventTime env.clock) (h : s.Converging env.tokens now)
    (hleases : s.leases = []) :
    (op.perform env s).Converging env.tokens (Clock.eventTime env.clock) := by
  obtain ⟨htame, hjson⟩ := hop
  have heffect := op.effect_perform quiet h.sound.toGraphSound
  generalize op.perform env s = t at heffect ⊢
  cases heffect with
  | nothing => exact h.mono hnow
  | upsert p type data json => exact h.upserted hnow p type data (hjson p type data json rfl)
  | @delete p type row hrow =>
    rw [← withoutDocument_of_some hrow]
    exact h.withoutDocument hnow p type
  | pass owner strict ttl =>
    obtain rfl : strict = false := htame
    have hstart : (Pass.leased env.now owner Lease.processing ttl s).Converging env.tokens now :=
      h.congr rfl rfl rfl rfl rfl rfl rfl
    have hdone := Pass.foldl_settle_induction quiet
      (fun _ _ _ he hfirst hP => hP.settledAs quiet he hfirst) hstart.sound hstart
    show ((pass owner false ttl).perform env s).Converging _ _
    rw [perform_pass hleases]
    apply Converging.mono _ hnow
    exact hdone.congr rfl rfl rfl rfl rfl rfl rfl
  | requeue => exact h.requeued.mono hnow
  | createSpace owner suffix hfree hslug => exact (h.addSpace hfree _ _ _).mono hnow
  | snapshot owner options time versions =>
    apply Converging.mono _ hnow
    exact h.congr rfl rfl rfl rfl rfl rfl rfl
  | _ => exact False.elim htame

end Operation

namespace History

variable {tokens : Tokenizer} {s : Store} {now : ℤ}

theorem converging_empty (now : ℤ) : Converging tokens now {} := by
  refine ⟨sound_empty tokens, ?_, ?_, ?_, ?_, ?_⟩
  all_goals exact fun _ h => absurd h List.not_mem_nil

/-- A history whose clock does not go back keeps the invariant, for any time after it. -/
theorem run_converging {history : List (ℤ × Operation)}
    (hordinary : ∀ entry ∈ history, entry.2.Ordinary) {time : ℤ}
    (hclock : (history.map Prod.fst ++ [time]).Pairwise (· ≤ ·)) :
    (run tokens history {}).Converging tokens (Clock.eventTime time) ∧
      (run tokens history {}).leases = [] := by
  induction history using List.reverseRecOn generalizing time with
  | nil => exact ⟨converging_empty _, rfl⟩
  | append_singleton history entry ih =>
    obtain ⟨hordinary, hlast⟩ := List.forall_mem_append.mp hordinary
    have hop : entry.2.Ordinary := hlast entry List.mem_cons_self
    rw [List.map_append, List.pairwise_append] at hclock
    obtain ⟨hbefore, -, hafter⟩ := hclock
    have hlater : entry.1 ≤ time :=
      hafter entry.1 (List.mem_append_right _ List.mem_cons_self) time List.mem_cons_self
    obtain ⟨hrun, hleases⟩ := ih hordinary hbefore
    have hquiet : ({ clock := entry.1, tokens } : Env).rivals = {} := rfl
    have hstep : (entry.2.perform { clock := entry.1, tokens } (run tokens history {})).Converging
        tokens (Clock.eventTime entry.1) :=
      Operation.perform_converging hquiet hop le_rfl hrun hleases
    unfold run at hstep hleases ⊢
    rw [List.foldl_append]
    exact ⟨hstep.mono (Clock.eventTime_mono hlater),
      Operation.leases_perform hquiet hop.1 hrun.sound hleases⟩

/-- A document that cannot be shown: its space is not there, or it lists more nodes than one
statement can make members. -/
def Excused (s : Store) (row : DocumentRow) : Prop :=
  row.type = DocumentType.space.name ∧ (s.space? row.publicId = none ∨
    ∃ data, decodePayload row.json = .ok (some data) ∧
      maxParameters < 2 * (Plan.titlesIn data).length)

theorem space?_settledAs_eq_none {env : Env} {e : QueuedEvent} (v : Verdict) {p : String}
    (hnone : s.space? p = none) : (Pass.settledAs env e s v).space? p = none := by
  cases v with
  | dropped => exact hnone
  | buried fault => exact hnone
  | carried plan => exact Reconcile.space?_carriedOut_eq_none hnone

/-- The last event of a document fails only if the document cannot be shown. -/
theorem excused_of_buried {env : Env} {e : QueuedEvent} {fault : Fault}
    (h : s.Converging env.tokens now) (he : e ∈ s.queue.rows) {row : DocumentRow}
    (hkey : e.key = row.key) (hdata : e.newData = row.json)
    (hverdict : e.verdict s = .buried fault) : Excused s row := by
  obtain ⟨hnamed, hold, hnew, -⟩ := h.events e he
  obtain ⟨event, hevent, hback⟩ := QueuedEvent.decode_of_written hnamed hold hnew
  rcases e.verdict_of_decode hevent s with ⟨fault', hobstacle, -⟩ | ⟨-, hcarried⟩
  · obtain ⟨hspaceType, hobstructed⟩ := Plan.obstacle?_ofEvent hobstacle
    obtain ⟨htypeName, -⟩ := QueuedEvent.names_of_decode hevent
    obtain ⟨-, -, hnewData, -, heventId, -⟩ := QueuedEvent.decode_eq_ok.mp hevent
    obtain ⟨hid, htype⟩ := Prod.mk.inj hkey
    refine ⟨htype.symm.trans (htypeName.symm.trans (congrArg _ hspaceType)), ?_⟩
    rw [← hid, ← hdata, ← heventId]
    cases hobstructed with
    | lacking hnone => exact Or.inl hnone
    | overfull space _ data hvalue hfits =>
      right
      refine ⟨data, hvalue ▸ hnewData, ?_⟩
      by_contra hshort
      have hkeys := (Plan.titlesIn_sorted (hback data hvalue).1.ordered).nodup_keys
      rw [Reconcile.fits_of_short h.sound.toGraphSound hkeys (Nat.le_of_not_lt hshort)] at hfits
      exact nomatch hfits
  · rw [hverdict] at hcarried
    exact nomatch hcarried

/-- A pass without a rival completes and leaves nothing queued. What every event preserves, whatever
the leases are, holds after it. -/
theorem exists_pass {env : Env} {P : Store → Prop} (quiet : env.rivals = {})
    (hleased : ∀ s leases, P s → P { s with leases })
    (hstep : ∀ s e, s.Converging env.tokens now → e ∈ s.queue.rows →
      (∀ other ∈ s.queue.rows, stampLe e.stamp other.stamp = true) → P s →
      P (Pass.settledAs env e s (e.verdict s)))
    (h : s.Converging env.tokens now) (hleases : s.leases = []) (hP : P s) (owner : ℕ) (ttl : ℤ) :
    ∃ tally t, Pass.run env owner false ttl s = .ok (.completed tally) t ∧
      t.Converging env.tokens now ∧ t.queue.rows = [] ∧ P t := by
  obtain ⟨tally, hrun⟩ := Operation.run_of_noLeases env hleases owner ttl
  have hstart : (Pass.leased env.now owner Lease.processing ttl s).Converging env.tokens now :=
    h.congr rfl rfl rfl rfl rfl rfl rfl
  obtain ⟨hdone, hholds⟩ := Pass.foldl_settle_induction quiet
    (P := fun t => t.Converging env.tokens now ∧ P t)
    (fun t e _ he hfirst ht => ⟨ht.1.settledAs quiet he hfirst, hstep t e ht.1 he hfirst ht.2⟩)
    hstart.sound ⟨hstart, hleased _ _ hP⟩
  have hempty : (s.pending.foldl (Pass.settle env)
      (Pass.leased env.now owner Lease.processing ttl s)).queue.rows = [] :=
    Pass.queue_settled quiet hstart.sound fun e he => Pass.mem_pending.mpr he
  exact ⟨tally, _, hrun, hdone.congr rfl rfl rfl rfl rfl rfl rfl, hempty, hleased _ _ hholds⟩

/-- After one more replay and one more pass every document is shown unless it cannot be. -/
theorem presents_of_converging {env : Env} (quiet : env.rivals = {})
    (h : s.Converging env.tokens now) (hleases : s.leases = []) (owner : ℕ) (ttl : ℤ) :
    ∃ tally t, Pass.run env owner false ttl s.requeued = .ok (.completed tally) t ∧
      t.Converging env.tokens now ∧ ∀ row ∈ t.documents.rows, Excused t row ∨ t.Presents row := by
  -- The replay has left no failures, and those that are added from here on are excused.
  have hsettled : ∀ row ∈ s.requeued.documents.rows,
      s.requeued.Settled row (Excused s.requeued row) := by
    intro row hrow
    refine (h.requeued.settled row hrow).imp_right (And.imp_right (Or.imp_left ?_))
    rintro ⟨letter, hletter, -⟩
    exact absurd hletter List.not_mem_nil
  obtain ⟨tally, t, hrun, ht, hempty, hrows⟩ := exists_pass quiet
    (P := fun t => ∀ row ∈ t.documents.rows, t.Settled row (Excused t row)) (fun _ _ hrows => hrows)
    (fun t e ht he hfirst hrows row hrow => by
      rw [documents_settledAs] at hrow
      have hstill : Excused t row → Excused (Pass.settledAs env e t (e.verdict t)) row :=
        And.imp_right (Or.imp_left (space?_settledAs_eq_none _))
      exact settled_settledAs quiet ht he hfirst hrow hstill
        (fun fault hkey hdata hverdict => hstill (excused_of_buried ht he hkey hdata hverdict))
        (hrows row hrow)) h.requeued hleases hsettled owner ttl
  refine ⟨tally, t, hrun, ht, fun row hrow => ?_⟩
  rcases hrows row hrow with ⟨e, he, -⟩ | ⟨-, hstands⟩
  · rw [hempty] at he
    exact absurd he List.not_mem_nil
  · exact hstands

/-- A document that is found can be read, and the graph shows it unless it cannot be shown. -/
theorem shows_of_found {t : Store} (h : t.Converging tokens now)
    (hpresents : ∀ row ∈ t.documents.rows, Excused t row ∨ t.Presents row)
    {p : String} {type : DocumentType} {row : DocumentRow}
    (hfound : t.document? p type.name = some row) :
    ∃ document, Documents.get p type t = .ok (some document) t ∧
      (t.Shows p document.id type document.json ∨ type = .space ∧ (t.space? p = none ∨
        ∃ data, document.json = some data ∧
          maxParameters < 2 * (Plan.titlesIn data).length)) := by
  obtain ⟨hrow, rfl, htype⟩ := h.sound.document?_eq_some.mp hfound
  obtain ⟨document, hdocument, rfl⟩ :=
    DocumentRow.decode_of_written htype (h.documents row hrow).2
  refine ⟨document, get_document hfound hdocument, ?_⟩
  obtain ⟨-, hid, -, hjson⟩ := DocumentRow.decode_eq_ok hdocument
  rcases hpresents row hrow with ⟨hspace, hexcuse⟩ | hshown
  · right
    refine ⟨DocumentType.name_injective (htype.symm.trans hspace), hexcuse.imp_right ?_⟩
    rintro ⟨data, hdata, hmany⟩
    exact ⟨data, Except.ok.inj (hjson.symm.trans hdata), hmany⟩
  · left
    rw [← hid]
    exact hshown document hdocument

/-- Every editor document is the content of the node of its public id, which refers to it. -/
def EditorsShown (t : Store) : Prop :=
  ∀ p row, t.document? p DocumentType.editor.name = some row →
    ∃ document node, Documents.get p .editor t = .ok (some document) t ∧
      Nodes.get p t = .ok (some node) t ∧
      node.content = document.json.bind Reconcile.contentOf ∧
      node.editorDocument = some document.id

/-- Every space has the nodes that its document lists as its members, and no others, unless there
are more of them than one statement can add. -/
def SpacesShown (t : Store) : Prop :=
  ∀ p row space, t.document? p DocumentType.space.name = some row → t.space? p = some space →
    ∃ document, Documents.get p .space t = .ok (some document) t ∧
      ∀ data, document.json = some data → 2 * (Plan.titlesIn data).length ≤ maxParameters →
        ∃ nodes, Spaces.nodes p t = .ok nodes t ∧
          ∀ q, q ∈ nodes.map (·.publicId) ↔ q ∈ (Plan.titlesIn data).keys

/-- Every child that a graph document lists is below the node of its public id. -/
def GraphsShown (t : Store) : Prop :=
  ∀ p type row, type = .graph ∨ type = .methodGraph → t.document? p type.name = some row →
    ∃ document, Documents.get p type t = .ok (some document) t ∧
      ∀ child ∈ Plan.childrenIn document.json, child ≠ p →
        ∃ nodes, Nodes.below p t = .ok nodes t ∧ child ∈ nodes.map (·.publicId)

/-- Take any history of document writes, new spaces, passes, replays and snapshots whose clock does
not go back. After one more replay, one more pass completes and every document is shown, but for
listings of a space that no statement can be given. -/
theorem converges (tokens : Tokenizer) (history : List (ℤ × Operation))
    (hordinary : ∀ entry ∈ history, entry.2.Ordinary)
    (hclock : (history.map Prod.fst).Pairwise (· ≤ ·)) (replayTime passTime : ℤ) (owner : ℕ)
    (ttl : ℤ) :
    ∃ tally t, Pass.run { clock := passTime, tokens } owner false ttl
        (Operation.requeue.perform { clock := replayTime, tokens } (run tokens history {})) =
          .ok (.completed tally) t ∧
      EditorsShown t ∧ SpacesShown t ∧ GraphsShown t := by
  obtain ⟨time, htime⟩ := Finset.exists_le (history.map Prod.fst).toFinset
  have hend : (history.map Prod.fst ++ [time]).Pairwise (· ≤ ·) :=
    List.pairwise_append.mpr ⟨hclock, List.pairwise_singleton _ _, by simpa using htime⟩
  obtain ⟨hrun, hleases⟩ := run_converging hordinary hend
  have hquiet : ({ clock := passTime, tokens } : Env).rivals = {} := rfl
  obtain ⟨tally, t, hpass, ht, hpresents⟩ := presents_of_converging hquiet hrun hleases owner ttl
  have hgraph : t.GraphSound tokens := ht.sound.toGraphSound
  refine ⟨tally, t, hpass, ?_, ?_, ?_⟩
  · intro p row hfound
    obtain ⟨document, hget, hshows | ⟨hspace, -⟩⟩ := shows_of_found ht hpresents hfound
    · obtain ⟨node, hnode, hkey, hcontent, heditor⟩ := hshows
      refine ⟨document, node.value, hget, ?_, hcontent, heditor⟩
      exact Nodes.get_of_some (hgraph.nodeRow?_eq_some.mpr ⟨hnode, hkey⟩) (hgraph.derived node hnode)
    · exact nomatch hspace
  · intro p row space hfound hspace
    obtain ⟨document, hget, hshows | ⟨-, hexcuse⟩⟩ := shows_of_found ht hpresents hfound
    · refine ⟨document, hget, fun data hdata _ => ?_⟩
      obtain ⟨nodes, hnodes, hmembers⟩ := nodes_eq_ok hgraph hspace
      rw [hdata] at hshows
      exact ⟨nodes, hnodes, fun q => (hmembers q).trans (hshows.2 q)⟩
    · refine ⟨document, hget, fun data hdata hshort => ?_⟩
      rcases hexcuse with hnone | ⟨other, hother, hmany⟩
      · rw [hspace] at hnone
        exact nomatch hnone
      · obtain rfl := Option.some.inj (hdata.symm.trans hother)
        exact absurd hshort (Nat.not_le.mpr hmany)
  · intro p type row htype hfound
    obtain ⟨document, hget, hshows | ⟨hspace, -⟩⟩ := shows_of_found ht hpresents hfound
    · refine ⟨document, hget, fun child hchild hne => ?_⟩
      have hisChild : t.IsChild p child := by
        rcases htype with rfl | rfl <;> exact hshows child hchild hne
      obtain ⟨node, hnode, hkey, hrest⟩ := hisChild
      obtain ⟨nodes, hnodes, hchildren⟩ :=
        below_eq_ok hgraph (hgraph.nodeRow?_eq_some.mpr ⟨hnode, hkey⟩)
      exact ⟨nodes, hnodes, (hchildren child).mpr ⟨node, hnode, hkey, hrest⟩⟩
    · rcases htype with rfl | rfl <;> exact nomatch hspace

/-- A space document is tried before its space is there, and an editor document is rewritten. -/
def lateSpace : List (ℤ × Operation) :=
  [(1000, .upsert "s" .space [] (some (.obj [("nodes", .obj [("a", .obj [("title", .str "A")])])]))),
    (2000, .pass 1 false 60000), (3000, .createSpace "s" "S" none fun _ => ""),
    (4000, .upsert "a" .editor [] (some (.str "x"))), (4000, .upsert "a" .editor [] (some .null)),
    (5000, .upsert "a" .graph [] (some (.obj [("nodes", .arr [.str "b"])])))]

theorem converges_lateSpace :
    (∀ entry ∈ lateSpace, entry.2.Ordinary) ∧ (lateSpace.map Prod.fst).Pairwise (· ≤ ·) ∧
      ∃ tally t, Pass.run { clock := 7000, tokens := String.length } 2 false 60000
          (Operation.requeue.perform { clock := 6000, tokens := String.length }
            (run String.length lateSpace {})) = .ok (.completed tally) t ∧
        EditorsShown t ∧ SpacesShown t ∧ GraphsShown t := by
  have hordinary : ∀ entry ∈ lateSpace, entry.2.Ordinary := by
    simp only [lateSpace, List.forall_mem_cons, Operation.Ordinary, Operation.Tame, List.not_mem_nil,
      IsEmpty.forall_iff, implies_true, and_true, true_and, Operation.upsert.injEq, and_imp,
      reduceCtorEq]
    refine ⟨?_, ?_, ?_, ?_⟩
    all_goals
      rintro p type data json rfl rfl rfl rfl v hv
      obtain rfl := Option.some.inj hv
      refine ⟨⟨?_, rfl, by decide⟩, ?_⟩
      · simp [Json.Fits, Json.FitsFields, Json.FitsItems]
      · simp [Json.ReadsBack, Json.floats, Json.floatsOfFields, Json.floatsOfItems]
  have hclock : (lateSpace.map Prod.fst).Pairwise (· ≤ ·) := by decide
  exact ⟨hordinary, hclock, converges String.length lateSpace hordinary hclock 6000 7000 2 60000⟩

/-! ### A space that is never shown -/

/-- A space without nodes, whose document lists so many; only such listings are queued. -/
structure Thronged (n : ℕ) (s : Store) : Prop where
  nodes : s.nodes.rows = []
  space : ∃ space, s.space? "s" = some space
  document : ∃ row, s.document? "s" DocumentType.space.name = some row ∧
    row.json = some (crowdListing n).compact
  events : ∀ e ∈ s.queue.rows, e.publicId = "s" ∧ e.type = DocumentType.space.name ∧
    e.action = Action.insert.name ∧ e.oldData = none ∧ e.newData = some (crowdListing n).compact

/-- Every listing fails and is set aside. -/
theorem Thronged.settledAs {env : Env} {n : ℕ} {e : QueuedEvent} (h : Thronged n s)
    (hs : s.GraphSound tokens) (hn : n ≤ crowdLimit) (hmany : maxParameters < 2 * n)
    (he : e ∈ s.queue.rows) : Thronged n (Pass.settledAs env e s (e.verdict s)) := by
  obtain ⟨hid, htype, haction, hold, hnew⟩ := h.events e he
  obtain ⟨space, hspace⟩ := h.space
  have hkinds : e.kinds = .ok (.space, .insert) := QueuedEvent.kinds_of_isNamed htype haction
  have hvalue : decodePayload e.newData = .ok (some (crowdListing n)) := by
    have hsound : ∀ v ∈ some (crowdListing n), v.Sound ∧ v.ReadsBack := by
      rintro v ⟨⟩
      exact ⟨sound_crowdListing hn, readsBack_crowdListing n⟩
    rw [hnew]
    refine (decodePayload_compact fun v hv => (hsound v hv).1).trans ?_
    rw [map_reread_of_readsBack hsound]
  have hevent : e.decode = .ok ⟨e.id, "s", .space, .insert, none, some (crowdListing n),
      e.createdAt⟩ := by
    refine QueuedEvent.decode_eq_ok.mpr ⟨hkinds, ?_, hvalue, rfl, hid.symm, rfl⟩
    rw [hold]
    rfl
  have hobstacle : (Plan.space "s" (Plan.titlesIn (crowdListing n))).obstacle? s =
      some .tooManyParameters := by
    rw [titlesIn_crowdListing]
    exact Plan.obstacle?_of_no_nodes hs hspace (nodup_keys_crowd hn) h.nodes
      (by rwa [length_crowd])
  rcases e.verdict_of_decode hevent s with ⟨fault, -, hverdict⟩ | ⟨hnone, -⟩
  · rw [hverdict]
    exact ⟨h.nodes, h.space, h.document, fun other hother => h.events other
      (List.mem_filter.mp hother).1⟩
  · cases hobstacle.symm.trans hnone

theorem Thronged.congr {n : ℕ} {t : Store} (h : Thronged n s) (hnodes : t.nodes = s.nodes)
    (hspaces : t.spaces = s.spaces) (hdocuments : t.documents = s.documents)
    (hqueue : t.queue.rows = s.queue.rows) : Thronged n t := by
  refine ⟨hnodes ▸ h.nodes, ?_, ?_, hqueue ▸ h.events⟩
  · unfold space?
    rw [hspaces]
    exact h.space
  · unfold document?
    rw [hdocuments]
    exact h.document

/-- Where nothing has failed, a replay adds nothing. -/
theorem Thronged.requeued {n : ℕ} (h : Thronged n s) (hletters : s.deadLetters.rows = []) :
    Thronged n s.requeued := by
  refine h.congr rfl rfl rfl ?_
  have hnone : Queue.latestFailures s.deadLetters.rows = [] := by
    rw [hletters]
    simp [Queue.latestFailures]
  unfold Store.requeued
  rw [hnone]
  rfl

/-- A space is made and a document of it written that lists so many nodes. -/
def crowdedDocument (n : ℕ) : List (ℤ × Operation) :=
  [(1000, .createSpace "s" "S" none fun _ => ""),
    (2000, .upsert "s" .space [] (some (crowdListing n)))]

theorem ordinary_crowdedDocument {n : ℕ} (h : n ≤ crowdLimit) :
    ∀ entry ∈ crowdedDocument n, entry.2.Ordinary := by
  simp only [crowdedDocument, List.forall_mem_cons, Operation.Ordinary, Operation.Tame,
    List.not_mem_nil, IsEmpty.forall_iff, implies_true, and_true, true_and,
    Operation.upsert.injEq, and_imp, reduceCtorEq]
  rintro p type data json rfl rfl rfl rfl v hv
  obtain rfl := Option.some.inj hv
  exact ⟨sound_crowdListing h, readsBack_crowdListing n⟩

theorem thronged_crowdedDocument (n : ℕ) :
    Thronged n (run String.length (crowdedDocument n) {}) ∧
      (run String.length (crowdedDocument n) {}).deadLetters.rows = [] := by
  set s := run String.length [(1000, .createSpace "s" "S" none fun _ => "")] {} with hs
  have hrun : run String.length (crowdedDocument n) {} =
      s.upserted { clock := 2000, tokens := String.length } "s" .space []
        (some (crowdListing n)) := Documents.upsert_outcome [] (some (crowdListing n))
  have hnone : s.document? "s" DocumentType.space.name = none := by decide +kernel
  have hqueue : s.queue.rows = [] := by decide +kernel
  obtain ⟨hnodes, -, hspaces, -, hletters, -⟩ := upserted_frame
    { clock := 2000, tokens := String.length } s "s" .space [] (some (crowdListing n))
  rw [hrun]
  refine ⟨⟨?_, ?_, ?_, ?_⟩, ?_⟩
  · rw [hnodes]
    decide +kernel
  · unfold space?
    rw [hspaces]
    exact Option.isSome_iff_exists.mp (by decide +kernel)
  · exact ⟨_, document?_upserted_of_none hnone [] (some (crowdListing n)), rfl⟩
  · intro e he
    rw [queue_upserted_of_none hnone, Table.rows_add, hqueue, List.nil_append] at he
    obtain rfl := List.mem_singleton.mp he
    exact ⟨rfl, rfl, rfl, rfl, rfl⟩
  · rw [hletters]
    decide +kernel

/-- After a replay and a pass the document is as it was, and the space without nodes. -/
theorem unshown_crowdedDocument {n : ℕ} (hn : n ≤ crowdLimit) (hmany : maxParameters < 2 * n) :
    ∃ tally t row nodes, Pass.run { clock := 4000, tokens := String.length } 1 false 60000
        (Operation.requeue.perform { clock := 3000, tokens := String.length }
          (run String.length (crowdedDocument n) {})) = .ok (.completed tally) t ∧
      t.document? "s" DocumentType.space.name = some row ∧
      row.json = some (crowdListing n).compact ∧ (t.space? "s").isSome ∧
      Spaces.nodes "s" t = .ok nodes t ∧ ∀ q, q ∉ nodes.map (·.publicId) := by
  have hclock : ((crowdedDocument n).map Prod.fst ++ [3000]).Pairwise (· ≤ ·) := by
    simp [crowdedDocument]
  have hrun : (run String.length (crowdedDocument n) {}).Converging String.length
      (Clock.eventTime 3000) ∧ (run String.length (crowdedDocument n) {}).leases = [] :=
    run_converging (ordinary_crowdedDocument hn) hclock
  have hcrowded := thronged_crowdedDocument n
  generalize run String.length (crowdedDocument n) {} = s at hrun hcrowded
  obtain ⟨hconverging, hleases⟩ := hrun
  obtain ⟨hthronged, hletters⟩ := hcrowded
  have hquiet : ({ clock := 4000, tokens := String.length } : Env).rivals = {} := rfl
  obtain ⟨tally, t, hpass, ht, -, hstill⟩ := exists_pass hquiet
    (fun _ _ hs => hs.congr rfl rfl rfl rfl)
    (fun _ _ hs he _ hthronged => hthronged.settledAs hs.sound.toGraphSound hn hmany he)
    hconverging.requeued hleases (hthronged.requeued hletters) 1 60000
  obtain ⟨row, hrow, hjson⟩ := hstill.document
  obtain ⟨space, hspace⟩ := hstill.space
  obtain ⟨nodes, hnodes, hmembers⟩ := nodes_eq_ok ht.sound.toGraphSound hspace
  refine ⟨tally, t, row, nodes, hpass, hrow, hjson, Option.isSome_of_eq_some hspace, hnodes,
    fun q hq => ?_⟩
  obtain ⟨-, -, -, node, hnode, -⟩ := (hmembers q).mp hq
  rw [hstill.nodes] at hnode
  exact List.not_mem_nil hnode

/-- A document that lists one new node more than a statement can be given: after a replay and a pass
the space has none of them. -/
theorem unshown_crowd :
    (∀ entry ∈ crowdedDocument 16384, entry.2.Ordinary) ∧
      ((crowdedDocument 16384).map Prod.fst).Pairwise (· ≤ ·) ∧
      ∃ tally t row nodes, Pass.run { clock := 4000, tokens := String.length } 1 false 60000
          (Operation.requeue.perform { clock := 3000, tokens := String.length }
            (run String.length (crowdedDocument 16384) {})) = .ok (.completed tally) t ∧
        t.document? "s" DocumentType.space.name = some row ∧
        row.json = some (crowdListing 16384).compact ∧ (t.space? "s").isSome ∧
        crowdKey 0 ∈ (Plan.titlesIn (crowdListing 16384)).keys ∧
        Spaces.nodes "s" t = .ok nodes t ∧ crowdKey 0 ∉ nodes.map (·.publicId) := by
  have hlimit : 16384 ≤ crowdLimit := by decide
  have hlisted : crowdKey 0 ∈ (Plan.titlesIn (crowdListing 16384)).keys := by
    rw [titlesIn_crowdListing]
    exact mem_keys_crowd (by decide)
  obtain ⟨tally, t, row, nodes, hpass, hrow, hjson, hspace, hnodes, hnone⟩ :=
    unshown_crowdedDocument hlimit (by decide)
  refine ⟨ordinary_crowdedDocument hlimit, ?_, tally, t, row, nodes, hpass, hrow, hjson, hspace,
    hlisted, hnodes, hnone _⟩
  simp [crowdedDocument]

end History

end NodeGraph
