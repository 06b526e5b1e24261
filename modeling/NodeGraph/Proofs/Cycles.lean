import NodeGraph.Proofs.Deeds
import Mathlib.Logic.Relation

/-!
Cycles of edges: a node is never below itself directly, but a longer circle of edges is stored
whenever the events that were handled list one.
-/
namespace NodeGraph

open Store

namespace Store

variable {tokens : Tokenizer} {s : Store}

/-- The edges lead from some node back to it. -/
def HasCycle (s : Store) : Prop :=
  ∃ id, Relation.TransGen (fun i j => (i, j) ∈ s.edges) id id

theorem hasCycle_of_both {a b : ℤ} (h : (a, b) ∈ s.edges) (h' : (b, a) ∈ s.edges) : s.HasCycle :=
  ⟨a, .tail (.single h) h'⟩

theorem GraphSound.transGen_isChild (h : s.GraphSound tokens) {i j : ℤ}
    (hpath : Relation.TransGen (fun i j => (i, j) ∈ s.edges) i j) :
    ∃ a ∈ s.nodes.rows, a.id = i ∧ ∃ b ∈ s.nodes.rows, b.id = j ∧
      Relation.TransGen s.IsChild a.publicId b.publicId := by
  induction hpath with
  | single hedge =>
    obtain ⟨a, ha, haid, b, hb, hbid, hbelow⟩ := h.isChild_of_edge hedge
    exact ⟨a, ha, haid, b, hb, hbid, .single hbelow⟩
  | tail _ hedge ih =>
    obtain ⟨a, ha, haid, b, hb, hbid, hpath⟩ := ih
    obtain ⟨b', hb', hbid', c, hc, hcid, hbelow⟩ := h.isChild_of_edge hedge
    obtain rfl := h.nodeIds.eq_of_id_eq hb' hb (hbid'.trans hbid.symm)
    exact ⟨a, ha, haid, c, hc, hcid, hpath.tail hbelow⟩

theorem GraphSound.transGen_edges (h : s.GraphSound tokens) {p q : String}
    (hpath : Relation.TransGen s.IsChild p q) :
    ∃ a ∈ s.nodes.rows, a.publicId = p ∧ ∃ b ∈ s.nodes.rows, b.publicId = q ∧
      Relation.TransGen (fun i j => (i, j) ∈ s.edges) a.id b.id := by
  induction hpath with
  | single hbelow =>
    obtain ⟨a, ha, hakey, b, hb, hbkey, hedge⟩ := hbelow
    exact ⟨a, ha, hakey, b, hb, hbkey, .single hedge⟩
  | tail _ hbelow ih =>
    obtain ⟨a, ha, hakey, b, hb, hbkey, hpath⟩ := ih
    obtain ⟨b', hb', hbkey', c, hc, hckey, hedge⟩ := hbelow
    obtain rfl := List.inj_on_of_nodup_map h.nodeKeys hb' hb (hbkey'.trans hbkey.symm)
    exact ⟨a, ha, hakey, c, hc, hckey, hpath.tail hedge⟩

/-- Ids lead back to themselves as public ids do. -/
theorem GraphSound.hasCycle_iff (h : s.GraphSound tokens) :
    s.HasCycle ↔ ∃ p, Relation.TransGen s.IsChild p p := by
  constructor
  · rintro ⟨id, hcycle⟩
    obtain ⟨a, ha, haid, b, hb, hbid, hpath⟩ := h.transGen_isChild hcycle
    obtain rfl := h.nodeIds.eq_of_id_eq ha hb (haid.trans hbid.symm)
    exact ⟨a.publicId, hpath⟩
  · rintro ⟨p, hcycle⟩
    obtain ⟨a, ha, hakey, b, hb, hbkey, hpath⟩ := h.transGen_edges hcycle
    obtain rfl := List.inj_on_of_nodup_map h.nodeKeys ha hb (hakey.trans hbkey.symm)
    exact ⟨a.id, hpath⟩

end Store

/-- Some applied event puts the node `b` below the node `a`. -/
def Deed.Linked (deeds : List Deed) (a b : String) : Prop :=
  ∃ e, .applied e ∈ deeds ∧ e.Links a b

theorem Deed.Linked.ne {deeds : List Deed} {a b : String} (h : Linked deeds a b) : a ≠ b := by
  obtain ⟨e, -, event, -, hlinks⟩ := h
  cases hplan : Plan.ofEvent event with
  | graph p type kind children =>
    rw [hplan] at hlinks
    obtain ⟨rfl, -, hne⟩ := hlinks
    exact hne.symm
  | _ =>
    rw [hplan] at hlinks
    exact False.elim hlinks

/-- Whatever is done to a store that was empty, no edge joins a node to itself, but there is a
cycle of edges if and only if the children that applied events list lead from some public id back
to it. -/
theorem Course.hasCycle_iff_linked {tokens : Tokenizer} {course : List Occurrence}
    (hheld : ∀ o ∈ course, o.Held) :
    let s := run tokens course {}
    (∀ edge ∈ s.edges, edge.1 ≠ edge.2) ∧
      (s.HasCycle ↔ ∃ p, Relation.TransGen (Deed.Linked (deeds tokens course {})) p p) := by
  intro s
  have htraced : Traced tokens (deeds tokens course {}) s := Course.traced hheld
  have hgraph : s.GraphSound tokens := htraced.sound.toGraphSound
  have hchild : s.IsChild = Deed.Linked (deeds tokens course {}) :=
    funext fun a => funext fun b => propext htraced.isChild_iff
  constructor
  · rintro ⟨i, j⟩ hedge hloop
    obtain ⟨a, ha, haid, b, hb, hbid, hbelow⟩ := hgraph.isChild_of_edge hedge
    obtain rfl := hgraph.nodeIds.eq_of_id_eq ha hb (haid.trans (hloop.trans hbid.symm))
    rw [hchild] at hbelow
    exact hbelow.ne rfl
  · rw [hgraph.hasCycle_iff, hchild]

/-- Two documents each list the node of the other. -/
def crossed : List Occurrence :=
  [.operation 1000 (.upsert "a" .graph [] (some (.obj [("nodes", .obj [("b", .obj [])])]))),
    .operation 2000 (.pass 1 false 60000),
    .operation 3000 (.upsert "b" .graph [] (some (.obj [("nodes", .obj [("a", .obj [])])]))),
    .operation 4000 (.pass 1 false 60000)]

/-- The edges that are stored need not be those of a directed acyclic graph. -/
theorem Course.crossed_hasCycle :
    let s := run String.length crossed {}
    Reachable String.length s ∧ s.nodes.rows.map (·.publicId) = ["a", "b"] ∧
      s.edges = [(1, 2), (2, 1)] ∧ s.HasCycle := by
  intro s
  have hheld : ∀ o ∈ crossed, o.Held := by
    simp [crossed, Occurrence.Held, Operation.Held]
  have hedges : s.edges = [(1, 2), (2, 1)] := by decide +kernel
  refine ⟨reachable_run .empty hheld, by decide +kernel, hedges, ?_⟩
  exact hasCycle_of_both (a := 1) (b := 2) (by simp [hedges]) (by simp [hedges])

theorem Course.hasCycle_iff_linked_crossed :
    (∀ o ∈ crossed, o.Held) ∧ (run String.length crossed {}).HasCycle ∧
      ∃ p, Relation.TransGen (Deed.Linked (deeds String.length crossed {})) p p := by
  have hheld : ∀ o ∈ crossed, o.Held := by
    simp [crossed, Occurrence.Held, Operation.Held]
  have hcycle : (run String.length crossed {}).HasCycle :=
    hasCycle_of_both (a := 1) (b := 2) (by decide +kernel) (by decide +kernel)
  exact ⟨hheld, hcycle, (hasCycle_iff_linked hheld).2.mp hcycle⟩

end NodeGraph
