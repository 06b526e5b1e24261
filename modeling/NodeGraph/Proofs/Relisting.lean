import NodeGraph.Proofs.Deeds

/-!
Nodes that are listed again: what has been taken out of a space by name stays taken out, and becomes
a member as well once an event lists it anew. In no other way is a node both.
-/
namespace NodeGraph

open Store

/-- The deed ends the membership of the node `q` in the space `p`, if there is one. -/
def Deed.Ends (p q : String) : Deed → Prop
  | applied e => e.Omits p q
  | expelled space node => p = space ∧ q = node

/-- After the node `q` was taken out of the space `p` an event has listed it there, and nothing has
ended its membership since. -/
def Relisted (p q : String) (deeds : List Deed) : Prop :=
  ∃ before e after, deeds = before ++ .applied e :: after ∧ .expelled p q ∈ before ∧
    e.Lists p q ∧ ∀ d ∈ after, ¬d.Ends p q

section Relisted

variable {tokens : Tokenizer} {deeds : List Deed} {s : Store} {p q : String}

theorem Relisted.expelled (h : Relisted p q deeds) : .expelled p q ∈ deeds := by
  obtain ⟨before, e, after, rfl, hexpelled, -⟩ := h
  exact List.mem_append_left _ hexpelled

/-- One more deed lists the node, or has not ended the membership. -/
theorem relisted_concat {d : Deed} :
    Relisted p q (deeds ++ [d]) ↔
      (.expelled p q ∈ deeds ∧ ∃ e, d = .applied e ∧ e.Lists p q) ∨
        (Relisted p q deeds ∧ ¬d.Ends p q) := by
  constructor
  · rintro ⟨before, e, after, hsplit, hexpelled, hlists, hkept⟩
    rcases List.eq_nil_or_concat after with rfl | ⟨rest, last, rfl⟩
    · obtain ⟨rfl, hlast⟩ := List.append_inj' hsplit rfl
      exact Or.inl ⟨hexpelled, e, List.singleton_inj.mp hlast, hlists⟩
    · rw [List.concat_eq_append] at hsplit hkept
      rw [← List.cons_append, ← List.append_assoc] at hsplit
      obtain ⟨rfl, hlast⟩ := List.append_inj' hsplit rfl
      obtain ⟨hrest, hends⟩ := List.forall_mem_append.mp hkept
      rw [List.singleton_inj.mp hlast]
      exact Or.inr ⟨⟨before, e, rest, rfl, hexpelled, hlists, hrest⟩,
        hends last (List.mem_singleton_self last)⟩
  · rintro (⟨hexpelled, e, rfl, hlists⟩ |
      ⟨⟨before, e, after, rfl, hexpelled, hlists, hkept⟩, hends⟩)
    · exact ⟨deeds, e, [], rfl, hexpelled, hlists, fun d hd => absurd hd List.not_mem_nil⟩
    · refine ⟨before, e, after ++ [d], by simp, hexpelled, hlists, ?_⟩
      exact List.forall_mem_append.mpr ⟨hkept, List.forall_mem_singleton.mpr hends⟩

theorem Store.IsExpelled.space?_ne_none (hs : s.GraphSound tokens) (h : s.IsExpelled p q) :
    s.space? p ≠ none := by
  obtain ⟨space, hspace, hkey, -⟩ := h
  rw [hs.space?_eq_some.mpr ⟨hspace, hkey⟩]
  exact Option.some_ne_none space

/-- A node that was taken out of a space is a member of it if and only if it has been listed
again. -/
theorem Traced.isMember_iff_relisted (h : Traced tokens deeds s)
    (hexpelled : .expelled p q ∈ deeds) : s.IsMember p q ↔ Relisted p q deeds := by
  induction h with
  | empty => exact absurd hexpelled List.not_mem_nil
  | still hbefore ht hpersists hjoins ih =>
    rw [← ih hexpelled]
    refine isMember_congr hbefore.sound.toGraphSound ht.toGraphSound hpersists.toExtends
      fun space _ _ id => ?_
    rw [(Prod.mk.inj (Prod.mk.inj hjoins).2).1]
  | applied hbefore clock he happlied ih =>
    have hgraph := hbefore.sound.toGraphSound
    have hold := (List.mem_append.mp hexpelled).resolve_right (by simp)
    rw [Pass.isMember_settle rfl hgraph (isQueued_iff.mpr ⟨_, he, rfl⟩) happlied
      ((hbefore.isExpelled_iff.mpr hold).space?_ne_none hgraph), relisted_concat, ih hold]
    simp [hold, Deed.Ends]
  | @expelled deeds s hbefore space node _ _ hspace hnode ih =>
    rw [isMember_expelled hbefore.sound.toGraphSound hspace hnode, relisted_concat]
    by_cases hnamed : p = space ∧ q = node
    · simp [hnamed, Deed.Ends]
    · have hold : .expelled p q ∈ deeds := by
        refine (List.mem_append.mp hexpelled).resolve_right fun hlast => hnamed ?_
        simpa using hlast
      rw [ih hold]
      simp [hnamed, Deed.Ends]

end Relisted

/-- Whatever is done to a store that was empty, a node is both a member of a space and taken out of
it if and only if it was taken out by name, an event for the space has listed it since, and since
then it has neither been taken out again nor been omitted by an event for the space. -/
theorem Course.both_iff_relisted {tokens : Tokenizer} {course : List Occurrence}
    (hheld : ∀ o ∈ course, o.Held) (p q : String) :
    let s := run tokens course {}
    (s.IsMember p q ∧ s.IsExpelled p q) ↔ Relisted p q (deeds tokens course {}) := by
  intro s
  have htraced : Traced tokens (deeds tokens course {}) s := Course.traced hheld
  rw [htraced.isExpelled_iff]
  constructor
  · rintro ⟨hmember, hexpelled⟩
    exact (htraced.isMember_iff_relisted hexpelled).mp hmember
  · intro hrelisted
    exact ⟨(htraced.isMember_iff_relisted hrelisted.expelled).mpr hrelisted, hrelisted.expelled⟩

/-- Two nodes are taken out of a space, and a later event lists one of them. -/
def relisting : List Occurrence :=
  [.operation 1000 (.createSpace "s" "S" none fun _ => ""),
    .operation 2000
      (.upsert "s" .space [] (some (.obj [("nodes", .obj [("m", .obj []), ("n", .obj [])])]))),
    .operation 3000 (.pass 1 false 60000), .operation 4000 (.expel "s" "m"),
    .operation 5000 (.expel "s" "n"),
    .operation 6000 (.upsert "s" .space [] (some (.obj [("nodes", .obj [("n", .obj [])])]))),
    .passes [⟨0, 7000, .enter 1 60000⟩, ⟨0, 7000, .next⟩, ⟨0, 7000, .next⟩]]

instance (s : Store) (p q : String) : Decidable (s.IsExpelled p q) :=
  inferInstanceAs (Decidable (∃ space ∈ s.spaces.rows, space.publicId = p ∧
    ∃ row ∈ s.nodes.rows, row.publicId = q ∧ (space.id, row.id) ∈ s.deleted))

/-- Live and taken-out members are not disjoint. -/
theorem Course.relisting_in_both :
    let s := run String.length relisting {}
    (∀ o ∈ relisting, o.Guarded) ∧ Reachable String.length s ∧
      s.IsMember "s" "n" ∧ s.IsExpelled "s" "n" := by
  have hheld : ∀ o ∈ relisting, o.Held := by
    simp [relisting, Occurrence.Held, Operation.Held]
  refine ⟨?_, reachable_run .empty hheld, by decide +kernel, by decide +kernel⟩
  simp [relisting, Occurrence.Guarded, Operation.Guarded]

theorem Course.both_iff_relisted_relisting :
    (∀ o ∈ relisting, o.Held) ∧
      (deeds String.length relisting {}).length = 4 ∧
      Relisted "s" "n" (deeds String.length relisting {}) ∧
      ¬Relisted "s" "m" (deeds String.length relisting {}) := by
  have hheld : ∀ o ∈ relisting, o.Held := by
    simp [relisting, Occurrence.Held, Operation.Held]
  have hboth : ∀ p q, _ ↔ Relisted p q (deeds String.length relisting {}) :=
    both_iff_relisted hheld
  refine ⟨hheld, by decide +kernel, (hboth "s" "n").mp (by decide +kernel), ?_⟩
  rw [← hboth]
  decide +kernel

end NodeGraph
