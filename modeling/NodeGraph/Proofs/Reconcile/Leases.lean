import NodeGraph.Proofs.Store.Nodes
import NodeGraph.Reconcile

/-!
Leases and the graph: whatever is stored and whoever interferes, carrying out a plan leaves all
leases alone.
-/
namespace NodeGraph

namespace Command

variable {α β : Type} {c : Command α} {f : α → Command β} {s : Store}

/-- Run on the store, the command leaves all leases alone, however it ends. -/
def KeepsLeases (c : Command α) (s : Store) : Prop :=
  (c.outcome s).2.leases = s.leases

theorem KeepsLeases.bind (hc : c.KeepsLeases s) (hf : ∀ a t, (f a).KeepsLeases t) :
    (c >>= f).KeepsLeases s := by
  unfold KeepsLeases at *
  cases h : c s with
  | ok a t =>
    rw [outcome_of_ok h] at hc
    rw [outcome_bind h, hf a t, hc]
  | error fault t =>
    rw [outcome_of_error h] at hc
    rw [outcome_of_error (bind_of_error h), hc]

/-- Another result makes no difference. -/
theorem KeepsLeases.map (hc : c.KeepsLeases s) (g : α → β) :
    (c >>= fun a => pure (g a)).KeepsLeases s := by
  apply hc.bind
  intro a t
  rfl

theorem KeepsLeases.discard (hc : c.KeepsLeases s) : KeepsLeases (discard c) s :=
  hc.map fun _ => PUnit.unit

theorem KeepsLeases.ifTaken {again : Command α} (hc : c.KeepsLeases s)
    (hagain : ∀ t, again.KeepsLeases t) : (c.ifTaken again).KeepsLeases s := by
  unfold KeepsLeases at *
  cases h : c s with
  | ok a t =>
    rw [outcome_of_ok h] at hc
    rw [outcome_of_ok (ifTaken_of_ok h), hc]
  | error fault t =>
    rw [outcome_of_error h] at hc
    have htaken : c.ifTaken again s = if fault.isDuplicateKey then again t else .error fault t :=
      ifTaken_of_error h
    cases hduplicate : fault.isDuplicateKey with
    | true =>
      have hsame : (c.ifTaken again).outcome s = again.outcome t := by
        unfold outcome
        rw [htaken, if_pos hduplicate]
      rw [hsame]
      exact (hagain t).trans hc
    | false =>
      rw [hduplicate] at htaken
      exact (outcome_of_error htaken ▸ hc)

theorem keepsLeases_get {g : Store → Command α} (h : (g s).KeepsLeases s) :
    KeepsLeases (EStateM.get >>= g) s := h

theorem keepsLeases_set {t : Store} (h : t.leases = s.leases) :
    KeepsLeases (EStateM.set t) s := h

theorem keepsLeases_modify {g : Store → Store} (h : (g s).leases = s.leases) :
    KeepsLeases (modify g) s := h

theorem keepsLeases_given (n : ℕ) (s : Store) : (given n).KeepsLeases s := by
  unfold given
  split <;> rfl

theorem keepsLeases_pure (a : α) (s : Store) : KeepsLeases (pure a) s := rfl

theorem keepsLeases_throw (fault : Fault) (s : Store) :
    KeepsLeases (throw fault : Command α) s := rfl

theorem keepsLeases_decoded (r : Except Fault α) (s : Store) : (decoded r).KeepsLeases s := by
  cases r <;> rfl

theorem keepsLeases_mapM {g : β → Command α} (hg : ∀ item t, (g item).KeepsLeases t)
    (items : List β) (s : Store) : (items.mapM g).KeepsLeases s := by
  induction items generalizing s with
  | nil =>
    rw [List.mapM_nil]
    exact keepsLeases_pure _ s
  | cons item rest ih =>
    rw [List.mapM_cons]
    apply KeepsLeases.bind (hg item s)
    intro a t
    exact (ih t).map _

theorem keepsLeases_forM {g : β → Command PUnit} (hg : ∀ item t, (g item).KeepsLeases t)
    (items : List β) (s : Store) : (items.forM g).KeepsLeases s := by
  induction items generalizing s with
  | nil => exact keepsLeases_pure _ s
  | cons item rest ih =>
    apply KeepsLeases.bind (hg item s)
    intro _ t
    exact ih t

end Command

open Command

namespace Nodes

variable {env : Env}

theorem leases_addNode (rivals : Rivals) (row : ℤ → NodeRow) (s : Store) :
    (s.addNode rivals row).leases = s.leases := by
  unfold Store.addNode Store.rob
  split
  · split <;> rfl
  · rfl

theorem keepsLeases_insert (row : ℤ → NodeRow) (s : Store) : (insert env row).KeepsLeases s := by
  unfold insert
  apply keepsLeases_get
  dsimp only
  split
  · split
    · apply KeepsLeases.bind (keepsLeases_set (leases_addNode _ _ _))
      intro _ t
      exact keepsLeases_throw _ t
    · exact keepsLeases_throw _ s
  · split
    · exact keepsLeases_throw _ s
    · exact keepsLeases_set (leases_addNode _ _ _)

theorem keepsLeases_get (p : String) (s : Store) : (get p).KeepsLeases s := by
  unfold get
  apply Command.keepsLeases_get
  split
  · exact keepsLeases_pure _ s
  · rename_i row _
    exact (keepsLeases_decoded row.decode s).map _

theorem keepsLeases_summaries (keys : List String) (s : Store) :
    (summaries keys).KeepsLeases s := by
  apply (keepsLeases_given _ s).bind
  intro _ t
  rfl

theorem keepsLeases_create (p title : String) (kind : NodeKind) (s : Store) :
    (create env p title kind).KeepsLeases s := by
  unfold create createOn
  rw [Database.run_sound]
  exact (keepsLeases_insert _ s).map _

theorem keepsLeases_ensure (p : String) (kind : NodeKind) (s : Store) :
    (ensure env p kind).KeepsLeases s := by
  unfold ensure ensureOn
  rw [Database.run_sound]
  apply KeepsLeases.bind (keepsLeases_get p s)
  intro found t
  cases found with
  | some node => exact keepsLeases_pure _ t
  | none =>
    have hcreate : (createOn .sound env p "" kind).KeepsLeases t := keepsLeases_create p "" kind t
    apply hcreate.ifTaken
    intro u
    apply KeepsLeases.bind (keepsLeases_get p u)
    intro again v
    cases again with
    | some node => exact keepsLeases_pure _ v
    | none => exact keepsLeases_throw _ v

theorem keepsLeases_save (node : Node) (s : Store) : (save env node).KeepsLeases s := by
  unfold KeepsLeases
  rcases save_outcome env s node with hsame | ⟨-, hsaved⟩
  · rw [hsame]
  · rw [hsaved]
    rfl

theorem keepsLeases_link (parent child : ℤ) (s : Store) : (link parent child).KeepsLeases s := by
  unfold link
  apply Command.keepsLeases_get
  cases hadded : s.addEdge parent child with
  | error fault => rfl
  | ok result =>
    show result.2.leases = s.leases
    unfold Store.addEdge at hadded
    split at hadded
    · rw [← Except.ok.inj hadded]
    · split at hadded
      · rw [← Except.ok.inj hadded]
      · exact nomatch hadded

end Nodes

namespace Spaces

theorem keepsLeases_includeNodes (space : ℤ) (nodes : List ℤ) (s : Store) :
    (includeNodes space nodes).KeepsLeases s := by
  apply (keepsLeases_given _ s).bind
  intro _ s
  apply Command.keepsLeases_get
  cases hadded : s.addMembers space nodes with
  | error fault => rfl
  | ok t =>
    show t.leases = s.leases
    unfold Store.addMembers at hadded
    dsimp only at hadded
    split at hadded
    · rw [← Except.ok.inj hadded]
    · exact nomatch hadded

theorem keepsLeases_replaceNodes (space : ℤ) (nodes : List ℤ) (s : Store) :
    (replaceNodes space nodes).KeepsLeases s := by
  unfold replaceNodes
  apply Command.keepsLeases_get
  apply KeepsLeases.bind
  · apply keepsLeases_set
    rfl
  · intro _ t
    exact keepsLeases_includeNodes space nodes t

end Spaces

namespace Reconcile

variable {env : Env}

theorem keepsLeases_editor (p : String) (content : Json) (s : Store) :
    (editor env p content).KeepsLeases s := by
  apply KeepsLeases.bind (Nodes.keepsLeases_ensure p .default s)
  intro node t
  apply Command.keepsLeases_get
  exact (Nodes.keepsLeases_save _ t).discard

theorem leases_retitleAll (titles : Keyed String) (summaries : List NodeSummary) (s : Store) :
    (retitleAll env titles summaries s).leases = s.leases := by
  unfold retitleAll
  apply List.foldlRecOn (motive := fun t : Store => t.leases = s.leases)
  · rfl
  · intro t ht node _
    split
    · split
      · exact ht
      · exact ht
    · exact ht

theorem keepsLeases_createMember (p title : String) (s : Store) :
    (createMember env p title).KeepsLeases s := by
  apply KeepsLeases.bind (Nodes.keepsLeases_create p title .default s)
  intro node t
  apply Command.keepsLeases_get
  dsimp only
  split
  · exact (Nodes.keepsLeases_save _ t).discard.map _
  · exact keepsLeases_pure _ t

theorem keepsLeases_setMembers (space : ℤ) (titles : Keyed String) (s : Store) :
    (setMembers env space titles).KeepsLeases s := by
  apply KeepsLeases.bind (Nodes.keepsLeases_summaries titles.keys s)
  intro existing t
  apply KeepsLeases.bind (Spaces.keepsLeases_replaceNodes _ _ t)
  intro _ u
  apply KeepsLeases.bind (keepsLeases_modify (leases_retitleAll _ _ _))
  intro _ v
  apply KeepsLeases.bind (keepsLeases_mapM (fun entry => keepsLeases_createMember _ _) _ v)
  intro created w
  exact Spaces.keepsLeases_includeNodes _ _ w

theorem keepsLeases_space (p : String) (titles : Keyed String) (s : Store) :
    (space env p titles).KeepsLeases s := by
  unfold space
  apply Command.keepsLeases_get
  split
  · rename_i space _
    apply KeepsLeases.bind
    · apply keepsLeases_modify
      unfold Spaces.withDocument
      split <;> rfl
    · intro _ t
      exact keepsLeases_setMembers space.id titles t
  · exact keepsLeases_throw _ s

theorem keepsLeases_addChild (parent : Node) (p child : String) (s : Store) :
    (addChild env parent p child).KeepsLeases s := by
  unfold addChild
  split
  · apply KeepsLeases.bind (Nodes.keepsLeases_ensure child .default s)
    intro node t
    exact (Nodes.keepsLeases_link _ _ t).discard
  · exact keepsLeases_pure _ s

theorem keepsLeases_graph (p : String) (type : DocumentType) (kind : NodeKind)
    (children : List String) (s : Store) : (graph env p type kind children).KeepsLeases s := by
  apply KeepsLeases.bind (Nodes.keepsLeases_ensure p kind s)
  intro parent t
  have hchildren : ∀ u, (children.forM (addChild env parent p)).KeepsLeases u := by
    apply keepsLeases_forM
    intro child u
    exact keepsLeases_addChild parent p child u
  split
  · apply Command.keepsLeases_get
    dsimp only
    split
    · apply (Nodes.keepsLeases_save _ t).discard.bind
      intro _ u
      exact hchildren u
    · exact hchildren t
  · exact hchildren t

/-- Carrying out a plan leaves all leases alone. -/
theorem keepsLeases_apply (plan : Plan) (s : Store) : (apply env plan).KeepsLeases s := by
  cases plan with
  | editor p content => exact (keepsLeases_editor p content s).map _
  | space p titles => exact (keepsLeases_space p titles s).map _
  | graph p type kind children => exact (keepsLeases_graph p type kind children s).map _
  | ignore reason => exact keepsLeases_pure _ s

end Reconcile
end NodeGraph
