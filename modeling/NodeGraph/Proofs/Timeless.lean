import NodeGraph.Proofs.Pass
import NodeGraph.Proofs.Reconcile.Effects

/-!
What does not depend on the clock: two stores that differ only in the times of their rows, the
order of their memberships and their leases still do so after the same event.
-/
namespace NodeGraph

def NodeRow.undated (row : NodeRow) : NodeRow :=
  { row with createdAt := 0, updatedAt := 0 }

def Space.undated (space : Space) : Space :=
  { space with createdAt := 0, updatedAt := 0 }

def DeadLetter.undated (letter : DeadLetter) : DeadLetter :=
  { letter with failedAt := 0 }

/-- The environment when the clock stands at its start. -/
def Env.still (env : Env) : Env :=
  { clock := 0, tokens := env.tokens }

namespace Table

variable {ρ : Type}

def map (f : ρ → ρ) (t : Table ρ) : Table ρ :=
  { t with rows := t.rows.map f }

theorem map_add (f : ρ → ρ) (t : Table ρ) (row : ℤ → ρ) :
    (t.add row).map f = (t.map f).add fun id => f (row id) := by
  unfold add map nextId
  simp

theorem map_id (t : Table ρ) : t.map (fun row => row) = t :=
  congrArg (fun rows => ({ t with rows } : Table ρ)) (List.map_id' t.rows)

theorem map_comp (f g : ρ → ρ) (t : Table ρ) : (t.map f).map g = t.map fun row => g (f row) :=
  congrArg (fun rows => ({ t with rows } : Table ρ)) List.map_map

theorem map_map {f g h : ρ → ρ} {t : Table ρ} (hfg : ∀ row ∈ t.rows, g (f row) = h (g row)) :
    (t.map f).map g = (t.map g).map h := by
  unfold map
  dsimp only
  have hrows : t.rows.map (g ∘ f) = t.rows.map (h ∘ g) := List.map_congr_left hfg
  rw [List.map_map, List.map_map, hrows]

theorem any_map {f : ρ → ρ} {p : ρ → Bool} (hp : ∀ row, p (f row) = p row) (t : Table ρ) :
    (t.map f).any p = t.any p := by
  unfold any map
  rw [List.any_map]
  exact congrArg (t.rows.any ·) (funext hp)

theorem find?_map {f : ρ → ρ} {p : ρ → Bool} (hp : ∀ row, p (f row) = p row) (t : Table ρ) :
    (t.map f).find? p = (t.find? p).map f := by
  unfold find? map
  rw [List.find?_map]
  exact congrArg (fun q => (t.rows.find? q).map f) (funext hp)

end Table

namespace Store

variable {env : Env} {s t u : Store} {p : String}

/-- The store without times and leases, and without the memberships, which have no order. -/
def timeless (s : Store) : Store :=
  { s with
    nodes := s.nodes.map NodeRow.undated, spaces := s.spaces.map Space.undated
    deadLetters := s.deadLetters.map DeadLetter.undated, live := [], leases := [] }

/-- The stores have the same rows with the same ids, times and leases aside. -/
def Alike (s t : Store) : Prop :=
  s.timeless = t.timeless ∧ s.live.Perm t.live

theorem Alike.refl (s : Store) : s.Alike s :=
  ⟨rfl, List.Perm.refl _⟩

theorem Alike.symm (h : s.Alike t) : t.Alike s :=
  ⟨h.1.symm, h.2.symm⟩

theorem Alike.trans (h : s.Alike t) (h' : t.Alike u) : s.Alike u :=
  ⟨h.1.trans h'.1, h.2.trans h'.2⟩

theorem alike_withLeases (s : Store) (leases : List LeaseRow) : s.Alike { s with leases } :=
  ⟨rfl, List.Perm.refl _⟩

@[simp] theorem hasNode_timeless (s : Store) (p : String) : s.timeless.hasNode p = s.hasNode p :=
  Table.any_map (f := NodeRow.undated) (fun _ => rfl) s.nodes

@[simp] theorem nodeRow?_timeless (s : Store) (p : String) :
    s.timeless.nodeRow? p = (s.nodeRow? p).map NodeRow.undated :=
  Table.find?_map (f := NodeRow.undated) (fun _ => rfl) s.nodes

@[simp] theorem space?_timeless (s : Store) (p : String) :
    s.timeless.space? p = (s.space? p).map Space.undated :=
  Table.find?_map (f := Space.undated) (fun _ => rfl) s.spaces

theorem timeless_withNodes (s : Store) (nodes : Table NodeRow) :
    ({ s with nodes } : Store).timeless = { s.timeless with nodes := nodes.map NodeRow.undated } :=
  rfl

theorem timeless_withSpaces (s : Store) (spaces : Table Space) :
    ({ s with spaces } : Store).timeless = { s.timeless with spaces := spaces.map Space.undated } :=
  rfl

theorem timeless_materialize (p : String) (kind : NodeKind) :
    (s.materialize env p kind).timeless = s.timeless.materialize env.still p kind := by
  unfold materialize
  rw [hasNode_timeless]
  split
  · rfl
  · rw [timeless_withNodes, Table.map_add]
    rfl

theorem timeless_mapNodes {f g : NodeRow → NodeRow}
    (h : ∀ row, (f row).undated = g row.undated) : (s.mapNodes f).timeless = s.timeless.mapNodes g := by
  have hnodes : (s.nodes.map f).map NodeRow.undated = (s.nodes.map NodeRow.undated).map g :=
    Table.map_map fun row _ => h row
  have hmapped : s.mapNodes f = { s with nodes := s.nodes.map f } := rfl
  rw [hmapped, timeless_withNodes, hnodes]
  rfl

theorem timeless_changeNode {f g : NodeRow → NodeRow}
    (h : ∀ row, (f row).undated = g row.undated) :
    (s.changeNode p f).timeless = s.timeless.changeNode p g := by
  refine timeless_mapNodes fun row => ?_
  have hkey : row.undated.publicId = row.publicId := rfl
  rw [hkey]
  split
  · exact h row
  · rfl

end Store

namespace Reconcile

open Store

variable {env : Env} {s : Store} {p : String}

theorem timeless_withContent (content : Json) :
    (withContent env p content s).timeless = withContent env.still p content s.timeless := by
  unfold withContent
  rw [timeless_changeNode (g := fun row => (row.attach s.timeless .graph).rewrite env.still
    (contentOf content)) fun row => rfl, timeless_materialize]

theorem undated_documented (id : ℤ) (row : NodeRow) :
    (documented env id row).undated = documented env.still id row.undated := by
  unfold documented
  have hdocument : row.undated.graphDocument = row.graphDocument := rfl
  rw [hdocument]
  split <;> rfl

theorem timeless_withGraphDocument (type : DocumentType) :
    (withGraphDocument env p type s).timeless = withGraphDocument env.still p type s.timeless := by
  have hdocument : s.timeless.documentId? p type = s.documentId? p type := rfl
  unfold withGraphDocument
  rw [hdocument]
  cases s.documentId? p type with
  | none => rfl
  | some id => exact timeless_changeNode (undated_documented id)

theorem timeless_withEdge (child : String) :
    (withEdge p child s).timeless = withEdge p child s.timeless := by
  unfold withEdge
  rw [nodeRow?_timeless, nodeRow?_timeless]
  cases s.nodeRow? p with
  | none => rfl
  | some a =>
    cases s.nodeRow? child with
    | none => rfl
    | some b => rfl

theorem timeless_withChild (child : String) :
    (withChild env p s child).timeless = withChild env.still p s.timeless child := by
  unfold withChild
  split
  · rfl
  · rw [timeless_withEdge, timeless_materialize]

theorem timeless_withChildren (type : DocumentType) (kind : NodeKind) (children : List String) :
    (withChildren env p type kind children s).timeless =
      withChildren env.still p type kind children s.timeless := by
  have hfold : ∀ (t : Store), (children.foldl (withChild env p) t).timeless =
      children.foldl (withChild env.still p) t.timeless := by
    induction children with
    | nil => exact fun t => rfl
    | cons child rest ih =>
      intro t
      rw [List.foldl_cons, List.foldl_cons, ih, timeless_withChild]
  unfold withChildren
  rw [hfold, timeless_withGraphDocument, timeless_materialize]

/-! ### Members -/

theorem undated_titled (titles : Keyed String) (row : NodeRow) :
    (titled env titles row).undated = titled env.still titles row.undated := by
  unfold titled
  have hkey : row.undated.publicId = row.publicId := rfl
  have htitle : row.undated.title = row.title := rfl
  rw [hkey, htitle]
  split
  · split <;> rfl
  · rfl

theorem timeless_withMember (entry : String × String) :
    (withMember env s entry).timeless = withMember env.still s.timeless entry := by
  unfold withMember timeless
  dsimp only
  rw [Table.map_add]
  rfl

theorem timeless_withTitles (titles : Keyed String) :
    (withTitles env titles s).timeless = withTitles env.still titles s.timeless := by
  have hfold : ∀ (missing : Keyed String) (t : Store),
      (missing.foldl (withMember env) t).timeless =
        missing.foldl (withMember env.still) t.timeless := by
    intro missing
    induction missing with
    | nil => exact fun t => rfl
    | cons entry rest ih =>
      intro t
      rw [List.foldl_cons, List.foldl_cons, ih, timeless_withMember]
  unfold withTitles
  rw [hfold, timeless_mapNodes (undated_titled titles)]
  simp only [hasNode_timeless]

theorem timeless_withDocument (space : Space) :
    (Spaces.withDocument env space s).2.2.timeless =
      (Spaces.withDocument env.still space.undated s.timeless).2.2 := by
  have hdocument : space.undated.document = space.document := rfl
  have hlookup : s.timeless.documentId? space.undated.publicId .space =
      s.documentId? space.publicId .space := rfl
  unfold Spaces.withDocument
  rw [hdocument, hlookup]
  cases space.document with
  | some id => rfl
  | none =>
    cases s.documentId? space.publicId .space with
    | none => rfl
    | some id =>
      have hspaces : (s.spaces.map fun row => if decide (row.id = space.id) = true then
            { row with document := some id, updatedAt := env.now } else row).map Space.undated =
          (s.spaces.map Space.undated).map fun row => if decide (row.id = space.id) = true then
            { row with document := some id, updatedAt := env.still.now } else row := by
        refine Table.map_map fun row _ => ?_
        have hid : row.undated.id = row.id := rfl
        rw [hid]
        split <;> rfl
      exact (timeless_withSpaces s _).trans
        (congrArg (fun spaces => ({ s.timeless with spaces } : Store)) hspaces)

theorem newIds_timeless (titles : Keyed String) (s : Store) :
    newIds titles s.timeless = newIds titles s := by
  unfold newIds
  simp only [hasNode_timeless]
  rfl

/-- The nodes that are there are the same, but the newest comes first. -/
theorem summaries_timeless (titles : Keyed String) (s : Store) :
    ((s.summaries titles.keys).map (·.id)).Perm
      ((s.timeless.summaries titles.keys).map (·.id)) := by
  have hsummaries : ∀ t : Store, ((t.summaries titles.keys).map (·.id)).Perm
      ((t.nodes.rows.filter fun row => row.publicId ∈ titles.keys).map (·.id)) := by
    intro t
    have hperm := (summaries_perm (s := t) titles.keys).map (·.id)
    rw [List.map_map] at hperm
    exact hperm
  have hrows : (s.timeless.nodes.rows.filter fun row => row.publicId ∈ titles.keys).map (·.id) =
      (s.nodes.rows.filter fun row => row.publicId ∈ titles.keys).map (·.id) := by
    show ((s.nodes.rows.map NodeRow.undated).filter _).map _ = _
    rw [List.filter_map, List.map_map]
    rfl
  exact (hsummaries s).trans (hrows ▸ (hsummaries s.timeless).symm)

theorem memberIds_timeless (titles : Keyed String) (s : Store) :
    (memberIds titles s).Perm (memberIds titles s.timeless) := by
  unfold memberIds
  rw [newIds_timeless]
  exact (summaries_timeless titles s).append_right _

theorem fits_timeless (titles : Keyed String) (s : Store) :
    fits titles s.timeless = fits titles s := by
  have hlength := (summaries_timeless titles s).length_eq
  rw [List.length_map, List.length_map] at hlength
  unfold fits
  rw [newIds_timeless, hlength]

theorem spaceFor?_timeless (p : String) (titles : Keyed String) (s : Store) :
    spaceFor? p titles s.timeless = (spaceFor? p titles s).map Space.undated := by
  unfold spaceFor?
  rw [fits_timeless, space?_timeless]
  cases s.space? p with
  | none => rfl
  | some row => cases hfits : fits titles s <;> rfl

theorem timeless_withMembers (space : Space) (titles : Keyed String) :
    (withMembers env space titles s).timeless =
      withTitles env.still titles (Spaces.withDocument env.still space.undated s.timeless).2.2 := by
  rw [← timeless_withDocument, ← timeless_withTitles]
  rfl

/-! ### Plans -/

/-- What a plan does depends on the clock for times and for the order of memberships alone. -/
theorem alike_carriedOut {t : Store} {env' : Env} (htokens : env.tokens = env'.tokens)
    (h : s.Alike t) (plan : Plan) : (carriedOut env plan s).Alike (carriedOut env' plan t) := by
  obtain ⟨htimeless, hlive⟩ := h
  have hstill : env.still = env'.still := congrArg (fun tokens => ({ clock := 0, tokens } : Env)) htokens
  cases plan with
  | editor q content =>
    have hmade : ∀ (env : Env) (s : Store), (withContent env q content s).live = s.live := by
      intro env s
      show (s.materialize env q .default).live = s.live
      unfold Store.materialize
      split <;> rfl
    refine ⟨?_, ?_⟩
    · show (withContent env q content s).timeless = (withContent env' q content t).timeless
      rw [timeless_withContent, timeless_withContent, htimeless, hstill]
    · show (withContent env q content s).live.Perm (withContent env' q content t).live
      rw [hmade, hmade]
      exact hlive
  | space q titles =>
    have hspaces : (spaceFor? q titles s).map Space.undated =
        (spaceFor? q titles t).map Space.undated := by
      rw [← spaceFor?_timeless, htimeless, spaceFor?_timeless]
    cases hs : spaceFor? q titles s with
    | none =>
      rw [hs, Option.map_none] at hspaces
      have ht : spaceFor? q titles t = none := Option.map_eq_none_iff.mp hspaces.symm
      rw [carriedOut_of_no_space hs, carriedOut_of_no_space ht]
      exact ⟨htimeless, hlive⟩
    | some a =>
      rw [hs, Option.map_some] at hspaces
      obtain ⟨b, ht, hab⟩ := Option.map_eq_some_iff.mp hspaces.symm
      rw [carriedOut_space hs, carriedOut_space ht]
      have hid : b.undated.id = a.undated.id := congrArg Space.id hab
      refine ⟨?_, ?_⟩
      · rw [timeless_withMembers, timeless_withMembers, htimeless, hstill, hab]
      · have hmembers : (memberIds titles s).Perm (memberIds titles t) :=
          (memberIds_timeless titles s).trans (htimeless ▸ (memberIds_timeless titles t).symm)
        show (withoutFirst a.id s.live ++ (memberIds titles s).map (a.id, ·)).Perm
          (withoutFirst b.undated.id t.live ++ (memberIds titles t).map (b.undated.id, ·))
        rw [hid]
        exact (hlive.filter _).append (hmembers.map _)
  | graph q type kind children =>
    refine ⟨?_, ?_⟩
    · show (withChildren env q type kind children s).timeless =
        (withChildren env' q type kind children t).timeless
      rw [timeless_withChildren, timeless_withChildren, htimeless, hstill]
    · show (withChildren env q type kind children s).live.Perm
        (withChildren env' q type kind children t).live
      rw [(withChildren_frame q type kind children s).1, (withChildren_frame q type kind children t).1]
      exact hlive
  | ignore reason => exact ⟨htimeless, hlive⟩

end Reconcile

/-! ### Events -/

section Settle

variable {env env' : Env} {s t : Store}

theorem Store.Alike.queue (h : s.Alike t) : s.queue = t.queue := by
  have hqueue : s.timeless.queue = t.timeless.queue := congrArg Store.queue h.1
  exact hqueue

theorem Store.Alike.isQueued (h : s.Alike t) (id : ℤ) : s.isQueued id = t.isQueued id := by
  unfold Store.isQueued
  rw [h.queue]

/-- What is in the way of a plan does not depend on any time. -/
theorem Plan.obstacle?_timeless (plan : Plan) (s : Store) :
    plan.obstacle? s.timeless = plan.obstacle? s := by
  cases plan with
  | space p titles =>
    cases hrow : s.space? p with
    | none =>
      rw [obstacle?_of_no_space hrow, obstacle?_of_no_space]
      rw [Store.space?_timeless, hrow]
      rfl
    | some row =>
      have hundated : s.timeless.space? p = some row.undated := by
        rw [Store.space?_timeless, hrow]
        rfl
      rw [obstacle?_of_space hrow, obstacle?_of_space hundated, Reconcile.fits_timeless]
  | _ => rfl

theorem Store.Alike.verdict (h : s.Alike t) (e : QueuedEvent) : e.verdict s = e.verdict t := by
  have hobstacle (plan : Plan) : plan.obstacle? s = plan.obstacle? t := by
    rw [← plan.obstacle?_timeless s, h.1, plan.obstacle?_timeless t]
  unfold QueuedEvent.verdict
  simp only [hobstacle]

theorem Store.Alike.claim (h : s.Alike t) (id : ℤ) : (s.claim id).Alike (t.claim id) := by
  refine ⟨?_, h.2⟩
  have hclaim : ∀ u : Store, (u.claim id).timeless = u.timeless.claim id := fun _ => rfl
  rw [hclaim, hclaim, h.1]

theorem Store.Alike.bury (h : s.Alike t) (now later : ℤ) (e : QueuedEvent) (fault : Fault) :
    (s.bury now e fault).Alike (t.bury later e fault) := by
  refine ⟨?_, h.2⟩
  have hbury : ∀ (u : Store) (time : ℤ), (u.bury time e fault).timeless =
      u.timeless.bury 0 e fault := by
    intro u time
    have hletters := Table.map_add DeadLetter.undated u.deadLetters fun id =>
      { id, eventId := e.id, publicId := e.publicId, type := e.type, action := e.action
        oldData := e.oldData, newData := e.newData, eventCreatedAt := e.createdAt
        error := fault.message, failedAt := time }
    exact congrArg (fun deadLetters => ({ u.timeless with deadLetters } : Store)) hletters
  rw [hbury, hbury, h.1]

theorem Store.Alike.settledAs (htokens : env.tokens = env'.tokens) (h : s.Alike t)
    (e : QueuedEvent) (v : Verdict) :
    (Pass.settledAs env e s v).Alike (Pass.settledAs env' e t v) := by
  cases v with
  | dropped => exact h.claim e.id
  | buried fault => exact (h.claim e.id).bury _ _ e fault
  | carried plan => exact Reconcile.alike_carriedOut htokens (h.claim e.id) plan

section

variable (quiet : env.rivals = {}) (quiet' : env'.rivals = {})

include quiet quiet'

/-- An event that is queued in both is reported alike. -/
theorem Store.Alike.handle (hs : s.GraphSound env.tokens) (ht : t.GraphSound env'.tokens)
    (h : s.Alike t) {e : QueuedEvent} (hqueued : s.isQueued e.id = true) :
    (Pass.handle env e s).1 = (Pass.handle env' e t).1 := by
  have hqueued' : t.isQueued e.id = true := h.isQueued e.id ▸ hqueued
  rw [Pass.handle_of_queued quiet hs hqueued, Pass.handle_of_queued quiet' ht hqueued', h.verdict e]

variable (htokens : env.tokens = env'.tokens)

include htokens

/-- Stores that are alike are so after any event. -/
theorem Store.Alike.settle (hs : s.GraphSound env.tokens) (ht : t.GraphSound env'.tokens)
    (h : s.Alike t) (e : QueuedEvent) : (Pass.settle env s e).Alike (Pass.settle env' t e) := by
  rcases Pass.settle_cases quiet hs e with ⟨hfree, hsame⟩ | ⟨hqueued, hsettled⟩
  · rw [hsame, Pass.settle_of_not_queued (h.isQueued e.id ▸ hfree)]
    exact h
  · rw [hsettled, Pass.settle_of_queued quiet' ht (h.isQueued e.id ▸ hqueued), h.verdict e]
    exact h.settledAs htokens e _

theorem Store.Alike.foldl_settle (hs : s.Sound env.tokens) (ht : t.Sound env'.tokens)
    (h : s.Alike t) (events : List QueuedEvent) :
    (events.foldl (Pass.settle env) s).Alike (events.foldl (Pass.settle env') t) := by
  induction events generalizing s t with
  | nil => exact h
  | cons e rest ih =>
    exact ih (Pass.settle_sound quiet hs e) (Pass.settle_sound quiet' ht e)
      (h.settle quiet quiet' htokens hs.toGraphSound ht.toGraphSound e)

end

end Settle

end NodeGraph
