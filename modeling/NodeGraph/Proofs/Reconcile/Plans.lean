import NodeGraph.Proofs.Reconcile.Spaces

/-!
Plans carried out: every plan leaves a sound store sound, and the only plan that fails is one for
the members of a space that is not there, or for more of them than a statement can be given.
-/
namespace NodeGraph

namespace Plan

/-- The keys of titles are not repeated, and a content can be held. -/
def Sound : Plan → Prop
  | editor _ content => content.Sound
  | space _ titles => titles.keys.Nodup
  | _ => True

/-- What is in the way of a plan: the space that it needs is not there, or it lists too many
nodes. -/
def obstacle? (s : Store) : Plan → Option Fault
  | space p titles =>
    match s.space? p with
    | none => some (.missingSpace p)
    | some _ => if Reconcile.fits titles s then none else some .tooManyParameters
  | _ => none

/-- A plan whose nodes one statement could make members. -/
def Short : Plan → Prop
  | space _ titles => 2 * titles.length ≤ maxParameters
  | _ => True

/-- A plan whose nodes the statements can be given in the store. -/
def Fits (s : Store) : Plan → Prop
  | space _ titles => Reconcile.fits titles s = true
  | _ => True

theorem obstacle?_of_no_space {s : Store} {p : String} (h : s.space? p = none)
    (titles : Keyed String) : (space p titles).obstacle? s = some (.missingSpace p) := by
  simp [obstacle?, h]

theorem obstacle?_of_space {s : Store} {p : String} {row : Space} (h : s.space? p = some row)
    (titles : Keyed String) : (space p titles).obstacle? s =
      if Reconcile.fits titles s then none else some .tooManyParameters := by
  simp [obstacle?, h]

/-- Nothing is in the way where the space is there and the nodes fit. -/
theorem obstacle?_eq_none {s : Store} {p : String} {titles : Keyed String} :
    (space p titles).obstacle? s = none ↔ ∃ row, Reconcile.spaceFor? p titles s = some row := by
  simp only [Reconcile.spaceFor?_eq_some]
  cases hrow : s.space? p with
  | none => simp [obstacle?_of_no_space hrow]
  | some row => simp [obstacle?_of_space hrow]

theorem Short.fits {s : Store} {tokens : Tokenizer} (h : s.GraphSound tokens) {plan : Plan}
    (hplan : plan.Sound) (hshort : plan.Short) : plan.Fits s := by
  cases plan with
  | space p titles => exact Reconcile.fits_of_short h hplan hshort
  | _ => trivial

theorem fits_of_obstacle? {s : Store} {plan : Plan} (h : plan.obstacle? s = none) :
    plan.Fits s := by
  cases plan with
  | space p titles =>
    obtain ⟨row, hrow⟩ := obstacle?_eq_none.mp h
    exact (Reconcile.spaceFor?_eq_some.mp hrow).2
  | _ => trivial

/-- What is in the way of a plan that fits is known from the spaces that are there. -/
theorem obstacle?_congr {s t : Store} {plan : Plan} (hs : plan.Fits s) (ht : plan.Fits t)
    (hspaces : ∀ p, (t.space? p).isSome = (s.space? p).isSome) :
    plan.obstacle? t = plan.obstacle? s := by
  cases plan with
  | space p titles =>
    have hsame := hspaces p
    cases hrow : s.space? p with
    | none =>
      have hrow' : t.space? p = none := by simpa [hrow] using hsame
      rw [obstacle?_of_no_space hrow, obstacle?_of_no_space hrow']
    | some row =>
      obtain ⟨row', hrow'⟩ := Option.isSome_iff_exists.mp (hsame.trans (congrArg _ hrow))
      have hfits : Reconcile.fits titles s = true := hs
      have hfits' : Reconcile.fits titles t = true := ht
      rw [obstacle?_of_space hrow, obstacle?_of_space hrow', hfits, hfits']
  | _ => rfl

def outcome : Plan → Outcome
  | ignore reason => .ignored reason
  | _ => .applied

theorem canonical_field {v : Json} (h : v.canonical = v) {key : String} {w : Json}
    (hfield : v.field? key = some w) : w.canonical = w := by
  rw [← h] at hfield
  cases v with
  | obj fields =>
    show w.canonical = w
    have hget : Keyed.get? key (Keyed.ofList (Json.canonicalFields fields)) = some w := hfield
    rw [Json.canonicalFields_eq, Keyed.ofList_map, Keyed.get?_map] at hget
    obtain ⟨u, -, rfl⟩ := Option.map_eq_some_iff.mp hget
    exact Json.canonical_canonical u
  | _ => simp [Json.canonical, Json.field?] at hfield

theorem sorted_of_canonical {fields : List (String × Json)}
    (h : (Json.obj fields).canonical = .obj fields) : Keyed.Sorted fields := by
  have hfields : Keyed.ofList (Json.canonicalFields fields) = fields := Json.obj.inj h
  rw [← hfields]
  exact Keyed.sorted_ofList _

/-- The titles of a space are listed in key order. -/
theorem titlesIn_sorted {v : Json} (h : v.canonical = v) : Keyed.Sorted (titlesIn v) := by
  unfold titlesIn
  split
  · exact List.Pairwise.nil
  · rename_i nodes hnodes
    obtain ⟨w, hw, hfields⟩ := Option.bind_eq_some_iff.mp hnodes
    have hcanonical := canonical_field h hw
    cases w with
    | obj fields =>
      obtain rfl := Option.some.inj hfields
      exact List.pairwise_map.mpr (sorted_of_canonical hcanonical)
    | _ => simp [Json.fields?] at hfields

theorem sound_ofEvent {e : Event} (h : ∀ v ∈ e.newData, v.Sound) : (ofEvent e).Sound := by
  unfold ofEvent
  split
  · trivial
  · split
    · show (e.newData.getD .null).Sound
      cases hdata : e.newData with
      | none => exact ⟨trivial, rfl, Nat.zero_le _⟩
      | some v => exact h v hdata
    · split
      · rename_i data hdata
        exact (titlesIn_sorted (h data hdata).ordered).nodup_keys
      · trivial
    · trivial

end Plan

namespace Reconcile

open Store

variable {env : Env} {s : Store} {plan : Plan}

/-- The store after a plan has been carried out. -/
def carriedOut (env : Env) : Plan → Store → Store
  | .editor p content, s => withContent env p content s
  | .space p titles, s =>
    match spaceFor? p titles s with
    | some space => withMembers env space titles s
    | none => s
  | .graph p type kind children, s => withChildren env p type kind children s
  | .ignore _, s => s

theorem carriedOut_space {p : String} {titles : Keyed String} {row : Space}
    (h : spaceFor? p titles s = some row) :
    carriedOut env (.space p titles) s = withMembers env row titles s := by
  show (match spaceFor? p titles s with | some row => withMembers env row titles s | none => s) = _
  rw [h]

theorem carriedOut_of_no_space {p : String} {titles : Keyed String}
    (h : spaceFor? p titles s = none) : carriedOut env (.space p titles) s = s := by
  show (match spaceFor? p titles s with | some row => withMembers env row titles s | none => s) = _
  rw [h]

theorem carriedOut_of_missing {p : String} {titles : Keyed String} (h : s.space? p = none) :
    carriedOut env (.space p titles) s = s :=
  carriedOut_of_no_space (by rw [spaceFor?, h]; rfl)

theorem space_of_missing {p : String} (titles : Keyed String) (h : s.space? p = none) :
    space env p titles s = .error (.missingSpace p) s := by
  unfold space
  rw [Command.bind_of_ok (Command.get_eq s), h]
  rfl

/-- A plan that something is in the way of fails with that. -/
theorem apply_of_obstacle (quiet : env.rivals = {}) (h : s.GraphSound env.tokens)
    (hplan : plan.Sound) {fault : Fault} (hobstacle : plan.obstacle? s = some fault) :
    ∃ t, apply env plan s = .error fault t := by
  cases plan with
  | space p titles =>
    cases hrow : s.space? p with
    | none =>
      rw [Plan.obstacle?_of_no_space hrow] at hobstacle
      obtain rfl := Option.some.inj hobstacle
      exact ⟨s, Command.bind_of_error (space_of_missing titles hrow)⟩
    | some row =>
      rw [Plan.obstacle?_of_space hrow] at hobstacle
      cases hfits : fits titles s with
      | true => simp [hfits] at hobstacle
      | false =>
        rw [hfits] at hobstacle
        obtain rfl := Option.some.inj hobstacle
        obtain ⟨t, hspace⟩ := space_of_overfull quiet h hplan hrow hfits
        exact ⟨t, Command.bind_of_error hspace⟩
  | _ => exact nomatch hobstacle

/-- Every other plan is carried out. -/
theorem apply_eq (quiet : env.rivals = {}) (h : s.GraphSound env.tokens) (hplan : plan.Sound)
    (hspace : plan.obstacle? s = none) :
    apply env plan s = .ok plan.outcome (carriedOut env plan s) ∧
      (carriedOut env plan s).GraphSound env.tokens := by
  cases plan with
  | editor p content =>
    exact ⟨Command.bind_of_ok (editor_eq quiet h content), withContent_sound h hplan⟩
  | space p titles =>
    obtain ⟨row, hrow⟩ := Plan.obstacle?_eq_none.mp hspace
    obtain ⟨hthere, hfits⟩ := spaceFor?_eq_some.mp hrow
    obtain ⟨hok, hsound⟩ := space_eq quiet h hplan hthere hfits
    rw [carriedOut_space hrow]
    exact ⟨Command.bind_of_ok hok, hsound⟩
  | graph p type kind children =>
    exact ⟨Command.bind_of_ok (graph_eq quiet h type kind children),
      withChildren_sound h type kind children⟩
  | ignore reason => exact ⟨rfl, h⟩

theorem carriedOut_of_obstacle {fault : Fault} (h : plan.obstacle? s = some fault) :
    carriedOut env plan s = s := by
  cases plan with
  | space p titles =>
    refine carriedOut_of_no_space ?_
    rw [Option.eq_none_iff_forall_ne_some]
    intro row hrow
    rw [Plan.obstacle?_eq_none.mpr ⟨row, hrow⟩] at h
    cases h
  | _ => simp [Plan.obstacle?] at h

theorem carriedOut_sound (quiet : env.rivals = {}) (h : s.GraphSound env.tokens)
    (hplan : plan.Sound) : (carriedOut env plan s).GraphSound env.tokens := by
  cases hobstacle : plan.obstacle? s with
  | some fault =>
    rw [carriedOut_of_obstacle hobstacle]
    exact h
  | none => exact (apply_eq quiet h hplan hobstacle).2

/-! ### What plans leave alone -/

/-- Two stores with the same rows outside the graph. -/
structure SameRecords (s t : Store) : Prop where
  documents : t.documents = s.documents
  queue : t.queue = s.queue
  deadLetters : t.deadLetters = s.deadLetters
  versions : t.versions = s.versions
  deleted : t.deleted = s.deleted
  members : t.members = s.members
  leases : t.leases = s.leases

theorem SameRecords.refl (s : Store) : SameRecords s s :=
  ⟨rfl, rfl, rfl, rfl, rfl, rfl, rfl⟩

theorem SameRecords.symm {s t : Store} (h : SameRecords s t) : SameRecords t s :=
  ⟨h.documents.symm, h.queue.symm, h.deadLetters.symm, h.versions.symm, h.deleted.symm,
    h.members.symm, h.leases.symm⟩

theorem SameRecords.trans {s t u : Store} (h : SameRecords s t) (h' : SameRecords t u) :
    SameRecords s u :=
  ⟨h'.documents.trans h.documents, h'.queue.trans h.queue, h'.deadLetters.trans h.deadLetters,
    h'.versions.trans h.versions, h'.deleted.trans h.deleted, h'.members.trans h.members,
    h'.leases.trans h.leases⟩

theorem sameRecords_materialize (p : String) (kind : NodeKind) :
    SameRecords s (s.materialize env p kind) := by
  unfold Store.materialize
  split
  · exact .refl s
  · exact ⟨rfl, rfl, rfl, rfl, rfl, rfl, rfl⟩

theorem sameRecords_changeNode (p : String) (f : NodeRow → NodeRow) :
    SameRecords s (s.changeNode p f) :=
  ⟨rfl, rfl, rfl, rfl, rfl, rfl, rfl⟩

theorem sameRecords_withGraphDocument (p : String) (type : DocumentType) :
    SameRecords s (withGraphDocument env p type s) := by
  unfold withGraphDocument
  split
  · exact .refl s
  · exact sameRecords_changeNode p _

theorem sameRecords_withChild (p child : String) : SameRecords s (withChild env p s child) := by
  unfold withChild
  split
  · exact .refl s
  · have hmade : SameRecords s (s.materialize env child .default) :=
      sameRecords_materialize child .default
    refine hmade.trans ?_
    unfold withEdge
    split
    · exact ⟨rfl, rfl, rfl, rfl, rfl, rfl, rfl⟩
    · exact .refl _

theorem sameRecords_foldl_withChild (p : String) (children : List String) :
    SameRecords s (children.foldl (withChild env p) s) := by
  induction children generalizing s with
  | nil => exact .refl s
  | cons child rest ih => exact (sameRecords_withChild p child).trans ih

theorem sameRecords_withMembers (space : Space) (titles : Keyed String) :
    SameRecords s (withMembers env space titles s) := by
  unfold withMembers
  rw [withTitles_frame, withDocument_frame]
  exact ⟨rfl, rfl, rfl, rfl, rfl, rfl, rfl⟩

theorem sameRecords_carriedOut (env : Env) (s : Store) (plan : Plan) :
    SameRecords s (carriedOut env plan s) := by
  cases plan with
  | editor p content =>
    exact (sameRecords_materialize p .default).trans (sameRecords_changeNode p _)
  | space p titles =>
    cases hrow : spaceFor? p titles s with
    | some row =>
      rw [carriedOut_space hrow]
      exact sameRecords_withMembers row titles
    | none =>
      rw [carriedOut_of_no_space hrow]
      exact .refl s
  | graph p type kind children =>
    exact ((sameRecords_materialize p kind).trans (sameRecords_withGraphDocument p type)).trans
      (sameRecords_foldl_withChild p children)
  | ignore reason => exact .refl s

end Reconcile
end NodeGraph
