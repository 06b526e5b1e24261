import NodeGraph.Proofs.Events
import NodeGraph.Proofs.Persistence

/-!
What the program itself does to a store, as single changes. Whatever each change keeps is kept by
every operation, and by passes that overlap.
-/
namespace NodeGraph

/-- What is done through the program: no row is written by hand and no node is saved as a whole. -/
def Operation.Guarded : Operation → Prop
  | addEvent _ => False
  | addDocument _ => False
  | changeRows _ _ _ _ => False
  | deleteRows _ _ => False
  | save _ => False
  | _ => True

/-- What an operation through the program, or passes that overlap, make of a store. -/
inductive Moves (tokens : Tokenizer) (s : Store) : Store → Prop
  | perform (clock : ℤ) {op : Operation} (h : op.Guarded) :
    Moves tokens s (op.perform { clock, tokens } s)
  | passes (schedule : List Turn) :
    Moves tokens s (Passes.run tokens schedule { store := s }).store

/-- A single change of a store. -/
inductive Change (tokens : Tokenizer) (s : Store) : Store → Prop
  | lease (leases : List LeaseRow) : Change tokens s { s with leases }
  | queue {event : ℤ → QueuedEvent} (hid : ∀ id, (event id).id = id) :
    Change tokens s { s with queue := s.queue.add event }
  | claim (id : ℤ) : Change tokens s (s.claim id)
  | bury (now : ℤ) (e : QueuedEvent) (fault : Fault) : Change tokens s (s.bury now e fault)
  | forget : Change tokens s { s with deadLetters := { s.deadLetters with rows := [] } }
  | version (now : ℤ) {row : DocumentRow} (hrow : row ∈ s.documents.rows) (hash : String) :
    Change tokens s (Snapshot.writeVersion now row hash s)
  | upsert (clock : ℤ) (p : String) (type : DocumentType) (data : List UInt8)
    (json : Option Json) : Change tokens s (s.upserted { clock, tokens } p type data json)
  | delete (clock : ℤ) (row : DocumentRow) : Change tokens s (s.deleteDocument clock row)
  | carry (clock : ℤ) {event : Event} (hdata : ∀ v ∈ event.newData, v.Sound) :
    Change tokens s (Reconcile.carriedOut { clock, tokens } (Plan.ofEvent event) s)
  | create (clock : ℤ) (p title : String) {slug : String} (hfree : s.space? p = none)
    (hslug : s.hasSlug slug = false) (owner : Option String) :
    Change tokens s
      { s with
        spaces := s.spaces.add (Spaces.newSpace { clock, tokens } p title slug)
        members := s.members ++ owner.toList.map fun principal =>
          { space := s.spaces.nextId, principal, role := Spaces.ownerRole } }
  | expel {space : Space} (hspace : space ∈ s.spaces.rows) {row : NodeRow}
    (hrow : row ∈ s.nodes.rows) :
    Change tokens s
      { s with
        live := s.live.filter (· ≠ (space.id, row.id))
        deleted := addPair (space.id, row.id) s.deleted }
  | edit {t : Store} (h : s.Edited tokens t) : Change tokens s t

/-- Changes one after the other. -/
def Changes (tokens : Tokenizer) : Store → Store → Prop :=
  Relation.ReflTransGen (Change tokens)

variable {tokens : Tokenizer} {s t : Store}

open Store

/-! ### What every change keeps -/

theorem Change.sound (h : s.Sound tokens) (hchange : Change tokens s t) : t.Sound tokens := by
  cases hchange with
  | lease leases => exact Pass.withLeases_sound h leases
  | queue hid => exact h.withQueue (h.queueIds.add (hid _))
  | claim id => exact h.withQueue (h.queueIds.keep _)
  | bury now e fault =>
    exact ⟨h.toDocumentsSound.congr rfl, ⟨h.queueIds, h.letterIds.add rfl⟩,
      h.toGraphSound.congr rfl rfl rfl rfl rfl⟩
  | forget =>
    exact ⟨h.toDocumentsSound.congr rfl, ⟨h.queueIds, h.letterIds.sublist (List.nil_sublist _)⟩,
      h.toGraphSound.congr rfl rfl rfl rfl rfl⟩
  | version now hrow hash => exact h.congr rfl rfl rfl rfl rfl rfl rfl
  | upsert clock p type data json => exact upserted_sound h { clock, tokens } p type data json
  | delete clock row => exact deleteDocument_sound clock h row
  | @carry clock event hdata =>
    let env : Env := { clock, tokens }
    have hgraph : s.GraphSound env.tokens := h.toGraphSound
    have hsame := Reconcile.sameRecords_carriedOut env s (Plan.ofEvent event)
    exact h.withGraph (Reconcile.carriedOut_sound rfl hgraph (Plan.sound_ofEvent hdata))
      hsame.documents hsame.queue hsame.deadLetters
  | create clock p title hfree hslug owner =>
    exact Spaces.addSpace_sound { clock, tokens } h hfree title _ _
  | expel hspace hrow => exact Spaces.moved_sound h _
  | edit hedited => exact hedited.sound h

theorem Change.persists (hchange : Change tokens s t) : Persists s t := by
  cases hchange with
  | upsert clock p type data json => exact persists_upserted { clock, tokens } s p type data json
  | delete clock row => exact persists_deleteDocument clock s row
  | carry clock hdata => exact Reconcile.persists_carriedOut { clock, tokens } _ s
  | create clock p title hfree hslug owner =>
    exact Spaces.persists_newSpace { clock, tokens } s p title _ _
  | expel hspace hrow => exact Spaces.persists_moved hspace hrow
  | edit hedited => exact hedited.persists
  | _ => exact persists_of_graph rfl rfl rfl rfl

theorem Changes.sound (hs : s.Sound tokens) (h : Changes tokens s t) : t.Sound tokens := by
  induction h with
  | refl => exact hs
  | tail _ hchange ih => exact hchange.sound ih

/-! ### Passes -/

theorem change_carry {event : Event} (env : Env) (quiet : env.rivals = {})
    (hdata : ∀ v ∈ event.newData, v.Sound) :
    Change env.tokens s (Reconcile.carriedOut env (Plan.ofEvent event) s) := by
  obtain ⟨clock, tokens, rivals⟩ := env
  obtain rfl : rivals = {} := quiet
  exact .carry clock hdata

/-- A settled event is claimed, and then it is buried or its plan is carried out. -/
theorem changes_settledAs (env : Env) (quiet : env.rivals = {}) (s : Store) (e : QueuedEvent) :
    Changes env.tokens s (Pass.settledAs env e s (e.verdict s)) := by
  have hclaim : Changes env.tokens s (s.claim e.id) := .single (.claim e.id)
  cases hverdict : e.verdict s with
  | dropped => exact hclaim
  | buried fault => exact hclaim.tail (.bury env.now e fault)
  | carried plan =>
    obtain ⟨event, hevent, rfl, -⟩ := Pass.exists_event_of_carried hverdict
    exact hclaim.tail (change_carry env quiet (QueuedEvent.sound_decode hevent))

theorem changes_settle (env : Env) (quiet : env.rivals = {}) (h : s.GraphSound env.tokens)
    (e : QueuedEvent) : Changes env.tokens s (Pass.settle env s e) := by
  rcases Pass.settle_cases quiet h e with ⟨-, hsame⟩ | ⟨-, hsettled⟩
  · rw [hsame]
    exact .refl
  · rw [hsettled]
    exact changes_settledAs env quiet s e

theorem changes_pass (env : Env) (quiet : env.rivals = {}) (h : s.Sound env.tokens) (owner : ℕ)
    (strict : Bool) (ttl : ℤ) :
    Changes env.tokens s ((Pass.run env owner strict ttl).outcome s).2 :=
  Pass.run_induction quiet (P := Changes env.tokens s) (fun _ leases ht => ht.tail (.lease leases))
    (fun _ e ht hkept => hkept.trans (changes_settle env quiet ht.toGraphSound e)) h .refl
    owner strict ttl

theorem changes_attempt (env : Env) (quiet : env.rivals = {}) (h : s.GraphSound env.tokens)
    (e : QueuedEvent) : Changes env.tokens s (Pass.attempt env e s).2 := by
  cases hqueued : s.isQueued e.id with
  | false =>
    rcases Pass.attempt_of_not_queued env hqueued with hskipped | ⟨fault, hfailed⟩
    · rw [hskipped]
      exact .refl
    · rw [hfailed]
      exact .refl
  | true =>
    have hsettled := changes_settledAs env quiet s e
    rw [Pass.attempt_of_queued quiet h hqueued]
    cases hverdict : e.verdict s with
    | buried fault => exact .refl
    | _ =>
      rw [hverdict] at hsettled
      exact hsettled

/-- One transaction of one of several passes. -/
theorem changes_advance (env : Env) (quiet : env.rivals = {}) (i : ℕ) (c : Passes)
    (h : c.store.GraphSound env.tokens) : Changes env.tokens c.store (c.advance env i).store := by
  cases hprogress : c.progress i with
  | ready lease =>
    rw [Passes.advance_of_ready env hprogress]
    exact .refl
  | working lease todo =>
    cases todo with
    | nil =>
      rw [Passes.advance_of_done env hprogress]
      exact .single (.lease _)
    | cons e rest =>
      have hattempt := changes_attempt env quiet h e
      rw [Passes.advance_of_working env hprogress]
      generalize Pass.attempt env e c.store = outcome at hattempt
      obtain ⟨attempt, t⟩ := outcome
      cases attempt <;> exact hattempt
  | failing lease e fault rest =>
    rw [Passes.advance_of_failing env hprogress]
    show Changes env.tokens c.store (Pass.setAside env e fault c.store)
    unfold Pass.setAside
    split
    · exact (Relation.ReflTransGen.single (.claim e.id)).tail (.bury env.now e fault)
    · exact .refl
  | _ =>
    unfold Passes.advance
    rw [hprogress]
    exact .refl

theorem changes_enter (env : Env) (i owner : ℕ) (ttl : ℤ) (c : Passes) :
    Changes tokens c.store (c.enter env i owner ttl).store := by
  rcases c.enter_cases env i owner ttl with
    hsame | ⟨-, leases, hcontended | ⟨lease, hready⟩⟩
  · rw [hsame]
    exact .refl
  · rw [hcontended]
    exact .single (.lease _)
  · rw [hready]
    exact .single (.lease _)

theorem changes_stop (release : Bool) (i : ℕ) (c : Passes) :
    Changes tokens c.store (c.stop release i).store := by
  rcases c.stop_cases release i with hsame | ⟨leases, hstopped⟩
  · rw [hsame]
    exact .refl
  · rw [hstopped]
    exact .single (.lease _)

theorem changes_passes (schedule : List Turn) (c : Passes) (h : c.store.Sound tokens) :
    Changes tokens c.store (c.run tokens schedule).store := by
  induction schedule generalizing c with
  | nil => exact .refl
  | cons turn rest ih =>
    have hturn : Changes tokens c.store (c.take tokens turn).store := by
      unfold Passes.take
      split
      · exact changes_enter _ _ _ _ c
      · exact changes_advance { clock := turn.clock, tokens } rfl _ c h.toGraphSound
      · exact changes_stop false _ c
      · exact changes_stop true _ c
    exact hturn.trans (ih (c.take tokens turn) (hturn.sound h))

/-! ### Other operations -/

theorem changes_queue {α : Type} (event : α → ℤ → QueuedEvent)
    (hid : ∀ a id, (event a id).id = id) (items : List α) (s : Store) :
    Changes tokens s
      { s with queue := items.foldl (fun queue a => queue.add (event a)) s.queue } := by
  induction items generalizing s with
  | nil => exact .refl
  | cons a rest ih =>
    have hfirst : Change tokens s { s with queue := s.queue.add (event a) } := .queue (hid a)
    exact (Relation.ReflTransGen.single hfirst).trans
      (ih { s with queue := s.queue.add (event a) })

theorem changes_requeued (s : Store) : Changes tokens s s.requeued :=
  (changes_queue (fun letter => Queue.replay (s.document? letter.publicId letter.type) letter)
    (fun _ _ => rfl) (Queue.latestFailures s.deadLetters.rows) s).tail .forget

theorem changes_snapshot (env : Env) (owner : ℕ) (options : Snapshot.Options) (time : ℤ)
    (s : Store) : Changes tokens s ((Snapshot.run env owner options time).outcome s).2 := by
  rcases Snapshot.run_taken env owner options time s with hsame | htaken
  · rw [hsame]
    exact .refl
  · rw [htaken]
    have hleased : Changes tokens s (Pass.leased env.now owner Lease.snapshots options.leaseTtl s) :=
      .single (.lease _)
    refine Relation.ReflTransGen.tail ?_ (.lease _)
    refine Snapshot.take_induction (P := Changes tokens s) options time hleased
      fun t row hash honly hrow ht => ?_
    have hthere : row ∈ t.documents.rows := by
      obtain ⟨versions, rfl⟩ := honly
      exact hrow
    exact ht.tail (.version time hthere hash)

/-- An operation through the program is a succession of changes. -/
theorem Operation.changes_perform (clock : ℤ) (h : s.Sound tokens) {op : Operation}
    (hop : op.Guarded) : Changes tokens s (op.perform { clock, tokens } s) := by
  have quiet : ({ clock, tokens } : Env).rivals = {} := rfl
  by_cases hsnapshot : ∃ owner options time, op = snapshot owner options time
  · obtain ⟨owner, options, time, rfl⟩ := hsnapshot
    exact changes_snapshot _ owner options time s
  have heffect := op.effect_perform quiet h.toGraphSound
  generalize op.perform { clock, tokens } s = t at heffect ⊢
  cases heffect with
  | nothing => exact .refl
  | upsert p type data json => exact .single (.upsert clock p type data json)
  | delete hrow => exact .single (.delete clock _)
  | enqueue p type action oldData newData => exact .single (.queue fun _ => rfl)
  | pass owner strict ttl => exact changes_pass { clock, tokens } quiet h owner strict ttl
  | requeue => exact changes_requeued s
  | createSpace owner suffix hfree hslug => exact .single (.create clock _ _ hfree hslug owner)
  | expel hspace hrow =>
    exact .single (.expel (h.space?_eq_some.mp hspace).1 (h.nodeRow?_eq_some.mp hrow).1)
  | setTitle hrow title =>
    exact .single (.edit (Nodes.edited_titled { clock, tokens } h.toGraphSound hrow title))
  | setRemoved hnode removed =>
    exact .single (.edit (Nodes.edited_marked { clock, tokens } h.toGraphSound removed _))
  | snapshot owner options time => exact absurd ⟨owner, options, time, rfl⟩ hsnapshot
  | _ => exact False.elim hop

theorem Moves.changes (h : s.Sound tokens) (hmove : Moves tokens s t) : Changes tokens s t := by
  cases hmove with
  | perform clock hop => exact Operation.changes_perform clock h hop
  | passes schedule => exact changes_passes schedule { store := s } h

end NodeGraph
