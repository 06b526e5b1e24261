import NodeGraph.Proofs.Convergence

/-!
Replays: a pass gives a node the content, and a space the members, of the last write or of a later
one. Only a failure that is replayed while its document is gone may bring back an earlier value.
-/
namespace NodeGraph

open Store

/-- The two values of an event are not both understood. -/
def Unreadable (oldData newData : Option String) : Prop :=
  ∀ old new, decodePayload oldData = .ok old → decodePayload newData ≠ .ok new

theorem QueuedEvent.not_unreadable {e : QueuedEvent} {event : Event} (h : e.decode = .ok event) :
    ¬ Unreadable e.oldData e.newData := by
  obtain ⟨-, hold, hnew, -⟩ := decode_eq_ok.mp h
  exact fun hunreadable => hunreadable _ _ hold hnew

/-- An event that is no space's is buried only if it is not understood. -/
theorem QueuedEvent.unreadable_of_buried {e : QueuedEvent} {s : Store} {fault : Fault}
    (htype : e.type ≠ DocumentType.space.name) (h : e.verdict s = .buried fault) :
    Unreadable e.oldData e.newData := by
  intro old new hold hnew
  unfold verdict at h
  cases hkinds : e.kinds with
  | error fault => simp [hkinds] at h
  | ok kinds =>
    have hevent : e.decode = .ok { e with
        type := kinds.1, action := kinds.2, oldData := old, newData := new } :=
      decode_eq_ok.mpr ⟨hkinds, hold, hnew, rfl, rfl, rfl⟩
    rw [hkinds, hevent] at h
    dsimp only at h
    split at h
    · rename_i fault hobstacle
      obtain ⟨hspace, -⟩ := Plan.obstacle?_ofEvent hobstacle
      obtain ⟨hname, -⟩ := names_of_decode hevent
      exact htype (hname.symm.trans (congrArg DocumentType.name hspace))
    · exact nomatch h

/-! ### One event -/

namespace Store

/-- The node of a public id has the content it had, which may have been written anew. -/
def KeepsContent (p : String) (s t : Store) : Prop :=
  ∃ k : ℕ, t.contentAt p = (s.contentAt p).map (Json.reread^[k])

/-- The node of a public id has the content that a text stands for. -/
def HasContentOf (p : String) (t : Store) (text : Option String) : Prop :=
  ∃ (data : Option Json) (k : ℕ), decodePayload text = .ok data ∧
    t.contentAt p = (data.bind Reconcile.contentOf).map (Json.reread^[k])

/-- The space of a public id has the members it had. -/
def KeepsMembers (p : String) (s t : Store) : Prop :=
  ∀ q, t.IsMember p q ↔ s.IsMember p q

/-- The space of a public id has the members that a text lists. -/
def HasMembersOf (p : String) (t : Store) (text : Option String) : Prop :=
  ∃ data, decodePayload text = .ok (some data) ∧ ∀ q, t.IsMember p q ↔ q ∈ (Plan.titlesIn data).keys

variable {p : String} {s t u : Store} {text : Option String}

theorem iterate_reread_map (json : Option Json) (j k : ℕ) :
    (json.map (Json.reread^[j])).map (Json.reread^[k]) = json.map (Json.reread^[k + j]) := by
  rw [Option.map_map, Function.iterate_add]

theorem KeepsContent.refl (p : String) (s : Store) : KeepsContent p s s :=
  ⟨0, by simp⟩

theorem KeepsContent.trans (h : KeepsContent p s t) (h' : KeepsContent p t u) :
    KeepsContent p s u := by
  obtain ⟨j, hj⟩ := h
  obtain ⟨k, hk⟩ := h'
  exact ⟨k + j, by rw [hk, hj, iterate_reread_map]⟩

theorem HasContentOf.keeps (h : HasContentOf p s text) (h' : KeepsContent p s t) :
    HasContentOf p t text := by
  obtain ⟨data, j, hdata, hj⟩ := h
  obtain ⟨k, hk⟩ := h'
  exact ⟨data, k + j, hdata, by rw [hk, hj, iterate_reread_map]⟩

theorem KeepsMembers.refl (p : String) (s : Store) : KeepsMembers p s s :=
  fun _ => Iff.rfl

theorem KeepsMembers.trans (h : KeepsMembers p s t) (h' : KeepsMembers p t u) :
    KeepsMembers p s u :=
  fun q => (h' q).trans (h q)

theorem HasMembersOf.keeps (h : HasMembersOf p s text) (h' : KeepsMembers p s t) :
    HasMembersOf p t text := by
  obtain ⟨data, hdata, hmembers⟩ := h
  exact ⟨data, hdata, fun q => (h' q).trans (hmembers q)⟩

theorem keepsContent_of_nodes (hnodes : t.nodes = s.nodes) : KeepsContent p s t := by
  refine ⟨0, ?_⟩
  unfold contentAt nodeRow?
  rw [hnodes]
  simp

theorem keepsMembers_of_graph (hnodes : t.nodes = s.nodes) (hspaces : t.spaces = s.spaces)
    (hlive : t.live = s.live) : KeepsMembers p s t := by
  intro q
  unfold IsMember
  rw [hnodes, hspaces, hlive]

end Store

namespace Reconcile

variable {env : Env} {s : Store} {event : Event} (quiet : env.rivals = {})
  (h : s.GraphSound env.tokens) (hdata : ∀ v ∈ event.newData, v.Sound)
  (hspace : (Plan.ofEvent event).obstacle? s = none)

include quiet h hdata hspace

/-- An event changes a content only if it is one of the editor document. -/
theorem contentAt_carriedOut (p : String) :
    KeepsContent p s (carriedOut env (Plan.ofEvent event) s) ∨
      (event.action ≠ .delete ∧ event.publicId = p ∧ event.type = .editor ∧
        (carriedOut env (Plan.ofEvent event) s).contentAt p =
          (event.newData.bind contentOf).map Json.reread) := by
  have hasked := Plan.asked event
  have hplan := Plan.sound_ofEvent hdata
  have hsound := (apply_eq quiet h hplan hspace).2
  generalize Plan.ofEvent event = plan at *
  cases hasked with
  | deleted => exact Or.inl (.refl p s)
  | missing => exact Or.inl (.refl p s)
  | editor haction htype =>
    by_cases hkey : event.publicId = p
    · refine Or.inr ⟨haction, hkey, htype, ?_⟩
      have hbind : contentOf (event.newData.getD .null) = event.newData.bind contentOf := by
        cases event.newData <;> rfl
      rw [← hbind, ← hkey]
      exact contentAt_withContent h hplan
    · left
      refine ⟨0, ?_⟩
      have hsame : (carriedOut env (.editor event.publicId (event.newData.getD .null)) s).contentAt
          p = s.contentAt p :=
        contentAt_withContent_of_ne h hplan (Ne.symm hkey)
      rw [hsame]
      simp
  | space _ _ data _ =>
    obtain ⟨space, hrow⟩ := Plan.obstacle?_eq_none.mp hspace
    rw [carriedOut_space hrow] at hsound ⊢
    exact Or.inl (contentAt_of_grows h hsound (grows_withMembers env s space hplan) p)
  | graph => exact Or.inl (contentAt_of_grows h hsound (grows_withChildren h _ _ _ _) p)

/-- An event changes the members of a space only if it is one of the space document. -/
theorem isMember_carriedOut (p : String) :
    KeepsMembers p s (carriedOut env (Plan.ofEvent event) s) ∨
      (event.action ≠ .delete ∧ event.publicId = p ∧ event.type = .space ∧
        ∃ data, event.newData = some data ∧ ∀ q,
          (carriedOut env (Plan.ofEvent event) s).IsMember p q ↔
            q ∈ (Plan.titlesIn data).keys) := by
  have hasked := Plan.asked event
  have hplan := Plan.sound_ofEvent hdata
  have hsound := (apply_eq quiet h hplan hspace).2
  generalize Plan.ofEvent event = plan at *
  cases hasked with
  | deleted => exact Or.inl (.refl p s)
  | missing => exact Or.inl (.refl p s)
  | editor => exact Or.inl fun q => isMember_withContent h hplan
  | space haction htype data hvalue =>
    obtain ⟨space, hroom⟩ := Plan.obstacle?_eq_none.mp hspace
    have hrow := (spaceFor?_eq_some.mp hroom).1
    rw [carriedOut_space hroom] at hsound ⊢
    by_cases hkey : event.publicId = p
    · subst hkey
      exact Or.inr ⟨haction, rfl, htype, data, hvalue,
        fun q => isMember_withMembers h hsound hplan hrow⟩
    · exact Or.inl fun q => isMember_withMembers_of_ne h hsound hplan hrow (Ne.symm hkey)
  | graph => exact Or.inl fun q => isMember_withChildren h _ _ _

end Reconcile

section Settle

variable {env : Env} {s : Store} {e : QueuedEvent}

/-- An event leaves the graph as it is, or the plan it asks for is carried out. -/
theorem settledAs_cases (env : Env) (s : Store) (e : QueuedEvent) :
    ((Pass.settledAs env e s (e.verdict s)).nodes = s.nodes ∧
        (Pass.settledAs env e s (e.verdict s)).spaces = s.spaces ∧
        (Pass.settledAs env e s (e.verdict s)).live = s.live) ∨
      ∃ event, e.decode = .ok event ∧ (Plan.ofEvent event).obstacle? s = none ∧
        Pass.settledAs env e s (e.verdict s) =
          Reconcile.carriedOut env (Plan.ofEvent event) (s.claim e.id) := by
  cases hverdict : e.verdict s with
  | dropped => exact Or.inl ⟨rfl, rfl, rfl⟩
  | buried fault => exact Or.inl ⟨rfl, rfl, rfl⟩
  | carried plan =>
    unfold QueuedEvent.verdict at hverdict
    cases hkinds : e.kinds with
    | error fault => simp [hkinds] at hverdict
    | ok kinds =>
      cases hevent : e.decode with
      | error fault => simp [hkinds, hevent] at hverdict
      | ok event =>
        right
        rw [hkinds, hevent] at hverdict
        dsimp only at hverdict
        split at hverdict
        · exact nomatch hverdict
        · rename_i hspace
          rw [← Verdict.carried.inj hverdict]
          exact ⟨event, rfl, hspace, rfl⟩

/-- The event may set what is known of the document with that public id and type. -/
def QueuedEvent.Sets (e : QueuedEvent) (p : String) (type : DocumentType) : Prop :=
  e.key = (p, type.name) ∧ e.action ≠ Action.delete.name ∧ ¬ Unreadable e.oldData e.newData

theorem QueuedEvent.sets_of_decode {event : Event} (h : e.decode = .ok event)
    (haction : event.action ≠ .delete) : e.Sets event.publicId event.type := by
  obtain ⟨htype, hname⟩ := names_of_decode h
  obtain ⟨-, -, -, -, hid, -⟩ := decode_eq_ok.mp h
  refine ⟨?_, fun heq => haction (Action.name_injective (hname.trans heq)), not_unreadable h⟩
  rw [hid, htype]
  rfl

theorem content_settledAs (quiet : env.rivals = {}) (h : s.Sound env.tokens) (p : String) :
    KeepsContent p s (Pass.settledAs env e s (e.verdict s)) ∨
      e.Sets p .editor ∧ HasContentOf p (Pass.settledAs env e s (e.verdict s)) e.newData := by
  rcases settledAs_cases env s e with ⟨hnodes, -⟩ | ⟨event, hevent, hspace, hsettled⟩
  · exact Or.inl (keepsContent_of_nodes hnodes)
  · have hclaimed := Pass.claim_sound h.toGraphSound e.id
    have hdata := QueuedEvent.sound_decode hevent
    obtain ⟨-, -, hnew, -⟩ := QueuedEvent.decode_eq_ok.mp hevent
    rw [hsettled]
    rcases Reconcile.contentAt_carriedOut quiet hclaimed hdata hspace p with
      hkept | ⟨haction, rfl, htype, hcontent⟩
    · exact Or.inl hkept
    · right
      have hsets := QueuedEvent.sets_of_decode hevent haction
      rw [htype] at hsets
      exact ⟨hsets, event.newData, 1, hnew, hcontent⟩

theorem members_settledAs (quiet : env.rivals = {}) (h : s.Sound env.tokens) (p : String) :
    KeepsMembers p s (Pass.settledAs env e s (e.verdict s)) ∨
      e.Sets p .space ∧ HasMembersOf p (Pass.settledAs env e s (e.verdict s)) e.newData := by
  rcases settledAs_cases env s e with
    ⟨hnodes, hspaces, hlive⟩ | ⟨event, hevent, hspace, hsettled⟩
  · exact Or.inl (keepsMembers_of_graph hnodes hspaces hlive)
  · have hclaimed := Pass.claim_sound h.toGraphSound e.id
    have hdata := QueuedEvent.sound_decode hevent
    obtain ⟨-, -, hnew, -⟩ := QueuedEvent.decode_eq_ok.mp hevent
    rw [hsettled]
    rcases Reconcile.isMember_carriedOut quiet hclaimed hdata hspace p with
      hkept | ⟨haction, rfl, htype, data, hvalue, hmembers⟩
    · exact Or.inl hkept
    · right
      have hsets := QueuedEvent.sets_of_decode hevent haction
      rw [htype] at hsets
      exact ⟨hsets, data, hvalue ▸ hnew, hmembers⟩

/-- Something that can be read of the graph and is known of one document: whether it is kept, and
whether it is what a text stands for. Only an event that may set it changes it. -/
structure IsReading (p : String) (type : DocumentType) (Kept : Store → Store → Prop)
    (Has : Store → Option String → Prop) : Prop where
  graph : ∀ s t, t.nodes = s.nodes → t.spaces = s.spaces → t.live = s.live → Kept s t
  trans : ∀ s t u, Kept s t → Kept t u → Kept s u
  keeps : ∀ s t text, Has s text → Kept s t → Has t text
  settled : ∀ (env : Env) (s : Store) (e : QueuedEvent), env.rivals = {} → s.Sound env.tokens →
    Kept s (Pass.settledAs env e s (e.verdict s)) ∨
      e.Sets p type ∧ Has (Pass.settledAs env e s (e.verdict s)) e.newData

theorem isReading_content (p : String) :
    IsReading p .editor (KeepsContent p) (HasContentOf p) where
  graph _ _ hnodes _ _ := keepsContent_of_nodes hnodes
  trans _ _ _ := KeepsContent.trans
  keeps _ _ _ := HasContentOf.keeps
  settled _ _ _ quiet h := content_settledAs quiet h p

theorem isReading_members (p : String) :
    IsReading p .space (KeepsMembers p) (HasMembersOf p) where
  graph _ _ hnodes hspaces hlive := keepsMembers_of_graph hnodes hspaces hlive
  trans _ _ _ := KeepsMembers.trans
  keeps _ _ _ := HasMembersOf.keeps
  settled _ _ _ quiet h := members_settledAs quiet h p

end Settle

/-! ### What may still be set -/

section UpToDate

variable {allowed : Option String → Prop} {tokens : Tokenizer} {env : Env} {p : String}
  {type : DocumentType} {s : Store}

/-- All that a pass may yet set of a document is allowed: its value, and the values that are queued
of it unless they cannot be read or the event tells of a deletion. -/
structure UpToDate (allowed : Option String → Prop) (tokens : Tokenizer) (p : String)
    (type : DocumentType) (s : Store) : Prop where
  sound : s.Sound tokens
  leases : s.leases = []
  document : ∀ row ∈ s.document? p type.name, allowed row.json
  events : ∀ e ∈ s.queue.rows, e.Sets p type → allowed e.newData

theorem UpToDate.congr {t : Store} (h : UpToDate allowed tokens p type s) (hsound : t.Sound tokens)
    (hleases : t.leases = []) (hdocuments : t.documents = s.documents) (hqueue : t.queue = s.queue) :
    UpToDate allowed tokens p type t := by
  refine ⟨hsound, hleases, ?_, hqueue ▸ h.events⟩
  unfold document?
  rw [hdocuments]
  exact h.document

namespace Operation

/-- What an operation brings to a document is allowed: the value that it writes, or that of the
failure that it replays without a document. -/
def Brings (allowed : Option String → Prop) (p : String) (type : DocumentType) (s : Store) :
    Operation → Prop
  | upsert q t _ json => q = p → t = type → allowed (json.map Json.compact)
  | requeue => s.document? p type.name = none →
    ∀ letter ∈ Queue.latestFailures s.deadLetters.rows, letter.key = (p, type.name) →
      Unreadable letter.oldData letter.newData ∨ allowed letter.newData
  | _ => True

theorem upToDate_requeued (h : UpToDate allowed tokens p type s)
    (hbrings : requeue.Brings allowed p type s) : UpToDate allowed tokens p type s.requeued := by
  refine ⟨requeued_sound h.sound, h.leases, h.document, fun e he hsets => ?_⟩
  rcases Queue.mem_queue_requeued.mp he with hold | ⟨letter, hletter, i, -, rfl⟩
  · exact h.events e hold hsets
  · obtain ⟨hkey, -, hreadable⟩ := hsets
    have hkeys := Prod.mk.inj hkey
    have hsame : s.document? letter.publicId letter.type = s.document? p type.name := by
      rw [← hkeys.1, ← hkeys.2]
      rfl
    rw [hsame] at hreadable ⊢
    cases hfound : s.document? p type.name with
    | none =>
      rw [hfound] at hreadable
      rcases hbrings hfound letter hletter hkey with hunreadable | hallowed
      · exact absurd hunreadable hreadable
      · exact hallowed
    | some row => exact h.document row hfound

theorem upToDate_upserted (h : UpToDate allowed tokens p type s) (q : String) (t : DocumentType)
    (data : List UInt8) (json : Option Json)
    (hbrings : (upsert q t data json).Brings allowed p type s) :
    UpToDate allowed tokens p type (s.upserted env q t data json) := by
  obtain ⟨row, hpublicId, htype, hvalue, -, hdocument⟩ :=
    document?_upserted h.sound env q t data json
  obtain ⟨action, oldData, -, -, hqueue⟩ := queue_upserted env s q t data json
  obtain ⟨-, -, -, -, -, hleases⟩ := upserted_frame env s q t data json
  refine ⟨upserted_sound h.sound env q t data json, hleases.trans h.leases, fun d hd => ?_,
    fun e he hsets => ?_⟩
  · rw [hdocument, Option.mem_def] at hd
    split at hd
    · rename_i hkey
      rw [← Option.some.inj hd, hvalue]
      exact hbrings hkey.1.symm (DocumentType.name_injective hkey.2.symm)
    · exact h.document d hd
  · rw [hqueue] at he
    rcases List.mem_append.mp he with hold | hnew
    · exact h.events e hold hsets
    · obtain ⟨hkey, -⟩ := hsets
      rw [List.mem_singleton.mp hnew] at hkey ⊢
      obtain ⟨hid, hname⟩ := Prod.mk.inj hkey
      exact hbrings hid (DocumentType.name_injective hname)

theorem upToDate_withoutDocument (h : UpToDate allowed tokens p type s) (q : String)
    (t : DocumentType) : UpToDate allowed tokens p type (s.withoutDocument env q t) := by
  have hsound := withoutDocument_sound h.sound env q t
  unfold Store.withoutDocument at hsound ⊢
  cases hfound : s.document? q t.name with
  | none => exact h
  | some row =>
    rw [hfound] at hsound
    refine ⟨hsound, h.leases, fun d hd => ?_, fun e he hsets => ?_⟩
    · rw [document?_deleteDocument h.sound (List.mem_of_find?_eq_some hfound), Option.mem_def] at hd
      split at hd
      · exact nomatch hd
      · exact h.document d hd
    · rcases List.mem_append.mp he with hold | hnew
      · exact h.events e hold hsets
      · obtain ⟨-, haction, -⟩ := hsets
        rw [List.mem_singleton.mp hnew] at haction
        exact absurd rfl haction

/-- What a pass leaves alone, and that nothing is queued after it. -/
theorem perform_pass_frame (quiet : env.rivals = {}) (h : s.Sound env.tokens)
    (hleases : s.leases = []) (owner : ℕ) (ttl : ℤ) :
    ((pass owner false ttl).perform env s).queue.rows = [] ∧
      ((pass owner false ttl).perform env s).documents = s.documents := by
  have hleased := Pass.withLeases_sound h
    (Pass.leased env.now owner Lease.processing ttl s).leases
  rw [perform_pass hleases]
  constructor
  · exact Pass.queue_settled quiet hleased fun e he => Pass.mem_pending.mpr he
  · have hfolded : ∀ (events : List QueuedEvent) (t : Store), t.Sound env.tokens →
        (events.foldl (Pass.settle env) t).documents = t.documents := by
      intro events
      induction events with
      | nil => exact fun t _ => rfl
      | cons e rest ih =>
        intro t ht
        exact (ih _ (Pass.settle_sound quiet ht e)).trans
          (Pass.settle_frame quiet ht.toGraphSound e).1
    exact hfolded s.pending _ hleased

theorem perform_upToDate (quiet : env.rivals = {}) {op : Operation} (hop : op.Tame)
    (hbrings : op.Brings allowed p type s) (h : UpToDate allowed env.tokens p type s) :
    UpToDate allowed env.tokens p type (op.perform env s) := by
  have hsound := perform_sound quiet hop.held h.sound
  have hleases := leases_perform quiet hop h.sound h.leases
  have heffect := op.effect_perform quiet h.sound.toGraphSound
  generalize op.perform env s = t at hsound hleases heffect ⊢
  cases heffect with
  | nothing => exact h
  | upsert q t data json => exact upToDate_upserted h q t data json hbrings
  | @delete q t row hrow =>
    rw [← withoutDocument_of_some hrow]
    exact upToDate_withoutDocument h q t
  | pass owner strict ttl =>
    obtain rfl : strict = false := hop
    show UpToDate allowed env.tokens p type ((pass owner false ttl).perform env s)
    obtain ⟨hqueue, hdocuments⟩ := perform_pass_frame quiet h.sound h.leases owner ttl
    refine ⟨hsound, hleases, ?_, ?_⟩
    · unfold document?
      rw [hdocuments]
      exact h.document
    · rw [hqueue]
      exact fun e he => absurd he List.not_mem_nil
  | requeue => exact upToDate_requeued h hbrings
  | createSpace | snapshot => exact h.congr hsound hleases rfl rfl
  | _ => exact False.elim hop

/-- A pass keeps what is read of a document, or makes it an allowed value. -/
theorem perform_pass_reading (quiet : env.rivals = {}) {Kept : Store → Store → Prop}
    {Has : Store → Option String → Prop} (hreading : IsReading p type Kept Has)
    (h : UpToDate allowed env.tokens p type s) (owner : ℕ) (ttl : ℤ) :
    Kept s ((pass owner false ttl).perform env s) ∨
      ∃ text, allowed text ∧ Has ((pass owner false ttl).perform env s) text := by
  set leased := Pass.leased env.now owner Lease.processing ttl s with hleased
  have hsound : leased.Sound env.tokens := Pass.withLeases_sound h.sound _
  have hdone := Pass.foldl_settle_induction quiet
    (P := fun t => (∀ e ∈ t.queue.rows, e ∈ s.queue.rows) ∧
      (Kept leased t ∨ ∃ text, allowed text ∧ Has t text))
    (fun t e ht he _ hP => ?_) hsound ⟨fun _ he => he, Or.inl (hreading.graph _ _ rfl rfl rfl)⟩
  · obtain ⟨-, hdone⟩ := hdone
    rw [perform_pass h.leases]
    have hstart : Kept s leased := hreading.graph _ _ rfl rfl rfl
    have hend : Kept (s.pending.foldl (Pass.settle env) leased)
        (Lease.release ⟨Lease.processing, owner, Clock.after env.now ttl⟩
          (s.pending.foldl (Pass.settle env) leased)) := hreading.graph _ _ rfl rfl rfl
    rcases hdone with hkept | ⟨text, hallowed, hhas⟩
    · exact Or.inl (hreading.trans _ _ _ hstart (hreading.trans _ _ _ hkept hend))
    · exact Or.inr ⟨text, hallowed, hreading.keeps _ _ _ hhas hend⟩
  · obtain ⟨hqueue, hP⟩ := hP
    refine ⟨fun other hother => hqueue other (mem_queue_settledAs.mp hother).1, ?_⟩
    rcases hreading.settled env t e quiet ht with hkept | ⟨hsets, hhas⟩
    · rcases hP with hbefore | ⟨text, hallowed, hhas⟩
      · exact Or.inl (hreading.trans _ _ _ hbefore hkept)
      · exact Or.inr ⟨text, hallowed, hreading.keeps _ _ _ hhas hkept⟩
    · exact Or.inr ⟨e.newData, h.events e (hqueue e he) hsets, hhas⟩

end Operation

end UpToDate

/-! ### Histories -/

/-- Among the events that are kept as failures only those of spaces can be read. -/
def Store.UnreadableLetters (s : Store) : Prop :=
  ∀ letter ∈ s.deadLetters.rows,
    letter.type ≠ DocumentType.space.name → Unreadable letter.oldData letter.newData

namespace Operation

/-- The value that an operation writes to a document. -/
def write? (p : String) (type : DocumentType) : Operation → Option (Option Json)
  | upsert q t _ json => if q = p ∧ t = type then some json else none
  | _ => none

variable {env : Env} {s : Store} {op : Operation} {p : String} {type : DocumentType}

/-- A document that is there after an operation has been written by it or was there before. -/
theorem document?_perform (quiet : env.rivals = {}) (h : s.Sound env.tokens)
    (hleases : s.leases = []) (hop : op.Tame) {row : DocumentRow}
    (hrow : row ∈ (op.perform env s).document? p type.name) :
    (∃ json, op.write? p type = some json ∧ row.json = json.map Json.compact) ∨
      op.write? p type = none ∧ row ∈ s.document? p type.name := by
  have heffect := op.effect_perform quiet h.toGraphSound
  generalize op.perform env s = t at heffect hrow
  cases heffect with
  | nothing hidle =>
    have hnone : op.write? p type = none := by
      cases op with
      | upsert => exact hidle.elim
      | _ => rfl
    exact Or.inr ⟨hnone, hrow⟩
  | upsert q t data json =>
    obtain ⟨new, -, -, hvalue, -, hdocument⟩ := document?_upserted h env q t data json
    rw [hdocument] at hrow
    by_cases hkey : q = p ∧ t = type
    · rw [if_pos ⟨hkey.1.symm, by rw [hkey.2]⟩] at hrow
      exact Or.inl ⟨json, if_pos hkey, Option.some.inj hrow ▸ hvalue⟩
    · rw [if_neg fun heq => hkey ⟨heq.1.symm, (DocumentType.name_injective heq.2).symm⟩] at hrow
      exact Or.inr ⟨if_neg hkey, hrow⟩
  | delete hfound =>
    refine Or.inr ⟨rfl, ?_⟩
    rw [document?_deleteDocument h (List.mem_of_find?_eq_some hfound)] at hrow
    split at hrow
    · exact nomatch hrow
    · exact hrow
  | pass owner strict ttl =>
    obtain rfl : strict = false := hop
    have hdocuments := (perform_pass_frame quiet h hleases owner ttl).2
    refine Or.inr ⟨rfl, ?_⟩
    unfold document? at hrow ⊢
    exact hdocuments ▸ hrow
  | requeue | createSpace | snapshot => exact Or.inr ⟨rfl, hrow⟩
  | _ => exact False.elim hop

theorem unreadableLetters_perform (quiet : env.rivals = {}) (h : s.Sound env.tokens)
    (hleases : s.leases = []) (hop : op.Tame) (hold : s.UnreadableLetters) :
    (op.perform env s).UnreadableLetters := by
  have heffect := op.effect_perform quiet h.toGraphSound
  generalize op.perform env s = t at heffect ⊢
  cases heffect with
  | upsert p type data json =>
    obtain ⟨-, -, -, -, hletters, -⟩ := upserted_frame env s p type data json
    rw [Store.UnreadableLetters, hletters]
    exact hold
  | pass owner strict ttl =>
    obtain rfl : strict = false := hop
    show ((pass owner false ttl).perform env s).UnreadableLetters
    rw [perform_pass hleases]
    have hleased := Pass.withLeases_sound h
      (Pass.leased env.now owner Lease.processing ttl s).leases
    refine Pass.foldl_settle_induction quiet (P := Store.UnreadableLetters)
      (fun u e _ _ _ hu => ?_) hleased hold
    intro letter hletter htype
    rcases mem_letters_settledAs hletter with
      hkept | ⟨fault, hburied, -, hsameType, -, holdData, hnewData, -⟩
    · exact hu letter hkept htype
    · rw [holdData, hnewData]
      exact QueuedEvent.unreadable_of_buried (hsameType ▸ htype) hburied
  | requeue => exact fun letter hletter => absurd hletter List.not_mem_nil
  | nothing | delete | createSpace | snapshot => exact hold
  | _ => exact False.elim hop

end Operation

namespace History

variable {tokens : Tokenizer} {s : Store} {p : String} {type : DocumentType}
  {history first later : List (ℤ × Operation)} {allowed : Option String → Prop}

/-- The values that are written to a document, one after the other. -/
def writes (p : String) (type : DocumentType) (history : List (ℤ × Operation)) :
    List (Option Json) :=
  history.filterMap fun entry => entry.2.write? p type

theorem writes_concat (p : String) (type : DocumentType) (past : List (ℤ × Operation))
    (entry : ℤ × Operation) :
    writes p type (past ++ [entry]) = writes p type past ++ (entry.2.write? p type).toList := by
  unfold writes
  rw [List.filterMap_append]
  cases hwrite : entry.2.write? p type <;> simp [hwrite]

theorem run_tame (htame : ∀ entry ∈ history, entry.2.Tame) (h : s.Sound tokens)
    (hleases : s.leases = []) :
    (run tokens history s).Sound tokens ∧ (run tokens history s).leases = [] := by
  induction history generalizing s with
  | nil => exact ⟨h, hleases⟩
  | cons entry rest ih =>
    have hop := htame entry List.mem_cons_self
    have hquiet : ({ clock := entry.1, tokens } : Env).rivals = {} := rfl
    exact ih (fun other hother => htame other (List.mem_cons_of_mem _ hother))
      (Operation.perform_sound hquiet hop.held h) (Operation.leases_perform hquiet hop h hleases)

/-- A document has the value that was written to it last. -/
theorem document_last_write (htame : ∀ entry ∈ history, entry.2.Tame) (p : String)
    (type : DocumentType) : ∀ row ∈ (run tokens history {}).document? p type.name,
      ∃ json ∈ (writes p type history).getLast?, row.json = json.map Json.compact := by
  induction history using List.reverseRecOn with
  | nil => exact fun row hrow => nomatch hrow
  | append_singleton past entry ih =>
    intro row hrow
    obtain ⟨hpast, hlast⟩ := List.forall_mem_append.mp htame
    have hop := hlast entry List.mem_cons_self
    obtain ⟨hsound, hleases⟩ := run_tame hpast (sound_empty tokens) rfl
    rw [run_append] at hrow
    rw [writes_concat]
    have hquiet : ({ clock := entry.1, tokens } : Env).rivals = {} := rfl
    rcases Operation.document?_perform hquiet hsound hleases hop hrow with
      ⟨json, hwrite, hvalue⟩ | ⟨hnone, hold⟩
    · rw [hwrite]
      exact ⟨json, by simp, hvalue⟩
    · rw [hnone, Option.toList_none, List.append_nil]
      exact ih hpast row hold

/-- An event that is no space's is kept as a failure only if it cannot be read. -/
theorem unreadable_letters (htame : ∀ entry ∈ history, entry.2.Tame) :
    (run tokens history {}).UnreadableLetters := by
  induction history using List.reverseRecOn with
  | nil => exact fun letter hletter => absurd hletter List.not_mem_nil
  | append_singleton past entry ih =>
    obtain ⟨hpast, hlast⟩ := List.forall_mem_append.mp htame
    have hop := hlast entry List.mem_cons_self
    have hquiet : ({ clock := entry.1, tokens } : Env).rivals = {} := rfl
    obtain ⟨hsound, hleases⟩ := run_tame hpast (sound_empty tokens) rfl
    rw [run_append]
    exact Operation.unreadableLetters_perform hquiet hsound hleases hop (ih hpast)

theorem run_upToDate (htame : ∀ entry ∈ later, entry.2.Tame)
    (hbrings : ∀ sooner entry rest, later = sooner ++ entry :: rest →
      entry.2.Brings allowed p type (run tokens sooner s))
    (h : UpToDate allowed tokens p type s) : UpToDate allowed tokens p type (run tokens later s) := by
  induction later generalizing s with
  | nil => exact h
  | cons entry rest ih =>
    have hquiet : ({ clock := entry.1, tokens } : Env).rivals = {} := rfl
    have hstep : UpToDate allowed tokens p type (entry.2.perform { clock := entry.1, tokens } s) :=
      Operation.perform_upToDate hquiet (htame entry List.mem_cons_self)
        (hbrings [] entry rest rfl) h
    refine ih (fun other hother => htame other (List.mem_cons_of_mem _ hother)) ?_ hstep
    intro sooner other rest' heq
    exact hbrings (entry :: sooner) other rest' (by rw [heq, List.cons_append])

/-- The value is the last one written by then, or was written later. -/
def Recent (p : String) (type : DocumentType) (first later : List (ℤ × Operation))
    (json : Option Json) : Prop :=
  json ∈ (writes p type first).getLast? ∨ json ∈ writes p type later

/-- While the space document was not there, its latest failure, kept with the text, was replayed. -/
def Orphaned (tokens : Tokenizer) (past later : List (ℤ × Operation)) (p : String)
    (text : Option String) : Prop :=
  ∃ sooner time rest, later = sooner ++ (time, .requeue) :: rest ∧
    (run tokens (past ++ sooner) {}).document? p DocumentType.space.name = none ∧
    ∃ letter ∈ Queue.latestFailures (run tokens (past ++ sooner) {}).deadLetters.rows,
      letter.key = (p, DocumentType.space.name) ∧ letter.newData = text

/-- After a completed pass only the last value written to a document may yet be set. -/
theorem upToDate_of_pass (hfirst : ∀ entry ∈ first, entry.2.Tame)
    (hlast : ∀ json ∈ (writes p type first).getLast?, allowed (json.map Json.compact)) (time : ℤ)
    (owner : ℕ) (ttl : ℤ) :
    UpToDate allowed tokens p type (run tokens (first ++ [(time, .pass owner false ttl)]) {}) := by
  have hpast : ∀ entry ∈ first ++ [(time, .pass owner false ttl)], entry.2.Tame :=
    List.forall_mem_append.mpr ⟨hfirst, List.forall_mem_singleton.mpr rfl⟩
  obtain ⟨hpastSound, hpastLeases⟩ := run_tame hpast (sound_empty tokens) rfl
  obtain ⟨hsound, hleases⟩ := run_tame hfirst (sound_empty tokens) rfl
  have hquiet : ({ clock := time, tokens } : Env).rivals = {} := rfl
  obtain ⟨hqueue, hdocuments⟩ := Operation.perform_pass_frame hquiet hsound hleases owner ttl
  have hpass : run tokens (first ++ [(time, .pass owner false ttl)]) {} =
      Operation.perform { clock := time, tokens } (.pass owner false ttl) (run tokens first {}) :=
    run_append first _
  rw [hpass] at hpastSound hpastLeases ⊢
  refine ⟨hpastSound, hpastLeases, fun row hrow => ?_, fun e he => ?_⟩
  · unfold document? at hrow
    rw [hdocuments] at hrow
    obtain ⟨json, hjson, hvalue⟩ := document_last_write hfirst p type row hrow
    rw [hvalue]
    exact hlast json hjson
  · rw [hqueue] at he
    exact absurd he List.not_mem_nil

/-- A later pass keeps what is read of a document, or makes it an allowed value. -/
theorem reading_of_upToDate {past : List (ℤ × Operation)} {Kept : Store → Store → Prop}
    {Has : Store → Option String → Prop} (hreading : IsReading p type Kept Has)
    (hpast : UpToDate allowed tokens p type (run tokens past {}))
    (hlater : ∀ entry ∈ later, entry.2.Tame)
    (hwrites : ∀ json ∈ writes p type later, allowed (json.map Json.compact))
    (hreplays : ∀ sooner time rest, later = sooner ++ (time, .requeue) :: rest →
      Operation.requeue.Brings allowed p type (run tokens (past ++ sooner) {})) (time : ℤ)
    (owner : ℕ) (ttl : ℤ) :
    Kept (run tokens (past ++ later) {})
        (run tokens (past ++ later ++ [(time, .pass owner false ttl)]) {}) ∨
      ∃ text, allowed text ∧
        Has (run tokens (past ++ later ++ [(time, .pass owner false ttl)]) {}) text := by
  have hbrings : ∀ sooner entry rest, later = sooner ++ entry :: rest →
      entry.2.Brings allowed p type (run tokens sooner (run tokens past {})) := by
    rintro sooner ⟨at', op⟩ rest heq
    cases op with
    | upsert q t data json =>
      rintro rfl rfl
      apply hwrites
      rw [heq]
      unfold writes
      rw [List.filterMap_append, List.filterMap_cons]
      simp [Operation.write?]
    | requeue =>
      rw [← run_append]
      exact hreplays sooner at' rest heq
    | _ => trivial
  have hlast : UpToDate allowed tokens p type (run tokens (past ++ later) {}) := by
    rw [run_append]
    exact run_upToDate hlater hbrings hpast
  have hpass : run tokens (past ++ later ++ [(time, .pass owner false ttl)]) {} =
      Operation.perform { clock := time, tokens } (.pass owner false ttl)
        (run tokens (past ++ later) {}) :=
    run_append (past ++ later) _
  have hquiet : ({ clock := time, tokens } : Env).rivals = {} := rfl
  rw [hpass]
  exact Operation.perform_pass_reading hquiet hreading hlast owner ttl

/-- Take any history of document writes, new spaces, passes, replays and snapshots in which a pass
has completed. A later pass leaves every content and every space's members as they are, or sets
them to the last value written before the completed pass or to one written since. The members alone
may also become those of a failure that was replayed while the space document was not there. -/
theorem replays_recent (tokens : Tokenizer) (p : String) (first later : List (ℤ × Operation))
    (hfirst : ∀ entry ∈ first, entry.2.Tame) (hlater : ∀ entry ∈ later, entry.2.Tame)
    (settleTime passTime : ℤ) (owner owner' : ℕ) (ttl ttl' : ℤ) :
    let past := first ++ [(settleTime, .pass owner false ttl)]
    let before := run tokens (past ++ later) {}
    let after := run tokens (past ++ later ++ [(passTime, .pass owner' false ttl')]) {}
    (KeepsContent p before after ∨
        ∃ json, Recent p .editor first later json ∧
          HasContentOf p after (json.map Json.compact)) ∧
      (KeepsMembers p before after ∨
        (∃ json, Recent p .space first later json ∧
          HasMembersOf p after (json.map Json.compact)) ∨
        ∃ text, Orphaned tokens past later p text ∧ HasMembersOf p after text) := by
  intro past before after
  have hpast : ∀ entry ∈ past, entry.2.Tame :=
    List.forall_mem_append.mpr ⟨hfirst, List.forall_mem_singleton.mpr rfl⟩
  constructor
  · set allowed : Option String → Prop := fun text =>
      ∃ json, Recent p .editor first later json ∧ text = json.map Json.compact with hallowed
    have hsettled : UpToDate allowed tokens p .editor (run tokens past {}) :=
      upToDate_of_pass hfirst (fun json hjson => ⟨json, Or.inl hjson, rfl⟩) settleTime owner ttl
    have hreplays : ∀ sooner time rest, later = sooner ++ (time, .requeue) :: rest →
        Operation.requeue.Brings allowed p .editor (run tokens (past ++ sooner) {}) := by
      intro sooner time rest heq _ letter hletter hkey
      left
      have htame : ∀ entry ∈ past ++ sooner, entry.2.Tame := by
        refine List.forall_mem_append.mpr ⟨hpast, fun entry hentry => hlater entry ?_⟩
        rw [heq]
        exact List.mem_append_left _ hentry
      refine unreadable_letters htame letter (Queue.mem_latestFailures.mp hletter).1 ?_
      rw [(Prod.mk.inj hkey).2]
      decide
    rcases reading_of_upToDate (isReading_content p) hsettled hlater
        (fun json hjson => ⟨json, Or.inr hjson, rfl⟩) hreplays passTime owner' ttl' with
      hkept | ⟨text, ⟨json, hrecent, rfl⟩, hhas⟩
    · exact Or.inl hkept
    · exact Or.inr ⟨json, hrecent, hhas⟩
  · set allowed : Option String → Prop := fun text =>
      (∃ json, Recent p .space first later json ∧ text = json.map Json.compact) ∨
        Orphaned tokens past later p text with hallowed
    have hsettled : UpToDate allowed tokens p .space (run tokens past {}) :=
      upToDate_of_pass hfirst (fun json hjson => Or.inl ⟨json, Or.inl hjson, rfl⟩) settleTime
        owner ttl
    have hreplays : ∀ sooner time rest, later = sooner ++ (time, .requeue) :: rest →
        Operation.requeue.Brings allowed p .space (run tokens (past ++ sooner) {}) :=
      fun sooner time rest heq hnone letter hletter hkey =>
        Or.inr (Or.inr ⟨sooner, time, rest, heq, hnone, letter, hletter, hkey, rfl⟩)
    rcases reading_of_upToDate (isReading_members p) hsettled hlater
        (fun json hjson => Or.inl ⟨json, Or.inr hjson, rfl⟩) hreplays passTime owner' ttl' with
      hkept | ⟨text, ⟨json, hrecent, rfl⟩ | horphaned, hhas⟩
    · exact Or.inl hkept
    · exact Or.inr (Or.inl ⟨json, hrecent, hhas⟩)
    · exact Or.inr (Or.inr ⟨text, horphaned, hhas⟩)

/-- A space document that lists one node. -/
def listing (node : String) : Json :=
  .obj [("nodes", .obj [(node, .obj [("title", .str node)])])]

/-- The first write of a space document fails, since there is no space yet; the second succeeds. -/
def overtaken : List (ℤ × Operation) :=
  [(1000, .upsert "s" .space [] (some (listing "a"))), (2000, .pass 1 false 60000),
    (3000, .createSpace "s" "" none fun _ => ""),
    (4000, .upsert "s" .space [] (some (listing "b")))]

/-- Then the document is deleted, and the failure of the first write is replayed. -/
def deletedThenReplayed : List (ℤ × Operation) :=
  [(6000, .delete "s" .space), (6500, .pass 1 false 60000), (7000, .requeue)]

theorem replays_recent_overtaken :
    (∀ entry ∈ overtaken, entry.2.Tame) ∧ (∀ entry ∈ deletedThenReplayed, entry.2.Tame) ∧
      let past := overtaken ++ [(5000, Operation.pass 1 false 60000)]
      let before := run String.length (past ++ deletedThenReplayed) {}
      let after := run String.length
        (past ++ deletedThenReplayed ++ [(8000, Operation.pass 1 false 60000)]) {}
      (KeepsContent "s" before after ∨
          ∃ json, Recent "s" .editor overtaken deletedThenReplayed json ∧
            HasContentOf "s" after (json.map Json.compact)) ∧
        (KeepsMembers "s" before after ∨
          (∃ json, Recent "s" .space overtaken deletedThenReplayed json ∧
            HasMembersOf "s" after (json.map Json.compact)) ∨
          ∃ text, Orphaned String.length past deletedThenReplayed "s" text ∧
            HasMembersOf "s" after text) := by
  have hfirst : ∀ entry ∈ overtaken, entry.2.Tame := by
    simp [overtaken, Operation.Tame]
  have hlater : ∀ entry ∈ deletedThenReplayed, entry.2.Tame := by
    simp [deletedThenReplayed, Operation.Tame]
  exact ⟨hfirst, hlater, replays_recent String.length "s" overtaken deletedThenReplayed hfirst hlater
    5000 8000 1 1 60000 60000⟩

/-- What a space is read to have as its members. -/
def memberIds (p : String) (s : Store) : Option (List String) :=
  ((Spaces.nodes p).outcome s).1.toOption.map fun nodes => nodes.map (·.publicId)

/-- The exception is met: the second value has been applied, and the replay brings the first one
back. -/
theorem orphaned_replay_restores :
    (writes "s" .space overtaken).map (·.map Json.compact) =
        [some (listing "a").compact, some (listing "b").compact] ∧
      ((Pass.run { clock := 5000, tokens := String.length } 1 false 60000).outcome
        (run String.length overtaken {})).1.toOption =
          some (.completed { claimed := 1, applied := 1 }) ∧
      ((overtaken ++ [(5000, Operation.pass 1 false 60000)] ++ deletedThenReplayed ++
        [(8000, Operation.pass 1 false 60000)]).map Prod.fst).Pairwise (· ≤ ·) ∧
      memberIds "s" (run String.length (overtaken ++ [(5000, .pass 1 false 60000)]) {}) =
        some (Plan.titlesIn (listing "b")).keys ∧
      memberIds "s" (run String.length (overtaken ++ [(5000, .pass 1 false 60000)] ++
        deletedThenReplayed ++ [(8000, .pass 1 false 60000)]) {}) =
          some (Plan.titlesIn (listing "a")).keys ∧
      (Plan.titlesIn (listing "a")).keys ≠ (Plan.titlesIn (listing "b")).keys := by
  decide +kernel

end History
end NodeGraph
