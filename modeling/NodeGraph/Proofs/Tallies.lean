import NodeGraph.Proofs.Accounts
import NodeGraph.Proofs.Draining

/-!
What overlapping passes count. Each event is taken off the queue by one pass; the others count it as
skipped, unless it fails: a failure is counted before the event is set aside, so passes that fail it
together all count it, and a strict one returns the error of an event that another pass has moved.
-/
namespace NodeGraph

open Pass Store

/-! ### One event in one pass -/

/-- The kinds of the event are known, but a value of it is not understood. -/
def QueuedEvent.isUndecodable (e : QueuedEvent) : Bool :=
  match e.kinds, e.decode with
  | .ok _, .error _ => true
  | _, _ => false

namespace Pass

/-- The outcome that a pass counts, by whether it finds the event in the queue. -/
def counted (fates : QueuedEvent → Attempt) (e : QueuedEvent) (found : Bool) : Attempt :=
  if found || e.isUndecodable then fates e else .skipped

variable {env : Env} {s : Store}

theorem fate_of_counted {fates : QueuedEvent → Attempt} {e : QueuedEvent} {found : Bool}
    {fault : Fault} (h : counted fates e found = .failed fault) : fates e = .failed fault := by
  unfold counted at h
  split at h
  · exact h
  · exact nomatch h

/-- An event that cannot be decoded fails alike in every store. -/
theorem exists_fate_of_undecodable {e : QueuedEvent} (h : e.isUndecodable = true) :
    ∃ fault, ∀ s, fate s e = .failed fault := by
  unfold QueuedEvent.isUndecodable at h
  cases hkinds : e.kinds with
  | error fault => simp [hkinds] at h
  | ok kinds =>
    cases hevent : e.decode with
    | error fault =>
      refine ⟨fault, fun s => ?_⟩
      unfold fate QueuedEvent.verdict
      rw [hkinds, hevent]
      rfl
    | ok event => simp [hkinds, hevent] at h

theorem attempt_fst (quiet : env.rivals = {}) (h : s.GraphSound env.tokens) (e : QueuedEvent) :
    (attempt env e s).1 = counted (fate s) e (s.isQueued e.id) := by
  unfold counted fate
  cases hqueued : s.isQueued e.id with
  | true =>
    rw [attempt_of_queued quiet h hqueued]
    cases e.verdict s <;> rfl
  | false =>
    unfold attempt QueuedEvent.isUndecodable QueuedEvent.verdict
    cases hkinds : e.kinds with
    | error fault =>
      unfold drop
      simp [hqueued]
    | ok kinds =>
      cases hevent : e.decode with
      | error fault => rfl
      | ok event =>
        dsimp only
        unfold carryOut
        rw [QueuedEvent.id_decode hevent, hqueued]
        rfl

end Pass

/-! ### What the transactions of overlapping passes come to -/

section Serial

variable {tokens : Tokenizer} {env : Env} {s₀ : Store} {c : Passes} {i : ℕ}

/-- A pass counts the event before it by the fate that the event has when its turn comes. -/
theorem Serial.counted_eq (h₀ : s₀.Sound tokens) (h : Serial tokens s₀ c) {lease : Lease}
    {e : QueuedEvent} {rest : List QueuedEvent}
    (hprogress : c.progress i = .working lease (e :: rest)) :
    counted (fate c.store) e (c.store.isQueued e.id) =
      counted (fates tokens s₀) e (c.store.isQueued e.id) := by
  let env : Env := { clock := 0, tokens }
  have hcourse := h.passes i
  rw [hprogress] at hcourse
  rcases hcourse.cases (nodup_pending h₀) h.split with ⟨-, hfirst⟩ | ⟨hgone, -⟩
  · have hsplit := h.split
    rw [hfirst] at hsplit
    have hturn : turnOf env s₀ e = (c.log.map Prod.fst).foldl (settle env) s₀ :=
      turnOf_eq h₀.queueIds hsplit.symm
    have hfate : fate c.store e = fates tokens s₀ e := by
      unfold fates fateOf fate
      rw [hturn, (h.effects env rfl rfl).verdict e]
    unfold counted
    rw [hfate]
  · unfold counted
    rw [hgone, Bool.false_or]
    by_cases hundecodable : e.isUndecodable = true
    · obtain ⟨fault, hfails⟩ := exists_fate_of_undecodable hundecodable
      rw [if_pos hundecodable, if_pos hundecodable, hfails]
      exact (hfails _).symm
    · rw [if_neg hundecodable, if_neg hundecodable]

theorem Serial.fate_of_log (h₀ : s₀.Sound tokens) (h : Serial tokens s₀ c) {e : QueuedEvent}
    {z : Attempt} (he : (e, z) ∈ c.log) : e ∈ c.log.map Prod.fst ∧ z = fates tokens s₀ e := by
  have hsettled : e ∈ c.log.map Prod.fst := List.mem_map.mpr ⟨_, he, rfl⟩
  rw [h.log_eq h₀] at he
  obtain ⟨other, -, hother⟩ := List.mem_map.mp he
  obtain ⟨rfl, rfl⟩ := Prod.mk.inj hother
  exact ⟨hsettled, rfl⟩

/-- Of an event that has failed and left the queue there is a letter. -/
theorem Serial.exists_letter (h₀ : s₀.Sound tokens) (h : Serial tokens s₀ c) {e : QueuedEvent}
    (he : e ∈ c.log.map Prod.fst) {fault : Fault} (hfate : fates tokens s₀ e = .failed fault) :
    ∃ now id, e.letter now fault id ∈ c.store.deadLetters.rows := by
  let env : Env := { clock := 0, tokens }
  have hfailed : (e, fault) ∈ failed (fates tokens s₀) (c.log.map Prod.fst) :=
    List.mem_filterMap.mpr ⟨e, he, by rw [hfate]; rfl⟩
  obtain ⟨k, hk, hentry⟩ := List.mem_iff_getElem.mp hfailed
  have hletter : e.letter env.now fault (s₀.deadLetters.nextId + k) ∈
      ((c.log.map Prod.fst).foldl (settle env) s₀).deadLetters.rows := by
    rw [deadLetters_foldl_settle rfl h₀ (h.queued h₀) (h.fated h₀),
      Table.rows_foldl_add fun entry : QueuedEvent × Fault => entry.1.letter env.now entry.2]
    exact List.mem_append_right _ (List.mem_mapIdx.mpr ⟨k, hk, by rw [hentry]⟩)
  have hrows : c.store.deadLetters.rows.map DeadLetter.undated =
      ((c.log.map Prod.fst).foldl (settle env) s₀).deadLetters.rows.map DeadLetter.undated :=
    congrArg (fun s => s.deadLetters.rows) (h.effects env rfl rfl).1
  have hundated := List.mem_map_of_mem (f := DeadLetter.undated) hletter
  rw [← hrows] at hundated
  obtain ⟨letter, hmem, hsame⟩ := List.mem_map.mp hundated
  have hdated : letter = e.letter letter.failedAt fault (s₀.deadLetters.nextId + k) :=
    calc letter = { letter.undated with failedAt := letter.failedAt } := rfl
      _ = { (e.letter env.now fault (s₀.deadLetters.nextId + k)).undated with
            failedAt := letter.failedAt } := by rw [hsame]
      _ = e.letter letter.failedAt fault (s₀.deadLetters.nextId + k) := rfl
  exact ⟨letter.failedAt, _, hdated ▸ hmem⟩

/-- An event that is no longer in the queue has left it. -/
theorem Serial.isQueued_iff (h₀ : s₀.Sound tokens) (h : Serial tokens s₀ c) {e : QueuedEvent}
    (he : e ∈ s₀.pending) : c.store.isQueued e.id = true ↔ e ∉ c.log.map Prod.fst := by
  have hids := nodup_pending h₀
  rw [← h.split] at hids he
  rw [List.map_append, List.nodup_append] at hids
  rw [Store.isQueued_iff]
  constructor
  · rintro ⟨row, hrow, hid⟩ hsettled
    exact hids.2.2 e.id (List.mem_map_of_mem hsettled) row.id
      (List.mem_map_of_mem (mem_pending.mpr hrow)) hid.symm
  · intro hsettled
    rcases List.mem_append.mp he with hgone | hpending
    · exact absurd hgone hsettled
    · exact ⟨e, mem_pending.mp hpending, rfl⟩

/-- The first transaction of an event fails it, finds it gone, or settles it. -/
theorem Serial.attempt_cases (h₀ : s₀.Sound tokens) (h : Serial tokens s₀ c)
    (quiet : env.rivals = {}) (htokens : env.tokens = tokens) {lease : Lease} {e : QueuedEvent}
    {rest : List QueuedEvent} (hprogress : c.progress i = .working lease (e :: rest)) :
    (∃ fault, counted (fates tokens s₀) e (c.store.isQueued e.id) = .failed fault ∧
        c.advance env i = c.moved i c.store (.failing lease e fault rest) []) ∨
      (c.store.isQueued e.id = false ∧
        c.advance env i = c.moved i c.store (.working lease rest) []) ∨
      (c.store.isQueued e.id = true ∧ (∀ fault, fates tokens s₀ e ≠ .failed fault) ∧
        c.advance env i = c.moved i (settle env c.store e) (.working lease rest)
          [(e, fates tokens s₀ e)]) := by
  have hgraph : c.store.GraphSound env.tokens := htokens ▸ h.sound.toGraphSound
  have hfirst := attempt_fst quiet hgraph e
  rw [h.counted_eq h₀ hprogress] at hfirst
  rw [Passes.advance_of_working env hprogress]
  cases hqueued : c.store.isQueued e.id with
  | true =>
    rw [hqueued] at hfirst
    rcases Pass.attempt_cases quiet hgraph hqueued with
      ⟨fault, -, hfailed⟩ | ⟨done, hdone, hsettled, -⟩
    · left
      rw [hfailed] at hfirst ⊢
      exact ⟨fault, hfirst.symm, rfl⟩
    · right; right
      rw [hsettled] at hfirst ⊢
      have hfate : done = fates tokens s₀ e := hfirst
      rw [← hfate]
      rcases hdone with rfl | rfl
      · exact ⟨rfl, fun fault => Attempt.noConfusion, rfl⟩
      · exact ⟨rfl, fun fault => Attempt.noConfusion, rfl⟩
  | false =>
    rw [hqueued] at hfirst
    rcases attempt_of_not_queued env hqueued with hskipped | ⟨fault, hfailed⟩
    · right; left
      rw [hskipped]
      exact ⟨rfl, rfl⟩
    · left
      rw [hfailed] at hfirst ⊢
      exact ⟨fault, hfirst.symm, rfl⟩

end Serial

/-! ### The invariant -/

/-- The account is right for where its pass stands, when those events have left the queue. -/
structure Account.Balanced (s₀ : Store) (fates : QueuedEvent → Attempt) (strict : Bool)
    (settled : List QueuedEvent) (progress : Progress) (a : Account) : Prop where
  fresh : progress.isUnread = true → a = {}
  read : a.read <:+ s₀.pending
  begun : a.counts.map (·.event) <+: a.read
  whole : progress ≠ .abandoned → a.counts.map (·.event) ++ progress.ahead = a.read
  outcome : ∀ count ∈ a.counts, count.outcome = counted fates count.event count.found
  taken : ∀ e ∈ a.taken, e ∈ settled ∧ ⟨e, fates e, true⟩ ∈ a.counts
  found : ∀ count ∈ a.counts, count.found = true →
    count.event ∈ a.taken ∨ ∃ fault, fates count.event = .failed fault
  failing : ∀ {lease e fault todo}, progress = .failing lease e fault todo →
    fates e = .failed fault ∧
      ∃ found, ⟨e, .failed fault, found⟩ ∈ a.counts ∧ (found = true ∨ e ∈ settled)
  error : ∀ {e fault}, a.error = some (e, fault) →
    strict = true ∧ e ∈ settled ∧ fates e = .failed fault ∧
      ∃ found, ⟨e, .failed fault, found⟩ ∈ a.counts
  ended : progress = .ended → a.error = none

/-- The passes are serial, their accounts are right, and each event that has left the queue was
taken by one of them. -/
structure Accounting.Balanced (tokens : Tokenizer) (s₀ : Store) (strict : ℕ → Bool)
    (c : Accounting) : Prop where
  serial : Serial tokens s₀ c.passes
  accounts : ∀ i, (c.account i).Balanced s₀ (fates tokens s₀) (strict i)
    (c.passes.log.map Prod.fst) (c.passes.progress i)
  taker : ∀ e ∈ c.passes.log.map Prod.fst, ∃ k, ∀ i, e ∈ (c.account i).taken ↔ i = k

namespace Account.Balanced

variable {s₀ : Store} {fates : QueuedEvent → Attempt} {strict : Bool}
  {settled : List QueuedEvent} {progress : Progress} {a : Account}

theorem start : Balanced s₀ fates strict settled .idle {} where
  fresh _ := rfl
  read := List.nil_suffix
  begun := List.prefix_rfl
  whole _ := rfl
  outcome := by simp
  taken := by simp
  found := by simp
  failing h := nomatch h
  error h := nomatch h
  ended h := nomatch h

/-- An account stays right when other passes settle events. -/
theorem mono (h : Balanced s₀ fates strict settled progress a) (more : List QueuedEvent) :
    Balanced s₀ fates strict (settled ++ more) progress a where
  fresh := h.fresh
  read := h.read
  begun := h.begun
  whole := h.whole
  outcome := h.outcome
  taken e he := ⟨List.mem_append_left _ (h.taken e he).1, (h.taken e he).2⟩
  found := h.found
  failing hfailing := by
    obtain ⟨hfate, found, hcount, hwhen⟩ := h.failing hfailing
    exact ⟨hfate, found, hcount, hwhen.imp_right (List.mem_append_left _)⟩
  error herror := by
    obtain ⟨hstrict, hsettled, hrest⟩ := h.error herror
    exact ⟨hstrict, List.mem_append_left _ hsettled, hrest⟩
  ended := h.ended

/-- The pass is elsewhere, with the same events before it. -/
theorem moved (h : Balanced s₀ fates strict settled progress a) {next : Progress}
    (hfresh : next.isUnread = true → progress.isUnread = true)
    (hwhole : next ≠ .abandoned → progress ≠ .abandoned ∧ next.ahead = progress.ahead)
    (hfailing : ∀ lease e fault todo, next ≠ .failing lease e fault todo)
    (hended : next = .ended → a.error = none) : Balanced s₀ fates strict settled next a where
  fresh := fun hnext => h.fresh (hfresh hnext)
  read := h.read
  begun := h.begun
  whole hnext := by
    obtain ⟨hprogress, hahead⟩ := hwhole hnext
    rw [hahead]
    exact h.whole hprogress
  outcome := h.outcome
  taken := h.taken
  found := h.found
  failing hnext := absurd hnext (hfailing _ _ _ _)
  error := h.error
  ended := hended

/-- The pass has read the queue. -/
theorem opened {lease : Lease} (h : Balanced s₀ fates strict settled (.ready lease) a)
    {queue : List QueuedEvent} (hqueue : queue <:+ s₀.pending) :
    Balanced s₀ fates strict settled (.working lease queue) { a with read := queue } := by
  obtain rfl := h.fresh rfl
  constructor
  case read => exact hqueue
  case begun => exact List.nil_prefix
  case whole => exact fun _ => rfl
  all_goals simp [Progress.isUnread]

/-- The pass counts the event before it, and has taken it if that was not a failure. -/
theorem attempted {lease : Lease} {e : QueuedEvent} {rest : List QueuedEvent}
    (h : Balanced s₀ fates strict settled (.working lease (e :: rest)) a) {next : Progress}
    (found : Bool) (news : List QueuedEvent)
    (hahead : next.ahead = rest) (hfresh : next.isUnread = false) (hended : next ≠ .ended)
    (hnews : ∀ other ∈ news, other = e ∧ found = true)
    (htaken : found = true → e ∈ news ∨ ∃ fault, fates e = .failed fault)
    (hfailing : ∀ {lease other fault todo}, next = .failing lease other fault todo →
      other = e ∧ fates e = .failed fault ∧ counted fates e found = .failed fault ∧
        (found = true ∨ e ∈ settled)) :
    Balanced s₀ fates strict (settled ++ news) next
      { a with
        counts := a.counts ++ [⟨e, counted fates e found, found⟩]
        taken := a.taken ++ news } where
  fresh hnext := by simp [hfresh] at hnext
  read := h.read
  begun := by
    have hwhole := h.whole (by simp)
    show (a.counts ++ _).map (·.event) <+: a.read
    rw [← hwhole]
    simp [Progress.ahead]
  whole _ := by
    have hwhole := h.whole (by simp)
    show (a.counts ++ _).map (·.event) ++ next.ahead = a.read
    rw [← hwhole, hahead]
    simp [Progress.ahead]
  outcome count hcount := by
    rcases List.mem_append.mp hcount with hold | hnew
    · exact h.outcome count hold
    · obtain rfl := List.mem_singleton.mp hnew
      rfl
  taken other hother := by
    rcases List.mem_append.mp hother with hold | hnew
    · obtain ⟨hsettled, hcount⟩ := h.taken other hold
      exact ⟨List.mem_append_left _ hsettled, List.mem_append_left _ hcount⟩
    · obtain ⟨rfl, rfl⟩ := hnews other hnew
      refine ⟨List.mem_append_right _ hnew, List.mem_append_right _ ?_⟩
      exact List.mem_singleton.mpr rfl
  found count hcount hfound := by
    rcases List.mem_append.mp hcount with hold | hnew
    · exact (h.found count hold hfound).imp_left (List.mem_append_left _)
    · obtain rfl := List.mem_singleton.mp hnew
      exact (htaken hfound).imp_left (List.mem_append_right _)
  failing hnext := by
    obtain ⟨rfl, hfate, hcounted, hwhen⟩ := hfailing hnext
    refine ⟨hfate, found, ?_, hwhen.imp_right (List.mem_append_left _)⟩
    rw [hcounted]
    exact List.mem_append_right _ (List.mem_singleton.mpr rfl)
  error herror := by
    obtain ⟨hstrict, hsettled, hfate, other, hcount⟩ := h.error herror
    exact ⟨hstrict, List.mem_append_left _ hsettled, hfate, other, List.mem_append_left _ hcount⟩
  ended hnext := absurd hnext hended

/-- The pass has set the failed event aside, or found it gone. A strict pass keeps the error. -/
theorem setAside {lease : Lease} {e : QueuedEvent} {fault : Fault} {rest : List QueuedEvent}
    (h : Balanced s₀ fates strict settled (.failing lease e fault rest) a) (news : List QueuedEvent)
    (hnews : ∀ other ∈ news, other = e ∧ e ∉ settled) (hgone : e ∈ settled ++ news) :
    Balanced s₀ fates strict (settled ++ news) (.working lease rest)
      { a with
        error := if strict then some (e, fault) else none
        taken := a.taken ++ news } where
  fresh hnext := nomatch hnext
  read := h.read
  begun := h.begun
  whole _ := h.whole (by simp)
  outcome := h.outcome
  taken other hother := by
    rcases List.mem_append.mp hother with hold | hnew
    · obtain ⟨hsettled, hcount⟩ := h.taken other hold
      exact ⟨List.mem_append_left _ hsettled, hcount⟩
    · obtain ⟨rfl, hqueued⟩ := hnews other hnew
      obtain ⟨hfate, found, hcount, hwhen⟩ := h.failing rfl
      obtain rfl : found = true := hwhen.resolve_right hqueued
      rw [hfate]
      exact ⟨List.mem_append_right _ hnew, hcount⟩
  found count hcount hfound := (h.found count hcount hfound).imp_left (List.mem_append_left _)
  failing hnext := nomatch hnext
  error herror := by
    obtain ⟨hfate, found, hcount, -⟩ := h.failing rfl
    cases strict with
    | true =>
      obtain ⟨rfl, rfl⟩ := Prod.mk.inj (Option.some.inj herror)
      exact ⟨rfl, hgone, hfate, found, hcount⟩
    | false => exact nomatch herror
  ended hnext := nomatch hnext

end Account.Balanced

/-! ### What one move does -/

namespace Accounting

variable {tokens : Tokenizer} {s₀ : Store} {strict : ℕ → Bool} {c : Accounting} {turn : Turn}

theorem Balanced.start (h₀ : s₀.Sound tokens) :
    Balanced tokens s₀ strict { passes := { store := s₀ } } where
  serial := serial_start h₀
  accounts _ := .start
  taker _ he := nomatch he

/-- A pass moves on with its account, and has taken what is new in the log. -/
theorem Balanced.moved (h₀ : s₀.Sound tokens) (h : Balanced tokens s₀ strict c) {i : ℕ}
    {store : Store} {progress : Progress} {news : List (QueuedEvent × Attempt)} {a : Account}
    (hserial : Serial tokens s₀ (c.passes.moved i store progress news))
    (ha : a.Balanced s₀ (fates tokens s₀) (strict i)
      (c.passes.log.map Prod.fst ++ news.map Prod.fst) progress)
    (htaken : a.taken = (c.account i).taken ++ news.map Prod.fst) :
    Balanced tokens s₀ strict
      ⟨c.passes.moved i store progress news, Function.update c.account i a⟩ := by
  have hlog : (c.passes.log ++ news).map Prod.fst =
      c.passes.log.map Prod.fst ++ news.map Prod.fst := List.map_append
  have hids := (hserial.queued h₀).ids
  rw [show (c.passes.moved i store progress news).log = c.passes.log ++ news from rfl, hlog,
    List.map_append, List.nodup_append] at hids
  refine ⟨hserial, fun j => ?_, fun e he => ?_⟩
  · show (Function.update c.account i a j).Balanced s₀ (fates tokens s₀) (strict j)
      ((c.passes.log ++ news).map Prod.fst) (Function.update c.passes.progress i progress j)
    rw [hlog]
    by_cases hj : j = i
    · subst hj
      rw [Function.update_self, Function.update_self]
      exact ha
    · rw [Function.update_of_ne hj, Function.update_of_ne hj]
      exact (h.accounts j).mono _
  · have hothers : ∀ j, j ≠ i → (Function.update c.account i a j).taken = (c.account j).taken :=
      fun j hj => by rw [Function.update_of_ne hj]
    have hown : (Function.update c.account i a i).taken =
        (c.account i).taken ++ news.map Prod.fst := by
      rw [Function.update_self]
      exact htaken
    show ∃ k, ∀ j, e ∈ (Function.update c.account i a j).taken ↔ j = k
    have he : e ∈ (c.passes.log ++ news).map Prod.fst := he
    rw [hlog] at he
    rcases List.mem_append.mp he with hold | hnew
    · obtain ⟨k, hk⟩ := h.taker e hold
      refine ⟨k, fun j => ?_⟩
      by_cases hj : j = i
      · subst hj
        rw [hown, List.mem_append, ← hk j]
        refine or_iff_left fun hnew => ?_
        exact hids.2.2 e.id (List.mem_map_of_mem hold) e.id (List.mem_map_of_mem hnew) rfl
      · rw [hothers j hj, hk j]
    · refine ⟨i, fun j => ?_⟩
      by_cases hj : j = i
      · subst hj
        rw [hown]
        exact iff_of_true (List.mem_append_right _ hnew) rfl
      · rw [hothers j hj]
        refine iff_of_false (fun hother => ?_) hj
        have hold := ((h.accounts j).taken e hother).1
        exact hids.2.2 e.id (List.mem_map_of_mem hold) e.id (List.mem_map_of_mem hnew) rfl

/-- A move of a pass whose account is right afterwards. -/
theorem Balanced.step (h₀ : s₀.Sound tokens) (h : Balanced tokens s₀ strict c)
    {store : Store} {progress : Progress} {news : List (QueuedEvent × Attempt)}
    (hmoved : c.passes.take tokens turn = c.passes.moved turn.pass store progress news)
    (ha : Account.Balanced s₀ (fates tokens s₀) (strict turn.pass)
      (c.passes.log.map Prod.fst ++ news.map Prod.fst) progress
      { c.noted tokens strict turn with
        taken := (c.account turn.pass).taken ++ news.map Prod.fst }) :
    Balanced tokens s₀ strict (c.step tokens strict turn) := by
  have hserial := h.serial.take h₀ turn
  rw [hmoved] at hserial
  rw [step_of_moved hmoved]
  exact h.moved h₀ hserial ha rfl

/-- A move of a pass that leaves its account as it was. -/
theorem Balanced.step_quiet (h₀ : s₀.Sound tokens) (h : Balanced tokens s₀ strict c)
    {store : Store} {progress : Progress}
    (hmoved : c.passes.take tokens turn = c.passes.moved turn.pass store progress [])
    (hnoted : c.noted tokens strict turn = c.account turn.pass)
    (ha : (c.account turn.pass).Balanced s₀ (fates tokens s₀) (strict turn.pass)
      (c.passes.log.map Prod.fst) progress) :
    Balanced tokens s₀ strict (c.step tokens strict turn) := by
  refine h.step h₀ hmoved ?_
  rw [hnoted]
  simpa using ha

theorem Balanced.step_enter (h₀ : s₀.Sound tokens) (h : Balanced tokens s₀ strict c) (i : ℕ)
    (clock : ℤ) (owner : ℕ) (ttl : ℤ) :
    Balanced tokens s₀ strict (c.step tokens strict ⟨i, clock, .enter owner ttl⟩) := by
  have haccount := h.accounts i
  rcases Passes.enter_cases { clock, tokens } i owner ttl c.passes with
    hsame | ⟨hidle, leases, hcontended | ⟨lease, hready⟩⟩
  · exact h.step_quiet h₀ (hsame.trans (Passes.moved_self c.passes i).symm) rfl haccount
  · rw [hidle] at haccount
    exact h.step_quiet h₀ hcontended rfl
      (haccount.moved (by simp [Progress.isUnread]) (by simp [Progress.ahead]) (by simp) (by simp))
  · rw [hidle] at haccount
    exact h.step_quiet h₀ hready rfl
      (haccount.moved (by simp [Progress.isUnread]) (by simp [Progress.ahead]) (by simp) (by simp))

theorem Balanced.step_stop (h₀ : s₀.Sound tokens) (h : Balanced tokens s₀ strict c) (i : ℕ)
    (clock : ℤ) {move : Move} {release : Bool}
    (hmove : c.passes.take tokens ⟨i, clock, move⟩ = c.passes.stop release i)
    (hnoted : c.noted tokens strict ⟨i, clock, move⟩ = c.account i) :
    Balanced tokens s₀ strict (c.step tokens strict ⟨i, clock, move⟩) := by
  have haccount := h.accounts i
  rcases Passes.stop_cases release i c.passes with hsame | ⟨leases, hstopped⟩
  · have hmoved := hmove.trans (hsame.trans (Passes.moved_self c.passes i).symm)
    exact h.step_quiet h₀ hmoved hnoted haccount
  · exact h.step_quiet h₀ (hmove.trans hstopped) hnoted
      (haccount.moved (by simp [Progress.isUnread]) (by simp) (by simp) (by simp))

/-- The first transaction of an event, which the pass counts. -/
theorem Balanced.step_attempt (h₀ : s₀.Sound tokens) (h : Balanced tokens s₀ strict c) {i : ℕ}
    {clock : ℤ} {lease : Lease} {e : QueuedEvent} {rest : List QueuedEvent}
    (hprogress : c.passes.progress i = .working lease (e :: rest)) :
    Balanced tokens s₀ strict (c.step tokens strict ⟨i, clock, .next⟩) := by
  set env : Env := { clock, tokens } with henv
  have hmem : e ∈ s₀.pending := by
    have hcourse := h.serial.passes i
    rw [hprogress] at hcourse
    obtain ⟨handled, hall, -⟩ := hcourse
    exact hall ▸ List.mem_append_right _ List.mem_cons_self
  have hqueued := h.serial.isQueued_iff h₀ hmem
  have hgraph : c.passes.store.GraphSound env.tokens := h.serial.sound.toGraphSound
  have hattempt := attempt_fst rfl hgraph e
  rw [h.serial.counted_eq h₀ hprogress] at hattempt
  have hnoted : c.noted tokens strict ⟨i, clock, .next⟩ = { c.account i with
      counts := (c.account i).counts ++
        [⟨e, counted (fates tokens s₀) e (c.passes.store.isQueued e.id),
          c.passes.store.isQueued e.id⟩] } := by
    unfold noted
    rw [hprogress]
    dsimp only
    unfold Account.noted
    rw [← hattempt]
  have haccount := h.accounts i
  rw [hprogress] at haccount
  have hquiet : env.rivals = {} := rfl
  have htokens : env.tokens = tokens := rfl
  rcases h.serial.attempt_cases h₀ hquiet htokens hprogress with
    ⟨fault, hfailed, hadvance⟩ | ⟨hgone, hadvance⟩ | ⟨hfound, hfate, hadvance⟩
  · have hfate := fate_of_counted hfailed
    have hwhen : c.passes.store.isQueued e.id = true ∨ e ∈ c.passes.log.map Prod.fst := by
      rw [hqueued]
      exact (em _).symm
    refine h.step h₀ hadvance ?_
    rw [hnoted]
    refine haccount.attempted _ [] rfl rfl (by simp) (by simp) (fun _ => Or.inr ⟨fault, hfate⟩) ?_
    intro _ other fault' _ hnext
    obtain ⟨-, rfl, rfl, -⟩ := Progress.failing.inj hnext
    exact ⟨rfl, hfate, hfailed, hwhen⟩
  · refine h.step h₀ hadvance ?_
    rw [hnoted]
    exact haccount.attempted _ [] rfl rfl (by simp) (by simp) (by simp [hgone]) nofun
  · have hnews : ∀ other ∈ [e], other = e ∧ c.passes.store.isQueued e.id = true :=
      fun other hother => ⟨List.mem_singleton.mp hother, hfound⟩
    refine h.step h₀ hadvance ?_
    rw [hnoted]
    exact haccount.attempted _ [e] rfl rfl (by simp) hnews (by simp) nofun

/-- The second transaction of an event that failed. -/
theorem Balanced.step_setAside (h₀ : s₀.Sound tokens) (h : Balanced tokens s₀ strict c) {i : ℕ}
    {clock : ℤ} {lease : Lease} {e : QueuedEvent} {fault : Fault} {rest : List QueuedEvent}
    (hprogress : c.passes.progress i = .failing lease e fault rest) :
    Balanced tokens s₀ strict (c.step tokens strict ⟨i, clock, .next⟩) := by
  have hmem : e ∈ s₀.pending := by
    have hcourse := h.serial.passes i
    rw [hprogress] at hcourse
    obtain ⟨⟨handled, hall, -⟩, -⟩ := hcourse
    exact hall ▸ List.mem_append_right _ List.mem_cons_self
  have hqueued := h.serial.isQueued_iff h₀ hmem
  have hnoted : c.noted tokens strict ⟨i, clock, .next⟩ = { c.account i with
      error := if strict i then some (e, fault) else none } := by
    unfold noted
    rw [hprogress]
    rfl
  have haccount := h.accounts i
  rw [hprogress] at haccount
  have hadvance := Passes.advance_of_failing { clock, tokens } hprogress
  refine h.step h₀ hadvance ?_
  rw [hnoted]
  by_cases hgone : e ∈ c.passes.log.map Prod.fst
  · rw [if_neg fun hfound => hqueued.mp hfound hgone]
    exact haccount.setAside [] (by simp) (List.mem_append_left _ hgone)
  · rw [if_pos (hqueued.mpr hgone)]
    exact haccount.setAside [e] (by simpa using hgone) (by simp)

/-- The next transaction of a pass that has no error. -/
theorem Balanced.step_next (h₀ : s₀.Sound tokens) (h : Balanced tokens s₀ strict c) (i : ℕ)
    (clock : ℤ) (hnone : (c.account i).error = none) :
    Balanced tokens s₀ strict (c.step tokens strict ⟨i, clock, .next⟩) := by
  have haccount := h.accounts i
  have hnoted : c.noted tokens strict ⟨i, clock, .next⟩ =
      (c.account i).noted { clock, tokens } (strict i) c.passes.store (c.passes.progress i) := rfl
  cases hprogress : c.passes.progress i with
  | ready lease =>
    have hadvance := Passes.advance_of_ready { clock, tokens } hprogress
    rw [hprogress] at haccount hnoted
    refine h.step h₀ hadvance ?_
    rw [hnoted]
    have hqueue : c.passes.store.pending <:+ s₀.pending := ⟨_, h.serial.split⟩
    simpa [Account.noted] using haccount.opened hqueue
  | working lease todo =>
    cases todo with
    | nil =>
      have hadvance := Passes.advance_of_done { clock, tokens } hprogress
      rw [hprogress] at haccount hnoted
      exact h.step_quiet h₀ hadvance hnoted
        (haccount.moved (by simp [Progress.isUnread]) (by simp [Progress.ahead]) (by simp)
          fun _ => hnone)
    | cons e rest => exact h.step_attempt h₀ hprogress
  | failing lease e fault rest => exact h.step_setAside h₀ hprogress
  | _ =>
    have hsame : c.passes.take tokens ⟨i, clock, .next⟩ = c.passes := by
      show c.passes.advance _ i = c.passes
      unfold Passes.advance
      rw [hprogress]
    rw [hprogress] at hnoted
    exact h.step_quiet h₀ (hsame.trans (Passes.moved_self c.passes i).symm) hnoted haccount

theorem Balanced.take (h₀ : s₀.Sound tokens) (h : Balanced tokens s₀ strict c) (turn : Turn) :
    Balanced tokens s₀ strict (c.take tokens strict turn) := by
  obtain ⟨i, clock, move⟩ := turn
  unfold Accounting.take
  cases move with
  | enter owner ttl => exact h.step_enter h₀ i clock owner ttl
  | abandon => exact h.step_stop h₀ i clock rfl rfl
  | giveUp => exact h.step_stop h₀ i clock rfl rfl
  | next =>
    unfold Account.move
    cases herror : (c.account i).error with
    | none => exact h.step_next h₀ i clock herror
    | some failure => exact h.step_stop h₀ i clock rfl rfl

theorem balanced_run (h₀ : s₀.Sound tokens) (schedule : List Turn) :
    Balanced tokens s₀ strict (run tokens strict schedule { passes := { store := s₀ } }) := by
  have hfold : ∀ c, Balanced tokens s₀ strict c →
      Balanced tokens s₀ strict (c.run tokens strict schedule) := by
    induction schedule with
    | nil => exact fun c h => h
    | cons turn rest ih => exact fun c h => ih _ (h.take h₀ turn)
  exact hfold _ (.start h₀)

end Accounting

/-! ### What the statistics say -/

/-- The events that the statistics tell of. -/
def Tally.handled (tally : Tally) : ℕ :=
  tally.applied + tally.ignored + tally.failed + tally.skipped

theorem Pass.Attempt.handled_count (outcome : Attempt) (tally : Tally) :
    (outcome.count tally).handled = tally.handled + 1 := by
  cases outcome <;> simp [Attempt.count, Tally.handled] <;> omega

theorem Account.handled_tally (a : Account) : a.tally.handled = a.counts.length := by
  have hfold : ∀ (counts : List Count) (tally : Tally),
      (counts.foldl (fun tally count => count.outcome.count tally) tally).handled =
        tally.handled + counts.length := by
    intro counts
    induction counts with
    | nil => exact fun tally => rfl
    | cons count rest ih =>
      intro tally
      rw [List.foldl_cons, ih, Attempt.handled_count, List.length_cons]
      omega
  have hnone : ({ claimed := a.read.length } : Tally).handled = 0 := rfl
  unfold Account.tally
  rw [hfold, hnone, Nat.zero_add]

namespace Accounting

/-- Exactly one pass counts the event as applied, ignored or failed. -/
def CountsOnce (c : Accounting) (e : QueuedEvent) : Prop :=
  ∃! i, ∃ count ∈ (c.account i).counts, count.event = e ∧ count.outcome ≠ .skipped

variable {tokens : Tokenizer} {s₀ : Store} {strict : ℕ → Bool} {c : Accounting}

/-- A pass that has come to its end has counted all it read, and none of it is left. -/
theorem Balanced.of_ended (h₀ : s₀.Sound tokens) (h : Balanced tokens s₀ strict c) {i : ℕ}
    (hended : c.passes.progress i = .ended) :
    (c.account i).counts.map (·.event) = (c.account i).read ∧
      ((c.account i).read.map (·.id)).Nodup ∧
      (∀ e ∈ (c.account i).read, e ∈ c.passes.log.map Prod.fst) ∧
      (c.account i).error = none := by
  have haccount := h.accounts i
  have hcourse := h.serial.passes i
  have hsplit := h.serial.split
  rw [hended] at haccount hcourse
  have hempty : c.passes.store.pending = [] := hcourse
  rw [hempty, List.append_nil] at hsplit
  have hwhole := haccount.whole (by simp)
  refine ⟨?_, ?_, ?_, haccount.ended rfl⟩
  · rw [← hwhole]
    exact (List.append_nil _).symm
  · exact (nodup_pending h₀).sublist (haccount.read.sublist.map _)
  · intro e he
    rw [hsplit]
    exact haccount.read.mem he

/-- The pass that has taken an event counts its fate, and is alone in finding it in the queue unless
it fails. -/
theorem Balanced.exists_taker (h : Balanced tokens s₀ strict c) {e : QueuedEvent}
    (he : e ∈ c.passes.log.map Prod.fst) :
    ∃ k, (∀ i, e ∈ (c.account i).taken ↔ i = k) ∧
      ⟨e, fates tokens s₀ e, true⟩ ∈ (c.account k).counts ∧
      ∀ i ≠ k, ∀ count ∈ (c.account i).counts, count.event = e → count.found = true →
        ∃ fault, fates tokens s₀ e = .failed fault := by
  obtain ⟨k, hk⟩ := h.taker e he
  refine ⟨k, hk, ((h.accounts k).taken e ((hk k).mpr rfl)).2, ?_⟩
  rintro i hi count hcount rfl hfound
  exact ((h.accounts i).found count hcount hfound).resolve_left fun htaken => hi ((hk i).mp htaken)

theorem Balanced.countsOnce_iff (h : Balanced tokens s₀ strict c) {e : QueuedEvent} {k : ℕ}
    (hcount : ⟨e, fates tokens s₀ e, true⟩ ∈ (c.account k).counts)
    (hfound : ∀ i ≠ k, ∀ count ∈ (c.account i).counts, count.event = e → count.found = true →
      ∃ fault, fates tokens s₀ e = .failed fault) :
    c.CountsOnce e ↔ ∀ fault, fates tokens s₀ e = .failed fault → ∀ i ≠ k,
      ∀ count ∈ (c.account i).counts, count.event = e →
        count.found = false ∧ e.isUndecodable = false := by
  have htaker : ∃ count ∈ (c.account k).counts, count.event = e ∧ count.outcome ≠ .skipped :=
    ⟨_, hcount, rfl, fates_ne_skipped tokens s₀ e⟩
  constructor
  · rintro ⟨_, -, hunique⟩ fault hfate i hi count hmem rfl
    by_contra hcounts
    have houtcome := (h.accounts i).outcome count hmem
    unfold counted at houtcome
    rw [if_pos (by simpa [or_iff_not_imp_left] using hcounts)] at houtcome
    have hother : ∃ other ∈ (c.account i).counts, other.event = count.event ∧
        other.outcome ≠ .skipped := ⟨count, hmem, rfl, houtcome ▸ fates_ne_skipped tokens s₀ _⟩
    exact hi ((hunique i hother).trans (hunique k htaker).symm)
  · intro hfailed
    refine ⟨k, htaker, ?_⟩
    rintro i ⟨count, hmem, rfl, hne⟩
    by_contra hi
    have houtcome := (h.accounts i).outcome count hmem
    unfold counted at houtcome
    cases hcounts : count.found || count.event.isUndecodable with
    | false =>
      rw [hcounts] at houtcome
      exact hne houtcome
    | true =>
      have hfails : ∃ fault, fates tokens s₀ count.event = .failed fault := by
        rcases Bool.or_eq_true_iff.mp hcounts with hthere | hundecodable
        · exact hfound i hi count hmem rfl hthere
        · obtain ⟨fault, hfails⟩ := exists_fate_of_undecodable hundecodable
          exact ⟨fault, hfails _⟩
      obtain ⟨fault, hfate⟩ := hfails
      obtain ⟨hmissed, hdecodes⟩ := hfailed fault hfate i hi count hmem rfl
      simp [hmissed, hdecodes] at hcounts

end Accounting

/-- Passes that have come to their end have counted each event that they read, and nothing that they
read is left. Each event that has left the queue was taken by one pass, which counts it as what it
came to. Another pass counts it so too if it found it in the queue or if the event cannot be
decoded, and as skipped otherwise. An event that does not fail is counted once; one that fails is
not if another pass found it in the queue or if it cannot be decoded, and then only may a strict
pass return its error without having moved it. -/
theorem Reachable.counted_once_iff {tokens : Tokenizer} {s : Store} (h : Reachable tokens s)
    (strict : ℕ → Bool) (schedule : List Turn) :
    let c := Accounting.run tokens strict schedule { passes := { store := s } }
    (∀ i, c.passes.progress i = .ended →
      (c.account i).counts.map (·.event) = (c.account i).read ∧
        ((c.account i).read.map (·.id)).Nodup ∧
        (∀ e ∈ (c.account i).read, ∃ z, (e, z) ∈ c.passes.log) ∧
        (c.account i).error = none ∧ (c.account i).tally.handled = (c.account i).read.length) ∧
    (∀ e z, (e, z) ∈ c.passes.log → z ≠ .skipped ∧
      ∃ k, (∀ i, e ∈ (c.account i).taken ↔ i = k) ∧ ⟨e, z, true⟩ ∈ (c.account k).counts ∧
        (∀ i, ∀ count ∈ (c.account i).counts, count.event = e →
          count.outcome = if count.found || e.isUndecodable then z else .skipped) ∧
        (c.CountsOnce e ↔ ∀ fault, z = .failed fault → ∀ i ≠ k,
          ∀ count ∈ (c.account i).counts, count.event = e →
            count.found = false ∧ e.isUndecodable = false)) ∧
    ∀ i e fault, (c.account i).error = some (e, fault) →
      strict i = true ∧ (e, .failed fault) ∈ c.passes.log ∧
        (∃ now id, e.letter now fault id ∈ c.passes.store.deadLetters.rows) ∧
        (c.CountsOnce e → e ∈ (c.account i).taken) := by
  intro c
  have hbalanced : Accounting.Balanced tokens s strict c := Accounting.balanced_run h.sound schedule
  have hlog := hbalanced.serial.log_eq h.sound
  have hlogged : ∀ e ∈ c.passes.log.map Prod.fst, (e, fates tokens s e) ∈ c.passes.log := by
    intro e he
    rw [hlog]
    exact List.mem_map.mpr ⟨e, he, rfl⟩
  refine ⟨fun i hended => ?_, fun e z hz => ?_, fun i e fault herror => ?_⟩
  · obtain ⟨hcounts, hids, hgone, hnone⟩ := hbalanced.of_ended h.sound hended
    refine ⟨hcounts, hids, fun e he => ⟨_, hlogged e (hgone e he)⟩, hnone, ?_⟩
    rw [Account.handled_tally, ← hcounts, List.length_map]
  · obtain ⟨he, rfl⟩ := hbalanced.serial.fate_of_log h.sound hz
    obtain ⟨k, hk, hcount, hfound⟩ := hbalanced.exists_taker he
    refine ⟨fates_ne_skipped tokens s e, k, hk, hcount, ?_, hbalanced.countsOnce_iff hcount hfound⟩
    rintro i count hmem rfl
    exact (hbalanced.accounts i).outcome count hmem
  · obtain ⟨hstrict, he, hfate, found, hcount⟩ := (hbalanced.accounts i).error herror
    refine ⟨hstrict, hfate ▸ hlogged e he, hbalanced.serial.exists_letter h.sound he hfate, ?_⟩
    rintro ⟨_, -, hunique⟩
    obtain ⟨k, hk, htaker, -⟩ := hbalanced.exists_taker he
    have hi := hunique i ⟨_, hcount, rfl, Attempt.noConfusion⟩
    have htaken := hunique k ⟨_, htaker, rfl, fates_ne_skipped tokens s e⟩
    exact (hk i).mpr (hi.trans htaken.symm)

/-- The lease of the first pass has run out when the second one reads the queue, and both have come
to the event before either sets it aside. -/
def together : List Turn :=
  [⟨0, 2000, .enter 1 0⟩, ⟨0, 2000, .next⟩, ⟨1, 3000, .enter 2 60000⟩, ⟨1, 3000, .next⟩,
    ⟨0, 4000, .next⟩, ⟨1, 4000, .next⟩, ⟨0, 5000, .next⟩, ⟨1, 5000, .next⟩, ⟨0, 6000, .next⟩,
    ⟨1, 6000, .next⟩]

theorem Reachable.counted_once_iff_together :
    let c := Accounting.run String.length (fun _ => false) together
      { passes := { store := spaceless } }
    Reachable String.length spaceless ∧
      (c.account 0).tally = { claimed := 1, failed := 1 } ∧
      (c.account 1).tally = { claimed := 1, failed := 1 } ∧
      ∃ e, (e, .failed (.missingSpace "s")) ∈ c.passes.log ∧ ¬ c.CountsOnce e := by
  intro c
  have hreachable : Reachable String.length spaceless := .perform .empty 1000 _ trivial
  have hevent : ∃ e, (e, .failed (.missingSpace "s")) ∈ c.passes.log ∧ e ∈ (c.account 0).taken ∧
      ⟨e, .failed (.missingSpace "s"), true⟩ ∈ (c.account 1).counts :=
    ⟨⟨1, "s", "SPACE", "INSERT", none, some "{}", Clock.eventTime 1000⟩, by decide +kernel⟩
  obtain ⟨e, hlog, htaken, hcount⟩ := hevent
  obtain ⟨-, hevents, -⟩ := hreachable.counted_once_iff (fun _ => false) together
  obtain ⟨-, k, hk, -, -, honce⟩ := hevents e _ hlog
  have htaker : 0 = k := (hk 0).mp htaken
  refine ⟨hreachable, by decide +kernel, by decide +kernel, e, hlog, fun hcounted => ?_⟩
  have hmissed := honce.mp hcounted _ rfl 1 (by omega) _ hcount rfl
  exact absurd hmissed.1 (by simp)

/-- The second pass, whose lease is good, comes to the event after the first has set it aside. -/
def oneAfterTheOther : List Turn :=
  [⟨0, 2000, .enter 1 0⟩, ⟨0, 2000, .next⟩, ⟨1, 3000, .enter 2 60000⟩, ⟨1, 3000, .next⟩,
    ⟨0, 4000, .next⟩, ⟨0, 4000, .next⟩, ⟨0, 4000, .next⟩, ⟨1, 5000, .next⟩, ⟨1, 5000, .next⟩,
    ⟨1, 5000, .next⟩]

/-- An event that another program has queued, with a value that is cut off. -/
def cutOff : QueuedEvent where
  id := 1
  publicId := "x"
  type := "EDITOR"
  action := "INSERT"
  oldData := none
  newData := some "["
  createdAt := 0

def cutOffQueued : Store :=
  Operation.perform { clock := 1000, tokens := String.length }
    (.addEvent [("action", .text "INSERT"), ("created_at", .int 0),
      ("document_type", .text "EDITOR"), ("new_data", .text "["), ("public_id", .text "x")]) {}

/-- Two passes read the event, and both count it as failed; if the second one is strict, it returns
the error though the first has moved the event. -/
theorem counted_twice :
    let c := Accounting.run String.length (fun _ => false) oneAfterTheOther
      { passes := { store := cutOffQueued } }
    let d := Accounting.run String.length (fun i => i = 1) oneAfterTheOther
      { passes := { store := cutOffQueued } }
    Reachable String.length cutOffQueued ∧
      c.passes.progress 0 = .ended ∧ (c.account 0).read = [cutOff] ∧
      (c.account 0).tally = { claimed := 1, failed := 1 } ∧
      c.passes.progress 1 = .ended ∧ (c.account 1).read = [cutOff] ∧
      (c.account 1).tally = { claimed := 1, failed := 1 } ∧ ¬ c.CountsOnce cutOff ∧
      (d.account 1).error.map Prod.fst = some cutOff ∧ (d.account 1).taken = [] ∧
      (d.account 0).taken = [cutOff] := by
  intro c d
  have hreachable : Reachable String.length cutOffQueued := .perform .empty 1000 _ trivial
  have hcounts : ∀ i < 2, ∃ count ∈ (c.account i).counts, count.event = cutOff ∧
      count.outcome ≠ .skipped := by decide +kernel
  have htwice : ¬ c.CountsOnce cutOff := by
    rintro ⟨k, -, hunique⟩
    have hfirst := hunique 0 (hcounts 0 (by decide))
    have hsecond := hunique 1 (hcounts 1 (by decide))
    omega
  refine ⟨hreachable, ?_, ?_, ?_, ?_, ?_, ?_, htwice, ?_, ?_, ?_⟩
  all_goals decide +kernel

end NodeGraph
