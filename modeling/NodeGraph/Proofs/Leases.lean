import NodeGraph.Proofs.Pass

/-!
Leases exclude one another: while one runs and is not given up, nobody else gets its name, and what
is asked for one name is nothing to the others.
-/
namespace NodeGraph

namespace Lease

/-- What is asked of leases. Whoever takes one or looks at one reads the clock. -/
inductive Request where
  | acquire (now : ℤ) (owner : ℕ) (name : String) (ttl : ℤ)
  | check (now : ℤ) (lease : Lease)
  | release (lease : Lease)

namespace Request

def name : Request → String
  | acquire _ _ name _ => name
  | check _ lease => lease.name
  | release lease => lease.name

/-- What the clock showed when it was read for the request. -/
def reading? : Request → Option ℤ
  | acquire now _ _ _ => some now
  | check now _ => some now
  | release _ => none

/-- The owner for whom a lease is to be taken. -/
def owner? : Request → Option ℕ
  | acquire _ owner _ _ => some owner
  | check _ _ => none
  | release _ => none

end Request

/-! ### Single requests -/

/-- The row that a lease has while it is its holder's. -/
def row (lease : Lease) : LeaseRow :=
  { lease with }

/-- The rows of a name. -/
def rowsOf (name : String) (s : Store) : List LeaseRow :=
  s.leases.filter (·.name = name)

/-- No name has two rows. -/
def Unshared (s : Store) : Prop :=
  (s.leases.map (·.name)).Nodup

section Single

variable {now : ℤ} {owner : ℕ} {name : String} {ttl : ℤ} {lease other : Lease} {row : LeaseRow}
  {s t : Store}

theorem isTaken_eq_false :
    isTaken now name s = false ↔ ∀ row ∈ s.leases, row.name = name → row.expiresAt ≤ now := by
  simp [isTaken]

theorem isTaken_of_running (hrow : row ∈ s.leases) (hnow : now < row.expiresAt) :
    isTaken now row.name s = true :=
  List.any_eq_true.mpr ⟨row, hrow, by simp [hnow]⟩

theorem isHeld_of_running (hrow : lease.row ∈ s.leases) (hnow : now < lease.expiresAt) :
    isHeld now lease s = true :=
  List.any_eq_true.mpr ⟨lease.row, hrow, by simp [Lease.row, hnow]⟩

theorem exists_row_of_isHeld (h : isHeld now lease s = true) :
    ∃ row ∈ s.leases, row.name = lease.name ∧ row.owner = lease.owner := by
  obtain ⟨row, hrow, hheld⟩ := List.any_eq_true.mp h
  simp only [Bool.and_eq_true, decide_eq_true_eq] at hheld
  exact ⟨row, hrow, hheld.1⟩

/-- A lease can be taken exactly if none of its name is running. -/
theorem exists_acquire_iff :
    (∃ lease, (acquire now owner name ttl s).1 = some lease) ↔
      ∀ row ∈ s.leases, row.name = name → row.expiresAt ≤ now := by
  rw [← isTaken_eq_false]
  cases htaken : isTaken now name s with
  | true => simp [Pass.acquire_of_taken htaken]
  | false => simp [Pass.acquire_of_free htaken]

theorem acquire_eq_some (h : (acquire now owner name ttl s).1 = some lease) :
    lease = ⟨name, owner, Clock.after now ttl⟩ ∧
      lease.row ∈ (acquire now owner name ttl s).2.leases := by
  cases htaken : isTaken now name s with
  | true =>
    rw [Pass.acquire_of_taken htaken] at h
    exact nomatch h
  | false =>
    rw [Pass.acquire_of_free htaken] at h ⊢
    obtain rfl := Option.some.inj h
    exact ⟨rfl, List.mem_append_right _ (List.mem_singleton.mpr rfl)⟩

/-- A running lease withstands every attempt to take one. -/
theorem mem_leases_acquire (hrow : row ∈ s.leases) (hnow : now < row.expiresAt) :
    row ∈ (acquire now owner name ttl s).2.leases := by
  cases htaken : isTaken now name s with
  | true =>
    rw [Pass.acquire_of_taken htaken]
    exact hrow
  | false =>
    rw [Pass.acquire_of_free htaken]
    refine List.mem_append_left _ (List.mem_filter.mpr ⟨hrow, decide_eq_true ?_⟩)
    rintro rfl
    rw [isTaken_of_running hrow hnow] at htaken
    exact nomatch htaken

theorem mem_leases_release :
    row ∈ (lease.release s).leases ↔
      row ∈ s.leases ∧ (row.name = lease.name → row.owner ≠ lease.owner) := by
  simp [release, imp_iff_not_or]

theorem Unshared.acquire (h : Unshared s) : Unshared (Lease.acquire now owner name ttl s).2 := by
  cases htaken : isTaken now name s with
  | true =>
    rw [Pass.acquire_of_taken htaken]
    exact h
  | false =>
    rw [Pass.acquire_of_free htaken]
    unfold Unshared Pass.leased
    rw [List.map_append, List.nodup_append]
    refine ⟨h.sublist (List.filter_sublist.map _), List.nodup_singleton _, ?_⟩
    intro a ha b hb heq
    obtain ⟨row, hrow, rfl⟩ := List.mem_map.mp ha
    rw [List.map_singleton, List.mem_singleton] at hb
    exact of_decide_eq_true (List.mem_filter.mp hrow).2 (heq.trans hb)

theorem Unshared.release (h : Unshared s) : Unshared (lease.release s) :=
  h.sublist (List.filter_sublist.map _)

/-- A holder has the only row of the name. -/
theorem Unshared.owner_eq (h : Unshared s) (hrow : row ∈ s.leases)
    (hheld : isHeld now lease s = true) (hname : row.name = lease.name) :
    row.owner = lease.owner := by
  obtain ⟨held, hmem, hheldName, hheldOwner⟩ := exists_row_of_isHeld hheld
  rw [List.inj_on_of_nodup_map h hrow hmem (hname.trans hheldName.symm), hheldOwner]

/-- Giving up a lease that somebody else has taken over does nothing. -/
theorem release_of_isHeld (h : Unshared s) (hheld : isHeld now other s = true)
    (hname : lease.name = other.name) (howner : lease.owner ≠ other.owner) :
    lease.release s = s := by
  have hkept : (s.leases.filter fun row =>
      !(row.name = lease.name && row.owner = lease.owner)) = s.leases := by
    refine List.filter_eq_self.mpr fun row hrow => ?_
    simp only [Bool.not_eq_true', Bool.and_eq_false_iff, decide_eq_false_iff_not]
    by_cases hrowName : row.name = lease.name
    · right
      rw [h.owner_eq hrow hheld (hrowName.trans hname)]
      exact howner.symm
    · exact Or.inl hrowName
  unfold release
  rw [hkept]

/-! ### Names apart -/

theorem isTaken_congr (h : rowsOf name s = rowsOf name t) :
    isTaken now name s = isTaken now name t := by
  have hrows : ∀ u : Store,
      isTaken now name u = (rowsOf name u).any fun row => now < row.expiresAt := by
    intro u
    unfold rowsOf
    rw [List.any_filter]
    rfl
  rw [hrows, hrows, h]

theorem rowsOf_leased (other : String) :
    rowsOf other (Pass.leased now owner name ttl s) =
      if name = other then [⟨name, owner, Clock.after now ttl⟩] else rowsOf other s := by
  unfold rowsOf Pass.leased
  rw [List.filter_append, List.filter_filter]
  by_cases hname : name = other
  · subst hname
    simp
  · rw [if_neg hname]
    rw [List.filter_cons_of_neg (by simpa using hname), List.filter_nil, List.append_nil]
    refine List.filter_congr fun row _ => ?_
    by_cases hrow : row.name = other
    · subst hrow
      simp [Ne.symm hname]
    · simp [hrow]

theorem rowsOf_release (other : String) :
    rowsOf other (lease.release s) =
      (rowsOf other s).filter fun row => !(row.name = lease.name && row.owner = lease.owner) := by
  unfold rowsOf release
  rw [List.filter_filter, List.filter_filter]
  exact List.filter_congr fun row _ => Bool.and_comm _ _

theorem rowsOf_release_of_ne {other : String} (h : lease.name ≠ other) :
    rowsOf other (lease.release s) = rowsOf other s := by
  rw [rowsOf_release]
  refine List.filter_eq_self.mpr fun row hrow => ?_
  have hname : row.name = other := of_decide_eq_true (List.mem_filter.mp hrow).2
  simp [hname, Ne.symm h]

end Single
end Lease

/-! ### Runs of requests -/

/-- The store, and all leases that have been handed out so far. -/
structure Leasing where
  store : Store := {}
  granted : List Lease := []

namespace Leasing

open Lease

variable {now : ℤ} {owner : ℕ} {name : String} {ttl : ℤ} {lease : Lease} {row : LeaseRow}
  {l l' : Leasing} {r : Request} {requests : List Request}

/-- Answers a request; looking at a lease changes nothing. -/
def serve (l : Leasing) : Request → Leasing
  | .acquire now owner name ttl =>
    let (lease, store) := Lease.acquire now owner name ttl l.store
    { store, granted := l.granted ++ lease.toList }
  | .check _ _ => l
  | .release lease => { l with store := lease.release l.store }

def run (requests : List Request) : Leasing :=
  requests.foldl serve {}

theorem run_concat (requests : List Request) (r : Request) :
    run (requests ++ [r]) = (run requests).serve r :=
  List.foldl_concat _ _ _ _

theorem run_append_cons (before after : List Request) (r : Request) :
    run (before ++ r :: after) = after.foldl serve ((run before).serve r) := by
  unfold run
  rw [List.foldl_append, List.foldl_cons]

/-- A running lease outlives every request but its own release. -/
theorem mem_leases_serve (hrow : row ∈ l.store.leases)
    (hrunning : ∀ now ∈ r.reading?, now < row.expiresAt)
    (hkept : ∀ lease, .release lease = r → lease.name = row.name → lease.owner ≠ row.owner) :
    row ∈ (l.serve r).store.leases := by
  cases r with
  | acquire now owner name ttl => exact mem_leases_acquire hrow (hrunning now rfl)
  | check now lease => exact hrow
  | release lease =>
    exact mem_leases_release.mpr ⟨hrow, fun hname => (hkept lease rfl hname.symm).symm⟩

theorem mem_leases_foldl (hrow : row ∈ l.store.leases)
    (hrunning : ∀ r ∈ requests, ∀ now ∈ r.reading?, now < row.expiresAt)
    (hkept : ∀ lease, .release lease ∈ requests → lease.name = row.name →
      lease.owner ≠ row.owner) :
    row ∈ (requests.foldl serve l).store.leases := by
  induction requests generalizing l with
  | nil => exact hrow
  | cons r rest ih =>
    have hfirst : row ∈ (l.serve r).store.leases :=
      mem_leases_serve hrow (hrunning r List.mem_cons_self)
        fun lease hlease => hkept lease (hlease ▸ List.mem_cons_self)
    exact ih hfirst (fun r hr => hrunning r (List.mem_cons_of_mem _ hr))
      fun lease hlease => hkept lease (List.mem_cons_of_mem _ hlease)

theorem unshared_run (requests : List Request) : Unshared (run requests).store := by
  induction requests using List.reverseRecOn with
  | nil => exact List.nodup_nil
  | append_singleton past r ih =>
    rw [run_concat]
    cases r with
    | acquire now owner name ttl => exact ih.acquire
    | check now lease => exact ih
    | release lease => exact ih.release

/-- A lease is handed out to the owner for whom it was to be taken. -/
theorem owners_granted_run (requests : List Request) :
    ((run requests).granted.map (·.owner)).Sublist (requests.filterMap Request.owner?) := by
  induction requests using List.reverseRecOn with
  | nil => exact List.Sublist.slnil
  | append_singleton past r ih =>
    rw [run_concat, List.filterMap_append]
    cases r with
    | acquire now owner name ttl =>
      show (((run past).granted ++
        (Lease.acquire now owner name ttl (run past).store).1.toList).map (·.owner)).Sublist _
      rw [List.map_append]
      refine ih.append ?_
      cases hlease : (Lease.acquire now owner name ttl (run past).store).1 with
      | none => exact List.nil_sublist _
      | some lease =>
        obtain ⟨rfl, -⟩ := acquire_eq_some hlease
        exact List.Sublist.refl _
    | check now lease => exact ih.trans (List.sublist_append_left _ _)
    | release lease => exact ih.trans (List.sublist_append_left _ _)

/-- Where every attempt to take a lease is made for an owner of its own, leases that were handed
out are told apart by their owners. -/
theorem eq_of_owner_eq (howners : (requests.filterMap Request.owner?).Nodup) {first second : Lease}
    (hfirst : first ∈ (run requests).granted) (hsecond : second ∈ (run requests).granted)
    (howner : first.owner = second.owner) : first = second :=
  List.inj_on_of_nodup_map (howners.sublist (owners_granted_run requests)) hfirst hsecond howner

theorem mem_granted_foldl (hlease : lease ∈ l.granted) (requests : List Request) :
    lease ∈ (requests.foldl serve l).granted := by
  induction requests generalizing l with
  | nil => exact hlease
  | cons r rest ih =>
    refine ih ?_
    cases r with
    | acquire now owner name ttl => exact List.mem_append_left _ hlease
    | check now lease => exact hlease
    | release lease => exact hlease

/-- Two runs that stand alike as far as a name goes: the rows of the name and the leases handed out
under it are the same. -/
def Agree (name : String) (l l' : Leasing) : Prop :=
  rowsOf name l.store = rowsOf name l'.store ∧
    l.granted.filter (·.name = name) = l'.granted.filter (·.name = name)

/-- Requests for another name are nothing to a name. -/
theorem agree_serve_of_ne (hname : r.name ≠ name) (h : Agree name l l') :
    Agree name (l.serve r) l' := by
  cases r with
  | acquire now owner other ttl =>
    cases htaken : isTaken now other l.store with
    | true =>
      have hserved : l.serve (.acquire now owner other ttl) = l := by
        simp [serve, Pass.acquire_of_taken htaken]
      rw [hserved]
      exact h
    | false =>
      have hother : other ≠ name := hname
      constructor
      · show rowsOf name (Lease.acquire now owner other ttl l.store).2 = _
        rw [Pass.acquire_of_free htaken, rowsOf_leased, if_neg hother]
        exact h.1
      · show (l.granted ++ (Lease.acquire now owner other ttl l.store).1.toList).filter _ = _
        rw [Pass.acquire_of_free htaken, List.filter_append, h.2]
        simp [hother]
  | check now lease => exact h
  | release lease => exact ⟨(rowsOf_release_of_ne hname).trans h.1, h.2⟩

theorem agree_serve (hname : r.name = name) (h : Agree name l l') :
    Agree name (l.serve r) (l'.serve r) := by
  cases r with
  | acquire now owner other ttl =>
    obtain rfl : other = name := hname
    have hsame : isTaken now other l.store = isTaken now other l'.store := isTaken_congr h.1
    cases htaken : isTaken now other l.store with
    | true =>
      rw [htaken] at hsame
      simpa [serve, Pass.acquire_of_taken htaken, Pass.acquire_of_taken hsame.symm] using h
    | false =>
      rw [htaken] at hsame
      constructor
      · show rowsOf other (Lease.acquire now owner other ttl l.store).2 =
          rowsOf other (Lease.acquire now owner other ttl l'.store).2
        rw [Pass.acquire_of_free htaken, Pass.acquire_of_free hsame.symm, rowsOf_leased,
          rowsOf_leased, if_pos rfl, if_pos rfl]
      · show (l.granted ++ (Lease.acquire now owner other ttl l.store).1.toList).filter _ =
          (l'.granted ++ (Lease.acquire now owner other ttl l'.store).1.toList).filter _
        rw [Pass.acquire_of_free htaken, Pass.acquire_of_free hsame.symm, List.filter_append,
          List.filter_append, h.2]
  | check now lease => exact h
  | release lease =>
    refine ⟨?_, h.2⟩
    show rowsOf name (lease.release l.store) = rowsOf name (lease.release l'.store)
    rw [rowsOf_release, rowsOf_release, h.1]

/-- Everything about a name comes from the requests for that name. -/
theorem agree_filter (name : String) (requests : List Request) :
    Agree name (run requests) (run (requests.filter (·.name = name))) := by
  induction requests using List.reverseRecOn with
  | nil => exact ⟨rfl, rfl⟩
  | append_singleton past r ih =>
    rw [run_concat, List.filter_append]
    by_cases hname : r.name = name
    · have hkept : [r].filter (·.name = name) = [r] := by simp [hname]
      rw [hkept, run_concat]
      exact agree_serve hname ih
    · have hdropped : [r].filter (·.name = name) = [] := by simp [hname]
      rw [hdropped, List.append_nil]
      exact agree_serve_of_ne hname ih

/-! ### Exclusion -/

/-- While the clock shows less than the end of a lease that is not given up, its row stays. -/
theorem row_mem_of_running {before after : List Request}
    (hlease : (Lease.acquire now owner name ttl (run before).store).1 = some lease)
    (hkept : ∀ other, .release other ∈ after → other.name = name → other.owner ≠ owner)
    (hrunning : ∀ r ∈ after, ∀ time ∈ r.reading?, time < lease.expiresAt) :
    lease.row ∈ (run (before ++ .acquire now owner name ttl :: after)).store.leases := by
  obtain ⟨rfl, hrow⟩ := acquire_eq_some hlease
  rw [run_append_cons]
  exact mem_leases_foldl hrow hrunning hkept

theorem mem_granted_run {before after : List Request}
    (hlease : (Lease.acquire now owner name ttl (run before).store).1 = some lease) :
    lease ∈ (run (before ++ .acquire now owner name ttl :: after)).granted := by
  rw [run_append_cons]
  refine mem_granted_foldl ?_ after
  show lease ∈ (run before).granted ++
    (Lease.acquire now owner name ttl (run before).store).1.toList
  rw [hlease]
  exact List.mem_append_right _ (List.mem_singleton.mpr rfl)

/-- In every sequence of requests in which each attempt to take a lease is made for an owner of its
own: an attempt succeeds exactly if no lease of the name is running; a lease that was taken is held
until its end unless it is given up, and so long nobody else gets the name or holds it; giving up a
lease that was taken over does nothing; and all about a name is as if nothing had been asked for
the others. -/
theorem exclusive (before after : List Request) (now : ℤ) (owner : ℕ) (name : String) (ttl : ℤ)
    (howners : ((before ++ .acquire now owner name ttl :: after).filterMap Request.owner?).Nodup) :
    let past := run before
    let present := run (before ++ .acquire now owner name ttl :: after)
    ((∃ lease, (Lease.acquire now owner name ttl past.store).1 = some lease) ↔
        ∀ row ∈ past.store.leases, row.name = name → row.expiresAt ≤ now) ∧
      (∀ lease, (Lease.acquire now owner name ttl past.store).1 = some lease →
        (∀ other, .release other ∈ after → other.name = name → other.owner ≠ owner) →
        (∀ r ∈ after, ∀ time ∈ r.reading?, time < lease.expiresAt) →
        (∀ time < lease.expiresAt, Lease.isHeld time lease present.store = true ∧
          ∀ owner' ttl', Lease.acquire time owner' name ttl' present.store =
            (none, present.store)) ∧
        ∀ other ∈ present.granted, other.name = name → other ≠ lease →
          ∀ time, Lease.isHeld time other present.store = false) ∧
      (∀ stale ∈ present.granted, ∀ fresh ∈ present.granted, stale.name = fresh.name →
        stale ≠ fresh → ∀ time, Lease.isHeld time fresh present.store = true →
          stale.release present.store = present.store) ∧
      ∀ other, Agree other present
        (run ((before ++ .acquire now owner name ttl :: after).filter (·.name = other))) := by
  intro past present
  have hunshared : Unshared present.store := unshared_run _
  refine ⟨exists_acquire_iff, ?_, ?_, fun other => agree_filter other _⟩
  · intro lease hlease hkept hrunning
    have hrow : lease.row ∈ present.store.leases := row_mem_of_running hlease hkept hrunning
    have hgranted : lease ∈ present.granted := mem_granted_run hlease
    obtain ⟨hvalue, -⟩ := acquire_eq_some hlease
    have hname : lease.name = name := congrArg Lease.name hvalue
    refine ⟨fun time htime => ⟨isHeld_of_running hrow htime, fun owner' ttl' => ?_⟩, ?_⟩
    · refine Pass.acquire_of_taken ?_
      rw [← hname]
      exact isTaken_of_running hrow htime
    · intro other hother hotherName hne time
      rw [← Bool.not_eq_true]
      intro hheld
      have howner : lease.owner = other.owner :=
        hunshared.owner_eq hrow hheld (hname.trans hotherName.symm)
      exact hne (eq_of_owner_eq howners hother hgranted howner.symm)
  · intro stale hstale fresh hfresh hname hne time hheld
    exact release_of_isHeld hunshared hheld hname fun howner =>
      hne (eq_of_owner_eq howners hstale hfresh howner)

/-- A lease that has run out is taken over; giving it up does not hurt its successor. -/
theorem exclusive_takenOver :
    let before : List Request := [.acquire 0 1 "pass" 100]
    let after : List Request := [.acquire 500 3 "pass" 10, .release ⟨"pass", 1, 100⟩,
      .check 600 ⟨"pass", 1, 100⟩, .acquire 600 4 "other" 10]
    let present := run (before ++ .acquire 150 2 "pass" 1000 :: after)
    (∃ lease, (Lease.acquire 150 2 "pass" 1000 (run before).store).1 = some lease) ∧
      Lease.isHeld 1149 ⟨"pass", 2, 1150⟩ present.store = true ∧
      Lease.isHeld 50 ⟨"pass", 1, 100⟩ present.store = false ∧
      Lease.release ⟨"pass", 1, 100⟩ present.store = present.store ∧
      Agree "other" present (run [.acquire 600 4 "other" 10]) := by
  intro before after present
  have hkept : ∀ other, .release other ∈ after → other.name = "pass" → other.owner ≠ 2 := by
    intro other hother hname
    obtain rfl : other = ⟨"pass", 1, 100⟩ := by simpa [after] using hother
    decide
  have hrunning : ∀ r ∈ after, ∀ time ∈ r.reading?, time < 1150 := by decide
  obtain ⟨htakes, hholds, hspares, hapart⟩ :=
    exclusive before after 150 2 "pass" 1000 (by decide)
  obtain ⟨hheld, hothers⟩ := hholds ⟨"pass", 2, 1150⟩ (by decide) hkept hrunning
  refine ⟨htakes.mpr (by decide), (hheld 1149 (by decide)).1,
    hothers ⟨"pass", 1, 100⟩ (by decide) rfl (by decide) 50,
    hspares ⟨"pass", 1, 100⟩ (by decide) ⟨"pass", 2, 1150⟩ (by decide) rfl (by decide) 1149
      (hheld 1149 (by decide)).1, hapart "other"⟩

end Leasing
end NodeGraph
