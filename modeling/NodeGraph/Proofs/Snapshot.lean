import NodeGraph.Proofs.Pass
import NodeGraph.Snapshot

/-!
A snapshot pass writes versions and nothing else.
-/
namespace NodeGraph.Snapshot

variable {s : Store}

/-- What a snapshot that no statement of is refused finds, and the store with its versions: due
documents first, then those that have no version after that. -/
def take (options : Options) (now : ℤ) (s : Store) : Stats × Store :=
  let revised := (dueDocuments options now s).foldl (revise now) ({}, s)
  (unversioned revised.2).foldl (initiate now) revised

/-- Looking at a document counts a version just if it writes one. -/
def CountsWrites {δ : Type} (step : Stats × Store → δ → Stats × Store) : Prop :=
  ∀ stats s document, (step (stats, s) document).2 = s ∨
    stats.written < (step (stats, s) document).1.written

theorem countsWrites_revise (now : ℤ) : CountsWrites (revise now) := by
  intro stats s due
  unfold revise
  dsimp only
  split
  · exact Or.inl rfl
  · split
    · exact Or.inl rfl
    · right
      simp only [Stats.written]
      omega

theorem countsWrites_initiate (now : ℤ) : CountsWrites (initiate now) := by
  intro stats s row
  unfold initiate
  dsimp only
  split
  · exact Or.inl rfl
  · right
    simp only [Stats.written]
    omega

theorem look_eq {δ : Type} {step : Stats × Store → δ → Stats × Store} (hstep : CountsWrites step)
    (id : δ → ℤ) (stats : Stats) (document : δ) (s : Store) :
    look .sound id step stats document s =
      .ok (step (stats, s) document).1 (step (stats, s) document).2 := by
  unfold look
  rw [Command.bind_of_ok (Command.get_eq s)]
  dsimp only
  split
  · rfl
  · rename_i hfew
    rw [((hstep stats s document).resolve_right hfew)]
    rfl

theorem foldlM_look {δ : Type} {step : Stats × Store → δ → Stats × Store}
    (hstep : CountsWrites step) (id : δ → ℤ) (documents : List δ) (stats : Stats) (s : Store) :
    documents.foldlM (look .sound id step) stats s =
      .ok (documents.foldl step (stats, s)).1 (documents.foldl step (stats, s)).2 := by
  induction documents generalizing stats s with
  | nil => rfl
  | cons first rest ih =>
    rw [List.foldlM_cons, Command.bind_of_ok (look_eq hstep id stats first s), ih, List.foldl_cons]

theorem takeAll_eq (options : Options) (now : ℤ) (s : Store) :
    takeAll .sound options now s = .ok (take options now s).1 (take options now s).2 := by
  unfold takeAll
  rw [Database.transaction_sound]
  apply Command.transaction_of_ok
  have hdue : (do return dueDocuments options now (← EStateM.get) : Command _) s =
      .ok (dueDocuments options now s) s := rfl
  rw [Database.run_sound, Command.bind_of_ok hdue,
    Command.bind_of_ok (foldlM_look (countsWrites_revise now) _ _ {} s)]
  set revised := (dueDocuments options now s).foldl (revise now) ({}, s) with hrevised
  have hrest : (do return unversioned (← EStateM.get) : Command _) revised.2 =
      .ok (unversioned revised.2) revised.2 := rfl
  rw [Database.run_sound, Command.bind_of_ok hrest]
  exact foldlM_look (countsWrites_initiate now) _ _ _ _

/-- The stores that differ from `s` by their versions alone. -/
def OnlyVersions (s t : Store) : Prop :=
  ∃ versions, t = { s with versions }

/-- What holds before a snapshot pass and is kept by each version that is written of a document
holds after it. -/
theorem take_induction {P : Store → Prop} (options : Options) (now : ℤ) (h : P s)
    (hwrite : ∀ t row hash, OnlyVersions s t → row ∈ s.documents.rows → P t →
      P (writeVersion now row hash t)) : P (take options now s).2 := by
  have hkept : ∀ t row hash, OnlyVersions s t → row ∈ s.documents.rows → P t →
      OnlyVersions s (writeVersion now row hash t) ∧ P (writeVersion now row hash t) := by
    rintro t row hash ⟨versions, rfl⟩ hrow ht
    exact ⟨⟨_, rfl⟩, hwrite _ row hash ⟨versions, rfl⟩ hrow ht⟩
  have hrevised : ∀ (due : List (DocumentRow × Version)) (acc : Stats × Store),
      (∀ entry ∈ due, entry.1 ∈ s.documents.rows) → OnlyVersions s acc.2 ∧ P acc.2 →
      OnlyVersions s (due.foldl (revise now) acc).2 ∧ P (due.foldl (revise now) acc).2 := by
    intro due
    induction due with
    | nil => exact fun acc _ hacc => hacc
    | cons first rest ih =>
      intro acc hrows hacc
      refine ih _ (fun entry hentry => hrows entry (List.mem_cons_of_mem _ hentry)) ?_
      unfold revise
      dsimp only
      split
      · exact hacc
      · split
        · exact hacc
        · exact hkept _ _ _ hacc.1 (hrows first List.mem_cons_self) hacc.2
  have hinitiated : ∀ (rows : List DocumentRow) (acc : Stats × Store),
      (∀ row ∈ rows, row ∈ s.documents.rows) → OnlyVersions s acc.2 ∧ P acc.2 →
      OnlyVersions s (rows.foldl (initiate now) acc).2 ∧ P (rows.foldl (initiate now) acc).2 := by
    intro rows
    induction rows with
    | nil => exact fun acc _ hacc => hacc
    | cons first rest ih =>
      intro acc hrows hacc
      refine ih _ (fun row hrow => hrows row (List.mem_cons_of_mem _ hrow)) ?_
      unfold initiate
      dsimp only
      split
      · exact hacc
      · exact hkept _ _ _ hacc.1 (hrows first List.mem_cons_self) hacc.2
  have hdue : ∀ entry ∈ dueDocuments options now s, entry.1 ∈ s.documents.rows := by
    intro entry hentry
    obtain ⟨row, hrow, hlooked⟩ := List.mem_filterMap.mp hentry
    split at hlooked
    · split at hlooked
      · exact Option.some.inj hlooked ▸ hrow
      · exact nomatch hlooked
    · exact nomatch hlooked
  have hmiddle := hrevised _ ({}, s) hdue ⟨⟨s.versions, rfl⟩, h⟩
  refine (hinitiated _ _ (fun row hrow => ?_) hmiddle).2
  have hmem := (List.mem_filter.mp hrow).1
  obtain ⟨versions, hsame⟩ := hmiddle.1
  rwa [hsame] at hmem

theorem take_onlyVersions (options : Options) (now : ℤ) (s : Store) :
    OnlyVersions s (take options now s).2 := by
  refine take_induction options now ⟨s.versions, rfl⟩ fun t row hash ht _ _ => ?_
  obtain ⟨versions, rfl⟩ := ht
  exact ⟨_, rfl⟩

/-- A snapshot pass takes a snapshot under its lease, or does nothing. -/
theorem run_taken (env : Env) (owner : ℕ) (options : Options) (time : ℤ) (s : Store) :
    ((run env owner options time).outcome s).2 = s ∨
      ((run env owner options time).outcome s).2 =
        Lease.release ⟨Lease.snapshots, owner, Clock.after env.now options.leaseTtl⟩
          (take options time
            (Pass.leased env.now owner Lease.snapshots options.leaseTtl s)).2 := by
  have htake (t : Store) : ((takeAll .sound options time).outcome t).2 = (take options time t).2 :=
    Command.outcome_of_ok (takeAll_eq options time t)
  rw [← htake]
  exact Pass.underLease_outcome env owner Lease.snapshots options.leaseTtl
    (takeAll .sound options time) s

/-- A snapshot pass leaves everything but versions and leases. -/
theorem run_outcome (env : Env) (owner : ℕ) (options : Options) (time : ℤ) (s : Store) :
    ((run env owner options time).outcome s).2 = s ∨
      ∃ versions, ((run env owner options time).outcome s).2 =
        Lease.release ⟨Lease.snapshots, owner, Clock.after env.now options.leaseTtl⟩
          { Pass.leased env.now owner Lease.snapshots options.leaseTtl s with versions } := by
  rcases run_taken env owner options time s with hsame | hworked
  · exact Or.inl hsame
  · right
    obtain ⟨versions, htaken⟩ :=
      take_onlyVersions options time (Pass.leased env.now owner Lease.snapshots options.leaseTtl s)
    exact ⟨versions, hworked.trans (by rw [htaken])⟩

theorem run_sound {tokens : Tokenizer} (h : s.Sound tokens) (env : Env) (owner : ℕ)
    (options : Options) (time : ℤ) : ((run env owner options time).outcome s).2.Sound tokens := by
  rcases run_outcome env owner options time s with hsame | ⟨versions, hwritten⟩
  · rw [hsame]
    exact h
  · rw [hwritten]
    exact h.congr rfl rfl rfl rfl rfl rfl rfl

end NodeGraph.Snapshot
