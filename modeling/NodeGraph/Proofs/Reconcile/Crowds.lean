import NodeGraph.Proofs.Delivery

/-!
Listings of many nodes: a space for which more new nodes are listed than one statement can be given
gets none of them.
-/
namespace NodeGraph

open Store

/-! ### Listings that do not fit -/

namespace Plan

variable {tokens : Tokenizer} {s : Store} {p : String} {space : Space} {titles : Keyed String}

/-- Too many new nodes for one statement are in the way of a plan. -/
theorem obstacle?_of_many (h : s.GraphSound tokens) (hspace : s.space? p = some space)
    (hkeys : titles.keys.Nodup)
    (hmany : maxParameters < 2 * (titles.filter fun entry => !s.hasNode entry.1).length) :
    (Plan.space p titles).obstacle? s = some .tooManyParameters := by
  have hfull : Reconcile.fits titles s = false := by
    rw [Bool.eq_false_iff, ne_eq, Reconcile.fits_iff_counts h hkeys]
    omega
  rw [obstacle?_of_space hspace, hfull]
  rfl

/-- In a store without nodes every listed node is new. -/
theorem obstacle?_of_no_nodes (h : s.GraphSound tokens) (hspace : s.space? p = some space)
    (hkeys : titles.keys.Nodup) (hnodes : s.nodes.rows = [])
    (hmany : maxParameters < 2 * titles.length) :
    (Plan.space p titles).obstacle? s = some .tooManyParameters := by
  apply obstacle?_of_many h hspace hkeys
  have hnone : ∀ q, s.hasNode q = false := fun q => by
    unfold hasNode Table.any
    rw [hnodes]
    rfl
  simpa [hnone] using hmany

end Plan

/-! ### Listings of many lengths -/

/-- Keys of one character each, in order from U+4E00 on. -/
def crowdKey (i : ℕ) : String :=
  String.singleton (Char.ofNat (0x4E00 + i))

/-- So many nodes without titles. -/
def crowd (n : ℕ) : Keyed String :=
  (List.range n).map fun i => (crowdKey i, "")

/-- The document of a space that lists them. -/
def crowdListing (n : ℕ) : Json :=
  .obj [("nodes", .obj ((List.range n).map fun i => (crowdKey i, .obj [])))]

/-- How many characters there are from U+4E00 to the first surrogate. -/
def crowdLimit : ℕ := 0x8A00

theorem crowdKey_lt {i j : ℕ} (hij : i < j) (hj : j < crowdLimit) : crowdKey i < crowdKey j := by
  have hvalue : ∀ k < crowdLimit, (Char.ofNat (0x4E00 + k)).toNat = 0x4E00 + k := by
    intro k hk
    have hvalid : (0x4E00 + k).isValidChar := by
      unfold crowdLimit at hk
      exact Or.inl (by omega)
    unfold Char.ofNat
    rw [dif_pos hvalid]
    rfl
  have hletter : Char.ofNat (0x4E00 + i) < Char.ofNat (0x4E00 + j) := by
    show (Char.ofNat (0x4E00 + i)).toNat < (Char.ofNat (0x4E00 + j)).toNat
    rw [hvalue i (hij.trans hj), hvalue j hj]
    omega
  rw [String.lt_iff_toList_lt]
  simpa [crowdKey] using List.Lex.rel hletter

theorem crowdKey_ne_zero : crowdKey 1 ≠ crowdKey 0 :=
  (crowdKey_lt Nat.one_pos (by decide)).ne'

@[simp] theorem length_crowd (n : ℕ) : (crowd n).length = n := by
  simp [crowd]

theorem mem_crowd {n i : ℕ} (h : i < n) : (crowdKey i, "") ∈ crowd n :=
  List.mem_map.mpr ⟨i, List.mem_range.mpr h, rfl⟩

theorem mem_keys_crowd {n i : ℕ} (h : i < n) : crowdKey i ∈ (crowd n).keys :=
  List.mem_map_of_mem (mem_crowd h)

theorem sorted_of_crowdKeys {α : Type} {n : ℕ} (h : n ≤ crowdLimit) (value : α) :
    Keyed.Sorted ((List.range n).map fun i => (crowdKey i, value)) := by
  unfold Keyed.Sorted
  rw [List.pairwise_map]
  refine List.pairwise_lt_range.imp_of_mem fun _ hj hij => ?_
  exact crowdKey_lt hij ((List.mem_range.mp hj).trans_le h)

theorem nodup_keys_crowd {n : ℕ} (h : n ≤ crowdLimit) : (crowd n).keys.Nodup :=
  (sorted_of_crowdKeys h "").nodup_keys

theorem titlesIn_crowdListing (n : ℕ) : Plan.titlesIn (crowdListing n) = crowd n := by
  have hnodes : ((crowdListing n).field? "nodes").bind Json.fields? =
      some ((List.range n).map fun i => (crowdKey i, .obj [])) := rfl
  unfold Plan.titlesIn
  rw [hnodes]
  dsimp only
  rw [List.map_map]
  rfl

theorem sound_crowdListing {n : ℕ} (h : n ≤ crowdLimit) : (crowdListing n).Sound := by
  refine ⟨?_, ?_, ?_⟩
  · refine ⟨?_, trivial⟩
    rw [Json.Fits, Json.fitsFields_iff]
    intro entry hentry
    obtain ⟨i, -, rfl⟩ := List.mem_map.mp hentry
    trivial
  · have hfields : Keyed.ofList (Json.canonicalFields
        ((List.range n).map fun i => (crowdKey i, Json.obj []))) =
        (List.range n).map fun i => (crowdKey i, .obj []) := by
      rw [Json.canonicalFields_eq, List.map_map]
      exact Keyed.ofList_of_sorted (sorted_of_crowdKeys h (Json.obj []))
    show Json.obj [("nodes", .obj (Keyed.ofList _))] = _
    rw [hfields]
    rfl
  · have hflat : Json.depthFields ((List.range n).map fun i => (crowdKey i, Json.obj [])) ≤ 1 := by
      rw [Json.depthFields_le]
      intro entry hentry
      obtain ⟨i, -, rfl⟩ := List.mem_map.mp hentry
      exact le_rfl
    simp only [crowdListing, Json.depth, Json.depthFields, Json.maxDepth]
    omega

theorem readsBack_crowdListing (n : ℕ) : (crowdListing n).ReadsBack := by
  intro x hx
  have hx : x ∈ Json.floatsOfFields ((List.range n).map fun i => (crowdKey i, Json.obj [])) := by
    simpa [crowdListing, Json.floats, Json.floatsOfFields] using hx
  obtain ⟨entry, hentry, hfloat⟩ := Json.mem_floatsOfFields.mp hx
  obtain ⟨i, -, rfl⟩ := List.mem_map.mp hentry
  exact absurd hfloat List.not_mem_nil

end NodeGraph
