import Mathlib.Tactic
import Mathlib.Data.String.Basic
import NodeGraph.Keyed

/-!
Association lists in strictly increasing key order.
-/
namespace NodeGraph.Keyed

variable {α β : Type}

def Sorted (entries : Keyed α) : Prop :=
  entries.Pairwise fun a b => a.1 < b.1

theorem Sorted.nodup_keys {entries : Keyed α} (h : Sorted entries) : (keys entries).Nodup := by
  unfold keys List.Nodup
  rw [List.pairwise_map]
  exact h.imp fun hlt => ne_of_lt hlt

theorem mem_of_mem_insert {key : String} {value : α} {entries : Keyed α} {entry : String × α}
    (h : entry ∈ insert key value entries) : entry = (key, value) ∨ entry ∈ entries := by
  induction entries with
  | nil => simpa [insert] using h
  | cons head rest ih => grind [insert]

theorem mem_of_mem_ofList {entries : List (String × α)} {entry : String × α}
    (h : entry ∈ ofList entries) : entry ∈ entries := by
  have general : ∀ (es : List (String × α)) (acc : Keyed α),
      entry ∈ es.foldl (fun acc e => insert e.1 e.2 acc) acc → entry ∈ acc ∨ entry ∈ es := by
    intro es
    induction es with
    | nil => exact fun acc h => Or.inl h
    | cons e es ih =>
      intro acc h
      rcases ih _ h with hacc | hes
      · rcases mem_of_mem_insert hacc with rfl | hold
        · exact Or.inr List.mem_cons_self
        · exact Or.inl hold
      · exact Or.inr (List.mem_cons_of_mem _ hes)
  exact (general entries [] h).resolve_left List.not_mem_nil

theorem sorted_insert {key : String} {value : α} {entries : Keyed α} (h : Sorted entries) :
    Sorted (insert key value entries) := by
  induction entries with
  | nil => simp [insert, Sorted]
  | cons head rest ih =>
    obtain ⟨k, v⟩ := head
    obtain ⟨hhead, hrest⟩ := List.pairwise_cons.mp h
    unfold insert
    split
    · rename_i hlt
      refine List.pairwise_cons.mpr ⟨?_, h⟩
      intro entry hentry
      rcases List.mem_cons.mp hentry with rfl | hmem
      · exact hlt
      · exact hlt.trans (hhead entry hmem)
    · split
      · rename_i heq
        subst heq
        exact List.pairwise_cons.mpr ⟨hhead, hrest⟩
      · rename_i hnlt hne
        have hgt : k < key := lt_of_le_of_ne (not_lt.mp hnlt) (Ne.symm hne)
        refine List.pairwise_cons.mpr ⟨?_, ih hrest⟩
        intro entry hentry
        rcases mem_of_mem_insert hentry with rfl | hmem
        · exact hgt
        · exact hhead entry hmem

theorem sorted_ofList (entries : List (String × α)) : Sorted (ofList entries) := by
  have general : ∀ (es : List (String × α)) (acc : Keyed α), Sorted acc →
      Sorted (es.foldl (fun acc e => insert e.1 e.2 acc) acc) := by
    intro es
    induction es with
    | nil => exact fun acc h => h
    | cons e es ih => exact fun acc h => ih _ (sorted_insert h)
  exact general entries [] List.Pairwise.nil

/-- A key above all others goes to the end. -/
theorem insert_of_forall_lt {key : String} {value : α} {entries : Keyed α}
    (h : ∀ entry ∈ entries, entry.1 < key) :
    insert key value entries = entries ++ [(key, value)] := by
  induction entries with
  | nil => rfl
  | cons head rest ih =>
    obtain ⟨k, v⟩ := head
    have hk : k < key := h (k, v) List.mem_cons_self
    unfold insert
    rw [if_neg hk.asymm, if_neg hk.ne', ih fun entry he => h entry (List.mem_cons_of_mem _ he)]
    rfl

theorem ofList_of_sorted {entries : Keyed α} (h : Sorted entries) : ofList entries = entries := by
  have general : ∀ (es acc : Keyed α), Sorted (acc ++ es) →
      es.foldl (fun acc e => insert e.1 e.2 acc) acc = acc ++ es := by
    intro es
    induction es with
    | nil => exact fun acc _ => (List.append_nil acc).symm
    | cons e es ih =>
      intro acc hsorted
      have hlt : ∀ entry ∈ acc, entry.1 < e.1 := fun entry hentry =>
        (List.pairwise_append.mp hsorted).2.2 entry hentry e List.mem_cons_self
      have happ : acc ++ e :: es = (acc ++ [(e.1, e.2)]) ++ es := by simp
      rw [List.foldl_cons, insert_of_forall_lt hlt, happ]
      exact ih _ (happ ▸ hsorted)
  exact general entries [] h

/-- Changing the values by a function commutes with keeping the last value of each key. -/
theorem ofList_map (f : α → β) (entries : List (String × α)) :
    ofList (entries.map fun entry => (entry.1, f entry.2)) =
      (ofList entries).map fun entry => (entry.1, f entry.2) := by
  have hinsert : ∀ (key : String) (value : α) (acc : Keyed α),
      insert key (f value) (acc.map fun entry => (entry.1, f entry.2)) =
        (insert key value acc).map fun entry => (entry.1, f entry.2) := by
    intro key value acc
    induction acc with
    | nil => rfl
    | cons head rest ih =>
      obtain ⟨k, v⟩ := head
      simp only [List.map_cons, insert]
      split_ifs
      · rfl
      · rfl
      · rw [ih, List.map_cons]
  have general : ∀ (es : List (String × α)) (acc : Keyed α),
      (es.map fun entry => (entry.1, f entry.2)).foldl (fun acc e => insert e.1 e.2 acc)
          (acc.map fun entry => (entry.1, f entry.2)) =
        (es.foldl (fun acc e => insert e.1 e.2 acc) acc).map fun entry => (entry.1, f entry.2) := by
    intro es
    induction es with
    | nil => exact fun acc => rfl
    | cons e es ih =>
      intro acc
      rw [List.map_cons, List.foldl_cons, List.foldl_cons, hinsert]
      exact ih _
  exact general entries []

theorem get?_map (f : α → β) (key : String) (entries : Keyed α) :
    get? key (entries.map fun entry => (entry.1, f entry.2)) = (get? key entries).map f := by
  induction entries with
  | nil => rfl
  | cons head rest ih =>
    obtain ⟨k, v⟩ := head
    simp only [List.map_cons, get?]
    split_ifs
    · rfl
    · exact ih

theorem get?_eq_none {key : String} {entries : Keyed α} :
    get? key entries = none ↔ key ∉ keys entries := by
  induction entries with
  | nil => simp [get?, keys]
  | cons head rest ih =>
    obtain ⟨k, v⟩ := head
    unfold get?
    split
    · rename_i heq
      simp [keys, heq]
    · rename_i hne
      rw [ih]
      simp [keys, Ne.symm hne]

theorem mem_of_get? {key : String} {value : α} {entries : Keyed α}
    (h : get? key entries = some value) : (key, value) ∈ entries := by
  induction entries with
  | nil => simp [get?] at h
  | cons head rest ih =>
    obtain ⟨k, v⟩ := head
    unfold get? at h
    split at h
    · rename_i heq
      obtain rfl := Option.some.inj h
      exact heq ▸ List.mem_cons_self
    · exact List.mem_cons_of_mem _ (ih h)

/-- The entries of a sorted list are found by its keys. -/
theorem Sorted.ext {entries entries' : Keyed α} (h : Sorted entries) (h' : Sorted entries')
    (hget : ∀ key, get? key entries = get? key entries') : entries = entries' := by
  have above : ∀ {k : String} {v : α} {rest : Keyed α}, Sorted ((k, v) :: rest) →
      ∀ key ≤ k, get? key rest = none := by
    intro k v rest hsorted key hle
    rw [get?_eq_none]
    intro hmem
    obtain ⟨entry, hentry, rfl⟩ := List.mem_map.mp hmem
    exact absurd ((List.pairwise_cons.mp hsorted).1 entry hentry) (not_lt.mpr hle)
  induction entries generalizing entries' with
  | nil =>
    rcases entries' with _ | ⟨⟨k, v⟩, rest⟩
    · rfl
    · simpa [get?] using hget k
  | cons head rest ih =>
    obtain ⟨k, v⟩ := head
    rcases entries' with _ | ⟨⟨k', v'⟩, rest'⟩
    · simpa [get?] using hget k
    · have hkey : k = k' := by
        by_contra hne
        have hk := hget k
        have hk' := hget k'
        simp only [get?, if_neg hne, if_neg (Ne.symm hne), if_true] at hk hk'
        rcases lt_or_gt_of_ne hne with hlt | hgt
        · rw [above h' k hlt.le] at hk
          cases hk
        · rw [above h k' hgt.le] at hk'
          cases hk'
      subst hkey
      have hvalue := hget k
      simp only [get?, if_true, Option.some.injEq] at hvalue
      subst hvalue
      have hrest : rest = rest' := by
        refine ih (List.pairwise_cons.mp h).2 (List.pairwise_cons.mp h').2 fun key => ?_
        by_cases heq : k = key
        · rw [above h key heq.ge, above h' key heq.ge]
        · simpa [get?, heq] using hget key
      rw [hrest]

theorem get?_insert (key : String) (value : α) (entries : Keyed α) (k : String) :
    get? k (insert key value entries) = if key = k then some value else get? k entries := by
  induction entries with
  | nil => rfl
  | cons head rest ih =>
    obtain ⟨k', v⟩ := head
    unfold insert
    split_ifs with hlt heq hk hk <;> grind [get?]

/-- Of the values given for a key the last is found. -/
theorem get?_ofList (key : String) (entries : List (String × α)) :
    get? key (ofList entries) = get? key entries.reverse := by
  induction entries using List.reverseRecOn with
  | nil => rfl
  | append_singleton init entry ih =>
    have hlast : ofList (init ++ [entry]) = insert entry.1 entry.2 (ofList init) := by
      unfold ofList
      rw [List.foldl_append]
      rfl
    rw [hlast, get?_insert, ih, List.reverse_append]
    rfl

/-- Two lists come to the same if they end in the same value for each key. -/
theorem ofList_eq_iff {entries entries' : List (String × α)} : ofList entries = ofList entries' ↔
    ∀ key, get? key entries.reverse = get? key entries'.reverse := by
  constructor
  · intro h key
    rw [← get?_ofList, h, get?_ofList]
  · intro h
    refine (sorted_ofList entries).ext (sorted_ofList entries') fun key => ?_
    rw [get?_ofList, get?_ofList, h key]

end NodeGraph.Keyed
