import NodeGraph.Proofs.Integrity.Pairs

/-!
Founding a space: it is made under the first of sixteen slugs that no space has, and with its owner
as its only member, or nothing is.
-/
namespace NodeGraph

open Store

namespace Spaces

variable {tokens : Tokenizer} {env : Env} {s : Store} {p title : String} {suffix : ℕ → String}

/-- The slug of an attempt: the base alone at first, and then with the suffix drawn for it. -/
def candidate (title : String) (suffix : ℕ → String) : ℕ → String
  | 0 => baseSlug title
  | n + 1 => baseSlug title ++ "-" ++ suffix n

theorem candidates_eq (title : String) (suffix : ℕ → String) :
    candidates title suffix = (List.range slugTries).map (candidate title suffix) := by
  show _ = (List.range (slugTries - 1 + 1)).map _
  rw [List.range_succ_eq_map, List.map_cons, List.map_map]
  rfl

/-- The first free candidate is that of an attempt before which no slug was free. -/
theorem find?_candidates_eq_some {slug : String} :
    (candidates title suffix).find? (fun slug => !s.hasSlug slug) = some slug ↔
      ∃ n < slugTries, slug = candidate title suffix n ∧ s.hasSlug slug = false ∧
        ∀ m < n, s.hasSlug (candidate title suffix m) = true := by
  rw [candidates_eq, List.find?_map, Option.map_eq_some_iff]
  constructor
  · rintro ⟨n, hn, rfl⟩
    rw [List.find?_range_eq_some] at hn
    obtain ⟨hfree, hlt, hbefore⟩ := hn
    exact ⟨n, List.mem_range.mp hlt, rfl, by simpa using hfree, fun m hm => by
      simpa using hbefore m hm⟩
  · rintro ⟨n, hlt, rfl, hfree, hbefore⟩
    refine ⟨n, ?_, rfl⟩
    rw [List.find?_range_eq_some]
    exact ⟨by simpa using hfree, List.mem_range.mpr hlt, fun m hm => by simpa using hbefore m hm⟩

theorem find?_candidates_eq_none :
    (candidates title suffix).find? (fun slug => !s.hasSlug slug) = none ↔
      ∀ n < slugTries, s.hasSlug (candidate title suffix n) = true := by
  rw [candidates_eq, List.find?_map, Option.map_eq_none_iff, List.find?_range_eq_none]
  simp

/-- What founding a space makes of a store. -/
structure Founded (env : Env) (p title : String) (owner : Option String) (suffix : ℕ → String)
    (s : Store) (space : Space) (t : Store) : Prop where
  /-- Its slug is the first one tried that no space had. -/
  slug : ∃ n < slugTries, space.slug = candidate title suffix n ∧ s.hasSlug space.slug = false ∧
    ∀ m < n, s.hasSlug (candidate title suffix m) = true
  publicId : space.publicId = p
  titled : space.title = title
  document : space.document = none
  dates : space.createdAt = env.now ∧ space.updatedAt = env.now
  /-- It is a row of its own, and is found by its public id. -/
  fresh : s.hasSpaceId space.id = false
  spaces : t.spaces.rows = s.spaces.rows ++ [space]
  found : t.space? p = some space
  /-- Its owner is its only member, and without an owner it has none. -/
  owned : t.members.filter (·.space = space.id) =
    owner.toList.map fun principal => { space := space.id, principal, role := ownerRole }
  members : t.members = s.members ++ t.members.filter (·.space = space.id)
  /-- All else is as it was. -/
  others : { t with spaces := s.spaces, members := s.members } = s

theorem founded_newSpace (h : s.Sound tokens) (htidy : s.Tidy) (env : Env)
    (hnew : s.space? p = none) {slug : String}
    (hslug : (candidates title suffix).find? (fun slug => !s.hasSlug slug) = some slug)
    (owner : Option String) :
    Founded env p title owner suffix s (newSpace env p title slug s.spaces.nextId)
      { s with
        spaces := s.spaces.add (newSpace env p title slug)
        members := s.members ++ owner.toList.map fun principal =>
          { space := s.spaces.nextId, principal, role := ownerRole } } := by
  have hfresh : s.hasSpaceId s.spaces.nextId = false := by
    rw [Bool.eq_false_iff]
    intro hthere
    obtain ⟨space, hspace, hid⟩ := hasSpaceId_iff.mp hthere
    exact (h.spaceIds.lt_nextId space hspace).ne hid
  -- Members that were there are of spaces that were there.
  have hothers : s.members.filter (·.space = s.spaces.nextId) = [] := by
    rw [List.filter_eq_nil_iff]
    intro member hmember heq
    have hthere := htidy.memberEnds member hmember
    rw [of_decide_eq_true heq, hfresh] at hthere
    exact Bool.false_ne_true hthere
  have howned : (s.members ++ owner.toList.map fun principal =>
      ({ space := s.spaces.nextId, principal, role := ownerRole } : Member)).filter
        (·.space = s.spaces.nextId) =
      owner.toList.map fun principal =>
        { space := s.spaces.nextId, principal, role := ownerRole } := by
    rw [List.filter_append, hothers, List.nil_append, List.filter_eq_self]
    intro member hmember
    obtain ⟨principal, -, rfl⟩ := List.mem_map.mp hmember
    exact decide_eq_true rfl
  have hmem : newSpace env p title slug s.spaces.nextId ∈
      (s.spaces.add (newSpace env p title slug)).rows :=
    List.mem_append_right _ (List.mem_singleton.mpr rfl)
  exact
    { slug := find?_candidates_eq_some.mp hslug
      publicId := rfl
      titled := rfl
      document := rfl
      dates := ⟨rfl, rfl⟩
      fresh := hfresh
      spaces := rfl
      found := (addSpace_sound env h hnew title slug _).space?_eq_some.mpr ⟨hmem, rfl⟩
      owned := howned
      members := congrArg (s.members ++ ·) howned.symm
      others := rfl }

end Spaces

/-- In every reachable store, founding a space succeeds if and only if its public id is new and one
of the slugs that are tried is free. Then the first of these is its slug, its owner is its only
member, and nothing else changes; otherwise nothing changes at all. -/
theorem Reachable.founded {tokens : Tokenizer} {s : Store} (h : Reachable tokens s) (clock : ℤ)
    (p title : String) (owner : Option String) (suffix : ℕ → String) :
    let env : Env := { clock, tokens }
    ((∃ space t, Spaces.create env p title owner suffix s = .ok space t) ↔
      s.space? p = none ∧
        ∃ n < slugTries, s.hasSlug (Spaces.candidate title suffix n) = false) ∧
    (∀ space t, Spaces.create env p title owner suffix s = .ok space t →
      Spaces.Founded env p title owner suffix s space t) ∧
    ∀ fault t, Spaces.create env p title owner suffix s = .error fault t →
      t = s ∧ fault = if (s.space? p).isSome then .takenSpace p else .noFreeSlug title := by
  intro env
  have quiet : env.rivals = {} := rfl
  cases hold : s.space? p with
  | some space =>
    have hrefused : Spaces.create env p title owner suffix s = .error (.takenSpace p) s :=
      Spaces.create_of_some hold owner suffix
    rw [hrefused]
    refine ⟨⟨?_, ?_⟩, ?_, ?_⟩
    · rintro ⟨space, t, hmade⟩
      exact nomatch hmade
    · rintro ⟨hnew, -⟩
      exact nomatch hnew
    · exact fun space t hmade => nomatch hmade
    · intro fault t herror
      obtain ⟨rfl, rfl⟩ := EStateM.Result.error.inj herror
      exact ⟨rfl, rfl⟩
  | none =>
    cases hslug : (Spaces.candidates title suffix).find? fun slug => !s.hasSlug slug with
    | some slug =>
      have hmade := Spaces.create_of_free quiet hold hslug owner
      obtain ⟨n, hlt, rfl, hfree, -⟩ := Spaces.find?_candidates_eq_some.mp hslug
      rw [hmade]
      refine ⟨⟨fun _ => ⟨rfl, n, hlt, hfree⟩, fun _ => ⟨_, _, rfl⟩⟩, ?_, ?_⟩
      · intro space t hok
        obtain ⟨rfl, rfl⟩ := EStateM.Result.ok.inj hok
        exact Spaces.founded_newSpace h.sound h.tidy env hold hslug owner
      · exact fun fault t herror => nomatch herror
    | none =>
      have hrefused := Spaces.create_of_crowded quiet hold hslug owner
      have htaken := Spaces.find?_candidates_eq_none.mp hslug
      rw [hrefused]
      refine ⟨⟨?_, ?_⟩, ?_, ?_⟩
      · rintro ⟨space, t, hmade⟩
        exact nomatch hmade
      · rintro ⟨-, n, hlt, hfree⟩
        exact absurd (hfree.symm.trans (htaken n hlt)) Bool.false_ne_true
      · exact fun space t hmade => nomatch hmade
      · intro fault t herror
        obtain ⟨rfl, rfl⟩ := EStateM.Result.error.inj herror
        exact ⟨rfl, rfl⟩

/-- Two spaces have the base and the base with the suffix `aaaaaa` as their slugs. -/
def twoTitled : List (ℤ × Operation) :=
  [(1000, .createSpace "a" "S" none fun _ => ""),
    (2000, .createSpace "b" "S" none fun _ => "aaaaaa")]

theorem Reachable.founded_twoTitled :
    let s := History.run String.length twoTitled {}
    let suffix : ℕ → String := fun n => if n < 2 then "aaaaaa" else "bbbbbb"
    let env : Env := { clock := 3000, tokens := String.length }
    Reachable String.length s ∧ s.spaces.rows.map (·.slug) = ["s", "s-aaaaaa"] ∧
      ∃ space t, Spaces.create env "c" "S" (some "o") suffix s = .ok space t ∧
        space.slug = "s-bbbbbb" ∧ Spaces.Founded env "c" "S" (some "o") suffix s space t := by
  intro s suffix env
  have hheld : ∀ entry ∈ twoTitled, entry.2.Held := by
    simp [twoTitled, Operation.Held]
  have hreachable : Reachable String.length s := Reachable.empty.run hheld
  obtain ⟨hsucceeds, hfounded, -⟩ := hreachable.founded 3000 "c" "S" (some "o") suffix
  obtain ⟨space, t, hmade⟩ := hsucceeds.mpr ⟨by decide +kernel, 3, by decide, by decide +kernel⟩
  have hslug : ((Spaces.create env "c" "S" (some "o") suffix).outcome s).1.toOption.map (·.slug) =
      some "s-bbbbbb" := by decide +kernel
  unfold Command.outcome at hslug
  rw [hmade] at hslug
  exact ⟨hreachable, by decide +kernel, space, t, hmade, Option.some.inj hslug,
    hfounded space t hmade⟩

end NodeGraph
