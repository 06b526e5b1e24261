import Mathlib
import NodeGraph.Text.Slug

/-!
Slugs: what they are made of, that the slug of a slug is the slug itself, and which changes of a
title leave its slug as it is.
-/
namespace NodeGraph

namespace AsciiFold

theorem ofList_append (cs ds : List Char) : ofList (cs ++ ds) = ofList cs ++ ofList ds :=
  List.flatMap_append

theorem ofList_cons (c : Char) (cs : List Char) : ofList (c :: cs) = ofChar c ++ ofList cs :=
  List.flatMap_cons

/-- ASCII text is left as it is. -/
theorem ofList_of_ascii {cs : List Char} (h : ∀ c ∈ cs, c.toNat < 128) : ofList cs = cs := by
  induction cs with
  | nil => rfl
  | cons c rest ih =>
    rw [ofList_cons, ofChar_of_ascii (h c List.mem_cons_self),
      ih fun d hd => h d (List.mem_cons_of_mem _ hd), List.singleton_append]

end AsciiFold

namespace Slug

variable {p : Char → Bool} {cs ds : List Char} {c d : Char} {inRun : Bool}

/-- What a slug looks like. -/
structure IsSlug (cs : List Char) : Prop where
  chars : ∀ c ∈ cs, ('a' ≤ c ∧ c ≤ 'z') ∨ ('0' ≤ c ∧ c ≤ '9') ∨ c = '_' ∨ c = '-'
  head : ∀ c ∈ cs.head?, c ≠ '-' ∧ c ≠ '_'
  last : ∀ c ∈ cs.getLast?, c ≠ '-' ∧ c ≠ '_'
  /-- No two dashes stand side by side. -/
  dashes : cs.IsChain fun c d => ¬(c = '-' ∧ d = '-')

/-- The ASCII characters that neither belong to words nor separate them. -/
def IsIdle (c : Char) : Prop :=
  c.toNat < 128 ∧ isWord c = false ∧ isSeparator c = false
deriving Decidable

/-- Some characters, all of which separate words. -/
def IsRun (run : List Char) : Prop :=
  run ≠ [] ∧ ∀ c ∈ run, isSeparator c = true

/-- Changes of a title that its slug does not show. -/
inductive Restyles : List Char → List Char → Prop
  /-- A letter is written in the other case. -/
  | recase (before after : List Char) {c d : Char} (h : c.toLower = d.toLower) :
    Restyles (before ++ c :: after) (before ++ d :: after)
  | insert (before after : List Char) {c : Char} (h : IsIdle c) :
    Restyles (before ++ after) (before ++ c :: after)
  /-- Words are separated by other blanks and dashes, more or fewer. -/
  | respace (before after : List Char) {run run' : List Char} (h : IsRun run) (h' : IsRun run') :
    Restyles (before ++ run ++ after) (before ++ run' ++ after)

/-! ### Characters -/

theorem isUpper_iff : c.isUpper = true ↔ 65 ≤ c.toNat ∧ c.toNat ≤ 90 := by
  simp [Char.isUpper, UInt32.le_iff_toNat_le]

theorem isLower_iff : c.isLower = true ↔ 'a' ≤ c ∧ c ≤ 'z' := by
  simp [Char.isLower, Char.le_def]

theorem isDigit_iff : c.isDigit = true ↔ '0' ≤ c ∧ c ≤ '9' := by
  simp [Char.isDigit, Char.le_def]

theorem toNat_lt_of_isAlpha (h : c.isAlpha = true) : c.toNat < 128 := by
  rcases (Bool.or_eq_true _ _).mp h with hupper | hlower
  · have := isUpper_iff.mp hupper
    omega
  · have hz : c.toNat ≤ 122 := (isLower_iff.mp hlower).2
    omega

theorem toNat_le_of_isSeparator (h : isSeparator c = true) : c.toNat ≤ 45 := by
  simp only [isSeparator, isSpace, Bool.or_eq_true, decide_eq_true_eq] at h
  rcases h with rfl | rfl | ⟨-, hlast⟩
  · decide
  · decide
  · have hcr : c.toNat ≤ 13 := hlast
    omega

theorem toLower_of_isSeparator (h : isSeparator c = true) : c.toLower = c := by
  apply Char.toLower_eq_of_not_isUpper
  rw [isUpper_iff]
  have := toNat_le_of_isSeparator h
  omega

/-- Only ASCII letters have another case. -/
theorem eq_or_ascii_of_toLower_eq (h : c.toLower = d.toLower) :
    c = d ∨ c.toNat < 128 ∧ d.toNat < 128 := by
  by_cases hc : c.isAlpha = true
  · have hd : d.isAlpha = true := by
      rw [← Char.isAlpha_toLower_eq_isAlpha, ← h, Char.isAlpha_toLower_eq_isAlpha, hc]
    exact Or.inr ⟨toNat_lt_of_isAlpha hc, toNat_lt_of_isAlpha hd⟩
  · have hd : ¬d.isAlpha = true := by
      rwa [← Char.isAlpha_toLower_eq_isAlpha, ← h, Char.isAlpha_toLower_eq_isAlpha]
    have hsame {e : Char} (he : ¬e.isAlpha = true) : e.toLower = e :=
      Char.toLower_eq_of_not_isUpper fun hupper => he (by simp [Char.isAlpha, hupper])
    rw [hsame hc, hsame hd] at h
    exact Or.inl h

/-- What is left of a character of a word in lower case. -/
theorem slugChar_of_isWord (hword : isWord c = true) (hlower : c.isUpper = false) :
    ('a' ≤ c ∧ c ≤ 'z') ∨ ('0' ≤ c ∧ c ≤ '9') ∨ c = '_' := by
  rw [← isLower_iff, ← isDigit_iff]
  simpa [isWord, Char.isAlphanum, Char.isAlpha, hlower, or_assoc] using hword

/-- The characters of slugs are taken over as they are. -/
theorem slugChar_kept (h : ('a' ≤ c ∧ c ≤ 'z') ∨ ('0' ≤ c ∧ c ≤ '9') ∨ c = '_' ∨ c = '-') :
    c.toNat < 128 ∧ c.isUpper = false ∧ (isWord c || isSeparator c) = true := by
  rw [← isLower_iff, ← isDigit_iff] at h
  have hword : c = '-' ∨ isWord c = true := by
    rcases h with hlower | hdigit | rfl | hdash
    · exact Or.inr (by simp [isWord, Char.isAlphanum, Char.isAlpha, hlower])
    · exact Or.inr (by simp [isWord, Char.isAlphanum, hdigit])
    · exact Or.inr (by decide)
    · exact Or.inl hdash
  refine ⟨?_, ?_, ?_⟩
  · rcases h with hlower | hdigit | rfl | rfl
    · exact toNat_lt_of_isAlpha (by simp [Char.isAlpha, hlower])
    · have hnine : c.toNat ≤ 57 := (isDigit_iff.mp hdigit).2
      omega
    · decide
    · decide
  · rw [Bool.eq_false_iff, ne_eq, isUpper_iff]
    rcases h with hlower | hdigit | rfl | rfl
    · have ha : 97 ≤ c.toNat := (isLower_iff.mp hlower).1
      omega
    · have hnine : c.toNat ≤ 57 := (isDigit_iff.mp hdigit).2
      omega
    · decide
    · decide
  · rcases hword with rfl | hword
    · decide
    · rw [hword, Bool.true_or]

/-- Blanks are no characters of slugs. -/
theorem eq_dash_of_isSeparator
    (h : ('a' ≤ c ∧ c ≤ 'z') ∨ ('0' ≤ c ∧ c ≤ '9') ∨ c = '_' ∨ c = '-')
    (hseparator : isSeparator c = true) : c = '-' := by
  have hle := toNat_le_of_isSeparator hseparator
  rcases h with ⟨ha, -⟩ | ⟨hzero, -⟩ | rfl | hdash
  · have ha : 97 ≤ c.toNat := ha
    omega
  · have hzero : 48 ≤ c.toNat := hzero
    omega
  · exact absurd hseparator (by decide)
  · exact hdash

/-! ### Letters of a text -/

/-- The lower-case characters of a text that words and separators are made of. -/
def letters (cs : List Char) : List Char :=
  (cs.map Char.toLower).filter fun c => isWord c || isSeparator c

theorem letters_append (cs ds : List Char) : letters (cs ++ ds) = letters cs ++ letters ds := by
  unfold letters
  rw [List.map_append, List.filter_append]

theorem letters_eq_self
    (h : ∀ c ∈ cs, c.toLower = c ∧ (isWord c || isSeparator c) = true) : letters cs = cs := by
  have hmap : cs.map Char.toLower = cs :=
    (List.map_congr_left fun c hc => (h c hc).1).trans (List.map_id' cs)
  unfold letters
  rw [hmap, List.filter_eq_self]
  exact fun c hc => (h c hc).2

theorem letters_of_isRun (h : IsRun cs) : letters cs = cs :=
  letters_eq_self fun c hc =>
    ⟨toLower_of_isSeparator (h.2 c hc), by rw [h.2 c hc, Bool.or_true]⟩

theorem letters_of_isIdle (h : IsIdle c) : letters [c] = [] := by
  obtain ⟨-, hword, hseparator⟩ := h
  have hlower : c.toLower = c := by
    apply Char.toLower_eq_of_not_isUpper
    intro hupper
    simp [isWord, Char.isAlphanum, Char.isAlpha, hupper] at hword
  simp [letters, hlower, hword, hseparator]

theorem mem_letters (h : c ∈ letters cs) :
    c.isUpper = false ∧ (isWord c = true ∨ isSeparator c = true) := by
  obtain ⟨hmem, hkept⟩ := List.mem_filter.mp h
  obtain ⟨d, -, rfl⟩ := List.mem_map.mp hmem
  exact ⟨Char.isUpper_toLower_eq_false d, (Bool.or_eq_true _ _).mp hkept⟩

/-! ### Trimming -/

theorem trim_append_left (h : ∀ c ∈ cs, p c = true) (ds : List Char) :
    trim p (cs ++ ds) = trim p ds := by
  unfold trim
  rw [List.dropWhile_append_of_pos h]

theorem trim_append_right (cs : List Char) (h : ∀ c ∈ ds, p c = true) :
    trim p (cs ++ ds) = trim p cs := by
  unfold trim
  rw [List.dropWhile_append]
  split
  · rename_i hempty
    rw [List.dropWhile_eq_nil_iff.mpr h, List.isEmpty_iff.mp hempty]
  · have hreversed : ∀ c ∈ ds.reverse, p c = true := fun c hc => h c (List.mem_reverse.mp hc)
    rw [List.reverse_append, List.dropWhile_append_of_pos hreversed]

/-- What is trimmed off stands at the ends. -/
theorem exists_trim (p : Char → Bool) (cs : List Char) :
    ∃ before after, cs = before ++ trim p cs ++ after ∧ (∀ c ∈ before, p c = true) ∧
      ∀ c ∈ after, p c = true := by
  refine ⟨cs.takeWhile p, (cs.dropWhile p).rtakeWhile p, ?_,
    fun c hc => List.mem_takeWhile_imp hc, fun c hc => List.mem_rtakeWhile_imp hc⟩
  have hlast : trim p cs ++ (cs.dropWhile p).rtakeWhile p = cs.dropWhile p :=
    List.rdropWhile_append_rtakeWhile
  rw [List.append_assoc, hlast, List.takeWhile_append_dropWhile]

theorem getLast?_trim : ∀ c ∈ (trim p cs).getLast?, p c = false := by
  intro c hc
  obtain ⟨hne, rfl⟩ := List.mem_getLast?_eq_getLast hc
  exact Bool.eq_false_iff.mpr (List.rdropWhile_last_not p (cs.dropWhile p) hne)

theorem head?_trim : ∀ c ∈ (trim p cs).head?, p c = false := by
  intro c hc
  have hprefix : trim p cs <+: cs.dropWhile p := List.rdropWhile_prefix p _
  obtain ⟨rest, hrest⟩ := List.head?_eq_some_iff.mp hc
  obtain ⟨more, hmore⟩ := hrest ▸ hprefix
  have hne : cs.dropWhile p ≠ [] := by simp [← hmore]
  have hhead := List.head_dropWhile_not p hne
  simpa [← hmore] using hhead

theorem trim_eq_self (hhead : ∀ c ∈ cs.head?, p c = false)
    (hlast : ∀ c ∈ cs.getLast?, p c = false) : trim p cs = cs := by
  have hfirst : cs.dropWhile p = cs := by
    cases cs with
    | nil => rfl
    | cons c rest =>
      exact List.dropWhile_cons_of_neg (Bool.eq_false_iff.mp (hhead c rfl))
  show (cs.dropWhile p).rdropWhile p = cs
  rw [hfirst, List.rdropWhile_eq_self_iff]
  exact fun hne => Bool.eq_false_iff.mp (hlast _ (List.getLast?_eq_some_getLast hne))

/-! ### Collapsing -/

/-- Whether the last character of a text separates words; without one it is as before. -/
def endsInRun (inRun : Bool) (cs : List Char) : Bool :=
  cs.foldl (fun _ c => isSeparator c) inRun

theorem collapse_append (inRun : Bool) (cs ds : List Char) :
    collapse inRun (cs ++ ds) = collapse inRun cs ++ collapse (endsInRun inRun cs) ds := by
  induction cs generalizing inRun with
  | nil => rfl
  | cons c rest ih =>
    have hends : endsInRun inRun (c :: rest) = endsInRun (isSeparator c) rest := rfl
    rw [List.cons_append, hends]
    cases hc : isSeparator c <;> cases inRun <;> simp [collapse, hc, ih]

/-- What goes on with a run leaves nothing. -/
theorem collapse_true_of_separators (h : ∀ c ∈ cs, isSeparator c = true) :
    collapse true cs = [] ∧ endsInRun true cs = true := by
  induction cs with
  | nil => exact ⟨rfl, rfl⟩
  | cons c rest ih =>
    obtain ⟨hnothing, hends⟩ := ih fun d hd => h d (List.mem_cons_of_mem _ hd)
    have hc := h c List.mem_cons_self
    refine ⟨?_, ?_⟩
    · unfold collapse
      rw [if_pos hc, if_pos rfl, hnothing]
    · show endsInRun (isSeparator c) rest = true
      rw [hc, hends]

/-- A run becomes one dash or none, and nothing else of it is seen later. -/
theorem collapse_of_isRun (h : IsRun cs) (inRun : Bool) :
    collapse inRun cs = (if inRun then [] else ['-']) ∧ endsInRun inRun cs = true := by
  obtain ⟨c, rest, rfl⟩ := List.exists_cons_of_ne_nil h.1
  have hc := h.2 c List.mem_cons_self
  obtain ⟨hnothing, hends⟩ :=
    collapse_true_of_separators fun d hd => h.2 d (List.mem_cons_of_mem c hd)
  refine ⟨?_, ?_⟩
  · unfold collapse
    rw [if_pos hc, hnothing]
  · show endsInRun (isSeparator c) rest = true
    rw [hc, hends]

theorem collapse_respace {run run' : List Char} (h : IsRun run) (h' : IsRun run') (inRun : Bool) :
    collapse inRun (cs ++ run ++ ds) = collapse inRun (cs ++ run' ++ ds) := by
  simp only [collapse_append, List.append_assoc]
  rw [(collapse_of_isRun h _).1, (collapse_of_isRun h _).2, (collapse_of_isRun h' _).1,
    (collapse_of_isRun h' _).2]

theorem mem_collapse (h : c ∈ collapse inRun cs) : c = '-' ∨ c ∈ cs ∧ isSeparator c = false := by
  induction cs generalizing inRun with
  | nil => simp [collapse] at h
  | cons d rest ih =>
    have hrest {later : Bool} (h : c ∈ collapse later rest) :
        c = '-' ∨ c ∈ d :: rest ∧ isSeparator c = false :=
      (ih h).imp_right fun ⟨hmem, hc⟩ => ⟨List.mem_cons_of_mem _ hmem, hc⟩
    unfold collapse at h
    split_ifs at h with hd hrun
    · exact hrest h
    · rcases List.mem_cons.mp h with rfl | h
      · exact Or.inl rfl
      · exact hrest h
    · rcases List.mem_cons.mp h with rfl | h
      · exact Or.inr ⟨List.mem_cons_self, Bool.eq_false_iff.mpr hd⟩
      · exact hrest h

/-- No dash comes directly after a run. -/
theorem head?_collapse_true : ∀ c ∈ (collapse true cs).head?, c ≠ '-' := by
  induction cs with
  | nil => simp [collapse]
  | cons d rest ih =>
    unfold collapse
    rw [if_pos rfl]
    split_ifs with hd
    · exact ih
    · rintro c hc rfl
      obtain rfl := Option.some.inj hc
      exact hd (by decide)

theorem isChain_collapse (inRun : Bool) (cs : List Char) :
    (collapse inRun cs).IsChain fun c d => ¬(c = '-' ∧ d = '-') := by
  induction cs generalizing inRun with
  | nil => exact List.IsChain.nil
  | cons c rest ih =>
    unfold collapse
    split_ifs with hc hrun
    · exact ih true
    · exact List.isChain_cons.mpr ⟨fun d hd h => head?_collapse_true d hd h.2, ih true⟩
    · refine List.isChain_cons.mpr ⟨fun d _ h => hc ?_, ih false⟩
      rw [h.1]
      decide

/-- Where all separators are dashes and no two of them meet there is nothing to collapse. -/
theorem collapse_eq_self (hdash : ∀ c ∈ cs, isSeparator c = true → c = '-')
    (hchain : cs.IsChain fun c d => ¬(c = '-' ∧ d = '-')) (inRun : Bool)
    (hhead : inRun = true → ∀ c ∈ cs.head?, c ≠ '-') : collapse inRun cs = cs := by
  induction cs generalizing inRun with
  | nil => rfl
  | cons c rest ih =>
    obtain ⟨hnext, hrest⟩ := List.isChain_cons.mp hchain
    have htail := ih (fun d hd => hdash d (List.mem_cons_of_mem _ hd)) hrest
    unfold collapse
    split_ifs with hc hrun
    · exact absurd (hdash c List.mem_cons_self hc) (hhead hrun c rfl)
    · obtain rfl := hdash c List.mem_cons_self hc
      rw [htail true fun _ d hd heq => hnext d hd ⟨rfl, heq⟩]
    · rw [htail false (by simp)]

/-- A dash at the front is trimmed, so that it does not matter whether a run goes on there. -/
theorem trim_collapse (inRun : Bool) (cs : List Char) :
    trim isEdge (collapse inRun cs) = trim isEdge (collapse false cs) := by
  cases inRun with
  | false => rfl
  | true =>
    cases cs with
    | nil => rfl
    | cons c rest =>
      unfold collapse
      by_cases hc : isSeparator c = true
      · rw [if_pos hc, if_pos rfl, if_pos hc, if_neg Bool.false_ne_true]
        have hdash : ∀ d ∈ ['-'], isEdge d = true := List.forall_mem_singleton.mpr rfl
        exact (trim_append_left hdash _).symm
      · rw [if_neg hc, if_neg hc]

/-! ### Slugs of ASCII texts -/

/-- Blanks at the ends need not be trimmed, for the dashes that they become are. -/
theorem ofAscii_eq (cs : List Char) : ofAscii cs = trim isEdge (collapse false (letters cs)) := by
  obtain ⟨before, after, hletters, hbefore, hafter⟩ := exists_trim isSpace (letters cs)
  have hedges {ds : List Char} (hds : ∀ c ∈ ds, isSpace c = true) (inRun : Bool) :
      ∀ c ∈ collapse inRun ds, isEdge c = true := by
    intro c hc
    rcases mem_collapse hc with rfl | ⟨hmem, hword⟩
    · decide
    · simp [isSeparator, hds c hmem] at hword
  show trim isEdge (collapse false (trim isSpace (letters cs))) = _
  conv_rhs => rw [hletters, collapse_append, collapse_append, trim_append_right _ (hedges hafter _),
    trim_append_left (hedges hbefore _), trim_collapse]

theorem isSlug_ofAscii (cs : List Char) : IsSlug (ofAscii cs) := by
  rw [ofAscii_eq]
  have hedge {c : Char} (h : isEdge c = false) : c ≠ '-' ∧ c ≠ '_' := by
    simpa [isEdge] using h
  obtain ⟨before, after, hcollapse, -⟩ := exists_trim isEdge (collapse false (letters cs))
  have hchain := isChain_collapse false (letters cs)
  rw [hcollapse] at hchain
  refine ⟨fun c hc => ?_, fun c hc => hedge (head?_trim c hc),
    fun c hc => hedge (getLast?_trim c hc), hchain.left_of_append.right_of_append⟩
  have hmem : c ∈ collapse false (letters cs) := by
    rw [hcollapse]
    exact List.mem_append_left _ (List.mem_append_right _ hc)
  rcases mem_collapse hmem with hdash | ⟨hletter, hseparator⟩
  · exact Or.inr (Or.inr (Or.inr hdash))
  · obtain ⟨hlower, hword | hnot⟩ := mem_letters hletter
    · exact (slugChar_of_isWord hword hlower).imp_right fun h => h.imp_right Or.inl
    · exact absurd hnot (Bool.eq_false_iff.mp hseparator)

/-- A slug is its own slug. -/
theorem IsSlug.ofAscii_eq_self (h : IsSlug cs) : ofAscii cs = cs := by
  have hletters : letters cs = cs := letters_eq_self fun c hc =>
    ⟨Char.toLower_eq_of_not_isUpper (Bool.eq_false_iff.mp (slugChar_kept (h.chars c hc)).2.1),
      (slugChar_kept (h.chars c hc)).2.2⟩
  have hcollapse : collapse false cs = cs :=
    collapse_eq_self (fun c hc => eq_dash_of_isSeparator (h.chars c hc)) h.dashes false (by simp)
  have hedge {c : Char} (h : c ≠ '-' ∧ c ≠ '_') : isEdge c = false := by
    simpa [isEdge] using h
  rw [Slug.ofAscii_eq, hletters, hcollapse]
  exact trim_eq_self (fun c hc => hedge (h.head c hc)) fun c hc => hedge (h.last c hc)

/-! ### Slugs of titles -/

theorem toList_ofTitle (title : String) :
    (ofTitle title).toList = ofAscii (AsciiFold.ofList title.toList) :=
  String.toList_ofList

/-- The texts that are their own slugs are those that look like slugs. -/
theorem ofTitle_eq_self_iff {title : String} : ofTitle title = title ↔ IsSlug title.toList := by
  constructor
  · intro h
    rw [← h, toList_ofTitle]
    exact isSlug_ofAscii _
  · intro h
    have hascii := AsciiFold.ofList_of_ascii fun c hc => (slugChar_kept (h.chars c hc)).1
    unfold ofTitle
    rw [hascii, h.ofAscii_eq_self, String.ofList_toList]

/-- One change of a title that its slug does not show. -/
theorem Restyles.ofAscii_eq (h : Restyles cs ds) :
    ofAscii (AsciiFold.ofList cs) = ofAscii (AsciiFold.ofList ds) := by
  rw [Slug.ofAscii_eq, Slug.ofAscii_eq]
  cases h with
  | @recase before after c d h =>
    have hsame : letters (AsciiFold.ofChar c) = letters (AsciiFold.ofChar d) := by
      rcases eq_or_ascii_of_toLower_eq h with rfl | ⟨hc, hd⟩
      · rfl
      · rw [AsciiFold.ofChar_of_ascii hc, AsciiFold.ofChar_of_ascii hd]
        unfold letters
        rw [List.map_singleton, List.map_singleton, h]
    simp only [AsciiFold.ofList_append, AsciiFold.ofList_cons, letters_append, hsame]
  | @insert before after c h =>
    simp only [AsciiFold.ofList_append, AsciiFold.ofList_cons, letters_append,
      AsciiFold.ofChar_of_ascii h.1, letters_of_isIdle h, List.nil_append]
  | @respace before after run run' h h' =>
    have hfold {run : List Char} (h : IsRun run) : letters (AsciiFold.ofList run) = run := by
      have hascii : ∀ c ∈ run, c.toNat < 128 := fun c hc => by
        have := toNat_le_of_isSeparator (h.2 c hc)
        omega
      rw [AsciiFold.ofList_of_ascii hascii, letters_of_isRun h]
    simp only [AsciiFold.ofList_append, letters_append, hfold h, hfold h']
    rw [collapse_respace h h']

theorem ofAscii_eq_of_eqvGen (h : Relation.EqvGen Restyles cs ds) :
    ofAscii (AsciiFold.ofList cs) = ofAscii (AsciiFold.ofList ds) := by
  induction h with
  | rel _ _ h => exact h.ofAscii_eq
  | refl _ => rfl
  | symm _ _ _ ih => exact ih.symm
  | trans _ _ _ _ _ ih ih' => exact ih.trans ih'

/-- The slug of a title looks like a slug and is its own slug, as is every text that looks like one.
Titles have one slug if they differ only in the case of ASCII letters, in ASCII characters that
neither belong to words nor separate them, and in how words are separated. -/
theorem ofTitle_stable (title : String) :
    IsSlug (ofTitle title).toList ∧ ofTitle (ofTitle title) = ofTitle title ∧
      (IsSlug title.toList → ofTitle title = title) ∧
      ∀ other : String, Relation.EqvGen Restyles title.toList other.toList →
        ofTitle other = ofTitle title := by
  have hslug : IsSlug (ofTitle title).toList := by
    rw [toList_ofTitle]
    exact isSlug_ofAscii _
  refine ⟨hslug, ofTitle_eq_self_iff.mpr hslug, ofTitle_eq_self_iff.mpr, fun other hother => ?_⟩
  exact congrArg String.ofList (ofAscii_eq_of_eqvGen hother).symm

/-- A title is written in another case, without its mark and with other blanks. -/
theorem ofTitle_stable_recipe :
    Relation.EqvGen Restyles "Crème: b__c".toList "crème\t- b__c".toList ∧
      ofTitle "crème\t- b__c" = ofTitle "Crème: b__c" := by
  have hcase : Restyles "Crème: b__c".toList "crème: b__c".toList :=
    .recase [] "rème: b__c".toList (c := 'C') (d := 'c') (by decide)
  have hmark : Restyles "crème b__c".toList "crème: b__c".toList :=
    .insert "crème".toList " b__c".toList (c := ':') (by decide)
  have hblanks : Restyles "crème b__c".toList "crème\t- b__c".toList :=
    @Restyles.respace "crème".toList "b__c".toList [' '] ['\t', '-', ' ']
      (by simp [IsRun, isSeparator, isSpace]) (by simp [IsRun, isSeparator, isSpace])
  have hchain := ((Relation.EqvGen.rel _ _ hcase).trans _ _ _
    ((Relation.EqvGen.rel _ _ hmark).symm _ _)).trans _ _ _ (.rel _ _ hblanks)
  exact ⟨hchain, (ofTitle_stable _).2.2.2 _ hchain⟩

end Slug
end NodeGraph
