import Mathlib.Data.List.DropRight
import NodeGraph.Json.Reader
import NodeGraph.Proofs.Json.Value

/-!
The texts of a value: blanks may stand between the tokens, a character of a string may be written
by an escape, and a number by any numeral that is read as it. Every such text is read as the value.
-/
namespace NodeGraph.Json

/-- Only characters that may stand between tokens. -/
def Blanks (cs : List Char) : Prop :=
  ∀ c ∈ cs, isBlank c = true

/-- The ways to write a character of a string. -/
inductive SpellsChar : Char → List Char → Prop
  | plain {c : Char} (hquote : c ≠ '"') (hbackslash : c ≠ '\\') (hcontrol : 0x20 ≤ c.toNat) :
    SpellsChar c [c]
  | simple {a c : Char} (h : simpleEscape a = some c) : SpellsChar c ['\\', a]
  | unit {a b c d : Char} {n : ℕ} (h : hexUnit a b c d = some n)
    (hhigh : isHighSurrogate n = false) (hlow : isLowSurrogate n = false) :
    SpellsChar (.ofNat n) ['\\', 'u', a, b, c, d]
  | pair {a b c d a' b' c' d' : Char} {high low : ℕ} (h : hexUnit a b c d = some high)
    (h' : hexUnit a' b' c' d' = some low) (hhigh : isHighSurrogate high = true)
    (hlow : isLowSurrogate low = true) :
    SpellsChar (surrogatePair high low) ['\\', 'u', a, b, c, d, '\\', 'u', a', b', c', d']

/-- The ways to write a string, without its quotes. -/
inductive SpellsString : List Char → List Char → Prop
  | nil : SpellsString [] []
  | cons {c : Char} {s cs ds : List Char} (hc : SpellsChar c cs) (hs : SpellsString s ds) :
    SpellsString (c :: s) (cs ++ ds)

/-- The ways to write a key, with blanks around it. -/
inductive SpellsKey : String → List Char → Prop
  | mk {before after s cs : List Char} (hbefore : Blanks before) (h : SpellsString s cs)
    (hafter : Blanks after) : SpellsKey (.ofList s) (before ++ '"' :: (cs ++ '"' :: after))

mutual

/-- The ways to write a value, with blanks around it. -/
inductive Spells : Json → List Char → Prop
  | mk {v : Json} {before cs after : List Char} (hbefore : Blanks before) (h : SpellsBare v cs)
    (hafter : Blanks after) : Spells v (before ++ (cs ++ after))

/-- The ways to write a value, from its first character to its last. -/
inductive SpellsBare : Json → List Char → Prop
  | null : SpellsBare .null ['n', 'u', 'l', 'l']
  | yes : SpellsBare (.bool true) ['t', 'r', 'u', 'e']
  | no : SpellsBare (.bool false) ['f', 'a', 'l', 's', 'e']
  | number {v : Json} {cs : List Char} (h : readNumeral cs = some (v, [])) : SpellsBare v cs
  | str {s cs : List Char} (h : SpellsString s cs) :
    SpellsBare (.str (.ofList s)) ('"' :: (cs ++ ['"']))
  | emptyArr {blanks : List Char} (h : Blanks blanks) :
    SpellsBare (.arr []) ('[' :: (blanks ++ [']']))
  | arr {items : List Json} {cs : List Char} (h : SpellsItems items cs) :
    SpellsBare (.arr items) ('[' :: cs)
  | emptyObj {blanks : List Char} (h : Blanks blanks) :
    SpellsBare (.obj []) ('\x7b' :: (blanks ++ ['\x7d']))
  | obj {fields : List (String × Json)} {cs : List Char} (h : SpellsFields fields cs) :
    SpellsBare (.obj fields) ('\x7b' :: cs)

/-- The ways to write the items of an array and its closing bracket. -/
inductive SpellsItems : List Json → List Char → Prop
  | last {v : Json} {cs : List Char} (h : Spells v cs) : SpellsItems [v] (cs ++ [']'])
  | next {v : Json} {items : List Json} {cs ds : List Char} (h : Spells v cs)
    (hrest : SpellsItems items ds) : SpellsItems (v :: items) (cs ++ ',' :: ds)

/-- The ways to write the fields of an object and its closing brace. -/
inductive SpellsFields : List (String × Json) → List Char → Prop
  | last {k : String} {v : Json} {ks cs : List Char} (hkey : SpellsKey k ks) (h : Spells v cs) :
    SpellsFields [(k, v)] (ks ++ ':' :: (cs ++ ['\x7d']))
  | next {k : String} {v : Json} {fields : List (String × Json)} {ks cs ds : List Char}
    (hkey : SpellsKey k ks) (h : Spells v cs) (hrest : SpellsFields fields ds) :
    SpellsFields ((k, v) :: fields) (ks ++ ':' :: (cs ++ ',' :: ds))

end

/-! ### Blanks -/

theorem blanks_nil : Blanks [] := by
  simp [Blanks]

theorem skipBlanks_cons {c : Char} {rest : List Char} (h : isBlank c = false) :
    skipBlanks (c :: rest) = c :: rest := by
  simp [skipBlanks, h]

theorem Blanks.skip {before : List Char} (h : Blanks before) (cs : List Char) :
    skipBlanks (before ++ cs) = skipBlanks cs :=
  List.dropWhile_append_of_pos h

theorem readValue_skipBlanks (fuel room : ℕ) (cs : List Char) :
    readValue fuel room (skipBlanks cs) = readValue fuel room cs := by
  cases fuel with
  | zero => rfl
  | succ fuel =>
    have hskip : skipBlanks (skipBlanks cs) = skipBlanks cs := List.dropWhile_idempotent _ _
    unfold readValue
    rw [hskip]

theorem readItems_skipBlanks (fuel room : ℕ) (cs : List Char) :
    readItems fuel room (skipBlanks cs) = readItems fuel room cs := by
  cases fuel with
  | zero => rfl
  | succ fuel =>
    unfold readItems
    rw [readValue_skipBlanks]

theorem readFields_skipBlanks (fuel room : ℕ) (cs : List Char) :
    readFields fuel room (skipBlanks cs) = readFields fuel room cs := by
  cases fuel with
  | zero => rfl
  | succ fuel =>
    have hskip : skipBlanks (skipBlanks cs) = skipBlanks cs := List.dropWhile_idempotent _ _
    unfold readFields
    rw [hskip]

/-- A blank does not continue a numeral. -/
theorem Ends.blanks {blanks rest : List Char} (h : Ends rest) (hblanks : Blanks blanks) :
    Ends (blanks ++ rest) := by
  cases blanks with
  | nil => exact h
  | cons c blanks =>
    intro d hd
    obtain rfl : c = d := Option.some.inj hd
    have hc := hblanks c List.mem_cons_self
    unfold isBlank at hc
    simp only [Bool.or_eq_true, decide_eq_true_eq] at hc
    rcases hc with ((rfl | rfl) | rfl) | rfl <;> decide

/-! ### Strings -/

theorem SpellsChar.read {c : Char} {cs : List Char} (h : SpellsChar c cs) (rest : List Char) :
    readString (cs ++ rest) = (readString rest).map fun (s, rest) => (c :: s, rest) := by
  cases h with
  | plain hquote hbackslash hcontrol => simp [readString, hbackslash, hcontrol]
  | simple h =>
    unfold simpleEscape at h
    split at h
    all_goals first
      | (obtain rfl := Option.some.inj h
         simp [readString, simpleEscape])
      | exact nomatch h
  | unit h hhigh hlow => simp [readString, h, hhigh, hlow]
  | pair h h' hhigh hlow => simp [readString, h, h', hhigh, hlow]

theorem SpellsString.read {s cs : List Char} (h : SpellsString s cs) (rest : List Char) :
    readString (cs ++ '"' :: rest) = some (s, rest) := by
  induction h with
  | nil => simp [readString]
  | cons hc hs ih =>
    rw [List.append_assoc, hc.read, ih]
    rfl

theorem SpellsKey.read {k : String} {ks : List Char} (h : SpellsKey k ks) (rest : List Char) :
    ∃ s cs after, k = .ofList s ∧ skipBlanks (ks ++ ':' :: rest) = '"' :: cs ∧
      readString cs = some (s, after) ∧ skipBlanks after = ':' :: rest := by
  obtain @⟨before, after, s, cs, hbefore, hs, hafter⟩ := h
  refine ⟨s, cs ++ '"' :: (after ++ ':' :: rest), after ++ ':' :: rest, rfl, ?_, hs.read _, ?_⟩
  · have hassoc : before ++ '"' :: (cs ++ '"' :: after) ++ ':' :: rest =
        before ++ '"' :: (cs ++ '"' :: (after ++ ':' :: rest)) := by simp
    rw [hassoc, hbefore.skip, skipBlanks_cons (by decide)]
  · rw [hafter.skip, skipBlanks_cons (by decide)]

/-! ### Values -/

theorem readNumeral_head {cs : List Char} {r : Json × List Char} (h : readNumeral cs = some r) :
    ∃ c rest, cs = c :: rest ∧ (c = '-' ∨ c.isDigit = true) := by
  cases cs with
  | nil => simp [readNumeral, readMagnitude, splitDigits] at h
  | cons c rest =>
    refine ⟨c, rest, rfl, ?_⟩
    by_contra hno
    rw [not_or] at hno
    have hdigit : c.isDigit = false := by simpa using hno.2
    simp [readNumeral, readMagnitude, splitDigits, hno.1, hdigit] at h

theorem isBlank_of_numeral {c : Char} (h : c = '-' ∨ c.isDigit = true) : isBlank c = false := by
  rcases h with rfl | hdigit
  · decide
  · unfold isBlank
    simp only [Bool.or_eq_false_iff, decide_eq_false_iff_not]
    refine ⟨⟨⟨?_, ?_⟩, ?_⟩, ?_⟩ <;> (rintro rfl; exact absurd hdigit (by decide))

/-- A text that begins as a number is read as one. -/
theorem readValue_of_readNumeral {fuel room : ℕ} {cs : List Char} {r : Json × List Char}
    (h : readNumeral cs = some r) : readValue (fuel + 1) room cs = some r := by
  obtain ⟨c, rest, rfl, hc⟩ := readNumeral_head h
  have hne : c ≠ 'n' ∧ c ≠ 't' ∧ c ≠ 'f' ∧ c ≠ '"' ∧ c ≠ '[' ∧ c ≠ '\x7b' := by
    rcases hc with rfl | hdigit
    · decide
    · refine ⟨?_, ?_, ?_, ?_, ?_, ?_⟩ <;> (rintro rfl; exact absurd hdigit (by decide))
  obtain ⟨h1, h2, h3, h4, h5, h6⟩ := hne
  unfold readValue
  rw [skipBlanks_cons (isBlank_of_numeral hc)]
  split <;> simp_all

/-- The text of a value begins with a character that neither separates nor closes. -/
theorem SpellsBare.head {v : Json} {cs : List Char} (h : SpellsBare v cs) :
    ∃ c cs', cs = c :: cs' ∧ isBlank c = false ∧ c ≠ ']' := by
  cases h with
  | number h =>
    obtain ⟨c, rest, rfl, hc⟩ := readNumeral_head h
    refine ⟨c, rest, rfl, isBlank_of_numeral hc, ?_⟩
    rintro rfl
    rcases hc with hc | hc <;> exact absurd hc (by decide)
  | _ => exact ⟨_, _, rfl, by decide, by decide⟩

theorem SpellsItems.skip_ne {items : List Json} {cs : List Char} (h : SpellsItems items cs)
    (rest rest' : List Char) : skipBlanks (cs ++ rest) ≠ ']' :: rest' := by
  have hvalue : ∀ {v : Json} {cs : List Char}, Spells v cs → ∀ tail,
      skipBlanks (cs ++ tail) ≠ ']' :: rest' := by
    intro v cs hv tail heq
    obtain @⟨_, before, cs, after, hbefore, hbare, -⟩ := hv
    obtain ⟨c, cs', rfl, hblank, hne⟩ := hbare.head
    rw [List.append_assoc, hbefore.skip, List.cons_append, List.cons_append,
      skipBlanks_cons hblank] at heq
    exact hne (List.cons.inj heq).1
  cases h with
  | last hv =>
    rw [List.append_assoc]
    exact hvalue hv _
  | next hv hrest =>
    rw [List.append_assoc]
    exact hvalue hv _

section Steps

/-! One call of a reader, by what it meets. -/

variable {fuel room : ℕ} {cs cs₁ cs₂ cs₃ cs₄ rest rest' : List Char} {v : Json}

theorem readItems_last (h : readValue fuel room cs = some (v, cs₁))
    (hclose : skipBlanks cs₁ = ']' :: rest) :
    readItems (fuel + 1) room cs = some ([v], rest) := by
  simp [readItems, h, hclose]

theorem readItems_next {items : List Json} (h : readValue fuel room cs = some (v, cs₁))
    (hcomma : skipBlanks cs₁ = ',' :: rest)
    (hnext : readItems fuel room rest = some (items, rest')) :
    readItems (fuel + 1) room cs = some (v :: items, rest') := by
  simp [readItems, h, hcomma, hnext]

theorem readFields_last {key : List Char} (hquote : skipBlanks cs = '"' :: cs₁)
    (hkey : readString cs₁ = some (key, cs₂)) (hcolon : skipBlanks cs₂ = ':' :: cs₃)
    (h : readValue fuel room cs₃ = some (v, cs₄)) (hclose : skipBlanks cs₄ = '\x7d' :: rest) :
    readFields (fuel + 1) room cs = some ([(.ofList key, v)], rest) := by
  simp [readFields, hquote, hkey, hcolon, h, hclose]

theorem readFields_next {key : List Char} {fields : List (String × Json)}
    (hquote : skipBlanks cs = '"' :: cs₁) (hkey : readString cs₁ = some (key, cs₂))
    (hcolon : skipBlanks cs₂ = ':' :: cs₃) (h : readValue fuel room cs₃ = some (v, cs₄))
    (hcomma : skipBlanks cs₄ = ',' :: rest)
    (hnext : readFields fuel room rest = some (fields, rest')) :
    readFields (fuel + 1) room cs = some ((.ofList key, v) :: fields, rest') := by
  simp [readFields, hquote, hkey, hcolon, h, hcomma, hnext]

theorem readValue_string {s : List Char} (h : readString cs = some (s, rest)) :
    readValue (fuel + 1) room ('"' :: cs) = some (.str (.ofList s), rest) := by
  simp [readValue, skipBlanks_cons, isBlank, h]

theorem readValue_array {items : List Json} (hne : ∀ rest', skipBlanks cs ≠ ']' :: rest')
    (h : readItems fuel room cs = some (items, rest)) :
    readValue (fuel + 1) (room + 1) ('[' :: cs) = some (.arr items, rest) := by
  rw [← readItems_skipBlanks] at h
  simp [readValue, skipBlanks_cons, isBlank, h]

theorem readValue_object {fields : List (String × Json)}
    (hne : ∀ rest', skipBlanks cs ≠ '\x7d' :: rest')
    (h : readFields fuel room cs = some (fields, rest)) :
    readValue (fuel + 1) (room + 1) ('\x7b' :: cs) = some (.obj fields, rest) := by
  rw [← readFields_skipBlanks] at h
  simp [readValue, skipBlanks_cons, isBlank, h]

end Steps

/-- Every text of the value is read as a whole, wherever it stands. -/
def Reads (v : Json) : Prop :=
  ∀ cs, SpellsBare v cs → ∀ fuel room rest, 2 * cs.length ≤ fuel → depth v ≤ room → Ends rest →
    readValue fuel room (cs ++ rest) = some (v, rest)

section Readers

variable {v : Json} {cs rest : List Char} {fuel room : ℕ}

/-- Blanks before the text are skipped, and those after it are left to be skipped. -/
theorem Reads.spelled (h : Reads v) (hs : Spells v cs) (fuel room : ℕ) (rest : List Char)
    (hfuel : 2 * cs.length ≤ fuel) (hroom : depth v ≤ room) (hrest : Ends rest) :
    ∃ r, readValue fuel room (cs ++ rest) = some (v, r) ∧ skipBlanks r = skipBlanks rest := by
  obtain @⟨_, before, cs, after, hbefore, hbare, hafter⟩ := hs
  rw [List.length_append, List.length_append] at hfuel
  refine ⟨after ++ rest, ?_, hafter.skip rest⟩
  rw [← readValue_skipBlanks, List.append_assoc, List.append_assoc, hbefore.skip,
    readValue_skipBlanks]
  exact h cs hbare fuel room _ (by omega) hroom (hrest.blanks hafter)

/-- The fuel runs down by one at each item, and each item has at least one character. -/
theorem readItems_spelled {items : List Json} (h : ∀ v ∈ items, Reads v)
    (hs : SpellsItems items cs) (hfuel : 2 * cs.length < fuel) (hroom : depthItems items ≤ room) :
    readItems fuel room (cs ++ rest) = some (items, rest) := by
  induction items generalizing cs fuel with
  | nil => exact nomatch hs
  | cons v items ih =>
    obtain ⟨fuel, rfl⟩ : ∃ f, fuel = f + 1 := ⟨fuel - 1, by omega⟩
    have hdepth := depthItems_le.mp hroom
    cases hs with
    | last hv =>
      rw [List.length_append] at hfuel
      obtain ⟨r, hread, hskip⟩ := (h v List.mem_cons_self).spelled hv fuel room (']' :: rest)
        (by omega) (hdepth v List.mem_cons_self) (by simp [Ends])
      rw [List.append_assoc]
      exact readItems_last hread (hskip.trans (skipBlanks_cons (by decide)))
    | @next _ _ _ ds hv hrest =>
      rw [List.length_append, List.length_cons] at hfuel
      obtain ⟨r, hread, hskip⟩ := (h v List.mem_cons_self).spelled hv fuel room
        (',' :: (ds ++ rest)) (by omega) (hdepth v List.mem_cons_self) (by simp [Ends])
      have hnext : readItems fuel room (ds ++ rest) = some (items, rest) :=
        ih (fun w hw => h w (List.mem_cons_of_mem v hw)) hrest (by omega)
          (depthItems_le.mpr fun w hw => hdepth w (List.mem_cons_of_mem v hw))
      rw [List.append_assoc, List.cons_append]
      exact readItems_next hread (hskip.trans (skipBlanks_cons (by decide))) hnext

theorem readFields_spelled {fields : List (String × Json)} (h : ∀ entry ∈ fields, Reads entry.2)
    (hs : SpellsFields fields cs) (hfuel : 2 * cs.length < fuel)
    (hroom : depthFields fields ≤ room) :
    readFields fuel room (cs ++ rest) = some (fields, rest) := by
  induction fields generalizing cs fuel with
  | nil => exact nomatch hs
  | cons entry fields ih =>
    obtain ⟨fuel, rfl⟩ : ∃ f, fuel = f + 1 := ⟨fuel - 1, by omega⟩
    have hdepth := depthFields_le.mp hroom
    cases hs with
    | @last k v ks cs hkey hv =>
      rw [List.length_append, List.length_cons, List.length_append] at hfuel
      obtain ⟨r, hread, hskip⟩ := (h (k, v) List.mem_cons_self).spelled hv fuel room
        ('\x7d' :: rest) (by omega) (hdepth (k, v) List.mem_cons_self) (by simp [Ends])
      obtain ⟨s, cs₁, cs₂, rfl, hquote, hstring, hcolon⟩ := hkey.read (cs ++ '\x7d' :: rest)
      have hassoc : ks ++ ':' :: (cs ++ ['\x7d']) ++ rest = ks ++ ':' :: (cs ++ '\x7d' :: rest) := by
        simp
      rw [hassoc]
      exact readFields_last hquote hstring hcolon hread (hskip.trans (skipBlanks_cons (by decide)))
    | @next k v _ ks cs ds hkey hv hrest =>
      rw [List.length_append, List.length_cons, List.length_append, List.length_cons] at hfuel
      obtain ⟨r, hread, hskip⟩ := (h (k, v) List.mem_cons_self).spelled hv fuel room
        (',' :: (ds ++ rest)) (by omega) (hdepth (k, v) List.mem_cons_self) (by simp [Ends])
      obtain ⟨s, cs₁, cs₂, rfl, hquote, hstring, hcolon⟩ := hkey.read (cs ++ ',' :: (ds ++ rest))
      have hnext : readFields fuel room (ds ++ rest) = some (fields, rest) :=
        ih (fun u hu => h u (List.mem_cons_of_mem _ hu)) hrest (by omega)
          (depthFields_le.mpr fun u hu => hdepth u (List.mem_cons_of_mem _ hu))
      have hassoc : ks ++ ':' :: (cs ++ ',' :: ds) ++ rest =
          ks ++ ':' :: (cs ++ ',' :: (ds ++ rest)) := by simp
      rw [hassoc]
      exact readFields_next hquote hstring hcolon hread
        (hskip.trans (skipBlanks_cons (by decide))) hnext

end Readers

theorem SpellsFields.skip_ne {fields : List (String × Json)} {cs : List Char}
    (h : SpellsFields fields cs) (rest rest' : List Char) :
    skipBlanks (cs ++ rest) ≠ '\x7d' :: rest' := by
  have hkey : ∀ {k : String} {ks : List Char}, SpellsKey k ks → ∀ tail,
      skipBlanks (ks ++ ':' :: tail) ≠ '\x7d' :: rest' := by
    intro k ks hk tail heq
    obtain ⟨s, cs, after, -, hquote, -⟩ := hk.read tail
    exact absurd (List.cons.inj (hquote.symm.trans heq)).1 (by decide)
  cases h with
  | last hk hv =>
    rw [List.append_assoc]
    exact hkey hk _
  | next hk hv hrest =>
    rw [List.append_assoc]
    exact hkey hk _

/-- A text is read as the value if the texts of its items and fields are. -/
theorem reads_of_parts {v : Json} (hitems : ∀ items, v = .arr items → ∀ w ∈ items, Reads w)
    (hfields : ∀ fields, v = .obj fields → ∀ entry ∈ fields, Reads entry.2) : Reads v := by
  intro cs hs fuel room rest hfuel hroom hrest
  obtain ⟨fuel, rfl⟩ : ∃ f, fuel = f + 1 := by
    obtain ⟨c, cs', rfl, -⟩ := hs.head
    exact ⟨fuel - 1, by rw [List.length_cons] at hfuel; omega⟩
  cases hs with
  | null => simp [readValue, skipBlanks_cons, isBlank]
  | yes => simp [readValue, skipBlanks_cons, isBlank]
  | no => simp [readValue, skipBlanks_cons, isBlank]
  | number h => exact readValue_of_readNumeral (readNumeral_append hrest h)
  | str h =>
    rw [List.cons_append, List.append_assoc]
    exact readValue_string (h.read rest)
  | @emptyArr blanks h =>
    obtain ⟨room, rfl⟩ : ∃ r, room = r + 1 := ⟨room - 1, by rw [depth] at hroom; omega⟩
    have hclose : skipBlanks (blanks ++ ']' :: rest) = ']' :: rest :=
      (h.skip _).trans (skipBlanks_cons (by decide))
    simp [readValue, skipBlanks_cons, isBlank, hclose]
  | @arr items _ h =>
    rw [depth] at hroom
    rw [List.length_cons] at hfuel
    obtain ⟨room, rfl⟩ : ∃ r, room = r + 1 := ⟨room - 1, by omega⟩
    exact readValue_array (h.skip_ne rest)
      (readItems_spelled (hitems items rfl) h (by omega) (by omega))
  | @emptyObj blanks h =>
    obtain ⟨room, rfl⟩ : ∃ r, room = r + 1 := ⟨room - 1, by rw [depth] at hroom; omega⟩
    have hclose : skipBlanks (blanks ++ '\x7d' :: rest) = '\x7d' :: rest :=
      (h.skip _).trans (skipBlanks_cons (by decide))
    simp [readValue, skipBlanks_cons, isBlank, hclose]
  | @obj fields _ h =>
    rw [depth] at hroom
    rw [List.length_cons] at hfuel
    obtain ⟨room, rfl⟩ : ∃ r, room = r + 1 := ⟨room - 1, by omega⟩
    exact readValue_object (h.skip_ne rest)
      (readFields_spelled (hfields fields rfl) h (by omega) (by omega))

/-- Every text of a value is read as the value. -/
theorem reads (v : Json) : Reads v := by
  induction v with
  | arr items ih =>
    refine reads_of_parts (fun _ heq => ?_) fun _ heq => nomatch heq
    obtain rfl := arr.inj heq
    exact ih
  | obj fields ih =>
    refine reads_of_parts (fun _ heq => nomatch heq) fun _ heq => ?_
    obtain rfl := obj.inj heq
    exact ih
  | _ => exact reads_of_parts (fun _ heq => nomatch heq) fun _ heq => nomatch heq

/-- Every text of a value that is not nested too deep is read as the value. -/
theorem readTree_of_spells {room : ℕ} {v : Json} {text : String} (h : Spells v text.toList)
    (hroom : v.depth ≤ room) : readTree room text = some v := by
  obtain ⟨r, hread, hskip⟩ := (reads v).spelled h (2 * text.toList.length + 2) room []
    (by omega) hroom ends_nil
  rw [List.append_nil] at hread
  unfold readTree
  dsimp only
  rw [hread]
  dsimp only
  rw [hskip]
  rfl

end NodeGraph.Json
