import NodeGraph.Proofs.Json.Numeral
import NodeGraph.Proofs.Toml.Text
import NodeGraph.Toml.Reader

/-!
Lines of TOML text: a key with a text, a flag or a number, or the header of a table, on a line of
its own is read as what it says.
-/
namespace NodeGraph.Toml

variable {c : Char} {digits rest : List Char}

/-! ### Numbers -/

theorem ne_of_kind {kind : Char → Bool} {d : Char} (hc : kind c = true) (hd : kind d = false) :
    c ≠ d := by
  rintro rfl
  exact absurd hc (by simp [hd])

theorem readDigits_append (hdigits : ∀ c ∈ digits, c.isDigit = true) {after : Bool}
    (hafter : after = true ∨ digits ≠ []) (rest : List Char) :
    readDigits Char.isDigit after (digits ++ '\n' :: rest) = some (digits, '\n' :: rest) := by
  induction digits generalizing after with
  | nil =>
    obtain rfl : after = true := hafter.resolve_right (by simp)
    rfl
  | cons c digits ih =>
    obtain ⟨hc, hdigits⟩ := List.forall_mem_cons.mp hdigits
    rw [List.cons_append, readDigits, if_pos hc, ih hdigits (Or.inl rfl)]
    · rfl
    · exact ne_of_kind hc rfl

/-- The numeral of a number is a single zero, or no zero leads. -/
theorem toDigits_cases (n : ℕ) : Nat.toDigits 10 n = ['0'] ∨
    ∃ c digits, Nat.toDigits 10 n = c :: digits ∧ c ≠ '0' := by
  have hzero := Json.head?_toDigits (n := n)
  cases hdigits : Nat.toDigits 10 n with
  | nil => exact absurd hdigits Nat.toDigits_ne_nil
  | cons c digits =>
    by_cases hc : c = '0'
    · rw [hdigits, hc] at hzero
      have hnil : digits = [] := by simpa using hzero rfl
      exact Or.inl (by rw [hc, hnil])
    · exact Or.inr ⟨c, digits, rfl, hc⟩

theorem readWhole_toDigits (n : ℕ) (rest : List Char) :
    readWhole (Nat.toDigits 10 n ++ '\n' :: rest) = some (Nat.toDigits 10 n, '\n' :: rest) := by
  have hdigits := Json.isDigit_of_mem_toDigits (n := n)
  rcases toDigits_cases n with hzero | ⟨c, digits, hn, hc⟩
  · rw [hzero]
    rfl
  · rw [hn] at hdigits ⊢
    rw [List.cons_append, readWhole.eq_2]
    · exact readDigits_append hdigits (Or.inr (List.cons_ne_nil _ _)) rest
    · exact fun more heq => hc (List.cons.inj heq).1

/-- A number with a fixed count of digits ends before the line does. -/
theorem readPadded_append {count n : ℕ} {more : List Char}
    (h : readPadded count (digits ++ '\n' :: rest) = some (n, more)) :
    more = digits.drop count ++ '\n' :: rest := by
  unfold readPadded at h
  dsimp only at h
  split_ifs at h with hread
  obtain ⟨-, rfl⟩ := Prod.mk.inj (Option.some.inj h)
  have hcount : count ≤ digits.length := by
    by_contra hlong
    have hfeed : '\n' ∈ (digits ++ '\n' :: rest).take count := by
      rw [List.take_append, List.take_cons (by omega)]
      simp
    have hall := List.all_eq_true.mp hread.2 '\n' hfeed
    exact absurd hall (by decide)
  exact List.drop_append_of_le_length hcount

theorem expect_append (hdigits : ∀ c ∈ digits, c.isDigit = true) (hc : c.isDigit = false)
    (hfeed : c ≠ '\n') (rest : List Char) : expect c (digits ++ '\n' :: rest) = none := by
  cases digits with
  | nil => exact if_neg hfeed.symm
  | cons d digits => exact if_neg (ne_of_kind (hdigits d List.mem_cons_self) hc)

theorem skipDate_append (hdigits : ∀ c ∈ digits, c.isDigit = true) (rest : List Char) :
    skipDate (digits ++ '\n' :: rest) = none := by
  unfold skipDate
  cases hyear : readPadded 4 (digits ++ '\n' :: rest) with
  | none => rfl
  | some found =>
    obtain ⟨year, more⟩ := found
    have hmore := readPadded_append hyear
    have hnone : expect '-' more = none := by
      rw [hmore]
      exact expect_append (fun c hc => hdigits c (List.mem_of_mem_drop hc)) rfl (by decide) rest
    simp [hnone]

theorem skipTime_append (hdigits : ∀ c ∈ digits, c.isDigit = true) (rest : List Char) :
    skipTime (digits ++ '\n' :: rest) = none := by
  unfold skipTime readPart
  cases hhour : readPadded 2 (digits ++ '\n' :: rest) with
  | none => rfl
  | some found =>
    obtain ⟨hour, more⟩ := found
    have hmore := readPadded_append hhour
    have hnone : expect ':' more = none := by
      rw [hmore]
      exact expect_append (fun c hc => hdigits c (List.mem_of_mem_drop hc)) rfl (by decide) rest
    by_cases hrange : hour ≤ 23 <;> simp [hrange, hnone]

/-- After its digits a date goes on with a dash, a time with a colon, but a numeral is over. -/
theorem readDate_append (hdigits : ∀ c ∈ digits, c.isDigit = true) (rest : List Char) :
    readDate (digits ++ '\n' :: rest) = none := by
  unfold readDate skipDateTime
  rw [skipDate_append hdigits, skipTime_append hdigits]
  rfl

theorem readSign_of_isDigit (hc : c.isDigit = true) (rest : List Char) :
    readSign (c :: rest) = (false, c :: rest) := by
  unfold readSign
  split
  · exact absurd hc (by simp_all)
  · exact absurd hc (by simp_all)
  · rfl

theorem readNamed_of_isDigit (hc : c.isDigit = true) (negative : Bool) (rest : List Char) :
    readNamed negative (c :: rest) = none := by
  unfold readNamed
  split
  · exact absurd hc (by simp_all)
  · exact absurd hc (by simp_all)
  · rfl

/-- A numeral without a fraction and without an exponent is no float. -/
theorem readFloat_toDigits (n : ℕ) (rest : List Char) :
    readFloat (Nat.toDigits 10 n ++ '\n' :: rest) = none := by
  have hwhole := readWhole_toDigits n rest
  have hdigits := Json.isDigit_of_mem_toDigits (n := n)
  cases hn : Nat.toDigits 10 n with
  | nil => exact absurd hn Nat.toDigits_ne_nil
  | cons c digits =>
    rw [hn] at hwhole hdigits
    rw [List.cons_append] at hwhole ⊢
    have hc := hdigits c List.mem_cons_self
    unfold readFloat readDecimal
    rw [readSign_of_isDigit hc, readNamed_of_isDigit hc]
    simp [hwhole, readFraction, readExponent]

theorem readInteger_toDigits {n : ℕ} (h : n < 1 <<< 63) (rest : List Char) :
    readInteger (Nat.toDigits 10 n ++ '\n' :: rest) = some (.int n, '\n' :: rest) := by
  have hwhole := readWhole_toDigits n rest
  have hdigits := Json.isDigit_of_mem_toDigits (n := n)
  have hvalue := Nat.ofDigitChars_ten_toDigits (n := n)
  have hinteger : integer? n = some (.int n) := by
    have hleast : Int64.minValue.toInt = -2 ^ 63 := rfl
    have hmost : Int64.maxValue.toInt = 2 ^ 63 - 1 := rfl
    have hlimit : 1 <<< 63 = 2 ^ 63 := rfl
    exact if_pos (by omega)
  rcases toDigits_cases n with hzero | ⟨c, digits, hn, hc⟩
  · rw [hzero] at hvalue ⊢
    obtain rfl : n = 0 := hvalue.symm
    rfl
  · rw [hn] at hwhole hdigits hvalue ⊢
    rw [List.cons_append] at hwhole ⊢
    have hdigit := hdigits c List.mem_cons_self
    rw [readInteger.eq_4]
    · simp [readSign_of_isDigit hdigit, hwhole, hvalue, signed, hinteger]
    all_goals simp_all

theorem readScalar_toDigits {n : ℕ} (h : n < 1 <<< 63) (rest : List Char) :
    readScalar (Nat.toDigits 10 n ++ '\n' :: rest) = some (.int n, '\n' :: rest) := by
  unfold readScalar
  rw [readDate_append Json.isDigit_of_mem_toDigits, readFloat_toDigits, readInteger_toDigits h]
  rfl

/-! ### Values -/

/-- Writing that is read as a value, up to the end of its line. -/
structure Writes (value : List Char) (v : Json) : Prop where
  skipBlanks_append : ∀ rest, skipBlanks (value ++ rest) = value ++ rest
  readValue_append : ∀ fuel room rest,
    readValue (fuel + 1) room (value ++ '\n' :: rest) = some (v, '\n' :: rest)

theorem skipBlanks_of_ne (hspace : c ≠ ' ') (htab : c ≠ '\t') (rest : List Char) :
    skipBlanks (c :: rest) = c :: rest :=
  List.dropWhile_cons_of_neg (by simp [isBlank, hspace, htab])

theorem readValue_of_isDigit (hc : c.isDigit = true) (fuel room : ℕ) (rest : List Char) :
    readValue (fuel + 1) room (c :: rest) = readScalar (c :: rest) := by
  rw [readValue.eq_def]
  dsimp only
  split
  case h_7 => rfl
  all_goals
    rename_i heq
    rw [(List.cons.inj heq).1] at hc
    exact absurd hc (by decide)

theorem writes_toDigits {n : ℕ} (h : n < 1 <<< 63) : Writes (Nat.toDigits 10 n) (.int n) := by
  have hscalar := readScalar_toDigits h
  have hdigits := Json.isDigit_of_mem_toDigits (n := n)
  cases hn : Nat.toDigits 10 n with
  | nil => exact absurd hn Nat.toDigits_ne_nil
  | cons c digits =>
    rw [hn] at hscalar hdigits
    have hc := hdigits c List.mem_cons_self
    constructor
    · exact fun rest => skipBlanks_of_ne (ne_of_kind hc rfl) (ne_of_kind hc rfl) _
    · intro fuel room rest
      rw [← hscalar rest]
      exact readValue_of_isDigit hc fuel room _

theorem writes_flag (b : Bool) : Writes (if b then "true" else "false").toList (.bool b) := by
  cases b
  · exact ⟨fun rest => rfl, fun fuel room rest => by simp [readValue]⟩
  · exact ⟨fun rest => rfl, fun fuel room rest => by simp [readValue]⟩

theorem writes_quoted (s : String) : Writes (quoted s) (.str s) := by
  have hread : ∀ rest, readText (quoted s ++ '\n' :: rest) = some (s.toList, '\n' :: rest) :=
    fun rest => readText_quoted s (by simp)
  obtain ⟨more, hmore⟩ : ∃ more, quoted s = '"' :: more ∨ quoted s = '\'' :: more := by
    unfold quoted
    cases Style.ofText s.toList
    · exact ⟨_, Or.inl rfl⟩
    · exact ⟨_, Or.inr rfl⟩
    · exact ⟨_, Or.inl rfl⟩
    · exact ⟨_, Or.inr rfl⟩
  constructor
  · intro rest
    rcases hmore with hmore | hmore <;> rw [hmore] <;> rfl
  · intro fuel room rest
    have hread := hread rest
    rcases hmore with hmore | hmore <;> rw [hmore, List.cons_append] at hread ⊢ <;>
      simp [readValue, hread]

/-! ### Lines -/

/-- A name that is a key without quotes. -/
def Bare (key : String) : Prop :=
  key ≠ "" ∧ key.toList.all isBare = true

instance (key : String) : Decidable (Bare key) :=
  inferInstanceAs (Decidable (key ≠ "" ∧ key.toList.all isBare = true))

theorem Bare.isBare_of_mem {key : String} (h : Bare key) : ∀ c ∈ key.toList, isBare c = true :=
  List.all_eq_true.mp h.2

theorem Bare.eq_cons {key : String} (h : Bare key) :
    ∃ c cs, key.toList = c :: cs ∧ isBare c = true := by
  cases hcs : key.toList with
  | nil => exact absurd (String.toList_eq_nil_iff.mp hcs) h.1
  | cons c cs => exact ⟨c, cs, rfl, h.isBare_of_mem c (by simp [hcs])⟩

theorem Bare.append_ne_cons {key : String} (h : Bare key) {d : Char} (hd : isBare d = false)
    (rest more : List Char) : key.toList ++ rest ≠ d :: more := by
  obtain ⟨c, cs, hcs, hc⟩ := h.eq_cons
  rw [hcs]
  exact fun heq => ne_of_kind hc hd (List.cons.inj heq).1

theorem readPart?_bare {key : String} (hkey : Bare key)
    (hrest : ∀ c ∈ rest.head?, isBare c = false) :
    readPart? (key.toList ++ rest) = some (key, rest) := by
  have htake : (key.toList ++ rest).takeWhile isBare = key.toList := by
    rw [List.takeWhile_append_of_pos hkey.isBare_of_mem]
    cases rest with
    | nil => simp
    | cons d rest => simp [hrest d rfl]
  have hdrop : (key.toList ++ rest).dropWhile isBare = rest := by
    rw [List.dropWhile_append_of_pos hkey.isBare_of_mem]
    cases rest with
    | nil => rfl
    | cons d rest => simp [hrest d rfl]
  rw [readPart?.eq_3]
  · simp [htake, hdrop, hkey.1]
  · exact hkey.append_ne_cons rfl rest
  · exact hkey.append_ne_cons rfl rest

theorem readKey_bare {key : String} (hkey : Bare key) (hrest : ∀ c ∈ rest.head?, isBare c = false)
    (hdot : ∀ c ∈ (skipBlanks rest).head?, c ≠ '.') (fuel : ℕ) :
    readKey (fuel + 1) (key.toList ++ rest) = some ([key], skipBlanks rest) := by
  have hfirst : skipBlanks (key.toList ++ rest) = key.toList ++ rest := by
    obtain ⟨c, cs, hcs, hc⟩ := hkey.eq_cons
    rw [hcs]
    exact skipBlanks_of_ne (ne_of_kind hc rfl) (ne_of_kind hc rfl) _
  rw [readKey, hfirst, readPart?_bare hkey hrest]
  dsimp only [Option.bind_eq_bind, Option.bind_some]
  split
  · rename_i heq
    exact absurd rfl (hdot '.' (by rw [heq]; rfl))
  · rfl

theorem readLines_feed (fuel : ℕ) (rest : List Char) :
    readLines (fuel + 1) ('\n' :: rest) = readLines fuel rest :=
  rfl

theorem readLines_statement (hspace : c ≠ ' ') (htab : c ≠ '\t')
    (hc : ¬(c = '#' ∨ c = '\n' ∨ c = '\r')) {cs : List Char} {statement : Statement}
    (h : readStatement (c :: cs) = some (statement, '\n' :: rest)) (fuel : ℕ) :
    readLines (fuel + 1) (c :: cs) = (readLines fuel rest).map (statement :: ·) := by
  rw [readLines, skipBlanks_of_ne hspace htab]
  dsimp only
  rw [if_neg hc, h]
  rfl

/-- A header on a line of its own declares a table. -/
theorem readLines_header {key : String} (hkey : Bare key) (fuel : ℕ) (rest : List Char) :
    readLines (fuel + 1) ('[' :: (key.toList ++ ']' :: '\n' :: rest)) =
      (readLines fuel rest).map (.declare [key] :: ·) := by
  have hread : readKey (limit - 1) (key.toList ++ ']' :: '\n' :: rest) =
      some ([key], ']' :: '\n' :: rest) :=
    readKey_bare hkey (by simp [isBare]) (by simp [skipBlanks_of_ne]) 78
  refine readLines_statement (by decide) (by decide) (by decide) ?_ fuel
  rw [readStatement, readHeader.eq_2, hread]
  · rfl
  · exact hkey.append_ne_cons rfl _

/-- A key and a value on a line of their own are an assignment. -/
theorem readLines_assign {key : String} (hkey : Bare key) {value : List Char} {v : Json}
    (hvalue : Writes value v) (fuel : ℕ) (rest : List Char) :
    readLines (fuel + 1) (key.toList ++ ' ' :: '=' :: ' ' :: (value ++ '\n' :: rest)) =
      (readLines fuel rest).map (.assign [key] v :: ·) := by
  have hread : readKey (limit - 1) (key.toList ++ ' ' :: '=' :: ' ' :: (value ++ '\n' :: rest)) =
      some ([key], '=' :: ' ' :: (value ++ '\n' :: rest)) :=
    readKey_bare hkey (by simp [isBare]) (by simp [skipBlanks, isBlank]) 78
  have hstart : skipBlanks (' ' :: (value ++ '\n' :: rest)) = value ++ '\n' :: rest :=
    hvalue.skipBlanks_append _
  obtain ⟨c, cs, hcs, hc⟩ := hkey.eq_cons
  rw [hcs, List.cons_append] at hread ⊢
  refine readLines_statement (ne_of_kind hc rfl) (ne_of_kind hc rfl) ?_ ?_ fuel
  · rintro (h | h | h)
    all_goals exact ne_of_kind hc rfl h
  · rw [readStatement.eq_2, readAssignment, hread]
    · simp only [hstart, hvalue.readValue_append, Option.map_some]
    · exact fun more heq => ne_of_kind hc rfl (List.cons.inj heq).1

end NodeGraph.Toml
