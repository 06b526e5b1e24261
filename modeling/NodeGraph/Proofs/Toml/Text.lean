import Mathlib
import NodeGraph.Toml.Text

/-!
Strings in TOML text: in whichever of the four styles a text is written, it is read back.
-/
namespace NodeGraph.Toml

variable {c quote : Char} {cs written rest : List Char}

/-! ### Characters -/

theorem newline?_of_ne (hfeed : c ≠ '\n') (hreturn : c ≠ '\r') (rest : List Char) :
    newline? (c :: rest) = none := by
  unfold newline?
  split <;> simp_all

theorem ne_of_isPlain (h : isPlain c = true) : c ≠ '\n' ∧ c ≠ '\r' := by
  constructor <;> rintro rfl <;> exact absurd h (by decide)

/-- A character is written as it is, or a backslash and what it escapes are. -/
theorem escape_cases (c : Char) :
    (escape c = [c] ∧ isPlain c = true ∧ c ≠ '"' ∧ c ≠ '\\') ∨
      ∃ code, escape c = '\\' :: code ∧ (∀ rest, readEscape (code ++ rest) = some (c, rest)) ∧
        ∀ rest, continued? (code ++ rest) = none := by
  by_cases hself : isPlain c = true ∧ c ≠ '"' ∧ c ≠ '\\' ∧ c ≠ '\t'
  · obtain ⟨hplain, hquote, hslash, htab⟩ := hself
    obtain ⟨hfeed, hreturn⟩ := ne_of_isPlain hplain
    left
    refine ⟨?_, hplain, hquote, hslash⟩
    have hback : c ≠ '\x08' := by
      rintro rfl
      exact absurd hplain (by decide)
    have hform : c ≠ '\x0c' := by
      rintro rfl
      exact absurd hplain (by decide)
    simp [escape, hquote, hslash, htab, hfeed, hreturn, hback, hform, hplain]
  · right
    unfold escape
    split_ifs with hquote hslash hback hform hfeed hreturn htab hplain
    · exact ⟨['"'], rfl, fun rest => by rw [hquote]; rfl, fun rest => rfl⟩
    · exact ⟨['\\'], rfl, fun rest => by rw [hslash]; rfl, fun rest => rfl⟩
    · exact ⟨['b'], rfl, fun rest => by rw [hback]; rfl, fun rest => rfl⟩
    · exact ⟨['f'], rfl, fun rest => by rw [hform]; rfl, fun rest => rfl⟩
    · exact ⟨['n'], rfl, fun rest => by rw [hfeed]; rfl, fun rest => rfl⟩
    · exact ⟨['r'], rfl, fun rest => by rw [hreturn]; rfl, fun rest => rfl⟩
    · exact ⟨['t'], rfl, fun rest => by rw [htab]; rfl, fun rest => rfl⟩
    · exact absurd ⟨hplain, hquote, hslash, htab⟩ hself
    · have hscalar := scalar?_of_not_isPlain ((Bool.not_eq_true _).mp hplain)
      exact ⟨['u', '0', '0', _, _], rfl, fun rest => by simp [readEscape, hscalar],
        fun rest => rfl⟩

/-! ### The end of a string on several lines -/

/-- Up to two quotes before the three that close a string belong to it. -/
theorem closing_append (hwritten : ¬[quote, quote, quote] <+: written)
    (hrest : rest.head? ≠ some quote) :
    closing quote (written ++ quote :: quote :: quote :: rest) =
      if ∀ c ∈ written, c = quote then some (written, rest) else none := by
  rcases written with _ | ⟨a, _ | ⟨b, _ | ⟨d, written⟩⟩⟩
  · rcases rest with _ | ⟨e, _ | ⟨e', rest⟩⟩ <;> simp_all [closing]
  · rcases rest with _ | ⟨e, rest⟩ <;> by_cases ha : a = quote <;> simp_all [closing]
  · by_cases ha : a = quote <;> by_cases hb : b = quote <;> simp_all [closing]
  · have hnone : ¬(a = quote ∧ b = quote ∧ d = quote) := by
      rintro ⟨rfl, rfl, rfl⟩
      exact hwritten (List.prefix_append [_, _, _] written)
    have hnot : ¬∀ c ∈ a :: b :: d :: written, c = quote := fun hall =>
      hnone ⟨hall a (by simp), hall b (by simp), hall d (by simp)⟩
    rw [if_neg hnot]
    simp only [List.cons_append, closing]
    rw [if_neg hnone]

theorem closing_of_ne (h : c ≠ quote) (rest : List Char) : closing quote (c :: rest) = none := by
  unfold closing
  split
  · rename_i heq
    obtain ⟨rfl, -⟩ := List.cons.inj heq
    exact if_neg fun hquotes => h hquotes.1
  · rfl

/-! ### Several lines with escapes -/

/-- After some quotes so many more do not follow that they are three. -/
theorem not_replicate_prefix_escapeLines {quotes k : ℕ} (h : k + quotes = 3) (hpos : 0 < k) :
    ¬List.replicate k '"' <+: escapeLines quotes cs := by
  induction cs generalizing quotes k with
  | nil =>
    obtain ⟨k, rfl⟩ := Nat.exists_eq_add_of_lt hpos
    simp [escapeLines, List.replicate_succ]
  | cons c cs ih =>
    obtain ⟨k, rfl⟩ : ∃ m, k = m + 1 := ⟨k - 1, by omega⟩
    rw [List.replicate_succ]
    unfold escapeLines
    split_ifs with hquote hquotes hfeed
    · rw [List.cons_prefix_cons]
      rintro ⟨-, hbegins⟩
      exact ih (by omega) (by omega) hbegins
    · simp
    · simp
    · rcases escape_cases c with ⟨hescape, -⟩ | ⟨code, hescape, -⟩
      · rw [hescape, List.cons_append, List.cons_prefix_cons]
        exact fun hbegins => hquote hbegins.1.symm
      · rw [hescape]
        simp

theorem not_tripled_escapeLines (cs : List Char) {quotes : ℕ} (h : quotes ≤ 2) :
    ¬['"', '"', '"'] <+: escapeLines quotes cs := by
  intro hbegins
  have hfewer : List.replicate (3 - quotes) '"' <+: List.replicate 3 '"' :=
    (List.prefix_replicate_iff).mpr ⟨by simp, by simp⟩
  exact not_replicate_prefix_escapeLines (by omega) (by omega) (hfewer.trans hbegins)

/-- Quotes alone are written as they are, as there are not three of them. -/
theorem escapeLines_eq_self {quotes : ℕ} (h : ∀ c ∈ escapeLines quotes cs, c = '"') :
    escapeLines quotes cs = cs := by
  induction cs generalizing quotes with
  | nil => rfl
  | cons c cs ih =>
    unfold escapeLines at h ⊢
    split_ifs at h ⊢ with hquote hquotes hfeed
    · rw [hquote, ih fun c hc => h c (List.mem_cons_of_mem _ hc)]
    · exact absurd (h '\\' (by simp)) (by decide)
    · exact absurd (h '\n' (by simp)) (by decide)
    · rcases escape_cases c with ⟨hescape, -⟩ | ⟨code, hescape, -⟩
      · exact absurd (h c (by simp [hescape])) hquote
      · exact absurd (h '\\' (by simp [hescape])) (by decide)

theorem readBasicLines_of_closing (fuel : ℕ) {done : List Char × List Char}
    (h : closing '"' cs = some done) : readBasicLines (fuel + 1) cs = some done := by
  rw [readBasicLines.eq_def]
  simp only [h]

/-- Where the string does not end, a character is read, or what stands for it. -/
theorem readBasicLines_plain (fuel : ℕ) (hclosing : closing '"' (c :: rest) = none)
    (hplain : isPlain c = true) (hslash : c ≠ '\\') :
    readBasicLines (fuel + 1) (c :: rest) =
      (readBasicLines fuel rest).map fun (text, rest) => (c :: text, rest) := by
  obtain ⟨hfeed, hreturn⟩ := ne_of_isPlain hplain
  rw [readBasicLines, hclosing]
  · dsimp only
    rw [newline?_of_ne hfeed hreturn]
    exact if_pos hplain
  · exact hslash

theorem readBasicLines_feed (fuel : ℕ) (rest : List Char) :
    readBasicLines (fuel + 1) ('\n' :: rest) =
      (readBasicLines fuel rest).map fun (text, rest) => ('\n' :: text, rest) := by
  rw [readBasicLines, closing_of_ne (by decide)]
  · rfl
  · decide

theorem readBasicLines_backslash (fuel : ℕ) {code : List Char}
    (hread : readEscape code = some (c, rest)) (hcontinued : continued? code = none) :
    readBasicLines (fuel + 1) ('\\' :: code) =
      (readBasicLines fuel rest).map fun (text, rest) => (c :: text, rest) := by
  rw [readBasicLines, closing_of_ne (by decide)]
  simp only [hcontinued, hread, Option.bind_eq_bind, Option.bind_some]
  cases readBasicLines fuel rest <;> rfl

/-- Whatever follows a text that is written on several lines with escapes, the text is read. -/
theorem readBasicLines_escapeLines {quotes fuel : ℕ} (hquotes : quotes ≤ 2)
    (hrest : rest.head? ≠ some '"') (hfuel : cs.length < fuel) :
    readBasicLines fuel (escapeLines quotes cs ++ '"' :: '"' :: '"' :: rest) =
      some (cs, rest) := by
  induction cs generalizing quotes fuel with
  | nil =>
    obtain ⟨fuel, rfl⟩ : ∃ n, fuel = n + 1 := ⟨fuel - 1, by omega⟩
    have hclosing := closing_append (not_tripled_escapeLines [] hquotes) hrest
    exact readBasicLines_of_closing fuel (hclosing.trans (if_pos (by simp [escapeLines])))
  | cons c cs ih =>
    obtain ⟨fuel, rfl⟩ : ∃ n, fuel = n + 1 := ⟨fuel - 1, by omega⟩
    rw [List.length_cons, add_lt_add_iff_right] at hfuel
    have hclosing := closing_append (not_tripled_escapeLines (c :: cs) hquotes) hrest
    split_ifs at hclosing with hall
    · rw [readBasicLines_of_closing fuel hclosing, escapeLines_eq_self hall]
    · unfold escapeLines at hclosing ⊢
      split_ifs at hclosing ⊢ with hquote hfew hfeed
      · rw [List.cons_append] at hclosing ⊢
        rw [readBasicLines_plain fuel hclosing (by decide) (by decide), ih (by omega) hfuel, hquote]
        rfl
      · rw [List.cons_append, List.cons_append, readBasicLines_backslash fuel rfl rfl,
          ih (by omega) hfuel, hquote]
        rfl
      · rw [List.cons_append, readBasicLines_feed, ih (by omega) hfuel, hfeed]
        rfl
      · rw [List.append_assoc] at hclosing ⊢
        rcases escape_cases c with ⟨hescape, hplain, -, hslash⟩ | ⟨code, hescape, hread, hcontinued⟩
        · rw [hescape, List.singleton_append] at hclosing ⊢
          rw [readBasicLines_plain fuel hclosing hplain hslash, ih (by omega) hfuel]
          rfl
        · rw [hescape, List.cons_append, readBasicLines_backslash fuel (hread _) (hcontinued _),
            ih (by omega) hfuel]
          rfl

/-! ### Several lines without escapes -/

theorem tripled_cons (h : tripled quote (c :: cs) = false) :
    ¬[quote, quote, quote] <+: c :: cs ∧ tripled quote cs = false := by
  rcases cs with _ | ⟨b, _ | ⟨d, cs⟩⟩
  · simp [tripled]
  · simp [tripled]
  · simp only [tripled, Bool.or_eq_false_iff] at h
    refine ⟨?_, h.2⟩
    simp only [List.cons_prefix_cons, List.nil_prefix]
    rintro ⟨rfl, rfl, rfl, -⟩
    simp at h

theorem readLiteralLines_of_closing (fuel : ℕ) {done : List Char × List Char}
    (h : closing '\'' cs = some done) : readLiteralLines (fuel + 1) cs = some done := by
  rw [readLiteralLines.eq_def]
  simp only [h]

theorem readLiteralLines_cons (fuel : ℕ) (hclosing : closing '\'' (c :: rest) = none)
    (hc : isPlain c = true ∨ c = '\n') :
    readLiteralLines (fuel + 1) (c :: rest) =
      (readLiteralLines fuel rest).map fun (text, rest) => (c :: text, rest) := by
  rw [readLiteralLines, hclosing]
  dsimp only
  rcases hc with hplain | rfl
  · obtain ⟨hfeed, hreturn⟩ := ne_of_isPlain hplain
    rw [newline?_of_ne hfeed hreturn]
    exact if_pos hplain
  · rfl

/-- A text without three quotes in a row is read from several lines without escapes. -/
theorem readLiteralLines_append {fuel : ℕ} (hcs : ∀ c ∈ cs, isPlain c = true ∨ c = '\n')
    (htripled : tripled '\'' cs = false) (hrest : rest.head? ≠ some '\'')
    (hfuel : cs.length < fuel) :
    readLiteralLines fuel (cs ++ '\'' :: '\'' :: '\'' :: rest) = some (cs, rest) := by
  induction cs generalizing fuel with
  | nil =>
    obtain ⟨fuel, rfl⟩ : ∃ n, fuel = n + 1 := ⟨fuel - 1, by omega⟩
    have hnone : ¬['\'', '\'', '\''] <+: [] := by simp
    have hclosing := closing_append hnone hrest
    exact readLiteralLines_of_closing fuel (hclosing.trans (if_pos (by simp)))
  | cons c cs ih =>
    obtain ⟨fuel, rfl⟩ : ∃ n, fuel = n + 1 := ⟨fuel - 1, by omega⟩
    rw [List.length_cons, add_lt_add_iff_right] at hfuel
    obtain ⟨hbegins, hlater⟩ := tripled_cons htripled
    obtain ⟨hc, hcs⟩ := List.forall_mem_cons.mp hcs
    have hclosing := closing_append hbegins hrest
    split_ifs at hclosing
    · exact readLiteralLines_of_closing fuel hclosing
    · rw [List.cons_append] at hclosing ⊢
      rw [readLiteralLines_cons fuel hclosing hc, ih hcs hlater hfuel]
      rfl

/-! ### One line without escapes -/

theorem readLiteral_append (hcs : ∀ c ∈ cs, isPlain c = true ∧ c ≠ '\'') (rest : List Char) :
    readLiteral (cs ++ '\'' :: rest) = some (cs, rest) := by
  induction cs with
  | nil => rfl
  | cons c cs ih =>
    obtain ⟨⟨hplain, hquote⟩, hcs⟩ := List.forall_mem_cons.mp hcs
    rw [List.cons_append, readLiteral, if_pos hplain, ih hcs]
    · rfl
    · exact hquote

/-! ### All styles -/

theorem length_escape_pos (c : Char) : 0 < (escape c).length := by
  rcases escape_cases c with ⟨hescape, -⟩ | ⟨code, hescape, -⟩ <;> simp [hescape]

theorem length_le_flatMap_escape (cs : List Char) : cs.length ≤ (cs.flatMap escape).length := by
  induction cs with
  | nil => simp
  | cons c cs ih =>
    have := length_escape_pos c
    rw [List.flatMap_cons, List.length_append, List.length_cons]
    omega

theorem length_le_escapeLines (quotes : ℕ) (cs : List Char) :
    cs.length ≤ (escapeLines quotes cs).length := by
  induction cs generalizing quotes with
  | nil => simp
  | cons c cs ih =>
    have := length_escape_pos c
    have hnext := ih (quotes + 1)
    have hfirst := ih 0
    unfold escapeLines
    split_ifs <;> simp only [List.length_cons, List.length_append] <;> omega

/-- The first line of a text is not lost after the opening quotes. -/
theorem skipNewline_opening (h : '\n' ∉ cs → newline? written = none) :
    skipNewline (Style.opening cs ++ written) = written := by
  unfold Style.opening skipNewline
  by_cases hfeed : '\n' ∈ cs
  · rw [if_pos (by simpa using hfeed)]
    rfl
  · rw [if_neg (by simpa using hfeed), List.nil_append, h hfeed]
    rfl

theorem newline?_escapeLines (h : '\n' ∉ cs) (rest : List Char) :
    newline? (escapeLines 0 cs ++ '"' :: rest) = none := by
  cases cs with
  | nil => rfl
  | cons c cs =>
    unfold escapeLines
    split_ifs with hquote hfew hfeed
    · rfl
    · rfl
    · exact absurd (by simp [hfeed]) h
    · rcases escape_cases c with ⟨hescape, hplain, -⟩ | ⟨code, hescape, -⟩
      · obtain ⟨hfeed, hreturn⟩ := ne_of_isPlain hplain
        rw [hescape]
        exact newline?_of_ne hfeed hreturn _
      · rw [hescape]
        rfl

theorem newline?_append (hcs : ∀ c ∈ cs, isPlain c = true ∨ c = '\n') (h : '\n' ∉ cs)
    (rest : List Char) : newline? (cs ++ '\'' :: rest) = none := by
  cases cs with
  | nil => rfl
  | cons c cs =>
    rcases hcs c List.mem_cons_self with hplain | rfl
    · obtain ⟨hfeed, hreturn⟩ := ne_of_isPlain hplain
      exact newline?_of_ne hfeed hreturn _
    · exact absurd List.mem_cons_self h

theorem not_pair_prefix_cons (h : rest.head? ≠ some quote) :
    ¬[quote, quote] <+: quote :: rest := by
  rintro ⟨more, hmore⟩
  rw [List.cons_append, List.cons_append, List.cons.injEq] at hmore
  rw [← hmore.2] at h
  exact h rfl

theorem not_pair_prefix_flatMap_escape (hrest : rest.head? ≠ some '"') :
    ¬['"', '"'] <+: cs.flatMap escape ++ '"' :: rest := by
  cases cs with
  | nil => exact not_pair_prefix_cons hrest
  | cons c cs =>
    rw [List.flatMap_cons, List.append_assoc]
    rcases escape_cases c with ⟨hescape, -, hquote, -⟩ | ⟨code, hescape, -⟩
    · rw [hescape, List.singleton_append, List.cons_prefix_cons]
      exact fun hbegins => hquote hbegins.1.symm
    · rw [hescape, List.cons_append, List.cons_prefix_cons]
      exact fun hbegins => absurd hbegins.1 (by decide)

theorem not_pair_prefix_append (hcs : ∀ c ∈ cs, c ≠ quote) (hrest : rest.head? ≠ some quote) :
    ¬[quote, quote] <+: cs ++ quote :: rest := by
  cases cs with
  | nil => exact not_pair_prefix_cons hrest
  | cons c cs =>
    rw [List.cons_append, List.cons_prefix_cons]
    exact fun hbegins => hcs c List.mem_cons_self hbegins.1.symm

/-- One quote opens a string on one line if there are not two more. -/
theorem readText_basic (h : ¬['"', '"'] <+: cs) :
    readText ('"' :: cs) = readBasic (cs.length + 1) cs := by
  unfold readText
  split
  · rename_i heq
    exact absurd (by simp [(List.cons.inj heq).2]) h
  · rename_i heq
    rw [(List.cons.inj heq).2]
  · simp_all
  · simp_all
  · simp_all

theorem readText_literal (h : ¬['\'', '\''] <+: cs) : readText ('\'' :: cs) = readLiteral cs := by
  unfold readText
  split
  · simp_all
  · simp_all
  · rename_i heq
    exact absurd (by simp [(List.cons.inj heq).2]) h
  · rename_i heq
    rw [(List.cons.inj heq).2]
  · simp_all

namespace Style

/-- The styles with escapes can hold any text. -/
def Holds (cs : List Char) : Style → Prop
  | literal => literal.suits cs = true
  | literalLines => literalLines.suits cs = true
  | _ => True

theorem holds_ofText (cs : List Char) : (ofText cs).Holds cs := by
  unfold ofText
  split
  · rename_i style hfound
    have hsuits := List.find?_some hfound
    cases style <;> first | exact hsuits | trivial
  · split <;> trivial

/-- A text is read from whatever style holds it, as long as no quote follows. -/
theorem readText_write {style : Style} (h : style.Holds cs)
    (hrest : ∀ c ∈ rest.head?, c ≠ '"' ∧ c ≠ '\'') :
    readText (style.write cs ++ rest) = some (cs, rest) := by
  have hquote : rest.head? ≠ some '"' := fun heq => (hrest _ heq).1 rfl
  have hprime : rest.head? ≠ some '\'' := fun heq => (hrest _ heq).2 rfl
  cases style with
  | basic =>
    have hlength := length_le_flatMap_escape cs
    have hwritten : write cs basic ++ rest = '"' :: (cs.flatMap escape ++ '"' :: rest) := by
      simp [write]
    rw [hwritten, readText_basic (not_pair_prefix_flatMap_escape hquote)]
    refine readBasic_flatMap_escape cs _ rest ?_
    rw [List.length_append]
    omega
  | literal =>
    have hcs : ∀ c ∈ cs, isPlain c = true ∧ c ≠ '\'' := by simpa [Holds, suits] using h
    have hwritten : write cs literal ++ rest = '\'' :: (cs ++ '\'' :: rest) := by simp [write]
    rw [hwritten, readText_literal (not_pair_prefix_append (fun c hc => (hcs c hc).2) hprime)]
    exact readLiteral_append hcs rest
  | basicLines =>
    have hlength := length_le_escapeLines 0 cs
    have hwritten : write cs basicLines ++ rest = '"' :: '"' :: '"' ::
        (opening cs ++ (escapeLines 0 cs ++ '"' :: '"' :: '"' :: rest)) := by simp [write]
    rw [hwritten, readText, skipNewline_opening fun hfeed => newline?_escapeLines hfeed _]
    refine readBasicLines_escapeLines (by omega) hquote ?_
    rw [List.length_append, List.length_append]
    omega
  | literalLines =>
    obtain ⟨hcs, htripled⟩ : (∀ c ∈ cs, isPlain c = true ∨ c = '\n') ∧
        tripled '\'' cs = false := by simpa [Holds, suits] using h
    have hwritten : write cs literalLines ++ rest = '\'' :: '\'' :: '\'' ::
        (opening cs ++ (cs ++ '\'' :: '\'' :: '\'' :: rest)) := by simp [write]
    rw [hwritten, readText, skipNewline_opening fun hfeed => newline?_append hcs hfeed _]
    refine readLiteralLines_append hcs htripled hprime ?_
    rw [List.length_append, List.length_append]
    omega

end Style

/-- A text that has been written is read, as long as no quote follows. -/
theorem readText_quoted (s : String) (hrest : ∀ c ∈ rest.head?, c ≠ '"' ∧ c ≠ '\'') :
    readText (quoted s ++ rest) = some (s.toList, rest) :=
  Style.readText_write (Style.holds_ofText s.toList) hrest

end NodeGraph.Toml
