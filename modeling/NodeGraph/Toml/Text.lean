import NodeGraph.Json.Reader

/-! Strings in TOML text: the four ways to read and to write them. -/
namespace NodeGraph.Toml

def isBlank (c : Char) : Bool :=
  c = ' ' || c = '\t'

def skipBlanks (cs : List Char) : List Char :=
  cs.dropWhile isBlank

/-- A line ends in a line feed, with or without a carriage return before it. -/
def newline? : List Char → Option (List Char)
  | '\n' :: rest => some rest
  | '\r' :: '\n' :: rest => some rest
  | _ => none

/-- Blanks and line ends. A carriage return counts only as part of a line end. -/
def skipLines : List Char → List Char
  | ' ' :: rest => skipLines rest
  | '\t' :: rest => skipLines rest
  | '\n' :: rest => skipLines rest
  | '\r' :: '\n' :: rest => skipLines rest
  | rest => rest

/-- The first line end after an opening delimiter is not part of the text. -/
def skipNewline (cs : List Char) : List Char :=
  (newline? cs).getD cs

/-- Control characters other than the tab never stand for themselves. -/
def isPlain (c : Char) : Bool :=
  c = '\t' || (decide (0x20 ≤ c.toNat) && c.toNat ≠ 0x7f)

/-- The character with a hexadecimal code; surrogates have none. -/
def scalar? (digits : List Char) : Option Char := do
  let n ← digits.foldlM (fun n c => (Json.hexValue c).map (n * 16 + ·)) 0
  if n < 0xD800 ∨ (0xE000 ≤ n ∧ n ≤ 0x10FFFF) then some (.ofNat n) else none

/-- The character that a backslash and one more character stand for. -/
def simpleEscape : Char → Option Char
  | '"' => some '"'
  | '\\' => some '\\'
  | 'b' => some '\x08'
  | 'f' => some '\x0c'
  | 'n' => some '\n'
  | 'r' => some '\r'
  | 't' => some '\t'
  | _ => none

/-- A character after its backslash, and what follows. -/
def readEscape : List Char → Option (Char × List Char)
  | 'u' :: a :: b :: c :: d :: rest => (scalar? [a, b, c, d]).map (·, rest)
  | 'U' :: a :: b :: c :: d :: e :: f :: g :: h :: rest =>
    (scalar? [a, b, c, d, e, f, g, h]).map (·, rest)
  | c :: rest => (simpleEscape c).map (·, rest)
  | [] => none

/-- The rest of a string on one line with escapes. Every step takes a character, so the length of
the text is enough for `fuel`. -/
def readBasic : Nat → List Char → Option (List Char × List Char)
  | 0, _ => none
  | _ + 1, [] => none
  | _ + 1, '"' :: rest => some ([], rest)
  | fuel + 1, '\\' :: rest => do
    let (c, rest) ← readEscape rest
    let (text, rest) ← readBasic fuel rest
    return (c :: text, rest)
  | fuel + 1, c :: rest =>
    if isPlain c then (readBasic fuel rest).map fun (text, rest) => (c :: text, rest) else none

/-- The rest of a string on one line without escapes. -/
def readLiteral : List Char → Option (List Char × List Char)
  | [] => none
  | '\'' :: rest => some ([], rest)
  | c :: rest =>
    if isPlain c then (readLiteral rest).map fun (text, rest) => (c :: text, rest) else none

/-- A line that ends in a backslash goes on with the next character that is no blank. -/
def continued? (cs : List Char) : Option (List Char) :=
  (newline? (skipBlanks cs)).map skipLines

/-- The end of a string on several lines, where up to two quotes may stand before the three that
close it. -/
def closing (quote : Char) : List Char → Option (List Char × List Char)
  | a :: b :: c :: rest =>
    if a = quote ∧ b = quote ∧ c = quote then
      match rest with
      | d :: e :: rest' =>
        if d = quote then
          if e = quote then some ([quote, quote], rest') else some ([quote], e :: rest')
        else some ([], rest)
      | [d] => if d = quote then some ([quote], []) else some ([], rest)
      | [] => some ([], [])
    else none
  | _ => none

/-- The rest of a string on several lines with escapes. -/
def readBasicLines : Nat → List Char → Option (List Char × List Char)
  | 0, _ => none
  | fuel + 1, cs =>
    match closing '"' cs with
    | some done => some done
    | none =>
      match cs with
      | [] => none
      | '\\' :: rest =>
        match continued? rest with
        | some rest => readBasicLines fuel rest
        | none => do
          let (c, rest) ← readEscape rest
          let (text, rest) ← readBasicLines fuel rest
          return (c :: text, rest)
      | c :: rest =>
        match newline? cs with
        | some rest => (readBasicLines fuel rest).map fun (text, rest) => ('\n' :: text, rest)
        | none =>
          if isPlain c then (readBasicLines fuel rest).map fun (text, rest) => (c :: text, rest)
          else none

/-- The rest of a string on several lines without escapes. -/
def readLiteralLines : Nat → List Char → Option (List Char × List Char)
  | 0, _ => none
  | fuel + 1, cs =>
    match closing '\'' cs with
    | some done => some done
    | none =>
      match cs with
      | [] => none
      | c :: rest =>
        match newline? cs with
        | some rest => (readLiteralLines fuel rest).map fun (text, rest) => ('\n' :: text, rest)
        | none =>
          if isPlain c then
            (readLiteralLines fuel rest).map fun (text, rest) => (c :: text, rest)
          else none

/-- A string of any kind. Three quotes open one on several lines. -/
def readText : List Char → Option (List Char × List Char)
  | '"' :: '"' :: '"' :: rest => readBasicLines (rest.length + 1) (skipNewline rest)
  | '"' :: rest => readBasic (rest.length + 1) rest
  | '\'' :: '\'' :: '\'' :: rest => readLiteralLines (rest.length + 1) (skipNewline rest)
  | '\'' :: rest => readLiteral rest
  | _ => none

/-- The `n`th hexadecimal digit in upper case. -/
def upperHexDigit (n : Nat) : Char :=
  (Nat.digitChar (n % 16)).toUpper

/-- Quotes, backslashes and control characters are escaped, the common ones by a letter. -/
def escape (c : Char) : List Char :=
  if c = '"' then ['\\', '"']
  else if c = '\\' then ['\\', '\\']
  else if c = '\x08' then ['\\', 'b']
  else if c = '\x0c' then ['\\', 'f']
  else if c = '\n' then ['\\', 'n']
  else if c = '\r' then ['\\', 'r']
  else if c = '\t' then ['\\', 't']
  else if isPlain c then [c]
  else ['\\', 'u', '0', '0', upperHexDigit (c.toNat / 16), upperHexDigit c.toNat]

/-- What is written for a text on several lines with escapes. Line feeds stand for themselves, and
so do quotes, except the third of a run; `quotes` tells how many stand right before. -/
def escapeLines (quotes : Nat) : List Char → List Char
  | [] => []
  | c :: rest =>
    if c = '"' then
      if quotes < 2 then '"' :: escapeLines (quotes + 1) rest
      else '\\' :: '"' :: escapeLines 0 rest
    else if c = '\n' then '\n' :: escapeLines 0 rest
    else escape c ++ escapeLines 0 rest

/-- Whether a character stands three times in a row. -/
def tripled (c : Char) : List Char → Bool
  | a :: b :: d :: rest => (a = c && b = c && d = c) || tripled c (b :: d :: rest)
  | _ => false

/-- The kinds of strings: with escapes or without, on one line or on several. -/
inductive Style where
  | basic
  | literal
  | basicLines
  | literalLines
  deriving DecidableEq, Repr

namespace Style

def all : List Style :=
  [basic, literal, basicLines, literalLines]

/-- Whether a text can be written in a style as it is, with no escapes but for the tab. -/
def suits (cs : List Char) : Style → Bool
  | basic => cs.all fun c => isPlain c && c ≠ '"' && c ≠ '\\'
  | literal => cs.all fun c => isPlain c && c ≠ '\''
  | basicLines => cs.all (fun c => (isPlain c || c = '\n') && c ≠ '\\') && !tripled '"' cs
  | literalLines => cs.all (fun c => isPlain c || c = '\n') && !tripled '\'' cs

/-- The first style that suits a text, or else one that escapes what it must. -/
def ofText (cs : List Char) : Style :=
  match all.find? (·.suits cs) with
  | some style => style
  | none => if cs.contains '\n' then basicLines else basic

/-- A text of several lines begins on a line of its own. -/
def opening (cs : List Char) : List Char :=
  if cs.contains '\n' then ['\n'] else []

def write (cs : List Char) : Style → List Char
  | basic => '"' :: (cs.flatMap escape ++ ['"'])
  | literal => '\'' :: (cs ++ ['\''])
  | basicLines =>
    '"' :: '"' :: '"' :: (opening cs ++ (escapeLines 0 cs ++ ['"', '"', '"']))
  | literalLines =>
    '\'' :: '\'' :: '\'' :: (opening cs ++ (cs ++ ['\'', '\'', '\'']))

end Style

/-- A string in the style that its text calls for. -/
def quoted (s : String) : List Char :=
  (Style.ofText s.toList).write s.toList

theorem scalar?_control : ∀ n < 0x80, isPlain (.ofNat n) = false →
    scalar? ['0', '0', upperHexDigit (n / 16), upperHexDigit n] = some (.ofNat n) := by
  decide

theorem toNat_lt_of_not_isPlain {c : Char} (h : isPlain c = false) : c.toNat < 0x80 := by
  simp only [isPlain, Bool.or_eq_false_iff, Bool.and_eq_false_iff, decide_eq_false_iff_not] at h
  have := h.2
  omega

theorem scalar?_of_not_isPlain {c : Char} (h : isPlain c = false) :
    scalar? ['0', '0', upperHexDigit (c.toNat / 16), upperHexDigit c.toNat] = some c := by
  have hc : Char.ofNat c.toNat = c := Char.ofNat_toNat c
  have := scalar?_control c.toNat (toNat_lt_of_not_isPlain h) (by rwa [hc])
  rwa [hc] at this

/-- A backslash is read with what it escapes. -/
theorem readBasic_backslash {cs rest : List Char} {c : Char} (fuel : Nat)
    (h : readEscape cs = some (c, rest)) :
    readBasic (fuel + 1) ('\\' :: cs)
      = (readBasic fuel rest).map fun (text, rest) => (c :: text, rest) := by
  simp only [readBasic, h, Option.bind_eq_bind, Option.bind_some]
  cases readBasic fuel rest <;> rfl

theorem readBasic_plain {c : Char} (fuel : Nat) (rest : List Char) (hq : c ≠ '"')
    (hb : c ≠ '\\') (h : isPlain c = true) :
    readBasic (fuel + 1) (c :: rest)
      = (readBasic fuel rest).map fun (text, rest) => (c :: text, rest) := by
  rw [readBasic.eq_5 _ _ _ hq hb, if_pos h]

/-- What is written for a character is read back as that character. -/
theorem readBasic_escape_append (c : Char) (fuel : Nat) (rest : List Char) :
    readBasic (fuel + 1) (escape c ++ rest)
      = (readBasic fuel rest).map fun (text, rest) => (c :: text, rest) := by
  unfold escape
  repeat' split
  all_goals try (subst c; exact readBasic_backslash fuel rfl)
  · exact readBasic_plain fuel rest ‹_› ‹_› ‹_›
  · rename_i h
    have h := scalar?_of_not_isPlain (Bool.not_eq_true _ ▸ h)
    exact readBasic_backslash fuel (by simp [readEscape, h])

/-- A written string is read back, whatever follows it. -/
theorem readBasic_flatMap_escape (s : List Char) (fuel : Nat) (rest : List Char)
    (h : s.length < fuel) :
    readBasic fuel (s.flatMap escape ++ '"' :: rest) = some (s, rest) := by
  induction s generalizing fuel with
  | nil =>
    obtain ⟨fuel, rfl⟩ : ∃ n, fuel = n + 1 := ⟨fuel - 1, by simp at h; omega⟩
    rfl
  | cons c s ih =>
    obtain ⟨fuel, rfl⟩ : ∃ n, fuel = n + 1 := ⟨fuel - 1, by simp at h; omega⟩
    have := ih fuel (by simpa using h)
    simp [List.flatMap_cons, readBasic_escape_append, this]

end NodeGraph.Toml
