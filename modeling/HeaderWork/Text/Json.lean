import HeaderWork.Text.Hex

/-!
# Lists of numbers and names in JSON

Just enough JSON to read a list of natural numbers, or a name that stands alone or as the only key
of an object whose value is null. Blanks may stand around every token.

* `Token`, `lex` — a text as tokens.
* `numbers?` — a whole text that is a list of natural numbers.
* `name?` — a whole text that is a name.
* `listText`, `nameText` — the compact spelling of each.
-/

namespace HeaderWork.Json

/-! ## Characters -/

def isBlank (c : Char) : Bool := c = ' ' || c = '\t' || c = '\n' || c = '\r'

/-- The number that a hexadecimal digit stands for. -/
def hexValue? (c : Char) : Option Nat :=
  if c.toNat < 128 then Hex.value? (.ofNat c.toNat) else none

/-- The character of an escape by number. Halves of a surrogate pair are refused: no name that is
read here holds a character beyond the first plane. -/
def byNumber? (a b c d : Char) : Option Char :=
  match hexValue? a, hexValue? b, hexValue? c, hexValue? d with
  | some a, some b, some c, some d =>
    let n := ((a * 16 + b) * 16 + c) * 16 + d
    if 0xD800 ≤ n ∧ n < 0xE000 then none else some (Char.ofNat n)
  | _, _, _, _ => none

def byLetter? : Char → Option Char
  | '"' => some '"'
  | '\\' => some '\\'
  | '/' => some '/'
  | 'b' => some '\x08'
  | 'f' => some '\x0c'
  | 'n' => some '\n'
  | 'r' => some '\r'
  | 't' => some '\t'
  | _ => none

/-! ## Tokens -/

/-- The tokens that the two shapes are made of. -/
inductive Token where
  | openList
  | closeList
  | openObject
  | closeObject
  | comma
  | colon
  | null
  | number (n : Nat)
  | text (t : List Char)
deriving DecidableEq, Repr

/-- The rest of a text behind its opening quote: what it says, and what follows the closing quote.
A bare control character is refused. -/
def textBody? : List Char → Option (List Char × List Char)
  | [] => none
  | '"' :: rest => some ([], rest)
  | '\\' :: 'u' :: a :: b :: c :: d :: rest =>
    match byNumber? a b c d, textBody? rest with
    | some x, some (t, after) => some (x :: t, after)
    | _, _ => none
  | '\\' :: e :: rest =>
    match byLetter? e, textBody? rest with
    | some x, some (t, after) => some (x :: t, after)
    | _, _ => none
  | c :: rest =>
    if c.toNat < 32 ∨ c = '\\' then none
    else
      match textBody? rest with
      | some (t, after) => some (c :: t, after)
      | none => none

theorem length_lt_of_textBody? {s t after : List Char} (h : textBody? s = some (t, after)) :
    after.length < s.length := by
  fun_induction textBody? s generalizing t after <;> simp_all <;> grind

/-- The number that decimal digits spell. -/
def decimal (ds : List Char) : Nat := ds.foldl (fun n c => 10 * n + (c.toNat - 48)) 0

/-- The token of a character that is one by itself. -/
def punctuation? : Char → Option Token
  | '[' => some .openList
  | ']' => some .closeList
  | '{' => some .openObject
  | '}' => some .closeObject
  | ',' => some .comma
  | ':' => some .colon
  | _ => none

/-- The first token of a text that does not start with a blank, and the rest. A number has no
leading zero, no sign and no fraction. -/
def token? (c : Char) (rest : List Char) : Option (Token × List Char) :=
  match punctuation? c with
  | some t => some (t, rest)
  | none =>
    if c = '"' then (textBody? rest).map fun p => (.text p.1, p.2)
    else if c = '0' then some (.number 0, rest)
    else if c.isDigit then
      some (.number (decimal (c :: rest.takeWhile Char.isDigit)), rest.dropWhile Char.isDigit)
    else if c = 'n' ∧ rest.take 3 = ['u', 'l', 'l'] then some (.null, rest.drop 3)
    else none

theorem length_le_of_token? {c : Char} {rest after : List Char} {t : Token}
    (h : token? c rest = some (t, after)) : after.length ≤ rest.length := by
  have hdrop : (rest.dropWhile Char.isDigit).length ≤ rest.length :=
    (List.dropWhile_suffix _).length_le
  unfold token? at h
  split at h
  · grind
  · split at h
    · obtain ⟨⟨said, behind⟩, hp, he⟩ := Option.map_eq_some_iff.1 h
      have := length_lt_of_textBody? hp
      grind
    · grind [List.length_drop]

/-- All tokens of a text; none when some of it is no token. -/
def lex : List Char → Option (List Token)
  | [] => some []
  | c :: rest =>
    if isBlank c then lex rest
    else
      match _h : token? c rest with
      | none => none
      | some (t, after) => (lex after).map (t :: ·)
termination_by s => s.length
decreasing_by
  · simp
  · have := length_le_of_token? _h
    simp
    omega

/-! ## Lists of numbers -/

/-- The tokens behind the first number of a list. -/
def moreNumbers? : List Token → Option (List Nat)
  | [.closeList] => some []
  | .comma :: .number n :: rest => (moreNumbers? rest).map (n :: ·)
  | _ => none

/-- A whole text that is a list of natural numbers. -/
def numbers? (text : String) : Option (List Nat) :=
  match lex text.toList with
  | some [.openList, .closeList] => some []
  | some (.openList :: .number n :: rest) => (moreNumbers? rest).map (n :: ·)
  | _ => none

/-- A list of natural numbers without blanks. -/
def listText (ns : List Nat) : String :=
  "[" ++ String.intercalate "," (ns.map toString) ++ "]"

/-! ## Names -/

/-- A whole text that is a name, alone or as the only key of an object. -/
def name? (text : String) : Option String :=
  match lex text.toList with
  | some [.text t] => some (String.ofList t)
  | some [.openObject, .text t, .colon, .null, .closeObject] => some (String.ofList t)
  | _ => none

/-- A name in quotes, for names that need no escape. -/
def nameText (name : String) : String := "\"" ++ name ++ "\""

end HeaderWork.Json
