import RubyServer.Json.Basic
import RubyServer.Text.Basic

/-!
# Reading JSON

`Json.parse?` reads one value that fills a text, apart from blanks around it. The reader is a recursive descent whose
depth is bounded by the length of the text: every call consumes a character.
-/

namespace RubyServer.Json

/-- The blanks of JSON. -/
def isSpace (c : Char) : Bool := c == ' ' || c == '\n' || c == '\r' || c == '\t'

/-- A piece of a string as written: a character, or a code unit given by its number. -/
inductive Piece where
  | char (c : Char)
  | unit (n : Nat)

/-- The value of four hexadecimal digits. -/
def hex4? (a b c d : Char) : Option Nat := Text.numeral? 16 [a, b, c, d]

/-- The character that a backslash and a letter stand for. -/
def escaped? : Char → Option Char
  | '"' => some '"'
  | '\\' => some '\\'
  | '/' => some '/'
  | 'b' => some '\x08'
  | 'f' => some '\x0c'
  | 'n' => some '\n'
  | 'r' => some '\r'
  | 't' => some '\t'
  | _ => none

/-- The pieces of a string up to its closing quote, and the text after that. -/
def pieces? : Text → Option (List Piece × Text)
  | [] => none
  | '"' :: rest => some ([], rest)
  | '\\' :: 'u' :: a :: b :: c :: d :: rest => do
    let n ← hex4? a b c d
    let (ps, rest) ← pieces? rest
    return (.unit n :: ps, rest)
  | '\\' :: e :: rest => do
    let c ← escaped? e
    let (ps, rest) ← pieces? rest
    return (.char c :: ps, rest)
  | c :: rest =>
    if c.toNat < 0x20 ∨ c = '\\' then none
    else do
      let (ps, rest) ← pieces? rest
      return (.char c :: ps, rest)

/-- The characters of a list of pieces: two surrogate units make one character, and none stands alone. -/
def joinPieces? : List Piece → Option Text
  | [] => some []
  | .char c :: rest => (joinPieces? rest).map (c :: ·)
  | .unit high :: .unit low :: rest =>
    if 0xd800 ≤ high ∧ high < 0xdc00 then
      if 0xdc00 ≤ low ∧ low < 0xe000 then
        (joinPieces? rest).map (Char.ofNat (0x10000 + (high - 0xd800) * 0x400 + (low - 0xdc00)) :: ·)
      else none
    else if 0xdc00 ≤ high ∧ high < 0xe000 then none
    else (joinPieces? (.unit low :: rest)).map (Char.ofNat high :: ·)
  | .unit n :: rest =>
    if 0xd800 ≤ n ∧ n < 0xe000 then none else (joinPieces? rest).map (Char.ofNat n :: ·)

/-- The string after an opening quote, and the text after it. -/
def string? (t : Text) : Option (String × Text) := do
  let (ps, rest) ← pieces? t
  let chars ← joinPieces? ps
  return (String.ofList chars, rest)

/-- The characters that numbers are written with. -/
def isNumeral (c : Char) : Bool := c.isDigit || c == '-' || c == '+' || c == '.' || c == 'e' || c == 'E'

/-- The value of a run of decimal digits. -/
def digitsValue (t : Text) : Nat := t.foldl (fun n c => 10 * n + (c.toNat - '0'.toNat)) 0

/-- A number as written. Integers outside 64 bits and the negative zero are not integers. -/
def number? (t : Text) : Option Json :=
  match t with
  | [] => none
  | '-' :: digits =>
    if digits.isEmpty then none
    else if digits.all Char.isDigit ∧ 0 < digitsValue digits ∧ digitsValue digits ≤ 0x8000000000000000 then
      some (.int (-(digitsValue digits : Int)))
    else some (.real (String.ofList t))
  | digits =>
    if digits.all Char.isDigit ∧ digitsValue digits < UInt64.size then some (.int (digitsValue digits))
    else some (.real (String.ofList t))

mutual

/-- Reads one value after blanks. -/
def value? : Nat → Text → Option (Json × Text)
  | 0, _ => none
  | fuel + 1, t =>
    match t.dropWhile isSpace with
    | [] => none
    | '"' :: rest => do
      let (s, rest) ← string? rest
      return (.str s, rest)
    | '[' :: rest =>
      match rest.dropWhile isSpace with
      | ']' :: rest => some (.arr [], rest)
      | rest => do
        let (items, rest) ← items? fuel rest
        return (.arr items, rest)
    | '\x7b' :: rest =>
      match rest.dropWhile isSpace with
      | '\x7d' :: rest => some (.obj [], rest)
      | rest => do
        let (members, rest) ← members? fuel rest
        return (.obj members, rest)
    | 'n' :: 'u' :: 'l' :: 'l' :: rest => some (.null, rest)
    | 't' :: 'r' :: 'u' :: 'e' :: rest => some (.bool true, rest)
    | 'f' :: 'a' :: 'l' :: 's' :: 'e' :: rest => some (.bool false, rest)
    | numeral => do
      let n ← number? (numeral.takeWhile isNumeral)
      return (n, numeral.dropWhile isNumeral)

/-- Reads the items of an array up to its closing bracket. -/
def items? : Nat → Text → Option (List Json × Text)
  | 0, _ => none
  | fuel + 1, t => do
    let (v, rest) ← value? fuel t
    match rest.dropWhile isSpace with
    | ',' :: rest => do
      let (vs, rest) ← items? fuel rest
      return (v :: vs, rest)
    | ']' :: rest => return ([v], rest)
    | _ => none

/-- Reads the members of an object up to its closing brace. -/
def members? : Nat → Text → Option (List (String × Json) × Text)
  | 0, _ => none
  | fuel + 1, t =>
    match t.dropWhile isSpace with
    | '"' :: rest => do
      let (key, rest) ← string? rest
      match rest.dropWhile isSpace with
      | ':' :: rest => do
        let (v, rest) ← value? fuel rest
        match rest.dropWhile isSpace with
        | ',' :: rest => do
          let (ms, rest) ← members? fuel rest
          return ((key, v) :: ms, rest)
        | '\x7d' :: rest => return ([(key, v)], rest)
        | _ => none
      | _ => none
    | _ => none

end

/-- The value that a text writes. -/
def parse? (t : Text) : Option Json :=
  match value? (t.length + 1) t with
  | some (v, rest) => if rest.all isSpace then some v else none
  | none => none

end RubyServer.Json
