/-!
# Texts

A text is the list of its characters. Offsets come in three currencies: characters (the length of a list), UTF-8
bytes (`byteSize`) and UTF-16 code units (`Text.unitSize`, in the next module). Byte offsets may fall inside a
character: `takeBytes` then keeps the whole characters before the offset, while `slice?` refuses the offset.
-/

namespace RubyServer

/-- A text, character by character. -/
abbrev Text := List Char

namespace Text

/-- The number of UTF-8 bytes of a text. -/
def byteSize : Text → Nat
  | [] => 0
  | c :: t => c.utf8Size + byteSize t

/-- The longest run of whole characters at the start of a text that takes at most `n` bytes. -/
def takeBytes (n : Nat) : Text → Text
  | [] => []
  | c :: t => if c.utf8Size ≤ n then c :: takeBytes (n - c.utf8Size) t else []

/-- What is left of a text after its first `n` bytes, unless these end inside a character or past the end. -/
def dropBytes? (n : Nat) : Text → Option Text
  | [] => if n = 0 then some [] else none
  | c :: t => if n = 0 then some (c :: t) else if c.utf8Size ≤ n then dropBytes? (n - c.utf8Size) t else none

/-- The first `n` bytes of a text, unless these end inside a character or past the end. -/
def takeBytes? (n : Nat) : Text → Option Text
  | [] => if n = 0 then some [] else none
  | c :: t =>
    if n = 0 then some []
    else if c.utf8Size ≤ n then (takeBytes? (n - c.utf8Size) t).map (c :: ·) else none

/-- The characters between two byte offsets, where both are character boundaries in order. -/
def slice? (start stop : Nat) (t : Text) : Option Text :=
  if start ≤ stop then (dropBytes? start t).bind (takeBytes? (stop - start)) else none

/-- Whether `part` occurs somewhere in a text. -/
def includes (part : Text) : Text → Bool
  | [] => part.isEmpty
  | c :: t => part.isPrefixOf (c :: t) || includes part t

/-- Whether the text ends with the character `c`. -/
def endsWith (c : Char) (t : Text) : Bool := t.getLast? == some c

/-- The text without the longest run at its end of characters that satisfy `p`. -/
def trimEnd (p : Char → Bool) (t : Text) : Text := (t.reverse.dropWhile p).reverse

/-- The text without the longest run at its start of characters that satisfy `p`. -/
def trimStart (p : Char → Bool) (t : Text) : Text := t.dropWhile p

/-- The text without its last character if that is `c`. -/
def dropFinal (c : Char) (t : Text) : Text := if t.endsWith c then t.dropLast else t

/-- The pieces of a text between the occurrences of a separator: one more than there are occurrences. -/
def split (separator : Char) : Text → List Text
  | [] => [[]]
  | c :: t =>
    if c = separator then [] :: split separator t
    else
      match split separator t with
      | [] => [[c]]
      | piece :: pieces => (c :: piece) :: pieces

/-- The value of a hexadecimal digit. -/
def hexDigit? (c : Char) : Option Nat :=
  if '0' ≤ c ∧ c ≤ '9' then some (c.toNat - '0'.toNat)
  else if 'a' ≤ c ∧ c ≤ 'f' then some (c.toNat - 'a'.toNat + 10)
  else if 'A' ≤ c ∧ c ≤ 'F' then some (c.toNat - 'A'.toNat + 10)
  else none

/-- The number that a text writes in a base up to sixteen; the empty text writes zero. -/
def numeral? (base : Nat) (digits : Text) : Option Nat :=
  digits.foldlM (fun n c => ((hexDigit? c).filter (· < base)).map fun d => n * base + d) 0

end Text

end RubyServer
