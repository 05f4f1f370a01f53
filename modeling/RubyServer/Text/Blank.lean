import RubyServer.Text.Basic

/-!
# Blanks

Two notions of blank: the characters with the Unicode property `White_Space` (`isBlank`), and the two blanks that
make up indentation and trailing whitespace, the space and the tab (`isPadding`).
-/

namespace RubyServer

/-- The code points with the property `White_Space`, as ranges. -/
def whiteSpaceRanges : List (Nat × Nat) :=
  [(0x09, 0x0d), (0x20, 0x20), (0x85, 0x85), (0xa0, 0xa0), (0x1680, 0x1680), (0x2000, 0x200a), (0x2028, 0x2029),
    (0x202f, 0x202f), (0x205f, 0x205f), (0x3000, 0x3000)]

/-- Whether a character has the property `White_Space`. -/
def isBlank (c : Char) : Bool := whiteSpaceRanges.any fun (low, high) => low ≤ c.toNat && c.toNat ≤ high

/-- Whether a character is a space or a tab. -/
def isPadding (c : Char) : Bool := c == ' ' || c == '\t'

namespace Text

/-- The text without blanks at either end. -/
def trim (t : Text) : Text := trimEnd isBlank (trimStart isBlank t)

/-- The leading spaces and tabs of a line. -/
def indentation (line : Text) : Text := line.takeWhile isPadding

/-- The line without the spaces and tabs at its end. -/
def trimPadding (line : Text) : Text := trimEnd isPadding line

end Text

end RubyServer
