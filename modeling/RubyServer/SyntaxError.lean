import RubyServer.Span

/-!
# Syntax errors

What a parse reports about a text it could not read: something unexpected, a missing token, or a failure of the parser
itself.
-/

namespace RubyServer

/-- What went wrong. -/
inductive SyntaxErrorKind where
  | unexpected
  | missing (token : String)
  | internal
  deriving DecidableEq, Repr

namespace SyntaxErrorKind

/-- Whether a token is missing. -/
def isMissing : SyntaxErrorKind → Bool
  | .missing _ => true
  | _ => false

/-- The name of a kind in reports. -/
def name : SyntaxErrorKind → String
  | .unexpected => "UnexpectedSyntax"
  | .missing _ => "MissingSyntax"
  | .internal => "ParserFailure"

end SyntaxErrorKind

/-- One error of a parse. -/
structure SyntaxError where
  kind : SyntaxErrorKind
  message : String
  span : Span
  deriving DecidableEq, Repr

namespace SyntaxError

/-- Something that does not belong where it stands. -/
def unexpected (message : String) (span : Span) : SyntaxError := ⟨.unexpected, message, span⟩

/-- A token that should stand there. -/
def missing (token : String) (span : Span) : SyntaxError := ⟨.missing token, s!"missing `{token}`", span⟩

/-- A failure of the parser, which has no place in the text. -/
def internal (message : String) : SyntaxError := ⟨.internal, message, .zero⟩

/-- An error on one line. -/
def display (e : SyntaxError) : String :=
  let kind := e.kind.name
  let span := e.span.display
  let message := e.message
  s!"{kind} at {span}: {message}"

end SyntaxError

end RubyServer
