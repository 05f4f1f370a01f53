import RubyServer.Document.Lines

/-!
# Changes to a document

A change replaces a range of a document, or the whole of it. Changes that come together are applied one after the
other, each to the text the ones before it have made.
-/

namespace RubyServer

/-- A replacement of a range, or of the whole document. -/
structure Change where
  range : Option Range
  text : Text
  deriving DecidableEq, Repr

namespace Change

/-- The text with the characters from `start` up to `stop` replaced. -/
def splice (t : Text) (start stop : Nat) (new : Text) : Text := t.take start ++ new ++ t.drop stop

/-- The text after a change. -/
def apply (t : Text) (c : Change) : Except RangeFault Text :=
  match c.range with
  | none => .ok c.text
  | some range => do
    let start ← Document.offset? t range.start
    let stop ← Document.offset? t range.stop
    if stop < start then .error (.reversed range) else .ok (splice t start stop c.text)

/-- The text after several changes. -/
def applyAll (t : Text) : List Change → Except RangeFault Text
  | [] => .ok t
  | c :: cs => do applyAll (← c.apply t) cs

end Change

end RubyServer
