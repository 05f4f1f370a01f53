import RubyServer.Feature.Folding
import RubyServer.Feature.Format
import RubyServer.Feature.Highlight
import RubyServer.Feature.Outline
import RubyServer.Json.Basic
import RubyServer.Notice

/-!
# Values of the protocol

How places, notices and the answers of the features are written for the editor. Enumerations are sent as the
protocol's numbers.
-/

namespace RubyServer

/-- A text as a string. -/
def Text.toJson (t : Text) : Json := .str (String.ofList t)

/-- A position. -/
def Position.toJson (p : Position) : Json := .obj [("line", .nat p.line), ("character", .nat p.character)]

/-- A range. -/
def Range.toJson (r : Range) : Json := .obj [("start", r.start.toJson), ("end", r.stop.toJson)]

/-- The protocol's number of a severity. Conventions are sent as information. -/
def Severity.code : Severity → Nat
  | .error => 1
  | .warning => 2
  | .convention => 3
  | .hint => 4

/-- A notice. -/
def Notice.toJson (n : Notice) : Json :=
  .obj
    [("range", n.range.toJson), ("severity", .nat n.severity.code), ("code", .str n.code),
      ("source", .str Notice.origin), ("message", .str n.message)]

/-- The protocol's number of a usage. -/
def Usage.code : Usage → Nat
  | .read => 2
  | .write => 3

/-- A highlight. -/
def Highlight.toJson (h : Highlight) : Json := .obj [("range", h.range.toJson), ("kind", .nat h.usage.code)]

/-- The protocol's name of a kind of fold. -/
def FoldKind.name : FoldKind → String
  | .region => "region"
  | .comment => "comment"

/-- A fold. -/
def Fold.toJson (f : Fold) : Json :=
  .obj [("startLine", .nat f.startLine), ("endLine", .nat f.endLine), ("kind", .str f.kind.name)]

/-- The protocol's number of a kind of symbol. -/
def SymbolKind.code : SymbolKind → Nat
  | .moduleDef => 2
  | .singletonClass => 3
  | .classDef => 5
  | .method => 6
  | .constant => 14

/-- A member that is left out when there is no value. -/
def Json.optionalMember (key : String) (f : α → Json) : Option α → List (String × Json)
  | none => []
  | some a => [(key, f a)]

mutual

/-- A symbol with the symbols inside it. -/
def Symbol.toJson : Symbol → Json
  | .mk name detail kind range selection children =>
    let inside : List (String × Json) := if children.isEmpty then [] else [("children", .arr (Symbol.allToJson children))]
    .obj
      ([("name", Text.toJson name), ("kind", .nat kind.code), ("range", range.toJson),
        ("selectionRange", selection.toJson)] ++ Json.optionalMember "detail" Text.toJson detail ++ inside)

/-- Several symbols with the symbols inside them. -/
def Symbol.allToJson : List Symbol → List Json
  | [] => []
  | symbol :: rest => Symbol.toJson symbol :: Symbol.allToJson rest

end

/-- A symbol of a flat list. -/
def FlatSymbol.toJson (s : FlatSymbol) : Json :=
  .obj
    ([("name", Text.toJson s.name), ("kind", .nat s.kind.code),
      ("location", .obj [("uri", .str s.uri), ("range", s.range.toJson)])]
      ++ Json.optionalMember "containerName" Text.toJson s.container)

/-- An edit. -/
def TextEdit.toJson (e : TextEdit) : Json := .obj [("range", e.range.toJson), ("newText", Text.toJson e.newText)]

end RubyServer
