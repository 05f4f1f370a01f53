import RubyServer.Protocol.Abilities

/-!
# Capabilities

What the client says it can do, as far as it matters to the server, and what the server offers in return.
-/

namespace RubyServer

/-- The abilities of a client that the server makes use of. -/
structure ClientFeatures where
  configuration : Bool := false
  workspaceFolders : Bool := false
  dynamicConfiguration : Bool := false
  hierarchicalSymbols : Bool := false
  deriving DecidableEq, Repr, Inhabited

namespace ClientFeatures

/-- Reads the client's account of itself; an ability that the client does not speak of is off. -/
def read? (client : Json) : Option ClientFeatures :=
  if Shape.record Abilities.client client then
    let flag (fields : List Slot) (key : String) (group : Option Json) : Bool :=
      ((group.bind (Slot.get? fields key)).bind Json.bool?).getD false
    let workspace := Slot.get? Abilities.client "workspace" client
    let settings := workspace.bind (Slot.get? Abilities.workspace "didChangeConfiguration")
    let documents := Slot.get? Abilities.client "textDocument" client
    let outlines := documents.bind (Slot.get? Abilities.documents "documentSymbol")
    some
      { configuration := flag Abilities.workspace "configuration" workspace
        workspaceFolders := flag Abilities.workspace "workspaceFolders" workspace
        dynamicConfiguration := flag Abilities.settings "dynamicRegistration" settings
        hierarchicalSymbols := flag Abilities.outlines "hierarchicalDocumentSymbolSupport" outlines }
  else none

/-- What the server offers: incremental synchronisation and four features to every client, and news of workspace folders
to those that have them. -/
def serverCapabilities (client : ClientFeatures) : Json :=
  let offered : List (String × Json) :=
    [("textDocumentSync", .obj [("openClose", .bool true), ("change", .int 2)]),
      ("documentHighlightProvider", .bool true), ("foldingRangeProvider", .bool true),
      ("documentSymbolProvider", .bool true), ("documentFormattingProvider", .bool true)]
  let folders : List (String × Json) :=
    if client.workspaceFolders then
      [("workspace", .obj [("workspaceFolders", .obj [("supported", .bool true), ("changeNotifications", .bool true)])])]
    else []
  .obj (offered ++ folders)

end ClientFeatures

end RubyServer
