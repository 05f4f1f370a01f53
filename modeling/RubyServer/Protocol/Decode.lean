import RubyServer.Capabilities
import RubyServer.Json.Basic
import RubyServer.Settings
import RubyServer.Store

/-!
# Parameters of the protocol

How the parameters of the editor's requests and notifications are read. A reader gives nothing when a field that is
needed is missing or a field has the wrong type; fields that nobody asks for are ignored. A record may be given as the
list of its fields, except for the parameters of requests.
-/

namespace RubyServer

namespace Json

/-! ## Records -/

/-- The name of a document. -/
def uri? (v : Json) : Option Uri := v.str?.filter Uri.isValid

/-- A text. -/
def text? (v : Json) : Option Text := v.str?.map String.toList

/-- A position. -/
def position? (v : Json) : Option Position := do
  let v := v.named ["line", "character"]
  return ⟨← v.field? "line" word32?, ← v.field? "character" word32?⟩

/-- A range. -/
def range? (v : Json) : Option Range := do
  let v := v.named ["start", "end"]
  return ⟨← v.field? "start" position?, ← v.field? "end" position?⟩

/-- A change to a document. -/
def change? (v : Json) : Option Change := do
  let v := v.named ["range", "rangeLength", "text"]
  let range ← v.optionalField? "range" range?
  let _ ← v.optionalField? "rangeLength" word32?
  return ⟨range, ← v.field? "text" text?⟩

/-- A document that is opened. -/
def documentItem? (v : Json) : Option DocumentItem := do
  let v := v.named ["uri", "languageId", "version", "text"]
  return ⟨← v.field? "uri" uri?, ← v.field? "version" int32?, ← v.field? "languageId" str?, ← v.field? "text" text?⟩

/-- A reference to a document. -/
def documentId? (v : Json) : Option Uri := (v.named ["uri"]).field? "uri" uri?

/-- A reference to a version of a document. -/
def versionedId? (v : Json) : Option (Uri × Int) := do
  let v := v.named ["uri", "version"]
  return (← v.field? "uri" uri?, ← v.field? "version" int32?)

/-- A folder of the workspace. -/
def folder? (v : Json) : Option Uri := do
  let v := v.named ["uri", "name"]
  let _ ← v.field? "name" str?
  v.field? "uri" uri?

/-- Who the client says it is. -/
def clientInfo? (v : Json) : Option String := do
  let v := v.named ["name", "version"]
  let _ ← v.optionalField? "version" str?
  v.field? "name" str?

/-- A number or a string, as progress is reported under and requests are cancelled by. -/
def isToken : Json → Bool
  | .str _ => true
  | v => v.int32?.isSome

/-- An extra formatting option. -/
def isFormattingOption : Json → Bool
  | .bool _ => true
  | v => v.isToken

/-- The editor's own formatting options. -/
def isFormattingOptions (v : Json) : Bool :=
  let known := ["tabSize", "insertSpaces", "trimTrailingWhitespace", "insertFinalNewline", "trimFinalNewlines"]
  match v with
  | .obj members =>
    (v.field? "tabSize" word32?).isSome
      && (v.field? "insertSpaces" bool?).isSome
      && (v.optionalField? "trimTrailingWhitespace" bool?).isSome
      && (v.optionalField? "insertFinalNewline" bool?).isSome
      && (v.optionalField? "trimFinalNewlines" bool?).isSome
      && members.all fun m => known.contains m.1 || m.2.isFormattingOption
  | _ => false

/-! ## Parameters of requests -/

/-- Whether the tokens of a request are tokens: that of its progress and, if it may be answered in `parts`, that of its
parts. -/
def hasTokens (v : Json) (parts : Bool) : Bool :=
  let fits (key : String) : Bool := (v.getSome? key).all isToken
  fits "workDoneToken" && (!parts || fits "partialResultToken")

/-- The document that a request is about. -/
def documentParams? (v : Json) : Option Uri := if v.hasTokens true then v.field? "textDocument" documentId? else none

/-- The place that a request is about. -/
def placeParams? (v : Json) : Option (Uri × Position) := do
  return (← v.documentParams?, ← v.field? "position" position?)

/-- The parameters of a request to format. The editor's own options have to be there, but settings count. -/
def formattingParams? (v : Json) : Option Uri :=
  if v.hasTokens false && (v.get? "options").any isFormattingOptions then v.field? "textDocument" documentId? else none

/-- The parameters of the first request: what the client can do, and the options to run with. -/
def openingParams? (v : Json) : Option (ClientFeatures × Options) := do
  let v :=
    v.named
      ["processId", "rootPath", "rootUri", "initializationOptions", "capabilities", "trace", "workspaceFolders",
        "clientInfo", "locale"]
  let client ← v.field? "capabilities" ClientFeatures.read?
  let _ ← v.optionalField? "processId" word32?
  let _ ← v.optionalField? "rootPath" str?
  let _ ← v.optionalField? "rootUri" uri?
  let _ ← v.optionalField? "locale" str?
  let _ ← v.optionalField? "trace" fun t => some t |>.filter (Shape.choice ["off", "messages", "verbose"])
  let _ ← v.optionalField? "workspaceFolders" (listOf? folder?)
  let _ ← v.optionalField? "clientInfo" clientInfo?
  return (client, .read (v.getSome? "initializationOptions"))

/-! ## Parameters of notifications -/

/-- The parameters of an opening. -/
def openParams? (v : Json) : Option DocumentItem := (v.named ["textDocument"]).field? "textDocument" documentItem?

/-- The parameters of a change. -/
def changeParams? (v : Json) : Option (Uri × Int × List Change) := do
  let v := v.named ["textDocument", "contentChanges"]
  let (uri, version) ← v.field? "textDocument" versionedId?
  return (uri, version, ← v.field? "contentChanges" (listOf? change?))

/-- The parameters of a closing. -/
def closeParams? (v : Json) : Option Uri := (v.named ["textDocument"]).field? "textDocument" documentId?

/-- The parameters of news about settings. -/
def settingsParams? (v : Json) : Option Json := (v.named ["settings"]).get? "settings"

/-- The parameters of news about the folders of the workspace: those added and those removed. -/
def foldersParams? (v : Json) : Option (List Uri × List Uri) :=
  (v.named ["event"]).field? "event" fun e => do
    let e := e.named ["added", "removed"]
    return (← e.field? "added" (listOf? folder?), ← e.field? "removed" (listOf? folder?))

end Json

end RubyServer
