import RubyServer.Protocol.Decode

/-!
# Methods without an answer

The methods of the protocol that this server leaves unanswered. They are known, so that they are refused for the right
reason: a request whose parameters lack something is malformed, and one with good parameters asks for a method that
is not there.
-/

namespace RubyServer

namespace Shape

/-- The name of a document. -/
def uri : Shape := fun v => v.uri?.isSome

/-- A position. -/
def position : Shape := fun v => v.position?.isSome

/-- A range. -/
def range : Shape := fun v => v.range?.isSome

/-- A number or a string. -/
def token : Shape := Json.isToken

open Slot

/-- A place in some document. -/
def location : Shape := record [needed "uri" uri, needed "range" range]

/-- A text in plain letters, or marked up. -/
def prose : Shape :=
  either text (record [needed "kind" (choice ["plaintext", "markdown"]), needed "value" text])

/-- A command of the editor. -/
def command : Shape := record [needed "title" text, needed "command" text, optional "arguments" (list anything)]

/-! ## Edits -/

/-- A replacement of a stretch of text. -/
def edit : Shape := record [needed "range" range, needed "newText" text]

/-- Edits of one version of a document. -/
def documentEdits : Shape :=
  record
    [needed "textDocument" (record [needed "uri" uri, optional "version" integer]), needed "edits" (list edit)]

/-- What is done to a file, by the kind of the operation. -/
def fileOperation (kind : String) : Option (List Slot) :=
  let options : Slot := optional "options" (record (flags ["overwrite", "ignoreIfExists"]))
  match kind with
  | "create" => some [needed "uri" uri, options, optional "annotationId" text]
  | "rename" => some [needed "oldUri" uri, needed "newUri" uri, options, optional "annotationId" text]
  | "delete" =>
    some
      [needed "uri" uri,
        optional "options" (record (flags ["recursive", "ignoreIfNotExists"] ++ [optional "annotationId" text]))]
  | _ => none

/-- An operation on a file; a list starts with its kind. -/
def operation : Shape
  | .arr (.str kind :: items) => (fileOperation kind).any fun fields => record fields (.arr items)
  | v => ((v.get? "kind").bind Json.str?).any fun kind => (fileOperation kind).any fun fields => object fields v

/-- Edits of the whole workspace. -/
def workspaceEdit : Shape :=
  record
    [defaulted "changes" (orNull (table Uri.isValid (list edit))),
      optional "documentChanges" (list (either operation documentEdits)),
      optional "changeAnnotations"
        (table (fun _ => true)
          (record [needed "label" text, optional "needsConfirmation" flag, optional "description" text]))]

/-! ## Notices and actions -/

/-- A notice in a document. -/
def notice : Shape :=
  record
    [needed "range" range, optional "severity" integer, optional "code" token,
      optional "codeDescription" (record [needed "href" uri]), optional "source" text, needed "message" text,
      optional "relatedInformation" (list (record [needed "location" location, needed "message" text])),
      optional "tags" (list integer), optional "data" anything]

/-- An action that the editor offers. -/
def action : Shape :=
  record
    [needed "title" text, optional "kind" text, optional "diagnostics" (list notice), optional "edit" workspaceEdit,
      optional "command" command, optional "isPreferred" flag,
      optional "disabled" (record [needed "reason" text]), optional "data" anything]

/-- What the editor knows when it asks for actions. -/
def actionContext : Shape :=
  record
    [needed "diagnostics" (list notice), optional "only" (list text), optional "triggerKind" integer]

/-! ## Completion, signatures and hints -/

/-- A proposal for completion. -/
def proposal : Shape :=
  record
    [needed "label" text,
      optional "labelDetails" (record [optional "detail" text, optional "description" text]),
      optional "kind" integer, optional "detail" text, optional "documentation" prose, optional "deprecated" flag,
      optional "preselect" flag, optional "sortText" text, optional "filterText" text, optional "insertText" text,
      optional "insertTextFormat" integer, optional "insertTextMode" integer,
      optional "textEdit"
        (either edit (record [needed "newText" text, needed "insert" range, needed "replace" range])),
      optional "additionalTextEdits" (list edit), optional "command" command,
      optional "commitCharacters" (list text), optional "data" anything, optional "tags" (list integer)]

/-- The label of a parameter: a text, or where it stands in the label of the signature. -/
def parameterLabel : Shape
  | .str _ => true
  | .arr [start, stop] => word start && word stop
  | _ => false

/-- The signatures on show. -/
def signatures : Shape :=
  let parameter : Shape := record [needed "label" parameterLabel, optional "documentation" prose]
  let signature : Shape :=
    record
      [needed "label" text, optional "documentation" prose, optional "parameters" (list parameter),
        optional "activeParameter" word]
  record
    [needed "signatures" (list signature), optional "activeSignature" word, optional "activeParameter" word]

/-- A hint inside a line. -/
def hint : Shape :=
  let part : Shape :=
    record
      [needed "value" text, optional "tooltip" prose, optional "location" location, optional "command" command]
  record
    [needed "position" position, needed "label" (either text (list part)), optional "kind" integer,
      optional "textEdits" (list edit), optional "tooltip" prose, optional "paddingLeft" flag,
      optional "paddingRight" flag, optional "data" anything]

/-! ## Hierarchies and symbols -/

/-- An entry of a hierarchy, with tags of the given shape. -/
def entry (tags : Shape) : Shape :=
  record
    [needed "name" text, needed "kind" integer, optional "tags" tags, optional "detail" text, needed "uri" uri,
      needed "range" range, needed "selectionRange" range, optional "data" anything]

/-- A symbol of the workspace, whose place may be known only as far as the document. -/
def workspaceSymbol : Shape :=
  record
    [needed "name" text, needed "kind" integer, optional "tags" (list integer), optional "containerName" text,
      needed "location" (either location (record [needed "uri" uri])), optional "data" anything]

/-- The parts of a colour. -/
def colour : Shape :=
  record [needed "red" number, needed "green" number, needed "blue" number, needed "alpha" number]

end Shape

section Methods

open Slot Shape

/-- The token under which the progress of a request is reported. -/
def progress : List Slot := [optional "workDoneToken" token]

/-- The tokens of a request that may be answered in parts. -/
def partwise : List Slot := progress ++ [optional "partialResultToken" token]

/-- A document. -/
def aboutDocument : List Slot := [needed "textDocument" (record [needed "uri" uri])]

/-- A place in a document. -/
def aboutPlace : List Slot := aboutDocument ++ [needed "position" position]

/-- A range of a document. -/
def aboutRange : List Slot := aboutDocument ++ [needed "range" range]

/-- The editor's formatting options. -/
def formattingOptions : Slot := needed "options" Json.isFormattingOptions

/-- Files, with strings under some keys. -/
def aboutFiles (keys : List String) : Shape :=
  record [needed "files" (list (record (keys.map fun key => needed key text)))]

/-- The requests that the server does not answer, with the shape of their parameters. -/
def unansweredRequests : List (String × Shape) :=
  [("textDocument/willSaveWaitUntil", record (aboutDocument ++ [needed "reason" integer])),
    ("textDocument/declaration", object (aboutPlace ++ partwise)),
    ("textDocument/definition", object (aboutPlace ++ partwise)),
    ("textDocument/typeDefinition", object (aboutPlace ++ partwise)),
    ("textDocument/implementation", object (aboutPlace ++ partwise)),
    ("textDocument/references",
      object (aboutPlace ++ partwise ++ [needed "context" (record [needed "includeDeclaration" flag])])),
    ("textDocument/prepareCallHierarchy", object (aboutPlace ++ progress)),
    ("callHierarchy/incomingCalls", object (partwise ++ [needed "item" (entry (list integer))])),
    ("callHierarchy/outgoingCalls", object (partwise ++ [needed "item" (entry (list integer))])),
    ("textDocument/prepareTypeHierarchy", object (aboutPlace ++ progress)),
    ("typeHierarchy/supertypes", object (partwise ++ [needed "item" (entry integer)])),
    ("typeHierarchy/subtypes", object (partwise ++ [needed "item" (entry integer)])),
    ("textDocument/documentLink", object (aboutDocument ++ partwise)),
    ("documentLink/resolve",
      record [needed "range" range, optional "target" uri, optional "tooltip" text, optional "data" anything]),
    ("textDocument/hover", object (aboutPlace ++ progress)),
    ("textDocument/codeLens", object (aboutDocument ++ partwise)),
    ("codeLens/resolve",
      record [needed "range" range, optional "command" command, optional "data" anything]),
    ("textDocument/selectionRange",
      object (aboutDocument ++ partwise ++ [needed "positions" (list position)])),
    ("textDocument/semanticTokens/full", object (aboutDocument ++ partwise)),
    ("textDocument/semanticTokens/full/delta",
      object (aboutDocument ++ partwise ++ [needed "previousResultId" text])),
    ("textDocument/semanticTokens/range", object (aboutRange ++ partwise)),
    ("textDocument/inlineValue",
      object
        (aboutRange ++ progress
          ++ [needed "context" (record [needed "frameId" integer, needed "stoppedLocation" range])])),
    ("textDocument/inlayHint", object (aboutRange ++ progress)),
    ("inlayHint/resolve", hint),
    ("textDocument/moniker", object (aboutPlace ++ partwise)),
    ("textDocument/completion",
      object
        (aboutPlace ++ partwise
          ++ [optional "context" (record [needed "triggerKind" integer, optional "triggerCharacter" text])])),
    ("completionItem/resolve", proposal),
    ("textDocument/diagnostic",
      object (aboutDocument ++ partwise ++ [optional "identifier" text, optional "previousResultId" text])),
    ("workspace/diagnostic",
      object
        (partwise
          ++ [optional "identifier" text,
            needed "previousResultIds" (list (record [needed "uri" uri, needed "value" text]))])),
    ("textDocument/signatureHelp",
      object
        (aboutPlace ++ progress
          ++ [optional "context"
              (record
                [needed "triggerKind" integer, optional "triggerCharacter" text, needed "isRetrigger" flag,
                  optional "activeSignatureHelp" signatures])])),
    ("textDocument/codeAction", object (aboutRange ++ partwise ++ [needed "context" actionContext])),
    ("codeAction/resolve", action),
    ("textDocument/documentColor", object (aboutDocument ++ partwise)),
    ("textDocument/colorPresentation", object (aboutRange ++ partwise ++ [needed "color" colour])),
    ("textDocument/rangeFormatting", object (aboutRange ++ progress ++ [formattingOptions])),
    ("textDocument/onTypeFormatting", object (aboutPlace ++ [needed "ch" text, formattingOptions])),
    ("textDocument/rename", object (aboutPlace ++ progress ++ [needed "newName" text])),
    ("textDocument/prepareRename", record aboutPlace),
    ("textDocument/linkedEditingRange", object (aboutPlace ++ progress)),
    ("workspace/symbol", object (partwise ++ [needed "query" text])),
    ("workspaceSymbol/resolve", workspaceSymbol),
    ("workspace/willCreateFiles", aboutFiles ["uri"]),
    ("workspace/willRenameFiles", aboutFiles ["oldUri", "newUri"]),
    ("workspace/willDeleteFiles", aboutFiles ["uri"]),
    ("workspace/executeCommand",
      object (progress ++ [needed "command" text, defaulted "arguments" (list anything)]))]

end Methods

/-- The notifications that the server pays no attention to. -/
def ignoredNotifications : List String :=
  ["textDocument/willSave", "textDocument/didSave", "workspace/didCreateFiles", "workspace/didRenameFiles",
    "workspace/didDeleteFiles", "workspace/didChangeWatchedFiles"]

end RubyServer
