import RubyServer.Protocol.Shape

/-!
# The client's account of itself

The shape of what a client says it can do, group by group. Nearly everything is optional; what is there must be of the
right type, also where the server makes no use of it.
-/

namespace RubyServer.Abilities

open Slot Shape

/-- A group with nothing but the ability to register later. -/
def registration : Shape := record (flags ["dynamicRegistration"])

/-- A group with nothing but the ability to refresh. -/
def refreshing : Shape := record (flags ["refreshSupport"])

/-- A set of numbers of an enumeration. -/
def kinds : Shape := record [optional "valueSet" (list integer)]

/-- The tags that the client knows: a set, or a truth value instead. -/
def tags : Slot := defaulted "tagSupport" (orNull (either flag (record [needed "valueSet" (list integer)])))

/-- The properties that can be looked up later. -/
def lookups : Slot := optional "resolveSupport" (record [needed "properties" (list text)])

/-- The formats of documentation. -/
def formats : Shape := list (choice ["plaintext", "markdown"])

/-! ## Workspaces -/

/-- Edits of the workspace. -/
def edits : Shape :=
  record
    [optional "documentChanges" flag, optional "resourceOperations" (list (choice ["create", "rename", "delete"])),
      optional "failureHandling" (choice ["abort", "transactional", "textOnlyTransactional", "undo"]),
      optional "normalizesLineEndings" flag,
      optional "changeAnnotationSupport" (record (flags ["groupsOnLabel"]))]

/-- Settings. -/
def settings : List Slot := flags ["dynamicRegistration"]

/-- The workspace. -/
def workspace : List Slot :=
  [optional "applyEdit" flag, optional "workspaceEdit" edits, optional "didChangeConfiguration" (record settings),
    optional "didChangeWatchedFiles" (record (flags ["dynamicRegistration", "relativePatternSupport"])),
    optional "symbol" (record (flags ["dynamicRegistration"] ++ [optional "symbolKind" kinds, tags, lookups])),
    optional "executeCommand" registration, optional "workspaceFolders" flag, optional "configuration" flag,
    optional "semanticTokens" refreshing, optional "codeLens" refreshing,
    optional "fileOperations"
      (record
        (flags
          ["dynamicRegistration", "didCreate", "willCreate", "didRename", "willRename", "didDelete", "willDelete"])),
    optional "inlineValue" refreshing, optional "inlayHint" refreshing, optional "diagnostic" refreshing]

/-! ## Documents -/

/-- Items of completion. -/
def completionItem : Shape :=
  record
    (flags ["snippetSupport", "commitCharactersSupport"]
      ++ [optional "documentationFormat" formats]
      ++ flags ["deprecatedSupport", "preselectSupport"]
      ++ [tags, optional "insertReplaceSupport" flag, lookups,
        optional "insertTextModeSupport" (record [needed "valueSet" (list integer)]),
        optional "labelDetailsSupport" flag])

/-- Completion. -/
def completion : Shape :=
  record
    [optional "dynamicRegistration" flag, optional "completionItem" completionItem,
      optional "completionItemKind" kinds, optional "contextSupport" flag, optional "insertTextMode" integer,
      optional "completionList" (record [optional "itemDefaults" (list text)])]

/-- Help on signatures. -/
def signatures : Shape :=
  record
    [optional "dynamicRegistration" flag,
      optional "signatureInformation"
        (record
          [optional "documentationFormat" formats,
            optional "parameterInformation" (record (flags ["labelOffsetSupport"])),
            optional "activeParameterSupport" flag]),
      optional "contextSupport" flag]

/-- Outlines. -/
def outlines : List Slot :=
  [optional "dynamicRegistration" flag, optional "symbolKind" kinds, optional "hierarchicalDocumentSymbolSupport" flag,
    tags]

/-- Jumps to other places. -/
def jumps : Shape := record (flags ["dynamicRegistration", "linkSupport"])

/-- Actions on code. -/
def actions : Shape :=
  record
    ([optional "dynamicRegistration" flag,
        optional "codeActionLiteralSupport"
          (record [needed "codeActionKind" (record [needed "valueSet" (list text)])])]
      ++ flags ["isPreferredSupport", "disabledSupport", "dataSupport"]
      ++ [lookups, optional "honorsChangeAnnotations" flag])

/-- Renaming. -/
def renames : Shape :=
  record
    (flags ["dynamicRegistration", "prepareSupport"]
      ++ [optional "prepareSupportDefaultBehavior" integer, optional "honorsChangeAnnotations" flag])

/-- Notices. -/
def notices : Shape :=
  record
    ([optional "relatedInformation" flag, tags] ++ flags ["versionSupport", "codeDescriptionSupport", "dataSupport"])

/-- Folds. -/
def folds : Shape :=
  record
    [optional "dynamicRegistration" flag, optional "rangeLimit" word, optional "lineFoldingOnly" flag,
      optional "foldingRangeKind" (record [optional "valueSet" (list (choice ["comment", "imports", "region"]))]),
      optional "foldingRange" (record (flags ["collapsedText"]))]

/-- Highlighting by meaning. -/
def semanticTokens : Shape :=
  record
    ([optional "dynamicRegistration" flag,
        needed "requests"
          (record [optional "range" flag, optional "full" (either flag (object (flags ["delta"])))]),
        needed "tokenTypes" (list text), needed "tokenModifiers" (list text), needed "formats" (list text)]
      ++ flags ["overlappingTokenSupport", "multilineTokenSupport", "serverCancelSupport", "augmentsSyntaxTokens"])

/-- Documents. -/
def documents : List Slot :=
  [optional "synchronization" (record (flags ["dynamicRegistration", "willSave", "willSaveWaitUntil", "didSave"])),
    optional "completion" completion,
    optional "hover" (record [optional "dynamicRegistration" flag, optional "contentFormat" formats]),
    optional "signatureHelp" signatures, optional "references" registration,
    optional "documentHighlight" registration, optional "documentSymbol" (record outlines),
    optional "formatting" registration, optional "rangeFormatting" registration,
    optional "onTypeFormatting" registration, optional "declaration" jumps, optional "definition" jumps,
    optional "typeDefinition" jumps, optional "implementation" jumps, optional "codeAction" actions,
    optional "codeLens" registration,
    optional "documentLink" (record (flags ["dynamicRegistration", "tooltipSupport"])),
    optional "colorProvider" registration, optional "rename" renames, optional "publishDiagnostics" notices,
    optional "foldingRange" folds, optional "selectionRange" registration,
    optional "linkedEditingRange" registration, optional "callHierarchy" registration,
    optional "semanticTokens" semanticTokens, optional "moniker" registration, optional "typeHierarchy" registration,
    optional "inlineValue" registration,
    optional "inlayHint" (record [optional "dynamicRegistration" flag, lookups]),
    optional "diagnostic" (record (flags ["dynamicRegistration", "relatedDocumentSupport"]))]

/-! ## The client as a whole -/

/-- The editor's window. -/
def window : Shape :=
  record
    [optional "workDoneProgress" flag,
      optional "showMessage"
        (record [optional "messageActionItem" (record (flags ["additionalPropertiesSupport"]))]),
      optional "showDocument" (record [needed "support" flag])]

/-- Things that belong to no group. -/
def general : Shape :=
  record
    [optional "regularExpressions" (record [needed "engine" text, optional "version" text]),
      optional "markdown"
        (record [needed "parser" text, optional "version" text, optional "allowedTags" (list text)]),
      optional "staleRequestSupport"
        (record [needed "cancel" flag, needed "retryOnContentModified" (list text)]),
      optional "positionEncodings" (list text)]

/-- Everything that a client says about itself. -/
def client : List Slot :=
  [optional "workspace" (record workspace), optional "textDocument" (record documents), optional "window" window,
    optional "general" general, optional "experimental" anything]

end RubyServer.Abilities
