import RubyServer.Document.Change
import RubyServer.Notice
import RubyServer.Table

/-!
# The document store

The text and version of every open document. A change of the store either succeeds, and then causes one event, or
fails and leaves the store as it was. Versions of an open document only go up, and no document is larger than the
store allows.
-/

namespace RubyServer

/-- An open document. -/
structure Document where
  version : Int
  languageId : String
  text : Text
  deriving DecidableEq, Repr, Inhabited

/-- A document as the client opens it. -/
structure DocumentItem where
  uri : Uri
  version : Int
  languageId : String
  text : Text
  deriving DecidableEq, Repr, Inhabited

/-- What happened to a document. -/
inductive DocumentEvent where
  | opened (uri : Uri) (version : Int)
  | changed (uri : Uri) (version : Int)
  | closed (uri : Uri)
  deriving DecidableEq, Repr

namespace DocumentEvent

/-- The document an event is about. -/
def uri : DocumentEvent → Uri
  | .opened uri _ => uri
  | .changed uri _ => uri
  | .closed uri => uri

/-- The version an event leads to. -/
def version? : DocumentEvent → Option Int
  | .opened _ version => some version
  | .changed _ version => some version
  | .closed _ => none

end DocumentEvent

/-- Why the store refuses a change. -/
inductive DocumentError where
  | notOpen (uri : Uri)
  | staleVersion (uri : Uri) (current proposed : Int)
  | invalidRange (uri : Uri) (fault : RangeFault)
  | tooLarge (uri : Uri) (size limit : Nat)
  deriving DecidableEq, Repr

/-- The wording of an error. -/
def DocumentError.message : DocumentError → String
  | .notOpen uri => s!"document {uri} is not open"
  | .staleVersion uri current proposed => s!"stale version for {uri}: proposed {proposed}, current {current}"
  | .invalidRange uri fault =>
    let reason := fault.message
    s!"invalid edit range for {uri}: {reason}"
  | .tooLarge uri size limit => s!"document {uri} too large: {size} bytes exceeds maximum of {limit} bytes"

/-- The open documents. -/
structure Store where
  documents : Table Uri Document := ∅
  maxSize : Nat

namespace Store

/-- An open document. -/
def get? (s : Store) (uri : Uri) : Option Document := s.documents.get? uri

/-- The version of an open document. -/
def version? (s : Store) (uri : Uri) : Option Int := (s.get? uri).map Document.version

/-- Whether a document is open. -/
def contains (s : Store) (uri : Uri) : Bool := s.documents.contains uri

/-- The open documents, in the order they were opened. -/
def uris (s : Store) : List Uri := s.documents.keys

/-- Opens a document. One that is open already is replaced by a later version only. -/
def openItem (s : Store) (item : DocumentItem) : Except DocumentError (Store × DocumentEvent) :=
  let size := Text.byteSize item.text
  if s.maxSize < size then .error (.tooLarge item.uri size s.maxSize)
  else
    let opened : Store × DocumentEvent :=
      ({ s with documents := s.documents.insert item.uri ⟨item.version, item.languageId, item.text⟩ },
        .opened item.uri item.version)
    match s.get? item.uri with
    | some current =>
      if item.version ≤ current.version then .error (.staleVersion item.uri current.version item.version)
      else .ok opened
    | none => .ok opened

/-- Applies changes to an open document and moves it to a later version. -/
def change (s : Store) (uri : Uri) (changes : List Change) (version : Int) :
    Except DocumentError (Store × DocumentEvent) :=
  match s.get? uri with
  | none => .error (.notOpen uri)
  | some current =>
    if version ≤ current.version then .error (.staleVersion uri current.version version)
    else
      match Change.applyAll current.text changes with
      | .error fault => .error (.invalidRange uri fault)
      | .ok text =>
        let size := Text.byteSize text
        if s.maxSize < size then .error (.tooLarge uri size s.maxSize)
        else
          .ok ({ s with documents := s.documents.insert uri { current with version := version, text := text } },
            .changed uri version)

/-- Closes a document; `none` if it is not open. -/
def close (s : Store) (uri : Uri) : Option (Store × DocumentEvent) :=
  if s.contains uri then some ({ s with documents := s.documents.erase uri }, .closed uri) else none

end Store

end RubyServer
