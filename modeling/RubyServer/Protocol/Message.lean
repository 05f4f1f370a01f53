import RubyServer.Json.Basic

/-!
# Messages

Requests have an id and get a reply; notifications have none.
-/

namespace RubyServer

/-- The id of a request. -/
inductive RequestId where
  | number (n : Int)
  | text (s : String)
  | null
  deriving DecidableEq, Repr

namespace RequestId

/-- Reads an id. -/
def read? : Json → Option RequestId
  | .int n => if -0x8000000000000000 ≤ n ∧ n < 0x8000000000000000 then some (.number n) else none
  | .str s => some (.text s)
  | .null => some .null
  | _ => none

/-- Writes an id. -/
def toJson : RequestId → Json
  | .number n => .int n
  | .text s => .str s
  | .null => .null

end RequestId

/-- A message from the client. -/
structure Message where
  method : String
  params : Option Json
  id : Option RequestId

/-- Reads a message. Everything but the version of the rules for messages may be left out. -/
def Message.read? (v : Json) : Option Message :=
  match v.fields? ["jsonrpc", "method", "params", "id"] with
  | some [some (.str "2.0"), method, params, id] => do
    let method ←
      match method with
      | none => some ""
      | some m => m.str?
    let id ←
      match id with
      | none => some none
      | some i => (RequestId.read? i).map some
    return ⟨method, params, id⟩
  | _ => none

/-- A message to the client. -/
structure Outgoing where
  method : String
  params : Json
  isRequest : Bool

/-- How the handling of a message ends. -/
inductive Reply where
  /-- Nothing is sent. -/
  | silent
  | result (id : RequestId) (value : Json)
  | error (id : RequestId) (code : Int)

/-- The codes of errors. -/
inductive Refusal where
  | notInitialized
  | invalidRequest
  | methodNotFound
  | invalidParams
  | cancelled
  deriving DecidableEq, Repr

/-- The number of an error code. -/
def Refusal.code : Refusal → Int
  | .notInitialized => -32002
  | .invalidRequest => -32600
  | .methodNotFound => -32601
  | .invalidParams => -32602
  | .cancelled => -32800

/-- The reply that refuses a message, if it asks for a reply. -/
def Reply.refuse (id : Option RequestId) (refusal : Refusal) : Reply :=
  match id with
  | some id => .error id refusal.code
  | none => .silent

end RubyServer
