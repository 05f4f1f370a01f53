import RubyServer.Json.Basic

/-!
# Shapes

What values of the protocol have to look like. A shape is a test on values, and shapes are put together from smaller
ones. A record is an object with the record's fields, or a list of them in order; fields that it does not know are
ignored, and a list may stop early only before fields that have a default.
-/

namespace RubyServer

/-- What a value has to look like. -/
abbrev Shape := Json → Bool

namespace Shape

/-- Any value at all. -/
def anything : Shape := fun _ => true

/-- A truth value. -/
def flag : Shape := fun v => v.bool?.isSome

/-- A string. -/
def text : Shape := fun v => v.str?.isSome

/-- An unsigned 32-bit integer. -/
def word : Shape := fun v => v.word32?.isSome

/-- A signed 32-bit integer, as for the numbers of an enumeration. -/
def integer : Shape := fun v => v.int32?.isSome

/-- A number of any kind. -/
def number : Shape
  | .int _ => true
  | .real _ => true
  | _ => false

/-- One shape or another. -/
def either (a b : Shape) : Shape := fun v => a v || b v

/-- A shape, or nothing. -/
def orNull (shape : Shape) : Shape
  | .null => true
  | v => shape v

/-- One of some names: as a string, or as the only key of an object, with nothing under it. -/
def choice (names : List String) : Shape
  | .str name => names.contains name
  | .obj [(name, .null)] => names.contains name
  | _ => false

/-- A list of items of one shape. -/
def list (item : Shape) : Shape
  | .arr items => items.all item
  | _ => false

/-- An object with keys of one kind and values of one shape. -/
def table (key : String → Bool) (value : Shape) : Shape
  | .obj members => members.all fun m => key m.1 && value m.2
  | _ => false

end Shape

/-- Whether a field of a record has to be there. -/
inductive Presence where
  | needed
  /-- It may be missing from an object and `null` everywhere. -/
  | optional
  /-- It may be missing from an object and from the end of a list. -/
  | defaulted
  deriving DecidableEq, Repr

/-- A field of a record. -/
structure Slot where
  key : String
  presence : Presence
  shape : Shape

namespace Slot

/-- A field that has to be there. -/
def needed (key : String) (shape : Shape) : Slot := ⟨key, .needed, shape⟩

/-- A field that may be missing or `null`. -/
def optional (key : String) (shape : Shape) : Slot := ⟨key, .optional, shape.orNull⟩

/-- A field that may be missing. -/
def defaulted (key : String) (shape : Shape) : Slot := ⟨key, .defaulted, shape⟩

/-- Optional truth values. -/
def flags (keys : List String) : List Slot := keys.map fun key => optional key .flag

/-- Whether an object has what the field asks for. -/
def fitsIn (members : List (String × Json)) (f : Slot) : Bool :=
  match Json.member? f.key members with
  | some v => f.shape v
  | none => f.presence != .needed

/-- Whether a list of values has what the fields ask for, in order. -/
def fitAll : List Slot → List Json → Bool
  | [], [] => true
  | [], _ :: _ => false
  | f :: fields, [] => f.presence == .defaulted && fitAll fields []
  | f :: fields, v :: values => f.shape v && fitAll fields values

/-- The value of a field of a record: by key from an object, by place from a list. -/
def get? (fields : List Slot) (key : String) : Json → Option Json
  | .obj members => Json.member? key members
  | .arr items => ((fields.map Slot.key).zip items).lookup key
  | _ => none

end Slot

namespace Shape

/-- An object with fields. -/
def object (fields : List Slot) : Shape
  | .obj members => fields.all (Slot.fitsIn members)
  | _ => false

/-- A record: an object with fields, or a list of the fields. -/
def record (fields : List Slot) : Shape
  | .arr items => Slot.fitAll fields items
  | v => object fields v

end Shape

end RubyServer
