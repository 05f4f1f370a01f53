/-!
# JSON values

The values that travel between the editor and the server. A number written without fraction and exponent that fits
64 bits is an integer (`Json.int`); any other number is kept as it was written (`Json.real`) and is accepted nowhere
an integer is asked for. An object keeps its members in order; of members with one key the last counts.

A record of the protocol or of the settings is an object with the record's keys, or an array that lists its fields in
order of declaration. Settings may leave out fields at the end of such an array (`Json.fields?`), the protocol may not
(`Json.named`).
-/

namespace RubyServer

/-- A JSON value. -/
inductive Json where
  | null
  | bool (b : Bool)
  | int (n : Int)
  | real (digits : String)
  | str (s : String)
  | arr (items : List Json)
  | obj (members : List (String × Json))
  deriving Repr, Inhabited

namespace Json

/-- The value under a key of a list of members; the last member with the key counts. -/
def member? (key : String) : List (String × Json) → Option Json
  | [] => none
  | (k, v) :: rest =>
    match member? key rest with
    | some w => some w
    | none => if k = key then some v else none

/-- The value under a key of an object. -/
def get? (key : String) : Json → Option Json
  | .obj members => member? key members
  | _ => none

/-- The value under a key of an object, where `null` counts as missing. -/
def getSome? (key : String) (v : Json) : Option Json :=
  match v.get? key with
  | some .null => none
  | found => found

/-- A field of an object that must be there. -/
def field? (key : String) (read? : Json → Option α) (v : Json) : Option α := (v.get? key).bind read?

/-- A field of an object that may be missing or `null`, but must be readable otherwise. -/
def optionalField? (key : String) (read? : Json → Option α) (v : Json) : Option (Option α) :=
  match v.getSome? key with
  | none => some none
  | some field => (read? field).map some

/-- The string of a string value. -/
def str? : Json → Option String
  | .str s => some s
  | _ => none

/-- The truth value of a boolean. -/
def bool? : Json → Option Bool
  | .bool b => some b
  | _ => none

/-- The integer of an integer value. -/
def int? : Json → Option Int
  | .int n => some n
  | _ => none

/-- The items of an array. -/
def arr? : Json → Option (List Json)
  | .arr items => some items
  | _ => none

/-- The items of an array, all of them read. -/
def listOf? (read? : Json → Option α) (v : Json) : Option (List α) := v.arr?.bind fun items => items.mapM read?

/-- An integer from zero up to a bound, which is not reached. -/
def natBelow? (bound : Nat) : Json → Option Nat
  | .int (.ofNat n) => if n < bound then some n else none
  | _ => none

/-- An unsigned 64-bit integer. -/
def word64? : Json → Option Nat := natBelow? UInt64.size

/-- An unsigned 32-bit integer. -/
def word32? : Json → Option Nat := natBelow? UInt32.size

/-- A signed 32-bit integer. -/
def int32? : Json → Option Int
  | .int n => if -0x80000000 ≤ n ∧ n < 0x80000000 then some n else none
  | _ => none

/-- The fields of a record: by key from an object, or in order from an array that is not longer than the record.
A field that is not given is `none`. -/
def fields? (keys : List String) : Json → Option (List (Option Json))
  | .obj members => some (keys.map fun key => member? key members)
  | .arr items =>
    if items.length ≤ keys.length then
      some (items.map some ++ List.replicate (keys.length - items.length) none)
    else none
  | _ => none

/-- A record as an object: an array that lists all fields gets their keys. -/
def named (keys : List String) : Json → Json
  | .arr items => if items.length = keys.length then .obj (keys.zip items) else .arr items
  | v => v

/-- An optional value, `null` for none. -/
def ofOption (f : α → Json) : Option α → Json
  | none => .null
  | some a => f a

/-- An array of encoded items. -/
def ofList (f : α → Json) (items : List α) : Json := .arr (items.map f)

/-- A natural number. -/
def nat (n : Nat) : Json := .int n

end Json

end RubyServer
