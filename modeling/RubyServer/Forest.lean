import RubyServer.Source
import RubyServer.Store

/-!
# The forest

One parsed tree per document, tagged with the version it was parsed from. A tree of the version the document is at, or
of a later one, is served as it is; otherwise the document is parsed. The forest counts what it does.
-/

namespace RubyServer

/-- A parsed document. -/
structure ParsedDocument where
  uri : Uri
  version : Int
  source : Source
  deriving Repr, Inhabited

/-- The trees of documents, and how often one was served, parsed or dropped. A document that was asked for has a slot,
which may be empty. The counts have no bound: a 64-bit word would not run over in the life of a server. -/
structure Forest where
  slots : Table Uri (Option ParsedDocument) := ∅
  hits : Nat := 0
  parses : Nat := 0
  invalidations : Nat := 0

/-- A parser, by what it makes of each text. -/
abbrev Grammar := Text → Parse

namespace Forest

/-- The tree held for a document. -/
def cached? (f : Forest) (uri : Uri) : Option ParsedDocument := (f.slots.get? uri).bind id

/-- The number of trees held. -/
def cachedCount (f : Forest) : Nat := (f.slots.entries.filter fun e => e.2.isSome).length

/-- The tree for an open document, parsed if the one held is of an earlier version; `none` if it is not open. -/
def get? (parse : Grammar) (store : Store) (f : Forest) (uri : Uri) : Option ParsedDocument × Forest :=
  match store.get? uri with
  | none => (none, f)
  | some document =>
    let parsed : ParsedDocument × Forest :=
      let tree := ⟨uri, document.version, ⟨document.text, parse document.text⟩⟩
      (tree, { f with slots := f.slots.insert uri (some tree), parses := f.parses + 1 })
    match f.cached? uri with
    | some tree =>
      if document.version ≤ tree.version then (some tree, { f with hits := f.hits + 1 })
      else (some parsed.1, parsed.2)
    | none => (some parsed.1, parsed.2)

/-- Drops the tree of a document and keeps its slot. -/
def invalidate (f : Forest) (uri : Uri) : Forest :=
  match f.cached? uri with
  | some _ => { f with slots := f.slots.insert uri none, invalidations := f.invalidations + 1 }
  | none => f

/-- Drops the slot of a document, with or without a tree. -/
def remove (f : Forest) (uri : Uri) : Forest :=
  if f.slots.contains uri then { f with slots := f.slots.erase uri, invalidations := f.invalidations + 1 } else f

/-- Drops every slot. -/
def releaseAll (f : Forest) : Forest := { f with slots := ∅ }

/-- The share of requests answered without parsing, in thousandths of a percent, rounded to the nearest with halves to
the even neighbour. -/
def hitRateMillis (f : Forest) : Nat :=
  let total := f.hits + f.parses
  if total = 0 then 0
  else
    let quotient := f.hits * 100000 / total
    let rest := f.hits * 100000 % total
    if total < 2 * rest || total = 2 * rest && quotient % 2 = 1 then quotient + 1 else quotient

/-- A count of thousandths with three decimals. -/
def threeDecimals (n : Nat) : String :=
  let digits := toString (n % 1000)
  toString (n / 1000) ++ "." ++ "".pushn '0' (3 - digits.length) ++ digits

end Forest

end RubyServer
