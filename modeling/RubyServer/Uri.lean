import RubyServer.Text.Basic

/-!
# Names of documents

A document is named by an absolute URI, and `Uri.isValid` tells which strings are one. After the scheme comes a host
where the scheme asks for it: the schemes of the web always have one, files may have one, and of any other scheme it
is known by two slashes. A host is a name or an address of four or of sixteen bytes; whatever follows it is free.

Blanks around a URI and line breaks inside it do not count.
-/

namespace RubyServer

/-- The name of a document. -/
abbrev Uri := String

namespace Uri

/-! ## Addresses -/

/-- A number from 0 to 255 in decimal, without leading zeros. -/
def isOctet (t : Text) : Bool :=
  !t.isEmpty && (t.length == 1 || t.head? != some '0') && (Text.numeral? 10 t).any (· ≤ 255)

/-- Four octets with dots between them. -/
def isQuad (t : Text) : Bool :=
  let octets := t.split '.'
  octets.length == 4 && octets.all isOctet

/-- One to four hexadecimal digits. -/
def isGroup (t : Text) : Bool := !t.isEmpty && t.length ≤ 4 && t.all fun c => (Text.hexDigit? c).isSome

/-- How many pairs of bytes a list of groups stands for; the last two pairs may be written as four octets. -/
def groupCount? : List Text → Option Nat
  | [] => some 0
  | [last] => if isGroup last then some 1 else if isQuad last then some 2 else none
  | group :: rest => if isGroup group then (groupCount? rest).map (· + 1) else none

/-- The text before and after the first double colon. -/
def splitDouble? : Text → Option (Text × Text)
  | ':' :: ':' :: rest => some ([], rest)
  | c :: rest => (splitDouble? rest).map fun (before, after) => (c :: before, after)
  | [] => none

/-- The groups between colons; there are none in the empty text. -/
def groups (t : Text) : List Text := if t.isEmpty then [] else t.split ':'

/-- An address of eight pairs of bytes, where one double colon may stand for a run of zeros. -/
def isLongAddress (t : Text) : Bool :=
  match splitDouble? t with
  | some (before, after) =>
    (groups before).all isGroup && (groupCount? (groups after)).any fun n => (groups before).length + n ≤ 7
  | none => groupCount? (t.split ':') == some 8

/-- A part of a four-byte address: hexadecimal after `0x`, octal after another `0`, decimal otherwise. -/
def addressPart? : Text → Option Nat
  | [] => none
  | '0' :: 'x' :: digits => Text.numeral? 16 digits
  | '0' :: 'X' :: digits => Text.numeral? 16 digits
  | '0' :: d :: digits => Text.numeral? 8 (d :: digits)
  | digits => Text.numeral? 10 digits

/-- The parts of a host between dots; a dot at the end does not count. -/
def labels (host : Text) : List Text :=
  let parts := host.split '.'
  if parts.getLast? == some [] then parts.dropLast else parts

/-- Whether a host has to be a four-byte address: its last label is a number. -/
def endsInNumber (host : Text) : Bool :=
  match (labels host).getLast? with
  | some last => (!last.isEmpty && last.all Char.isDigit) || (addressPart? last).isSome
  | none => false

/-- A four-byte address: at most four parts, where the last one takes all the bytes that the others leave. -/
def isShortAddress (host : Text) : Bool :=
  match (labels host).mapM addressPart? with
  | some parts =>
    parts.length ≤ 4 && parts.dropLast.all (· ≤ 255)
      && parts.getLast?.any (· ≤ 0xffffffff >>> (8 * (parts.length - 1)))
  | none => false

/-! ## Hosts -/

/-- The bytes of a text in which a percent sign and two hexadecimal digits stand for a byte. -/
def unescape : List UInt8 → List UInt8
  | 0x25 :: a :: b :: rest =>
    match Text.numeral? 16 [Char.ofNat a.toNat, Char.ofNat b.toNat] with
    | some n => UInt8.ofNat n :: unescape rest
    | none => 0x25 :: unescape (a :: b :: rest)
  | byte :: rest => byte :: unescape rest
  | [] => []

/-- The text that an escaped text stands for, if it is one. -/
def unescape? (t : Text) : Option Text :=
  (String.fromUTF8? ⟨(unescape (String.ofList t).toUTF8.toList).toArray⟩).map String.toList

/-- The characters that no host has. -/
def isForbidden (c : Char) : Bool := "\x00\t\n\r #/:<>?@[\\]^|".toList.contains c

/-- The characters that no name of a host has. -/
def isForbiddenInName (c : Char) : Bool :=
  isForbidden c || c.toNat < 0x20 || c == '%' || c.toNat == 0x7f || c.toNat == 0xfffd

/-- A long address in brackets. -/
def isBracketed (host : Text) : Bool := host.getLast? == some ']' && isLongAddress (host.drop 1).dropLast

/-- A name or an address. -/
def isHost (host : Text) : Bool :=
  if host.head? == some '[' then isBracketed host
  else
    match unescape? host with
    | some name =>
      !name.isEmpty && !name.any isForbiddenInName && (!endsInNumber name || isShortAddress name)
    | none => false

/-- A host whose name means nothing here, perhaps none at all. -/
def isFreeHost (host : Text) : Bool :=
  if host.head? == some '[' then isBracketed host else !host.any isForbidden

/-- The host at the start of a text and what follows it, from the first colon outside brackets. -/
def splitHost : Bool → Text → Text × Text
  | _, [] => ([], [])
  | inside, c :: rest =>
    if c == ':' && !inside then ([], c :: rest)
    else
      let (host, rest) := splitHost (c == '[' || (inside && c != ']')) rest
      (c :: host, rest)

/-- What may follow a host: nothing, or a colon and a number of sixteen bits, which may be left out. -/
def isHostEnding : Text → Bool
  | ':' :: rest => (Text.numeral? 10 (rest.takeWhile (· != '\\'))).any (· < 0x10000)
  | _ => true

/-- A host and what follows it. Outside the web there may be no host, but then nothing follows it, and a user before it
(`needed`) has to have one. -/
def isHostPart (web needed : Bool) (t : Text) : Bool :=
  let (host, ending) := splitHost false t
  (if web then isHost host else isFreeHost host && (!host.isEmpty || (ending.isEmpty && !needed)))
    && isHostEnding ending

/-- The user before the last at sign, if there is one, and what follows it. -/
def splitUser (t : Text) : Option Text × Text :=
  let host := (t.reverse.takeWhile (· != '@')).reverse
  if host.length < t.length then (some (t.take (t.length - host.length - 1)), host) else (none, host)

/-- Whether a character ends the part of a URI that names the host. -/
def endsAuthority (web : Bool) (c : Char) : Bool := c == '/' || c == '?' || c == '#' || (web && c == '\\')

/-- The part of a URI from the host on, perhaps with a user before it. -/
def isAuthority (web : Bool) (t : Text) : Bool :=
  let authority := t.takeWhile fun c => !endsAuthority web c
  match splitUser authority with
  | (none, host) => isHostPart web false host
  | (some [], host) => (!host.isEmpty || authority.length == t.length) && isHostPart web false host
  | (some user, host) => isHostPart web (user != [':']) host

/-! ## Schemes -/

/-- What a scheme asks for. -/
inductive Scheme where
  | web
  | file
  | other
  deriving DecidableEq, Repr

/-- The scheme of a name, in small letters. -/
def Scheme.ofName (name : String) : Scheme :=
  if ["http", "https", "ws", "wss", "ftp"].contains name then .web else if name = "file" then .file else .other

/-- The characters of a scheme. -/
def isSchemeChar (c : Char) : Bool := c.isAlphanum || c == '+' || c == '-' || c == '.'

/-- The scheme, which starts with a letter, and what follows its colon. -/
def scheme? (t : Text) : Option (Scheme × Text) :=
  match t.dropWhile isSchemeChar with
  | ':' :: rest =>
    if t.head?.any Char.isAlpha then
      some (.ofName (String.ofList ((t.takeWhile isSchemeChar).map Char.toLower)), rest)
    else none
  | _ => none

/-- Slashes of both kinds. -/
def isSlash (c : Char) : Bool := c == '/' || c == '\\'

/-- The letter of a drive, which stands where a file has its host. -/
def isDrive : Text → Bool
  | [letter, mark] => letter.isAlpha && (mark == ':' || mark == '|')
  | _ => false

/-- The part of the URI of a file after its scheme. -/
def isFilePart : Text → Bool
  | a :: b :: rest =>
    let host := rest.takeWhile fun c => !endsAuthority true c
    !(isSlash a && isSlash b) || host.isEmpty || isDrive host || isHost host
  | _ => true

/-- The part of the URI of another scheme after the scheme. -/
def isOtherPart : Text → Bool
  | '/' :: '/' :: rest => isAuthority false rest
  | _ => true

/-- The characters of a string that count. -/
def significant (s : String) : Text :=
  let isBlank (c : Char) : Bool := c.toNat ≤ 0x20
  (Text.trimEnd isBlank (Text.trimStart isBlank s.toList)).filter fun c => !(c == '\t' || c == '\n' || c == '\r')

/-- Whether a string is an absolute URI. -/
def isValid (s : String) : Bool :=
  match scheme? (significant s) with
  | some (.web, rest) => isAuthority true (rest.dropWhile isSlash)
  | some (.file, rest) => isFilePart rest
  | some (.other, rest) => isOtherPart rest
  | none => false

end Uri

end RubyServer
