import ClientAddr.Model.Config
import ClientAddr.Net.Parse

/-! # Reading headers

A list header is split at its commas, a `Forwarded` header is split twice, at
the commas and then at the semicolons outside quoted strings. Every non-empty
part takes one place in the chain, also when it carries no usable address.
-/

namespace ClientAddr

inductive ChainEntry | Ip (ip : IpAddr) | Opaque
  deriving DecidableEq, Repr

/-- The single address of a client IP header. Only the last value is read. -/
def configuredClientIpHeader (headers : HeaderMap) (header : HeaderName) : Option IpAddr := do
  let raw ← (← (headers.getAll header).getLast?).toStr
  return canonicalIp (← IpAddr.parse (Text.trim raw))

/-- A port is either a number or an obfuscated name that starts with an underscore. -/
def isValidNodePort (port : Text) : Bool :=
  if port = [] then false
  else if port.all Char.isDigit then true
  else match port with
    | '_' :: obfuscated =>
      obfuscated ≠ [] && obfuscated.all fun ch => ch.isAlphanum || ".-_".toList.contains ch
    | _ => false

/-- The branch of `parseIpLike` for a text that starts with a bracket. -/
def parseBracketed (rest : Text) : Option IpAddr :=
  match Text.splitOnce ']' rest with
  | none => none
  | some (ipPart, tail) =>
    if tail = [] then IpAddr.parse ipPart
    else match tail with
      | ':' :: port => if isValidNodePort port then IpAddr.parse ipPart else none
      | _ => none

/-- The branches of `parseIpLike` for a text that ends with a port. -/
def parseHostPort (raw : Text) : Option IpAddr :=
  match SocketAddr.parse raw with
  | some socketAddr => some socketAddr.ip
  | none =>
    match Text.rsplitOnce ':' raw with
    | some (host, port) =>
      if (Ipv4Addr.parse host).isSome && isValidNodePort port then IpAddr.parse host else none
    | none => none

/-- The address of one hop, in any of the forms a proxy may write. -/
def parseIpLike (raw : Text) : Option IpAddr :=
  let raw := Text.trim raw
  if raw = [] ∨ Text.eqIgnoreAsciiCase raw "unknown".toList ∨ raw.head? = some '_' then none
  else match IpAddr.parse raw with
    | some ip => some ip
    | none => match raw with
      | '[' :: rest => parseBracketed rest
      | _ => parseHostPort raw

def chainEntry (raw : Text) : ChainEntry :=
  match parseIpLike raw with
  | some ip => .Ip (canonicalIp ip)
  | none => .Opaque

/-- The hops of a comma-separated header, or nothing if a value is not readable. -/
def listHeaderEntries (values : List HeaderValue) : Option (List ChainEntry) :=
  if values.any fun value => value.toStr.isNone then none
  else
    let parts := ((values.filterMap HeaderValue.toStr).flatMap (·.splitOn ',')).map Text.trim
    some ((parts.filter (· ≠ [])).map chainEntry)

/-- Split by a delimiter, but ignore delimiters inside quoted strings. -/
structure SplitQuoted where
  input : Text
  delimiter : Char
  start : Option ℕ

namespace SplitQuoted

def new (input : Text) (delimiter : Char) : SplitQuoted := ⟨input, delimiter, some 0⟩

/-- The offset at which the loop over the characters finds a delimiter. -/
def find (delimiter : Char) (offset : ℕ) (inQuotes escaped : Bool) : Text → Option ℕ
  | [] => none
  | ch :: t =>
    if escaped then find delimiter (offset + 1) inQuotes false t
    else if inQuotes ∧ ch = '\\' then find delimiter (offset + 1) inQuotes true t
    else if ch = '"' then find delimiter (offset + 1) (!inQuotes) false t
    else if ch = delimiter ∧ ¬ inQuotes then some offset
    else find delimiter (offset + 1) inQuotes false t

def next (s : SplitQuoted) : Option (Text × SplitQuoted) :=
  match s.start with
  | none => none
  | some start =>
    let rest := s.input.drop start
    match find s.delimiter 0 false false rest with
    | some offset =>
      some (Text.trim (rest.take offset), { s with start := some (start + offset + 1) })
    | none => some (Text.trim rest, { s with start := none })

/-- The items that up to `fuel` calls of `next` return. -/
def run : ℕ → SplitQuoted → List Text
  | 0, _ => []
  | fuel + 1, s =>
    match s.next with
    | none => []
    | some (item, s) => item :: run fuel s

/-- All items. Every one but the last takes a delimiter of the input. -/
def items (s : SplitQuoted) : List Text := run (s.input.length + 1) s

end SplitQuoted

/-- One character of the pass that undoes escapes, over the output and whether it is escaped. -/
def unescapeStep : Text × Bool → Char → Text × Bool
  | (output, true), ch => (output ++ [ch], false)
  | (output, false), ch => if ch = '\\' then (output, true) else (output ++ [ch], false)

/-- Remove the quotes of a quoted string and undo its escapes. -/
def unquoteHttpQuotedString (input : Text) : Text :=
  let input := Text.trim input
  if input.length < 2 ∨ input.head? ≠ some '"' ∨ input.getLast? ≠ some '"' then input
  else
    let inner := input.tail.dropLast
    if '\\' ∉ inner then inner else (inner.foldl unescapeStep ([], false)).1

/-- The loop over the parameters of a `Forwarded` element, up to the first `for`. -/
def forwardedPairsEntry : List Text → ChainEntry
  | [] => .Opaque
  | pair :: pairs =>
    match Text.splitOnce '=' pair with
    | none => forwardedPairsEntry pairs
    | some (name, value) =>
      if Text.eqIgnoreAsciiCase (Text.trim name) "for".toList then
        chainEntry (unquoteHttpQuotedString (Text.trim value))
      else forwardedPairsEntry pairs

def forwardedElementEntry (element : Text) : ChainEntry :=
  forwardedPairsEntry (SplitQuoted.new element ';').items

def pushElements (entries : List ChainEntry) (raw : Text) : List ChainEntry :=
  (SplitQuoted.new raw ',').items.foldl (fun entries element =>
    if element = [] then entries else entries ++ [forwardedElementEntry element]) entries

/-- The hops of a `Forwarded` header, or nothing if a value is not readable. -/
def forwardedEntries (values : List HeaderValue) : Option (List ChainEntry) :=
  values.foldlM (fun entries value => value.toStr.map (pushElements entries)) []

end ClientAddr
