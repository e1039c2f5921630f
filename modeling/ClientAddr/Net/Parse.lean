import ClientAddr.Net.Address
import ClientAddr.Text.Basic

/-! # Reading addresses

The address parser of the standard library: an IPv4 address in four decimal
octets, an IPv6 address in colon-separated groups with one optional `::` and an
optional IPv4 tail, and a socket address. A reader takes a front part of the
text and returns what is left of it.
-/

namespace ClientAddr

namespace Net

def toDigit (radix : ℕ) (c : Char) : Option ℕ :=
  let n := c.toNat
  let v := if 48 ≤ n ∧ n ≤ 57 then some (n - 48)
    else if 97 ≤ n ∧ n ≤ 122 then some (n - 87)
    else if 65 ≤ n ∧ n ≤ 90 then some (n - 55)
    else none
  v.filter (· < radix)

def isDigit (radix : ℕ) (c : Char) : Bool := (toDigit radix c).isSome

def ofDigits (radix : ℕ) (ds : Text) : ℕ :=
  ds.foldl (fun n c => n * radix + (toDigit radix c).getD 0) 0

/-- Read all leading digits as a number below `bound`. -/
def readNumber (radix bound : ℕ) (maxDigits : Option ℕ) (allowZeroPrefix : Bool) (t : Text) :
    Option (Fin bound × Text) :=
  let ds := t.takeWhile (isDigit radix)
  if ds = [] then none
  else if maxDigits.any (· < ds.length) then none
  else if allowZeroPrefix = false ∧ ds.head? = some '0' ∧ 1 < ds.length then none
  else if h : ofDigits radix ds < bound then
    some (⟨ofDigits radix ds, h⟩, t.dropWhile (isDigit radix))
  else none

def readGivenChar (target : Char) : Text → Option Text
  | [] => none
  | c :: t => if c = target then some t else none

/-- Read an item that stands at `index` in a list with a separator. -/
def readSeparator {α : Type} (sep : Char) (index : ℕ) (inner : Text → Option (α × Text))
    (t : Text) : Option (α × Text) :=
  if 0 < index then (readGivenChar sep t).bind inner else inner t

/-- An octet must not start with a superfluous zero. -/
def readOctet : Text → Option (Fin 256 × Text) := readNumber 10 256 (some 3) false

def readGroup : Text → Option (Fin 65536 × Text) := readNumber 16 65536 (some 4) true

def ofSegments (gs : List (Fin 65536)) : Ipv6Addr :=
  Fin.ofNat _ (gs.foldl (fun n g => n * 65536 + g.val) 0)

def readIpv4Addr (t : Text) : Option (Ipv4Addr × Text) := do
  let (a, t) ← readSeparator '.' 0 readOctet t
  let (b, t) ← readSeparator '.' 1 readOctet t
  let (c, t) ← readSeparator '.' 2 readOctet t
  let (d, t) ← readSeparator '.' 3 readOctet t
  return (Ipv4Addr.new a b c d, t)

/-- The two groups that an embedded IPv4 address stands for. -/
def segmentsOf (a : Ipv4Addr) : List (Fin 65536) :=
  [⟨a.val / 65536, by omega⟩, ⟨a.val % 65536, by omega⟩]

/--
Read up to `left` groups, the first of them at `index`, and tell whether the last two came from an
embedded IPv4 address. The third part is the text that is left.
-/
def readGroups : ℕ → ℕ → Text → List (Fin 65536) × Bool × Text
  | 0, _, t => ([], false, t)
  | left + 1, index, t =>
    match if 0 < left then readSeparator ':' index readIpv4Addr t else none with
    | some (a, t) => (segmentsOf a, true, t)
    | none =>
      match readSeparator ':' index readGroup t with
      | none => ([], false, t)
      | some (g, t) =>
        let (gs, ipv4, t) := readGroups left (index + 1) t
        (g :: gs, ipv4, t)

def readIpv6Addr (t : Text) : Option (Ipv6Addr × Text) :=
  let (head, headIpv4, t) := readGroups 8 0 t
  if head.length = 8 then some (ofSegments head, t)
  else if headIpv4 then none
  else do
    let t ← readGivenChar ':' t
    let t ← readGivenChar ':' t
    let (tail, _, t) := readGroups (8 - (head.length + 1)) 0 t
    let zeros := List.replicate (8 - head.length - tail.length) 0
    return (ofSegments (head ++ zeros ++ tail), t)

def readIpAddr (t : Text) : Option (IpAddr × Text) :=
  match readIpv4Addr t with
  | some (a, t) => some (.v4 a, t)
  | none => (readIpv6Addr t).map fun (a, t) => (.v6 a, t)

def readPort (t : Text) : Option (Fin 65536 × Text) := do
  let t ← readGivenChar ':' t
  readNumber 10 65536 none true t

def readScopeId (t : Text) : Option (Fin (2 ^ 32) × Text) := do
  let t ← readGivenChar '%' t
  readNumber 10 (2 ^ 32) none true t

structure SocketAddr where
  ip : IpAddr
  port : Fin 65536
  scopeId : Fin (2 ^ 32)

def readSocketAddrV4 (t : Text) : Option (SocketAddr × Text) := do
  let (ip, t) ← readIpv4Addr t
  let (port, t) ← readPort t
  return (⟨.v4 ip, port, 0⟩, t)

def readSocketAddrV6 (t : Text) : Option (SocketAddr × Text) := do
  let t ← readGivenChar '[' t
  let (ip, t) ← readIpv6Addr t
  let (scopeId, t) := (readScopeId t).getD (0, t)
  let t ← readGivenChar ']' t
  let (port, t) ← readPort t
  return (⟨.v6 ip, port, scopeId⟩, t)

def readSocketAddr (t : Text) : Option (SocketAddr × Text) :=
  (readSocketAddrV4 t).orElse fun _ => readSocketAddrV6 t

/-- A parser accepts a text that its reader takes as a whole. -/
def parseWith {α : Type} (reader : Text → Option (α × Text)) (t : Text) : Option α :=
  match reader t with
  | some (x, []) => some x
  | _ => none

end Net

open Net

def IpAddr.parse : Text → Option IpAddr := parseWith readIpAddr

/-- No IPv4 address is written in more than fifteen characters. -/
def Ipv4Addr.parse (t : Text) : Option Ipv4Addr :=
  if 15 < t.length then none else parseWith readIpv4Addr t

def SocketAddr.parse : Text → Option SocketAddr := parseWith readSocketAddr

example : IpAddr.parse "::ffff:10.0.0.2".toList =
    some (.v6 (Ipv4Addr.new 10 0 0 2).toIpv6Mapped) := by
  decide +kernel

end ClientAddr
