import ClientAddr.Net.Address

/-! # Canonical addresses and networks

Every address is rewritten to its canonical form before it is compared, and an
IPv4-mapped network is rewritten the same way.
-/

namespace ClientAddr

def checkedSub (n m : ℕ) : Option ℕ := if m ≤ n then some (n - m) else none

/-- Rewrite an IPv4-mapped IPv6 address into its IPv4 form. -/
def canonicalIp (ip : IpAddr) : IpAddr := ip.toCanonical

/-- Rewrite an IPv4-mapped IPv6 network into its IPv4 form. -/
def canonicalCidr : IpCidr → IpCidr
  | .v4 cidr => .v4 cidr
  | .v6 v6 =>
    match checkedSub v6.networkLength 96 with
    | none => .v6 v6
    | some networkLength =>
      match Ipv6Addr.toIpv4Mapped v6.firstAddress with
      | none => .v6 v6
      | some firstAddress =>
        match Cidr.new firstAddress networkLength with
        | some v4 => .v4 v4
        | none => .v6 v6

end ClientAddr
