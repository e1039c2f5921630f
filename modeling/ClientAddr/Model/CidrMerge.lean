import Mathlib.Data.Prod.Lex
import ClientAddr.Cidr.Normal
import ClientAddr.Model.Config

/-! # Checking and merging rules

Rules that share an address must agree on the client IP header. Rules that agree
are joined into as few as possible. The combiners that join the networks of one
address family belong to another package, and the iteration order of a hash map
is arbitrary, so both are parameters.
-/

namespace ClientAddr

/-- Two rules overlap but do not agree on the client IP header. -/
inductive ClientIpConfigBuildError where
  | overlappingTrustedProxyRules (left right : TrustedProxyRule)
  deriving DecidableEq, Repr

/-- The network combiners, from the networks pushed to the networks they end with. -/
structure Combiners where
  ipv4 : List (Cidr 32) → List (Cidr 32)
  ipv6 : List (Cidr 128) → List (Cidr 128)

/-- The order in which a hash map with the given entries is iterated. -/
structure HashOrder (κ ν : Type) where
  iter : List (κ × ν) → List (κ × ν)
  perm : ∀ l, (iter l).Perm l

/-- What `build` depends on outside this crate. -/
structure BuildEnv where
  combiners : Combiners
  order : HashOrder TrustedProxyMetadata (List IpCidr)

/-- The loop over the sorted rules, with the widest network that is still open. -/
def sweep :
    Option TrustedProxyRule → List TrustedProxyRule → Except ClientIpConfigBuildError Unit
  | _, [] => .ok ()
  | some outer, rule :: order =>
    if rule.cidr.firstAddress ≤ outer.cidr.lastAddress then
      if outer.metadata ≠ rule.metadata then .error (.overlappingTrustedProxyRules outer rule)
      else sweep (some outer) order
    else sweep (some rule) order
  | none, rule :: order => sweep (some rule) order

/-- First address, then the wider network. -/
def sweepKey (rule : TrustedProxyRule) : IpAddr ×ₗ IpAddrᵒᵈ :=
  toLex (rule.cidr.firstAddress, OrderDual.toDual rule.cidr.lastAddress)

/-- Reject rules that share an address but do not agree on what that address means. -/
def ensureNoCrossMetadataOverlap (rules : List TrustedProxyRule) :
    Except ClientIpConfigBuildError Unit :=
  sweep none (sortByKey sweepKey rules)

/-- Push a network to the entry of its metadata, which is made if there is none. -/
def pushGroup (groups : List (TrustedProxyMetadata × List IpCidr)) (rule : TrustedProxyRule) :
    List (TrustedProxyMetadata × List IpCidr) :=
  match groups with
  | [] => [(rule.metadata, [rule.cidr])]
  | (metadata, cidrs) :: groups =>
    if metadata = rule.metadata then (metadata, cidrs ++ [rule.cidr]) :: groups
    else (metadata, cidrs) :: pushGroup groups rule

def ipv4Pushed (cidrs : List IpCidr) : List (Cidr 32) := cidrs.filterMap fun
  | .v4 cidr => some cidr
  | .v6 _ => none

def ipv6Pushed (cidrs : List IpCidr) : List (Cidr 128) := cidrs.filterMap fun
  | .v6 cidr => some cidr
  | .v4 _ => none

/-- Turn a list of networks into the shortest list of networks that covers the same addresses. -/
def mergeCidrs (combiners : Combiners) (cidrs : List IpCidr) : List IpCidr :=
  (combiners.ipv4 (ipv4Pushed cidrs)).map .v4 ++ (combiners.ipv6 (ipv6Pushed cidrs)).map .v6

/-- Join rules that agree on their metadata into as few rules as possible. -/
def mergeRulesByMetadata (env : BuildEnv) (rules : List TrustedProxyRule) :
    List TrustedProxyRule :=
  (env.order.iter (rules.foldl pushGroup [])).flatMap fun (metadata, cidrs) =>
    (mergeCidrs env.combiners cidrs).map fun cidr => ⟨cidr, metadata⟩

end ClientAddr
