import ClientAddr.Model.CidrMerge

/-! # Builders

A trusted-proxies config is built by rewriting every network, rejecting rules
that clash, merging the rest, and sorting by first address.
-/

namespace ClientAddr

/-- Builder for a config that trusts proxies by network. -/
structure TrustedProxiesBuilder where
  rules : List TrustedProxyRule := []
  chainHeaderOrder : List ChainHeader := defaultChainHeaderOrder

namespace TrustedProxiesBuilder

def proxyRule (builder : TrustedProxiesBuilder) (rule : TrustedProxyRule) :
    TrustedProxiesBuilder :=
  { builder with rules := builder.rules ++ [rule] }

def proxy (builder : TrustedProxiesBuilder) (cidr : IpCidr) : TrustedProxiesBuilder :=
  builder.proxyRule (.new cidr)

def proxyWithClientIpHeader (builder : TrustedProxiesBuilder) (cidr : IpCidr)
    (header : HeaderName) : TrustedProxiesBuilder :=
  builder.proxyRule (.withClientIpHeader cidr header)

def proxyWithXRealIp (builder : TrustedProxiesBuilder) (cidr : IpCidr) : TrustedProxiesBuilder :=
  builder.proxyRule (.withXRealIp cidr)

def proxies (builder : TrustedProxiesBuilder) (rules : List TrustedProxyRule) :
    TrustedProxiesBuilder :=
  { builder with rules := builder.rules ++ rules }

def withChainHeaderOrder (builder : TrustedProxiesBuilder) (order : List ChainHeader) :
    TrustedProxiesBuilder :=
  { builder with chainHeaderOrder := order }

def disableChainHeaders (builder : TrustedProxiesBuilder) : TrustedProxiesBuilder :=
  builder.withChainHeaderOrder []

/-- The rules as they are checked and merged, with every network rewritten. -/
def canonicalRules (builder : TrustedProxiesBuilder) : List TrustedProxyRule :=
  builder.rules.map fun rule => { rule with cidr := canonicalCidr rule.cidr }

def build (env : BuildEnv) (builder : TrustedProxiesBuilder) :
    Except ClientIpConfigBuildError ClientIpConfig := do
  let rules := builder.canonicalRules
  ensureNoCrossMetadataOverlap rules
  let rules := mergeRulesByMetadata env rules
  let rules := sortByKey (fun rule => rule.cidr.firstAddress) rules
  return ⟨.trustedProxies rules builder.chainHeaderOrder⟩

end TrustedProxiesBuilder

/-- Builder for a config that treats every socket peer as a trusted proxy. -/
structure TrustAllProxiesBuilder where
  mode : TrustAllProxyMode := {}

namespace TrustAllProxiesBuilder

def clientIpHeader (builder : TrustAllProxiesBuilder) (header : HeaderName) :
    TrustAllProxiesBuilder :=
  { builder with mode := { builder.mode with clientIpHeader := some header } }

def chainHeaderOrder (builder : TrustAllProxiesBuilder) (order : List ChainHeader) :
    TrustAllProxiesBuilder :=
  { builder with mode := { builder.mode with chainHeaderOrder := order } }

def disableChainHeaders (builder : TrustAllProxiesBuilder) : TrustAllProxiesBuilder :=
  builder.chainHeaderOrder []

def chainIpSelection (builder : TrustAllProxiesBuilder) (selection : TrustAllChainIpSelection) :
    TrustAllProxiesBuilder :=
  { builder with mode := { builder.mode with chainIpSelection := selection } }

def build (builder : TrustAllProxiesBuilder) : ClientIpConfig := ⟨.trustAllProxies builder.mode⟩

end TrustAllProxiesBuilder

def trustNoProxy : ClientIpConfig := ⟨.noProxy⟩

end ClientAddr
