import ClientAddr.Model.Headers

/-! # Resolving the client address

The answer comes from the client IP header of the matching rule, else from the
first chain header that the request carries, else from the socket. A chain
header that is carried but yields no answer stops the search.
-/

namespace ClientAddr

inductive ClientIpSource
  | configuredHeader (header : HeaderName)
  | chainHeader (header : HeaderName)
  | socket
  deriving DecidableEq, Repr

def ClientIpSource.headerName : ClientIpSource → Option HeaderName
  | configuredHeader header | chainHeader header => some header
  | socket => none

structure ClientIp where
  ip : IpAddr
  source : ClientIpSource
  deriving DecidableEq, Repr

def chainEntries (kind : ChainHeaderKind) (values : List HeaderValue) :
    Option (List ChainEntry) :=
  match kind with
  | .forwarded => forwardedEntries values
  | .xForwardedFor => listHeaderEntries values

/-- The address that `pick` accepts in the first chain header the request carries. -/
def clientIpFromChainHeaders (headers : HeaderMap) (pick : List ChainEntry → Option IpAddr) :
    List ChainHeader → Option (IpAddr × ClientIpSource)
  | [] => none
  | chainHeader :: order =>
    let header := chainHeader.asHeaderName
    let values := headers.getAll header
    if values = [] then clientIpFromChainHeaders headers pick order
    else do
      let entries ← chainEntries chainHeader.kind values
      return (← pick entries, .chainHeader header)

def selectTrustAllChainIp (selection : TrustAllChainIpSelection) (entries : List ChainEntry) :
    Option IpAddr :=
  let entry := match selection with
    | .leftmost => entries.head?
    | .rightmost => entries.getLast?
    | .skipRightmostHops hops => entries.reverse[hops]?
  match entry with
  | some (.Ip ip) => some ip
  | some .Opaque | none => none

/-- The loop of `firstNonTrustedFromRight`, over the hops from right to left. -/
def firstNonTrusted (config : ClientIpConfig) : List ChainEntry → Option IpAddr
  | [] => none
  | .Ip ip :: entries =>
    if config.isTrustedProxy ip then firstNonTrusted config entries else some ip
  | .Opaque :: _ => none

/-- Walk a chain from the socket side, and stop at the first hop that is not a trusted proxy. -/
def firstNonTrustedFromRight (config : ClientIpConfig) (entries : List ChainEntry) :
    Option IpAddr := firstNonTrusted config entries.reverse

/-- The part that both trust models share: the client IP header, the chain headers, the socket. -/
def resolveFrom (headers : HeaderMap) (socketIp : IpAddr) (clientIpHeader : Option HeaderName)
    (order : List ChainHeader) (pick : List ChainEntry → Option IpAddr) : ClientIp :=
  match clientIpHeader.bind fun header =>
      (configuredClientIpHeader headers header).map fun ip =>
        (⟨ip, .configuredHeader header⟩ : ClientIp) with
  | some answer => answer
  | none =>
    match clientIpFromChainHeaders headers pick order with
    | some (ip, source) => ⟨ip, source⟩
    | none => ⟨socketIp, .socket⟩

def resolveClientIpFromTrustedProxies (headers : HeaderMap) (socketIp : IpAddr)
    (config : ClientIpConfig) (chainHeaderOrder : List ChainHeader) : ClientIp :=
  match config.ruleFor socketIp with
  | none => ⟨socketIp, .socket⟩
  | some rule =>
    resolveFrom headers socketIp rule.clientIpHeader chainHeaderOrder
      (firstNonTrustedFromRight config)

def resolveClientIpTrustingAllProxies (headers : HeaderMap) (socketIp : IpAddr)
    (mode : TrustAllProxyMode) : ClientIp :=
  resolveFrom headers socketIp mode.clientIpHeader mode.chainHeaderOrder
    (selectTrustAllChainIp mode.chainIpSelection)

/-- Resolve the client address of a request from its headers and its socket peer address. -/
def ClientIpConfig.resolveClientIp (config : ClientIpConfig) (headers : HeaderMap)
    (peerIp : IpAddr) : ClientIp :=
  let peerIp := canonicalIp peerIp
  match config.trust with
  | .noProxy => ⟨peerIp, .socket⟩
  | .trustedProxies _ chainHeaderOrder =>
    resolveClientIpFromTrustedProxies headers peerIp config chainHeaderOrder
  | .trustAllProxies mode => resolveClientIpTrustingAllProxies headers peerIp mode

end ClientAddr
