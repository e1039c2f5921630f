import ClientAddr.Order.Lookup
import ClientAddr.Model.Canonical
import ClientAddr.Model.Http

/-! # Configs

A config holds one trust model. With trusted proxies it holds the rules sorted
by first address, and `ruleFor` searches them by halving.
-/

namespace ClientAddr

structure TrustedProxyMetadata where
  clientIpHeader : Option HeaderName
  deriving DecidableEq, Repr

def TrustedProxyMetadata.none : TrustedProxyMetadata := ⟨Option.none⟩

def TrustedProxyMetadata.withClientIpHeader (header : HeaderName) : TrustedProxyMetadata :=
  ⟨some header⟩

/-- A trusted proxy network, and the client IP header that proxy is allowed to set. -/
structure TrustedProxyRule where
  cidr : IpCidr
  metadata : TrustedProxyMetadata
  deriving DecidableEq, Repr

namespace TrustedProxyRule

def new (cidr : IpCidr) : TrustedProxyRule := ⟨cidr, .none⟩

def withClientIpHeader (cidr : IpCidr) (header : HeaderName) : TrustedProxyRule :=
  ⟨cidr, .withClientIpHeader header⟩

def withXRealIp (cidr : IpCidr) : TrustedProxyRule :=
  withClientIpHeader cidr ⟨"x-real-ip".toList, by decide⟩

def clientIpHeader (rule : TrustedProxyRule) : Option HeaderName := rule.metadata.clientIpHeader

end TrustedProxyRule

inductive ChainHeaderKind | xForwardedFor | forwarded
  deriving DecidableEq, Repr

structure ChainHeader where
  name : HeaderName
  kind : ChainHeaderKind
  deriving DecidableEq, Repr

namespace ChainHeader

def new (header : HeaderName) : ChainHeader where
  name := header
  kind := if header.asStr = "forwarded".toList then .forwarded else .xForwardedFor

def xForwardedFor : ChainHeader := ⟨⟨"x-forwarded-for".toList, by decide⟩, .xForwardedFor⟩

def forwarded : ChainHeader := ⟨⟨"forwarded".toList, by decide⟩, .forwarded⟩

def forwardedStyle (header : HeaderName) : ChainHeader := ⟨header, .forwarded⟩

def asHeaderName (h : ChainHeader) : HeaderName := h.name

end ChainHeader

def defaultChainHeaderOrder : List ChainHeader := [.xForwardedFor, .forwarded]

/-- Which hop of a chain header becomes the client IP in trust-all proxy mode. -/
inductive TrustAllChainIpSelection | leftmost | rightmost | skipRightmostHops (hops : ℕ)
  deriving DecidableEq, Repr

structure TrustAllProxyMode where
  clientIpHeader : Option HeaderName := none
  chainHeaderOrder : List ChainHeader := defaultChainHeaderOrder
  chainIpSelection : TrustAllChainIpSelection := .rightmost
  deriving DecidableEq, Repr

inductive TrustModel where
  | noProxy
  | trustedProxies (rules : List TrustedProxyRule) (chainHeaderOrder : List ChainHeader)
  | trustAllProxies (mode : TrustAllProxyMode)
  deriving DecidableEq, Repr

structure ClientIpConfig where
  trust : TrustModel := .noProxy
  deriving DecidableEq, Repr

namespace ClientIpConfig

def trustedProxyRules (config : ClientIpConfig) : List TrustedProxyRule :=
  match config.trust with
  | .trustedProxies rules _ => rules
  | .noProxy | .trustAllProxies _ => []

def chainHeaderOrder (config : ClientIpConfig) : List ChainHeader :=
  match config.trust with
  | .noProxy => []
  | .trustedProxies _ order => order
  | .trustAllProxies mode => mode.chainHeaderOrder

/-- Find the trusted proxy rule that covers an address. -/
def ruleFor (config : ClientIpConfig) (ip : IpAddr) : Option TrustedProxyRule :=
  match config.trust with
  | .trustedProxies rules _ => do
    let ip := canonicalIp ip
    let index := partitionPoint (fun rule => decide (rule.cidr.firstAddress ≤ ip)) rules
    let rule ← rules[← checkedSub index 1]?
    if rule.cidr.contains ip then some rule else none
  | .noProxy | .trustAllProxies _ => none

def isTrustedProxy (config : ClientIpConfig) (ip : IpAddr) : Bool :=
  match config.trust with
  | .noProxy => false
  | .trustedProxies _ _ => (config.ruleFor ip).isSome
  | .trustAllProxies _ => true

end ClientIpConfig

end ClientAddr
