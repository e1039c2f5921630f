import ClientAddr.Model.CidrMerge

/-! # Errors

The message of a failed build names both rules. How a network is written belongs to
the package of the networks, so it is a parameter. The rejection of a request is a
mistake in the setup of the server, and its response says nothing about it.
-/

namespace ClientAddr

/-- Name the client IP header of a rule, for an error message. -/
def describeClientIpHeader (rule : TrustedProxyRule) : Text :=
  match rule.clientIpHeader with
  | some header => header.asStr
  | none => "no client IP header".toList

def ClientIpConfigBuildError.display (network : IpCidr → Text) : ClientIpConfigBuildError → Text
  | overlappingTrustedProxyRules left right =>
    "trusted proxy CIDRs overlap but use different client IP headers: ".toList ++
      (network left.cidr ++ " (".toList ++ describeClientIpHeader left ++ ") overlaps ".toList ++
        network right.cidr ++ " (".toList ++ describeClientIpHeader right ++ ")".toList)

structure Response where
  status : ℕ
  body : Text
  deriving DecidableEq, Repr

inductive ClientIpRejection | missingConnectInfo
  deriving DecidableEq, Repr

namespace ClientIpRejection

def display : ClientIpRejection → Text
  | missingConnectInfo => ("missing ConnectInfo<SocketAddr>; start axum with " ++
      "into_make_service_with_connect_info::<SocketAddr>()").toList

def intoResponse : ClientIpRejection → Response
  | missingConnectInfo => ⟨500, "Internal Server Error".toList⟩

end ClientIpRejection

end ClientAddr
