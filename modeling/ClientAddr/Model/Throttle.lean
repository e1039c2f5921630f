import ClientAddr.Iter.Keyed
import ClientAddr.Model.Extractor

/-! # A throttle by client address

The middleware of the throttle example: every request for the handler's route is
charged to its client address, and the handler reports that address. The rate limiter
belongs to another package and is a parameter: a machine that is given a key and the time
of the check, and allows the check or not. Requests stand in the order of their checks,
the only step that touches what they share.
-/

namespace ClientAddr

/-- A rate limiter by address, from a key and the time of its check to whether it is allowed. -/
abbrev KeyedLimiter (Instant : Type) := Machine (IpAddr × Instant) Bool

/-- The state of the application besides the limiter. -/
structure AppState where
  clientIpConfig : ClientIpConfig

instance : ClientIpConfigSource AppState := ⟨AppState.clientIpConfig⟩

def ClientIpSource.debug : ClientIpSource → Text
  | configuredHeader header => "ConfiguredHeader(\"".toList ++ header.asStr ++ "\")".toList
  | chainHeader header => "ChainHeader(\"".toList ++ header.asStr ++ "\")".toList
  | socket => "Socket".toList

def handler (clientIp : ClientIp) : Response where
  status := 200
  body := "client_ip=".toList ++ clientIp.ip.display ++ " source=".toList ++
    clientIp.source.debug ++ "\n".toList

def tooManyRequests (clientIp : ClientIp) : Response where
  status := 429
  body := "too many requests from ".toList ++ clientIp.ip.display ++ "\n".toList

/-- Charge a request to its client address, and pass it on if the limiter allows it. -/
def rateLimit {Instant : Type} (limiter : KeyedLimiter Instant) (state : AppState) :
    Instant × Parts → limiter.State → Response × limiter.State
  | (now, parts), cells =>
    match fromRequestParts parts state with
    | .error rejection => (rejection.intoResponse, cells)
    | .ok clientIp =>
      let (allowed, cells) := limiter.step (clientIp.ip, now) cells
      (if allowed then handler clientIp else tooManyRequests clientIp, cells)

/-- The service that answers one request after the other. -/
def throttle {Instant : Type} (limiter : KeyedLimiter Instant) (state : AppState) :
    Machine (Instant × Parts) Response where
  State := limiter.State
  init := limiter.init
  step := rateLimit limiter state

end ClientAddr
