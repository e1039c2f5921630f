import ClientAddr.Model.Errors
import ClientAddr.Model.Resolve
import ClientAddr.Net.Display

/-! # The extractor

The extractor reads the config from the application state and the socket peer from
the connection information of the request. Without that information the plain
extractor rejects the request, and the optional one does not apply to it.
-/

namespace ClientAddr

open Net

/-- A client address is written as the address, without its source. -/
def ClientIp.display (clientIp : ClientIp) : Text := clientIp.ip.display

class ClientIpConfigSource (S : Type) where
  clientIpConfig : S → ClientIpConfig

instance : ClientIpConfigSource ClientIpConfig := ⟨id⟩

/-- What the extractor reads of a request. -/
structure Parts where
  headers : HeaderMap
  connectInfo : Option SocketAddr

section FromRequestParts

variable {S : Type} [ClientIpConfigSource S]

open ClientIpConfigSource

def fromRequestParts (parts : Parts) (state : S) : Except ClientIpRejection ClientIp :=
  match parts.connectInfo with
  | none => .error .missingConnectInfo
  | some socketAddr => .ok ((clientIpConfig state).resolveClientIp parts.headers socketAddr.ip)

/-- The extractor behind `Option`, which never rejects. -/
def optionalFromRequestParts (parts : Parts) (state : S) : Option ClientIp :=
  match parts.connectInfo with
  | none => none
  | some socketAddr => some ((clientIpConfig state).resolveClientIp parts.headers socketAddr.ip)

/-- The optional extractor answers what the plain one does, where that does not reject. -/
theorem optionalFromRequestParts_eq (parts : Parts) (state : S) :
    optionalFromRequestParts parts state = (fromRequestParts parts state).toOption := by
  unfold optionalFromRequestParts fromRequestParts
  cases parts.connectInfo <;> rfl

end FromRequestParts

end ClientAddr
