import ChatRoom.Config.Basic
import ChatRoom.Session.Error

/-!
# The network

What a server and a client need of a network: to listen at an address, and to reach an address that
somebody listens at. A host name leads to an address or leads nowhere. Only one can listen at an
address.
-/

namespace ChatRoom

structure Network where
  /-- Where a host name leads. -/
  route : String → Option IpAddress := fun _ => none
  /-- The addresses that somebody listens at. -/
  listening : List SocketAddress := []

namespace Network

/-- Starts to listen at a server's address. -/
def listen (net : Network) (config : ServerConfig) : Except ChatError Network :=
  if config.address ∈ net.listening then .error (.io .addressInUse)
  else .ok { net with listening := config.address :: net.listening }

/-- Reaches a client's server, at the address that comes back. -/
def reach (net : Network) (config : ClientConfig) : Except ChatError SocketAddress :=
  match net.route config.host with
  | none => .error (.io .networkUnreachable)
  | some ip =>
    let address : SocketAddress := { ip, port := config.port }
    if address ∈ net.listening then .ok address else .error (.io .connectionRefused)

end Network

end ChatRoom
