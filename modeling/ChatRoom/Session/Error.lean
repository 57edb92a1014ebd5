import ChatRoom.Wire.Header

/-!
# What can go wrong

A `Refusal` is the answer of one side to a record that it does not accept. A `ChatError` is anything
that ends a connection or a request: an unreadable record, a refused one, a failure of the system
underneath, or a request made at the wrong time.
-/

namespace ChatRoom

inductive Refusal where
  /-- This side never handles such records. -/
  | unsupported (kind : Kind) (role : String)
  /-- Only members may send such records. -/
  | notValidated (kind : Kind)
  | alreadyValidated
  deriving DecidableEq, Repr

def Refusal.message : Refusal → String
  | unsupported kind role => kind.name ++ " records are not handled by the " ++ role
  | notValidated kind => kind.name ++ " record received before the handshake completed"
  | alreadyValidated => "connection has already completed the handshake"

/-- What a file or the network may fail with. -/
inductive IoFault where
  | notFound
  | invalidData
  | connectionRefused
  | networkUnreachable
  | addressInUse
  | other (text : String)
  deriving DecidableEq, Repr

def IoFault.text : IoFault → String
  | notFound => "not found"
  | invalidData => "invalid data"
  | connectionRefused => "connection refused"
  | networkUnreachable => "network unreachable"
  | addressInUse => "address in use"
  | other text => text

inductive ChatError where
  | frame (error : FrameError)
  | refused (refusal : Refusal)
  | io (fault : IoFault)
  /-- A client could not be let in for a reason of the system. -/
  | accept (cause : String)
  | invalidConfig
  | invalidName
  | notConnected
  | connectionLost
  deriving DecidableEq, Repr

def ChatError.message : ChatError → String
  | frame error => error.message
  | refused refusal => refusal.message
  | io fault => "I/O error: " ++ fault.text
  | accept cause => "failed to accept connection: " ++ cause
  | invalidConfig => "invalid configuration"
  | invalidName => "your username cannot be empty"
  | notConnected => "the connection to the server is closed"
  | connectionLost => "the server connection has closed unexpectedly"

end ChatRoom
