import ChatRoom.Roster.Arena
import ChatRoom.Session.Error
import ChatRoom.Wire.Version

/-!
# The log

Events that the two sides report, each with its level and its line. A log is the list of events, so
what was reported can be compared without looking at any text.

A refused handshake has a reason, which is told twice: to the log, and to the client in a notice.
-/

namespace ChatRoom

inductive Level where
  | error
  | warn
  | info
  | debug
  deriving DecidableEq, Repr

def Level.name : Level → String
  | error => "error"
  | warn => "warn"
  | info => "info"
  | debug => "debug"

/-- Why a client is not admitted. -/
inductive Denial where
  | emptyName
  | wrongVersion (given expected : Version)
  | nameTaken
  deriving DecidableEq, Repr

/-- What the client is told. -/
def Denial.notice : Denial → String
  | emptyName => "Your username cannot be empty!\n"
  | wrongVersion given expected =>
    "Your client version is " ++ given.text ++ ", however the server expects a client version of "
      ++ expected.text ++ "!\n"
  | nameTaken => "Sorry, another client is already connected with that name!\n"

/-- How grave an error is for the side that it happens to. -/
inductive Severity where
  /-- That side can go on. -/
  | recoverable
  /-- It is going down already. -/
  | fatal
  deriving DecidableEq, Repr

inductive LogEntry where
  | denied (name peer : String) (denial : Denial)
  | joined (name peer : String)
  /-- A member has been taken down. -/
  | left (name peer : String)
  /-- A refused connection has been taken down. -/
  | cleared (peer : String)
  /-- A connection has been taken down that had not presented itself. -/
  | neverJoined (peer : String)
  | kicking (name : String)
  | removed (requester name : String)
  | removeUnknown (requester name : String)
  | learned (name : String)
  | received (origin : Handle) (kind : Kind)
  | sendFailed (kind : Kind) (peer cause : String)
  | shutdownFailed (peer cause : String)
  | trouble (severity : Severity) (error : ChatError)
  deriving DecidableEq, Repr

namespace LogEntry

def level : LogEntry → Level
  | denied .. | neverJoined _ | sendFailed .. | trouble .recoverable _ => .warn
  | joined .. | left .. | kicking _ | removed .. => .info
  | cleared _ | removeUnknown .. | learned _ | received .. | shutdownFailed .. => .debug
  | trouble .fatal _ => .error

/-- A name between quotes. -/
def quoted (name : String) : String := "\"" ++ name ++ "\""

def text : LogEntry → String
  | denied _ peer .emptyName => "Client from address " ++ peer ++ " sent an empty username"
  | denied name peer (.wrongVersion given expected) =>
    "Client " ++ quoted name ++ " (" ++ peer ++ ") failed to connect as its version is "
      ++ given.text ++ ", however the server expects version " ++ expected.text
  | denied name peer .nameTaken =>
    "Client " ++ quoted name ++ " (" ++ peer
      ++ ") failed to connect as the given username is already occupied"
  | joined name peer => "Client " ++ quoted name ++ " (" ++ peer ++ ") has connected"
  | left name peer => "Client " ++ quoted name ++ " (" ++ peer ++ ") has disconnected"
  | cleared peer => "Removed rejected client from address " ++ peer
  | neverJoined peer => "Client from address " ++ peer ++ " failed to connect"
  | kicking name => "Kicking client " ++ quoted name
  | removed requester name => "Client " ++ quoted requester ++ " removed client " ++ quoted name
  | removeUnknown requester name =>
    "Client " ++ quoted requester ++ " asked to remove unknown client " ++ quoted name
  | learned name => "Learned of client " ++ quoted name
  | received origin kind => origin.text ++ ": " ++ kind.name ++ " record"
  | sendFailed kind peer cause =>
    "Failed to send " ++ kind.name ++ " record to " ++ peer ++ ": " ++ cause
  | shutdownFailed peer cause => "Shutdown of " ++ peer ++ " failed: " ++ cause
  | trouble _ error => error.message

end LogEntry

end ChatRoom
