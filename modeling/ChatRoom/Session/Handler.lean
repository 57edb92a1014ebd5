import ChatRoom.Roster.Arena
import ChatRoom.Session.Log
import ChatRoom.Wire.Record

/-!
# Handlers

A side of the conversation is a handler over a state of its own: one method for each kind of record,
which takes the handle of the connection that the record came from. Kinds that a side never expects
keep the default method, which refuses the record and leaves the state alone.
-/

namespace ChatRoom

/-- Whether to go on reading from where the record came. -/
inductive Verdict where
  | proceed
  | close
  deriving DecidableEq, Repr

def Verdict.name : Verdict → String
  | proceed => "Continue"
  | close => "Close"

abbrev Answer (σ : Type) := Except Refusal Verdict × σ

structure Handler (σ : Type) where
  /-- What this side calls itself when it refuses a record. -/
  role : String
  onStdout : Handle → String → σ → Answer σ :=
    fun _ _ s => (.error (.unsupported .stdout role), s)
  onUserInfo : Handle → Identity → σ → Answer σ :=
    fun _ _ s => (.error (.unsupported .userInfo role), s)
  onConnect : Handle → Identity → Bool → σ → Answer σ :=
    fun _ _ _ s => (.error (.unsupported .connect role), s)
  onDisconnect : Handle → String → σ → Answer σ :=
    fun _ _ s => (.error (.unsupported .disconnect role), s)
  onMessage : Handle → String → σ → Answer σ :=
    fun _ _ s => (.error (.unsupported .message role), s)
  /-- Nothing more will be read from this connection, for whatever reason. -/
  onClosed : Handle → σ → σ := fun _ s => s
  /-- Keeps an entry that is reported on this side's behalf. -/
  note : LogEntry → σ → σ := fun _ s => s

/-- Hands a record to the method for its kind. -/
def Handler.dispatch {σ : Type} (handler : Handler σ) (origin : Handle) (record : Record) (s : σ) :
    Answer σ :=
  match record with
  | .stdout text => handler.onStdout origin text s
  | .userInfo user => handler.onUserInfo origin user s
  | .connect user validateOnly => handler.onConnect origin user validateOnly s
  | .disconnect name => handler.onDisconnect origin name s
  | .message text => handler.onMessage origin text s

end ChatRoom
