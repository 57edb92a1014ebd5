import ChatRoom.Session.Handler
import ChatRoom.Wire.Reader

/-!
# Receiving

Records are read off a stream and handed to a handler one by one; each is handled before the next is
read. It ends when the stream ends or cannot be read, when the handler closes the connection or
refuses a record, or when the reader is told to stop.

The signal to stop may come while there is still something to be read, and a reader is free to look
at either first. This one looks at the signal last: it stops when it would have to wait for more
(`Handler.serve`). Another may leave unread what this one still reads.
-/

namespace ChatRoom

/-- Why nothing more is read from a connection. -/
inductive Ending where
  /-- The peer has ended the stream between two records. -/
  | endOfStream
  /-- The handler asked for it. -/
  | closed
  /-- Somebody else has taken the connection down. -/
  | stopped
  | failed (error : ChatError)
  deriving DecidableEq, Repr

def Ending.name : Ending → String
  | endOfStream => "EndOfStream"
  | closed => "Closed"
  | stopped => "Stopped"
  | failed _ => "Failed"

/-- Handles records until there is an ending, or until the source has to send more first. -/
def Handler.receive {σ : Type} (handler : Handler σ) (origin : Handle) (r : Reader) (s : σ) :
    Option Ending × Reader × σ :=
  match _ : r.next with
  | (.failed e, r) => (some (.failed (.frame e)), r, s)
  | (.waiting, r) => (none, r, s)
  | (.done none, r) => (some .endOfStream, r, s)
  | (.done (some record), r') =>
    match handler.dispatch origin record (handler.note (.received origin record.kind) s) with
    | (.ok .proceed, s) => handler.receive origin r' s
    | (.ok .close, s) => (some .closed, r', s)
    | (.error refusal, s) => (some (.failed (.refused refusal)), r', s)
termination_by r.pending.length
decreasing_by exact Reader.length_pending_next_lt (by assumption)

/-- Handles records until there is an ending. A reader that is told to stop does so when it would
have to wait, after everything that is there to be read. It might as well have stopped in front of
any of the records: which comes first is left open, and this is one choice (`Hub.quit` is the
other). -/
def Handler.serve {σ : Type} (handler : Handler σ) (origin : Handle) (stopped : Bool) (r : Reader)
    (s : σ) : Option Ending × Reader × σ :=
  match handler.receive origin r s with
  | (none, r, s) => (if stopped then some .stopped else none, r, s)
  | ended => ended

end ChatRoom
