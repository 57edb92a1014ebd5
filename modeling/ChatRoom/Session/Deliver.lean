import ChatRoom.Session.Log
import ChatRoom.Wire.Writer

/-!
# Delivering

What is queued for a peer is written to it record by record. When no more will come and all is
written, the target is shut down. A record that cannot be written is reported, and nothing is
written after it; whoever reads from that peer is then to stop.
-/

namespace ChatRoom

/-- What came of writing what was queued. -/
inductive Delivery where
  /-- All is written, and more may come. -/
  | written
  /-- All is written, no more will come, and the target has been shut down or at least asked to. -/
  | finished
  /-- A record could not be written. -/
  | failed
  deriving DecidableEq, Repr

/-- Writes records to a peer; `last` says that no more will come. -/
def deliver (peer : String) (records : List Record) (last : Bool) (t : Target) :
    Delivery × List LogEntry × Target :=
  match t.writeRecords records with
  | (.error (record, cause), t) => (.failed, [.sendFailed record.kind peer cause], t)
  | (.ok (), t) =>
    if last then
      match t.shutdown with
      | (.error cause, t) => (.finished, [.shutdownFailed peer cause], t)
      | (.ok (), t) => (.finished, [], t)
    else (.written, [], t)

end ChatRoom
