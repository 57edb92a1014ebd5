import ChatRoom.Session.Log

/-!
# Error policies

What to do about an error that belongs to no single request. A policy answers whether to go on, and
may report the error to the log.
-/

namespace ChatRoom

inductive Reaction where
  | proceed
  | terminate
  deriving DecidableEq, Repr

inductive ErrorPolicy where
  /-- Go on and say nothing. -/
  | ignore
  /-- Report and go on. -/
  | log
  /-- Report and stop at the first error. -/
  | terminate
  /-- Leave the answer to a function, and report nothing. -/
  | custom (react : ChatError → Severity → Reaction)

/-- The answer to an error, and what is reported. Before it stops, a policy reports any error as a
fatal one. -/
def ErrorPolicy.handle (policy : ErrorPolicy) (error : ChatError) (severity : Severity) :
    Reaction × List LogEntry :=
  match policy with
  | ignore => (.proceed, [])
  | log => (.proceed, [.trouble severity error])
  | terminate => (.terminate, [.trouble .fatal error])
  | custom react => (react error severity, [])

/-- Stops at fatal errors only. -/
def ErrorPolicy.stopAtFatal : ErrorPolicy :=
  .custom fun _ severity =>
    match severity with
    | .fatal => .terminate
    | .recoverable => .proceed

end ChatRoom
