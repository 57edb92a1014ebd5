import ChatRoom.Wire.Codec

/-!
# Writing records to a stream

A target takes as much of each write as it likes; how much is its plan. Once it is full it takes
nothing more and every write fails. A write that is taken in no part at all is an error too, so a
record is either written whole or the writer stops inside it.

When every record is written the target is shut down, which is how the peer learns that no more
will come.
-/

namespace ChatRoom

structure Target where
  /-- The bytes taken so far. -/
  taken : Bytes := []
  /-- The most that each write call may take, by its number; `none` is no limit. -/
  plan : Nat → Option Nat := fun _ => none
  /-- With this many bytes taken, writes fail for the given cause. -/
  full : Option (Nat × String) := none
  /-- The cause for which shutting down fails, if it does. -/
  stuck : Option String := none
  /-- Write calls that took something or nothing, but did not fail. -/
  turn : Nat := 0
  /-- How often it has been asked to shut down. -/
  asked : Nat := 0
  /-- Whether it has been shut down. -/
  shut : Bool := false

namespace Target

/-- One write call: how many of the bytes were taken. -/
def write (t : Target) (bs : Bytes) : Except String Nat × Target :=
  match t.full with
  | some (capacity, cause) =>
    if capacity ≤ t.taken.length then (.error cause, t)
    else take (capacity - t.taken.length)
  | none => take bs.length
where
  take (room : Nat) : Except String Nat × Target :=
    let wanted := min room ((t.plan t.turn).getD bs.length)
    (.ok (bs.take wanted).length,
      { t with taken := t.taken ++ bs.take wanted, turn := t.turn + 1 })

/-- A plan that goes round a list; the empty list sets no limit. -/
def cycle (limits : List Nat) (call : Nat) : Option Nat :=
  limits[call % limits.length]?

/-- Writes until every byte is taken. -/
def writeAll (t : Target) (bs : Bytes) : Except String Unit × Target :=
  if bs = [] then (.ok (), t)
  else
    match t.write bs with
    | (.error cause, t) => (.error cause, t)
    | (.ok 0, t) => (.error "write zero", t)
    | (.ok (n + 1), t) => t.writeAll (bs.drop (n + 1))
termination_by bs.length
decreasing_by
  have : bs ≠ [] := by assumption
  have : 0 < bs.length := List.length_pos_iff.mpr this
  simp only [List.length_drop]
  omega

/-- Writes records one after the other, up to the first that cannot be written. -/
def writeRecords : Target → List Record → Except (Record × String) Unit × Target
  | t, [] => (.ok (), t)
  | t, record :: rest =>
    match t.writeAll record.encode with
    | (.error cause, t) => (.error (record, cause), t)
    | (.ok (), t) => writeRecords t rest

/-- Shuts the target down. -/
def shutdown (t : Target) : Except String Unit × Target :=
  match t.stuck with
  | some cause => (.error cause, { t with asked := t.asked + 1 })
  | none => (.ok (), { t with asked := t.asked + 1, shut := true })

end Target

end ChatRoom
