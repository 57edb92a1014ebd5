import ChatRoom.Text.Utf8

/-!
# Byte sources

A stream hands out bytes, not records. How many it gives for one call is its own affair: a `Source`
is the bytes not yet taken together with a plan that says, call by call, how generous it is or with
what error it fails. A theorem about reading quantifies over all plans.

Zero bytes mean the end of the stream, although a plan may give zero bytes early and more of them
later. A source that `waits` does not end when it runs out of bytes: a call then has no answer yet,
not even a failure, whatever the plan has for it. Every answered call is kept in `calls`.
-/

namespace ChatRoom

/-- What a source does with one call. -/
inductive Gift where
  /-- As many bytes as are asked for. -/
  | all
  /-- This many bytes at most. -/
  | upTo (limit : Nat)
  | fail (cause : String)
  deriving DecidableEq, Repr

structure Source where
  /-- The bytes not yet taken. -/
  rest : Bytes
  /-- What each call meets, by its number. -/
  plan : Nat → Gift := fun _ => .all
  waits : Bool := false
  /-- The calls answered so far, oldest first: bytes asked for, and bytes given unless it failed. -/
  calls : List (Nat × Option Nat) := []

namespace Source

inductive Answer where
  | bytes (chunk : Bytes)
  | failed (cause : String)
  | waiting
  deriving DecidableEq, Repr

/-- One call for at most `asked` bytes. -/
def read (s : Source) (asked : Nat) : Answer × Source :=
  if s.waits ∧ s.rest = [] then (.waiting, s)
  else
    match s.plan s.calls.length with
    | .fail cause => (.failed cause, { s with calls := s.calls ++ [(asked, none)] })
    | .all => give asked
    | .upTo limit => give (min limit asked)
where
  give (wanted : Nat) : Answer × Source :=
    let chunk := s.rest.take wanted
    (.bytes chunk,
      { s with rest := s.rest.drop wanted, calls := s.calls ++ [(asked, some chunk.length)] })

/-- A plan that goes round a list; the empty list is always generous. -/
def cycle (gifts : List Gift) (call : Nat) : Gift :=
  (gifts[call % gifts.length]?).getD .all

/-- Bytes given are bytes taken from the front. -/
theorem rest_of_read {s s' : Source} {asked : Nat} {chunk : Bytes}
    (h : s.read asked = (.bytes chunk, s')) : s.rest = chunk ++ s'.rest := by
  unfold read at h
  split at h
  · simp at h
  · split at h
    · simp at h
    all_goals
      simp only [read.give, Prod.mk.injEq, Answer.bytes.injEq] at h
      obtain ⟨rfl, rfl⟩ := h
      simp

/-- A call that fails or waits takes nothing. -/
theorem rest_of_read_failed {s s' : Source} {asked : Nat} {cause : String}
    (h : s.read asked = (.failed cause, s')) : s'.rest = s.rest := by
  unfold read at h
  split at h
  · simp at h
  · split at h
    · simp only [Prod.mk.injEq] at h
      rw [← h.2]
    all_goals simp [read.give] at h

theorem eq_of_read_waiting {s s' : Source} {asked : Nat}
    (h : s.read asked = (.waiting, s')) : s' = s := by
  unfold read at h
  split at h
  · simp only [Prod.mk.injEq, true_and] at h
    exact h.symm
  · split at h
    · simp at h
    all_goals simp [read.give] at h

end Source

end ChatRoom
