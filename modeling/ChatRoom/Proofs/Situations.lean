import ChatRoom.Proofs.ServerSteps

/-!
# Where a connection can stand

A connection of the server carries a stage, a user and a mark for removal, and each operation
changes some of the three. Eight pairs of stage and mark are conceivable, each with or without a
user; only three combinations ever occur, whatever is asked of the server and whoever asks it. That
is the invariant behind the rest of the server: a connection whose handshake was begun has been
judged, what was judged unfit is marked, and a member has a name of its own that passed the checks.

The reason is that the server keeps a hall. A seat has one standing, and the three fields of its
connection are read off it.
-/

namespace ChatRoom

open Arena

/-- The ways in which a linked connection can stand. -/
inductive Situation where
  | unpresented
  | turnedAway
  | admitted
  deriving DecidableEq, Repr

/-- What stage, user and mark are in each situation, on a server that wants this version. -/
def Connection.In (version : Version) (c : Connection) : Situation → Prop
  | .unpresented => c.stage = .connected ∧ c.user = none ∧ c.rejected = false
  | .turnedAway => c.stage = .pendingValidation ∧ c.user.isSome ∧ c.rejected = true
  | .admitted => c.stage = .validated ∧ c.rejected = false
      ∧ ∃ user, c.user = some user ∧ user.name ≠ "" ∧ user.version = version

/-- How the linked connections of a server stand. -/
structure Server.InOrder (version : Version) (s : Server) : Prop where
  /-- The walk along the roster meets every connection that a handle finds, and no other. -/
  listed : ∀ h c, s.connection? h = some c ↔ (h, c) ∈ s.roster.toList
  /-- It meets each of them once. -/
  once : (s.roster.toList.map (·.1)).Nodup
  /-- Each is in exactly one situation. -/
  situated : ∀ h c, s.connection? h = some c → ∃! situation, c.In version situation
  /-- A closed connection is not linked. -/
  stillOpen : ∀ h c, s.connection? h = some c → c.stage ≠ .closed
  /-- Members do not share a name. -/
  apart : ∀ h c h' c', s.connection? h = some c → s.connection? h' = some c' → h ≠ h' →
    c.stage = .validated → c'.stage = .validated → c.name? ≠ c'.name?

namespace Server

/-- The state after some requests, one after the other. -/
def run (s : Server) (requests : List (Request Handle)) : Server :=
  requests.foldl (fun s request => (s.step request).2) s

theorem run_append (s : Server) (requests more : List (Request Handle)) :
    s.run (requests ++ more) = (s.run requests).run more := List.foldl_append

/-- What every request preserves is preserved by all of them. -/
theorem run_preserves {P : Server → Prop} {requests : List (Request Handle)}
    (hstep : ∀ request ∈ requests, ∀ s, P s → P (s.step request).2) {s : Server} (h : P s) :
    P (s.run requests) := by
  induction requests generalizing s with
  | nil => exact h
  | cons request rest ih =>
      have hrest : ∀ next ∈ rest, ∀ s, P s → P (s.step next).2 :=
        fun next hn => hstep next (List.mem_cons_of_mem _ hn)
      exact ih hrest (hstep request List.mem_cons_self s h)

theorem seated_empty (version : Version) : Seated ({ version } : Server) {} :=
  ⟨holds_empty, rfl, Hall.sound_empty version⟩

theorem seated_run {s : Server} {hall : Hall Handle} (h : Seated s hall)
    (requests : List (Request Handle)) :
    (s.run requests).version = s.version ∧ ∃ hall', Seated (s.run requests) hall' := by
  refine run_preserves (P := fun t => t.version = s.version ∧ ∃ hall', Seated t hall') ?_
    ⟨rfl, hall, h⟩
  rintro request - t ⟨hv, hall', ht⟩
  exact ⟨(version_step t request).trans hv, _, (seated_step ht request).1⟩

/-! ## Seats and situations -/

/-- The situation of a seat. -/
def situationOf : Standing → Situation
  | .waiting => .unpresented
  | .refused _ => .turnedAway
  | .member _ => .admitted

theorem situated_seat {version : Version} {hall : Hall Handle} (hs : hall.Sound version)
    {seat : Seat Handle} (hm : seat ∈ hall.seats) :
    seat.connection.In version (situationOf seat.standing)
      ∧ ∀ situation, seat.connection.In version situation →
          situation = situationOf seat.standing := by
  unfold Seat.connection
  cases hst : seat.standing with
  | waiting =>
      refine ⟨⟨rfl, rfl, rfl⟩, ?_⟩
      intro situation hin
      -- the stages of the three situations are different
      cases situation with
      | unpresented => rfl
      | turnedAway => exact absurd hin.1 (by simp)
      | admitted => exact absurd hin.1 (by simp)
  | refused user =>
      refine ⟨⟨rfl, rfl, rfl⟩, ?_⟩
      intro situation hin
      cases situation with
      | unpresented => exact absurd hin.1 (by simp)
      | turnedAway => rfl
      | admitted => exact absurd hin.1 (by simp)
  | member user =>
      have hchecked := hs.checked (seat, user) (Hall.mem_membersOf.mpr ⟨hm, hst⟩)
      refine ⟨⟨rfl, rfl, user, rfl, hchecked⟩, ?_⟩
      intro situation hin
      cases situation with
      | unpresented => exact absurd hin.1 (by simp)
      | turnedAway => exact absurd hin.1 (by simp)
      | admitted => rfl

/-- A seat whose connection is validated is a member's. -/
theorem member_of_validated {seat : Seat Handle} (hv : seat.connection.stage = .validated) :
    ∃ user, seat.standing = .member user ∧ seat.connection.name? = some user.name := by
  unfold Seat.connection at hv ⊢
  cases hst : seat.standing with
  | waiting => rw [hst] at hv; exact absurd hv (by simp)
  | refused user => rw [hst] at hv; exact absurd hv (by simp)
  | member user => exact ⟨user, rfl, rfl⟩

/-- Whatever a handle finds is the connection of a seat. -/
theorem seat_of_connection {s : Server} {hall : Hall Handle} (h : Seated s hall) {k : Handle}
    {c : Connection} (hc : s.connection? k = some c) :
    ∃ seat ∈ hall.seats, seat.key = k ∧ seat.connection = c := by
  have hm := (get?_eq_some_iff h.roster).mp hc
  obtain ⟨seat, hseat, he⟩ := List.mem_map.mp hm
  obtain ⟨hk, hconn⟩ := Prod.mk.inj he
  exact ⟨seat, hseat, hk, hconn⟩

theorem inOrder_of_seated {s : Server} {hall : Hall Handle} (h : Seated s hall) :
    s.InOrder s.version := by
  refine ⟨?_, ?_, ?_, ?_, ?_⟩
  · intro k c
    rw [toList_of_holds h.roster]
    exact get?_eq_some_iff h.roster
  · rw [toList_of_holds h.roster]
    exact handles_nodup h.roster
  · intro k c hc
    obtain ⟨seat, hm, -, rfl⟩ := seat_of_connection h hc
    obtain ⟨hin, hunique⟩ := situated_seat h.sound hm
    exact ⟨situationOf seat.standing, hin, hunique⟩
  · intro k c hc
    obtain ⟨seat, -, -, rfl⟩ := seat_of_connection h hc
    unfold Seat.connection
    cases seat.standing <;> simp
  · intro k c k' c' hc hc' hne hv hv' hname
    obtain ⟨seat, hm, rfl, rfl⟩ := seat_of_connection h hc
    obtain ⟨seat', hm', rfl, rfl⟩ := seat_of_connection h hc'
    obtain ⟨user, hst, hu⟩ := member_of_validated hv
    obtain ⟨user', hst', hu'⟩ := member_of_validated hv'
    -- one name is one member, and so one seat
    have hsame : user.name = user'.name := by
      rw [hu, hu'] at hname
      exact Option.some.inj hname
    have hpair := List.inj_on_of_nodup_map h.sound.names (Hall.mem_membersOf.mpr ⟨hm, hst⟩)
      (Hall.mem_membersOf.mpr ⟨hm', hst'⟩) hsame
    exact hne (congrArg (·.1.key) hpair)

/-- **Whatever is asked of a server, by live, stale or invented handles, its linked connections are
unpresented, turned away or admitted, and the admitted ones have names of their own.** -/
theorem run_inOrder (version : Version) (requests : List (Request Handle)) :
    (({ version } : Server).run requests).InOrder version := by
  obtain ⟨hv, hall, h⟩ := seated_run (seated_empty version) requests
  have horder := inOrder_of_seated h
  rw [hv] at horder
  exact horder

end Server

/-! ## Members -/

/-- A validated connection is a member's. -/
theorem member_of_connection {s : Server} {hall : Hall Handle} (h : Seated s hall) {k : Handle}
    {c : Connection} (hc : s.connection? k = some c) (hv : c.stage = .validated) :
    ∃ m ∈ hall.members, m.1.key = k ∧ m.1.connection = c := by
  obtain ⟨seat, hs, hk, rfl⟩ := Server.seat_of_connection h hc
  obtain ⟨user, hst, -⟩ := Server.member_of_validated hv
  exact ⟨(seat, user), Hall.mem_membersOf.mpr ⟨hs, hst⟩, hk, rfl⟩

namespace Server

/-- A linked connection that has been admitted. -/
structure Member (s : Server) (h : Handle) (c : Connection) : Prop where
  linked : s.connection? h = some c
  validated : c.stage = .validated

variable {s : Server} {hall : Hall Handle}

theorem member_of_mem (h : Seated s hall) {m : Seat Handle × Identity} (hm : m ∈ hall.members) :
    s.Member m.1.key m.1.connection ∧ m.1.connection.name? = some m.2.name := by
  obtain ⟨hseat, hst⟩ := Hall.mem_membersOf.mp hm
  refine ⟨⟨connection?_of_seated h hseat, ?_⟩, name?_of_member hm⟩
  rw [Seat.connection, hst]

theorem mem_of_member (h : Seated s hall) {k : Handle} {c : Connection} (hc : s.Member k c) :
    ∃ m ∈ hall.members, m.1.key = k ∧ m.1.connection = c ∧ c.name? = some m.2.name := by
  obtain ⟨m, hm, hk, rfl⟩ := member_of_connection h hc.linked hc.validated
  exact ⟨m, hm, hk, rfl, name?_of_member hm⟩

end Server

end ChatRoom
