import Mathlib.Tactic.TFAE
import ChatRoom.Proofs.Outgoing
import ChatRoom.Proofs.Retirement

/-!
# Taking connections down

To take a connection down is four things: to take it off the roster, to let its outbox go, to tell
its reader to stop, and to tell those that are left. They are steps of their own, and which of them
are done by whom is spread over the server. Here they come together: of every peer that ever
registered, either none of the first three has been done, or all of them have (`Live`), and what one
request takes down is one connection, with everything that belongs to it and nothing that belongs to
another (`TakesDown`).

A peer is known by the order in which it registered, which is the number of its outbox. Its handle
names it for good as long as removals can be counted (`Enrolled`).
-/

namespace ChatRoom

open Arena

/-- How the log tells that a connection was taken down. -/
def Connection.parting (c : Connection) : LogEntry :=
  match c.user, c.isValidated with
  | some user, true => .left user.name c.label
  | _, _ => if c.rejected then .cleared c.label else .neverJoined c.label

/-- Whether a request is one to take a connection down. -/
def Request.isRemoval {ι : Type} : Request ι → Bool
  | .close _ | .kick _ | .dispatch _ (.disconnect _) => true
  | _ => false

namespace Server

/-- The connection that a request takes down, if it takes one down. -/
def target? (s : Server) : Request Handle → Option Handle
  | .close origin => (s.connection? origin).map fun _ => origin
  | .kick name => s.roster.findMember name none
  | .dispatch origin (.disconnect name) =>
    match s.connection? origin with
    | some c => if c.isValidated then s.roster.findMember name (some origin) else none
    | none => none
  | _ => none

/-- What is reported on a request before it takes a connection down. -/
def heading (s : Server) : Request Handle → List LogEntry
  | .kick name => [.kicking name]
  | .dispatch origin (.disconnect name) =>
    [.removed (((s.connection? origin).bind (·.name?)).getD "") name]
  | _ => []

/-- A request takes one connection down, and leaves all others as they are. -/
structure TakesDown (s : Server) (request : Request Handle) (h : Handle) (c : Connection) :
    Prop where
  linked : s.connection? h = some c
  gone : (s.step request).2.connection? h = none
  others : ∀ k, k ≠ h → (s.step request).2.connection? k = s.connection? k
  /-- Those that are left stay in their order. -/
  roster : (s.step request).2.roster.toList
    = s.roster.toList.filter fun item => decide (item.1 ≠ h)
  /-- Its outbox keeps what is queued, ends behind it, and is added to by nobody ever after. -/
  outbox : ∃ n, c.outbox = some n
    ∧ (s.step request).2.mail.box n = { s.mail.box n with sending := false, stopped := true }
    ∧ ∀ later, (((s.step request).2.run later).mail.box n).pending = (s.mail.box n).pending
        ∧ (((s.step request).2.run later).mail.box n).ended = true
  /-- The other outboxes are at most added to. -/
  outboxes : ∀ m, c.outbox ≠ some m → ∃ more, (s.step request).2.mail.box m
    = { s.mail.box m with records := (s.mail.box m).records ++ more }
  /-- The log tells of it once. -/
  log : (s.step request).2.log = s.log ++ s.heading request ++ [c.parting]
  level : c.parting.level = if c.isValidated then .info else if c.rejected then .debug else .warn

/-- Taking all connections down ends every one of them, and queues and reports nothing. -/
structure Clears (s : Server) : Prop where
  answer : (s.step .disconnectAll).1 = .disconnected s.roster.toList.length
  roster : (s.step .disconnectAll).2.roster.toList = []
  gone : ∀ h, (s.step .disconnectAll).2.connection? h = none
  outbox : ∀ h c n, s.connection? h = some c → c.outbox = some n →
    (s.step .disconnectAll).2.mail.box n = { s.mail.box n with sending := false, stopped := true }
  others : ∀ n, (∀ h c, s.connection? h = some c → c.outbox ≠ some n) →
    (s.step .disconnectAll).2.mail.box n = s.mail.box n
  log : (s.step .disconnectAll).2.log = s.log

/-! ## Live outboxes -/

/-- The server keeps a hall, and the two ends of every outbox tell whether its connection is
linked. -/
structure Live (s : Server) (hall : Hall Handle) : Prop where
  seated : Seated s hall
  sending : ∀ n < s.mail.boxes.length, (s.mail.box n).sending = true ↔ hall.Linked n
  stopped : ∀ n < s.mail.boxes.length, (s.mail.box n).stopped = true ↔ ¬ hall.Linked n

theorem live_empty (version : Version) : Live ({ version } : Server) {} where
  seated := seated_empty version
  sending := by simp
  stopped := by simp

variable {s : Server} {hall : Hall Handle}

/-- What a move does to an outbox, it does to the connection. -/
theorem live_deliver (h : s.Live hall) {outcome : Hall Handle × Option News}
    (hmove : Hall.Move s.version hall outcome) {n : Nat} (hn : n < s.mail.boxes.length) :
    (((hall.deliver s.mail outcome.2).box n).sending = true ↔ outcome.1.Linked n)
      ∧ (((hall.deliver s.mail outcome.2).box n).stopped = true ↔ ¬ outcome.1.Linked n) := by
  refine ⟨(Hall.onward_deliver h.seated.sound hmove hn (h.sending n hn)).2, ?_⟩
  rw [Hall.stopped_deliver hall hn, h.stopped n hn, Hall.linked_move h.seated.sound hmove]
  by_cases hl : hall.Linked n
  · simp [hl]
  · simp [hl]

theorem live_step (h : s.Live hall) (request : Request Handle) :
    (s.step request).2.Live (hall.step s.version s.roster.nextHandle request).1 := by
  obtain ⟨hseated, hmail⟩ := seated_step h.seated request
  have hboth : ∀ n < (s.step request).2.mail.boxes.length,
      (((s.step request).2.mail.box n).sending = true
          ↔ (hall.step s.version s.roster.nextHandle request).1.Linked n)
        ∧ (((s.step request).2.mail.box n).stopped = true
          ↔ ¬ (hall.step s.version s.roster.nextHandle request).1.Linked n) := by
    intro n hn
    rw [hmail] at hn ⊢
    have hmoved : (∀ address, request ≠ .register address) → n < s.mail.boxes.length → _ :=
      fun hq hlt => live_deliver h (Hall.move_step s.version s.roster.nextHandle hall hq) hlt
    cases request with
    | register address =>
        have hlt : n < s.mail.boxes.length + 1 := by simpa [Hall.mailAfter, Mail.add] using hn
        show ((s.mail.add.2.box n).sending = true ↔ _) ∧ ((s.mail.add.2.box n).stopped = true ↔ _)
        rw [Mail.box_add, Hall.linked_register]
        by_cases he : n = s.mail.boxes.length
        · simp [he, h.seated.outboxes]
        · have hold : n < s.mail.boxes.length := by omega
          have hne : n ≠ hall.arrived := h.seated.outboxes ▸ he
          simp only [he, hne, if_false, or_false]
          exact ⟨h.sending n hold, h.stopped n hold⟩
    | deafen m =>
        have hlt : n < s.mail.boxes.length := by simpa [Hall.mailAfter] using hn
        show (((s.mail.refuse m).box n).sending = true ↔ hall.Linked n)
          ∧ (((s.mail.refuse m).box n).stopped = true ↔ ¬ hall.Linked n)
        rw [Mail.box_refuse]
        split
        · exact ⟨h.sending n hlt, h.stopped n hlt⟩
        · exact ⟨h.sending n hlt, h.stopped n hlt⟩
    | dispatch origin record =>
        exact hmoved (by simp) (by simpa [Hall.mailAfter] using hn)
    | close origin => exact hmoved (by simp) (by simpa [Hall.mailAfter] using hn)
    | kick name => exact hmoved (by simp) (by simpa [Hall.mailAfter] using hn)
    | disconnectAll => exact hmoved (by simp) (by simpa [Hall.mailAfter] using hn)
  exact ⟨hseated, fun n hn => (hboth n hn).1, fun n hn => (hboth n hn).2⟩

/-- An outbox that has ended is left alone. -/
theorem box_step_of_ended (h : s.Live hall) {n : Nat} (hn : n < s.mail.boxes.length)
    (hended : (s.mail.box n).sending = false) (request : Request Handle) :
    ((s.step request).2.mail.box n).records = (s.mail.box n).records
      ∧ ((s.step request).2.mail.box n).taken = (s.mail.box n).taken
      ∧ ((s.step request).2.mail.box n).sending = false := by
  rw [(seated_step h.seated request).2]
  have hmoved : (∀ address, request ≠ .register address) →
      ((hall.deliver s.mail (hall.step s.version s.roster.nextHandle request).2).box n).records
          = (s.mail.box n).records
        ∧ ((hall.deliver s.mail (hall.step s.version s.roster.nextHandle request).2).box n).taken
          = (s.mail.box n).taken
        ∧ ((hall.deliver s.mail (hall.step s.version s.roster.nextHandle request).2).box n).sending
          = false := by
    intro hq
    have honward := (Hall.onward_deliver h.seated.sound
      (Hall.move_step s.version s.roster.nextHandle hall hq) hn (h.sending n hn)).1
    exact ⟨(honward.ended hended).1, honward.taken, (honward.ended hended).2⟩
  cases request with
  | register address =>
      show (s.mail.add.2.box n).records = _ ∧ (s.mail.add.2.box n).taken = _
        ∧ (s.mail.add.2.box n).sending = _
      rw [Mail.box_add, if_neg (Nat.ne_of_lt hn)]
      exact ⟨rfl, rfl, hended⟩
  | deafen m =>
      show ((s.mail.refuse m).box n).records = _ ∧ ((s.mail.refuse m).box n).taken = _
        ∧ ((s.mail.refuse m).box n).sending = _
      rw [Mail.box_refuse]
      split <;> exact ⟨rfl, rfl, hended⟩
  | dispatch origin record => exact hmoved (by simp)
  | close origin => exact hmoved (by simp)
  | kick name => exact hmoved (by simp)
  | disconnectAll => exact hmoved (by simp)

theorem length_boxes_le_step (h : Seated s hall) (request : Request Handle) :
    s.mail.boxes.length ≤ (s.step request).2.mail.boxes.length := by
  obtain ⟨hseated, -⟩ := seated_step h request
  rw [h.outboxes, hseated.outboxes]
  rcases request.register_or with ⟨address, rfl⟩ | hq
  · exact Nat.le_succ _
  · exact Nat.le_of_eq (Hall.arrived_step _ _ _ hq).symm

/-- **Nothing is queued for a connection that was taken down, and nothing that was is lost.** -/
theorem box_run_of_ended (h : s.Live hall) {n : Nat} (hn : n < s.mail.boxes.length)
    (hended : (s.mail.box n).sending = false) (requests : List (Request Handle)) :
    ((s.run requests).mail.box n).records = (s.mail.box n).records
      ∧ ((s.run requests).mail.box n).taken = (s.mail.box n).taken
      ∧ ((s.run requests).mail.box n).sending = false := by
  induction requests generalizing s hall with
  | nil => exact ⟨rfl, rfl, hended⟩
  | cons request rest ih =>
      obtain ⟨hrecords, htaken, hsending⟩ := box_step_of_ended h hn hended request
      have hlt := Nat.lt_of_lt_of_le hn (length_boxes_le_step h.seated request)
      obtain ⟨hrecords', htaken', hsending'⟩ := ih (live_step h request) hlt hsending
      exact ⟨hrecords'.trans hrecords, htaken'.trans htaken, hsending'⟩

theorem live_run (h : s.Live hall) (requests : List (Request Handle)) :
    s.mail.boxes.length ≤ (s.run requests).mail.boxes.length
      ∧ ∃ hall', (s.run requests).Live hall' := by
  refine run_preserves (P := fun t =>
    s.mail.boxes.length ≤ t.mail.boxes.length ∧ ∃ hall', t.Live hall') ?_ ⟨Nat.le_refl _, hall, h⟩
  rintro request - t ⟨hle, hall', ht⟩
  exact ⟨hle.trans (length_boxes_le_step ht.seated request), _, live_step ht request⟩

/-- A signal that was raised once stays raised. -/
theorem stopped_run (h : s.Live hall) {n : Nat} (hs : (s.mail.box n).stopped = true)
    (requests : List (Request Handle)) : ((s.run requests).mail.box n).stopped = true := by
  have hn : n < s.mail.boxes.length := by
    by_contra hge
    rw [Mail.box, List.getElem?_eq_none (Nat.le_of_not_lt hge)] at hs
    simp at hs
  have hended : (s.mail.box n).sending = false := by
    rw [Bool.eq_false_iff, ne_eq, h.sending n hn]
    exact (h.stopped n hn).mp hs
  obtain ⟨-, -, hsending⟩ := box_run_of_ended h hn hended requests
  obtain ⟨hle, hall', hlive⟩ := live_run h requests
  have hlt := Nat.lt_of_lt_of_le hn hle
  rw [hlive.stopped n hlt, ← hlive.sending n hlt, hsending]
  simp

/-! ## One connection -/

/-- The departure is told as the connection was. -/
theorem log_teardown (room : Room) (hr : room.roster.Holds hall.entries) {seat : Seat Handle}
    (hm : seat ∈ hall.seats) :
    (room.teardown seat.key).log = room.log ++ [seat.connection.parting] := by
  obtain ⟨r, hu, -⟩ := unlink_of_mem hr (List.mem_map.mpr ⟨seat, hm, rfl⟩)
  unfold Room.teardown
  rw [disconnect_of_unlink hu]
  unfold Seat.connection
  cases seat.standing <;> rfl

theorem level_parting {ι : Type} (seat : Seat ι) : seat.connection.parting.level
    = if seat.connection.isValidated then .info
      else if seat.connection.rejected then .debug else .warn := by
  unfold Seat.connection
  cases seat.standing <;> rfl

/-- Whoever leaves is not told of it. -/
theorem addressed_left_self {ι : Type} (hall : Hall ι) (n : Nat) (member : Option Identity) :
    addressed n (hall.letters (.left n member)) = [] := by
  cases member with
  | none => rfl
  | some user =>
      refine List.filterMap_eq_nil_iff.mpr fun letter hl => if_neg ?_
      obtain ⟨m, hm, rfl⟩ := List.mem_map.mp hl
      exact of_decide_eq_true (List.mem_filter.mp hm).2

/-- Only what is linked is a target. -/
theorem seat_of_target (h : Seated s hall) {request : Request Handle} {k : Handle}
    (ht : s.target? request = some k) : ∃ seat ∈ hall.seats, seat.key = k := by
  have hmember : ∀ name except, s.roster.findMember name except = some k →
      ∃ seat ∈ hall.seats, seat.key = k := by
    intro name except hf
    rw [findMember_of_holds h.roster] at hf
    obtain ⟨seat, hn, rfl⟩ := Option.map_eq_some_iff.mp hf
    obtain ⟨user, hm, -⟩ := Hall.named?_eq_some hn
    exact ⟨seat, (Hall.mem_membersOf.mp hm).1, rfl⟩
  unfold target? at ht
  split at ht
  · obtain ⟨c, hc, rfl⟩ := Option.map_eq_some_iff.mp ht
    obtain ⟨seat, hm, hk, -⟩ := seat_of_connection h hc
    exact ⟨seat, hm, hk⟩
  · exact hmember _ _ ht
  · split at ht
    · split at ht
      · exact hmember _ _ ht
      · exact absurd ht (by simp)
    · exact absurd ht (by simp)
  · exact absurd ht (by simp)

/-- A request that has a target takes it down, and reports who asked for it first. -/
theorem step_of_target {request : Request Handle} {k : Handle}
    (ht : s.target? request = some k) : (s.step request).2.toRoom
      = ({ s.toRoom with log := s.log ++ s.heading request } : Room).teardown k := by
  unfold target? at ht
  split at ht
  · obtain ⟨c, -, rfl⟩ := Option.map_eq_some_iff.mp ht
    show s.toRoom.teardown _ = ({ s.toRoom with log := s.log ++ [] } : Room).teardown _
    rw [List.append_nil]
  · show (s.kick _).2.toRoom = _
    rw [Server.kick, ht]
    rfl
  · rename_i origin name
    split at ht
    · rename_i c hc
      split at ht
      · rename_i hv
        show (s.onDisconnect origin name).2.toRoom = _
        rw [Server.onDisconnect, Server.asMember, hc]
        dsimp only
        rw [if_pos hv, ht, heading, hc]
        rfl
      · exact absurd ht (by simp)
    · exact absurd ht (by simp)
  · exact absurd ht (by simp)

/-- A request that would take a connection down, but has no target, takes nothing down. -/
theorem step_of_no_target (h : Seated s hall) {request : Request Handle}
    (hr : request.isRemoval = true) (ht : s.target? request = none) :
    (s.step request).2.roster = s.roster ∧ (s.step request).2.mail = s.mail := by
  unfold target? at ht
  split at ht
  · rename_i origin
    have hnone : s.connection? origin = none := Option.map_eq_none_iff.mp ht
    have hfind := find?_of_connection?_eq_none h hnone
    show (s.toRoom.teardown origin).roster = _ ∧ (s.toRoom.teardown origin).mail = _
    rw [teardown_of_none h.roster hfind]
    exact ⟨rfl, rfl⟩
  · show (s.kick _).2.roster = _ ∧ (s.kick _).2.mail = _
    rw [Server.kick, ht]
    exact ⟨rfl, rfl⟩
  · rename_i origin name
    show (s.onDisconnect origin name).2.roster = _ ∧ (s.onDisconnect origin name).2.mail = _
    unfold Server.onDisconnect Server.asMember
    split at ht
    · rename_i c hc
      rw [hc]
      dsimp only
      split at ht
      · rename_i hv
        rw [if_pos hv, ht]
        exact ⟨rfl, rfl⟩
      · rename_i hv
        rw [if_neg hv]
        exact ⟨rfl, rfl⟩
    · rename_i hc
      rw [hc]
      exact ⟨rfl, rfl⟩
  · rename_i hclose hkick hdisconnect
    cases request with
    | close origin => exact absurd rfl (hclose origin)
    | kick name => exact absurd rfl (hkick name)
    | dispatch origin record =>
        cases record with
        | disconnect name => exact absurd rfl (hdisconnect origin name)
        | _ => exact absurd hr (by simp [Request.isRemoval])
    | _ => exact absurd hr (by simp [Request.isRemoval])

/-- **What is taken down is taken down completely, and nothing else is.** -/
theorem takesDown_of_target (h : s.Live hall) {request : Request Handle} {k : Handle}
    (ht : s.target? request = some k) : ∃ c, s.TakesDown request k c := by
  obtain ⟨seat, hm, rfl⟩ := seat_of_target h.seated ht
  have hlive := live_step h request
  have hstep := step_of_target ht
  obtain ⟨hroster, hmail⟩ := teardown_of_mem { s.toRoom with log := s.log ++ s.heading request }
    h.seated.roster h.seated.sound hm
  have hlog := log_teardown { s.toRoom with log := s.log ++ s.heading request }
    h.seated.roster hm
  rw [← hstep] at hroster hmail hlog
  have hn : seat.outbox < s.mail.boxes.length :=
    h.seated.outboxes ▸ h.seated.sound.arrived seat hm
  have hbox : ∀ n, (s.step request).2.mail.box n
      = ((s.mail.endAll [seat.outbox]).postAll
          (hall.letters (.left seat.outbox seat.standing.user?))).box n :=
    fun n => congrArg (Mail.box · n) hmail
  have hown : (s.step request).2.mail.box seat.outbox
      = { s.mail.box seat.outbox with sending := false, stopped := true } := by
    rw [hbox, Mail.box_postAll, Mail.box_endAll_eq, addressed_left_self]
    simp [hn]
  refine ⟨seat.connection, connection?_of_seated h.seated hm, ?_, ?_, ?_,
    ⟨seat.outbox, seat.outbox_connection, hown, ?_⟩, ?_, hlog, level_parting seat⟩
  · refine (get?_eq_none_iff hroster).mpr ?_
    rw [← entries_remove]
    simp [without]
  · intro other hne
    refine Option.ext fun c => ?_
    rw [Room.connection?, Room.connection?, get?_eq_some_iff hroster,
      get?_eq_some_iff h.seated.roster, ← entries_remove]
    simp [without, hne]
  · rw [toList_of_holds hroster, toList_of_holds h.seated.roster, ← entries_remove]
    rfl
  · intro later
    have hlt := Nat.lt_of_lt_of_le hn (length_boxes_le_step h.seated request)
    have hended : ((s.step request).2.mail.box seat.outbox).sending = false := by rw [hown]
    obtain ⟨hrecords, htaken, hsending⟩ := box_run_of_ended hlive hlt hended later
    rw [hown] at hrecords htaken
    rw [Outbox.pending, Outbox.ended, hrecords, htaken, hsending]
    exact ⟨rfl, rfl⟩
  · intro m hne
    rw [seat.outbox_connection] at hne
    have hother : m ≠ seat.outbox := fun he => hne (congrArg some he.symm)
    refine ⟨if (s.mail.box m).receiving then
      addressed m (hall.letters (.left seat.outbox seat.standing.user?)) else [], ?_⟩
    rw [hbox, Mail.box_postAll, Mail.box_endAll_eq, if_neg (by simp [hother])]

/-! ## All connections -/

theorem clears_of_live (h : s.Live hall) : s.Clears := by
  obtain ⟨hcount, hroster, hmail⟩ := disconnectAll_of_holds s.toRoom h.seated.roster
  have hbox : ∀ n, (s.step .disconnectAll).2.mail.box n
      = (s.mail.endAll (hall.seats.map (·.outbox))).box n := fun n => congrArg (Mail.box · n) hmail
  refine ⟨?_, toList_of_holds hroster, fun k => (get?_eq_none_iff hroster).mpr (by simp), ?_, ?_,
    rfl⟩
  · rw [toList_of_holds h.seated.roster, Hall.entries, List.length_map, ← hcount]
    rfl
  · intro k c n hc ho
    obtain ⟨seat, hm, rfl, rfl⟩ := seat_of_connection h.seated hc
    obtain rfl := Option.some.inj (seat.outbox_connection.symm.trans ho)
    have hn : seat.outbox < s.mail.boxes.length :=
      h.seated.outboxes ▸ h.seated.sound.arrived seat hm
    rw [hbox, Mail.box_endAll_eq, if_pos ⟨List.mem_map_of_mem hm, hn⟩]
  · intro n hnone
    have hno : n ∉ hall.seats.map (·.outbox) := by
      intro hn
      obtain ⟨seat, hm, rfl⟩ := List.mem_map.mp hn
      exact hnone seat.key seat.connection (connection?_of_seated h.seated hm)
        seat.outbox_connection
    rw [hbox, Mail.box_endAll_eq, if_neg fun hall => hno hall.1]

/-! ## Peers -/

/-- The handles that were given out, in their order, name the peers. -/
structure Enrolled (s : Server) (hall : Hall Handle) (given : List Handle) : Prop where
  live : s.Live hall
  traced : s.Traced given
  distinct : given.Nodup
  arrived : given.length = hall.arrived
  /-- A linked connection has the handle that its peer was given. -/
  keys : ∀ seat ∈ hall.seats, given[seat.outbox]? = some seat.key

theorem enrolled_empty (version : Version) : Enrolled ({ version } : Server) {} [] where
  live := live_empty version
  traced := traced_empty version
  distinct := List.nodup_nil
  arrived := rfl
  keys := by simp

theorem removals_le_step (h : Seated s hall) (request : Request Handle) :
    s.removals ≤ (s.step request).2.removals := by
  rcases request.register_or with ⟨address, rfl⟩ | hq
  · exact Nat.le_of_eq (traced_register h address).1.symm
  · exact (traced_step h hq).1

theorem removals_le_run (h : Seated s hall) (requests : List (Request Handle)) :
    s.removals ≤ (s.run requests).removals := by
  refine (run_preserves (P := fun t => s.removals ≤ t.removals ∧ ∃ hall', Seated t hall') ?_
    ⟨Nat.le_refl _, hall, h⟩).1
  rintro request - t ⟨hle, hall', ht⟩
  exact ⟨hle.trans (removals_le_step ht request), _, (seated_step ht request).1⟩

theorem enrolled_step {given : List Handle} (h : s.Enrolled hall given) (request : Request Handle)
    (hroom : (s.step request).2.removals < UInt64.size) :
    (s.step request).2.Enrolled (hall.step s.version s.roster.nextHandle request).1
      (given ++ (s.step request).1.handle?.toList) := by
  have hlive := live_step h.live request
  rcases request.register_or with ⟨address, rfl⟩ | hq
  · have hgiven : (s.step (.register address)).1.handle?.toList = [s.roster.nextHandle] := by
      show [(s.register address).1] = _
      rw [fst_register h.live.seated]
    rw [hgiven]
    refine ⟨hlive, (traced_register h.live.seated address).2 given h.traced, ?_, ?_, ?_⟩
    · refine (List.perm_append_singleton s.roster.nextHandle given).nodup_iff.mpr ?_
      exact List.nodup_cons.mpr
        ⟨nextHandle_not_issued h.live.seated.roster h.traced.issued, h.distinct⟩
    · rw [List.length_append, h.arrived]
      rfl
    · intro seat hm
      rcases List.mem_append.mp hm with hold | hnew
      · have hlt : seat.outbox < given.length :=
          h.arrived ▸ h.live.seated.sound.arrived seat hold
        rw [List.getElem?_append_left hlt]
        exact h.keys seat hold
      · obtain rfl := List.mem_singleton.mp hnew
        show (given ++ _)[hall.arrived]? = _
        rw [← h.arrived]
        simp
  · rw [Lobby.handle?_step s hq, Option.toList_none, List.append_nil]
    refine ⟨hlive, (traced_step h.live.seated hq).2 given h.traced hroom, h.distinct, ?_, ?_⟩
    · rw [Hall.arrived_step _ _ _ hq]
      exact h.arrived
    · intro seat hm
      have hmove := Hall.move_step s.version s.roster.nextHandle hall hq
      obtain ⟨old, hold, hk, ho⟩ := Hall.mem_move hmove hm
      rw [← hk, ← ho]
      exact h.keys old hold

theorem enrolled_run {given : List Handle} (h : s.Enrolled hall given)
    (requests : List (Request Handle)) (hroom : (s.run requests).removals < UInt64.size) :
    ∃ hall', (s.run requests).Enrolled hall' (given ++ (s.books requests).1) := by
  induction requests generalizing s hall given with
  | nil =>
      rw [books, List.append_nil]
      exact ⟨hall, h⟩
  | cons request rest ih =>
      have hfirst := removals_le_run (seated_step h.live.seated request).1 rest
      have hstep := enrolled_step h request (Nat.lt_of_le_of_lt hfirst hroom)
      obtain ⟨hall', h'⟩ := ih hstep hroom
      rw [List.append_assoc] at h'
      exact ⟨hall', h'⟩

/-- A peer's handle finds a connection exactly while the peer's outbox is linked. -/
theorem isSome_connection?_iff {given : List Handle} (h : s.Enrolled hall given) {p : Nat}
    {k : Handle} (hp : given[p]? = some k) : (s.connection? k).isSome = true ↔ hall.Linked p := by
  constructor
  · intro hsome
    obtain ⟨c, hc⟩ := Option.isSome_iff_exists.mp hsome
    obtain ⟨seat, hm, rfl, -⟩ := seat_of_connection h.live.seated hc
    obtain ⟨hlt, -⟩ := List.getElem?_eq_some_iff.mp hp
    have hsame := (List.getElem?_inj hlt h.distinct).mp (hp.trans (h.keys seat hm).symm)
    exact hsame ▸ List.mem_map_of_mem hm
  · intro hl
    obtain ⟨seat, hm, rfl⟩ := List.mem_map.mp hl
    obtain rfl := Option.some.inj (hp.symm.trans (h.keys seat hm))
    rw [connection?_of_seated h.live.seated hm]
    rfl

end Server

/-- **A connection is there completely or not at all.** Of every peer that ever registered, these
are the same: its handle finds a connection, its outbox has not ended, its reader has not been told
to stop, and never was. A request that takes a connection down takes one down, with all that belongs
to it; and what takes all of them down counts them, and tells nobody. -/
theorem teardown_all_or_nothing (version : Version) (requests : List (Request Handle))
    (hroom : (({ version } : Server).run requests).removals < UInt64.size) :
    (∀ p h, (({ version } : Server).books requests).1[p]? = some h →
        [((({ version } : Server).run requests).connection? h).isSome = true,
          ((({ version } : Server).run requests).mail.box p).sending = true,
          ((({ version } : Server).run requests).mail.box p).stopped = false,
          ∀ before, before <+: requests →
            ((({ version } : Server).run before).mail.box p).stopped = false].TFAE)
      ∧ (∀ request h, (({ version } : Server).run requests).target? request = some h →
          ∃ c, (({ version } : Server).run requests).TakesDown request h c)
      ∧ (∀ request, request.isRemoval = true →
          (({ version } : Server).run requests).target? request = none →
            ((({ version } : Server).run requests).step request).2.roster
                = (({ version } : Server).run requests).roster
              ∧ ((({ version } : Server).run requests).step request).2.mail
                = (({ version } : Server).run requests).mail)
      ∧ (({ version } : Server).run requests).Clears := by
  obtain ⟨hall, h⟩ := Server.enrolled_run (Server.enrolled_empty version) requests hroom
  rw [List.nil_append] at h
  refine ⟨?_, fun request k => Server.takesDown_of_target h.live,
    fun request => Server.step_of_no_target h.live.seated, Server.clears_of_live h.live⟩
  intro p k hp
  have hn : p < (({ version } : Server).run requests).mail.boxes.length := by
    rw [h.live.seated.outboxes, ← h.arrived]
    exact (List.getElem?_eq_some_iff.mp hp).1
  have hlinked := Server.isSome_connection?_iff h hp
  have hsending := h.live.sending p hn
  have hstopped := h.live.stopped p hn
  tfae_have 1 ↔ 2 := hlinked.trans hsending.symm
  tfae_have 2 ↔ 3 := by
    rw [hsending, ← Bool.not_eq_true, hstopped, not_not]
  tfae_have 3 → 4 := by
    intro hquiet before hprefix
    obtain ⟨after, rfl⟩ := hprefix
    obtain ⟨-, hall', hlive⟩ := Server.live_run (Server.live_empty version) before
    rw [← Bool.not_eq_true]
    intro hraised
    rw [Server.run_append, Server.stopped_run hlive hraised after] at hquiet
    exact absurd hquiet (by simp)
  tfae_have 4 → 3 := fun hnever => hnever requests List.prefix_rfl
  tfae_finish

/-- Two are admitted, and the first one is removed. -/
def widowed : List (Request Handle) :=
  [.register none, .register none, .dispatch ⟨0, 0⟩ (.userInfo ⟨"ann", .current⟩),
    .dispatch ⟨1, 0⟩ (.userInfo ⟨"bob", .current⟩), .dispatch ⟨1, 0⟩ (.disconnect "ann")]

/-- Of the first one nothing is left, the second one is there completely, and can be removed. -/
theorem teardown_widowed :
    ((({} : Server).run widowed).mail.box 0).sending = false
      ∧ ((({} : Server).run widowed).mail.box 0).stopped = true
      ∧ (∀ before, before <+: widowed →
          ((({} : Server).run before).mail.box 1).stopped = false)
      ∧ ∃ c, (({} : Server).run widowed).TakesDown (.kick "bob") ⟨1, 0⟩ c := by
  obtain ⟨hpeers, hremoval, -, -⟩ := teardown_all_or_nothing .current widowed (by decide +kernel)
  have hfirst := hpeers 0 ⟨0, 0⟩ (by decide +kernel)
  have hsecond := hpeers 1 ⟨1, 0⟩ (by decide +kernel)
  have hgone : ((({} : Server).run widowed).connection? ⟨0, 0⟩).isSome ≠ true := by decide +kernel
  refine ⟨?_, ?_, (hsecond.out 0 3).mp (by decide +kernel), hremoval _ _ (by decide +kernel)⟩
  · exact Bool.eq_false_iff.mpr fun hs => hgone ((hfirst.out 0 1).mpr hs)
  · exact Bool.of_not_eq_false fun hs => hgone ((hfirst.out 0 2).mpr hs)

end ChatRoom
