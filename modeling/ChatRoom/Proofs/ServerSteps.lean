import ChatRoom.Proofs.PlainList
import ChatRoom.Proofs.Seating

/-!
# One request

Whatever is asked of the server, it does what the hall's rule for that request says, to the roster
and to the mail. `Room.Follows` is that statement for one operation; each operation has one lemma,
and `seated_step` puts them together.
-/

namespace ChatRoom

open Arena

/-- A room has become what a rule made of the hall, and has delivered what the rule gave. -/
structure Room.Follows (room : Room) (hall : Hall Handle) (mail : Mail)
    (outcome : Hall Handle × Option News) : Prop where
  roster : room.roster.Holds outcome.1.entries
  mail : room.mail = hall.deliver mail outcome.2

namespace Server

theorem follows_nothing (room : Room) {hall : Hall Handle} (hr : room.roster.Holds hall.entries) :
    room.Follows hall room.mail (hall, none) := ⟨hr, rfl⟩

theorem follows_teardown (room : Room) {version : Version} {hall : Hall Handle}
    (hr : room.roster.Holds hall.entries) (hs : hall.Sound version) {seat : Seat Handle}
    (hm : seat ∈ hall.seats) :
    (room.teardown seat.key).Follows hall room.mail (hall.leave seat) :=
  have h := teardown_of_mem _ hr hs hm
  ⟨h.1, h.2⟩

/-! ## Records -/

section Records

variable {s : Server} {hall : Hall Handle} {seat : Seat Handle}

theorem connection?_of_seated (h : Seated s hall) (hm : seat ∈ hall.seats) :
    s.connection? seat.key = some seat.connection :=
  (get?_eq_some_iff h.roster).mpr (List.mem_map.mpr ⟨seat, hm, rfl⟩)

theorem connection?_of_none (h : Seated s hall) {origin : Handle} (hf : hall.find? origin = none) :
    s.connection? origin = none := by
  rw [Room.connection?, get?_of_holds h.roster, hf]
  rfl

/-- Where a handle finds no connection, there is no seat. -/
theorem find?_of_connection?_eq_none (h : Seated s hall) {origin : Handle}
    (hc : s.connection? origin = none) : hall.find? origin = none := by
  rw [Room.connection?, get?_of_holds h.roster] at hc
  exact Option.map_eq_none_iff.mp hc

theorem follows_userInfo (h : Seated s hall) (hm : seat ∈ hall.seats) (user : Identity) :
    (s.onUserInfo seat.key user).2.toRoom.Follows hall s.mail
      (hall.receive s.version seat (.userInfo user)) := by
  have hconn := connection?_of_seated h hm
  unfold Server.onUserInfo
  rw [hconn]
  dsimp only
  cases hst : seat.standing with
  | waiting =>
      have hstage : ¬ seat.connection.stage ≠ .connected := by simp [Seat.connection, hst]
      have hdenial := denial?_of_holds
        (s := { s with toRoom := s.toRoom.update seat.key (·.present user) })
        (f := (·.present user)) h.roster h.sound hm hst user rfl
      rw [if_neg hstage, hdenial]
      simp only [Hall.receive, hst]
      -- presenting has changed the roster already, and each verdict finishes the change
      cases hall.denial? s.version user with
      | some denial =>
          obtain ⟨hroster, hmail⟩ := deny_of_holds ((s.toRoom.update seat.key
            (·.present user)).note (.denied user.name seat.connection.label denial))
            h.roster h.sound hm hst rfl denial
          exact ⟨hroster, hmail⟩
      | none =>
          obtain ⟨hroster, hmail⟩ := welcome_of_holds (s.toRoom.update seat.key (·.present user))
            h.roster h.sound hm hst rfl seat.connection.label
          exact ⟨hroster, hmail⟩
  | refused known =>
      have hstage : seat.connection.stage ≠ .connected := by simp [Seat.connection, hst]
      rw [if_pos hstage]
      simp only [Hall.receive, hst]
      exact follows_nothing s.toRoom h.roster
  | member known =>
      have hstage : seat.connection.stage ≠ .connected := by simp [Seat.connection, hst]
      rw [if_pos hstage]
      simp only [Hall.receive, hst]
      exact follows_nothing s.toRoom h.roster

/-- Only a member's request is run. -/
theorem asMember_of_seated (h : Seated s hall) (hm : seat ∈ hall.seats) (kind : Kind)
    (request : Connection → Room) :
    (s.asMember seat.key kind request).2 =
      match seat.standing with
      | .member _ => { s with toRoom := request seat.connection }
      | _ => s := by
  unfold Server.asMember
  rw [connection?_of_seated h hm]
  dsimp only
  rw [Seat.isValidated_connection]
  cases seat.standing <;> rfl

theorem follows_message (h : Seated s hall) (hm : seat ∈ hall.seats) (text : String) :
    (s.onMessage seat.key text).2.toRoom.Follows hall s.mail
      (hall.receive s.version seat (.message text)) := by
  unfold Server.onMessage
  rw [asMember_of_seated h hm]
  cases hst : seat.standing with
  | member speaker =>
      have hname : seat.connection.name?.getD "" = speaker.name := by
        simp [Seat.connection, hst, Connection.name?]
      simp only [Hall.receive, hst, hname]
      refine ⟨h.roster, ?_⟩
      show (Roster.broadcast s.roster s.mail (some seat.key)
        (.stdout (Hall.line speaker.name text))).2 = _
      rw [Roster.snd_broadcast, letters_of_holds h.roster, others_of_mem h.sound hm]
      rfl
  | waiting =>
      simp only [Hall.receive, hst]
      exact follows_nothing s.toRoom h.roster
  | refused known =>
      simp only [Hall.receive, hst]
      exact follows_nothing s.toRoom h.roster

theorem follows_disconnect (h : Seated s hall) (hm : seat ∈ hall.seats) (name : String) :
    (s.onDisconnect seat.key name).2.toRoom.Follows hall s.mail
      (hall.receive s.version seat (.disconnect name)) := by
  unfold Server.onDisconnect
  rw [asMember_of_seated h hm]
  cases hst : seat.standing with
  | member requester =>
      simp only [Hall.receive, hst]
      rw [findMember_of_holds h.roster]
      cases ht : hall.named? name (some seat.key) with
      | some target =>
          obtain ⟨user, hmem, -⟩ := Hall.named?_eq_some ht
          exact follows_teardown (s.toRoom.note _) h.roster h.sound
            (Hall.mem_membersOf.mp hmem).1
      | none => exact follows_nothing (s.toRoom.note _) h.roster
  | waiting =>
      simp only [Hall.receive, hst]
      exact follows_nothing s.toRoom h.roster
  | refused known =>
      simp only [Hall.receive, hst]
      exact follows_nothing s.toRoom h.roster

end Records

/-- **A record does to the server what the hall's rules say.** -/
theorem follows_dispatch {s : Server} {hall : Hall Handle} (h : Seated s hall) (origin : Handle)
    (record : Record) :
    (s.step (.dispatch origin record)).2.toRoom.Follows hall s.mail
      (hall.step s.version s.roster.nextHandle (.dispatch origin record)) := by
  rw [Hall.step]
  cases hf : hall.find? origin with
  | some seat =>
      obtain ⟨hm, rfl⟩ := Hall.find?_eq_some hf
      cases record with
      | stdout text => exact follows_nothing s.toRoom h.roster
      | connect user validateOnly => exact follows_nothing s.toRoom h.roster
      | userInfo user => exact follows_userInfo h hm user
      | message text => exact follows_message h hm text
      | disconnect name => exact follows_disconnect h hm name
  | none =>
      -- a handle without a connection, stale or invented, gets the record refused
      have hconn := connection?_of_none h hf
      cases record with
      | stdout text => exact follows_nothing s.toRoom h.roster
      | connect user validateOnly => exact follows_nothing s.toRoom h.roster
      | userInfo user =>
          show (s.onUserInfo origin user).2.toRoom.Follows _ _ _
          rw [Server.onUserInfo, hconn]
          exact follows_nothing s.toRoom h.roster
      | message text =>
          show (s.onMessage origin text).2.toRoom.Follows _ _ _
          rw [Server.onMessage, Server.asMember, hconn]
          exact follows_nothing s.toRoom h.roster
      | disconnect name =>
          show (s.onDisconnect origin name).2.toRoom.Follows _ _ _
          rw [Server.onDisconnect, Server.asMember, hconn]
          exact follows_nothing s.toRoom h.roster

/-! ## Connections that end -/

theorem follows_close {s : Server} {hall : Hall Handle} (h : Seated s hall) (origin : Handle) :
    (s.step (.close origin)).2.toRoom.Follows hall s.mail
      (hall.step s.version s.roster.nextHandle (.close origin)) := by
  show (s.toRoom.teardown origin).Follows _ _ _
  rw [Hall.step]
  cases hf : hall.find? origin with
  | some seat =>
      obtain ⟨hm, rfl⟩ := Hall.find?_eq_some hf
      exact follows_teardown s.toRoom h.roster h.sound hm
  | none =>
      rw [teardown_of_none h.roster hf]
      exact follows_nothing s.toRoom h.roster

theorem follows_kick {s : Server} {hall : Hall Handle} (h : Seated s hall) (name : String) :
    (s.step (.kick name)).2.toRoom.Follows hall s.mail
      (hall.step s.version s.roster.nextHandle (.kick name)) := by
  show (s.kick name).2.toRoom.Follows _ _ _
  rw [Hall.step, Server.kick, findMember_of_holds h.roster]
  cases ht : hall.named? name none with
  | some target =>
      obtain ⟨user, hmem, -⟩ := Hall.named?_eq_some ht
      exact follows_teardown (s.toRoom.note _) h.roster h.sound
        (Hall.mem_membersOf.mp hmem).1
  | none => exact follows_nothing s.toRoom h.roster

/-- Taking everyone down leaves no seat, counts the seats that there were, and ends their
outboxes. -/
theorem disconnectAll_of_holds (room : Room) {hall : Hall Handle}
    (hr : room.roster.Holds hall.entries) :
    room.disconnectAll.1 = hall.seats.length
      ∧ room.disconnectAll.2.roster.Holds []
      ∧ room.disconnectAll.2.mail = room.mail.endAll (hall.seats.map (·.outbox)) := by
  have hkeys : room.roster.toList.map (·.1) = hall.entries.map (·.1) := by
    rw [toList_of_holds hr]
  have houtboxes : hall.entries.flatMap (·.2.outbox.toList) = hall.seats.map (·.outbox) := by
    have hone : ∀ seat ∈ hall.seats, seat.entry.2.outbox.toList = [seat.outbox] := by
      intro seat _
      show seat.connection.outbox.toList = _
      rw [seat.outbox_connection]
      rfl
    rw [Hall.entries, List.flatMap_map, List.flatMap_congr hone, List.map_eq_flatMap]
  obtain ⟨hcount, hleft, hmail⟩ := Roster.disconnectEach_of_listed hall.entries hr room.mail
  rw [← hkeys] at hcount hleft hmail
  rw [houtboxes] at hmail
  exact ⟨hcount.trans (List.length_map _), hleft, hmail⟩

theorem follows_disconnectAll {s : Server} {hall : Hall Handle} (h : Seated s hall) :
    (s.step .disconnectAll).2.toRoom.Follows hall s.mail
      (hall.step s.version s.roster.nextHandle .disconnectAll) := by
  obtain ⟨-, hroster, hmail⟩ := disconnectAll_of_holds s.toRoom h.roster
  exact ⟨hroster, hmail⟩

/-! ## Every request -/

/-- Linking a connection seats it behind all the others. -/
theorem holds_register {s : Server} {hall : Hall Handle} (h : Seated s hall)
    (address : Option SocketAddress) :
    (s.register address).2.roster.Holds
      (hall.step s.version s.roster.nextHandle (.register address)).1.entries := by
  have hold := holds_link h.roster (.remote address s.mail.boxes.length)
  have hentries : (hall.step s.version s.roster.nextHandle (.register address)).1.entries
      = hall.entries ++ [(s.roster.nextHandle, .remote address s.mail.boxes.length)] := by
    rw [Hall.entries, Hall.step, List.map_append, h.outboxes]
    rfl
  rw [hentries]
  exact hold

theorem fst_register {s : Server} {hall : Hall Handle} (h : Seated s hall)
    (address : Option SocketAddress) : (s.register address).1 = s.roster.nextHandle :=
  fst_link h.roster _

theorem version_step (s : Server) (request : Request Handle) :
    (s.step request).2.version = s.version := by
  cases request with
  | register address => rfl
  | dispatch origin record =>
      cases record with
      | stdout text => rfl
      | connect user validateOnly => rfl
      | userInfo user =>
          show (s.onUserInfo origin user).2.version = _
          unfold Server.onUserInfo
          split
          · rfl
          · split
            · rfl
            · dsimp only
              split <;> rfl
      | message text =>
          show (s.asMember origin _ _).2.version = _
          unfold Server.asMember
          split
          · rfl
          · split <;> rfl
      | disconnect name =>
          show (s.asMember origin _ _).2.version = _
          unfold Server.asMember
          split
          · rfl
          · split <;> rfl
  | close origin => rfl
  | kick name =>
      show (s.kick name).2.version = _
      unfold Server.kick
      split <;> rfl
  | disconnectAll => rfl
  | deafen n => rfl

theorem fresh_of_seated {s : Server} {hall : Hall Handle} (h : Seated s hall) :
    s.roster.nextHandle ∉ hall.seats.map (·.key) := by
  rw [← Hall.entries_keys]
  intro hm
  obtain ⟨entry, hentry, he⟩ := List.mem_map.mp hm
  exact index_ne_nextSlot h.roster hentry (congrArg Handle.index he)

/-- What a request that registers nobody does follows the rule for it. -/
theorem seated_of_follows {s s' : Server} {hall : Hall Handle} (h : Seated s hall)
    {request : Request Handle} (hq : ∀ address, request ≠ .register address)
    (hv : s'.version = s.version)
    (hf : s'.toRoom.Follows hall s.mail (hall.step s.version s.roster.nextHandle request)) :
    Seated s' (hall.step s.version s.roster.nextHandle request).1 := by
  refine ⟨hf.roster, ?_, ?_⟩
  · rw [hf.mail, Hall.length_boxes_deliver, h.outboxes, Hall.arrived_step _ _ _ hq]
  · rw [hv]
    exact Hall.sound_step h.sound (fresh_of_seated h) request

/-- **Whatever is asked, the server stays a hall, and the hall's rule says what becomes of it and
what is queued.** -/
theorem seated_step {s : Server} {hall : Hall Handle} (h : Seated s hall)
    (request : Request Handle) :
    Seated (s.step request).2 (hall.step s.version s.roster.nextHandle request).1
      ∧ (s.step request).2.mail
          = hall.mailAfter s.mail request (hall.step s.version s.roster.nextHandle request).2 := by
  have hv := version_step s request
  cases request with
  | register address =>
      refine ⟨⟨holds_register h address, ?_, ?_⟩, rfl⟩
      · show (s.mail.boxes ++ [({} : Outbox)]).length = hall.arrived + 1
        rw [List.length_append, h.outboxes]
        rfl
      · exact Hall.sound_step h.sound (fresh_of_seated h) (.register address)
  | dispatch origin record =>
      have hf := follows_dispatch h origin record
      exact ⟨seated_of_follows h (by simp) hv hf, hf.mail⟩
  | close origin =>
      have hf := follows_close h origin
      exact ⟨seated_of_follows h (by simp) hv hf, hf.mail⟩
  | kick name =>
      have hf := follows_kick h name
      exact ⟨seated_of_follows h (by simp) hv hf, hf.mail⟩
  | disconnectAll =>
      have hf := follows_disconnectAll h
      exact ⟨seated_of_follows h (by simp) hv hf, hf.mail⟩
  | deafen n =>
      exact ⟨⟨h.roster, (Mail.length_boxes_refuse s.mail n).trans h.outboxes, h.sound⟩, rfl⟩

end Server

end ChatRoom
