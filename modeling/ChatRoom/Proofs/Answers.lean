import ChatRoom.Proofs.Lobby

/-!
# What a server can be asked and seen to do

A request is answered, a line may appear on the console, and one can look up how a connection stands
and who is there. All of that can be read off the hall: an answer depends on the standing of the one
who asks and on whether its name would do, only what is said reaches the console, and a peer's
connection is that of its seat.

So two servers answer alike if their halls do. An answer may show a handle, or how many connections
were taken down; `Reply.bare` leaves both out.
-/

namespace ChatRoom

open Arena

/-- An answer without the handle that it gives and the number that it counts. -/
def Reply.bare : Reply → Reply
  | .registered _ => .registered ⟨0, 0⟩
  | .answered answer => .answered answer
  | .kicked found => .kicked found
  | .disconnected _ => .disconnected 0
  | .done => .done

/-- What a record is answered that comes from a connection in this standing, or from none at all. -/
def Standing.answer (denied : Identity → Bool) : Option Standing → Record →
    Except Refusal Verdict
  | _, .stdout _ => .error (.unsupported .stdout Server.handler.role)
  | _, .connect .. => .error (.unsupported .connect Server.handler.role)
  | none, .userInfo _ | none, .message _ | none, .disconnect _ => .ok .close
  | some .waiting, .userInfo user => .ok (if denied user then .close else .proceed)
  | some _, .userInfo _ => .error .alreadyValidated
  | some (.member _), .message _ | some (.member _), .disconnect _ => .ok .proceed
  | some _, .message _ => .error (.notValidated .message)
  | some _, .disconnect _ => .error (.notValidated .disconnect)

namespace Hall

variable {ι : Type} [DecidableEq ι]

def answer (version : Version) (hall : Hall ι) (origin : ι) (record : Record) :
    Except Refusal Verdict :=
  Standing.answer (fun user => (hall.denial? version user).isSome)
    ((hall.find? origin).map (·.standing)) record

/-- What a request is answered, without handles and counts. -/
def reply (version : Version) (hall : Hall ι) : Request ι → Reply
  | .register _ => .registered ⟨0, 0⟩
  | .dispatch origin record => .answered (hall.answer version origin record)
  | .kick name => .kicked (hall.named? name none).isSome
  | .disconnectAll => .disconnected 0
  | .close _ | .deafen _ => .done

end Hall

/-- The console after some news: what was said is shown, and nothing else. -/
def Transcript.after (console : Transcript) : Option News → Transcript
  | some (.said _ speaker text) => console.write (Hall.line speaker.name text)
  | _ => console

/-! ## Answers -/

namespace Server

variable {s : Server} {hall : Hall Handle}

theorem answer_userInfo (h : Seated s hall) (origin : Handle) (user : Identity) :
    (s.onUserInfo origin user).1 = hall.answer s.version origin (.userInfo user) := by
  unfold Server.onUserInfo Hall.answer
  cases hf : hall.find? origin with
  | none =>
      rw [connection?_of_none h hf]
      rfl
  | some seat =>
      obtain ⟨hm, rfl⟩ := Hall.find?_eq_some hf
      rw [connection?_of_seated h hm]
      dsimp only
      cases hst : seat.standing with
      | waiting =>
          have hstage : ¬ seat.connection.stage ≠ .connected := by simp [Seat.connection, hst]
          have hdenial := denial?_of_holds
            (s := { s with toRoom := s.toRoom.update seat.key (·.present user) })
            (f := (·.present user)) h.roster h.sound hm hst user rfl
          rw [if_neg hstage, hdenial, Option.map_some, hst]
          rcases Option.eq_none_or_eq_some (hall.denial? s.version user) with hd | ⟨denial, hd⟩
          · simp [hd, Standing.answer]
          · simp [hd, Standing.answer]
      | refused known =>
          have hstage : seat.connection.stage ≠ .connected := by simp [Seat.connection, hst]
          rw [if_pos hstage, Option.map_some, hst]
          rfl
      | member known =>
          have hstage : seat.connection.stage ≠ .connected := by simp [Seat.connection, hst]
          rw [if_pos hstage, Option.map_some, hst]
          rfl

theorem answer_asMember (h : Seated s hall) (origin : Handle) (kind : Kind)
    (request : Connection → Room) :
    (s.asMember origin kind request).1 =
      match (hall.find? origin).map (·.standing) with
      | none => .ok .close
      | some (.member _) => .ok .proceed
      | some _ => .error (.notValidated kind) := by
  unfold Server.asMember
  cases hf : hall.find? origin with
  | none =>
      rw [connection?_of_none h hf]
      rfl
  | some seat =>
      obtain ⟨hm, rfl⟩ := Hall.find?_eq_some hf
      rw [connection?_of_seated h hm]
      dsimp only
      rw [Seat.isValidated_connection, Option.map_some]
      cases seat.standing <;> rfl

theorem answer_dispatch (h : Seated s hall) (origin : Handle) (record : Record) :
    (Server.handler.dispatch origin record s).1 = hall.answer s.version origin record := by
  cases record with
  | stdout text => rfl
  | connect user validateOnly => rfl
  | userInfo user => exact answer_userInfo h origin user
  | message text =>
      refine (answer_asMember h origin .message _).trans ?_
      rw [Hall.answer]
      generalize (hall.find? origin).map (·.standing) = standing
      rcases standing with _ | _ | _ | _ <;> rfl
  | disconnect name =>
      refine (answer_asMember h origin .disconnect _).trans ?_
      rw [Hall.answer]
      generalize (hall.find? origin).map (·.standing) = standing
      rcases standing with _ | _ | _ | _ <;> rfl

/-- **Answers are the hall's.** -/
theorem bare_step (h : Seated s hall) (request : Request Handle) :
    (s.step request).1.bare = hall.reply s.version request := by
  cases request with
  | register address => rfl
  | dispatch origin record => exact congrArg Reply.answered (answer_dispatch h origin record)
  | close origin => rfl
  | kick name =>
      have hfound : (s.kick name).1 = (hall.named? name none).isSome := by
        unfold Server.kick
        rw [findMember_of_holds h.roster]
        cases hall.named? name none <;> rfl
      exact congrArg Reply.kicked hfound
  | disconnectAll => rfl
  | deafen n => rfl

/-! ## The console -/

theorem console_teardown (room : Room) (h : Handle) :
    (room.teardown h).console = room.console := by
  unfold Room.teardown
  cases room.roster.disconnect room.mail h with
  | none => rfl
  | some result =>
      obtain ⟨departure, roster, mail⟩ := result
      dsimp only
      split <;> rfl

theorem console_send (room : Room) (h : Handle) (record : Record) :
    (room.send h record).2.console = room.console := by
  unfold Room.send
  split <;> rfl

theorem console_welcome (room : Room) (origin : Handle) (user : Identity) (peer : String) :
    (room.welcome origin user peer).console = room.console := by
  unfold Room.welcome
  dsimp only
  split
  · exact console_send _ _ _
  · exact console_send _ _ _

theorem console_userInfo (s : Server) (origin : Handle) (user : Identity) :
    (s.onUserInfo origin user).2.console = s.console := by
  unfold Server.onUserInfo
  split
  · rfl
  · split
    · rfl
    · dsimp only
      split
      · exact console_send _ _ _
      · exact console_welcome _ _ _ _

theorem console_disconnect (s : Server) (origin : Handle) (name : String) :
    (s.onDisconnect origin name).2.console = s.console := by
  unfold Server.onDisconnect Server.asMember
  split
  · rfl
  · split
    · dsimp only
      split
      · exact console_teardown _ _
      · rfl
    · rfl

theorem console_message (h : Seated s hall) (origin : Handle) (text : String) :
    (s.onMessage origin text).2.console
      = s.console.after (hall.step s.version s.roster.nextHandle
          (.dispatch origin (.message text))).2 := by
  rw [Hall.step]
  cases hf : hall.find? origin with
  | none =>
      rw [Server.onMessage, Server.asMember, connection?_of_none h hf]
      rfl
  | some seat =>
      obtain ⟨hm, rfl⟩ := Hall.find?_eq_some hf
      unfold Server.onMessage
      rw [asMember_of_seated h hm]
      cases hst : seat.standing with
      | member speaker =>
          have hname : seat.connection.name?.getD "" = speaker.name := by
            simp [Seat.connection, hst, Connection.name?]
          simp only [Hall.receive, hst, hname]
          rfl
      | waiting => simp only [Hall.receive, hst]; rfl
      | refused known => simp only [Hall.receive, hst]; rfl

/-- Only what is said is shown. -/
theorem after_of_not_said {console : Transcript} {news : Option News}
    (hn : ∀ n speaker text, news ≠ some (.said n speaker text)) : console.after news = console := by
  cases news with
  | none => rfl
  | some told =>
      cases told with
      | said n speaker text => exact absurd rfl (hn n speaker text)
      | _ => rfl

end Server

/-- Only a member's message is something said. -/
theorem Hall.message_of_said {ι : Type} [DecidableEq ι] {version : Version} {fresh : ι}
    {hall : Hall ι} {request : Request ι} {n : Nat} {speaker : Identity} {text : String}
    (h : (hall.step version fresh request).2 = some (.said n speaker text)) :
    ∃ origin, request = .dispatch origin (.message text) := by
  cases request with
  | dispatch origin record =>
      rw [step] at h
      split at h
      · cases record with
        | message line =>
            unfold receive at h
            dsimp only at h
            split at h
            · simp only [Option.some.injEq, News.said.injEq] at h
              exact ⟨origin, by rw [h.2.2]⟩
            · exact absurd h (by simp)
        | userInfo user =>
            unfold receive at h
            dsimp only at h
            split at h
            · split at h <;> exact absurd h (by simp)
            · exact absurd h (by simp)
        | disconnect name =>
            unfold receive at h
            dsimp only at h
            split at h
            · split at h <;> exact absurd h (by simp [leave])
            · exact absurd h (by simp)
        | stdout line => exact absurd h (by simp [receive])
        | connect user validateOnly => exact absurd h (by simp [receive])
      · exact absurd h (by simp)
  | register address => exact absurd h (by simp [step])
  | close origin =>
      rw [step] at h
      split at h <;> exact absurd h (by simp [leave])
  | kick name =>
      rw [step] at h
      split at h <;> exact absurd h (by simp [leave])
  | disconnectAll => exact absurd h (by simp [step])
  | deafen outbox => exact absurd h (by simp [step])

namespace Server

variable {s : Server} {hall : Hall Handle}

/-- **The console shows what is said.** -/
theorem console_step (h : Seated s hall) (request : Request Handle) :
    (s.step request).2.console
      = s.console.after (hall.step s.version s.roster.nextHandle request).2 := by
  have hsilent : (∀ origin text, request ≠ .dispatch origin (.message text)) →
      s.console.after (hall.step s.version s.roster.nextHandle request).2 = s.console := by
    intro hq
    refine after_of_not_said ?_
    intro n speaker text hsaid
    obtain ⟨origin, rfl⟩ := Hall.message_of_said hsaid
    exact hq origin text rfl
  cases request with
  | register address => rfl
  | dispatch origin record =>
      cases record with
      | message text => exact console_message h origin text
      | userInfo user =>
          rw [hsilent (by simp)]
          exact console_userInfo s origin user
      | disconnect name =>
          rw [hsilent (by simp)]
          exact console_disconnect s origin name
      | stdout text =>
          rw [hsilent (by simp)]
          rfl
      | connect user validateOnly =>
          rw [hsilent (by simp)]
          rfl
  | close origin =>
      rw [hsilent (by simp)]
      exact console_teardown s.toRoom origin
  | kick name =>
      rw [hsilent (by simp)]
      show (s.kick name).2.console = _
      unfold Server.kick
      split
      · exact console_teardown _ _
      · rfl
  | disconnectAll => rfl
  | deafen n => rfl

theorem memberNames_of_seated (h : Seated s hall) :
    s.memberNames = hall.members.map (·.2.name) := by
  show (Roster.members s.roster none).filterMap _ = _
  rw [names_of_holds h.roster, others_none]

end Server

/-! ## Peers -/

namespace Lobby

/-- The connection of a peer that has come, if it is still there. -/
def connection? (lobby : Lobby) (peer : Nat) : Option Connection :=
  lobby.handles[peer]?.bind lobby.server.connection?

/-- What a peer's request is answered, unless it has not come. -/
def reply? (lobby : Lobby) (request : Request Nat) : Option Reply :=
  (request.rename? (lobby.handles[·]?)).map fun request => (lobby.server.step request).1

variable {lobby : Lobby} {hall : Hall Nat}

theorem find?_handle (h : lobby.Matches hall) {peer : Nat} (hp : peer < lobby.handles.length) :
    (hall.rename lobby.handle).find? (lobby.handle peer)
      = (hall.find? peer).map (Seat.rename lobby.handle) := Hall.find?_rename (told h hp)

/-- A peer's connection is that of its seat. -/
theorem connection?_of_matches (h : lobby.Matches hall) (peer : Nat) :
    lobby.connection? peer = (hall.find? peer).map Seat.connection := by
  rw [connection?]
  rcases Nat.lt_or_ge peer lobby.handles.length with hp | hp
  · rw [getElem?_handle hp, Option.bind_some, Room.connection?, get?_of_holds h.seated.roster,
      find?_handle h hp, Option.map_map]
    rfl
  · have hnone : lobby.handles[peer]? = none := List.getElem?_eq_none hp
    rw [hnone, find?_of_absent h hnone]
    rfl

/-- **The console shows what is said among peers.** -/
theorem console_step (h : lobby.Matches hall) (request : Request Nat) :
    (lobby.step request).server.console = lobby.server.console.after
      (hall.step lobby.server.version hall.arrived request).2 := by
  rcases request.register_or with ⟨address, rfl⟩ | hq
  · rfl
  · rcases rename?_cases lobby.handles hq with
      ⟨peer, ho, hp, hr⟩ | ⟨request', hr, hq', hcome⟩
    · rw [(step_of_absent h lobby.server.version hall.arrived ho hp).1, step, hr]
      rfl
    · rw [step_of_rename hr hq']
      refine (Server.console_step h.seated request').trans ?_
      rw [rename_of_come h hr hq hcome]

theorem memberNames_of_matches (h : lobby.Matches hall) :
    lobby.server.memberNames = hall.members.map (·.2.name) := by
  rw [Server.memberNames_of_seated h.seated, Hall.members_rename, List.map_map]
  rfl

theorem answer_rename (h : lobby.Matches hall) {peer : Nat} (hp : peer < lobby.handles.length)
    (version : Version) (record : Record) :
    (hall.rename lobby.handle).answer version (lobby.handle peer) record
      = hall.answer version peer record := by
  unfold Hall.answer
  simp only [Hall.denial?_rename, find?_handle h hp, Option.map_map]
  rfl

/-- A peer that has come is answered by the hall. -/
theorem reply?_of_come (h : lobby.Matches hall) {request : Request Nat}
    (hcome : ∀ peer, request.origin? = some peer → peer < lobby.handles.length) :
    (lobby.reply? request).map Reply.bare = some (hall.reply lobby.server.version request) := by
  have hnamed : ∀ name, ((hall.rename lobby.handle).named? name none).isSome
      = (hall.named? name none).isSome := by
    intro name
    have hrename : (hall.rename lobby.handle).named? name none
        = (hall.named? name none).map (Seat.rename lobby.handle) :=
      Hall.named?_rename name none (by simp)
    rw [hrename, Option.isSome_map]
  rw [reply?]
  cases request with
  | dispatch origin record =>
      have hp := hcome origin rfl
      rw [Request.rename?, getElem?_handle hp, Option.map_some, Option.map_some, Option.map_some,
        Server.bare_step h.seated, Hall.reply, answer_rename h hp]
      rfl
  | close origin =>
      rw [Request.rename?, getElem?_handle (hcome origin rfl)]
      rfl
  | kick name =>
      rw [Request.rename?, Option.map_some, Option.map_some, Server.bare_step h.seated, Hall.reply,
        hnamed]
      rfl
  | register address => rfl
  | disconnectAll => rfl
  | deafen n => rfl

/-- A peer that has not come is not answered. -/
theorem reply?_of_absent {request : Request Nat} {peer : Nat} (ho : request.origin? = some peer)
    (hp : lobby.handles.length ≤ peer) : lobby.reply? request = none := by
  have hnone : lobby.handles[peer]? = none := List.getElem?_eq_none hp
  rw [reply?]
  cases request with
  | dispatch origin record =>
      obtain rfl := Option.some.inj ho
      simp [Request.rename?, hnone]
  | close origin =>
      obtain rfl := Option.some.inj ho
      simp [Request.rename?, hnone]
  | register address => simp [Request.origin?] at ho
  | kick name => simp [Request.origin?] at ho
  | disconnectAll => simp [Request.origin?] at ho
  | deafen n => simp [Request.origin?] at ho

end Lobby

end ChatRoom
