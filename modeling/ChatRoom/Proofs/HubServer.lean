import ChatRoom.Proofs.Lobby
import ChatRoom.Session.Hub

/-!
# The server of a hub

A hub asks its server for what peers and operators ask for: it registers those that connect, hands
on the records of those whose lines it reads, closes the connections whose lines have ended, and
passes kicks and disconnections on. In between it writes notes and empties outboxes. So what holds
of a server among its peers, and goes on holding whatever is asked and noted, holds of a hub's
server too through any reading of lines.

What goes on holding is `Lobby.Persists`, and reading one line comes to one of three things
(`Hub.Reading`). What an event does before anything follows from it is one of three things too
(`Hub.Incident`), and there is less that it can do to the line of a peer that goes on receiving
(`Hub.Turn`).

Handles are told apart only while removals can be counted. `Lobby.Kept` is how that is said of a run
whose number of removals is known only at its end: a run in which they can be counted could count
them all along.
-/

namespace ChatRoom

/-- A request that neither makes a connection nor lets a receiving end go. -/
structure Request.Ordinary {ι : Type} (request : Request ι) : Prop where
  registers : ∀ address, request ≠ .register address
  deafens : ∀ n, request ≠ .deafen n

namespace Lobby

/-- What goes on holding, whatever is asked and noted. -/
structure Persists (K : Lobby → Prop) : Prop where
  note : ∀ lobby entry, K lobby → K { lobby with server := Server.handler.note entry lobby.server }
  step : ∀ lobby request, request.Ordinary → K lobby → K (lobby.step request)

/-- What goes on holding as long as removals can be counted. -/
structure Stable (P : Lobby → Prop) : Prop where
  note : ∀ lobby entry, P lobby → P { lobby with server := Server.handler.note entry lobby.server }
  step : ∀ lobby request, request.Ordinary → P lobby →
    (lobby.step request).server.removals < UInt64.size → P (lobby.step request)

/-- What holds if the removals so far can be counted. -/
structure Kept (P : Lobby → Prop) (lobby : Lobby) : Prop where
  seated : ∃ hall, Seated lobby.server hall
  holds : lobby.server.removals < UInt64.size → P lobby

variable {P K : Lobby → Prop} {lobby : Lobby}

/-- The peers' hall, too, is kept under the same handles. -/
theorem matches_congr {hall : Hall Nat} (h : lobby.Matches hall) {s : Server}
    (hroster : s.roster = lobby.server.roster) (hversion : s.version = lobby.server.version)
    (hboxes : s.mail.boxes.length = lobby.server.mail.boxes.length) :
    Lobby.Matches { lobby with server := s } hall where
  seated := h.seated.congr hroster hversion hboxes
  sound := by
    rw [hversion]
    exact h.sound
  keys := h.keys
  arrived := h.arrived
  distinct := h.distinct
  traced := by
    have hremovals : s.removals = lobby.server.removals := by
      rw [Server.removals, Server.removals, hroster, hboxes]
    refine ⟨?_, ?_⟩
    · rw [hroster]
      exact h.traced.issued
    · rw [hroster, hremovals]
      exact h.traced.turned

theorem Kept.congr (h : Kept P lobby) {s : Server} (hroster : s.roster = lobby.server.roster)
    (hversion : s.version = lobby.server.version)
    (hboxes : s.mail.boxes.length = lobby.server.mail.boxes.length) {Q : Lobby → Prop}
    (hPQ : P lobby → Q { lobby with server := s }) : Kept Q { lobby with server := s } := by
  obtain ⟨⟨hall, hseated⟩, hholds⟩ := h
  refine ⟨⟨hall, hseated.congr hroster hversion hboxes⟩, fun hroom => ?_⟩
  rw [Server.removals, hroster, hboxes] at hroom
  exact hPQ (hholds hroom)

theorem Kept.note (hP : Stable P) (h : Kept P lobby) (entry : LogEntry) :
    Kept P { lobby with server := Server.handler.note entry lobby.server } :=
  h.congr (s := Server.handler.note entry lobby.server) rfl rfl rfl (hP.note lobby entry)

theorem Kept.step (hP : Stable P) (h : Kept P lobby) {request : Request Nat}
    (hq : request.Ordinary) : Kept P (lobby.step request) := by
  obtain ⟨hall, hseated⟩ := h.seated
  obtain ⟨hseated', hmore⟩ := seated_step hseated request
  refine ⟨hseated', fun hroom => ?_⟩
  exact hP.step lobby request hq (h.holds (Nat.lt_of_le_of_lt hmore hroom)) hroom

theorem Stable.persists (hP : Stable P) : Persists (Kept P) where
  note := fun _ entry h => h.note hP entry
  step := fun _ _ hq h => h.step hP hq

/-! ## Reading a line -/

theorem step_dispatch {p : Nat} {origin : Handle} (ho : lobby.handles[p]? = some origin)
    (record : Record) :
    lobby.step (.dispatch p record)
      = { lobby with server := (Server.handler.dispatch origin record lobby.server).2 } := by
  have hr : (Request.dispatch p record).rename? (lobby.handles[·]?)
      = some (.dispatch origin record) := by rw [Request.rename?, ho]; rfl
  exact step_of_rename hr (by simp)

theorem step_close {p : Nat} {origin : Handle} (ho : lobby.handles[p]? = some origin) :
    lobby.step (.close p)
      = { lobby with server := Server.handler.onClosed origin lobby.server } := by
  have hr : (Request.close p).rename? (lobby.handles[·]?) = some (.close origin) := by
    rw [Request.rename?, ho]
    rfl
  exact step_of_rename hr (by simp)

theorem step_kick (lobby : Lobby) (name : String) :
    lobby.step (.kick name) = { lobby with server := (lobby.server.kick name).2 } := by
  have hr : (Request.kick name : Request Nat).rename? (lobby.handles[·]?) = some (.kick name) := rfl
  exact step_of_rename hr (by simp)

theorem step_disconnectAll (lobby : Lobby) :
    lobby.step .disconnectAll = { lobby with server := lobby.server.disconnectAll.2 } := by
  have hr : (Request.disconnectAll : Request Nat).rename? (lobby.handles[·]?)
      = some .disconnectAll := rfl
  exact step_of_rename hr (by simp)

theorem Persists.dispatch (hK : Persists K) (h : K lobby) {p : Nat} {origin : Handle}
    (ho : lobby.handles[p]? = some origin) (record : Record) :
    K { lobby with
      server := (Server.handler.dispatch origin record
        (Server.handler.note (.received origin record.kind) lobby.server)).2 } := by
  have hnoted := hK.note lobby (.received origin record.kind) h
  have hordinary : (Request.dispatch p record : Request Nat).Ordinary := ⟨by simp, by simp⟩
  have hstep := hK.step _ _ hordinary hnoted
  have ho' : (Lobby.mk (Server.handler.note (.received origin record.kind) lobby.server)
      lobby.handles).handles[p]? = some origin := ho
  rwa [step_dispatch ho'] at hstep

/-- **Whatever is read off a line, what goes on holding goes on holding.** If there is no ending the
reader waits. -/
theorem persists_receive (hK : Persists K) {handles : List Handle} {p : Nat} {origin : Handle}
    (ho : handles[p]? = some origin) (r : Reader) (s : Server) (h : K ⟨s, handles⟩) :
    K ⟨(Server.handler.receive origin r s).2.2, handles⟩
      ∧ ((Server.handler.receive origin r s).1 = none →
          ∃ before : Reader,
            before.next = (.waiting, (Server.handler.receive origin r s).2.1)) := by
  have hdispatch : ∀ {s s' : Server} {record : Record} {answer : Except Refusal Verdict},
      Server.handler.dispatch origin record (Server.handler.note (.received origin record.kind) s)
        = (answer, s') → K ⟨s, handles⟩ → K ⟨s', handles⟩ := by
    intro s s' record answer hd hs
    have hkept := hK.dispatch hs ho record
    rwa [hd] at hkept
  fun_induction Handler.receive Server.handler origin r s with
  | case1 r s e r' hn => exact ⟨h, fun hnone => absurd hnone (by simp)⟩
  | case2 r s r' hn => exact ⟨h, fun _ => ⟨r, hn⟩⟩
  | case3 r s r' hn => exact ⟨h, fun hnone => absurd hnone (by simp)⟩
  | case4 r s record r' hn s' hd ih => exact ih (hdispatch hd h)
  | case5 r s record r' hn s' hd =>
      exact ⟨hdispatch hd h, fun hnone => absurd hnone (by simp)⟩
  | case6 r s record r' hn refusal s' hd =>
      exact ⟨hdispatch hd h, fun hnone => absurd hnone (by simp)⟩

/-- Serving goes on only while the reader waits and was not told to stop. -/
theorem persists_serve (hK : Persists K) {handles : List Handle} {p : Nat} {origin : Handle}
    (ho : handles[p]? = some origin) (stopped : Bool) (r : Reader) (s : Server)
    (h : K ⟨s, handles⟩) :
    K ⟨(Server.handler.serve origin stopped r s).2.2, handles⟩
      ∧ ((Server.handler.serve origin stopped r s).1 = none → stopped = false
          ∧ ∃ before : Reader,
              before.next = (.waiting, (Server.handler.serve origin stopped r s).2.1)) := by
  obtain ⟨hreceived, hwaits⟩ := persists_receive hK ho r s h
  unfold Handler.serve
  split
  · rename_i he
    rw [he] at hreceived hwaits
    refine ⟨hreceived, fun hnone => ⟨?_, hwaits rfl⟩⟩
    cases stopped with
    | false => rfl
    | true => exact absurd hnone (by simp)
  · rename_i hsome
    refine ⟨hreceived, fun hnone => ?_⟩
    exact (hsome _ _ (Prod.ext hnone rfl)).elim

end Lobby

namespace Hub

variable {P : Lobby → Prop}

/-- The server of a hub among the handles of its peers. -/
def lobby (hub : Hub) : Lobby := ⟨hub.server, hub.peers.map (·.handle)⟩

/-- What a hub writes to a peer, and whether it still does. -/
def line? (hub : Hub) (p : Nat) : Option (Target × Bool) :=
  hub.peers[p]?.map fun peer => (peer.target, peer.writing)

theorem line?_of_peer {hub : Hub} {p : Nat} {peer : Peer} (hp : hub.peers[p]? = some peer) :
    hub.line? p = some (peer.target, peer.writing) := by
  rw [line?, hp]
  rfl

/-- Nothing that a peer is changed in shows in what does not look at it. -/
theorem map_set_of_eq {β : Type} {f : Peer → β} {peers : List Peer} {p : Nat} {peer peer' : Peer}
    (hp : peers[p]? = some peer) (hf : f peer' = f peer) :
    (peers.set p peer').map f = peers.map f := by
  rw [List.map_set, hf]
  refine List.ext_getElem? fun i => ?_
  rw [List.getElem?_set]
  split
  · rename_i he
    subst he
    obtain ⟨hlt, -⟩ := List.getElem?_eq_some_iff.mp hp
    rw [if_pos (by simpa using hlt), List.getElem?_map, hp]
    rfl
  · rfl

theorem map_getElem?_of_map {β : Type} {f : Peer → β} {peers peers' : List Peer}
    (h : peers'.map f = peers.map f) (p : Nat) : peers'[p]?.map f = peers[p]?.map f := by
  rw [← List.getElem?_map, ← List.getElem?_map, h]

/-- A peer keeps its handle. -/
theorem lobby_set {hub : Hub} {q : Nat} {peer peer' : Peer} {server : Server}
    (hq : hub.peers[q]? = some peer) (hf : peer'.handle = peer.handle) :
    ({ server, peers := hub.peers.set q peer' } : Hub).lobby
      = ⟨server, hub.peers.map (·.handle)⟩ := by
  rw [lobby, map_set_of_eq (f := Peer.handle) hq hf]

theorem line?_set {hub : Hub} {q : Nat} {peer peer' : Peer} {server : Server}
    (hq : hub.peers[q]? = some peer)
    (hf : (peer'.target, peer'.writing) = (peer.target, peer.writing)) (p : Nat) :
    ({ server, peers := hub.peers.set q peer' } : Hub).line? p = hub.line? p :=
  map_getElem?_of_map (map_set_of_eq (f := fun peer : Peer => (peer.target, peer.writing)) hq hf) p

/-- Reading a line writes nothing. -/
theorem line?_read (hub : Hub) (q p : Nat) : (hub.read q).line? p = hub.line? p := by
  unfold read
  split
  · rfl
  · rename_i peer hq
    split
    · rfl
    · exact line?_set hq (by rfl) p

theorem line?_reads (order : List Nat) (hub : Hub) (p : Nat) :
    (order.foldl read hub).line? p = hub.line? p := by
  induction order generalizing hub with
  | nil => rfl
  | cons q rest ih => exact (ih (hub.read q)).trans (line?_read hub q p)

/-- In the lobby a peer has its own handle. -/
theorem getElem?_handles {hub : Hub} {q : Nat} {peer : Peer} (hq : hub.peers[q]? = some peer) :
    hub.lobby.handles[q]? = some peer.handle := by
  rw [lobby, List.getElem?_map, hq]
  rfl

/-- What reading a line comes to, of a server that goes on as it was: nothing, if nothing more is
read from the peer; or some of the records that came in are handled. Then the reader waits for more,
or that was the end, and the connection is closed. -/
inductive Reading (K : Lobby → Prop) (hub : Hub) (q : Nat) : Hub → Prop where
  | stays (hover : ∀ peer, hub.peers[q]? = some peer → peer.ending.isSome = true) :
      Reading K hub q hub
  | waits {peer : Peer} (hq : hub.peers[q]? = some peer) (hlive : peer.ending = none)
      {server : Server} (hK : K ⟨server, hub.lobby.handles⟩) {reader : Reader}
      (hstopped : (hub.server.mail.box q).stopped = false)
      (hwaits : ∃ before : Reader, before.next = (.waiting, reader)) :
      Reading K hub q { server, peers := hub.peers.set q { peer with reader, ending := none } }
  | ends {peer : Peer} (hq : hub.peers[q]? = some peer) (hlive : peer.ending = none)
      {server : Server} (hK : K ⟨server, hub.lobby.handles⟩) (reader : Reader) (ending : Ending) :
      Reading K hub q {
        server := (Lobby.mk server hub.lobby.handles |>.step (.close q)).server
        peers := hub.peers.set q { peer with reader, ending := some ending } }

theorem reading {K : Lobby → Prop} (hK : Lobby.Persists K) {hub : Hub} (h : K hub.lobby) (q : Nat) :
    Reading K hub q (hub.read q) := by
  unfold read
  split
  · rename_i hq
    exact .stays fun peer hp => absurd (hq.symm.trans hp) (by simp)
  · rename_i peer hq
    split
    · rename_i hsome
      refine .stays fun other hp => ?_
      obtain rfl := Option.some.inj (hq.symm.trans hp)
      exact hsome
    · rename_i hnone
      have hlive : peer.ending = none := by simpa using hnone
      obtain ⟨hserved, hgoes⟩ := Lobby.persists_serve hK (getElem?_handles hq)
        (hub.server.mail.box q).stopped peer.reader hub.server h
      dsimp only
      generalize Server.handler.serve peer.handle (hub.server.mail.box q).stopped peer.reader
        hub.server = served at hserved hgoes ⊢
      obtain ⟨ending, reader, server⟩ := served
      cases ending with
      | none =>
          obtain ⟨hstopped, hwaits⟩ := hgoes rfl
          exact .waits hq hlive hserved hstopped hwaits
      | some ending =>
          have hends := Reading.ends (K := K) hq hlive hserved reader ending
          have ho : (Lobby.mk server hub.lobby.handles).handles[q]? = some peer.handle :=
            getElem?_handles hq
          rwa [Lobby.step_close ho] at hends

/-- **Reading a line keeps what goes on holding**, whatever it comes to, -/
theorem persists_of_reading {K : Lobby → Prop} (hK : Lobby.Persists K) {hub hub' : Hub}
    (h : K hub.lobby) {q : Nat} (hread : Reading K hub q hub') : K hub'.lobby := by
  cases hread with
  | stays hover => exact h
  | waits hq hlive hserved hstopped hwaits =>
      rw [lobby_set hq (by rfl)]
      exact hserved
  | @ends peer hq hlive server hserved reader ending =>
      have hordinary : (Request.close q : Request Nat).Ordinary := ⟨by simp, by simp⟩
      have hclosed := hK.step _ _ hordinary hserved
      have ho : (Lobby.mk server hub.lobby.handles).handles[q]? = some peer.handle :=
        getElem?_handles hq
      rw [lobby_set hq (by rfl)]
      rwa [Lobby.step_close ho] at hclosed ⊢

/-- and so does reading it as far as it goes. -/
theorem persists_read {K : Lobby → Prop} (hK : Lobby.Persists K) {hub : Hub} (h : K hub.lobby)
    (q : Nat) : K (hub.read q).lobby :=
  persists_of_reading hK h (reading hK h q)

theorem persists_reads {K : Lobby → Prop} (hK : Lobby.Persists K) (order : List Nat) {hub : Hub}
    (h : K hub.lobby) : K (order.foldl read hub).lobby := by
  induction order generalizing hub with
  | nil => exact h
  | cons q rest ih => exact ih (persists_read hK h q)

theorem kept_reads (hP : Lobby.Stable P) (order : List Nat) {hub : Hub}
    (h : Lobby.Kept P hub.lobby) : Lobby.Kept P (order.foldl read hub).lobby :=
  persists_reads hP.persists order h

/-! ## Events -/

/-- A peer that connects is the last one; nothing was written to it, and nothing has ended. -/
theorem peers_connect (hub : Hub) (address : Option SocketAddress) (label : String) :
    ∃ newcomer : Peer, newcomer.target = {} ∧ newcomer.writing = true ∧ newcomer.ending = none
      ∧ ∀ p, (hub.connect address label).2.peers[p]?
        = if p = hub.peers.length then some newcomer else hub.peers[p]? := by
  have hlast : ∀ (newcomer : Peer) (p : Nat), (hub.peers ++ [newcomer])[p]?
      = if p = hub.peers.length then some newcomer else hub.peers[p]? := by
    intro newcomer p
    rcases Nat.lt_trichotomy p hub.peers.length with hlt | rfl | hgt
    · rw [List.getElem?_append_left hlt, if_neg (Nat.ne_of_lt hlt)]
    · rw [if_pos rfl, List.getElem?_concat_length]
    · rw [if_neg (Nat.ne_of_gt hgt), List.getElem?_eq_none (Nat.le_of_lt hgt),
        List.getElem?_eq_none (by rw [List.length_append]; exact hgt)]
  exact ⟨_, rfl, rfl, rfl, hlast _⟩

theorem line?_connect (hub : Hub) (p : Nat) (address : Option SocketAddress) (label : String) :
    (hub.connect address label).2.line? p
      = if p = hub.peers.length then some ({}, true) else hub.line? p := by
  obtain ⟨newcomer, htarget, hwriting, -, hpeers⟩ := peers_connect hub address label
  rw [line?, hpeers]
  split
  · rw [Option.map_some, htarget, hwriting]
  · rfl

/-- Nothing that peers are changed in shows in what does not look at it. -/
theorem map_modifyPeer {β : Type} {q : Nat} (hub : Hub) {f : Peer → Peer} {g : Peer → β}
    (hg : ∀ peer, g (f peer) = g peer) : (hub.modifyPeer q f).peers.map g = hub.peers.map g := by
  refine List.ext_getElem? fun i => ?_
  rw [modifyPeer, List.getElem?_map, List.getElem?_map, List.getElem?_modify,
    Option.map_eq_map, Option.map_map]
  refine congrArg (Option.map · hub.peers[i]?) (funext fun peer => ?_)
  by_cases hq : q = i
  · simp [hq, hg]
  · simp [hq]

theorem line?_modifyPeer {p q : Nat} (hub : Hub) {f : Peer → Peer}
    (hline : q = p → ∀ peer, ((f peer).target, (f peer).writing) = (peer.target, peer.writing)) :
    (hub.modifyPeer q f).line? p = hub.line? p := by
  by_cases hq : q = p
  · exact map_getElem?_of_map (map_modifyPeer hub (hline hq)) p
  · rw [line?, line?, modifyPeer]
    dsimp only
    rw [List.getElem?_modify_ne f _ hq]

/-- Connecting is registering, for the server and the handles. -/
theorem lobby_connect (hub : Hub) (address : Option SocketAddress) (label : String) :
    (hub.connect address label).2.lobby = hub.lobby.step (.register address) := by
  simp [connect, lobby, Lobby.step, Request.rename?, Server.step, Reply.handle?]

theorem lobby_modifyPeer {q : Nat} (hub : Hub) {f : Peer → Peer}
    (hhandle : ∀ peer, (f peer).handle = peer.handle) :
    (hub.modifyPeer q f).lobby = hub.lobby :=
  congrArg (Lobby.mk hub.server) (map_modifyPeer hub hhandle)

/-- A peer before and after it was changed from without. What it is read and written for stays; it
may be that it takes nothing more. -/
structure Altered (peer peer' : Peer) : Prop where
  handle : peer'.handle = peer.handle
  ending : peer'.ending = peer.ending
  writing : peer'.writing = peer.writing
  target : peer'.target = peer.target
    ∨ peer'.target = { peer.target with full := some (peer.target.taken.length, "broken pipe") }

/-- What an event does before anything follows from it: a peer connects, a peer is changed, or the
server is asked for something. -/
inductive Incident (hub : Hub) : Event → Hub → Prop where
  | connect (address : Option SocketAddress) (label : String) :
      Incident hub (.connect address label) (hub.connect address label).2
  | change {event : Event} {q : Nat} {f : Peer → Peer} (halter : ∀ peer, Altered peer (f peer))
      (htarget : (∀ peer, (f peer).target = peer.target) ∨ event = .deafen q ∨ event = .vanish q) :
      Incident hub event (hub.modifyPeer q f)
  | ask {event : Event} {request : Request Nat} (hq : request.Ordinary) {server : Server}
      (hstep : hub.lobby.step request = { hub.lobby with server }) :
      Incident hub event { hub with server }

theorem modifyPeer_id (hub : Hub) (q : Nat) : hub.modifyPeer q id = hub := by
  rw [modifyPeer, List.modify_id]

theorem incident_apply (hub : Hub) (event : Event) : Incident hub event (hub.apply event).2 := by
  cases event with
  | connect address label => exact .connect address label
  | send q bytes =>
      have hsame : Incident hub (.send q bytes) hub := by
        have hchange : Incident hub (.send q bytes) (hub.modifyPeer q id) :=
          .change (fun _ => ⟨rfl, rfl, rfl, Or.inl rfl⟩) (Or.inl fun _ => rfl)
        rwa [modifyPeer_id] at hchange
      show Incident hub _ (hub.send q bytes).2
      unfold send
      split
      · exact hsame
      · split
        · exact hsame
        · split
          · exact hsame
          · exact .change (fun _ => ⟨rfl, rfl, rfl, Or.inl rfl⟩) (Or.inl fun _ => rfl)
  | finish q => exact .change (fun _ => ⟨rfl, rfl, rfl, Or.inl rfl⟩) (Or.inl fun _ => rfl)
  | deafen q => exact .change (fun _ => ⟨rfl, rfl, rfl, Or.inr rfl⟩) (Or.inr (Or.inl rfl))
  | vanish q =>
      show Incident hub _ ((hub.finish q).deafen q)
      rw [finish, deafen, modifyPeer, modifyPeer, List.modify_modify_eq]
      exact .change (fun _ => ⟨rfl, rfl, rfl, Or.inr rfl⟩) (Or.inr (Or.inr rfl))
  | kick name => exact .ask ⟨by simp, by simp⟩ (Lobby.step_kick hub.lobby name)
  | disconnectAll => exact .ask ⟨by simp, by simp⟩ (Lobby.step_disconnectAll hub.lobby)

/-- What an event can do before anything follows from it, if it is nothing that keeps this peer from
receiving: a peer connects, a peer is changed in what shows neither in its handle nor in this peer's
line, or the server is asked for something. -/
inductive Turn (p : Nat) (hub : Hub) : Hub → Prop where
  | connect (address : Option SocketAddress) (label : String) :
      Turn p hub (hub.connect address label).2
  | change {q : Nat} {f : Peer → Peer} (hhandle : ∀ peer, (f peer).handle = peer.handle)
      (hline : q = p → ∀ peer, ((f peer).target, (f peer).writing) = (peer.target, peer.writing)) :
      Turn p hub (hub.modifyPeer q f)
  | ask {request : Request Nat} (hq : request.Ordinary) {server : Server}
      (hstep : hub.lobby.step request = { hub.lobby with server }) : Turn p hub { hub with server }

theorem turn_apply {p : Nat} (hub : Hub) {event : Event} (hdeafen : event ≠ .deafen p)
    (hvanish : event ≠ .vanish p) : Turn p hub (hub.apply event).2 := by
  have hincident := incident_apply hub event
  generalize (hub.apply event).2 = hub' at hincident
  cases hincident with
  | connect address label => exact .connect address label
  | @change _ q f halter htarget =>
      refine .change (fun peer => (halter peer).handle) fun hq peer => ?_
      rcases htarget with hsame | rfl | rfl
      · rw [hsame peer, (halter peer).writing]
      · exact absurd (hq ▸ rfl) hdeafen
      · exact absurd (hq ▸ rfl) hvanish
  | ask hq hstep => exact .ask hq hstep

/-- A line is the same after an event, or new. -/
theorem line?_turn {p : Nat} {hub hub' : Hub} (hturn : Turn p hub hub') :
    hub'.line? p = hub.line? p ∨ p = hub.peers.length ∧ hub'.line? p = some ({}, true) := by
  cases hturn with
  | connect address label =>
      have hline := line?_connect hub p address label
      by_cases hnew : p = hub.peers.length
      · rw [if_pos hnew] at hline
        exact Or.inr ⟨hnew, hline⟩
      · rw [if_neg hnew] at hline
        exact Or.inl hline
  | change hhandle hline => exact Or.inl (line?_modifyPeer hub hline)
  | ask hq hstep => exact Or.inl rfl

end Hub

end ChatRoom
