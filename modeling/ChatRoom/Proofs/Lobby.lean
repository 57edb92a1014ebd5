import Mathlib.Data.List.Induction
import ChatRoom.Proofs.Renaming
import ChatRoom.Proofs.Thinning

/-!
# Peers

A peer that registers is given a handle, and is named by it from then on. Here peers are named by
the order in which they came, which no later peer changes, and requests name peers; one that has not
come yet cannot be named. A peer's number is also that of its outbox.

What happens among peers is then a hall whose keys are those numbers, and it knows nothing of
handles. The server keeps the same hall under its handles, and the two agree as long as every peer
has a handle of its own. That is so until some slot has been vacated as often as its generation can
count, which asks for as many removals.
-/

namespace ChatRoom

open Arena

/-- The handle that a registration gave. -/
def Reply.handle? : Reply → Option Handle
  | .registered handle => some handle
  | .answered _ | .kicked _ | .disconnected _ | .done => none

/-- A server and the handles of its peers, in the order in which they came. -/
structure Lobby where
  server : Server
  handles : List Handle := []

namespace Lobby

/-- What a peer asks for is asked under its handle. -/
def step (lobby : Lobby) (request : Request Nat) : Lobby :=
  match request.rename? (lobby.handles[·]?) with
  | some request =>
    let (reply, server) := lobby.server.step request
    { server, handles := lobby.handles ++ reply.handle?.toList }
  | none => lobby

/-- A server that wants this version, after some requests. -/
def run (version : Version) (requests : List (Request Nat)) : Lobby :=
  requests.foldl step { server := { version } }

/-- The handle of a peer. -/
def handle (lobby : Lobby) (peer : Nat) : Handle := lobby.handles[peer]?.getD ⟨0, 0⟩

/-- The server keeps this hall, under its handles. -/
structure Matches (lobby : Lobby) (hall : Hall Nat) : Prop where
  seated : Seated lobby.server (hall.rename lobby.handle)
  sound : hall.Sound lobby.server.version
  /-- A peer's outbox has the peer's number. -/
  keys : ∀ seat ∈ hall.seats, seat.key = seat.outbox
  /-- Every peer that has come has been given a handle. -/
  arrived : lobby.handles.length = hall.arrived
  /-- No two peers have one handle. -/
  distinct : lobby.handles.Nodup
  traced : lobby.server.Traced lobby.handles

theorem matches_init (version : Version) : Matches { server := { version } } {} where
  seated := ⟨holds_empty, rfl, Hall.sound_empty version⟩
  sound := Hall.sound_empty version
  keys := by intro seat hs; simp at hs
  arrived := rfl
  distinct := List.nodup_nil
  traced := Server.traced_empty version

section

variable {lobby : Lobby} {hall : Hall Nat}

theorem key_lt (h : lobby.Matches hall) {seat : Seat Nat} (hs : seat ∈ hall.seats) :
    seat.key < lobby.handles.length := by
  rw [h.keys seat hs, h.arrived]
  exact h.sound.arrived seat hs

/-- Every peer that has come has an outbox. -/
theorem length_boxes (h : lobby.Matches hall) :
    lobby.server.mail.boxes.length = lobby.handles.length :=
  h.seated.outboxes.trans h.arrived.symm

theorem getElem?_handle {peer : Nat} (hp : peer < lobby.handles.length) :
    lobby.handles[peer]? = some (lobby.handle peer) := by
  rw [handle, List.getElem?_eq_getElem hp]
  rfl

/-- Peers that have come are told apart by their handles. -/
theorem told (h : lobby.Matches hall) {peer : Nat} (hp : peer < lobby.handles.length) :
    hall.Told lobby.handle peer := by
  intro seat hs he
  have hlt := key_lt h hs
  refine (List.getElem?_inj hlt h.distinct).mp ?_
  rw [getElem?_handle hlt, getElem?_handle hp, he]

/-- A peer that has not come has no seat. -/
theorem find?_of_absent (h : lobby.Matches hall) {peer : Nat} (hp : lobby.handles[peer]? = none) :
    hall.find? peer = none := by
  have hle := List.getElem?_eq_none_iff.mp hp
  refine List.find?_eq_none.mpr ?_
  intro seat hs he
  have hlt := key_lt h hs
  have : seat.key = peer := by simpa using he
  omega

theorem handle?_step (s : Server) {request : Request Handle}
    (hq : ∀ address, request ≠ .register address) : (s.step request).1.handle? = none := by
  cases request with
  | register address => exact absurd rfl (hq address)
  | dispatch origin record => rfl
  | close origin => rfl
  | kick name => rfl
  | disconnectAll => rfl
  | deafen n => rfl

/-- A request that asks for no registration is that of a peer that has not come, or is renamed. -/
theorem rename?_cases {request : Request Nat} (known : List Handle)
    (hq : ∀ address, request ≠ .register address) :
    (∃ peer, request.origin? = some peer ∧ known[peer]? = none
        ∧ request.rename? (known[·]?) = none)
      ∨ ∃ request', request.rename? (known[·]?) = some request'
        ∧ (∀ address, request' ≠ .register address)
        ∧ ∀ peer, request.origin? = some peer → peer < known.length := by
  cases request with
  | register address => exact absurd rfl (hq address)
  | dispatch origin record =>
      cases hk : known[origin]? with
      | none => exact Or.inl ⟨origin, rfl, hk, by simp [Request.rename?, hk]⟩
      | some h =>
          refine Or.inr ⟨.dispatch h record, by simp [Request.rename?, hk], by simp, ?_⟩
          intro peer ho
          obtain rfl := Option.some.inj ho
          exact (List.getElem?_eq_some_iff.mp hk).1
  | close origin =>
      cases hk : known[origin]? with
      | none => exact Or.inl ⟨origin, rfl, hk, by simp [Request.rename?, hk]⟩
      | some h =>
          refine Or.inr ⟨.close h, by simp [Request.rename?, hk], by simp, ?_⟩
          intro peer ho
          obtain rfl := Option.some.inj ho
          exact (List.getElem?_eq_some_iff.mp hk).1
  | kick name => exact Or.inr ⟨.kick name, rfl, by simp, by simp [Request.origin?]⟩
  | disconnectAll => exact Or.inr ⟨.disconnectAll, rfl, by simp, by simp [Request.origin?]⟩
  | deafen n => exact Or.inr ⟨.deafen n, rfl, by simp, by simp [Request.origin?]⟩

/-- A peer that has not come asks for nothing. -/
theorem step_of_absent (h : lobby.Matches hall) (version : Version) (fresh : Nat)
    {request : Request Nat} {peer : Nat} (ho : request.origin? = some peer)
    (hp : lobby.handles[peer]? = none) :
    hall.step version fresh request = (hall, none)
      ∧ ∀ mail, hall.mailAfter mail request none = mail := by
  have hfind := find?_of_absent h hp
  cases request with
  | dispatch origin record =>
      obtain rfl := Option.some.inj ho
      exact ⟨by simp only [Hall.step, hfind], fun _ => rfl⟩
  | close origin =>
      obtain rfl := Option.some.inj ho
      exact ⟨by simp only [Hall.step, hfind], fun _ => rfl⟩
  | register address => simp [Request.origin?] at ho
  | kick name => simp [Request.origin?] at ho
  | disconnectAll => simp [Request.origin?] at ho
  | deafen n => simp [Request.origin?] at ho

/-! ## One request -/

/-- The server after a request keeps the hall that the rules make of it, and its mail is what they
say. -/
def Obeys (lobby lobby' : Lobby) (hall : Hall Nat) (request : Request Nat) : Prop :=
  lobby'.Matches (hall.step lobby.server.version hall.arrived request).1
    ∧ lobby'.server.mail = hall.mailAfter lobby.server.mail request
        (hall.step lobby.server.version hall.arrived request).2

theorem keys_step (h : lobby.Matches hall) (request : Request Nat) :
    ∀ seat ∈ (hall.step lobby.server.version hall.arrived request).1.seats,
      seat.key = seat.outbox := by
  intro seat hs
  rcases Hall.mem_step hs with ⟨old, hold, hk, ho⟩ | ⟨hk, ho⟩
  · rw [← hk, ← ho]
    exact h.keys old hold
  · rw [hk, ho]

theorem sound_step (h : lobby.Matches hall) (request : Request Nat) :
    (hall.step lobby.server.version hall.arrived request).1.Sound lobby.server.version := by
  refine Hall.sound_step h.sound ?_ request
  intro hm
  obtain ⟨seat, hs, hk⟩ := List.mem_map.mp hm
  have hlt := key_lt h hs
  rw [h.arrived] at hlt
  omega

theorem obeys_register (h : lobby.Matches hall) (address : Option SocketAddress) :
    lobby.Obeys (lobby.step (.register address)) hall (.register address) := by
  obtain ⟨hseated, -⟩ := Server.seated_step h.seated (.register address)
  have hfresh : (lobby.server.register address).1 = lobby.server.roster.nextHandle :=
    Server.fst_register h.seated address
  have hstep : lobby.step (.register address) =
      ⟨(lobby.server.register address).2, lobby.handles ++ [lobby.server.roster.nextHandle]⟩ := by
    show Lobby.mk (lobby.server.register address).2
      (lobby.handles ++ [(lobby.server.register address).1]) = _
    rw [hfresh]
  -- nobody else is renamed, and the newcomer has the new handle
  have hold : hall.rename (lobby.step (.register address)).handle = hall.rename lobby.handle := by
    refine Hall.rename_congr fun seat hs => ?_
    rw [hstep, handle, handle, List.getElem?_append_left (key_lt h hs)]
  have hnew : (lobby.step (.register address)).handle hall.arrived
      = lobby.server.roster.nextHandle := by
    rw [hstep, handle, ← h.arrived]
    simp
  have hhall : (hall.step lobby.server.version hall.arrived (.register address)).1.rename
        (lobby.step (.register address)).handle
      = ((hall.rename lobby.handle).step lobby.server.version lobby.server.roster.nextHandle
          (.register address)).1 := by
    rw [← hold, ← hnew]
    simp [Hall.step, Hall.rename, Seat.rename]
  refine ⟨⟨?_, ?_, keys_step h _, ?_, ?_, ?_⟩, ?_⟩
  · rw [hhall, hstep]
    exact hseated
  · exact sound_step h (.register address)
  · rw [hstep, List.length_append, h.arrived]
    rfl
  · rw [hstep, List.nodup_append]
    refine ⟨h.distinct, by simp, ?_⟩
    intro k hk k' hk' he
    obtain rfl := List.mem_singleton.mp hk'
    -- here the removals matter: a generation that had come round could repeat a handle
    exact nextHandle_not_issued h.seated.roster h.traced.issued (he ▸ hk)
  · rw [hstep]
    exact (Server.traced_register h.seated address).2 lobby.handles h.traced
  · rw [hstep]
    rfl

theorem step_of_rename {request : Request Nat} {request' : Request Handle}
    (hr : request.rename? (lobby.handles[·]?) = some request')
    (hq : ∀ address, request' ≠ .register address) :
    lobby.step request = { lobby with server := (lobby.server.step request').2 } := by
  unfold step
  rw [hr]
  show Lobby.mk _ (lobby.handles ++ (lobby.server.step request').1.handle?.toList) = _
  rw [handle?_step lobby.server hq, Option.toList_none, List.append_nil]
  rfl

/-- The server's hall is the peers' under their handles, so its rule is theirs. -/
theorem rename_of_come (h : lobby.Matches hall) {request : Request Nat} {request' : Request Handle}
    (hr : request.rename? (lobby.handles[·]?) = some request')
    (hq : ∀ address, request ≠ .register address)
    (hcome : ∀ peer, request.origin? = some peer → peer < lobby.handles.length) :
    (hall.rename lobby.handle).step lobby.server.version lobby.server.roster.nextHandle request'
      = ((hall.step lobby.server.version hall.arrived request).1.rename lobby.handle,
          (hall.step lobby.server.version hall.arrived request).2) := by
  have htold : ∀ seat ∈ hall.seats, hall.Told lobby.handle seat.key := fun seat hs =>
    told h (key_lt h hs)
  have horigin : ∀ peer, request.origin? = some peer →
      lobby.handles[peer]? = some (lobby.handle peer) ∧ hall.Told lobby.handle peer :=
    fun peer ho => ⟨getElem?_handle (hcome peer ho), told h (hcome peer ho)⟩
  exact Hall.rename_step htold lobby.server.version hall.arrived
    lobby.server.roster.nextHandle hr hq horigin

theorem seated_rename (h : lobby.Matches hall) {request : Request Nat} {request' : Request Handle}
    (hr : request.rename? (lobby.handles[·]?) = some request')
    (hq : ∀ address, request ≠ .register address)
    (hcome : ∀ peer, request.origin? = some peer → peer < lobby.handles.length) :
    Seated (lobby.server.step request').2
        ((hall.step lobby.server.version hall.arrived request).1.rename lobby.handle)
      ∧ (lobby.server.step request').2.mail = hall.mailAfter lobby.server.mail request
          (hall.step lobby.server.version hall.arrived request).2 := by
  obtain ⟨hseated, hmail⟩ := Server.seated_step h.seated request'
  rw [rename_of_come h hr hq hcome] at hseated hmail
  rw [Hall.mailAfter_rename lobby.handle hall lobby.server.mail _ hr] at hmail
  exact ⟨hseated, hmail⟩

theorem obeys_other (h : lobby.Matches hall) {request : Request Nat}
    (hq : ∀ address, request ≠ .register address)
    (hroom : (lobby.step request).server.removals < UInt64.size) :
    lobby.Obeys (lobby.step request) hall request := by
  rcases rename?_cases lobby.handles hq with
    ⟨peer, ho, hp, hr⟩ | ⟨request', hr, hq', hcome⟩
  · obtain ⟨hhall, hmail⟩ := step_of_absent h lobby.server.version hall.arrived ho hp
    have hstep : lobby.step request = lobby := by
      unfold step
      rw [hr]
    rw [Obeys, hstep, hhall, hmail]
    exact ⟨h, rfl⟩
  · have hstep := step_of_rename hr hq'
    obtain ⟨hseated, hmail⟩ := seated_rename h hr hq hcome
    rw [hstep] at hroom
    refine ⟨⟨?_, ?_, keys_step h _, ?_, ?_, ?_⟩, ?_⟩
    · rw [hstep]
      exact hseated
    · rw [hstep]
      show Hall.Sound (lobby.server.step request').2.version _
      rw [Server.version_step]
      exact sound_step h request
    · rw [hstep, Hall.arrived_step _ _ _ hq]
      exact h.arrived
    · rw [hstep]
      exact h.distinct
    · rw [hstep]
      exact (Server.traced_step h.seated hq').2 lobby.handles h.traced hroom
    · rw [hstep]
      exact hmail

/-- The removals after a request are those of the hall, also where they can no longer be counted. -/
theorem removals_step (h : lobby.Matches hall) (request : Request Nat) :
    (lobby.step request).server.removals
      = (hall.step lobby.server.version hall.arrived request).1.arrived
        - (hall.step lobby.server.version hall.arrived request).1.seats.length := by
  have hlength : ∀ (f : Nat → Handle) (hall : Hall Nat),
      (hall.rename f).seats.length = hall.seats.length := fun f hall => List.length_map _
  rcases request.register_or with ⟨address, rfl⟩ | hq
  · rw [Server.removals_of_seated (obeys_register h address).1.seated, hlength]
    rfl
  · rcases rename?_cases lobby.handles hq with
      ⟨peer, ho, hp, hr⟩ | ⟨request', hr, hq', hcome⟩
    · have hstep : lobby.step request = lobby := by
        unfold step
        rw [hr]
      rw [hstep, (step_of_absent h lobby.server.version hall.arrived ho hp).1,
        Server.removals_of_seated h.seated, hlength]
      rfl
    · rw [step_of_rename hr hq', Server.removals_of_seated (seated_rename h hr hq hcome).1, hlength]
      rfl

/-- **Whatever a peer asks for, the server goes on keeping the peers' hall**, while removals can be
counted. -/
theorem obeys_step (h : lobby.Matches hall) (request : Request Nat)
    (hroom : (lobby.step request).server.removals < UInt64.size) :
    lobby.Obeys (lobby.step request) hall request := by
  rcases request.register_or with ⟨address, rfl⟩ | hq
  · exact obeys_register h address
  · exact obeys_other h hq hroom

end

/-! ## Runs -/

theorem run_append (version : Version) (requests : List (Request Nat)) (request : Request Nat) :
    run version (requests ++ [request]) = (run version requests).step request := by
  rw [run, run, List.foldl_append]
  rfl

theorem version_step (lobby : Lobby) (request : Request Nat) :
    (lobby.step request).server.version = lobby.server.version := by
  unfold step
  split
  · exact Server.version_step _ _
  · rfl

theorem version_run (version : Version) (requests : List (Request Nat)) :
    (run version requests).server.version = version := by
  induction requests using List.reverseRecOn with
  | nil => rfl
  | append_singleton requests request ih => rw [run_append, version_step, ih]

/-- With its handles or without, the server keeps some hall. -/
theorem seated_step {lobby : Lobby} {hall : Hall Handle} (h : Seated lobby.server hall)
    (request : Request Nat) :
    (∃ hall', Seated (lobby.step request).server hall')
      ∧ lobby.server.removals ≤ (lobby.step request).server.removals := by
  unfold step
  split
  · rename_i request' _
    refine ⟨⟨_, (Server.seated_step h request').1⟩, ?_⟩
    rcases request'.register_or with ⟨address, rfl⟩ | hq
    · exact Nat.le_of_eq (Server.traced_register h address).1.symm
    · exact (Server.traced_step h hq).1
  · exact ⟨⟨hall, h⟩, Nat.le_refl _⟩

theorem seated_run (version : Version) (requests : List (Request Nat)) :
    ∃ hall, Seated (run version requests).server hall := by
  induction requests using List.reverseRecOn with
  | nil => exact ⟨{}, holds_empty, rfl, Hall.sound_empty version⟩
  | append_singleton requests request ih =>
      obtain ⟨hall, h⟩ := ih
      rw [run_append]
      exact (seated_step h request).1

theorem removals_run_append (version : Version) (requests : List (Request Nat))
    (request : Request Nat) :
    (run version requests).server.removals
      ≤ (run version (requests ++ [request])).server.removals := by
  obtain ⟨hall, h⟩ := seated_run version requests
  rw [run_append]
  exact (seated_step h request).2

end Lobby

/-- The peers' hall after some requests, and all the news since the beginning. -/
def Hall.run (version : Version) (requests : List (Request Nat)) : Hall Nat × List News :=
  requests.foldl (fun (hall, history) request =>
    let (hall, news) := hall.step version hall.arrived request
    (hall, history ++ news.toList)) ({}, [])

theorem Hall.run_append (version : Version) (requests : List (Request Nat))
    (request : Request Nat) :
    Hall.run version (requests ++ [request]) =
      let (hall, history) := Hall.run version requests
      ((hall.step version hall.arrived request).1,
        history ++ (hall.step version hall.arrived request).2.toList) := by
  rw [Hall.run, Hall.run, List.foldl_append]
  rfl

/-- **Run for run, the server keeps the peers' hall.** -/
theorem Lobby.matches_run (version : Version) (requests : List (Request Nat))
    (hroom : (Lobby.run version requests).server.removals < UInt64.size) :
    (Lobby.run version requests).Matches (Hall.run version requests).1 := by
  induction requests using List.reverseRecOn with
  | nil => exact matches_init version
  | append_singleton requests request ih =>
      have hgrow := removals_run_append version requests request
      have hprefix := ih (by omega)
      rw [Lobby.run_append] at hroom ⊢
      have hstep := (obeys_step hprefix request hroom).1
      rw [version_run] at hstep
      rw [Hall.run_append]
      exact hstep

end ChatRoom
