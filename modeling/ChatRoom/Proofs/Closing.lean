import Mathlib.Data.List.Induction
import ChatRoom.Proofs.Idling

/-!
# Lines and their connections

When a hub has settled, the lines that have ended are those whose connections are gone, no more and
no fewer: no connection stays behind when nobody reads for it, and nobody goes on reading for a
connection that is gone.

Both directions are in `Guard`. Reading that ends closes the connection on the spot. A connection
that is closed for another reason leaves a signal for the reader, and so does a record that cannot
be written; and a hub at rest has no reader with such a signal.
-/

namespace ChatRoom

/-! ## What keeps readers and connections together -/

/-- An outbox, whether its connection is linked, and whether reading and writing of its line are
over. -/
structure Guard (o : Outbox) (linked : Prop) (ended writing : Bool) : Prop where
  sending : o.sending = true ↔ linked
  /-- Whoever reads for a connection that is gone has been told to stop, -/
  stopped : ¬ linked → o.stopped = true
  /-- and so has whoever reads for one that is not written to any more. -/
  written : writing = false → o.stopped = true
  /-- A line that is not read any more has no connection. -/
  ended : ended = true → ¬ linked

theorem guard_new {linked : Prop} (hl : linked) : Guard {} linked false true where
  sending := ⟨fun _ => hl, fun _ => rfl⟩
  stopped := fun hno => absurd hl hno
  written := by simp
  ended := by simp

theorem Guard.congr {o : Outbox} {linked linked' : Prop} {ended writing : Bool}
    (h : Guard o linked ended writing) (hl : linked ↔ linked') : Guard o linked' ended writing where
  sending := h.sending.trans hl
  stopped := fun hno => h.stopped fun hlinked => hno (hl.mp hlinked)
  written := h.written
  ended := fun hended hlinked => h.ended hended (hl.mpr hlinked)

namespace Hall

variable {ι : Type} [DecidableEq ι] {version : Version} {hall : Hall ι}

/-- What a move does to a connection, it does to the outbox and to the reader. -/
theorem guard_deliver (hs : hall.Sound version) {outcome : Hall ι × Option News}
    (hmove : Move version hall outcome) {mail : Mail} {n : Nat} (hn : n < mail.boxes.length)
    {ended writing : Bool} (h : Guard (mail.box n) (hall.Linked n) ended writing) :
    Guard ((hall.deliver mail outcome.2).box n) (outcome.1.Linked n) ended writing := by
  have hlinked := linked_move hs hmove n
  have hstopped := stopped_deliver hall hn outcome.2
  have hsending := (onward_deliver hs hmove hn h.sending).2
  refine ⟨hsending, fun hno => ?_, fun hw => ?_, fun hended hl => ?_⟩
  · rw [hstopped]
    by_cases hl : hall.Linked n
    · rw [hlinked] at hno
      exact Or.inr (by simpa [hl] using hno)
    · exact Or.inl (h.stopped hl)
  · exact hstopped.mpr (Or.inl (h.written hw))
  · exact h.ended hended (hlinked.mp hl).1

/-- Whoever is closed is linked no more. -/
theorem not_linked_close {key : ι} {n : Nat}
    (hkey : ∀ seat ∈ hall.seats, seat.outbox = n → seat.key = key) (fresh : ι) :
    ¬ (hall.step version fresh (.close key)).1.Linked n := by
  have hsub : ∀ seat ∈ (hall.step version fresh (.close key)).1.seats,
      seat ∈ hall.seats ∧ seat.key ≠ key := by
    intro seat hm
    rw [step] at hm
    cases hf : hall.find? key with
    | none =>
        rw [hf] at hm
        exact ⟨hm, fun hk => List.find?_eq_none.mp hf seat hm (decide_eq_true hk)⟩
    | some found =>
        rw [hf] at hm
        obtain ⟨-, hk⟩ := find?_eq_some hf
        obtain ⟨hold, hne⟩ := List.mem_filter.mp hm
        exact ⟨hold, hk ▸ of_decide_eq_true hne⟩
  intro hl
  obtain ⟨seat, hm, ho⟩ := List.mem_map.mp hl
  obtain ⟨hold, hne⟩ := hsub seat hm
  exact hne (hkey seat hold ho)

end Hall

namespace Lobby

variable {p : Nat} {lobby : Lobby}

/-- The server keeps a hall, and what is known of one peer's line fits its connection. -/
def Guarded (p : Nat) (line : Option (Bool × Bool)) (lobby : Lobby) : Prop :=
  ∃ hall, lobby.Matches hall ∧ ∀ l ∈ line, p < lobby.handles.length
    ∧ Guard (lobby.server.mail.box p) (hall.Linked p) l.1 l.2

theorem guard_step {hall : Hall Nat} (h : lobby.Matches hall) {request : Request Nat}
    (hq : request.Ordinary) (hroom : (lobby.step request).server.removals < UInt64.size)
    (hp : p < lobby.handles.length) {ended writing : Bool}
    (hguard : Guard (lobby.server.mail.box p) (hall.Linked p) ended writing) :
    p < (lobby.step request).handles.length
      ∧ Guard ((lobby.step request).server.mail.box p)
        ((hall.step lobby.server.version hall.arrived request).1.Linked p) ended writing := by
  obtain ⟨hmatches, hmail⟩ := obeys_step h request hroom
  have hlength : p < lobby.server.mail.boxes.length := length_boxes h ▸ hp
  have hdeliver := Hall.guard_deliver h.sound
    (Hall.move_step lobby.server.version hall.arrived hall hq.registers) hlength hguard
  refine ⟨?_, ?_⟩
  · have hmore := hmatches.arrived
    rw [Hall.arrived_step _ _ _ hq.registers, ← h.arrived] at hmore
    omega
  · rw [hmail]
    cases request with
    | register address => exact absurd rfl (hq.registers address)
    | deafen m => exact absurd rfl (hq.deafens m)
    | dispatch origin record => exact hdeliver
    | close origin => exact hdeliver
    | kick name => exact hdeliver
    | disconnectAll => exact hdeliver

theorem stable_guarded (p : Nat) (line : Option (Bool × Bool)) : Stable (Guarded p line) where
  note := by
    intro lobby entry h
    obtain ⟨hall, hmatches, hline⟩ := h
    exact ⟨hall, matches_congr hmatches rfl rfl rfl, hline⟩
  step := by
    intro lobby request hq h hroom
    obtain ⟨hall, hmatches, hline⟩ := h
    refine ⟨_, (obeys_step hmatches request hroom).1, fun l hl => ?_⟩
    obtain ⟨hp, hguard⟩ := hline l hl
    exact guard_step hmatches hq hroom hp hguard

/-- When a connection is closed the reading of its line may be over. -/
theorem kept_close {writing : Bool} (h : Kept (Guarded p (some (false, writing))) lobby) :
    Kept (Guarded p (some (true, writing))) (lobby.step (.close p)) := by
  have hordinary : (Request.close p : Request Nat).Ordinary := ⟨by simp, by simp⟩
  obtain ⟨hall, hseated⟩ := h.seated
  obtain ⟨hseated', hmore⟩ := seated_step hseated (.close p)
  refine ⟨hseated', fun hroom => ?_⟩
  obtain ⟨hall, hmatches, hline⟩ := h.holds (Nat.lt_of_le_of_lt hmore hroom)
  obtain ⟨hp, hguard⟩ := hline _ rfl
  obtain ⟨hp', hguard'⟩ := guard_step hmatches hordinary hroom hp hguard
  refine ⟨_, (obeys_step hmatches (.close p) hroom).1, fun l hl => ?_⟩
  obtain rfl := Option.some.inj hl
  refine ⟨hp', { hguard' with ended := fun _ => ?_ }⟩
  refine Hall.not_linked_close (fun seat hm ho => ?_) hall.arrived
  exact (hmatches.keys seat hm).trans ho

end Lobby

namespace Hub

/-- Whether reading a peer's line is over, and whether it is still written. -/
def ended? (hub : Hub) (p : Nat) : Option (Bool × Bool) :=
  hub.peers[p]?.map fun peer => (peer.ending.isSome, peer.writing)

/-- What is known of a peer's line fits its connection, as far as removals can be counted. -/
def Guards (p : Nat) (hub : Hub) : Prop := Lobby.Kept (Lobby.Guarded p (hub.ended? p)) hub.lobby

theorem ended?_set {hub : Hub} {q : Nat} {peer peer' : Peer} {server : Server}
    (hq : hub.peers[q]? = some peer)
    (hf : (peer'.ending.isSome, peer'.writing) = (peer.ending.isSome, peer.writing)) (p : Nat) :
    ({ server, peers := hub.peers.set q peer' } : Hub).ended? p = hub.ended? p :=
  map_getElem?_of_map
    (map_set_of_eq (f := fun peer : Peer => (peer.ending.isSome, peer.writing)) hq hf) p

theorem ended?_set_ne {hub : Hub} {p q : Nat} (hne : q ≠ p) {peer' : Peer} {server : Server} :
    ({ server, peers := hub.peers.set q peer' } : Hub).ended? p = hub.ended? p := by
  rw [ended?, ended?]
  dsimp only
  rw [List.getElem?_set_ne hne]

theorem ended?_set_self {hub : Hub} {p : Nat} {peer peer' : Peer} {server : Server}
    (hp : hub.peers[p]? = some peer) :
    ({ server, peers := hub.peers.set p peer' } : Hub).ended? p
      = some (peer'.ending.isSome, peer'.writing) := by
  rw [ended?]
  dsimp only
  rw [List.getElem?_set_self (List.getElem?_eq_some_iff.mp hp).1]
  rfl

theorem ended?_of_peer {hub : Hub} {p : Nat} {peer : Peer} (hp : hub.peers[p]? = some peer) :
    hub.ended? p = some (peer.ending.isSome, peer.writing) := by
  rw [ended?, hp]
  rfl

/-- **Reading that ends leaves no connection behind.** -/
theorem guards_of_reading {p q : Nat} {hub hub' : Hub} (h : hub.Guards p)
    (hread : Reading (Lobby.Kept (Lobby.Guarded p (hub.ended? p))) hub q hub') :
    hub'.Guards p := by
  cases hread with
  | stays hended => exact h
  | @waits peer hq hlive server hserved reader hstopped hwaits =>
      rw [Guards, ended?_set hq (by rw [hlive]), lobby_set hq (by rfl)]
      exact hserved
  | @ends peer hq hlive server hserved reader ending =>
      have hclosing : (Lobby.mk server hub.lobby.handles).step (.close q)
          = ⟨((Lobby.mk server hub.lobby.handles).step (.close q)).server, hub.lobby.handles⟩ := by
        have ho : (Lobby.mk server hub.lobby.handles).handles[q]? = some peer.handle :=
          getElem?_handles hq
        rw [Lobby.step_close ho]
      rw [Guards, lobby_set hq (by rfl)]
      by_cases hqp : q = p
      · -- its own line ends, and its connection with it
        subst hqp
        rw [ended?_of_peer hq, hlive] at hserved
        have hclosed := Lobby.kept_close hserved
        rw [hclosing] at hclosed
        rw [ended?_set_self hq]
        exact hclosed
      · have hordinary : (Request.close q : Request Nat).Ordinary := ⟨by simp, by simp⟩
        have hclosed := hserved.step (Lobby.stable_guarded p (hub.ended? p)) hordinary
        rw [hclosing] at hclosed
        rw [ended?_set_ne hqp]
        exact hclosed

theorem guards_read {p : Nat} {hub : Hub} (h : hub.Guards p) (q : Nat) : (hub.read q).Guards p :=
  guards_of_reading h (reading (Lobby.stable_guarded p (hub.ended? p)).persists h q)

/-- What writing leaves in a peer's outbox: it is emptied, and if that has failed its reader is told
to stop. -/
theorem guard_collect {mail : Mail} {p : Nat} (hp : p < mail.boxes.length) {linked : Prop}
    {ended : Bool} (h : Guard (mail.box p) linked ended true) {delivery : Delivery}
    (hlast : delivery = .finished → (mail.box p).sending = false) :
    Guard ((collect mail p delivery).box p) linked ended (delivery == .written) := by
  have hdrained : Guard (mail.box p).drain linked ended true :=
    ⟨h.sending, h.stopped, h.written, h.ended⟩
  cases delivery with
  | written =>
      rw [box_collect_self hp (by simp)]
      exact hdrained
  | finished =>
      rw [box_collect_self hp (by simp)]
      -- its connection is gone, or there would be more to come
      refine { hdrained with written := fun _ => h.stopped fun hl => ?_ }
      rw [h.sending.mpr hl] at hlast
      exact absurd (hlast rfl) (by simp)
  | failed =>
      have hbox : (collect mail p .failed).box p
          = { (mail.box p).drain with receiving := false, stopped := true } := by
        unfold collect Mail.stop Mail.refuse
        rw [Mail.box_modify, Mail.box_modify, Mail.box_modify]
        simp [Mail.modify, hp]
      rw [hbox]
      exact ⟨hdrained.sending, fun _ => rfl, fun _ => rfl, hdrained.ended⟩

/-- Delivering finishes only what no more will come to. -/
theorem last_of_finished {peer : String} {records : List Record} {last : Bool} {t t' : Target}
    {log : List LogEntry} (h : deliver peer records last t = (.finished, log, t')) :
    last = true := by
  unfold deliver at h
  split at h
  · exact absurd h (by simp)
  · split at h
    · rename_i hlast
      exact hlast
    · exact absurd h (by simp)

/-- **A record that cannot be written is not forgotten**: its reader is told. -/
theorem guards_write {p : Nat} {hub : Hub} (h : hub.Guards p) (q : Nat) :
    (hub.write q).Guards p := by
  obtain ⟨hroster, hversion, hboxes, -⟩ := write_frame hub q
  have hlobby : (hub.write q).lobby = { hub.lobby with server := (hub.write q).server } :=
    lobby_writes [q] hub
  rw [Guards, hlobby]
  refine Lobby.Kept.congr h hroster hversion hboxes fun hguarded => ?_
  obtain ⟨hall, hmatches, hline⟩ := hguarded
  refine ⟨hall, Lobby.matches_congr hmatches hroster hversion hboxes, ?_⟩
  have hwrite := writing hub q
  generalize hub.write q = hub' at hwrite
  cases hwrite with
  | stays hended => exact hline
  | @delivers peer hq hw delivery log target hdeliver =>
      by_cases hqp : q = p
      · subst hqp
        rw [ended?_set_self hq]
        intro l hl
        obtain rfl := Option.some.inj hl
        obtain ⟨hp, hguard⟩ := hline _ (ended?_of_peer hq)
        rw [hw] at hguard
        have hbox : q < hub.server.mail.boxes.length := Lobby.length_boxes hmatches ▸ hp
        refine ⟨hp, guard_collect hbox hguard ?_⟩
        rintro rfl
        have hended : (!(hub.server.mail.box q).sending) = true := last_of_finished hdeliver
        exact Bool.not_eq_true' _ |>.mp hended
      · rw [ended?_set_ne hqp]
        show ∀ l ∈ hub.ended? p, p < hub.lobby.handles.length
          ∧ Guard ((collect hub.server.mail q delivery).box p) (hall.Linked p) l.1 l.2
        rw [box_collect_ne hub.server.mail hqp]
        exact hline

/-! ## Whole rounds, events and runs -/

theorem guards_turns {p : Nat} {hub : Hub} (h : hub.Guards p) :
    Guards p { hub with server := { hub.server with mail := hub.server.mail.takeTurns.2 } } := by
  refine h.congr (s := { hub.server with mail := hub.server.mail.takeTurns.2 }) rfl rfl rfl ?_
  intro hguarded
  obtain ⟨hall, hmatches, hline⟩ := hguarded
  exact ⟨hall, Lobby.matches_congr hmatches rfl rfl rfl, hline⟩

theorem ended?_connect (hub : Hub) (p : Nat) (address : Option SocketAddress) (label : String) :
    (hub.connect address label).2.ended? p
      = if p = hub.peers.length then some (false, true) else hub.ended? p := by
  obtain ⟨newcomer, -, hwriting, hending, hpeers⟩ := peers_connect hub address label
  rw [ended?, hpeers]
  split
  · rw [Option.map_some, hwriting, hending]
    rfl
  · rfl

theorem guarded_connect {p : Nat} {hub : Hub} (h : Lobby.Guarded p (hub.ended? p) hub.lobby)
    (address : Option SocketAddress) (label : String) :
    Lobby.Guarded p ((hub.connect address label).2.ended? p)
      (hub.lobby.step (.register address)) := by
  obtain ⟨hall, hmatches, hline⟩ := h
  have hlength : (hub.lobby.step (.register address)).handles.length
      = hub.lobby.handles.length + 1 := List.length_append
  have hpeers : hub.lobby.handles.length = hub.peers.length := List.length_map _
  refine ⟨_, (Lobby.obeys_register hmatches address).1, fun l hl => ?_⟩
  rw [ended?_connect, ← hpeers] at hl
  rcases Lobby.box_register hmatches address p with ⟨hnew, hbox, hlinked⟩ | ⟨hold, hbox, hlinked⟩
  · rw [if_pos hnew] at hl
    obtain rfl := Option.some.inj hl
    rw [hbox]
    exact ⟨by omega, guard_new hlinked⟩
  · rw [if_neg hold] at hl
    obtain ⟨hp, hone⟩ := hline l hl
    rw [hbox]
    exact ⟨by omega, hone.congr hlinked.symm⟩

theorem guards_apply {p : Nat} {hub : Hub} (h : hub.Guards p) (event : Event) :
    (hub.apply event).2.Guards p := by
  have hincident := incident_apply hub event
  generalize (hub.apply event).2 = hub' at hincident
  cases hincident with
  | connect address label =>
      obtain ⟨seats, hseated⟩ := h.seated
      obtain ⟨hseated', hmore⟩ := Lobby.seated_step hseated (.register address)
      rw [Guards, lobby_connect]
      refine ⟨hseated', fun hroom => ?_⟩
      exact guarded_connect (h.holds (Nat.lt_of_le_of_lt hmore hroom)) address label
  | @change _ q f halter htarget =>
      have hended : (hub.modifyPeer q f).ended? p = hub.ended? p := by
        refine map_getElem?_of_map (map_modifyPeer hub fun peer => ?_) p
        rw [(halter peer).ending, (halter peer).writing]
      rw [Guards, hended, lobby_modifyPeer hub fun peer => (halter peer).handle]
      exact h
  | ask hq hstep =>
      have hkept := Lobby.Kept.step (Lobby.stable_guarded p (hub.ended? p)) h hq
      rwa [hstep] at hkept

theorem guards_new (p : Nat) (version : Version) : Guards p { server := { version } } where
  seated := ⟨{}, Arena.holds_empty, rfl, Hall.sound_empty version⟩
  holds := fun _ => ⟨{}, Lobby.matches_init version, by simp [ended?]⟩

theorem guards_run (p : Nat) (version : Version) (events : List Event) :
    (run { server := { version } } events).Guards p := by
  induction events using List.reverseRecOn with
  | nil => exact guards_new p version
  | append_singleton events event ih =>
      rw [run_append]
      exact settle_of_closed (I := Guards p) (fun _ q h => guards_read h q)
        (fun _ q h => guards_write h q) (fun _ h => guards_turns h) (guards_apply ih event)

/-! ## Hubs at rest -/

/-- In a hub at rest nobody reads on who was told to stop. -/
theorem ended_of_stopped {p : Nat} {hub : Hub} (hrest : hub.AtRest) {peer : Peer}
    (hp : hub.peers[p]? = some peer) (hs : (hub.server.mail.box p).stopped = true) :
    peer.ending.isSome = true := by
  by_contra hno
  have hmust := mustStop_iff.mpr ⟨p, peer, hp, by simpa using hno, hs⟩
  rw [hrest.mustStop] at hmust
  exact absurd hmust (by simp)

/-- **A peer's line is over exactly if its connection is gone.** -/
theorem ended_iff {p : Nat} {hub : Hub} (h : hub.Guards p) (hrest : hub.AtRest)
    (hroom : hub.server.removals < UInt64.size) {peer : Peer} (hp : hub.peers[p]? = some peer) :
    peer.ending.isSome = true ↔ hub.server.connection? peer.handle = none := by
  obtain ⟨hall, hmatches, hline⟩ := h.holds hroom
  obtain ⟨-, hguard⟩ := hline _ (ended?_of_peer hp)
  rw [connection?_eq_none_iff hmatches hp]
  exact ⟨hguard.ended, fun hno => ended_of_stopped hrest hp (hguard.stopped hno)⟩

/-- A line that is not written any more is not read any more. -/
theorem ended_of_not_writing {p : Nat} {hub : Hub} (h : hub.Guards p) (hrest : hub.AtRest)
    (hroom : hub.server.removals < UInt64.size) {peer : Peer} (hp : hub.peers[p]? = some peer)
    (hw : peer.writing = false) : peer.ending.isSome = true := by
  obtain ⟨hall, hmatches, hline⟩ := h.holds hroom
  obtain ⟨-, hguard⟩ := hline _ (ended?_of_peer hp)
  exact ended_of_stopped hrest hp (hguard.written hw)

end Hub

end ChatRoom
