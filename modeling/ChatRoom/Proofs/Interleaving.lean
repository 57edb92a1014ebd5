import ChatRoom.Proofs.Closing

/-!
# Any order of reading and writing

A hub settles in rounds: all lines are read, each as far as it goes, and then all are written. That
is one order among many. Each line is read and written by tasks of its own, and what they do may
come in any order that the outboxes allow. Nor need a reader that has been told to stop look at what
is there to be read, as the hub's readers do. So here a hub does one thing at a time, whichever
comes next (`Hub.Act`): an event happens, one line is read or one is written, or a reader stops
because it was told to. Rounds are one way to go on like that (`exists_acts_run`).

A line stands right at every moment of every order (`stands_in_any_order`): the peer has received a
front of what was queued for it, the end of the stream is behind the last of it, and nobody reads on
for a connection that is gone without having been told to stop. Once the line has been written
nothing is missing (`written_in_any_order`). So no line owes anything to the order of the rounds.
-/

namespace ChatRoom

namespace Hub

/-- A reader that has been told to stop does so at once, whatever is there to be read. -/
def quit (hub : Hub) (p : Nat) : Hub :=
  match hub.peers[p]? with
  | none => hub
  | some peer =>
    if peer.ending.isSome || !(hub.server.mail.box p).stopped then hub
    else
      { server := Server.handler.onClosed peer.handle hub.server
        peers := hub.peers.set p { peer with ending := some .stopped } }

/-- One thing that a hub does. -/
inductive Act where
  | event (event : Event)
  /-- What has come in from a peer by now is read. -/
  | read (p : Nat)
  | quit (p : Nat)
  /-- What is queued for a peer by now is written to it. -/
  | write (p : Nat)
  /-- The outboxes that have become due are listed, which only matters for the order of writing. -/
  | turns

def Act.event? : Act → Option Event
  | .event happening => some happening
  | .read _ | .quit _ | .write _ | .turns => none

def act (hub : Hub) : Act → Hub
  | .event event => (hub.apply event).2
  | .read p => hub.read p
  | .quit p => hub.quit p
  | .write p => hub.write p
  | .turns => { hub with server := { hub.server with mail := hub.server.mail.takeTurns.2 } }

/-- One thing after the other. -/
def acts (hub : Hub) (list : List Act) : Hub := list.foldl act hub

theorem acts_snoc (hub : Hub) (list : List Act) (next : Act) :
    hub.acts (list ++ [next]) = (hub.acts list).act next := by
  rw [acts, acts, List.foldl_append, List.foldl_cons, List.foldl_nil]

/-- **Settling after each event is one order of doing things**, with these events and no others. -/
theorem exists_acts_run (hub : Hub) (events : List Event) :
    ∃ list, hub.acts list = hub.run events ∧ list.filterMap Act.event? = events := by
  induction events using List.reverseRecOn with
  | nil => exact ⟨[], rfl, rfl⟩
  | append_singleton events event ih =>
      -- what is done besides adds no event
      have hnext : ∀ next : Act, next.event? = none → ∀ hub' : Hub,
          (∃ list, hub.acts list = hub' ∧ list.filterMap Act.event? = events ++ [event]) →
            ∃ list, hub.acts list = hub'.act next
              ∧ list.filterMap Act.event? = events ++ [event] := by
        rintro next hnone _ ⟨list, rfl, hevents⟩
        refine ⟨list ++ [next], acts_snoc hub list next, ?_⟩
        rw [List.filterMap_append, hevents, List.filterMap_cons_none hnone, List.filterMap_nil,
          List.append_nil]
      rw [run_append]
      refine settle_of_closed (fun hub' q => hnext (.read q) rfl hub')
        (fun hub' q => hnext (.write q) rfl hub') (hnext .turns rfl) ?_
      obtain ⟨list, hlist, hevents⟩ := ih
      refine ⟨list ++ [.event event], ?_, ?_⟩
      · rw [acts_snoc, hlist]
        rfl
      · rw [List.filterMap_append, hevents]
        rfl

/-! ## What each act keeps -/

/-- A reader that stops has come to what reading may come to as well, unless nobody told it to. -/
theorem reading_quit {K : Lobby → Prop} {hub : Hub} (h : K hub.lobby) (q : Nat) :
    hub.quit q = hub ∨ Reading K hub q (hub.quit q) := by
  unfold quit
  split
  · exact Or.inl rfl
  · rename_i peer hq
    split
    · exact Or.inl rfl
    · rename_i hgoes
      have hlive : peer.ending = none := by
        cases hending : peer.ending with
        | none => rfl
        | some ending => exact absurd hgoes (by simp [hending])
      have hends := Reading.ends (K := K) hq hlive h peer.reader .stopped
      have ho : (Lobby.mk hub.server hub.lobby.handles).handles[q]? = some peer.handle :=
        getElem?_handles hq
      rw [Lobby.step_close ho] at hends
      exact Or.inr hends

theorem line?_quit (hub : Hub) (q p : Nat) : (hub.quit q).line? p = hub.line? p := by
  unfold quit
  split
  · rfl
  · rename_i peer hq
    split
    · rfl
    · exact line?_set hq (by rfl) p

theorem sound_quit {p : Nat} {hub : Hub} (h : hub.Sound p) (q : Nat) : (hub.quit q).Sound p := by
  rw [Sound, line?_quit]
  rcases reading_quit h q with hsame | hread
  · rw [hsame]
    exact h
  · exact persists_of_reading (Lobby.stable_served p (hub.line? p)).persists h hread

theorem guards_quit {p : Nat} {hub : Hub} (h : hub.Guards p) (q : Nat) : (hub.quit q).Guards p := by
  rcases reading_quit h q with hsame | hread
  · rw [hsame]
    exact h
  · exact guards_of_reading h hread

theorem sound_act {p : Nat} {hub : Hub} (h : hub.Sound p) {next : Act}
    (hdeafen : next ≠ .event (.deafen p)) (hvanish : next ≠ .event (.vanish p)) :
    (hub.act next).Sound p := by
  cases next with
  | event event =>
      refine sound_turn h (turn_apply hub ?_ ?_)
      · rintro rfl
        exact hdeafen rfl
      · rintro rfl
        exact hvanish rfl
  | read q => exact sound_reads h [q]
  | quit q => exact sound_quit h q
  | write q => exact (sound_writes h [q]).1
  | turns => exact sound_turns h

theorem guards_act {p : Nat} {hub : Hub} (h : hub.Guards p) (next : Act) :
    (hub.act next).Guards p := by
  cases next with
  | event event => exact guards_apply h event
  | read q => exact guards_read h q
  | quit q => exact guards_quit h q
  | write q => exact guards_write h q
  | turns => exact guards_turns h

/-- Whatever a hub does, the line of a peer that goes on receiving stays right, -/
theorem sound_acts {p : Nat} (version : Version) (list : List Act)
    (hdeafen : .event (.deafen p) ∉ list) (hvanish : .event (.vanish p) ∉ list) :
    (acts { server := { version } } list).Sound p := by
  induction list using List.reverseRecOn with
  | nil => exact sound_new p version
  | append_singleton list next ih =>
      rw [List.mem_append, not_or, List.mem_singleton] at hdeafen hvanish
      rw [acts_snoc]
      exact sound_act (ih hdeafen.1 hvanish.1) (fun he => hdeafen.2 he.symm)
        fun he => hvanish.2 he.symm

/-- and every line fits its connection. -/
theorem guards_acts (p : Nat) (version : Version) (list : List Act) :
    (acts { server := { version } } list).Guards p := by
  induction list using List.reverseRecOn with
  | nil => exact guards_new p version
  | append_singleton list next ih =>
      rw [acts_snoc]
      exact guards_act ih next

/-! ## How lines stand -/

/-- How a peer's line stands, whoever has had a turn and whoever has not. -/
structure Stands (hub : Hub) (p : Nat) (peer : Peer) : Prop where
  /-- What the peer has received is the front of what was queued for it, as much as was taken. -/
  received : peer.target.taken
    = ((hub.server.mail.box p).records.take (hub.server.mail.box p).taken).flatMap Record.encode
  /-- The end of the stream comes behind the last record, and its connection is gone by then. -/
  shut : peer.target.shut = true → hub.server.connection? peer.handle = none
    ∧ (hub.server.mail.box p).taken = (hub.server.mail.box p).records.length
  /-- A line that is not read any more has no connection, -/
  ended : peer.ending.isSome = true → hub.server.connection? peer.handle = none
  /-- and whoever reads for a connection that is gone has been told to stop. -/
  told : hub.server.connection? peer.handle = none → (hub.server.mail.box p).stopped = true

/-- **A line stands right in whatever order lines are read and written**, for a peer that goes on
receiving. -/
theorem stands_in_any_order (version : Version) (list : List Act)
    (hroom : (acts { server := { version } } list).server.removals < UInt64.size) {p : Nat}
    {peer : Peer} (hp : (acts { server := { version } } list).peers[p]? = some peer)
    (hdeafen : .event (.deafen p) ∉ list) (hvanish : .event (.vanish p) ∉ list) :
    (acts { server := { version } } list).Stands p peer := by
  obtain ⟨hall, hmatches, hserved⟩ := (sound_acts version list hdeafen hvanish).holds hroom
  obtain ⟨-, hline⟩ := hserved _ (line?_of_peer hp)
  have hgone := connection?_eq_none_iff hmatches hp
  obtain ⟨hall', hmatches', hguarded⟩ := (guards_acts p version list).holds hroom
  obtain ⟨-, hguard⟩ := hguarded _ (ended?_of_peer hp)
  have hgone' := connection?_eq_none_iff hmatches' hp
  refine ⟨hline.received, fun hshut => ?_, fun hended => hgone'.mpr (hguard.ended hended),
    fun hnone => hguard.stopped (hgone'.mp hnone)⟩
  have hwriting : peer.writing = false := by
    rw [hline.shut] at hshut
    simpa using hshut
  obtain ⟨hsending, htaken⟩ := hline.ended hwriting
  refine ⟨hgone.mpr fun hlinked => ?_, htaken⟩
  rw [hline.sending.mpr hlinked] at hsending
  exact absurd hsending (by simp)

/-- **A line that has just been written owes its peer nothing**, whatever came before: all that was
queued has been received, and the end of the stream too if and only if the connection is gone. -/
theorem written_in_any_order (version : Version) (list : List Act) {p : Nat}
    (hroom : (acts { server := { version } } (list ++ [.write p])).server.removals < UInt64.size)
    {peer : Peer}
    (hp : (acts { server := { version } } (list ++ [.write p])).peers[p]? = some peer)
    (hdeafen : .event (.deafen p) ∉ list) (hvanish : .event (.vanish p) ∉ list) :
    peer.target.taken
        = ((acts { server := { version } } (list ++ [.write p])).server.mail.box p).records.flatMap
            Record.encode
      ∧ (peer.target.shut = true
          ↔ (acts { server := { version } } (list ++ [.write p])).server.connection? peer.handle
            = none) := by
  obtain ⟨hsound, hsettled⟩ := sound_writes (sound_acts version list hdeafen hvanish) [p]
  rw [acts_snoc] at hroom hp ⊢
  obtain ⟨hall, hmatches, hserved⟩ := hsound.holds hroom
  obtain ⟨-, hline⟩ := hserved _ (line?_of_peer hp)
  have hflushed := hsettled (fun _ => List.mem_singleton_self p) hroom _ (line?_of_peer hp)
  exact ⟨hline.all_received hflushed,
    (hline.shut_iff hflushed).trans (connection?_eq_none_iff hmatches hp).symm⟩

end Hub

end ChatRoom
