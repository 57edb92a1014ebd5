import ChatRoom.Proofs.Answers
import ChatRoom.Proofs.Delivering
import ChatRoom.Proofs.HubServer
import ChatRoom.Proofs.Outgoing

/-!
# Nothing queued is lost

Between the server that queues a record and the peer that receives it stand an outbox and a writer,
and the server may take the connection down while records are still waiting. This module follows one
peer that never stops receiving through everything that can happen at a hub, and shows that it gets
all that was ever queued for it, in that order, and then the end of the stream if and only if its
connection was taken down. So whatever is queued for a peer before it is closed, a notice of refusal
for one, reaches it before the close does.

`Line` ties the outbox to the writer, at any moment: what the peer has received is what was taken
out of its outbox, and the writer stops only behind the last record of an outbox that has ended.
Requests lead the outbox onward and writing empties it. Every event ends with writing, so when a hub
has settled nothing is left to be written. That is said of the rounds in which a hub settles;
reading and writing one line keep `Line` each for itself, and so does any order of them
(`Hub.stands_in_any_order`).
-/

namespace ChatRoom

/-- A writer to a peer that receives whatever it is sent: it goes on writing until it has shut the
peer's target down. -/
structure Writer (line : Target × Bool) : Prop where
  opened : line.1.Open
  shut : line.1.shut = !line.2

/-- An outbox and what writes it to a peer that receives whatever it is sent. -/
structure Line (o : Outbox) (linked : Prop) (line : Target × Bool) : Prop extends Writer line where
  receiving : o.receiving = true
  /-- The outbox has ended exactly if its connection was taken down. -/
  sending : o.sending = true ↔ linked
  taken_le : o.taken ≤ o.records.length
  received : line.1.taken = (o.records.take o.taken).flatMap Record.encode
  ended : line.2 = false → o.sending = false ∧ o.taken = o.records.length

/-- Nothing is left to be written, and an outbox that has ended is not written any more. -/
structure Flushed (o : Outbox) (line : Target × Bool) : Prop where
  taken : o.taken = o.records.length
  ended : o.sending = false → line.2 = false

/-- A request leads the outbox onward, and leaves the writer to its work. -/
theorem Line.onward {o o' : Outbox} {linked linked' : Prop} {line : Target × Bool}
    (h : Line o linked line) (ho : o.Onward o') (hs : o'.sending = true ↔ linked') :
    Line o' linked' line where
  toWriter := h.toWriter
  receiving := ho.receiving.trans h.receiving
  sending := hs
  taken_le := by
    rw [ho.taken]
    exact Nat.le_trans h.taken_le ho.records.length_le
  received := by
    obtain ⟨more, hmore⟩ := ho.records
    rw [ho.taken, ← hmore, List.take_append_of_le_length h.taken_le]
    exact h.received
  ended := by
    intro hover
    obtain ⟨hended, hall⟩ := h.ended hover
    obtain ⟨hsame, hended'⟩ := ho.ended hended
    exact ⟨hended', by rw [ho.taken, hsame, hall]⟩

theorem Line.congr {o : Outbox} {linked linked' : Prop} {line : Target × Bool}
    (h : Line o linked line) (hl : linked ↔ linked') : Line o linked' line :=
  { h with sending := h.sending.trans hl }

theorem writer_new : Writer ({}, true) := ⟨Target.open_new, rfl⟩

/-- To a peer that has just connected nothing was sent yet. -/
theorem line_new {linked : Prop} (hl : linked) : Line {} linked ({}, true) where
  toWriter := writer_new
  receiving := rfl
  sending := ⟨fun _ => hl, fun _ => rfl⟩
  taken_le := Nat.le_refl _
  received := rfl
  ended := by simp

/-- The writer goes on unless no more will come. -/
theorem Writer.written {t t' : Target} {last : Bool} (h : Writer (t, true)) (hopen : t'.Open)
    (hshut : t'.shut = (t.shut || last)) : Writer (t', !last) := by
  refine ⟨hopen, ?_⟩
  rw [hshut, h.shut]
  simp

/-- What had been received, and what was still pending, is all that was ever queued. -/
theorem Line.drain {o : Outbox} {linked : Prop} {t t' : Target} (h : Line o linked (t, true))
    (hw : Writer (t', !o.ended))
    (htaken : t'.taken = t.taken ++ o.pending.flatMap Record.encode) :
    Line o.drain linked (t', !o.ended) ∧ Flushed o.drain (t', !o.ended) := by
  have hall : t'.taken = o.records.flatMap Record.encode := by
    rw [htaken, h.received, Outbox.pending, ← List.flatMap_append, List.take_append_drop]
  refine ⟨⟨hw, h.receiving, h.sending, Nat.le_refl _, ?_, ?_⟩, rfl, ?_⟩
  · show t'.taken = (o.records.take o.records.length).flatMap Record.encode
    rw [List.take_length, hall]
  · intro hover
    refine ⟨?_, rfl⟩
    show o.sending = false
    simpa [Outbox.ended] using hover
  · intro hended
    have hended' : o.sending = false := hended
    simp [Outbox.ended, hended']

/-- All that was ever queued has been received once nothing is left to be written, -/
theorem Line.all_received {o : Outbox} {linked : Prop} {line : Target × Bool}
    (h : Line o linked line) (hf : Flushed o line) :
    line.1.taken = o.records.flatMap Record.encode := by
  rw [h.received, hf.taken, List.take_length]

/-- and the end of the stream too if the connection was taken down. -/
theorem Line.shut_iff {o : Outbox} {linked : Prop} {line : Target × Bool}
    (h : Line o linked line) (hf : Flushed o line) : line.1.shut = true ↔ ¬ linked := by
  rw [h.shut, ← h.sending]
  constructor
  · intro hshut
    have hended : line.2 = false := by simpa using hshut
    rw [(h.ended hended).1]
    simp
  · intro hsending
    rw [hf.ended (Bool.eq_false_iff.mpr hsending)]
    rfl

/-! ## Requests -/

namespace Lobby

/-- The server keeps a hall, and one peer's line is right about its outbox. -/
def Served (p : Nat) (line : Option (Target × Bool)) (lobby : Lobby) : Prop :=
  ∃ hall, lobby.Matches hall ∧ ∀ l ∈ line, p < lobby.handles.length
    ∧ Line (lobby.server.mail.box p) (hall.Linked p) l

theorem stable_served (p : Nat) (line : Option (Target × Bool)) : Stable (Served p line) where
  note := by
    intro lobby entry h
    obtain ⟨hall, hmatches, hline⟩ := h
    exact ⟨hall, matches_congr hmatches rfl rfl rfl, hline⟩
  step := by
    intro lobby request hq h hroom
    obtain ⟨hall, hmatches, hline⟩ := h
    refine ⟨_, (obeys_step hmatches request hroom).1, ?_⟩
    intro l hl
    obtain ⟨hp, hone⟩ := hline l hl
    obtain ⟨honward, hsending⟩ :=
      onward_step hmatches hq.registers hq.deafens hp hone.sending hroom
    refine ⟨?_, hone.onward honward hsending⟩
    -- whoever has a handle keeps it
    have hmore := (obeys_step hmatches request hroom).1.arrived
    rw [Hall.arrived_step _ _ _ hq.registers, ← hmatches.arrived] at hmore
    omega

end Lobby

namespace Hub

/-! ## Writing -/

theorem length_boxes_collect (mail : Mail) (q : Nat) (delivery : Delivery) :
    (collect mail q delivery).boxes.length = mail.boxes.length := by
  unfold collect Mail.stop Mail.refuse Mail.modify
  cases delivery <;> simp

/-- Only the outbox of the line that was written is emptied. -/
theorem box_collect_ne (mail : Mail) {p q : Nat} (hne : q ≠ p) (delivery : Delivery) :
    (collect mail q delivery).box p = mail.box p := by
  have hmodify : ∀ (mail : Mail) f, (mail.modify q f).box p = mail.box p := by
    intro mail f
    rw [Mail.box_modify, if_neg fun h => hne h.1]
  unfold collect Mail.stop Mail.refuse
  cases delivery <;> simp only [hmodify]

/-- An outbox whose records could be written is only emptied. -/
theorem box_collect_self {mail : Mail} {p : Nat} (hp : p < mail.boxes.length) {delivery : Delivery}
    (hd : delivery ≠ .failed) : (collect mail p delivery).box p = (mail.box p).drain := by
  cases delivery with
  | failed => exact absurd rfl hd
  | written => exact (Mail.box_modify _ _ _ _).trans (if_pos ⟨rfl, hp⟩)
  | finished => exact (Mail.box_modify _ _ _ _).trans (if_pos ⟨rfl, hp⟩)

/-- Writing changes nothing but outboxes and logs. -/
theorem write_frame (hub : Hub) (q : Nat) :
    (hub.write q).server.roster = hub.server.roster
      ∧ (hub.write q).server.version = hub.server.version
      ∧ (hub.write q).server.mail.boxes.length = hub.server.mail.boxes.length
      ∧ (hub.write q).peers.map (·.handle) = hub.peers.map (·.handle) := by
  unfold write
  split
  · exact ⟨rfl, rfl, rfl, rfl⟩
  · rename_i peer hq
    split
    · refine ⟨rfl, rfl, length_boxes_collect _ _ _, ?_⟩
      exact map_set_of_eq (f := Peer.handle) hq (by rfl)
    · exact ⟨rfl, rfl, rfl, rfl⟩

/-- Writing a line touches no other. -/
theorem write_other (hub : Hub) {p q : Nat} (hne : q ≠ p) :
    (hub.write q).line? p = hub.line? p
      ∧ (hub.write q).server.mail.box p = hub.server.mail.box p := by
  unfold write
  split
  · exact ⟨rfl, rfl⟩
  · split
    · refine ⟨?_, box_collect_ne _ hne _⟩
      rw [line?, line?]
      dsimp only
      rw [List.getElem?_set_ne hne]
    · exact ⟨rfl, rfl⟩

/-- A line that has ended is written no more. -/
theorem write_of_ended {hub : Hub} {p : Nat} {t : Target} (hl : hub.line? p = some (t, false)) :
    hub.write p = hub := by
  obtain ⟨peer, hpeer, he⟩ := Option.map_eq_some_iff.mp hl
  have hw : peer.writing = false := congrArg Prod.snd he
  unfold write
  rw [hpeer]
  dsimp only
  rw [hw, if_neg (by simp)]

/-- What is pending is delivered, and the outbox is empty then. -/
theorem write_of_open {hub : Hub} {p : Nat} {t : Target} (hl : hub.line? p = some (t, true))
    (h : Writer (t, true)) :
    ∃ t', (hub.write p).line? p = some (t', !(hub.server.mail.box p).ended)
      ∧ Writer (t', !(hub.server.mail.box p).ended)
      ∧ t'.taken = t.taken ++ (hub.server.mail.box p).pending.flatMap Record.encode
      ∧ (p < hub.server.mail.boxes.length →
          (hub.write p).server.mail.box p = (hub.server.mail.box p).drain) := by
  obtain ⟨peer, hpeer, he⟩ := Option.map_eq_some_iff.mp hl
  have hlt : p < hub.peers.length := (List.getElem?_eq_some_iff.mp hpeer).1
  have hw : peer.writing = true := congrArg Prod.snd he
  obtain rfl : peer.target = t := congrArg Prod.fst he
  obtain ⟨t', hdeliver, hopen, htaken, hshut⟩ := deliver_of_open h.opened peer.label
    (hub.server.mail.box p).pending (hub.server.mail.box p).ended
  have hwriting : ((if (hub.server.mail.box p).ended then Delivery.finished else .written)
      == .written) = !(hub.server.mail.box p).ended := by
    cases (hub.server.mail.box p).ended <;> rfl
  refine ⟨t', ?_, h.written hopen hshut, htaken, ?_⟩
  · unfold write
    rw [hpeer]
    dsimp only
    rw [hw, if_pos rfl, hdeliver, line?]
    dsimp only
    rw [List.getElem?_set_self hlt, hwriting]
    rfl
  · intro hp
    unfold write
    rw [hpeer]
    dsimp only
    rw [hw, if_pos rfl]
    dsimp only
    rw [hdeliver]
    exact box_collect_self hp (by split <;> simp)

/-- **Writing a line leaves nothing to be written**, and ends the line if its outbox has ended. -/
theorem write_line {hub : Hub} {p : Nat} {linked : Prop} {l : Target × Bool}
    (hl : hub.line? p = some l) (hp : p < hub.server.mail.boxes.length)
    (h : Line (hub.server.mail.box p) linked l) :
    ∃ l', (hub.write p).line? p = some l' ∧ Line ((hub.write p).server.mail.box p) linked l'
      ∧ Flushed ((hub.write p).server.mail.box p) l' := by
  obtain ⟨t, writing⟩ := l
  cases writing with
  | false =>
      rw [write_of_ended hl]
      exact ⟨_, hl, h, (h.ended rfl).2, fun _ => rfl⟩
  | true =>
      obtain ⟨t', hl', hwriter, htaken, hdrain⟩ := write_of_open hl h.toWriter
      rw [hdrain hp]
      exact ⟨_, hl', h.drain hwriter htaken⟩

/-- Writing lines one after the other leaves nothing to be written on those that were written. -/
theorem writes_line (order : List Nat) {hub : Hub} {p : Nat} {linked : Prop} {l : Target × Bool}
    (hl : hub.line? p = some l) (hp : p < hub.server.mail.boxes.length)
    (h : Line (hub.server.mail.box p) linked l) :
    ∃ l', (order.foldl write hub).line? p = some l'
      ∧ Line ((order.foldl write hub).server.mail.box p) linked l'
      ∧ (p ∈ order ∨ Flushed (hub.server.mail.box p) l →
          Flushed ((order.foldl write hub).server.mail.box p) l') := by
  induction order generalizing hub l with
  | nil =>
      refine ⟨l, hl, h, ?_⟩
      intro hor
      exact hor.resolve_left (by simp)
  | cons q rest ih =>
      have hboxes : p < (hub.write q).server.mail.boxes.length := by
        rw [(write_frame hub q).2.2.1]
        exact hp
      by_cases hq : q = p
      · subst hq
        obtain ⟨l₁, hl₁, hone, hflushed⟩ := write_line hl hp h
        obtain ⟨l', hl', hline, hrest⟩ := ih hl₁ hboxes hone
        exact ⟨l', hl', hline, fun _ => hrest (Or.inr hflushed)⟩
      · obtain ⟨hsame, hbox⟩ := write_other hub hq
        obtain ⟨l', hl', hline, hrest⟩ := ih (hsame.trans hl) hboxes (hbox ▸ h)
        refine ⟨l', hl', hline, ?_⟩
        intro hor
        refine hrest ?_
        rcases hor with hm | hflushed
        · exact Or.inl ((List.mem_cons.mp hm).resolve_left fun he => hq he.symm)
        · exact Or.inr (hbox ▸ hflushed)

theorem writes_frame (order : List Nat) (hub : Hub) :
    (order.foldl write hub).server.roster = hub.server.roster
      ∧ (order.foldl write hub).server.version = hub.server.version
      ∧ (order.foldl write hub).server.mail.boxes.length = hub.server.mail.boxes.length
      ∧ (order.foldl write hub).peers.map (·.handle) = hub.peers.map (·.handle) := by
  induction order generalizing hub with
  | nil => exact ⟨rfl, rfl, rfl, rfl⟩
  | cons q rest ih =>
      obtain ⟨hroster, hversion, hboxes, hpeers⟩ := write_frame hub q
      obtain ⟨hroster', hversion', hboxes', hpeers'⟩ := ih (hub.write q)
      exact ⟨hroster'.trans hroster, hversion'.trans hversion, hboxes'.trans hboxes,
        hpeers'.trans hpeers⟩

/-- Writing leaves the handles of the peers. -/
theorem lobby_writes (order : List Nat) (hub : Hub) : (order.foldl write hub).lobby
    = { hub.lobby with server := (order.foldl write hub).server } := by
  rw [lobby, (writes_frame order hub).2.2.2]
  rfl

theorem line?_eq_none_iff {hub : Hub} {p : Nat} :
    hub.line? p = none ↔ hub.lobby.handles.length ≤ p := by
  rw [line?, Option.map_eq_none_iff, List.getElem?_eq_none_iff, lobby, List.length_map]

/-- Writing keeps a peer's line right, and leaves nothing to be written on it if it is among those
that are written. -/
theorem served_writes {p : Nat} {hub : Hub} (h : Lobby.Served p (hub.line? p) hub.lobby)
    (order : List Nat) :
    Lobby.Served p ((order.foldl write hub).line? p) (order.foldl write hub).lobby
      ∧ ((p < hub.server.mail.boxes.length → p ∈ order) →
        ∀ l ∈ (order.foldl write hub).line? p,
          Flushed ((order.foldl write hub).server.mail.box p) l) := by
  obtain ⟨hall, hmatches, hline⟩ := h
  obtain ⟨hroster, hversion, hboxes, hpeers⟩ := writes_frame order hub
  have hmatches' : (order.foldl write hub).lobby.Matches hall := by
    rw [lobby_writes]
    exact Lobby.matches_congr hmatches hroster hversion hboxes
  have hhandles : (order.foldl write hub).lobby.handles = hub.lobby.handles := hpeers
  cases hl : hub.line? p with
  | none =>
      have hnone : (order.foldl write hub).line? p = none := by
        rw [line?_eq_none_iff, hhandles, ← line?_eq_none_iff, hl]
      rw [hnone]
      exact ⟨⟨hall, hmatches', by simp⟩, by simp⟩
  | some l =>
      obtain ⟨hp, hone⟩ := hline l hl
      have hbox : p < hub.server.mail.boxes.length := Lobby.length_boxes hmatches ▸ hp
      obtain ⟨l', hl', hone', hflushed⟩ := writes_line order hl hbox hone
      rw [hl']
      refine ⟨⟨hall, hmatches', ?_⟩, ?_⟩
      · intro m hm
        obtain rfl := Option.some.inj hm
        exact ⟨hhandles ▸ hp, hone'⟩
      · intro hwritten m hm
        obtain rfl := Option.some.inj hm
        exact hflushed (Or.inl (hwritten hbox))

/-! ## Rounds -/

/-- A peer's line is right as far as removals can be counted. -/
def Sound (p : Nat) (hub : Hub) : Prop := Lobby.Kept (Lobby.Served p (hub.line? p)) hub.lobby

/-- Everything that was queued for a peer has been written. -/
def Settled (p : Nat) (hub : Hub) : Prop :=
  hub.server.removals < UInt64.size → ∀ l ∈ hub.line? p, Flushed (hub.server.mail.box p) l

/-- Every outbox has its turn. -/
theorem mem_takeTurns (mail : Mail) {p : Nat} (hp : p < mail.boxes.length) :
    p ∈ mail.takeTurns.1 := by
  by_cases hd : p ∈ mail.due
  · exact List.mem_append_left _ hd
  · exact List.mem_append_right _ (List.mem_filter.mpr
      ⟨List.mem_range.mpr hp, decide_eq_true hd⟩)

/-- Whatever is read, every line is written as it was before. -/
theorem sound_reads {p : Nat} {hub : Hub} (h : hub.Sound p) (order : List Nat) :
    (order.foldl read hub).Sound p := by
  rw [Sound, line?_reads]
  exact kept_reads (Lobby.stable_served p (hub.line? p)) order h

/-- Taking turns leaves every outbox as it is. -/
theorem sound_turns {p : Nat} {hub : Hub} (h : hub.Sound p) :
    Sound p { hub with server := { hub.server with mail := hub.server.mail.takeTurns.2 } } := by
  refine h.congr (s := { hub.server with mail := hub.server.mail.takeTurns.2 }) rfl rfl rfl ?_
  intro hserved
  obtain ⟨hall, hmatches, hline⟩ := hserved
  exact ⟨hall, Lobby.matches_congr hmatches rfl rfl rfl, hline⟩

theorem sound_writes {p : Nat} {hub : Hub} (h : hub.Sound p) (order : List Nat) :
    (order.foldl write hub).Sound p
      ∧ ((p < hub.server.mail.boxes.length → p ∈ order) →
        (order.foldl write hub).Settled p) := by
  obtain ⟨hroster, hversion, hboxes, -⟩ := writes_frame order hub
  constructor
  · rw [Sound, lobby_writes]
    refine Lobby.Kept.congr h hroster hversion hboxes ?_
    intro hserved
    have hwritten := (served_writes hserved order).1
    rwa [lobby_writes] at hwritten
  · intro hwritten hroom
    rw [Server.removals, hroster, hboxes] at hroom
    exact (served_writes (h.holds hroom) order).2 hwritten

/-- **After a round nothing is left to be written.** -/
theorem sound_round {p : Nat} {hub : Hub} (h : hub.Sound p) (order : List Nat) :
    (hub.round order).2.Sound p ∧ (hub.round order).2.Settled p := by
  obtain ⟨hwritten, hsettled⟩ := sound_writes (sound_turns (sound_reads h order))
    (order.foldl read hub).server.mail.takeTurns.1
  exact ⟨hwritten, hsettled fun hp => mem_takeTurns _ hp⟩

theorem sound_rounds {p : Nat} (more : Nat) (order : List Nat) {hub : Hub} (h : hub.Sound p) :
    (rounds more order hub).Sound p ∧ (rounds more order hub).Settled p := by
  induction more generalizing order hub with
  | zero => exact sound_round h order
  | succ more ih =>
      have hround := sound_round h order
      rw [rounds]
      dsimp only
      split
      · exact ih _ hround.1
      · exact hround

/-! ## Events -/

theorem sound_new (p : Nat) (version : Version) : Sound p { server := { version } } where
  seated := ⟨{}, Arena.holds_empty, rfl, Hall.sound_empty version⟩
  holds := fun _ => ⟨{}, Lobby.matches_init version, by simp [line?]⟩

/-- A peer that connects has an empty outbox and an open target, and the others keep theirs. -/
theorem served_connect {p : Nat} {hub : Hub} (h : Lobby.Served p (hub.line? p) hub.lobby)
    (address : Option SocketAddress) (label : String) :
    Lobby.Served p ((hub.connect address label).2.line? p)
      (hub.lobby.step (.register address)) := by
  obtain ⟨hall, hmatches, hline⟩ := h
  have hlength : (hub.lobby.step (.register address)).handles.length
      = hub.lobby.handles.length + 1 := List.length_append
  have hpeers : hub.lobby.handles.length = hub.peers.length := List.length_map _
  refine ⟨_, (Lobby.obeys_register hmatches address).1, fun l hl => ?_⟩
  rw [line?_connect, ← hpeers] at hl
  rcases Lobby.box_register hmatches address p with ⟨hnew, hbox, hlinked⟩ | ⟨hold, hbox, hlinked⟩
  · rw [if_pos hnew] at hl
    obtain rfl := Option.some.inj hl
    rw [hbox]
    exact ⟨by omega, line_new hlinked⟩
  · rw [if_neg hold] at hl
    obtain ⟨hp, hone⟩ := hline l hl
    rw [hbox]
    exact ⟨by omega, hone.congr hlinked.symm⟩

theorem sound_connect {p : Nat} {hub : Hub} (h : hub.Sound p) (address : Option SocketAddress)
    (label : String) : (hub.connect address label).2.Sound p := by
  obtain ⟨seats, hseated⟩ := h.seated
  obtain ⟨hseated', hmore⟩ := Lobby.seated_step hseated (.register address)
  rw [Sound, lobby_connect]
  refine ⟨hseated', fun hroom => ?_⟩
  exact served_connect (h.holds (Nat.lt_of_le_of_lt hmore hroom)) address label

/-- Whatever happens at the hub, the line of a peer that goes on receiving stays right. -/
theorem sound_turn {p : Nat} {hub hub' : Hub} (h : hub.Sound p) (hturn : Turn p hub hub') :
    hub'.Sound p := by
  cases hturn with
  | connect address label => exact sound_connect h address label
  | change hhandle hline =>
      rw [Sound, line?_modifyPeer hub hline, lobby_modifyPeer hub hhandle]
      exact h
  | ask hq hstep =>
      have hkept := Lobby.Kept.step (Lobby.stable_served p (hub.line? p)) h hq
      rwa [hstep] at hkept

theorem sound_step {p : Nat} {hub : Hub} (h : hub.Sound p) {event : Event}
    (hdeafen : event ≠ .deafen p) (hvanish : event ≠ .vanish p) :
    (hub.step event).2.Sound p ∧ (hub.step event).2.Settled p :=
  sound_rounds _ _ (sound_turn h (turn_apply hub hdeafen hvanish))

/-! ## What becomes of a line -/

section

variable {p : Nat} {R : Option (Target × Bool) → Prop}

/-- Only writing a peer's own line changes the line. -/
theorem line_writes (hR : ∀ hub : Hub, R (hub.line? p) → R ((hub.write p).line? p))
    (order : List Nat) {hub : Hub} (h : R (hub.line? p)) :
    R ((order.foldl write hub).line? p) := by
  induction order generalizing hub with
  | nil => exact h
  | cons q rest ih =>
      refine ih ?_
      by_cases hq : q = p
      · subst hq
        exact hR hub h
      · rw [(write_other hub hq).1]
        exact h

theorem line_round (hR : ∀ hub : Hub, R (hub.line? p) → R ((hub.write p).line? p))
    (order : List Nat) {hub : Hub} (h : R (hub.line? p)) : R ((hub.round order).2.line? p) := by
  refine line_writes hR _ ?_
  show R ((order.foldl read hub).line? p)
  rw [line?_reads]
  exact h

theorem line_rounds (hR : ∀ hub : Hub, R (hub.line? p) → R ((hub.write p).line? p))
    (more : Nat) (order : List Nat) {hub : Hub} (h : R (hub.line? p)) :
    R ((rounds more order hub).line? p) := by
  induction more generalizing order hub with
  | zero => exact line_round hR order h
  | succ more ih =>
      rw [rounds]
      dsimp only
      split
      · exact ih _ (line_round hR order h)
      · exact line_round hR order h

end

/-- **Nothing is received behind the end of the stream.** -/
theorem line?_step {hub : Hub} {p : Nat} {t : Target} (hl : hub.line? p = some (t, false))
    {event : Event} (hdeafen : event ≠ .deafen p) (hvanish : event ≠ .vanish p) :
    (hub.step event).2.line? p = some (t, false) := by
  obtain ⟨peer, hpeer, -⟩ := Option.map_eq_some_iff.mp hl
  have hp : p < hub.peers.length := (List.getElem?_eq_some_iff.mp hpeer).1
  have happly :=
    (line?_turn (turn_apply hub hdeafen hvanish)).resolve_right fun h => Nat.ne_of_lt hp h.1
  refine line_rounds (R := (· = some (t, false))) ?_ _ _ (happly.trans hl)
  intro hub hended
  rw [write_of_ended hended, hended]

theorem writer_step {hub : Hub} {p : Nat} (h : ∀ l ∈ hub.line? p, Writer l) {event : Event}
    (hdeafen : event ≠ .deafen p) (hvanish : event ≠ .vanish p) :
    ∀ l ∈ (hub.step event).2.line? p, Writer l := by
  have happly : ∀ l ∈ (hub.apply event).2.line? p, Writer l := by
    intro l hl
    rcases line?_turn (turn_apply hub hdeafen hvanish) with hsame | ⟨-, hnew⟩
    · exact h l (hsame ▸ hl)
    · obtain rfl := Option.some.inj (hnew.symm.trans hl)
      exact writer_new
  refine line_rounds (R := fun line => ∀ l ∈ line, Writer l) ?_ _ _ happly
  intro hub hwriter
  cases hl : hub.line? p with
  | none =>
      have hsame : hub.write p = hub := by
        unfold write
        rw [Option.map_eq_none_iff.mp hl]
      rw [hsame, hl]
      simp
  | some l =>
      obtain ⟨t, writing⟩ := l
      cases writing with
      | false =>
          rw [write_of_ended hl]
          exact hwriter
      | true =>
          obtain ⟨t', hl', hw, -⟩ := write_of_open hl (hwriter _ hl)
          rw [hl']
          intro l hm
          obtain rfl := Option.some.inj hm
          exact hw

/-! ## Runs -/

theorem run_append (hub : Hub) (events more : List Event) :
    hub.run (events ++ more) = (hub.run events).run more := List.foldl_append

theorem sound_run {p : Nat} (version : Version) (events : List Event)
    (hdeafen : .deafen p ∉ events) (hvanish : .vanish p ∉ events) :
    (run { server := { version } } events).Sound p
      ∧ (run { server := { version } } events).Settled p := by
  induction events using List.reverseRecOn with
  | nil => exact ⟨sound_new p version, fun _ l hl => absurd hl (by simp [run, line?])⟩
  | append_singleton events event ih =>
      rw [List.mem_append, not_or, List.mem_singleton] at hdeafen hvanish
      have hbefore := (ih hdeafen.1 hvanish.1).1
      rw [run_append]
      exact sound_step hbefore (fun he => hdeafen.2 he.symm) fun he => hvanish.2 he.symm

theorem writer_run {p : Nat} (version : Version) (events : List Event)
    (hdeafen : .deafen p ∉ events) (hvanish : .vanish p ∉ events) :
    ∀ l ∈ (run { server := { version } } events).line? p, Writer l := by
  induction events using List.reverseRecOn with
  | nil => exact fun l hl => absurd hl (by simp [run, line?])
  | append_singleton events event ih =>
      rw [List.mem_append, not_or, List.mem_singleton] at hdeafen hvanish
      rw [run_append]
      exact writer_step (ih hdeafen.1 hvanish.1) (fun he => hdeafen.2 he.symm)
        fun he => hvanish.2 he.symm

theorem line?_run {hub : Hub} {p : Nat} {t : Target} (hl : hub.line? p = some (t, false))
    {events : List Event} (hdeafen : .deafen p ∉ events) (hvanish : .vanish p ∉ events) :
    (hub.run events).line? p = some (t, false) := by
  induction events generalizing hub with
  | nil => exact hl
  | cons event rest ih =>
      rw [List.mem_cons, not_or] at hdeafen hvanish
      have hstep := line?_step hl (fun he => hdeafen.1 he.symm) fun he => hvanish.1 he.symm
      exact ih hstep hdeafen.2 hvanish.2

/-- A peer whose connection is not linked any more is one whose handle finds nothing. -/
theorem connection?_eq_none_iff {hub : Hub} {hall : Hall Nat} (h : hub.lobby.Matches hall)
    {p : Nat} {peer : Peer} (hp : hub.peers[p]? = some peer) :
    hub.server.connection? peer.handle = none ↔ ¬ hall.Linked p := by
  have hhandle : hub.lobby.handles[p]? = some peer.handle := getElem?_handles hp
  have hconnection := Lobby.connection?_of_matches h p
  rw [Lobby.connection?, hhandle, Option.bind_some] at hconnection
  show hub.lobby.server.connection? peer.handle = none ↔ _
  rw [hconnection, Option.map_eq_none_iff, Hall.find?, List.find?_eq_none]
  constructor
  · intro hnone hlinked
    obtain ⟨seat, hs, rfl⟩ := List.mem_map.mp hlinked
    exact hnone seat hs (decide_eq_true (h.keys seat hs))
  · intro hnot seat hs hk
    have hkey := h.keys seat hs
    exact hnot (List.mem_map.mpr ⟨seat, hs, hkey ▸ of_decide_eq_true hk⟩)

end Hub

/-- How a line stands when a hub has settled. -/
theorem Hub.line_settled {p : Nat} {version : Version} {events : List Hub.Event}
    (hroom : (Hub.run { server := { version } } events).server.removals < UInt64.size)
    (hdeafen : .deafen p ∉ events) (hvanish : .vanish p ∉ events) {l : Target × Bool}
    (hl : (Hub.run { server := { version } } events).line? p = some l) :
    ∃ hall, (Hub.run { server := { version } } events).lobby.Matches hall
      ∧ Line ((Hub.run { server := { version } } events).server.mail.box p) (hall.Linked p) l
      ∧ Flushed ((Hub.run { server := { version } } events).server.mail.box p) l := by
  obtain ⟨hsound, hsettled⟩ := sound_run version events hdeafen hvanish
  obtain ⟨hall, hmatches, hline⟩ := hsound.holds hroom
  exact ⟨hall, hmatches, (hline l hl).2, hsettled hroom l hl⟩

/-- A peer that has seen the end of the stream is written to no more, whatever comes after it. -/
theorem Hub.line?_of_shut {p : Nat} {version : Version} {before after : List Hub.Event}
    (hdeafen : .deafen p ∉ before ++ after) (hvanish : .vanish p ∉ before ++ after) {peer : Peer}
    (hp : (Hub.run { server := { version } } before).peers[p]? = some peer)
    (hshut : peer.target.shut = true) :
    (Hub.run { server := { version } } (before ++ after)).line? p
      = some (peer.target, false) := by
  rw [List.mem_append, not_or] at hdeafen hvanish
  have hl := line?_of_peer hp
  have hwriter := (writer_run version before hdeafen.1 hvanish.1 _ hl).shut
  rw [hshut] at hwriter
  have hended : peer.writing = false := by simpa using hwriter
  rw [hended] at hl
  rw [run_append]
  exact line?_run hl hdeafen.2 hvanish.2

/-- **A peer that goes on receiving gets all that was ever queued for it, and then the end of the
stream if and only if its connection was taken down**, whatever has happened at the hub. Its outbox
has never turned a record away, and behind the end of the stream it gets nothing more. -/
theorem nothing_queued_is_lost (version : Version) (events : List Hub.Event)
    (hroom : (Hub.run { server := { version } } events).server.removals < UInt64.size)
    {p : Nat} {peer : Peer}
    (hp : (Hub.run { server := { version } } events).peers[p]? = some peer)
    (hdeafen : .deafen p ∉ events) (hvanish : .vanish p ∉ events) :
    ((Hub.run { server := { version } } events).server.mail.box p).receiving = true
      ∧ peer.target.taken
        = ((Hub.run { server := { version } } events).server.mail.box p).records.flatMap
            Record.encode
      ∧ (peer.target.shut = true
          ↔ (Hub.run { server := { version } } events).server.connection? peer.handle = none)
      ∧ ∀ before, before <+: events → ∀ earlier,
          (Hub.run { server := { version } } before).peers[p]? = some earlier →
          earlier.target.shut = true → peer.target.taken = earlier.target.taken := by
  have hl := Hub.line?_of_peer hp
  obtain ⟨hall, hmatches, hline, hflushed⟩ := Hub.line_settled hroom hdeafen hvanish hl
  refine ⟨hline.receiving, hline.all_received hflushed, ?_, ?_⟩
  · rw [Hub.connection?_eq_none_iff hmatches hp]
    exact hline.shut_iff hflushed
  · rintro before ⟨after, rfl⟩ earlier hearlier hshut
    have hafter := Hub.line?_of_shut hdeafen hvanish hearlier hshut
    rw [hl] at hafter
    exact congrArg (·.1.taken) (Option.some.inj hafter)

/-- Two peers present themselves under one name. -/
def namesakes : List Hub.Event :=
  [.connect none "first", .send 0 (Record.userInfo ⟨"ann", .current⟩).encode,
    .connect none "second", .send 1 (Record.userInfo ⟨"ann", .current⟩).encode]

/-- The second is told why, and then reads the end of the stream. -/
theorem nothing_queued_is_lost_namesakes :
    ∃ peer, (Hub.run { server := {} } namesakes).peers[1]? = some peer
      ∧ peer.target.taken = (Record.stdout Denial.nameTaken.notice).encode
      ∧ peer.target.shut = true := by
  have hroom : (Hub.run { server := { version := .current } } namesakes).server.removals
      < UInt64.size := by decide +kernel
  have hhandle : ((Hub.run { server := { version := .current } } namesakes).peers[1]?).map
      (·.handle) = some ⟨1, 0⟩ := by decide +kernel
  obtain ⟨peer, hp, hh⟩ := Option.map_eq_some_iff.mp hhandle
  obtain ⟨-, htaken, hshut, -⟩ :=
    nothing_queued_is_lost .current namesakes hroom hp (by decide) (by decide)
  refine ⟨peer, hp, htaken.trans ?_, hshut.mpr ?_⟩
  · decide +kernel
  · rw [hh]
    decide +kernel

end ChatRoom
