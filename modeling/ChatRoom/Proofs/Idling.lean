import ChatRoom.Proofs.Conservation
import ChatRoom.Proofs.Flushing

/-!
# Running to idle

A record that cannot be written stops the peer's reader, which takes the peer down, which is told to
the others, and one of those may not be written to either. So one round may call for another, and
the rounds are cut off at a number that ought to be enough. It is: a reader that must stop does so
in the next round, and no line that has ended is read again, so each round but the first leaves
fewer lines to read (`live`). Any higher number would do as well.

When a hub has settled it is idle. No line has anything to read, none has anything to write, and to
read or to write any of them again would change nothing at all.
-/

namespace ChatRoom

/-! ## Readers at rest -/

namespace Reader

/-- Filling puts bytes behind those that are there. -/
theorem prefix_fill (wanted : Nat) (r : Reader) : r.buffer <+: (r.fill wanted).2.buffer := by
  fun_induction fill wanted r with
  | case1 r hle => exact List.prefix_rfl
  | case2 r hshort cause source hread => exact List.prefix_rfl
  | case3 r hshort source hread => exact List.prefix_rfl
  | case4 r hshort source hread => exact List.prefix_rfl
  | case5 r hshort b bs source hread ih => exact (List.prefix_append _ _).trans ih

/-- Filling that has to wait would have to wait at once if it began again. -/
theorem fill_of_waiting {wanted : Nat} {r r' : Reader} (h : r.fill wanted = (.waiting, r')) :
    r'.fill wanted = (.waiting, r') := by
  fun_induction fill wanted r with
  | case1 r hle => exact absurd h (by simp)
  | case2 r hshort cause source hread => exact absurd h (by simp)
  | case3 r hshort source hread =>
      obtain rfl : source = r.source := Source.eq_of_read_waiting hread
      obtain rfl : r = r' := (Prod.mk.inj h).2
      rw [fill, if_neg hshort, hread]
  | case4 r hshort source hread => exact absurd h (by simp)
  | case5 r hshort b bs source hread ih => exact ih h

/-- A header that was read is read again from whatever has come behind it. -/
theorem probe_of_prefix {r r' : Reader} {header : Header}
    (hheader : Header.ofBytes? r.buffer = some header) (hpre : r.buffer <+: r'.buffer) :
    r'.probe = (.done (some header), r') := by
  obtain ⟨more, hmore⟩ := hpre
  have hlong := Header.le_length_of_ofBytes? hheader
  have hle : headerSize ≤ r'.buffer.length := by
    rw [← hmore, List.length_append]
    exact Nat.le_add_right_of_le hlong
  have hheader' : Header.ofBytes? r'.buffer = some header := by
    rw [← hmore, Header.ofBytes?_append hlong, hheader]
  rw [probe, fill, if_pos hle]
  dsimp only
  rw [hheader']

/-- **A reader that has to wait has read all that there is to read.** -/
theorem next_of_waiting {r r' : Reader} (h : r.next = (.waiting, r')) :
    r'.next = (.waiting, r') := by
  unfold next at h
  split at h
  · exact absurd h (by simp)
  · -- it waits for the header
    rename_i r₁ hprobe
    obtain rfl : r₁ = r' := (Prod.mk.inj h).2
    have hfill : r.fill headerSize = (.waiting, r₁) := by
      unfold probe at hprobe
      split at hprobe
      · exact absurd hprobe (by simp)
      · rename_i hfill
        rw [hfill, (Prod.mk.inj hprobe).2]
      · split at hprobe
        · exact absurd hprobe (by simp)
        · split at hprobe <;> exact absurd hprobe (by simp)
    rw [next, probe, fill_of_waiting hfill]
  · exact absurd h (by simp)
  · -- it waits for the rest of the record
    rename_i header r₁ hprobe
    split at h
    · exact absurd h (by simp)
    · rename_i kind size hvalid
      split at h
      · exact absurd h (by simp)
      · rename_i r₂ hfill
        obtain rfl : r₂ = r' := (Prod.mk.inj h).2
        have hheader : Header.ofBytes? r₁.buffer = some header := by
          unfold probe at hprobe
          split at hprobe
          · exact absurd hprobe (by simp)
          · exact absurd hprobe (by simp)
          · split at hprobe
            · rename_i hheader
              obtain ⟨hsame, rfl⟩ := Prod.mk.inj hprobe
              rw [hheader]
              simpa using hsame
            · split at hprobe <;> exact absurd hprobe (by simp)
        have hpre := prefix_fill size r₁
        rw [hfill] at hpre
        rw [next, probe_of_prefix hheader hpre]
        dsimp only
        rw [hvalid]
        dsimp only
        rw [fill_of_waiting hfill]
      · exact absurd h (by simp)
      · exact absurd h (by simp)

end Reader

/-! ## What requests leave in the mail -/

/-- A mail before and after requests that register nobody: there is no new outbox, nothing is taken
out of any, and no reader that was told to stop is told otherwise. -/
structure Mail.Steady (mail mail' : Mail) : Prop where
  length : mail'.boxes.length = mail.boxes.length
  taken : ∀ n, (mail'.box n).taken = (mail.box n).taken
  stopped : ∀ n, (mail.box n).stopped = true → (mail'.box n).stopped = true

namespace Mail.Steady

theorem refl (mail : Mail) : mail.Steady mail := ⟨rfl, fun _ => rfl, fun _ hs => hs⟩

theorem trans {mail mail' mail'' : Mail} (h : mail.Steady mail') (h' : mail'.Steady mail'') :
    mail.Steady mail'' where
  length := h'.length.trans h.length
  taken := fun n => (h'.taken n).trans (h.taken n)
  stopped := fun n hs => h'.stopped n (h.stopped n hs)

theorem deliver {ι : Type} (hall : Hall ι) (mail : Mail) (news : Option News) :
    mail.Steady (hall.deliver mail news) := by
  cases news with
  | none => exact refl mail
  | some news =>
      refine ⟨Hall.length_boxes_deliver hall mail _, fun n => ?_, fun n hs => ?_⟩
      · rw [Hall.box_deliver]
        dsimp only
        split <;> rfl
      · rw [Hall.box_deliver]
        dsimp only
        split
        · rfl
        · exact hs

end Mail.Steady

theorem Server.steady_step {s : Server} {hall : Hall Handle} (h : Seated s hall)
    {request : Request Handle} (hq : ∀ address, request ≠ .register address) :
    s.mail.Steady (s.step request).2.mail := by
  rw [(seated_step h request).2]
  have hdeliver : ∀ news, s.mail.Steady (hall.deliver s.mail news) := .deliver hall s.mail
  cases request with
  | register address => exact absurd rfl (hq address)
  | deafen m =>
      refine ⟨Mail.length_boxes_refuse s.mail m, fun n => ?_, fun n hs => ?_⟩
      · show ((s.mail.refuse m).box n).taken = _
        rw [Mail.box_refuse]
        split <;> rfl
      · show ((s.mail.refuse m).box n).stopped = true
        rw [Mail.box_refuse]
        split <;> exact hs
  | dispatch origin record => exact hdeliver _
  | close origin => exact hdeliver _
  | kick name => exact hdeliver _
  | disconnectAll => exact hdeliver (some .emptied)

namespace Lobby

/-- The server keeps a hall, and its mail has come from this one without a registration. -/
structure Since (mail : Mail) (lobby : Lobby) : Prop where
  seated : ∃ hall, Seated lobby.server hall
  steady : mail.Steady lobby.server.mail

theorem persists_since (mail : Mail) : Persists (Since mail) where
  note := by
    intro lobby entry h
    obtain ⟨hall, hseated⟩ := h.seated
    exact ⟨⟨hall, hseated.congr rfl rfl rfl⟩, h.steady⟩
  step := by
    intro lobby request hq h
    obtain ⟨hall, hseated⟩ := h.seated
    refine ⟨(seated_step hseated request).1, ?_⟩
    rcases rename?_cases lobby.handles hq.registers with
      ⟨peer, -, -, hr⟩ | ⟨request', hr, hq', -⟩
    · rw [step, hr]
      exact h.steady
    · rw [step_of_rename hr hq']
      exact h.steady.trans (Server.steady_step hseated hq')

end Lobby

namespace Hub

/-- A hub whose server keeps a hall, with an outbox for each peer. -/
structure Fit (hub : Hub) : Prop where
  seated : ∃ hall, Seated hub.server hall
  numbered : hub.server.mail.boxes.length = hub.peers.length

/-- Nothing that is read of lines leads to is ever taken back. -/
theorem since_reads {hub : Hub} (h : hub.Fit) (order : List Nat) :
    (order.foldl read hub).lobby.Since hub.server.mail :=
  persists_reads (Lobby.persists_since _) order ⟨h.seated, .refl _⟩

theorem length_peers_read (hub : Hub) (q : Nat) : (hub.read q).peers.length = hub.peers.length := by
  unfold read
  split
  · rfl
  · split
    · rfl
    · exact List.length_set

theorem fit_read {hub : Hub} (h : hub.Fit) (q : Nat) : (hub.read q).Fit := by
  have hsince := since_reads h [q]
  exact ⟨hsince.seated, by rw [length_peers_read, ← h.numbered]; exact hsince.steady.length⟩

theorem fit_reads {hub : Hub} (h : hub.Fit) (order : List Nat) : (order.foldl read hub).Fit := by
  induction order generalizing hub with
  | nil => exact h
  | cons q rest ih => exact ih (fit_read h q)

theorem fit_writes {hub : Hub} (h : hub.Fit) (order : List Nat) : (order.foldl write hub).Fit := by
  obtain ⟨hroster, hversion, hboxes, hpeers⟩ := writes_frame order hub
  obtain ⟨hall, hseated⟩ := h.seated
  have hlength : (order.foldl write hub).peers.length = hub.peers.length := by
    simpa using congrArg List.length hpeers
  refine ⟨⟨hall, hseated.congr hroster hversion hboxes⟩, ?_⟩
  rw [hboxes, hlength]
  exact h.numbered

theorem fit_turns {hub : Hub} (h : hub.Fit) :
    Fit { hub with server := { hub.server with mail := hub.server.mail.takeTurns.2 } } := by
  obtain ⟨hall, hseated⟩ := h.seated
  exact ⟨⟨hall, hseated.congr rfl rfl rfl⟩, h.numbered⟩

/-! ## Lines that are read -/

/-- How many lines are still read. -/
def live (hub : Hub) : Nat := hub.peers.countP fun peer => peer.ending.isNone

theorem mustStop_iff {hub : Hub} : hub.mustStop = true ↔
    ∃ p peer, hub.peers[p]? = some peer ∧ peer.ending = none
      ∧ (hub.server.mail.box p).stopped = true := by
  simp only [mustStop, List.any_eq_true, Prod.exists, List.mem_zipIdx_iff_getElem?,
    Bool.and_eq_true, Option.isNone_iff_eq_none]
  constructor
  · intro h
    obtain ⟨peer, p, hp, hlive, hs⟩ := h
    exact ⟨p, peer, hp, hlive, hs⟩
  · intro h
    obtain ⟨p, peer, hp, hlive, hs⟩ := h
    exact ⟨peer, p, hp, hlive, hs⟩

theorem not_mustStop_of_live {hub : Hub} (h : hub.live = 0) : hub.mustStop = false := by
  rw [← Bool.not_eq_true, mustStop_iff]
  intro hmust
  obtain ⟨p, peer, hp, hlive, -⟩ := hmust
  have hpos : 0 < hub.live :=
    List.countP_pos_iff.mpr ⟨peer, List.mem_of_getElem? hp, by rw [hlive]; rfl⟩
  omega

theorem read_ne (hub : Hub) {p q : Nat} (hne : q ≠ p) :
    (hub.read q).peers[p]? = hub.peers[p]? := by
  unfold read
  split
  · rfl
  · split
    · rfl
    · exact List.getElem?_set_ne hne

theorem live_set {hub : Hub} {q : Nat} {peer : Peer} (hq : hub.peers[q]? = some peer)
    (hlive : peer.ending = none) (peer' : Peer) (server : Server) :
    ({ server, peers := hub.peers.set q peer' } : Hub).live + 1
      = hub.live + if peer'.ending.isNone then 1 else 0 := by
  obtain ⟨hlt, hget⟩ := List.getElem?_eq_some_iff.mp hq
  have hpos : 0 < hub.peers.countP fun peer => peer.ending.isNone :=
    List.countP_pos_iff.mpr ⟨peer, List.mem_of_getElem? hq, by rw [hlive]; rfl⟩
  show (hub.peers.set q peer').countP _ + 1 = hub.peers.countP _ + _
  rw [List.countP_set hlt, hget, hlive]
  simp only [Option.isNone_none, if_true]
  omega

/-- Reading a line brings none to life, and a reader that must stop does so. -/
theorem live_read {hub : Hub} (h : hub.Fit) (q : Nat) :
    (hub.read q).live ≤ hub.live
      ∧ ∀ peer, hub.peers[q]? = some peer → peer.ending = none →
          (hub.server.mail.box q).stopped = true → (hub.read q).live < hub.live := by
  have hsince : hub.lobby.Since hub.server.mail := ⟨h.seated, .refl _⟩
  have hread := reading (Lobby.persists_since hub.server.mail) hsince q
  generalize hub.read q = hub' at hread
  cases hread with
  | stays hover =>
      refine ⟨Nat.le_refl _, fun peer hp hlive _ => ?_⟩
      have := hover peer hp
      rw [hlive] at this
      exact absurd this (by simp)
  | @waits peer hq hlive server _ reader hstopped _ =>
      have hcount := live_set hq hlive { peer with reader, ending := none } server
      refine ⟨?_, fun _ _ _ hs => absurd (hstopped.symm.trans hs) (by simp)⟩
      simp only [Option.isNone_none, if_true] at hcount
      omega
  | @ends peer hq hlive server _ reader ending =>
      have hcount := live_set hq hlive { peer with reader, ending := some ending }
        (Lobby.mk server hub.lobby.handles |>.step (.close q)).server
      simp only [Option.isNone_some, Bool.false_eq_true, if_false, Nat.add_zero] at hcount
      exact ⟨by omega, fun _ _ _ _ => by omega⟩

theorem live_reads_le {hub : Hub} (h : hub.Fit) (order : List Nat) :
    (order.foldl read hub).live ≤ hub.live := by
  induction order generalizing hub with
  | nil => exact Nat.le_refl _
  | cons q rest ih => exact (ih (fit_read h q)).trans (live_read h q).1

theorem live_reads_lt {hub : Hub} (h : hub.Fit) {order : List Nat} {p : Nat} (hp : p ∈ order)
    {peer : Peer} (hpeer : hub.peers[p]? = some peer) (hlive : peer.ending = none)
    (hs : (hub.server.mail.box p).stopped = true) : (order.foldl read hub).live < hub.live := by
  induction order generalizing hub with
  | nil => exact absurd hp (by simp)
  | cons q rest ih =>
      by_cases hq : q = p
      · subst hq
        exact Nat.lt_of_le_of_lt (live_reads_le (fit_read h q) rest)
          ((live_read h q).2 peer hpeer hlive hs)
      · -- its turn comes later, and it is still to stop then
        have hrest : p ∈ rest := (List.mem_cons.mp hp).resolve_left fun he => hq he.symm
        have hs' := (since_reads h [q]).steady.stopped p hs
        have := ih (fit_read h q) hrest ((read_ne hub hq).trans hpeer) hs'
        exact Nat.lt_of_lt_of_le this (live_read h q).1

/-- Writing leaves the reading of lines alone. -/
theorem map_write {β : Type} {f : Peer → β}
    (hf : ∀ (peer : Peer) target writing, f { peer with target, writing } = f peer) (hub : Hub)
    (q : Nat) : (hub.write q).peers.map f = hub.peers.map f := by
  unfold write
  split
  · rfl
  · rename_i peer hq
    split
    · exact map_set_of_eq hq (hf peer _ _)
    · rfl

theorem map_writes {β : Type} {f : Peer → β}
    (hf : ∀ (peer : Peer) target writing, f { peer with target, writing } = f peer)
    (order : List Nat) (hub : Hub) :
    (order.foldl write hub).peers.map f = hub.peers.map f := by
  induction order generalizing hub with
  | nil => rfl
  | cons q rest ih => exact (ih (hub.write q)).trans (map_write hf hub q)

theorem live_writes (order : List Nat) (hub : Hub) : (order.foldl write hub).live = hub.live := by
  have hcount : ∀ hub : Hub, hub.live
      = (hub.peers.map fun peer => peer.ending.isNone).countP id := by
    intro hub
    rw [List.countP_map]
    rfl
  rw [hcount, hcount, map_writes (fun _ _ _ => rfl)]

/-! ## Rounds -/

/-- What a round comes to before its writing. -/
def heard (hub : Hub) (order : List Nat) : Hub :=
  let hub := order.foldl read hub
  { hub with server := { hub.server with mail := hub.server.mail.takeTurns.2 } }

theorem round_eq (hub : Hub) (order : List Nat) :
    (hub.round order).2 = (hub.round order).1.foldl write (hub.heard order) := rfl

theorem fit_heard {hub : Hub} (h : hub.Fit) (order : List Nat) : (hub.heard order).Fit :=
  fit_turns (fit_reads h order)

/-- After a round every line has its turn in the next one too. -/
theorem fit_round {hub : Hub} (h : hub.Fit) (order : List Nat) :
    (hub.round order).2.Fit ∧ (hub.round order).2.peers.length = hub.peers.length
      ∧ ∀ p < hub.peers.length, p ∈ (hub.round order).1 := by
  have hreads := since_reads h order
  have hfit : (hub.round order).2.Fit := fit_writes (fit_heard h order) _
  have hboxes : (order.foldl read hub).server.mail.boxes.length = hub.peers.length :=
    hreads.steady.length.trans h.numbered
  refine ⟨hfit, ?_, fun p hp => mem_takeTurns _ (hboxes.symm ▸ hp)⟩
  rw [← hfit.numbered, round_eq, (writes_frame _ _).2.2.1]
  exact hboxes

theorem live_round_le {hub : Hub} (h : hub.Fit) (order : List Nat) :
    (hub.round order).2.live ≤ hub.live := by
  rw [round_eq, live_writes]
  exact live_reads_le h order

/-- **A round that a reader has called for leaves fewer lines to read.** -/
theorem live_round_lt {hub : Hub} (h : hub.Fit) {order : List Nat}
    (horder : ∀ p < hub.peers.length, p ∈ order) (hmust : hub.mustStop = true) :
    (hub.round order).2.live < hub.live := by
  obtain ⟨p, peer, hp, hlive, hs⟩ := mustStop_iff.mp hmust
  rw [round_eq, live_writes]
  exact live_reads_lt h (horder p (List.getElem?_eq_some_iff.mp hp).1) hp hlive hs

/-- Nothing calls for another round after these many. -/
structure Enough (more : Nat) (order : List Nat) (hub : Hub) : Prop where
  next : rounds (more + 1) order hub = rounds more order hub
  done : (rounds more order hub).mustStop = false

theorem rounds_succ (more : Nat) (order : List Nat) (hub : Hub) :
    rounds (more + 1) order hub = if (hub.round order).2.mustStop then
      rounds more (hub.round order).1 (hub.round order).2 else (hub.round order).2 := rfl

theorem enough_of_rest {hub : Hub} {order : List Nat}
    (hrest : (hub.round order).2.mustStop = false) (more : Nat) : Enough more order hub := by
  have hone : ∀ n, rounds n order hub = (hub.round order).2 := by
    intro n
    cases n with
    | zero => rfl
    | succ n =>
        rw [rounds_succ, hrest]
        rfl
  exact ⟨by rw [hone, hone], by rw [hone, hrest]⟩

theorem enough_succ {hub : Hub} {order : List Nat} {more : Nat}
    (h : (hub.round order).2.mustStop = true →
      Enough more (hub.round order).1 (hub.round order).2) : Enough (more + 1) order hub := by
  cases hmust : (hub.round order).2.mustStop with
  | false => exact enough_of_rest hmust _
  | true =>
      have hone : ∀ n, rounds (n + 1) order hub
          = rounds n (hub.round order).1 (hub.round order).2 := by
        intro n
        rw [rounds_succ, hmust]
        rfl
      exact ⟨by rw [hone, hone, (h hmust).next], by rw [hone]; exact (h hmust).done⟩

theorem enough_of_mustStop {hub : Hub} (h : hub.Fit) {order : List Nat}
    (horder : ∀ p < hub.peers.length, p ∈ order) (hmust : hub.mustStop = true) {more : Nat}
    (hlive : hub.live ≤ more + 1) : Enough more order hub := by
  -- on the rounds that are left: each takes a line from those that are read
  induction more generalizing hub order with
  | zero =>
      have hless := live_round_lt h horder hmust
      exact enough_of_rest (not_mustStop_of_live (by omega)) 0
  | succ more ih =>
      have hless := live_round_lt h horder hmust
      obtain ⟨hfit, hlength, hcover⟩ := fit_round h order
      exact enough_succ fun hnext => ih hfit (hlength ▸ hcover) hnext (by omega)

/-- **As many rounds as lines are read are enough, after the first one.** -/
theorem enough_of_live {hub : Hub} (h : hub.Fit) {order : List Nat} {more : Nat}
    (hlive : hub.live ≤ more) : Enough more order hub := by
  have hle := live_round_le h order
  obtain ⟨hfit, hlength, hcover⟩ := fit_round h order
  cases more with
  | zero => exact enough_of_rest (not_mustStop_of_live (by omega)) 0
  | succ more =>
      exact enough_succ fun hnext =>
        enough_of_mustStop hfit (hlength ▸ hcover) hnext (by omega)

/-- **Settling does not depend on the number at which the rounds are cut off.** -/
theorem rounds_of_le {hub : Hub} (h : hub.Fit) {more : Nat} (hmore : hub.peers.length ≤ more) :
    rounds more (List.range hub.peers.length) hub = hub.settle := by
  induction more, hmore using Nat.le_induction with
  | base => rfl
  | succ more hmore ih =>
      have hlive : hub.live ≤ more := Nat.le_trans List.countP_le_length hmore
      exact (enough_of_live h hlive).next.trans ih

/-- What reading and writing one line keep, and taking turns, settling keeps. -/
theorem settle_of_closed {I : Hub → Prop} (hread : ∀ hub q, I hub → I (hub.read q))
    (hwrite : ∀ hub q, I hub → I (hub.write q))
    (hturns : ∀ hub : Hub, I hub →
      I { hub with server := { hub.server with mail := hub.server.mail.takeTurns.2 } })
    {hub : Hub} (h : I hub) : I hub.settle := by
  have hreads : ∀ (order : List Nat) (hub : Hub), I hub → I (order.foldl read hub) := by
    intro order
    induction order with
    | nil => exact fun hub h => h
    | cons q rest ih => exact fun hub h => ih _ (hread hub q h)
  have hwrites : ∀ (order : List Nat) (hub : Hub), I hub → I (order.foldl write hub) := by
    intro order
    induction order with
    | nil => exact fun hub h => h
    | cons q rest ih => exact fun hub h => ih _ (hwrite hub q h)
  have hround : ∀ (order : List Nat) (hub : Hub), I hub → I (hub.round order).2 :=
    fun order hub h => hwrites _ _ (hturns _ (hreads order hub h))
  have hrounds : ∀ more (order : List Nat) (hub : Hub), I hub → I (rounds more order hub) := by
    intro more
    induction more with
    | zero => exact fun order hub h => hround order hub h
    | succ more ih =>
        intro order hub h
        rw [rounds_succ]
        split
        · exact ih _ _ (hround order hub h)
        · exact hround order hub h
  exact hrounds _ _ _ h

theorem not_mustStop_settle {hub : Hub} (h : hub.Fit) : hub.settle.mustStop = false :=
  (enough_of_live h List.countP_le_length).done

/-! ## Idle lines -/

/-- Nothing is there to be read, and nothing to be written. -/
def Idle (hub : Hub) : Prop := ∀ p, hub.read p = hub ∧ hub.write p = hub

/-- A peer that nothing more is read from, or whose reader waits. -/
def Quiet (hub : Hub) (p : Nat) : Prop := ∀ peer, hub.peers[p]? = some peer →
  peer.ending.isSome = true ∨ peer.reader.next = (.waiting, peer.reader)

/-- A peer that nothing more is written to, or whose outbox is empty and has not ended. -/
def Drained (hub : Hub) (p : Nat) : Prop := ∀ peer, hub.peers[p]? = some peer →
  peer.writing = true → (hub.server.mail.box p).taken = (hub.server.mail.box p).records.length
    ∧ (hub.server.mail.box p).sending = true

theorem quiet_read_self (hub : Hub) (p : Nat) : (hub.read p).Quiet p := by
  have hread : Reading (fun _ => True) hub p (hub.read p) :=
    reading ⟨fun _ _ _ => trivial, fun _ _ _ _ => trivial⟩ trivial p
  generalize hub.read p = hub' at hread
  intro peer' hp'
  cases hread with
  | stays hover => exact Or.inl (hover peer' hp')
  | waits hq _ _ _ hwaits =>
      dsimp only at hp'
      rw [List.getElem?_set_self (List.getElem?_eq_some_iff.mp hq).1] at hp'
      obtain rfl := Option.some.inj hp'
      obtain ⟨before, hbefore⟩ := hwaits
      exact Or.inr (Reader.next_of_waiting hbefore)
  | ends hq _ _ reader ending =>
      dsimp only at hp'
      rw [List.getElem?_set_self (List.getElem?_eq_some_iff.mp hq).1] at hp'
      obtain rfl := Option.some.inj hp'
      exact Or.inl rfl

theorem quiet_reads {p : Nat} (order : List Nat) {hub : Hub} (h : p ∈ order ∨ hub.Quiet p) :
    (order.foldl read hub).Quiet p := by
  induction order generalizing hub with
  | nil => exact h.resolve_left (by simp)
  | cons q rest ih =>
      by_cases hq : q = p
      · subst hq
        exact ih (Or.inr (quiet_read_self hub q))
      · refine ih (h.imp (fun hm => (List.mem_cons.mp hm).resolve_left fun he => hq he.symm) ?_)
        intro hquiet peer hp
        exact hquiet peer ((read_ne hub hq).symm.trans hp)

theorem quiet_writes {p : Nat} (order : List Nat) {hub : Hub} (h : hub.Quiet p) :
    (order.foldl write hub).Quiet p := by
  intro peer' hp'
  have hmap := map_writes (f := fun peer : Peer => (peer.ending, peer.reader)) (fun _ _ _ => rfl)
    order hub
  have hone := congrArg (·[p]?) hmap
  simp only [List.getElem?_map, hp', Option.map_some] at hone
  obtain ⟨peer, hp, he⟩ := Option.map_eq_some_iff.mp hone.symm
  obtain ⟨hending, hreader⟩ := Prod.mk.inj he
  rw [← hending, ← hreader]
  exact h peer hp

theorem write_ne (hub : Hub) {p q : Nat} (hne : q ≠ p) :
    (hub.write q).peers[p]? = hub.peers[p]? := by
  unfold write
  split
  · rfl
  · split
    · exact List.getElem?_set_ne hne
    · rfl

/-- Delivering ends or fails, or else more may come. -/
theorem fst_deliver_of_last (peer : String) (records : List Record) (t : Target) :
    (deliver peer records true t).1 ≠ .written := by
  unfold deliver
  split
  · simp
  · rw [if_pos rfl]
    split <;> simp

/-- What writing a line comes to: nothing, if nothing more is written to the peer; or what is
pending is delivered, which may be the last that is written. -/
inductive Writing (hub : Hub) (q : Nat) : Hub → Prop where
  | stays (hover : ∀ peer, hub.peers[q]? = some peer → peer.writing = false) : Writing hub q hub
  | delivers {peer : Peer} (hq : hub.peers[q]? = some peer) (hwriting : peer.writing = true)
      {delivery : Delivery} {log : List LogEntry} {target : Target}
      (hdeliver : deliver peer.label (hub.server.mail.box q).pending (hub.server.mail.box q).ended
        peer.target = (delivery, log, target)) :
      Writing hub q {
        server := { hub.server with
          mail := collect hub.server.mail q delivery, log := hub.server.log ++ log }
        peers := hub.peers.set q { peer with target, writing := delivery == .written } }

theorem writing (hub : Hub) (q : Nat) : Writing hub q (hub.write q) := by
  unfold write
  split
  · rename_i hq
    exact .stays fun peer hp => absurd (hq.symm.trans hp) (by simp)
  · rename_i peer hq
    split
    · rename_i hw
      exact .delivers hq hw rfl
    · rename_i hw
      refine .stays fun other hp => ?_
      obtain rfl := Option.some.inj (hq.symm.trans hp)
      exact Bool.eq_false_iff.mpr hw

theorem drained_write_self {hub : Hub} (h : hub.Fit) (p : Nat) : (hub.write p).Drained p := by
  have hwrite := writing hub p
  generalize hub.write p = hub' at hwrite
  intro peer' hp' hw'
  cases hwrite with
  | stays hover => exact absurd ((hover peer' hp').symm.trans hw') (by simp)
  | @delivers peer hp hw delivery log target hdeliver =>
      have hlt : p < hub.peers.length := (List.getElem?_eq_some_iff.mp hp).1
      dsimp only at hp'
      rw [List.getElem?_set_self hlt] at hp'
      obtain rfl := Option.some.inj hp'
      obtain rfl : delivery = .written := by simpa using hw'
      dsimp only
      rw [box_collect_self (h.numbered.symm ▸ hlt) (by simp)]
      refine ⟨rfl, ?_⟩
      by_contra hno
      have hended : (hub.server.mail.box p).ended = true := by
        show (!(hub.server.mail.box p).sending) = true
        exact Bool.not_eq_true' _ |>.mpr (Bool.eq_false_iff.mpr hno)
      rw [hended] at hdeliver
      exact fst_deliver_of_last _ _ _ (congrArg Prod.fst hdeliver)

theorem drained_writes {p : Nat} (order : List Nat) {hub : Hub} (hfit : hub.Fit)
    (h : p ∈ order ∨ hub.Drained p) : (order.foldl write hub).Drained p := by
  induction order generalizing hub with
  | nil => exact h.resolve_left (by simp)
  | cons q rest ih =>
      have hfit' : (hub.write q).Fit := fit_writes hfit [q]
      by_cases hq : q = p
      · subst hq
        exact ih hfit' (Or.inr (drained_write_self hfit q))
      · refine ih hfit'
          (h.imp (fun hm => (List.mem_cons.mp hm).resolve_left fun he => hq he.symm) ?_)
        intro hdrained peer hp
        rw [(write_other hub hq).2]
        exact hdrained peer ((write_ne hub hq).symm.trans hp)

/-- **A round reads and writes all that there is**, as far as it goes. -/
theorem quiet_round {hub : Hub} (h : hub.Fit) {order : List Nat}
    (horder : ∀ p < hub.peers.length, p ∈ order) (p : Nat) :
    (hub.round order).2.Quiet p ∧ (hub.round order).2.Drained p := by
  obtain ⟨-, hlength, hcover⟩ := fit_round h order
  by_cases hp : p < hub.peers.length
  · exact ⟨quiet_writes _ (quiet_reads order (Or.inl (horder p hp))),
      drained_writes _ (fit_heard h order) (Or.inl (hcover p hp))⟩
  · have hnone : (hub.round order).2.peers[p]? = none :=
      List.getElem?_eq_none (by omega)
    exact ⟨fun peer hpeer => absurd (hnone.symm.trans hpeer) (by simp),
      fun peer hpeer => absurd (hnone.symm.trans hpeer) (by simp)⟩

/-- Rounds keep what one round keeps, and end with a round. -/
theorem last_round {hub : Hub} (h : hub.Fit) {order : List Nat}
    (horder : ∀ p < hub.peers.length, p ∈ order) (more : Nat) :
    ∃ before : Hub, ∃ order', before.Fit ∧ (∀ p < before.peers.length, p ∈ order')
      ∧ rounds more order hub = (before.round order').2 := by
  induction more generalizing hub order with
  | zero => exact ⟨hub, order, h, horder, rfl⟩
  | succ more ih =>
      rw [rounds_succ]
      split
      · obtain ⟨hfit, hlength, hcover⟩ := fit_round h order
        exact ih hfit (hlength ▸ hcover)
      · exact ⟨hub, order, h, horder, rfl⟩

/-- A hub has settled by a round. -/
theorem settle_eq_round {hub : Hub} (h : hub.Fit) :
    ∃ before : Hub, ∃ order, before.Fit ∧ (∀ p < before.peers.length, p ∈ order)
      ∧ hub.settle = (before.round order).2 :=
  last_round h (fun _ hp => List.mem_range.mpr hp) hub.peers.length

/-- A line that is quiet and need not stop is not read any further. -/
theorem read_of_quiet {hub : Hub} {p : Nat} (h : hub.Quiet p) (hmust : hub.mustStop = false) :
    hub.read p = hub := by
  unfold read
  split
  · rfl
  · rename_i peer hp
    split
    · rfl
    · rename_i hsome
      have hlive : peer.ending = none := by simpa using hsome
      have hnext := (h peer hp).resolve_left hsome
      have hstopped : (hub.server.mail.box p).stopped = false := by
        rw [← Bool.not_eq_true]
        intro hs
        rw [mustStop_iff.mpr ⟨p, peer, hp, hlive, hs⟩] at hmust
        exact absurd hmust (by simp)
      have hreceive : Server.handler.receive peer.handle peer.reader hub.server
          = (none, peer.reader, hub.server) := by
        rw [Handler.receive]
        split
        · rename_i hn; exact absurd (hn.symm.trans hnext) (by simp)
        · rename_i hn; rw [(Prod.mk.inj (hn.symm.trans hnext)).2]
        · rename_i hn; exact absurd (hn.symm.trans hnext) (by simp)
        · rename_i hn; exact absurd (hn.symm.trans hnext) (by simp)
      have hserve : Server.handler.serve peer.handle false peer.reader hub.server
          = (none, peer.reader, hub.server) := by
        unfold Handler.serve
        rw [hreceive]
        rfl
      have hsame : { peer with ending := none } = peer := by rw [← hlive]
      dsimp only
      rw [hstopped, hserve]
      dsimp only
      rw [hsame]
      obtain ⟨hlt, rfl⟩ := List.getElem?_eq_some_iff.mp hp
      rw [List.set_getElem_self]
      rfl

/-- Emptying an empty outbox changes nothing. -/
theorem collect_of_drained {mail : Mail} {p : Nat}
    (h : (mail.box p).taken = (mail.box p).records.length) : collect mail p .written = mail := by
  refine congrArg (fun boxes => { mail with boxes }) (List.ext_getElem? fun n => ?_)
  rw [List.getElem?_modify]
  by_cases hn : p = n
  · subst hn
    cases hbox : mail.boxes[p]? with
    | none => rfl
    | some o =>
        rw [Mail.box, hbox, Option.getD_some] at h
        show some (if p = p then o.drain else o) = some o
        rw [if_pos rfl, Outbox.drain, ← h]
  · simp [hn]

/-- A line that is drained is not written any further. -/
theorem write_of_drained {hub : Hub} {p : Nat} (h : hub.Drained p) : hub.write p = hub := by
  have hwrite := writing hub p
  generalize hub.write p = hub' at hwrite
  cases hwrite with
  | stays hover => rfl
  | @delivers peer hp hw delivery log target hdeliver =>
      obtain ⟨htaken, hsending⟩ := h peer hp hw
      rw [Outbox.pending, htaken, List.drop_length, Outbox.ended, hsending] at hdeliver
      obtain ⟨rfl, rfl, rfl⟩ : Delivery.written = delivery ∧ [] = log ∧ peer.target = target := by
        simpa [deliver, Target.writeRecords] using hdeliver
      have hsame : { peer with writing := Delivery.written == .written } = peer := by
        rw [show (Delivery.written == .written) = peer.writing from hw.symm]
      obtain ⟨hlt, rfl⟩ := List.getElem?_eq_some_iff.mp hp
      rw [collect_of_drained htaken, List.append_nil, hsame, List.set_getElem_self]

/-- A hub at rest: no reader must stop, none has anything to read, and no outbox anything to be
written. -/
structure AtRest (hub : Hub) : Prop where
  mustStop : hub.mustStop = false
  quiet : ∀ p, hub.Quiet p
  drained : ∀ p, hub.Drained p

theorem AtRest.idle {hub : Hub} (h : hub.AtRest) : hub.Idle :=
  fun p => ⟨read_of_quiet (h.quiet p) h.mustStop, write_of_drained (h.drained p)⟩

/-- **A hub that has settled is at rest.** -/
theorem atRest_settle {hub : Hub} (h : hub.Fit) : hub.settle.AtRest := by
  obtain ⟨before, order, hfit, horder, hlast⟩ := settle_eq_round h
  have hround := quiet_round hfit horder
  rw [← hlast] at hround
  exact ⟨not_mustStop_settle h, fun p => (hround p).1, fun p => (hround p).2⟩

/-! ## Events and runs -/

theorem fit_new (version : Version) : Fit { server := { version } } :=
  ⟨⟨{}, Arena.holds_empty, rfl, Hall.sound_empty version⟩, rfl⟩

theorem fit_apply {hub : Hub} (h : hub.Fit) (event : Event) : (hub.apply event).2.Fit := by
  have hincident := incident_apply hub event
  generalize (hub.apply event).2 = hub' at hincident
  obtain ⟨hall, hseated⟩ := h.seated
  cases hincident with
  | connect address label =>
      have hregister := (Server.seated_step hseated (.register address)).1
      refine ⟨⟨_, hregister⟩, ?_⟩
      show (hub.server.mail.boxes ++ [({} : Outbox)]).length = (hub.peers ++ [_]).length
      rw [List.length_append, List.length_append, h.numbered]
      rfl
  | change halter htarget =>
      refine ⟨h.seated, h.numbered.trans ?_⟩
      exact (List.length_modify ..).symm
  | ask hq hstep =>
      have hsince := (Lobby.persists_since hub.server.mail).step hub.lobby _ hq
        ⟨h.seated, .refl _⟩
      rw [hstep] at hsince
      exact ⟨hsince.seated, hsince.steady.length.trans h.numbered⟩

theorem fit_settle {hub : Hub} (h : hub.Fit) : hub.settle.Fit := by
  obtain ⟨before, order, hfit, -, hlast⟩ := settle_eq_round h
  rw [hlast]
  exact (fit_round hfit order).1

theorem fit_run (version : Version) (events : List Event) :
    (run { server := { version } } events).Fit := by
  induction events using List.reverseRecOn with
  | nil => exact fit_new version
  | append_singleton events event ih =>
      rw [run_append]
      exact fit_settle (fit_apply ih event)

theorem atRest_run (version : Version) (events : List Event) :
    (run { server := { version } } events).AtRest := by
  induction events using List.reverseRecOn with
  | nil =>
      exact ⟨rfl, fun p peer hp => absurd hp (by simp [run]),
        fun p peer hp => absurd hp (by simp [run])⟩
  | append_singleton events event ih =>
      rw [run_append]
      exact atRest_settle (fit_apply (fit_run version events) event)

end Hub

end ChatRoom
