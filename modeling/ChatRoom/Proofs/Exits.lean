import ChatRoom.Proofs.Closing

/-!
# Lines that end

There are many ways for a line to end, and several of them may come together: a peer is removed
while its stream ends, or is refused and cannot be written to. The line ends once all the same. Here
all the endings of a run are listed as they come, round by round (`Hub.exits`), and the list is
compared with what the hub has come to.

A peer that takes nothing more is found out by the next record that is queued for it: the record
cannot be written, so the writing of its line is over, and so is the reading when the hub has
settled.

The order of the list is that of the rounds, which are one schedule among many. In any other, too, a
line ends only with its connection, and whoever reads for a connection that is gone has been told to
stop (`Hub.stands_in_any_order`).
-/

namespace ChatRoom

namespace Hub

/-! ## Endings as they come -/

/-- Why a peer's line has ended, once it has. -/
def ending? (hub : Hub) (p : Nat) : Option Ending := hub.peers[p]?.bind (·.ending)

/-- The peer whose line is read, and why the line ends, if it ends then. -/
def exit? (hub : Hub) (p : Nat) : Option (Nat × Ending) :=
  if (hub.ending? p).isSome then none else ((hub.read p).ending? p).map (p, ·)

/-- The lines that end while lines are read one after the other, -/
def readsExits : List Nat → Hub → List (Nat × Ending)
  | [], _ => []
  | p :: order, hub => (hub.exit? p).toList ++ readsExits order (hub.read p)

/-- round by round, -/
def roundsExits : (more : Nat) → List Nat → Hub → List (Nat × Ending)
  | 0, order, hub => readsExits order hub
  | more + 1, order, hub =>
    readsExits order hub ++
      if (hub.round order).2.mustStop then roundsExits more (hub.round order).1 (hub.round order).2
      else []

/-- until the hub has settled, -/
def settleExits (hub : Hub) : List (Nat × Ending) :=
  roundsExits hub.peers.length (List.range hub.peers.length) hub

/-- and event by event. -/
def exits : List Event → Hub → List (Nat × Ending)
  | [], _ => []
  | event :: rest, hub => settleExits (hub.apply event).2 ++ exits rest (hub.step event).2

/-- Two hubs between which these lines have ended, none of them twice, and no others. -/
structure Departs (hub hub' : Hub) (gone : List (Nat × Ending)) : Prop where
  once : (gone.map Prod.fst).Nodup
  fresh : ∀ exit ∈ gone, hub.ending? exit.1 = none
  mem : ∀ p ending, hub'.ending? p = some ending
    ↔ hub.ending? p = some ending ∨ (p, ending) ∈ gone

namespace Departs

theorem of_eq {hub hub' : Hub} (h : ∀ p, hub'.ending? p = hub.ending? p) :
    Departs hub hub' [] where
  once := List.nodup_nil
  fresh := by simp
  mem := by simp [h]

/-- What ends later is not what has ended. -/
theorem trans {hub hub' hub'' : Hub} {gone gone' : List (Nat × Ending)}
    (h : Departs hub hub' gone) (h' : Departs hub' hub'' gone') :
    Departs hub hub'' (gone ++ gone') where
  once := by
    rw [List.map_append]
    refine List.nodup_append.mpr ⟨h.once, h'.once, fun p hp p' hp' he => ?_⟩
    obtain ⟨exit, hm, rfl⟩ := List.mem_map.mp hp
    obtain ⟨exit', hm', rfl⟩ := List.mem_map.mp hp'
    have hended := (h.mem exit.1 exit.2).mpr (Or.inr hm)
    rw [he, h'.fresh exit' hm'] at hended
    exact absurd hended (by simp)
  fresh := by
    intro exit hm
    rcases List.mem_append.mp hm with hm | hm
    · exact h.fresh exit hm
    · refine Option.eq_none_iff_forall_ne_some.mpr fun ending he => ?_
      have hended := (h.mem exit.1 ending).mpr (Or.inl he)
      rw [h'.fresh exit hm] at hended
      exact absurd hended (by simp)
  mem := by
    intro p ending
    rw [h'.mem, h.mem, List.mem_append, or_assoc]

end Departs

theorem ending?_of_peer {hub : Hub} {p : Nat} {peer : Peer} (hp : hub.peers[p]? = some peer) :
    hub.ending? p = peer.ending := by
  rw [ending?, hp]
  rfl

theorem ending?_of_map {hub hub' : Hub}
    (h : hub'.peers.map (·.ending) = hub.peers.map (·.ending)) (p : Nat) :
    hub'.ending? p = hub.ending? p := by
  have hjoin : ∀ hub : Hub, hub.ending? p = (hub.peers.map (·.ending))[p]?.join := by
    intro hub
    rw [List.getElem?_map]
    cases hp : hub.peers[p]? <;> simp [ending?, hp]
  rw [hjoin, hjoin, h]

/-- **A line that has ended is not read again**, and no other line ends by reading this one. -/
theorem departs_read (hub : Hub) (q : Nat) : Departs hub (hub.read q) (hub.exit? q).toList := by
  cases hended : hub.ending? q with
  | some ending =>
      have hover : hub.read q = hub := by
        unfold read
        split
        · rfl
        · rename_i peer hq
          rw [ending?_of_peer hq] at hended
          rw [hended]
          rfl
      have hnone : hub.exit? q = none := by simp [exit?, hended]
      rw [hover, hnone]
      exact .of_eq fun _ => rfl
  | none =>
      have hexit : hub.exit? q = ((hub.read q).ending? q).map (q, ·) := by simp [exit?, hended]
      rw [hexit]
      refine ⟨?_, fun exit hm => ?_, fun p ending => ?_⟩
      · cases (hub.read q).ending? q <;> simp
      · obtain ⟨ending, -, rfl⟩ := Option.map_eq_some_iff.mp (Option.mem_toList.mp hm)
        exact hended
      · by_cases hq : q = p
        · subst hq
          simp [hended]
        · have hsame : (hub.read q).ending? p = hub.ending? p := by
            rw [ending?, ending?, read_ne hub hq]
          simp [hsame, hq]

theorem departs_reads (order : List Nat) (hub : Hub) :
    Departs hub (order.foldl read hub) (hub.readsExits order) := by
  induction order generalizing hub with
  | nil => exact .of_eq fun _ => rfl
  | cons q rest ih => exact (departs_read hub q).trans (ih (hub.read q))

theorem departs_round (hub : Hub) (order : List Nat) :
    Departs hub (hub.round order).2 (hub.readsExits order) := by
  have hwrites : Departs (hub.heard order) (hub.round order).2 [] := by
    rw [round_eq]
    exact .of_eq (ending?_of_map (map_writes (fun _ _ _ => rfl) _ _))
  have hturns : Departs (order.foldl read hub) (hub.heard order) [] := .of_eq fun _ => rfl
  simpa using (departs_reads order hub).trans (hturns.trans hwrites)

theorem departs_rounds (more : Nat) (order : List Nat) (hub : Hub) :
    Departs hub (rounds more order hub) (roundsExits more order hub) := by
  induction more generalizing order hub with
  | zero => exact departs_round hub order
  | succ more ih =>
      rw [rounds_succ, roundsExits]
      split
      · exact (departs_round hub order).trans (ih _ _)
      · rw [List.append_nil]
        exact departs_round hub order

/-- No line ends by an event alone. -/
theorem ending?_apply (hub : Hub) (event : Event) (p : Nat) :
    (hub.apply event).2.ending? p = hub.ending? p := by
  have hincident := incident_apply hub event
  generalize (hub.apply event).2 = hub' at hincident
  cases hincident with
  | connect address label =>
      obtain ⟨newcomer, -, -, hending, hpeers⟩ := peers_connect hub address label
      rw [ending?, hpeers]
      split
      · rename_i hnew
        rw [Option.bind_some, hending, hnew, ending?, List.getElem?_eq_none (Nat.le_refl _)]
        rfl
      · rfl
  | @change _ q f halter htarget =>
      exact ending?_of_map (map_modifyPeer hub fun peer => (halter peer).ending) p
  | ask hq hstep => rfl

/-- **Every line that ends in a run ends once, and is listed then.** -/
theorem departs_run (events : List Event) (hub : Hub) :
    Departs hub (hub.run events) (hub.exits events) := by
  induction events generalizing hub with
  | nil => exact .of_eq fun _ => rfl
  | cons event rest ih =>
      have happly : Departs hub (hub.apply event).2 [] := .of_eq (ending?_apply hub event)
      have hsettle : Departs (hub.apply event).2 (hub.step event).2
          (hub.apply event).2.settleExits := departs_rounds _ _ _
      exact (happly.trans hsettle).trans (ih (hub.step event).2)

end Hub

/-! ## Peers that take nothing more -/

/-- A target that takes nothing more. -/
def Target.Full (t : Target) : Prop :=
  ∃ capacity cause, t.full = some (capacity, cause) ∧ capacity ≤ t.taken.length

/-- Of some records not even the first can be written to it. -/
theorem Target.writeRecords_of_full {t : Target} (h : t.Full) (record : Record)
    (rest : List Record) :
    ∃ cause, t.writeRecords (record :: rest) = (.error (record, cause), t) := by
  obtain ⟨capacity, cause, hfull, hle⟩ := h
  have hsome : record.encode ≠ [] := by
    refine List.ne_nil_of_length_pos ?_
    rw [Record.length_encode]
    exact Nat.add_pos_left (by decide) _
  have hwrite : t.write record.encode = (.error cause, t) := by
    unfold write
    rw [hfull]
    dsimp only
    rw [if_pos hle]
  refine ⟨cause, ?_⟩
  rw [writeRecords, writeAll, if_neg hsome, hwrite]

/-- If more may come after what was delivered to it then nothing was. -/
theorem deliver_of_full {peer : String} {records : List Record} {last : Bool} {t t' : Target}
    {log : List LogEntry} (h : t.Full) (hw : deliver peer records last t = (.written, log, t')) :
    records = [] ∧ t' = t := by
  cases records with
  | cons record rest =>
      obtain ⟨cause, hfail⟩ := Target.writeRecords_of_full h record rest
      rw [deliver, hfail] at hw
      exact absurd (congrArg Prod.fst hw) (by simp)
  | nil =>
      cases last with
      | true => exact absurd (congrArg Prod.fst hw) (Hub.fst_deliver_of_last _ _ _)
      | false => exact ⟨rfl, (congrArg (·.2.2) hw).symm⟩

namespace Hub

/-- A peer that takes nothing more, and is written to only until something is queued behind the
first `n` records. -/
structure Broken (p n : Nat) (hub : Hub) : Prop where
  fit : hub.Fit
  full : ∃ peer, hub.peers[p]? = some peer
    ∧ (peer.writing = true → peer.target.Full ∧ (hub.server.mail.box p).taken ≤ n)

variable {p n : Nat} {hub : Hub}

theorem broken_read (h : hub.Broken p n) (q : Nat) : (hub.read q).Broken p n := by
  obtain ⟨peer, hp, hfull⟩ := h.full
  have hline := line?_read hub q p
  rw [line?_of_peer hp] at hline
  obtain ⟨peer', hp', he⟩ := Option.map_eq_some_iff.mp hline
  obtain ⟨htarget, hwriting⟩ := Prod.mk.inj he
  refine ⟨fit_read h.fit q, peer', hp', ?_⟩
  have htaken : ((hub.read q).server.mail.box p).taken = (hub.server.mail.box p).taken :=
    (since_reads h.fit [q]).steady.taken p
  rw [htarget, hwriting, htaken]
  exact hfull

theorem broken_turns (h : hub.Broken p n) :
    Broken p n { hub with server := { hub.server with mail := hub.server.mail.takeTurns.2 } } :=
  ⟨fit_turns h.fit, h.full⟩

/-- **The first record behind the others ends the writing.** -/
theorem broken_write (h : hub.Broken p n) (q : Nat) : (hub.write q).Broken p n := by
  refine ⟨fit_writes h.fit [q], ?_⟩
  obtain ⟨peer, hp, hfull⟩ := h.full
  by_cases hq : q = p
  · subst hq
    have hlt : q < hub.peers.length := (List.getElem?_eq_some_iff.mp hp).1
    have hwrite := writing hub q
    generalize hub.write q = hub' at hwrite
    cases hwrite with
    | stays hover => exact ⟨peer, hp, hfull⟩
    | @delivers peer' hp' hw delivery log target hdeliver =>
        obtain rfl := Option.some.inj (hp.symm.trans hp')
        refine ⟨_, List.getElem?_set_self hlt, fun hw' => ?_⟩
        obtain rfl : delivery = .written := by simpa using hw'
        obtain ⟨hfull, htaken⟩ := hfull hw
        obtain ⟨hnone, rfl⟩ := deliver_of_full hfull hdeliver
        refine ⟨hfull, ?_⟩
        dsimp only
        rw [box_collect_self (h.fit.numbered.symm ▸ hlt) (by simp)]
        -- it was empty before it was emptied
        exact Nat.le_trans (List.drop_eq_nil_iff.mp hnone) htaken
  · refine ⟨peer, (write_ne hub hq).trans hp, ?_⟩
    rw [(write_other hub hq).2]
    exact hfull

theorem broken_apply (h : hub.Broken p n) (event : Event) : (hub.apply event).2.Broken p n := by
  refine ⟨fit_apply h.fit event, ?_⟩
  obtain ⟨peer, hp, hfull⟩ := h.full
  have hlt : p < hub.peers.length := (List.getElem?_eq_some_iff.mp hp).1
  have hincident := incident_apply hub event
  generalize (hub.apply event).2 = hub' at hincident
  cases hincident with
  | connect address label =>
      refine ⟨peer, (List.getElem?_append_left hlt).trans hp, ?_⟩
      show _ → _ ∧ ((hub.server.mail.add.2).box p).taken ≤ n
      have hne : p ≠ hub.server.mail.boxes.length := by
        rw [h.fit.numbered]
        exact Nat.ne_of_lt hlt
      rw [Mail.box_add, if_neg hne]
      exact hfull
  | @change _ q f halter htarget =>
      by_cases hq : q = p
      · subst hq
        refine ⟨f peer, by simp [modifyPeer, hp], fun hw => ?_⟩
        rw [(halter peer).writing] at hw
        obtain ⟨hfull, htaken⟩ := hfull hw
        refine ⟨?_, htaken⟩
        rcases (halter peer).target with hsame | hdeaf
        · rw [hsame]
          exact hfull
        · rw [hdeaf]
          exact ⟨_, _, rfl, Nat.le_refl _⟩
      · exact ⟨peer, by simp [modifyPeer, hq, hp], hfull⟩
  | @ask _ request hq server hstep =>
      refine ⟨peer, hp, ?_⟩
      have hsince := (Lobby.persists_since hub.server.mail).step hub.lobby _ hq
        ⟨h.fit.seated, .refl _⟩
      rw [hstep] at hsince
      have htaken : (server.mail.box p).taken = (hub.server.mail.box p).taken :=
        hsince.steady.taken p
      show _ → _ ∧ (server.mail.box p).taken ≤ n
      rw [htaken]
      exact hfull

theorem broken_settle (h : hub.Broken p n) : hub.settle.Broken p n :=
  settle_of_closed (I := Broken p n) (fun _ q h => broken_read h q)
    (fun _ q h => broken_write h q) (fun _ h => broken_turns h) h

theorem broken_run (h : hub.Broken p n) (events : List Event) : (hub.run events).Broken p n := by
  induction events generalizing hub with
  | nil => exact h
  | cons event rest ih => exact ih (broken_settle (broken_apply h event))

/-- An event by which a peer takes nothing more. -/
def Event.Breaks (event : Event) (p : Nat) : Prop := event = .deafen p ∨ event = .vanish p

/-- A peer of a hub at rest has been written whatever was queued for it when it breaks. -/
theorem broken_of_breaks (hfit : hub.Fit) (hrest : hub.AtRest) {event : Event}
    (hbreak : event.Breaks p) (hp : p < hub.peers.length) :
    (hub.apply event).2.Broken p (hub.server.mail.box p).records.length := by
  refine ⟨fit_apply hfit event, ?_⟩
  have hpeer : hub.peers[p]? = some hub.peers[p] := List.getElem?_eq_getElem hp
  have htaken : hub.peers[p].writing = true →
      (hub.server.mail.box p).taken ≤ (hub.server.mail.box p).records.length :=
    fun hw => Nat.le_of_eq (hrest.drained p _ hpeer hw).1
  rcases hbreak with rfl | rfl
  · refine ⟨{ hub.peers[p] with
      target.full := some (hub.peers[p].target.taken.length, "broken pipe") }, ?_, ?_⟩
    · simp [apply, deafen, modifyPeer, hpeer]
    · exact fun hw => ⟨⟨_, _, rfl, Nat.le_refl _⟩, htaken hw⟩
  · refine ⟨{ hub.peers[p] with
      sending := false, reader.source.waits := false
      target.full := some (hub.peers[p].target.taken.length, "broken pipe") }, ?_, ?_⟩
    · simp [apply, finish, deafen, modifyPeer, hpeer]
    · exact fun hw => ⟨⟨_, _, rfl, Nat.le_refl _⟩, htaken hw⟩

theorem broken_since (version : Version) {before : List Event} (after : List Event) {event : Event}
    (hbreak : event.Breaks p) (hp : p < (run { server := { version } } before).peers.length) :
    (run { server := { version } } (before ++ event :: after)).Broken p
      ((run { server := { version } } before).server.mail.box p).records.length := by
  rw [run_append]
  have hbroken := broken_of_breaks (fit_run version before) (atRest_run version before) hbreak hp
  exact broken_run (broken_settle hbroken) after

/-- A peer that takes nothing more is written to no more, once something was queued for it. -/
theorem not_writing_of_broken (h : hub.Broken p n) (hrest : hub.AtRest)
    (hmore : n < (hub.server.mail.box p).records.length) {peer : Peer}
    (hp : hub.peers[p]? = some peer) : peer.writing = false := by
  obtain ⟨peer', hp', hfull⟩ := h.full
  obtain rfl := Option.some.inj (hp.symm.trans hp')
  rw [← Bool.not_eq_true]
  intro hw
  have htaken := (hrest.drained p peer hp hw).1
  have hle := (hfull hw).2
  omega

/-! ## Whole runs -/

theorem removals_le_read {hub : Hub} (hfit : hub.Fit) (q : Nat) :
    hub.server.removals ≤ (hub.read q).server.removals := by
  have hgrows : Lobby.Persists fun lobby => (∃ hall, Seated lobby.server hall)
      ∧ hub.server.removals ≤ lobby.server.removals := by
    refine ⟨fun lobby entry h => ?_, fun lobby request _ h => ?_⟩
    · obtain ⟨⟨hall, hseated⟩, hle⟩ := h
      exact ⟨⟨hall, hseated.congr rfl rfl rfl⟩, hle⟩
    · obtain ⟨⟨hall, hseated⟩, hle⟩ := h
      obtain ⟨hseated', hmore⟩ := Lobby.seated_step hseated request
      exact ⟨hseated', hle.trans hmore⟩
  exact (persists_read hgrows ⟨hfit.seated, Nat.le_refl _⟩ q).2

theorem removals_write (hub : Hub) (q : Nat) :
    (hub.write q).server.removals = hub.server.removals := by
  obtain ⟨hroster, -, hboxes, -⟩ := write_frame hub q
  rw [Server.removals, Server.removals, hroster, hboxes]

theorem removals_le_apply {hub : Hub} (hfit : hub.Fit) (event : Event) :
    hub.server.removals ≤ (hub.apply event).2.server.removals := by
  obtain ⟨hall, hseated⟩ : ∃ hall, Seated hub.lobby.server hall := hfit.seated
  have hmore : ∀ request, hub.server.removals ≤ (hub.lobby.step request).server.removals :=
    fun request => (Lobby.seated_step hseated request).2
  have hincident := incident_apply hub event
  generalize (hub.apply event).2 = hub' at hincident
  cases hincident with
  | connect address label =>
      have hconnected := hmore (.register address)
      rwa [← lobby_connect hub address label] at hconnected
  | change halter htarget => exact Nat.le_refl _
  | @ask _ request hq server hstep =>
      have hasked := hmore request
      rwa [hstep] at hasked

/-- **The number of removals never falls.** -/
theorem removals_le_run {hub : Hub} (hfit : hub.Fit) (events : List Event) :
    hub.server.removals ≤ (hub.run events).server.removals := by
  induction events generalizing hub with
  | nil => exact Nat.le_refl _
  | cons event rest ih =>
      have hsettle : (hub.step event).2.Fit
          ∧ hub.server.removals ≤ (hub.step event).2.server.removals := by
        refine settle_of_closed
          (I := fun hub' => hub'.Fit ∧ hub.server.removals ≤ hub'.server.removals)
          (fun hub' q h => ⟨fit_read h.1 q, h.2.trans (removals_le_read h.1 q)⟩)
          (fun hub' q h => ⟨fit_writes h.1 [q], h.2.trans (Nat.le_of_eq ?_)⟩)
          (fun hub' h => ⟨fit_turns h.1, h.2⟩)
          ⟨fit_apply hfit event, removals_le_apply hfit event⟩
        exact (removals_write hub' q).symm
      exact hsettle.2.trans (ih hsettle.1)

/-- Lines that have ended and lines that are linked are all that there are. -/
theorem count_add_length {hub : Hub} {hall : Hall Nat} (h : hub.lobby.Matches hall)
    {gone : List Nat} (honce : gone.Nodup)
    (hgone : ∀ p, p ∈ gone ↔ p < hub.peers.length ∧ ¬ hall.Linked p) :
    hub.server.roster.count + gone.length = hub.peers.length := by
  have hcome : hall.arrived = hub.peers.length := by
    rw [← h.arrived]
    exact List.length_map _
  have hperm : (hall.seats.map (·.outbox) ++ gone).Perm (List.range hub.peers.length) := by
    refine (List.perm_ext_iff_of_nodup ?_ List.nodup_range).mpr fun p => ?_
    · refine List.nodup_append.mpr ⟨h.sound.outboxes, honce, fun p hp q hq he => ?_⟩
      exact ((hgone q).mp hq).2 (he ▸ hp)
    · rw [List.mem_append, hgone, List.mem_range]
      constructor
      · rintro (hlinked | ⟨hlt, -⟩)
        · obtain ⟨seat, hm, rfl⟩ := List.mem_map.mp hlinked
          exact hcome ▸ h.sound.arrived seat hm
        · exact hlt
      · intro hlt
        by_cases hlinked : hall.Linked p
        · exact Or.inl hlinked
        · exact Or.inr ⟨hlt, hlinked⟩
  have hlength := hperm.length_eq
  rw [List.length_append, List.length_map, List.length_range] at hlength
  have hcount : hub.server.roster.count = hall.seats.length := by
    have hentries := h.seated.roster.count
    rwa [Hall.entries, List.length_map, Hall.rename, List.length_map] at hentries
  rw [hcount, hlength]

/-! ## The endings of a run -/

section

variable {version : Version} {events : List Event} {p : Nat} {peer : Peer}

theorem mem_exits {ending : Ending} : (p, ending) ∈ exits events { server := { version } }
    ↔ (run { server := { version } } events).ending? p = some ending := by
  rw [(departs_run events { server := { version } }).mem, or_iff_right (by simp [ending?])]

theorem lt_of_mem_exits {exit : Nat × Ending} (hm : exit ∈ exits events { server := { version } }) :
    exit.1 < (run { server := { version } } events).peers.length := by
  obtain ⟨peer, hp, -⟩ := Option.bind_eq_some_iff.mp (mem_exits.mp hm)
  exact (List.getElem?_eq_some_iff.mp hp).1

/-- The endings of a run are those that the hub has come to. -/
theorem exists_exit_iff (hp : (run { server := { version } } events).peers[p]? = some peer) :
    (∃ ending, (p, ending) ∈ exits events { server := { version } })
      ↔ peer.ending.isSome = true := by
  simp only [mem_exits, ending?_of_peer hp, Option.isSome_iff_exists]

variable (hroom : (run { server := { version } } events).server.removals < UInt64.size)

include hroom

/-- **The peers whose lines have ended are those whose connections are gone.** -/
theorem exists_exit_iff_gone
    (hp : (run { server := { version } } events).peers[p]? = some peer) :
    (∃ ending, (p, ending) ∈ exits events { server := { version } })
      ↔ (run { server := { version } } events).server.connection? peer.handle = none :=
  (exists_exit_iff hp).trans
    (ended_iff (guards_run p version events) (atRest_run version events) hroom hp)

theorem count_add_length_exits :
    (run { server := { version } } events).server.roster.count
        + (exits events { server := { version } }).length
      = (run { server := { version } } events).peers.length := by
  obtain ⟨hall, hmatches, -⟩ := (guards_run 0 version events).holds hroom
  have hgone : ∀ p, p ∈ (exits events { server := { version } }).map Prod.fst
      ↔ p < (run { server := { version } } events).peers.length ∧ ¬ hall.Linked p := by
    intro p
    constructor
    · intro hm
      obtain ⟨exit, hexit, rfl⟩ := List.mem_map.mp hm
      have hlt := lt_of_mem_exits hexit
      have hp := List.getElem?_eq_getElem hlt
      have hnone := (exists_exit_iff_gone hroom hp).mp ⟨exit.2, hexit⟩
      exact ⟨hlt, (connection?_eq_none_iff hmatches hp).mp hnone⟩
    · intro h
      obtain ⟨hlt, hno⟩ := h
      have hp := List.getElem?_eq_getElem hlt
      have hnone := (connection?_eq_none_iff hmatches hp).mpr hno
      obtain ⟨ending, hexit⟩ := (exists_exit_iff_gone hroom hp).mpr hnone
      exact List.mem_map_of_mem hexit
  have hcount := count_add_length hmatches (departs_run events _).once hgone
  rwa [List.length_map] at hcount

/-- **A broken peer has gone if anything was queued for it.** -/
theorem exists_exit_of_broken {n : Nat}
    (hbroken : (run { server := { version } } events).Broken p n)
    (hmore : n < ((run { server := { version } } events).server.mail.box p).records.length) :
    ∃ ending, (p, ending) ∈ exits events { server := { version } } := by
  have hrest := atRest_run version events
  obtain ⟨peer, hp, -⟩ := hbroken.full
  have hw := not_writing_of_broken hbroken hrest hmore hp
  exact (exists_exit_iff hp).mpr
    (ended_of_not_writing (guards_run p version events) hrest hroom hp hw)

end

/-- What a run from some hub on has to show: nothing is left to be done, the lines that have ended
are those whose connections are gone, and no broken one is among the others. -/
structure Tidy (start : Hub) (events : List Event) : Prop where
  idle : (start.run events).Idle
  /-- Nor is anything left to be done after any event that comes next, however long one waits. -/
  enough : ∀ event more, ((start.run events).apply event).2.peers.length ≤ more →
    rounds more (List.range ((start.run events).apply event).2.peers.length)
      ((start.run events).apply event).2 = ((start.run events).step event).2
  once : ((start.exits events).map Prod.fst).Nodup
  known : ∀ exit ∈ start.exits events, exit.1 < (start.run events).peers.length
  gone : ∀ p peer, (start.run events).peers[p]? = some peer →
    ((∃ ending, (p, ending) ∈ start.exits events)
      ↔ (start.run events).server.connection? peer.handle = none)
  count : (start.run events).server.roster.count + (start.exits events).length
    = (start.run events).peers.length
  /-- A peer that takes nothing more has gone if anything was queued for it since then. -/
  broken : ∀ before event after p, events = before ++ event :: after → event.Breaks p →
    p < (start.run before).peers.length →
    ((start.run before).server.mail.box p).records.length
      < ((start.run events).server.mail.box p).records.length →
    ∃ ending, (p, ending) ∈ start.exits events

theorem tidy_run (version : Version) (events : List Event)
    (hroom : (run { server := { version } } events).server.removals < UInt64.size) :
    Tidy { server := { version } } events where
  idle := (atRest_run version events).idle
  enough := fun event _ hmore => rounds_of_le (fit_apply (fit_run version events) event) hmore
  once := (departs_run events _).once
  known := fun _ hm => lt_of_mem_exits hm
  gone := fun _ _ hp => exists_exit_iff_gone hroom hp
  count := count_add_length_exits hroom
  broken := by
    rintro before event after p rfl hbreak hp hmore
    exact exists_exit_of_broken hroom (broken_since version after hbreak hp) hmore

end Hub

/-- **No line is left half open**, whatever has happened at a hub: after each event it has nothing
left to do, every line has ended at most once, and those that have ended are those whose connections
are gone; a peer that takes nothing more is among them as soon as anything was queued for it. -/
theorem no_line_leaks (version : Version) (events : List Hub.Event)
    (hroom : (Hub.run { server := { version } } events).server.removals < UInt64.size) :
    ∀ before, before <+: events → Hub.Tidy { server := { version } } before := by
  rintro before ⟨after, rfl⟩
  refine Hub.tidy_run version before (Nat.lt_of_le_of_lt ?_ hroom)
  rw [Hub.run_append]
  exact Hub.removals_le_run (Hub.fit_run version before) after

/-- Three members, none of whom takes anything more, and one of them speaks. -/
def deafMembers : List Hub.Event :=
  [.connect none "first", .connect none "second", .connect none "third",
    .send 0 (Record.userInfo ⟨"ann", .current⟩).encode,
    .send 1 (Record.userInfo ⟨"bob", .current⟩).encode,
    .send 2 (Record.userInfo ⟨"cy", .current⟩).encode,
    .deafen 0, .deafen 1, .deafen 2, .send 0 (Record.message "hi").encode]

/-- What she says cannot be written to the other two, who are taken down. That they have left cannot
be written to her, so she is taken down as well, and nobody is left before the next event. -/
theorem no_line_leaks_deafMembers :
    (Hub.exits deafMembers { server := {} }) = [(1, .stopped), (2, .stopped), (0, .stopped)]
      ∧ (Hub.run { server := {} } deafMembers).server.roster.count = 0
      ∧ (Hub.run { server := {} } deafMembers).Idle := by
  have hroom : (Hub.run { server := { version := .current } } deafMembers).server.removals
      < UInt64.size := by decide +kernel
  have htidy := no_line_leaks .current deafMembers hroom deafMembers List.prefix_rfl
  have hexits : Hub.exits deafMembers { server := { version := .current } }
      = [(1, .stopped), (2, .stopped), (0, .stopped)] := by decide +kernel
  have hpeers : (Hub.run { server := { version := .current } } deafMembers).peers.length = 3 := by
    decide +kernel
  have hcount := htidy.count
  rw [hexits, hpeers] at hcount
  exact ⟨hexits, Nat.add_right_cancel (m := 3) (hcount.trans (Nat.zero_add 3).symm), htidy.idle⟩

end ChatRoom
