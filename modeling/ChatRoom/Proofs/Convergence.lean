import ChatRoom.Proofs.Account
import ChatRoom.Proofs.Mirror
import ChatRoom.Proofs.Situations

/-!
# Server and clients agree on who is there

The server tells members apart by handle, and says who comes and who goes. A client hears it record
by record, over a wire that has its own idea of names, and tells members apart by name. That the two
end up with the same list needs three things at once: names are not shared at any moment, what is
told to one peer comes in the order of the events, and the wire gives names back as they were.

`Mirrored` says of every member that whoever reads what it was told knows exactly the others. The
order is not the server's: a peer that was linked early and admitted late stands early in the
roster, and late in the list of a client. So the lists agree up to order.
-/

namespace ChatRoom

open Arena

namespace Hall

variable {version : Version} {hall : Hall Nat} {history : List News}

/-! ## Members, up to order -/

theorem members_remove_perm (h : hall.Sound version) {seat : Seat Nat} (hs : seat ∈ hall.seats) :
    hall.members.Perm ((seat.standing.user?.map fun user => (seat, user)).toList
      ++ (hall.remove seat.key).members) := by
  obtain ⟨l, r, he⟩ := List.append_of_mem hs
  rw [members, members, remove_split he h.keys, he, membersOf_append, membersOf_cons,
    membersOf_append]
  exact List.perm_append_comm_assoc _ _ _

/-- The names of the others. -/
def namesBut (hall : Hall Nat) (peer : Nat) : List String :=
  (hall.audience peer).map (·.2.name)

/-- Who has come is among the others of everyone but itself. -/
theorem namesBut_place (h : hall.Sound version) {seat : Seat Nat} (hs : seat ∈ hall.seats)
    (hw : seat.standing = .waiting) (standing : Standing) (peer : Nat) :
    ((hall.place seat.key standing).namesBut peer).Perm
      (if seat.outbox = peer then hall.namesBut peer
        else (standing.user?.map (·.name)).toList ++ hall.namesBut peer) := by
  have hperm := ((members_place_perm h.keys hs hw standing).filter
    fun m => decide (m.1.outbox ≠ peer)).map (·.2.name)
  rw [List.filter_append, List.map_append] at hperm
  refine hperm.trans (List.Perm.of_eq ?_)
  by_cases he : seat.outbox = peer
  · rw [if_pos he]
    cases standing.user? with
    | none => rfl
    | some user => simp [he, namesBut, audience]
  · rw [if_neg he]
    cases standing.user? with
    | none => rfl
    | some user => simp [he, namesBut, audience]

/-- Who goes was among the others of everyone but itself. -/
theorem namesBut_remove (h : hall.Sound version) {seat : Seat Nat} (hs : seat ∈ hall.seats)
    {peer : Nat} (hne : seat.outbox ≠ peer) :
    (hall.namesBut peer).Perm
      ((seat.standing.user?.map (·.name)).toList ++ (hall.remove seat.key).namesBut peer) := by
  have hperm := ((members_remove_perm h hs).filter
    fun m => decide (m.1.outbox ≠ peer)).map (·.2.name)
  rw [List.filter_append, List.map_append] at hperm
  refine hperm.trans (List.Perm.of_eq ?_)
  cases seat.standing.user? with
  | none => rfl
  | some user => simp [hne, namesBut, audience]

theorem namesBut_nodup (h : hall.Sound version) (peer : Nat) : (hall.namesBut peer).Nodup :=
  h.names.sublist (List.filter_sublist.map _)

/-! ## What members have been told -/

/-- Whoever reads what a member was told knows all the others, and no one else. -/
structure Mirrored (hall : Hall Nat) (history : List News) : Prop where
  /-- Names come back from the wire as they were. -/
  fits : ∀ m ∈ hall.members, Text.Fits nameLimit m.2.name
  told : ∀ m ∈ hall.members, ∃ tail, heard m.1.outbox history = .connect m.2 true :: tail
    ∧ (∀ record ∈ tail, Client.Tells record)
    ∧ ((tail.map Record.normal).foldl Client.learn []).Perm (hall.namesBut m.1.outbox)

theorem mirrored_empty : Mirrored {} [] where
  fits := by intro m hm; simp [members, membersOf] at hm
  told := by intro m hm; simp [members, membersOf] at hm

theorem tells_overheard (peer : Nat) (history : List News) :
    ∀ record ∈ overheard peer history, Client.Tells record := by
  induction history with
  | nil => intro record hm; simp [overheard] at hm
  | cons news rest ih =>
      cases news with
      | refused n denial => exact ih
      | admitted n user present =>
          intro record hm
          rcases List.mem_cons.mp hm with rfl | hm
          · trivial
          · rcases List.mem_cons.mp hm with rfl | hm
            · trivial
            · exact ih record hm
      | said n speaker text =>
          intro record hm
          rw [overheard] at hm
          split at hm
          · exact ih record hm
          · rcases List.mem_cons.mp hm with rfl | hm
            · trivial
            · exact ih record hm
      | left n member =>
          intro record hm
          cases member with
          | none =>
              rw [overheard] at hm
              split at hm
              · simp at hm
              · exact ih record hm
          | some user =>
              rw [overheard] at hm
              split at hm
              · simp at hm
              · rcases List.mem_cons.mp hm with rfl | hm
                · trivial
                · exact ih record hm
      | emptied => intro record hm; simp [overheard] at hm

theorem normal_of_fits {user : Identity} (h : Text.Fits nameLimit user.name) :
    user.normal = user := by
  rw [Identity.normal, Text.fielded_of_fits h]

theorem normal_leaving {name : String} (h : Text.Fits nameLimit name) :
    (Record.leaving name).normal = .disconnect name := by
  rw [Record.leaving, Text.clamp_of_length_le h.2, Record.normal, Text.fielded_of_fits h]

/-- A newcomer that is told of members with different names learns just those names. -/
theorem learn_present {users : List Identity}
    (hfits : ∀ user ∈ users, Text.Fits nameLimit user.name)
    {known : List String} (hnd : (known ++ users.map (·.name)).Nodup) :
    ((users.map (Record.connect · false)).map Record.normal).foldl Client.learn known
      = known ++ users.map (·.name) := by
  induction users generalizing known with
  | nil => simp
  | cons user rest ih =>
      have hnormal := normal_of_fits (hfits user List.mem_cons_self)
      rw [List.map_cons, List.append_cons] at hnd
      have hnew : user.name ∉ known := by
        intro hm
        rw [List.append_assoc, List.nodup_append] at hnd
        exact hnd.2.2 user.name hm user.name (by simp) rfl
      rw [List.map_cons, List.map_cons, List.foldl_cons, Record.normal, hnormal, Client.learn,
        if_neg hnew, ih (fun u hm => hfits u (List.mem_cons_of_mem _ hm)) hnd, List.map_cons,
        List.append_assoc]
      rfl

/-- What one more piece of news is to a member that there was before it. -/
theorem told_append (hr : hall.Recorded history) (hm : hall.Mirrored history)
    {m : Seat Nat × Identity} (hmem : m ∈ hall.members) {hall' : Hall Nat} {news : News}
    (hlearn : ∀ known : List String, known.Perm (hall.namesBut m.1.outbox) →
      (((overheard m.1.outbox [news]).map Record.normal).foldl Client.learn known).Perm
        (hall'.namesBut m.1.outbox)) :
    ∃ tail, heard m.1.outbox (history ++ [news]) = .connect m.2 true :: tail
      ∧ (∀ record ∈ tail, Client.Tells record)
      ∧ ((tail.map Record.normal).foldl Client.learn []).Perm (hall'.namesBut m.1.outbox) := by
  -- it was a member before this news, so it reads of it what members read
  obtain ⟨tail, hheard, htells, hperm⟩ := hm.told m hmem
  have hphase : phase m.1.outbox history = .member :=
    (hr.member m.1.outbox).mpr (has_iff.mpr ⟨m, hmem, rfl⟩)
  refine ⟨tail ++ overheard m.1.outbox [news], ?_, ?_, ?_⟩
  · rw [heard_append, hphase, hheard]
    rfl
  · intro record hrecord
    rcases List.mem_append.mp hrecord with hold | hnew
    · exact htells record hold
    · exact tells_overheard _ _ record hnew
  · rw [List.map_append, List.foldl_append]
    exact hlearn _ hperm

/-- A waiting seat is no member's. -/
theorem outbox_ne_of_waiting (h : hall.Sound version) {seat : Seat Nat} (hs : seat ∈ hall.seats)
    (hw : seat.standing = .waiting) {m : Seat Nat × Identity} (hmem : m ∈ hall.members) :
    seat.outbox ≠ m.1.outbox := by
  intro he
  obtain ⟨hms, hst⟩ := mem_membersOf.mp hmem
  have hsame := outbox_inj h hs hms he
  rw [hsame, hst] at hw
  exact absurd hw (by simp)

/-- What a member learns of one that comes. -/
theorem learn_arrival {user : Identity} (hfits : Text.Fits nameLimit user.name) {peer n : Nat}
    {present : List Identity} {known : List String} (hnew : user.name ∉ known) :
    ((overheard peer [.admitted n user present]).map Record.normal).foldl Client.learn known
      = known ++ [user.name] := by
  have hnormal := normal_of_fits hfits
  show Client.learn (Client.learn known (arrival user.name).normal) (.connect user.normal false) = _
  rw [hnormal]
  show (if user.name ∈ known then known else known ++ [user.name]) = _
  rw [if_neg hnew]

/-- The seat of a newcomer, and what it was told when it was let in. -/
theorem told_newcomer (h : hall.Sound version) (hr : hall.Recorded history)
    (hm : hall.Mirrored history) {seat : Seat Nat} (hs : seat ∈ hall.seats)
    (hw : seat.standing = .waiting) (user : Identity) :
    ∃ tail, heard seat.outbox (history ++ [.admitted seat.outbox user (hall.members.map (·.2))])
        = .connect user true :: tail
      ∧ (∀ record ∈ tail, Client.Tells record)
      ∧ ((tail.map Record.normal).foldl Client.learn []).Perm
          ((hall.place seat.key (.member user)).namesBut seat.outbox) := by
  have hphase := hr.waiting seat hs hw
  refine ⟨(hall.members.map (·.2)).map (.connect · false), ?_, ?_, ?_⟩
  · rw [heard_append, hphase, heard_of_outside hphase]
    simp [heard, overheard]
  · intro record hrecord
    obtain ⟨known, -, rfl⟩ := List.mem_map.mp hrecord
    trivial
  · have hnames : (hall.members.map (·.2)).map (·.name) = hall.members.map (·.2.name) :=
      List.map_map
    have hall' : hall.namesBut seat.outbox = hall.members.map (·.2.name) := by
      rw [namesBut, audience, List.filter_eq_self.mpr]
      intro m hmem
      exact decide_eq_true fun he => outbox_ne_of_waiting h hs hw hmem he.symm
    have hperm := namesBut_place h hs hw (.member user) seat.outbox
    rw [if_pos rfl, hall'] at hperm
    rw [learn_present, List.nil_append, hnames]
    · exact hperm.symm
    · intro known hknown
      obtain ⟨m, hmem, rfl⟩ := List.mem_map.mp hknown
      exact hm.fits m hmem
    · rw [List.nil_append, hnames]
      exact h.names

theorem mirrored_refuse (h : hall.Sound version) (hr : hall.Recorded history)
    (hm : hall.Mirrored history) {seat : Seat Nat} (hs : seat ∈ hall.seats)
    (hw : seat.standing = .waiting) (user : Identity) (denial : Denial) :
    (hall.place seat.key (.refused user)).Mirrored
      (history ++ [.refused seat.outbox denial]) := by
  have hmem : ∀ m, m ∈ (hall.place seat.key (.refused user)).members → m ∈ hall.members :=
    fun m hmem => (members_place_perm h.keys hs hw (.refused user)).mem_iff.mp hmem
  refine ⟨fun m hmem' => hm.fits m (hmem m hmem'), ?_⟩
  intro m hmem'
  refine told_append hr hm (hmem m hmem') ?_
  intro known hknown
  have hperm := namesBut_place h hs hw (.refused user) m.1.outbox
  rw [if_neg (outbox_ne_of_waiting h hs hw (hmem m hmem'))] at hperm
  exact hknown.trans hperm.symm

theorem mirrored_welcome (h : hall.Sound version) (hr : hall.Recorded history)
    (hm : hall.Mirrored history) {seat : Seat Nat} (hs : seat ∈ hall.seats)
    (hw : seat.standing = .waiting) {user : Identity}
    (hd : hall.denial? version user = none) (hfits : Text.Fits nameLimit user.name) :
    (hall.place seat.key (.member user)).Mirrored
      (history ++ [.admitted seat.outbox user (hall.members.map (·.2))]) := by
  have hmem : ∀ m, m ∈ (hall.place seat.key (.member user)).members →
      m = ({ seat with standing := .member user }, user) ∨ m ∈ hall.members := by
    intro m hmem
    exact List.mem_cons.mp ((members_place_perm h.keys hs hw (.member user)).mem_iff.mp hmem)
  refine ⟨?_, ?_⟩
  · intro m hmem'
    rcases hmem m hmem' with rfl | hold
    · exact hfits
    · exact hm.fits m hold
  · intro m hmem'
    rcases hmem m hmem' with rfl | hold
    · exact told_newcomer h hr hm hs hw user
    · refine told_append hr hm hold ?_
      intro known hknown
      have hperm := namesBut_place h hs hw (.member user) m.1.outbox
      rw [if_neg (outbox_ne_of_waiting h hs hw hold)] at hperm
      -- the name was free, so the member does not know it
      have hnew : user.name ∉ known := by
        intro hk
        have hname := hknown.mem_iff.mp hk
        obtain ⟨m', hm', he⟩ := List.mem_map.mp hname
        exact (denial?_eq_none hd).2.2
          (List.mem_map.mpr ⟨m', (List.mem_filter.mp hm').1, he⟩)
      rw [learn_arrival hfits hnew]
      exact (List.perm_append_singleton user.name known).trans
        ((hknown.cons user.name).trans hperm.symm)

theorem mirrored_say (hr : hall.Recorded history) (hm : hall.Mirrored history) (n : Nat)
    (speaker : Identity) (text : String) :
    hall.Mirrored (history ++ [.said n speaker text]) := by
  refine ⟨hm.fits, ?_⟩
  intro m hmem
  refine told_append hr hm hmem ?_
  intro known hknown
  rw [overheard]
  by_cases he : n = m.1.outbox
  · rw [if_pos he]
    exact hknown
  · -- what is shown to a user tells the client nothing
    rw [if_neg he]
    exact hknown

theorem mirrored_leave (h : hall.Sound version) (hr : hall.Recorded history)
    (hm : hall.Mirrored history) {seat : Seat Nat} (hs : seat ∈ hall.seats) :
    (hall.remove seat.key).Mirrored (history ++ [.left seat.outbox seat.standing.user?]) := by
  have hmem : ∀ m, m ∈ (hall.remove seat.key).members → m ∈ hall.members ∧ seat.outbox ≠ m.1.outbox
      := by
    intro m hmem
    obtain ⟨hms, hst⟩ := mem_membersOf.mp hmem
    obtain ⟨hold, hne⟩ := (mem_seats_remove h hs).mp hms
    exact ⟨mem_membersOf.mpr ⟨hold, hst⟩, fun he => hne he.symm⟩
  refine ⟨fun m hmem' => hm.fits m (hmem m hmem').1, ?_⟩
  intro m hmem'
  obtain ⟨hold, hne⟩ := hmem m hmem'
  refine told_append hr hm hold ?_
  intro known hknown
  have hperm := hknown.trans (namesBut_remove h hs hne)
  cases hu : seat.standing.user? with
  | none =>
      rw [hu] at hperm
      rw [overheard, if_neg hne]
      exact hperm
  | some user =>
      rw [hu] at hperm
      have hst := Standing.user?_eq_some_iff.mp hu
      have hfits := hm.fits (seat, user) (mem_membersOf.mpr ⟨hs, hst⟩)
      -- who goes may stand anywhere in the list, so the lists agree up to order only
      have herase := hperm.erase user.name
      rw [overheard, if_neg hne]
      show (Client.learn known (Record.leaving user.name).normal).Perm _
      rw [normal_leaving hfits]
      simpa [Client.learn] using herase

/-- **Whatever happens, each member goes on knowing all the others.** -/
theorem mirrored_move (h : hall.Sound version) (hr : hall.Recorded history)
    (hm : hall.Mirrored history) {outcome : Hall Nat × Option News}
    (hmove : Move version hall outcome)
    (hfits : ∀ n user present, outcome.2 = some (.admitted n user present) →
      Text.Fits nameLimit user.name) :
    outcome.1.Mirrored (history ++ outcome.2.toList) := by
  cases hmove with
  | stay =>
      rw [Option.toList_none, List.append_nil]
      exact hm
  | refuse hs hw user denial => exact mirrored_refuse h hr hm hs hw user denial
  | welcome hs hw hd => exact mirrored_welcome h hr hm hs hw hd (hfits _ _ _ rfl)
  | say hmem text => exact mirrored_say hr hm _ _ text
  | leave hs => exact mirrored_leave h hr hm hs
  | empty =>
      refine ⟨?_, ?_⟩
      · intro m hmem
        simp [members, membersOf] at hmem
      · intro m hmem
        simp [members, membersOf] at hmem

theorem mirrored_step (h : hall.Sound version) (hr : hall.Recorded history)
    (hm : hall.Mirrored history) (fresh : Nat) {request : Request Nat}
    (hfits : ∀ origin user, request = .dispatch origin (.userInfo user) →
      Text.Fits nameLimit user.name) :
    (hall.step version fresh request).1.Mirrored
      (history ++ (hall.step version fresh request).2.toList) := by
  rcases request.register_or with ⟨address, rfl⟩ | hq
  · show Mirrored _ (history ++ [])
    have hmembers := members_register version fresh hall address
    have hnames : ∀ peer, (hall.step version fresh (.register address)).1.namesBut peer
        = hall.namesBut peer := by
      intro peer
      rw [namesBut, audience, hmembers]
      rfl
    rw [List.append_nil]
    refine ⟨?_, ?_⟩
    · rw [hmembers]
      exact hm.fits
    · intro m hmem
      rw [hmembers] at hmem
      rw [hnames]
      exact hm.told m hmem
  · refine mirrored_move h hr hm (move_step version fresh hall hq) ?_
    intro n user present hnews
    obtain ⟨origin, ho⟩ := presented_of_admitted hnews
    exact hfits origin user ho

end Hall

/-! ## Runs -/

theorem mirrored_run (version : Version) (requests : List (Request Nat))
    (hroom : (Lobby.run version requests).server.removals < UInt64.size)
    (hnames : ∀ peer user, Request.dispatch peer (.userInfo user) ∈ requests →
      Text.Fits nameLimit user.name) :
    (Hall.run version requests).1.Mirrored (Hall.run version requests).2 := by
  induction requests using List.reverseRecOn with
  | nil => exact Hall.mirrored_empty
  | append_singleton requests request ih =>
      have hgrow := Lobby.removals_run_append version requests request
      have hbefore : (Lobby.run version requests).server.removals < UInt64.size := by omega
      have hm := ih hbefore fun peer user hmem => hnames peer user (List.mem_append_left _ hmem)
      have hsound := (Lobby.matches_run version requests hbefore).sound
      rw [Lobby.version_run] at hsound
      have hr := (tells_run version requests hbefore).1
      rw [Hall.run_append]
      refine Hall.mirrored_step hsound hr hm _ ?_
      intro origin user he
      subst he
      exact hnames origin user (List.mem_append_right _ (List.mem_singleton.mpr rfl))

/-- The member's seat behind a validated connection of a peer. -/
theorem member_of_peer {lobby : Lobby} {hall : Hall Nat} (h : lobby.Matches hall) {peer : Nat}
    (hlive : (lobby.server.mail.box peer).receiving = true) {c : Connection}
    (hc : lobby.server.connection? (lobby.handle peer) = some c) (hv : c.stage = .validated) :
    ∃ seat user, (seat, user) ∈ hall.members ∧ seat.key = peer ∧ seat.outbox = peer
      ∧ c.user = some user := by
  have hcome : peer < lobby.handles.length :=
    Lobby.length_boxes h ▸ Mail.lt_of_receiving hlive
  obtain ⟨renamed, hm, hk, rfl⟩ := Server.seat_of_connection h.seated hc
  obtain ⟨seat, hs, rfl⟩ := List.mem_map.mp hm
  obtain ⟨user, hst, -⟩ := Server.member_of_validated hv
  have hkey := Lobby.told h hcome seat hs hk
  refine ⟨seat, user, Hall.mem_membersOf.mpr ⟨hs, hst⟩, hkey, ?_, ?_⟩
  · rw [← h.keys seat hs, hkey]
  · rw [Seat.connection, hst]

/-- The names that the server has for the others are the hall's. -/
theorem names_of_others {lobby : Lobby} {hall : Hall Nat} (h : lobby.Matches hall)
    {seat : Seat Nat} (hs : seat ∈ hall.seats) :
    (lobby.server.roster.members (some (lobby.handle seat.key))).filterMap (fun m => m.2.name?)
      = hall.namesBut seat.outbox := by
  have hrenamed : seat.rename lobby.handle ∈ (hall.rename lobby.handle).seats :=
    List.mem_map.mpr ⟨seat, hs, rfl⟩
  have hothers := others_of_mem h.seated.sound hrenamed
  rw [names_of_holds h.seated.roster]
  show ((hall.rename lobby.handle).others (some (seat.rename lobby.handle).key)).map _ = _
  rw [hothers, Hall.audience, Hall.members_rename, List.filter_map, List.map_map]
  rfl

/-- **A client that reads all that was queued for it has the server's list of members**: itself
first, and then all the others, in some order. -/
theorem client_converges (version : Version) (requests : List (Request Nat))
    (hroom : (Lobby.run version requests).server.removals < UInt64.size)
    (hnames : ∀ peer user, Request.dispatch peer (.userInfo user) ∈ requests →
      Text.Fits nameLimit user.name)
    (peer : Nat) (hlive : ((Lobby.run version requests).server.mail.box peer).receiving = true)
    {c : Connection}
    (hc : (Lobby.run version requests).server.connection? ((Lobby.run version requests).handle peer)
      = some c)
    (hv : c.stage = .validated) (address : Option SocketAddress) :
    (∀ answer ∈ ((Client.start address).feed
        ((Lobby.run version requests).server.mail.box peer).records).1, answer = .ok (.ok .proceed))
      ∧ ((Client.start address).feed
        ((Lobby.run version requests).server.mail.box peer).records).2.status = .ready
      ∧ ∃ user known, c.user = some user
        ∧ ((Client.start address).feed
            ((Lobby.run version requests).server.mail.box peer).records).2.memberNames
          = user.name :: known
        ∧ known.Perm (((Lobby.run version requests).server.roster.members
            (some ((Lobby.run version requests).handle peer))).filterMap fun m => m.2.name?)
        ∧ known.Nodup := by
  have h := Lobby.matches_run version requests hroom
  have hm := mirrored_run version requests hroom hnames
  obtain ⟨seat, user, hmem, hkey, houtbox, huser⟩ := member_of_peer h hlive hc hv
  obtain ⟨tail, hheard, htells, hperm⟩ := hm.told (seat, user) hmem
  have hrecords := (tells_run version requests hroom).2 peer hlive
  have hothers := names_of_others h (Hall.mem_membersOf.mp hmem).1
  simp only [houtbox] at hheard hperm hothers
  rw [hkey] at hothers
  rw [hrecords, hheard, hothers]
  obtain ⟨hanswers, hknows, hstatus⟩ := Client.knows_admitted address user htells
  rw [Hall.normal_of_fits (hm.fits (seat, user) hmem)] at hknows
  have hnodup := Hall.namesBut_nodup h.sound peer
  exact ⟨hanswers, hstatus, user, _, huser, Client.memberNames_of_knows hknows, hperm,
    hperm.nodup_iff.mpr hnodup⟩

/-- A member leaves, and another peer takes its slot and its name. -/
def succession : List (Request Nat) :=
  [.register none, .register none, .dispatch 0 (.userInfo ⟨"ann", .current⟩),
    .dispatch 1 (.userInfo ⟨"bob", .current⟩), .close 1, .register none,
    .dispatch 2 (.userInfo ⟨"bob", .current⟩)]

/-- Whoever was there all along knows of the second by the first one's name. -/
theorem succession_converges :
    ((Client.start none).feed
        ((Lobby.run .current succession).server.mail.box 0).records).2.memberNames
      = ["ann", "bob"] := by
  have hnames : ∀ peer user, Request.dispatch peer (.userInfo user) ∈ succession →
      Text.Fits nameLimit user.name := by
    intro peer user hm
    simp only [succession, List.mem_cons, List.not_mem_nil, or_false, reduceCtorEq, false_or,
      Request.dispatch.injEq, Record.userInfo.injEq] at hm
    rcases hm with ⟨-, rfl⟩ | ⟨-, rfl⟩ | ⟨-, rfl⟩
    · decide +kernel
    · decide +kernel
    · decide +kernel
  obtain ⟨-, -, user, known, huser, hmembers, hperm, -⟩ := client_converges .current succession
    (by decide +kernel) hnames 0 (by decide +kernel)
    (c := ⟨.validated, some ⟨"ann", .current⟩, false, none, some 0⟩) (by decide +kernel) rfl none
  have hothers : ((Lobby.run .current succession).server.roster.members
      (some ((Lobby.run .current succession).handle 0))).filterMap (fun m => m.2.name?)
        = ["bob"] := by
    decide +kernel
  rw [hothers] at hperm
  obtain rfl := Option.some.inj huser
  rw [hmembers, List.perm_singleton.mp hperm]

end ChatRoom
