import Mathlib.Data.List.Find
import Mathlib.Data.List.Nodup
import ChatRoom.Proofs.HandleReuse
import ChatRoom.Proofs.Hall

/-!
# The server keeps a hall

The server's roster is an arena of connections, each with a stage, a user and a mark. This module
shows that it is always the row of seats of a hall, and that every request does to the server what
the hall's one rule for it says: to the roster, and to the mail.

Each part of the server has one lemma that says what it does to a room whose roster is given as a
list. The only intermediate state that is no row of seats is the one inside a handshake, between
presenting and the verdict; it never outlives the request.
-/

namespace ChatRoom

open Arena

/-- What a request is answered. -/
inductive Reply where
  | registered (handle : Handle)
  | answered (answer : Except Refusal Verdict)
  | kicked (found : Bool)
  | disconnected (count : Nat)
  | done

/-- The server's answer to a request, and its state after it. -/
def Server.step (s : Server) : Request Handle → Reply × Server
  | .register address =>
    let (handle, s) := s.register address
    (.registered handle, s)
  | .dispatch origin record =>
    let (answer, s) := Server.handler.dispatch origin record s
    (.answered answer, s)
  | .close origin => (.done, Server.handler.onClosed origin s)
  | .kick name =>
    let (found, s) := s.kick name
    (.kicked found, s)
  | .disconnectAll =>
    let (count, s) := s.disconnectAll
    (.disconnected count, s)
  | .deafen n => (.done, { s with mail := s.mail.refuse n })

/-- The connection of a seat: stage, user and mark say one and the same. -/
def Seat.connection {ι : Type} (seat : Seat ι) : Connection :=
  match seat.standing with
  | .waiting => ⟨.connected, none, false, seat.address, some seat.outbox⟩
  | .refused user => ⟨.pendingValidation, some user, true, seat.address, some seat.outbox⟩
  | .member user => ⟨.validated, some user, false, seat.address, some seat.outbox⟩

def Seat.entry (seat : Seat Handle) : Handle × Connection := (seat.key, seat.connection)

/-- The row of seats as a roster lists it. -/
def Hall.entries (hall : Hall Handle) : List (Handle × Connection) := hall.seats.map Seat.entry

/-- The server's roster is the hall's row of seats, and every connection that there has been has its
outbox. -/
structure Seated (s : Server) (hall : Hall Handle) : Prop where
  roster : s.roster.Holds hall.entries
  outboxes : s.mail.boxes.length = hall.arrived
  sound : hall.Sound s.version

/-- Only roster, version and number of outboxes of a server matter for the hall that it keeps. -/
theorem Seated.congr {s s' : Server} {hall : Hall Handle} (h : Seated s hall)
    (hroster : s'.roster = s.roster) (hversion : s'.version = s.version)
    (hboxes : s'.mail.boxes.length = s.mail.boxes.length) : Seated s' hall where
  roster := by
    rw [hroster]
    exact h.roster
  outboxes := hboxes.trans h.outboxes
  sound := by
    rw [hversion]
    exact h.sound

/-! ## Reading the roster -/

@[simp] theorem Seat.letters_connection {ι : Type} (seat : Seat ι) (record : Record) :
    seat.connection.letters record = [(seat.outbox, record)] := by
  unfold Seat.connection
  cases seat.standing <;> rfl

theorem Seat.isValidated_connection {ι : Type} (seat : Seat ι) :
    seat.connection.isValidated = seat.standing.user?.isSome := by
  unfold Seat.connection
  cases seat.standing <;> rfl

theorem Hall.entries_keys (hall : Hall Handle) :
    hall.entries.map (·.1) = hall.seats.map (·.key) := by
  simp [Hall.entries, Seat.entry]

/-- No other seat has its key. -/
theorem Hall.find?_of_mem {ι : Type} [DecidableEq ι] {version : Version} {hall : Hall ι}
    (hs : hall.Sound version) {seat : Seat ι} (hm : seat ∈ hall.seats) :
    hall.find? seat.key = some seat := by
  cases hf : hall.find? seat.key with
  | none =>
      have := List.find?_eq_none.mp hf seat hm
      simp at this
  | some found =>
      obtain ⟨hfound, hk⟩ := find?_eq_some hf
      rw [List.inj_on_of_nodup_map hs.keys hfound hm hk]

/-- A handle finds the connection of the seat with that key. -/
theorem get?_of_holds {r : Roster} {hall : Hall Handle} (hr : r.Holds hall.entries)
    (h : Handle) : r.get? h = (hall.find? h).map (·.connection) := by
  cases hf : hall.find? h with
  | some seat =>
      obtain ⟨hs, rfl⟩ := Hall.find?_eq_some hf
      exact (get?_eq_some_iff hr).mpr (List.mem_map.mpr ⟨seat, hs, rfl⟩)
  | none =>
      refine (get?_eq_none_iff hr).mpr ?_
      rw [Hall.entries_keys]
      intro hm
      obtain ⟨seat, hs, rfl⟩ := List.mem_map.mp hm
      have := List.find?_eq_none.mp hf seat hs
      simp at this

theorem members_of_entries (except : Option Handle) (seats : List (Seat Handle)) :
    (seats.map Seat.entry).filter (fun c => some c.1 != except && c.2.isValidated) =
      ((Hall.membersOf seats).filter fun m => decide (some m.1.key ≠ except)).map (·.1.entry) := by
  induction seats with
  | nil => rfl
  | cons seat rest ih =>
      rw [List.map_cons, List.filter_cons, Hall.membersOf_cons, List.filter_append, List.map_append,
        ← ih]
      have hval : seat.entry.2.isValidated = seat.standing.user?.isSome :=
        seat.isValidated_connection
      rw [hval]
      cases hu : seat.standing.user? with
      | none => simp
      | some user =>
          by_cases hk : some seat.key = except
          · simp [Seat.entry, hk]
          · simp [Seat.entry, hk]

/-- The roster's members are the hall's. -/
theorem members_of_holds {r : Roster} {hall : Hall Handle} (hr : r.Holds hall.entries)
    (except : Option Handle) :
    r.members except = (hall.others except).map (·.1.entry) := by
  rw [Roster.members, toList_of_holds hr]
  exact members_of_entries except hall.seats

theorem name?_of_member {hall : Hall Handle} {m : Seat Handle × Identity} (hm : m ∈ hall.members) :
    m.1.entry.2.name? = some m.2.name := by
  have hst := (Hall.mem_membersOf.mp hm).2
  simp [Seat.entry, Seat.connection, hst, Connection.name?]

/-- The names of the roster's members are the hall's. -/
theorem names_of_holds {r : Roster} {hall : Hall Handle} (hr : r.Holds hall.entries)
    (except : Option Handle) :
    (r.members except).filterMap (fun c => c.2.name?) = (hall.others except).map (·.2.name) := by
  have hnames : ∀ m ∈ hall.others except, m.1.entry.2.name? = some m.2.name := fun m hm =>
    name?_of_member (List.mem_filter.mp hm).1
  rw [members_of_holds hr, List.filterMap_map]
  exact (List.filterMap_congr hnames).trans
    (congrFun (List.filterMap_eq_map (f := fun m : Seat Handle × Identity => m.2.name)) _)

/-- A search finds the same member. -/
theorem findMember_of_holds {r : Roster} {hall : Hall Handle} (hr : r.Holds hall.entries)
    (name : String) (except : Option Handle) :
    r.findMember name except = (hall.named? name except).map (·.key) := by
  have hname : ∀ m ∈ hall.others except,
      (m.1.entry.2.name? == some name) = decide (m.2.name = name) := by
    intro m hm
    rw [name?_of_member (List.mem_filter.mp hm).1, Bool.eq_iff_iff]
    simp
  rw [Roster.findMember, members_of_holds hr, Hall.named?, List.find?_map, Option.map_map,
    Option.map_map]
  exact congrArg (Option.map fun m => m.1.key) (List.find?_congr hname)

/-! ## Posting to members -/

theorem letters_of_holds {r : Roster} {hall : Hall Handle} (hr : r.Holds hall.entries)
    (except : Option Handle) (record : Record) :
    (r.members except).flatMap (fun c => c.2.letters record) =
      (hall.others except).map fun m => (m.1.outbox, record) := by
  rw [members_of_holds hr]
  generalize hall.others except = ms
  induction ms with
  | nil => rfl
  | cons m rest ih =>
      rw [List.map_cons, List.flatMap_cons, ih, List.map_cons]
      simp [Seat.entry]

theorem others_none {ι : Type} [DecidableEq ι] (hall : Hall ι) :
    hall.others none = hall.members := by
  simp [Hall.others]

/-- Leaving out a key is leaving out the outbox of its seat. -/
theorem others_of_mem {ι : Type} [DecidableEq ι] {version : Version} {hall : Hall ι}
    (hs : hall.Sound version) {seat : Seat ι} (hm : seat ∈ hall.seats) :
    hall.others (some seat.key) = hall.audience seat.outbox := by
  refine List.filter_congr fun m hmem => ?_
  have hms := (Hall.mem_membersOf.mp hmem).1
  have hinj : m.1.key = seat.key ↔ m.1.outbox = seat.outbox := by
    constructor
    · intro hk
      rw [List.inj_on_of_nodup_map hs.keys hms hm hk]
    · intro ho
      rw [List.inj_on_of_nodup_map hs.outboxes hms hm ho]
  simp [hinj]

/-! ## Taking a connection down -/

theorem members_remove {ι : Type} [DecidableEq ι] (hall : Hall ι) (key : ι) :
    (hall.remove key).members = hall.others (some key) := by
  unfold Hall.members Hall.others Hall.remove Hall.members
  dsimp only
  induction hall.seats with
  | nil => rfl
  | cons seat rest ih =>
      rw [List.filter_cons, Hall.membersOf_cons, List.filter_append, ← ih]
      by_cases hk : seat.key = key
      · cases seat.standing.user? <;> simp [hk]
      · cases hu : seat.standing.user? <;> simp [hk, hu, Hall.membersOf_cons]

theorem entries_remove (hall : Hall Handle) (key : Handle) :
    without key hall.entries = (hall.remove key).entries := by
  show List.filter _ (List.map Seat.entry hall.seats)
    = List.map Seat.entry (List.filter _ hall.seats)
  rw [List.filter_map]
  rfl

theorem connection_departure {ι : Type} (seat : Seat ι) :
    seat.connection.departure.user = (match seat.standing with
      | .waiting => none
      | .refused user | .member user => some user)
    ∧ seat.connection.departure.wasValidated = seat.standing.user?.isSome := by
  unfold Seat.connection
  cases seat.standing <;> exact ⟨rfl, rfl⟩

theorem Seat.outbox_connection {ι : Type} (seat : Seat ι) :
    seat.connection.outbox = some seat.outbox := by
  unfold Seat.connection
  cases seat.standing <;> rfl

/-- Disconnecting takes a seat's connection out and ends its outbox. -/
theorem disconnect_of_unlink {r r' : Roster} {seat : Seat Handle}
    (hu : r.unlink seat.key = some (seat.connection, r')) (mail : Mail) :
    r.disconnect mail seat.key
      = some (seat.connection.departure, r', mail.endAll [seat.outbox]) := by
  rw [Roster.disconnect, hu, Option.map_some]
  show some (_, _, (seat.connection.close mail).2) = _
  rw [Connection.snd_close, seat.outbox_connection]
  rfl

/-- **Taking a seat's connection down takes the seat away and tells those that are left.** -/
theorem teardown_of_mem (room : Room) {version : Version} {hall : Hall Handle}
    (hr : room.roster.Holds hall.entries) (hs : hall.Sound version) {seat : Seat Handle}
    (hm : seat ∈ hall.seats) :
    (room.teardown seat.key).roster.Holds (hall.remove seat.key).entries
      ∧ (room.teardown seat.key).mail = (room.mail.endAll [seat.outbox]).postAll
          (hall.letters (.left seat.outbox seat.standing.user?)) := by
  obtain ⟨r, hu, hr'⟩ := unlink_of_mem hr (List.mem_map.mpr ⟨seat, hm, rfl⟩)
  rw [entries_remove] at hr'
  obtain ⟨hduser, hdval⟩ := connection_departure seat
  unfold Room.teardown
  rw [disconnect_of_unlink hu]
  dsimp only
  -- only a member's departure is told to the others
  cases hst : seat.standing with
  | member user =>
      rw [hst] at hduser hdval
      rw [hduser, hdval]
      refine ⟨hr', ?_⟩
      show (Roster.broadcast r (room.mail.endAll [seat.outbox]) none (.leaving user.name)).2 = _
      rw [Roster.snd_broadcast, letters_of_holds hr', others_none, members_remove,
        others_of_mem hs hm]
      rfl
  | waiting =>
      rw [hst] at hduser hdval
      rw [hduser, hdval]
      exact ⟨hr', rfl⟩
  | refused user =>
      rw [hst] at hduser hdval
      rw [hduser, hdval]
      exact ⟨hr', rfl⟩

/-- Without a seat there is nothing to take down. -/
theorem teardown_of_none {room : Room} {hall : Hall Handle}
    (hr : room.roster.Holds hall.entries) {h : Handle} (hf : hall.find? h = none) :
    room.teardown h = room := by
  have hm : h ∉ hall.entries.map (·.1) := by
    rw [← get?_eq_none_iff hr, get?_of_holds hr, hf]
    rfl
  rw [Room.teardown, Roster.disconnect, unlink_of_not_mem hr hm]
  rfl

/-! ## Changing a connection -/

/-- A change that turns one seat's connection into that of another standing. -/
theorem change_entries {hall : Hall Handle} {key : Handle} (standing : Standing)
    {f : Connection → Connection}
    (hf : ∀ seat ∈ hall.seats, seat.key = key →
      f seat.connection = ({ seat with standing } : Seat Handle).connection) :
    change key f hall.entries = (hall.place key standing).entries := by
  simp only [change, Hall.entries, Hall.place, List.map_map]
  refine List.map_congr_left fun seat hs => ?_
  by_cases hk : seat.key = key
  · simp [Seat.entry, hk, hf seat hs hk]
  · simp [Seat.entry, hk]

theorem change_change {α : Type} (h : Handle) (f g : α → α) (items : List (Handle × α)) :
    change h g (change h f items) = change h (g ∘ f) items := by
  simp only [change, List.map_map]
  refine List.map_congr_left fun item _ => ?_
  by_cases hk : item.1 = h
  · simp [hk]
  · simp [hk]

theorem members_of_change (h : Handle) (f : Connection → Connection)
    (items : List (Handle × Connection)) :
    (change h f items).filter (fun c => some c.1 != some h && c.2.isValidated) =
      items.filter fun c => some c.1 != some h && c.2.isValidated := by
  induction items with
  | nil => rfl
  | cons item rest ih =>
      rw [change, List.map_cons, List.filter_cons, List.filter_cons, ← change, ih]
      by_cases hk : item.1 = h
      · simp [hk]
      · simp [hk]

/-- Who is a member, one connection apart, does not depend on that connection. -/
theorem members_modify {r : Roster} {items : List (Handle × Connection)} (hr : r.Holds items)
    (h : Handle) (f : Connection → Connection) :
    Roster.members (r.modify h f) (some h) = r.members (some h) := by
  rw [Roster.members, Roster.members, toList_of_holds (holds_modify hr h f), toList_of_holds hr]
  exact members_of_change h f items

/-! ## The handshake -/

theorem others_of_waiting {ι : Type} [DecidableEq ι] {version : Version} {hall : Hall ι}
    (hs : hall.Sound version) {seat : Seat ι} (hm : seat ∈ hall.seats)
    (hw : seat.standing = .waiting) : hall.others (some seat.key) = hall.members := by
  refine List.filter_eq_self.mpr fun m hmem => ?_
  obtain ⟨hms, hst⟩ := Hall.mem_membersOf.mp hmem
  refine decide_eq_true fun hk => ?_
  have : m.1 = seat := List.inj_on_of_nodup_map hs.keys hms hm (Option.some.inj hk)
  rw [this, hw] at hst
  simp at hst

theorem named?_isSome {ι : Type} [DecidableEq ι] (hall : Hall ι) (name : String)
    (except : Option ι) :
    (hall.named? name except).isSome ↔ name ∈ (hall.others except).map (·.2.name) := by
  rw [Hall.named?, Option.isSome_map, List.find?_isSome, List.mem_map]
  simp

/-- **The server's checks are the hall's.** The name is looked up while the one who asks for it is
pending already, and is not found under its own seat. -/
theorem denial?_of_holds {s : Server} {r : Roster} {hall : Hall Handle}
    (hr : r.Holds hall.entries) (hs : hall.Sound s.version) {seat : Seat Handle}
    (hm : seat ∈ hall.seats) (hw : seat.standing = .waiting) (user : Identity)
    {f : Connection → Connection} (hroster : s.roster = r.modify seat.key f) :
    s.denial? seat.key user = hall.denial? s.version user := by
  -- the roster that is searched is not the hall's, but differs only where the search does not look
  have hfind : s.roster.findMember user.name (some seat.key)
      = (hall.named? user.name (some seat.key)).map (·.key) := by
    rw [hroster, Roster.findMember, members_modify hr, ← Roster.findMember, findMember_of_holds hr]
  have htaken : (s.roster.findMember user.name (some seat.key)).isSome = true
      ↔ user.name ∈ hall.members.map (·.2.name) := by
    rw [hfind, Option.isSome_map, named?_isSome, others_of_waiting hs hm hw]
  unfold Server.denial? Hall.denial?
  simp only [htaken]

theorem snd_send_of_get {room : Room} {h : Handle} {c : Connection}
    (hc : room.connection? h = some c) (record : Record) :
    (room.send h record).2 = { room with mail := room.mail.postAll (c.letters record) } := by
  unfold Room.send
  rw [hc]
  dsimp only
  rw [← Connection.snd_send]

/-- A seat's connection after it has presented itself, and before the verdict. -/
theorem get?_present {r : Roster} {hall : Hall Handle} (hr : r.Holds hall.entries)
    {seat : Seat Handle} (hm : seat ∈ hall.seats) (f : Connection → Connection) :
    Arena.get? (r.modify seat.key f) seat.key = some (f seat.connection) := by
  refine (get?_eq_some_iff (holds_modify hr seat.key f)).mpr ?_
  refine List.mem_map.mpr ⟨seat.entry, List.mem_map.mpr ⟨seat, hm, rfl⟩, ?_⟩
  simp [Seat.entry]

/-- **A refusal** marks the seat, and is told to it alone. -/
theorem deny_of_holds (room : Room) {r : Roster} {version : Version} {hall : Hall Handle}
    (hr : r.Holds hall.entries) (hs : hall.Sound version) {seat : Seat Handle}
    (hm : seat ∈ hall.seats) (hw : seat.standing = .waiting) {user : Identity}
    (hroster : room.roster = r.modify seat.key (·.present user)) (denial : Denial) :
    (room.deny seat.key denial).roster.Holds (hall.place seat.key (.refused user)).entries
      ∧ (room.deny seat.key denial).mail =
          room.mail.postAll (hall.letters (.refused seat.outbox denial)) := by
  have hget : room.connection? seat.key = some (seat.connection.present user) := by
    rw [Room.connection?, hroster]
    exact get?_present hr hm _
  have hletters : (seat.connection.present user).letters (.stdout denial.notice)
      = hall.letters (.refused seat.outbox denial) := by
    show seat.connection.letters (.stdout denial.notice) = _
    rw [Seat.letters_connection]
    rfl
  unfold Room.deny
  rw [snd_send_of_get hget]
  refine ⟨?_, congrArg _ hletters⟩
  show Holds (room.roster.modify seat.key Connection.reject) _
  rw [hroster]
  -- presenting and rejecting together are one change of standing; neither is one alone
  have hold := holds_modify (holds_modify hr seat.key (·.present user)) seat.key Connection.reject
  rw [change_change, change_entries (.refused user)] at hold
  · exact hold
  · intro seat' hs' hk
    obtain rfl : seat' = seat := List.inj_on_of_nodup_map hs.keys hs' hm hk
    simp [Seat.connection, hw, Connection.present, Connection.reject]

theorem introductions_of_holds {r : Roster} {hall : Hall Handle} (hr : r.Holds hall.entries)
    {newcomer : Seat Handle} {user : Identity} (except : Option Handle) :
    (r.members except).flatMap (fun other => newcomer.connection.introduction user other.2) =
      (hall.others except).flatMap fun m =>
        [(newcomer.outbox, .connect m.2 false), (m.1.outbox, .connect user false)] := by
  rw [members_of_holds hr, List.flatMap_map]
  have hone : ∀ m ∈ hall.others except,
      newcomer.connection.introduction user m.1.entry.2 =
        [(newcomer.outbox, .connect m.2 false), (m.1.outbox, .connect user false)] := by
    intro m hmem
    have hst := (Hall.mem_membersOf.mp (List.mem_filter.mp hmem).1).2
    have huser : m.1.entry.2.user = some m.2 := by simp [Seat.entry, Seat.connection, hst]
    have hletters : m.1.entry.2.letters (.connect user false)
        = [(m.1.outbox, .connect user false)] := m.1.letters_connection _
    rw [Connection.introduction, huser]
    dsimp only
    rw [Seat.letters_connection, hletters]
    rfl
  exact List.flatMap_congr hone

theorem mem_place {ι : Type} [DecidableEq ι] {hall : Hall ι} {seat : Seat ι}
    (hm : seat ∈ hall.seats) (standing : Standing) :
    { seat with standing } ∈ (hall.place seat.key standing).seats :=
  List.mem_map.mpr ⟨seat, hm, if_pos rfl⟩

/-- What a welcome does to the roster, and what it queues: the arrival, the answer to the newcomer,
and the introductions. -/
theorem welcome_eq {room : Room} {origin : Handle} {newcomer : Connection}
    (hget : Arena.get? (room.roster.modify origin .validate) origin = some newcomer)
    (user : Identity) (peer : String) :
    (room.welcome origin user peer).roster = room.roster.modify origin .validate
      ∧ (room.welcome origin user peer).mail = room.mail.postAll
          ((room.roster.members (some origin)).flatMap
              (fun c => c.2.letters (Hall.arrival user.name))
            ++ newcomer.letters (.connect user true)
            ++ (Roster.members (room.roster.modify origin .validate) (some origin)).flatMap
                fun other => newcomer.introduction user other.2) := by
  have hconn : ∀ record, ((room.broadcast (some origin) record).update origin .validate).connection?
      origin = some newcomer := fun _ => hget
  unfold Room.welcome
  dsimp only
  rw [snd_send_of_get (hconn _)]
  simp only [Room.note, Room.connection?, Room.update, Room.broadcast, hget, Roster.snd_broadcast,
    Room.introduce_eq, Mail.postAll_append]
  exact ⟨trivial, rfl⟩

/-- **An admission** makes the seat a member's, tells the others, and then all of each other. -/
theorem welcome_of_holds (room : Room) {r : Roster} {version : Version} {hall : Hall Handle}
    (hr : r.Holds hall.entries) (hs : hall.Sound version) {seat : Seat Handle}
    (hm : seat ∈ hall.seats) (hw : seat.standing = .waiting) {user : Identity}
    (hroster : room.roster = r.modify seat.key (·.present user)) (peer : String) :
    (room.welcome seat.key user peer).roster.Holds (hall.place seat.key (.member user)).entries
      ∧ (room.welcome seat.key user peer).mail = room.mail.postAll
          (hall.letters (.admitted seat.outbox user (hall.members.map (·.2)))) := by
  let newcomer : Seat Handle := { seat with standing := .member user }
  have hpresent := holds_modify hr seat.key (·.present user)
  rw [← hroster] at hpresent
  have hvalid : Holds (room.roster.modify seat.key .validate)
      (hall.place seat.key (.member user)).entries := by
    have hold := holds_modify hpresent seat.key Connection.validate
    rw [change_change, change_entries (.member user)] at hold
    · exact hold
    · intro seat' hs' hk
      obtain rfl : seat' = seat := List.inj_on_of_nodup_map hs.keys hs' hm hk
      simp [Seat.connection, hw, Connection.present, Connection.validate]
  have hget : Arena.get? (room.roster.modify seat.key .validate) seat.key
      = some newcomer.connection :=
    (get?_eq_some_iff hvalid).mpr (List.mem_map.mpr ⟨newcomer, mem_place hm _, rfl⟩)
  -- neither change of the newcomer's own connection shows among the others
  have hmembers : room.roster.members (some seat.key) = r.members (some seat.key) := by
    rw [hroster, members_modify hr]
  obtain ⟨hwroster, hwmail⟩ := welcome_eq hget user peer
  refine ⟨by rw [hwroster]; exact hvalid, ?_⟩
  rw [hwmail, members_modify hpresent, hmembers, letters_of_holds hr, introductions_of_holds hr,
    others_of_waiting hs hm hw, Seat.letters_connection, List.append_assoc]
  rfl

end ChatRoom
