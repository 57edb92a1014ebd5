import ChatRoom.Proofs.Teardown

/-!
# Ways to leave

A member leaves when nothing more is read from it, when the server is told to kick it, or when
another member has it removed. The first way takes a handle. The other two take a name, and search
for it: among all members, or among all but the one who asks. Connections that have been refused may
have presented the same name, and are passed over by both.

No two members have one name, so a search finds whoever is meant, and the three ways come to the
same: the roster, the mail and the console do not show which it was (`departures_agree`). Only the
log does, which reports who asked for it. A name that is not found changes nothing but the log.

That compares the three with each other only. What it is to leave, for the one who leaves and for
those that are left, is said once for every request that takes a connection down (`TakesDown`), and
each of the three is such a request (`takesDown_of_member`).
-/

namespace ChatRoom

open Arena

namespace Hall

/-- A search finds the member that has the name, unless that one is left out. -/
theorem named?_of_mem {ι : Type} [DecidableEq ι] {version : Version} {hall : Hall ι}
    (hs : hall.Sound version) {m : Seat ι × Identity} (hm : m ∈ hall.members) {except : Option ι}
    (hne : some m.1.key ≠ except) : hall.named? m.2.name except = some m.1 := by
  have hother : m ∈ hall.others except := List.mem_filter.mpr ⟨hm, decide_eq_true hne⟩
  have hsome := (named?_isSome hall m.2.name except).mpr (List.mem_map_of_mem hother)
  obtain ⟨seat, hf⟩ := Option.isSome_iff_exists.mp hsome
  obtain ⟨user, hmem, hname, -⟩ := named?_eq_some hf
  have hsame : (seat, user) = m := List.inj_on_of_nodup_map hs.names hmem hm hname
  rw [hf, ← hsame]

end Hall

namespace Server

/-- The server after nothing more is read from a connection, but with another report of it. -/
def closing (s : Server) (h : Handle) (report : List LogEntry) : Server :=
  { Server.handler.onClosed h s with log := s.log ++ report }

/-- A member leaves in each of three ways, and only the log tells them apart. This says that they
come to the same, and not to what: that the connection is gone, that its outbox has ended and that
the others stay is in `TakesDown`. -/
structure Leaves (s : Server) (h : Handle) (c : Connection) (name : String) : Prop where
  closed : Server.handler.onClosed h s = s.closing h [c.parting]
  kicked : s.kick name = (true, s.closing h [.kicking name, c.parting])
  removed : ∀ q d, s.Member q d → q ≠ h → ∃ requester, d.name? = some requester
    ∧ Server.handler.dispatch q (.disconnect name) s
      = (.ok .proceed, s.closing h [.removed requester name, c.parting])

/-- A name is of no use to one who asks to have somebody removed: it is its own, or nobody's. -/
def Idle (s : Server) (requester name : String) : Prop :=
  name = requester ∨ ∀ h c, s.Member h c → c.name? ≠ some name

variable {s : Server} {hall : Hall Handle}

/-! ## Members by name -/

theorem findMember_of_mem (h : Seated s hall) {m : Seat Handle × Identity} (hm : m ∈ hall.members)
    {except : Option Handle} (hne : some m.1.key ≠ except) :
    s.roster.findMember m.2.name except = some m.1.key := by
  rw [findMember_of_holds h.roster, Hall.named?_of_mem h.sound hm hne]
  rfl

theorem findMember_of_nobody (h : Seated s hall) {name : String} {except : Option Handle}
    (hno : ∀ k c, s.Member k c → some k ≠ except → c.name? ≠ some name) :
    s.roster.findMember name except = none := by
  rw [findMember_of_holds h.roster, Option.map_eq_none_iff]
  refine Option.eq_none_iff_forall_ne_some.mpr ?_
  intro seat hf
  obtain ⟨user, hm, rfl, hne⟩ := Hall.named?_eq_some hf
  obtain ⟨hmember, hname⟩ := member_of_mem h hm
  exact hno _ _ hmember hne hname

/-- What is idle to ask for is found by no search that leaves the requester out. -/
theorem findMember_of_idle (h : Seated s hall) {m : Seat Handle × Identity} (hm : m ∈ hall.members)
    {name : String} (hidle : s.Idle m.2.name name) :
    s.roster.findMember name (some m.1.key) = none := by
  refine findMember_of_nobody h ?_
  intro k c hc hne hname
  rcases hidle with rfl | hno
  · -- its own name is nobody else's
    obtain ⟨other, hother, rfl, rfl, hn⟩ := mem_of_member h hc
    have hsame : other.2.name = m.2.name := Option.some.inj (hn.symm.trans hname)
    rw [List.inj_on_of_nodup_map h.sound.names hother hm hsame] at hne
    exact hne rfl
  · exact hno k c hc hname

/-! ## The three ways -/

/-- A member has whoever is found removed. -/
theorem dispatch_disconnect_of_mem (h : Seated s hall) {m : Seat Handle × Identity}
    (hm : m ∈ hall.members) (name : String) :
    Server.handler.dispatch m.1.key (.disconnect name) s
      = (.ok .proceed, { s with toRoom :=
          match s.roster.findMember name (some m.1.key) with
          | some target => (s.toRoom.note (.removed m.2.name name)).teardown target
          | none => s.toRoom.note (.removeUnknown m.2.name name) }) := by
  obtain ⟨hmember, hname⟩ := member_of_mem h hm
  have hvalid : m.1.connection.isValidated = true := by
    simp [Connection.isValidated, hmember.validated]
  show s.onDisconnect m.1.key name = _
  rw [onDisconnect, asMember, hmember.linked]
  dsimp only
  rw [if_pos hvalid, hname]
  rfl

/-- What was reported before has no part in taking a connection down. -/
theorem teardown_with_log (room : Room) (log : List LogEntry) (h : Handle) :
    ({ room with log } : Room).teardown h
      = { room.teardown h with log := (({ room with log } : Room).teardown h).log } := by
  unfold Room.teardown
  dsimp only
  cases room.roster.disconnect room.mail h with
  | none => rfl
  | some result =>
      obtain ⟨⟨user, wasValidated, rejected, address⟩, roster, mail⟩ := result
      cases user with
      | none => rfl
      | some user => cases wasValidated <;> rfl

theorem teardown_reported (h : Seated s hall) {seat : Seat Handle} (hm : seat ∈ hall.seats)
    (report : List LogEntry) :
    { s with toRoom := ({ s.toRoom with log := s.log ++ report } : Room).teardown seat.key }
      = s.closing seat.key (report ++ [seat.connection.parting]) := by
  have hlog := log_teardown { s.toRoom with log := s.log ++ report } h.roster hm
  rw [teardown_with_log, hlog, List.append_assoc]
  rfl

theorem leaves_of_mem (h : Seated s hall) {m : Seat Handle × Identity} (hm : m ∈ hall.members) :
    s.Leaves m.1.key m.1.connection m.2.name where
  closed := by
    have hreported := teardown_reported h (Hall.mem_membersOf.mp hm).1 []
    rw [List.append_nil] at hreported
    exact hreported
  kicked := by
    rw [kick, findMember_of_mem h hm (by simp)]
    exact congrArg _ (teardown_reported h (Hall.mem_membersOf.mp hm).1 [.kicking m.2.name])
  removed q d hd hne := by
    obtain ⟨asking, hasking, rfl, rfl, hname⟩ := mem_of_member h hd
    refine ⟨asking.2.name, hname, ?_⟩
    rw [dispatch_disconnect_of_mem h hasking,
      findMember_of_mem h hm fun he => hne (Option.some.inj he).symm]
    exact congrArg _ (teardown_reported h (Hall.mem_membersOf.mp hm).1
      [.removed asking.2.name m.2.name])

/-! ## Names that are not found -/

theorem disconnect_of_idle (h : Seated s hall) {m : Seat Handle × Identity} (hm : m ∈ hall.members)
    {name : String} (hidle : s.Idle m.2.name name) :
    Server.handler.dispatch m.1.key (.disconnect name) s
      = (.ok .proceed, { s with log := s.log ++ [.removeUnknown m.2.name name] }) := by
  rw [dispatch_disconnect_of_mem h hm, findMember_of_idle h hm hidle]
  rfl

theorem kick_of_nobody (h : Seated s hall) {name : String}
    (hno : ∀ k c, s.Member k c → c.name? ≠ some name) : s.kick name = (false, s) := by
  rw [kick, findMember_of_nobody h fun k c hc _ => hno k c hc]

/-! ## What it is to leave -/

/-- Each of the three ways is a request to take the member down. -/
theorem target?_of_member (h : Seated s hall) {k : Handle} {c : Connection} {name : String}
    (hc : s.Member k c) (hname : c.name? = some name) :
    s.target? (.close k) = some k ∧ s.target? (.kick name) = some k
      ∧ ∀ q d, s.Member q d → q ≠ k → s.target? (.dispatch q (.disconnect name)) = some k := by
  obtain ⟨m, hm, rfl, rfl, hown⟩ := mem_of_member h hc
  obtain rfl : m.2.name = name := Option.some.inj (hown.symm.trans hname)
  refine ⟨?_, findMember_of_mem h hm (by simp), fun q d hd hne => ?_⟩
  · rw [target?, hc.linked, Option.map_some]
  · have hvalid : d.isValidated = true := by
      simp [Connection.isValidated, hd.validated]
    rw [target?, hd.linked]
    dsimp only
    rw [if_pos hvalid, findMember_of_mem h hm fun he => hne (Option.some.inj he).symm]

/-- **Whichever way a member leaves, it is taken down completely, and nobody else is.** -/
theorem takesDown_of_member (version : Version) (requests : List (Request Handle)) {k : Handle}
    {c : Connection} {name : String}
    (hc : (({ version } : Server).run requests).Member k c) (hname : c.name? = some name) :
    (({ version } : Server).run requests).TakesDown (.close k) k c
      ∧ (({ version } : Server).run requests).TakesDown (.kick name) k c
      ∧ ∀ q d, (({ version } : Server).run requests).Member q d → q ≠ k →
          (({ version } : Server).run requests).TakesDown (.dispatch q (.disconnect name)) k c := by
  obtain ⟨-, hall, h⟩ := live_run (live_empty version) requests
  have htakes : ∀ request, (({ version } : Server).run requests).target? request = some k →
      (({ version } : Server).run requests).TakesDown request k c := by
    intro request ht
    obtain ⟨other, htaken⟩ := takesDown_of_target h ht
    obtain rfl := Option.some.inj (htaken.linked.symm.trans hc.linked)
    exact htaken
  obtain ⟨hclose, hkick, hremove⟩ := target?_of_member h.seated hc hname
  exact ⟨htakes _ hclose, htakes _ hkick, fun q d hd hne => htakes _ (hremove q d hd hne)⟩

end Server

/-- **A member leaves in one way.** Whatever was asked of a server before, every member leaves the
same server behind, whether nothing more is read from it, or it is kicked, or another member has it
removed. And if the name is the requester's own or no member's, nobody leaves. What is left behind
is shown by `Server.takesDown_of_member`. -/
theorem departures_agree (version : Version) (requests : List (Request Handle)) :
    (∀ h c, (({ version } : Server).run requests).Member h c → ∃ name, c.name? = some name
        ∧ (({ version } : Server).run requests).Leaves h c name)
      ∧ (∀ q d, (({ version } : Server).run requests).Member q d → ∃ requester,
          d.name? = some requester
            ∧ ∀ name, (({ version } : Server).run requests).Idle requester name →
                Server.handler.dispatch q (.disconnect name) (({ version } : Server).run requests)
                  = (.ok .proceed, { ({ version } : Server).run requests with
                      log := (({ version } : Server).run requests).log
                        ++ [.removeUnknown requester name] }))
      ∧ (∀ name, (∀ h c, (({ version } : Server).run requests).Member h c → c.name? ≠ some name) →
          (({ version } : Server).run requests).kick name
            = (false, ({ version } : Server).run requests)) := by
  obtain ⟨-, hall, h⟩ := Server.seated_run (Server.seated_empty version) requests
  refine ⟨?_, ?_, fun name => Server.kick_of_nobody h⟩
  · intro k c hc
    obtain ⟨m, hm, rfl, rfl, hname⟩ := Server.mem_of_member h hc
    exact ⟨m.2.name, hname, Server.leaves_of_mem h hm⟩
  · intro q d hd
    obtain ⟨m, hm, rfl, rfl, hname⟩ := Server.mem_of_member h hd
    exact ⟨m.2.name, hname, fun name => Server.disconnect_of_idle h hm⟩

/-- Two are members, and one who wanted the name of the first has been refused and is still
there. -/
def namesake : List (Request Handle) :=
  [.register none, .register none, .register none,
    .dispatch ⟨1, 0⟩ (.userInfo ⟨"ann", .current⟩), .dispatch ⟨0, 0⟩ (.userInfo ⟨"ann", .current⟩),
    .dispatch ⟨2, 0⟩ (.userInfo ⟨"bob", .current⟩)]

/-- The one who has been refused is passed over, although it stands in front of the member. -/
theorem departures_namesake :
    (({} : Server).run namesake).kick "ann"
        = (true, (({} : Server).run namesake).closing ⟨1, 0⟩ [.kicking "ann", .left "ann" "local"])
      ∧ Server.handler.dispatch ⟨2, 0⟩ (.disconnect "ann") (({} : Server).run namesake)
        = (.ok .proceed, (({} : Server).run namesake).closing ⟨1, 0⟩
            [.removed "bob" "ann", .left "ann" "local"])
      ∧ (({} : Server).run namesake).kick "eve" = (false, ({} : Server).run namesake) := by
  obtain ⟨hleaves, -, hnobody⟩ := departures_agree .current namesake
  have hann : (({} : Server).run namesake).Member ⟨1, 0⟩
      ⟨.validated, some ⟨"ann", .current⟩, false, none, some 1⟩ :=
    ⟨by decide +kernel, rfl⟩
  have hbob : (({} : Server).run namesake).Member ⟨2, 0⟩
      ⟨.validated, some ⟨"bob", .current⟩, false, none, some 2⟩ :=
    ⟨by decide +kernel, rfl⟩
  obtain ⟨name, hname, hann'⟩ := hleaves _ _ hann
  obtain rfl : "ann" = name := Option.some.inj hname
  obtain ⟨requester, hrequester, hremoved⟩ := hann'.removed _ _ hbob (by decide)
  obtain rfl : "bob" = requester := Option.some.inj hrequester
  refine ⟨hann'.kicked, hremoved, hnobody "eve" ?_⟩
  have heve : ∀ item ∈ (({} : Server).run namesake).roster.toList,
      item.2.name? ≠ some "eve" := by
    decide +kernel
  exact fun h c hc =>
    heve _ (((Server.run_inOrder .current namesake).listed h c).mp hc.linked)

end ChatRoom
