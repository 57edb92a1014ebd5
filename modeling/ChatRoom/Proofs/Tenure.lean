import Mathlib.Data.List.Perm.Basic
import ChatRoom.Proofs.Answers
import ChatRoom.Proofs.Outgoing
import ChatRoom.Proofs.Situations

/-!
# Who has a name

A name is held by whoever was admitted under it, until its connection is removed. So admissions
under a name and removals of those admitted take turns, whatever else goes on; and a name that
nobody holds goes to the first who asks for it properly. A connection that was refused, or that has
not asked yet, holds no name.

Requests name connections by handle, and handles may come back after long enough. Here a connection
is known by its outbox, which no other connection ever has.

The hall has the reason: at most one member has a name, a seat gets a standing only when it has
none, and loses it only together with itself. `Held` ties that to what has happened.
-/

namespace ChatRoom

open Arena

/-! ## Admissions and removals -/

/-- Something that happens to a name, and to which connection. -/
inductive Turn where
  | taken (outbox : Nat)
  | freed (outbox : Nat)
  deriving DecidableEq, Repr

/-- Whoever has the name first, it is freed by its holder before another takes it. -/
def Alternate : Option Nat → List Turn → Prop
  | _, [] => True
  | none, .taken n :: rest => Alternate (some n) rest
  | some n, .freed m :: rest => m = n ∧ Alternate none rest
  | none, .freed _ :: _ | some _, .taken _ :: _ => False

namespace Server

/-- The outboxes of the linked connections. -/
def linked (s : Server) : List Nat := s.roster.toList.filterMap (·.2.outbox)

/-- The connection that a request gets admitted under a name. -/
def admission? (name : String) (s : Server) : Request Handle → Option Nat
  | .dispatch origin (.userInfo user) =>
    if user.name = name ∧ (s.onUserInfo origin user).1 = .ok .proceed then
      (s.connection? origin).bind (·.outbox)
    else none
  | _ => none

/-- The connections that some requests get admitted under a name, in this order. -/
def admissions (name : String) (s : Server) : List (Request Handle) → List Nat
  | [] => []
  | request :: rest =>
    (s.admission? name request).toList ++ (s.step request).2.admissions name rest

/-- Those that were admitted under a name and are linked still. -/
def holders (name : String) (s : Server) (requests : List (Request Handle)) : List Nat :=
  (s.admissions name requests).filter (· ∈ (s.run requests).linked)

/-- What a request does to a name that these connections were admitted under. -/
def turns (name : String) (admitted : List Nat) (s : Server) (request : Request Handle) :
    List Turn :=
  (admitted.filter fun n => n ∈ s.linked ∧ n ∉ (s.step request).2.linked).map .freed
    ++ (s.admission? name request).toList.map .taken

/-- The admissions under a name, and the removals of those admitted, as they come. -/
def tenure (name : String) (admitted : List Nat) (s : Server) : List (Request Handle) → List Turn
  | [] => []
  | request :: rest =>
    s.turns name admitted request
      ++ (s.step request).2.tenure name (admitted ++ (s.admission? name request).toList) rest

/-- The connection that presents itself under a name and with the right version, if a request is
such a handshake. -/
def applicant? (name : String) (s : Server) : Request Handle → Option Nat
  | .dispatch origin (.userInfo user) =>
    match s.connection? origin with
    | some c =>
      if c.stage = .connected ∧ user.name = name ∧ user.version = s.version then c.outbox else none
    | none => none
  | _ => none

/-- The first applicant. -/
def winner? (name : String) (s : Server) : List (Request Handle) → Option Nat
  | [] => none
  | request :: rest => (s.applicant? name request).or ((s.step request).2.winner? name rest)

/-- The first check that a handshake fails, if it fails any. -/
def objection (version : Version) (user : Identity) : Denial :=
  if user.name = "" then .emptyName
  else if user.version ≠ version then .wrongVersion user.version version
  else .nameTaken

/-- What comes of a handshake that does not get its connection in. -/
structure Refused (s : Server) (origin : Handle) (c : Connection) (user : Identity) : Prop where
  answer : (s.step (.dispatch origin (.userInfo user))).1 = .answered (.ok .close)
  /-- The connection stays pending, and is marked. -/
  marked : (s.step (.dispatch origin (.userInfo user))).2.connection? origin
    = some (c.present user).reject
  /-- It is told of the first check that it fails. Nobody is told anything else. -/
  notice : ∀ n, ((s.step (.dispatch origin (.userInfo user))).2.mail.box n).records
    = (s.mail.box n).records ++
      if c.outbox = some n ∧ (s.mail.box n).receiving = true then
        [.stdout (objection s.version user).notice] else []

/-- What comes of a handshake, depending on whether the name is free. -/
structure Judged (s : Server) (origin : Handle) (c : Connection) (user : Identity) (free : Prop) :
    Prop where
  proceeds_iff : (s.step (.dispatch origin (.userInfo user))).1 = .answered (.ok .proceed)
    ↔ user.name ≠ "" ∧ user.version = s.version ∧ free
  admitted : user.name ≠ "" ∧ user.version = s.version ∧ free →
    (s.step (.dispatch origin (.userInfo user))).2.connection? origin
      = some (c.present user).validate
  refused : ¬ (user.name ≠ "" ∧ user.version = s.version ∧ free) → s.Refused origin c user

/-- How a server has dealt with names after some requests, and will deal with them. -/
structure KeepsNames (s : Server) (requests : List (Request Handle)) : Prop where
  version : (s.run requests).version = s.version
  /-- Admissions under a name and removals of those admitted take turns. -/
  alternate : ∀ name, Alternate none (s.tenure name [] requests)
  /-- Who was admitted under a name and is linked still is a member with that name, and every
  member with that name was. -/
  mem_holders : ∀ name n, n ∈ s.holders name requests ↔
    ∃ h c, (s.run requests).connection? h = some c ∧ c.stage = .validated ∧ c.name? = some name
      ∧ c.outbox = some n
  /-- A handshake is judged by the version, and by whether anyone holds the name. -/
  judged : ∀ origin c user, (s.run requests).connection? origin = some c → c.stage = .connected →
    (s.run requests).Judged origin c user (s.holders user.name requests = [])
  /-- Of those that ask for a free name, in whatever order, the first one gets it. -/
  race : ∀ name, name ≠ "" → s.holders name requests = [] → ∀ race,
    ((s.run requests).tenure name (s.admissions name requests) race).head?
      = ((s.run requests).winner? name race).map .taken
  /-- A connection can be told something unless its receiving end was let go. -/
  receiving : ∀ h c n, (s.run requests).connection? h = some c → c.outbox = some n →
    ((s.run requests).mail.box n).receiving = true ∨ Request.deafen n ∈ requests

end Server

/-! ## The holder of a name in a hall -/

/-- The connection that some news admits under a name. -/
def News.admits? (name : String) : News → Option Nat
  | .admitted n user _ => if user.name = name then some n else none
  | .refused .. | .said .. | .left .. | .emptied => none

namespace Hall

variable {ι : Type} {version : Version} {hall : Hall ι} {name : String}

/-- The member with a name. -/
def holder? (name : String) (hall : Hall ι) : Option Nat :=
  (hall.members.find? fun m => decide (m.2.name = name)).map (·.1.outbox)

theorem holder?_eq_some_iff (hs : hall.Sound version) {n : Nat} :
    hall.holder? name = some n ↔ ∃ m ∈ hall.members, m.2.name = name ∧ m.1.outbox = n := by
  rw [holder?, Option.map_eq_some_iff]
  constructor
  · intro h
    obtain ⟨m, hf, rfl⟩ := h
    exact ⟨m, List.mem_of_find?_eq_some hf, by simpa using List.find?_some hf, rfl⟩
  · intro h
    obtain ⟨m, hm, rfl, rfl⟩ := h
    -- no other member has the name, so this is the one that is found
    cases hf : hall.members.find? fun other => decide (other.2.name = m.2.name) with
    | none => exact absurd (List.find?_eq_none.mp hf m hm) (by simp)
    | some found =>
        have hname : found.2.name = m.2.name := by simpa using List.find?_some hf
        have hfound := List.mem_of_find?_eq_some hf
        exact ⟨found, rfl, by rw [List.inj_on_of_nodup_map hs.names hfound hm hname]⟩

theorem holder?_eq_none_iff : hall.holder? name = none ↔ name ∉ hall.members.map (·.2.name) := by
  rw [holder?, Option.map_eq_none_iff, List.find?_eq_none]
  simp

theorem linked_of_holder (hs : hall.Sound version) {n : Nat} (hn : hall.holder? name = some n) :
    hall.Linked n := by
  obtain ⟨m, hm, -, rfl⟩ := (holder?_eq_some_iff hs).mp hn
  exact linked_of_member hm

variable [DecidableEq ι]

/-- What becomes of the holder of a name: it is one who is admitted under a name that was free, or
the old one for as long as it is linked. -/
structure Succeeds (name : String) (hall : Hall ι) (outcome : Hall ι × Option News) : Prop where
  admitted : ∀ n, outcome.2.bind (News.admits? name) = some n →
    hall.holder? name = none ∧ hall.Linked n ∧ outcome.1.holder? name = some n
  kept : outcome.2.bind (News.admits? name) = none → ∀ n,
    outcome.1.holder? name = some n ↔ hall.holder? name = some n ∧ outcome.1.Linked n

omit [DecidableEq ι] in
theorem succeeds_of_members (hs : hall.Sound version) {outcome : Hall ι × Option News}
    (hnews : outcome.2.bind (News.admits? name) = none) (hs' : outcome.1.Sound version)
    (hmem : ∀ m, m ∈ outcome.1.members ↔ m ∈ hall.members ∧ outcome.1.Linked m.1.outbox) :
    Succeeds name hall outcome := by
  refine ⟨fun n hn => absurd (hnews.symm.trans hn) (by simp), fun _ n => ?_⟩
  rw [holder?_eq_some_iff hs', holder?_eq_some_iff hs]
  constructor
  · intro h
    obtain ⟨m, hm, hname, rfl⟩ := h
    obtain ⟨hold, hl⟩ := (hmem m).mp hm
    exact ⟨⟨m, hold, hname, rfl⟩, hl⟩
  · intro h
    obtain ⟨⟨m, hold, hname, rfl⟩, hl⟩ := h
    exact ⟨m, (hmem m).mpr ⟨hold, hl⟩, hname, rfl⟩

theorem succeeds_place (hs : hall.Sound version) {seat : Seat ι} (hseat : seat ∈ hall.seats)
    (hw : seat.standing = .waiting) {user : Identity} (hd : hall.denial? version user = none) :
    Succeeds name hall (hall.place seat.key (.member user),
      some (.admitted seat.outbox user (hall.members.map (·.2)))) := by
  have hperm := members_place_perm hs.keys hseat hw (.member user)
  have hs' : (hall.place seat.key (.member user)).Sound version :=
    sound_move hs (.welcome hseat hw hd)
  have hlinked : ∀ n, (hall.place seat.key (.member user)).Linked n ↔ hall.Linked n := by
    intro n
    rw [Linked, Linked, map_place (fun _ _ => rfl)]
  have hmem : ∀ m, m ∈ (hall.place seat.key (.member user)).members ↔
      m = ({ seat with standing := .member user }, user) ∨ m ∈ hall.members := by
    intro m
    rw [hperm.mem_iff]
    simp [Standing.user?]
  by_cases hname : user.name = name
  · have hfree : hall.holder? name = none :=
      holder?_eq_none_iff.mpr (hname ▸ (denial?_eq_none hd).2.2)
    refine ⟨fun n hn => ?_, fun hnone => absurd hnone (by simp [News.admits?, hname])⟩
    obtain rfl : seat.outbox = n := by simpa [News.admits?, hname] using hn
    exact ⟨hfree, List.mem_map_of_mem hseat,
      (holder?_eq_some_iff hs').mpr ⟨_, (hmem _).mpr (Or.inl rfl), hname, rfl⟩⟩
  · refine ⟨fun n hn => absurd hn (by simp [News.admits?, hname]), fun _ n => ?_⟩
    rw [holder?_eq_some_iff hs', holder?_eq_some_iff hs]
    constructor
    · intro h
      obtain ⟨m, hm, hn, rfl⟩ := h
      rcases (hmem m).mp hm with rfl | hold
      · exact absurd hn hname
      · exact ⟨⟨m, hold, hn, rfl⟩, (hlinked _).mpr (linked_of_member hold)⟩
    · intro h
      obtain ⟨⟨m, hold, hn, rfl⟩, -⟩ := h
      exact ⟨m, (hmem m).mpr (Or.inr hold), hn, rfl⟩

/-- **No move takes a name from a holder that stays, or gives away one that is held.** -/
theorem succeeds_move (hs : hall.Sound version) {outcome : Hall ι × Option News}
    (hmove : Move version hall outcome) : Succeeds name hall outcome := by
  have hs' := sound_move hs hmove
  have hsame : ∀ m, m ∈ hall.members ↔ m ∈ hall.members ∧ hall.Linked m.1.outbox :=
    fun m => ⟨fun hm => ⟨hm, linked_of_member hm⟩, And.left⟩
  cases hmove with
  | stay => exact succeeds_of_members hs rfl hs' hsame
  | @refuse seat hseat hw user denial =>
      refine succeeds_of_members hs rfl hs' fun m => ?_
      have hperm := members_place_perm hs.keys hseat hw (.refused user)
      rw [hperm.mem_iff, Linked, map_place (fun _ _ => rfl)]
      exact hsame m
  | welcome hseat hw hd => exact succeeds_place hs hseat hw hd
  | say hspeaker text => exact succeeds_of_members hs rfl hs' hsame
  | @leave seat hseat =>
      refine succeeds_of_members hs rfl hs' fun m => ?_
      show m ∈ (hall.remove seat.key).members ↔ _
      rw [members_remove, others_of_mem hs hseat, linked_move hs (.leave hseat)]
      simp only [audience, List.mem_filter, decide_eq_true_eq, leave, Option.mem_def,
        Option.some.injEq, forall_eq', ended, List.mem_singleton]
      exact ⟨fun h => ⟨h.1, linked_of_member h.1, h.2⟩, fun h => ⟨h.1, h.2.2⟩⟩
  | empty =>
      refine succeeds_of_members hs rfl hs' fun m => ?_
      simp [members, membersOf, Linked]

theorem succeeds_step (hs : hall.Sound version) {fresh : ι} (hf : fresh ∉ hall.seats.map (·.key))
    (request : Request ι) : Succeeds name hall (hall.step version fresh request) := by
  rcases request.register_or with ⟨address, rfl⟩ | hq
  · refine succeeds_of_members hs rfl (sound_step hs hf _) fun m => ?_
    rw [members_register, linked_register]
    exact ⟨fun hm => ⟨hm, Or.inl (linked_of_member hm)⟩, And.left⟩
  · exact succeeds_move hs (move_step version fresh hall hq)

/-- Of what was admitted under a name, the one that is linked is its holder. -/
structure Held (name : String) (admitted : List Nat) (hall : Hall ι) : Prop where
  nodup : admitted.Nodup
  arrived : ∀ n ∈ admitted, n < hall.arrived
  holder : ∀ n, n ∈ admitted ∧ hall.Linked n ↔ hall.holder? name = some n

omit [DecidableEq ι] in
theorem held_empty (name : String) : Held name [] ({} : Hall ι) :=
  ⟨List.nodup_nil, by simp, by simp [holder?, members, membersOf]⟩

/-- Who was there is linked after a request only if it was linked before. -/
theorem linked_of_linked_step (hs : hall.Sound version) {fresh : ι} {request : Request ι} {n : Nat}
    (hn : n < hall.arrived) (h : (hall.step version fresh request).1.Linked n) : hall.Linked n := by
  rcases request.register_or with ⟨address, rfl⟩ | hq
  · rcases (linked_register version fresh hall address n).mp h with h | rfl
    · exact h
    · exact absurd hn (Nat.lt_irrefl _)
  · exact ((linked_move hs (move_step version fresh hall hq) n).mp h).1

theorem arrived_le_step (version : Version) (fresh : ι) (hall : Hall ι) (request : Request ι) :
    hall.arrived ≤ (hall.step version fresh request).1.arrived := by
  rcases request.register_or with ⟨address, rfl⟩ | hq
  · exact Nat.le_succ _
  · exact Nat.le_of_eq (arrived_step version fresh hall hq).symm

theorem held_step (hs : hall.Sound version) {fresh : ι} (hf : fresh ∉ hall.seats.map (·.key))
    {admitted : List Nat} (hheld : hall.Held name admitted) (request : Request ι) :
    (hall.step version fresh request).1.Held name
      (admitted ++ ((hall.step version fresh request).2.bind (News.admits? name)).toList) := by
  have hsucc : Succeeds name hall (hall.step version fresh request) := succeeds_step hs hf request
  have hle := arrived_le_step version fresh hall request
  cases hnews : (hall.step version fresh request).2.bind (News.admits? name) with
  | none =>
      rw [Option.toList_none, List.append_nil]
      refine ⟨hheld.nodup, fun n hn => Nat.lt_of_lt_of_le (hheld.arrived n hn) hle, fun n => ?_⟩
      rw [hsucc.kept hnews, ← hheld.holder]
      constructor
      · intro h
        exact ⟨⟨h.1, linked_of_linked_step hs (hheld.arrived n h.1) h.2⟩, h.2⟩
      · intro h
        exact ⟨h.1.1, h.2⟩
  | some n =>
      obtain ⟨hfree, hlinked, hholder⟩ := hsucc.admitted n hnews
      -- nobody admitted before is linked any more, so this is not one of them
      have hgone : ∀ m ∈ admitted, ¬ hall.Linked m := by
        intro m hm hl
        have := (hheld.holder m).mp ⟨hm, hl⟩
        rw [hfree] at this
        exact absurd this (by simp)
      have harrived : n < hall.arrived := by
        obtain ⟨seat, hseat, rfl⟩ := List.mem_map.mp hlinked
        exact hs.arrived seat hseat
      refine ⟨?_, ?_, ?_⟩
      · rw [Option.toList_some, List.nodup_append]
        refine ⟨hheld.nodup, List.nodup_singleton n, ?_⟩
        intro m hm m' hm' he
        obtain rfl := List.mem_singleton.mp hm'
        exact hgone m hm (he ▸ hlinked)
      · intro m hm
        rcases List.mem_append.mp hm with hm | hm
        · exact Nat.lt_of_lt_of_le (hheld.arrived m hm) hle
        · obtain rfl := List.mem_singleton.mp hm
          exact Nat.lt_of_lt_of_le harrived hle
      · intro m
        rw [hholder, Option.some.injEq, Option.toList_some, List.mem_append, List.mem_singleton]
        constructor
        · intro h
          obtain ⟨hm | rfl, hl⟩ := h
          · exact absurd (linked_of_linked_step hs (hheld.arrived m hm) hl) (hgone m hm)
          · rfl
        · rintro rfl
          exact ⟨Or.inr rfl, linked_of_holder (sound_step hs hf request) hholder⟩

end Hall

/-! ## The server and its hall -/

theorem filter_eq_toList {l : List Nat} (hl : l.Nodup) {p : Nat → Bool} {o : Option Nat}
    (h : ∀ n, n ∈ l ∧ p n = true ↔ o = some n) : l.filter p = o.toList := by
  have hperm : (l.filter p).Perm o.toList := by
    refine (List.perm_ext_iff_of_nodup (hl.filter p) (by cases o <;> simp)).mpr fun n => ?_
    rw [List.mem_filter, h, Option.mem_toList]
  cases o with
  | none => exact hperm.eq_nil
  | some n => exact List.perm_singleton.mp hperm

namespace Server

variable {s : Server} {hall : Hall Handle} {name : String}

theorem mem_linked (h : Seated s hall) {n : Nat} : n ∈ s.linked ↔ hall.Linked n := by
  rw [linked, toList_of_holds h.roster, Hall.entries, List.filterMap_map, Hall.Linked]
  simp only [List.mem_filterMap, Function.comp_apply, List.mem_map]
  constructor
  · intro hn
    obtain ⟨seat, hm, ho⟩ := hn
    exact ⟨seat, hm, Option.some.inj ((seat.outbox_connection).symm.trans ho)⟩
  · intro hn
    obtain ⟨seat, hm, rfl⟩ := hn
    exact ⟨seat, hm, seat.outbox_connection⟩

/-- Of those admitted, the one that is linked is the holder. -/
theorem filter_linked (h : Seated s hall) {admitted : List Nat} (hheld : hall.Held name admitted) :
    admitted.filter (· ∈ s.linked) = (hall.holder? name).toList :=
  filter_eq_toList hheld.nodup fun n => by
    rw [decide_eq_true_eq, mem_linked h]
    exact hheld.holder n

/-- The holder of a name is the member that has it. -/
theorem holder?_eq_some_iff (h : Seated s hall) {n : Nat} :
    hall.holder? name = some n ↔ ∃ k c, s.connection? k = some c ∧ c.stage = .validated
      ∧ c.name? = some name ∧ c.outbox = some n := by
  rw [Hall.holder?_eq_some_iff h.sound]
  constructor
  · intro hm
    obtain ⟨⟨seat, user⟩, hm, rfl, rfl⟩ := hm
    obtain ⟨hseat, hst⟩ := Hall.mem_membersOf.mp hm
    exact ⟨seat.key, seat.connection, connection?_of_seated h hseat,
      by simp [Seat.connection, hst], by simp [Seat.connection, hst, Connection.name?],
      seat.outbox_connection⟩
  · intro hc
    obtain ⟨k, c, hc, hstage, hname, hbox⟩ := hc
    obtain ⟨seat, hseat, rfl, rfl⟩ := seat_of_connection h hc
    obtain ⟨user, hst, huser⟩ := member_of_validated hstage
    exact ⟨(seat, user), Hall.mem_membersOf.mpr ⟨hseat, hst⟩,
      Option.some.inj (huser.symm.trans hname),
      Option.some.inj (seat.outbox_connection.symm.trans hbox)⟩

theorem seat_of_connected (h : Seated s hall) {origin : Handle} {c : Connection}
    (hc : s.connection? origin = some c) (hstage : c.stage = .connected) :
    ∃ seat ∈ hall.seats, seat.key = origin ∧ seat.standing = .waiting ∧ seat.connection = c := by
  obtain ⟨seat, hm, hk, rfl⟩ := seat_of_connection h hc
  refine ⟨seat, hm, hk, ?_, rfl⟩
  unfold Seat.connection at hstage
  cases hst : seat.standing with
  | waiting => rfl
  | refused user => rw [hst] at hstage; exact absurd hstage (by simp)
  | member user => rw [hst] at hstage; exact absurd hstage (by simp)

/-- **The checks**, by who holds the name. -/
theorem denial?_eq (version : Version) (hall : Hall Handle) (user : Identity) :
    hall.denial? version user =
      if user.name ≠ "" ∧ user.version = version ∧ hall.holder? user.name = none then none
      else some (objection version user) := by
  unfold Hall.denial? objection
  simp only [Hall.holder?_eq_none_iff]
  by_cases hname : user.name = ""
  · simp [hname]
  · by_cases hversion : user.version = version
    · by_cases hfree : user.name ∈ hall.members.map (·.2.name)
      · rw [if_neg hname, if_neg (not_not.mpr hversion), if_pos hfree,
          if_neg (fun h => h.2.2 hfree), if_neg hname, if_neg (not_not.mpr hversion)]
      · rw [if_neg hname, if_neg (not_not.mpr hversion), if_neg hfree,
          if_pos ⟨hname, hversion, hfree⟩]
    · rw [if_neg hname, if_pos hversion, if_neg (fun h => hversion h.2.1), if_neg hname,
        if_pos hversion]

/-- Only one who presents itself is admitted. -/
theorem admits?_eq_none {fresh : Handle} {request : Request Handle}
    (hq : ∀ origin user, request ≠ .dispatch origin (.userInfo user)) :
    (hall.step s.version fresh request).2.bind (News.admits? name) = none := by
  cases hnews : (hall.step s.version fresh request).2 with
  | none => rfl
  | some news =>
      cases news with
      | admitted n user present =>
          obtain ⟨origin, rfl⟩ := Hall.presented_of_admitted hnews
          exact absurd rfl (hq origin user)
      | refused n denial => rfl
      | said n speaker text => rfl
      | left n member => rfl
      | emptied => rfl

/-- What a handshake leads to from a seat that is waiting. -/
theorem step_userInfo (h : Seated s hall) {seat : Seat Handle} (hm : seat ∈ hall.seats)
    (hw : seat.standing = .waiting) (fresh : Handle) (user : Identity) :
    hall.step s.version fresh (.dispatch seat.key (.userInfo user)) =
      match hall.denial? s.version user with
      | some denial => (hall.place seat.key (.refused user), some (.refused seat.outbox denial))
      | none => (hall.place seat.key (.member user),
          some (.admitted seat.outbox user (hall.members.map (·.2)))) := by
  rw [Hall.step, Hall.find?_of_mem h.sound hm]
  cases hd : hall.denial? s.version user with
  | some denial => simp only [Hall.receive, hw, hd]
  | none => simp only [Hall.receive, hw, hd]

theorem answer_of_waiting (h : Seated s hall) {seat : Seat Handle} (hm : seat ∈ hall.seats)
    (hw : seat.standing = .waiting) (user : Identity) :
    (s.step (.dispatch seat.key (.userInfo user))).1
      = .answered (.ok (if (hall.denial? s.version user).isSome then .close else .proceed)) := by
  refine congrArg Reply.answered ((answer_userInfo h seat.key user).trans ?_)
  rw [Hall.answer, Hall.find?_of_mem h.sound hm, Option.map_some, hw]
  rfl

/-! ## Admissions and the turns of a name -/

/-- **A request is an admission under a name exactly if the hall says so.** -/
theorem admission?_of_seated (h : Seated s hall) (request : Request Handle) :
    s.admission? name request
      = (hall.step s.version s.roster.nextHandle request).2.bind (News.admits? name) := by
  by_cases hq : ∃ origin user, request = .dispatch origin (.userInfo user)
  · obtain ⟨origin, user, rfl⟩ := hq
    rw [admission?, answer_userInfo h, Hall.answer]
    cases hf : hall.find? origin with
    | none =>
        rw [Hall.step, hf]
        exact if_neg (by simp [Standing.answer])
    | some seat =>
        obtain ⟨hm, rfl⟩ := Hall.find?_eq_some hf
        rw [Option.map_some]
        cases hst : seat.standing with
        | waiting =>
            rw [step_userInfo h hm hst, Standing.answer, connection?_of_seated h hm,
              Option.bind_some, seat.outbox_connection]
            cases hall.denial? s.version user with
            | some denial => exact if_neg (by simp)
            | none => simp [News.admits?]
        | refused known =>
            rw [Hall.step, hf]
            simp [Standing.answer, Hall.receive, hst]
        | member known =>
            rw [Hall.step, hf]
            simp [Standing.answer, Hall.receive, hst]
  · have hq' : ∀ origin user, request ≠ .dispatch origin (.userInfo user) :=
      fun origin user he => hq ⟨origin, user, he⟩
    rw [admits?_eq_none hq']
    unfold admission?
    split
    · exact absurd rfl (hq' _ _)
    · rfl

/-- What a request does to a name: its holder is gone, or there is a new one. -/
theorem turns_eq (h : Seated s hall) {admitted : List Nat} (hheld : hall.Held name admitted)
    (request : Request Handle) :
    s.turns name admitted request
      = ((hall.holder? name).filter (· ∉ (s.step request).2.linked)).toList.map .freed
        ++ ((hall.step s.version s.roster.nextHandle request).2.bind
            (News.admits? name)).toList.map .taken := by
  rw [turns, admission?_of_seated h]
  refine congrArg (fun freed => List.map Turn.freed freed ++ _) ?_
  refine filter_eq_toList hheld.nodup fun n => ?_
  rw [decide_eq_true_eq, mem_linked h, ← and_assoc, hheld.holder, Option.filter_eq_some_iff,
    decide_eq_true_eq]

theorem alternate_turns (h : Seated s hall) {admitted : List Nat} (hheld : hall.Held name admitted)
    (request : Request Handle) {later : List Turn}
    (hlater : Alternate
      ((hall.step s.version s.roster.nextHandle request).1.holder? name) later) :
    Alternate (hall.holder? name) (s.turns name admitted request ++ later) := by
  obtain ⟨h', -⟩ := seated_step h request
  have hsucc : Hall.Succeeds name hall (hall.step s.version s.roster.nextHandle request) :=
    Hall.succeeds_step h.sound (fresh_of_seated h) request
  rw [turns_eq h hheld]
  cases hnews : (hall.step s.version s.roster.nextHandle request).2.bind (News.admits? name) with
  | some n =>
      obtain ⟨hfree, -, hholder⟩ := hsucc.admitted n hnews
      rw [hholder] at hlater
      rw [hfree]
      exact hlater
  | none =>
      have hkept := hsucc.kept hnews
      cases hold : hall.holder? name with
      | none =>
          have hnone : (hall.step s.version s.roster.nextHandle request).1.holder? name = none := by
            refine Option.eq_none_iff_forall_ne_some.mpr fun n hn => ?_
            rw [hkept, hold] at hn
            exact absurd hn.1 (by simp)
          rw [hnone] at hlater
          exact hlater
      | some n =>
          by_cases hl : n ∈ (s.step request).2.linked
          · have hsome := (hkept n).mpr ⟨hold, (mem_linked h').mp hl⟩
            rw [hsome] at hlater
            rw [Option.filter_some, if_neg (by simpa using hl)]
            exact hlater
          · have hnone :
                (hall.step s.version s.roster.nextHandle request).1.holder? name = none := by
              refine Option.eq_none_iff_forall_ne_some.mpr fun m hm => ?_
              obtain ⟨hm, hlinked⟩ := (hkept m).mp hm
              obtain rfl := Option.some.inj (hold.symm.trans hm)
              exact hl ((mem_linked h').mpr hlinked)
            rw [hnone] at hlater
            rw [Option.filter_some, if_pos (by simpa using hl)]
            exact ⟨rfl, hlater⟩

/-- The hall after a request, and who has the name then. -/
theorem held_of_step (h : Seated s hall) {admitted : List Nat} (hheld : hall.Held name admitted)
    (request : Request Handle) :
    (hall.step s.version s.roster.nextHandle request).1.Held name
      (admitted ++ (s.admission? name request).toList) := by
  rw [admission?_of_seated h]
  exact Hall.held_step h.sound (fresh_of_seated h) hheld request

theorem alternate_tenure (h : Seated s hall) {admitted : List Nat}
    (hheld : hall.Held name admitted) (requests : List (Request Handle)) :
    Alternate (hall.holder? name) (s.tenure name admitted requests) := by
  induction requests generalizing s hall admitted with
  | nil => cases hall.holder? name <;> trivial
  | cons request rest ih =>
      exact alternate_turns h hheld request
        (ih (seated_step h request).1 (held_of_step h hheld request))

theorem held_run (h : Seated s hall) {admitted : List Nat} (hheld : hall.Held name admitted)
    (requests : List (Request Handle)) :
    ∃ hall', Seated (s.run requests) hall'
      ∧ hall'.Held name (admitted ++ s.admissions name requests) := by
  induction requests generalizing s hall admitted with
  | nil =>
      rw [admissions, List.append_nil]
      exact ⟨hall, h, hheld⟩
  | cons request rest ih =>
      obtain ⟨hall', h', hheld'⟩ := ih (seated_step h request).1 (held_of_step h hheld request)
      rw [List.append_assoc] at hheld'
      exact ⟨hall', h', hheld'⟩

/-! ## Handshakes -/

/-- While a name is free, a handshake under it is an admission if the version is right. -/
theorem admission?_of_free (h : Seated s hall) (hname : name ≠ "")
    (hfree : hall.holder? name = none) (request : Request Handle) :
    s.admission? name request = s.applicant? name request := by
  by_cases hq : ∃ origin user, request = .dispatch origin (.userInfo user)
  · obtain ⟨origin, user, rfl⟩ := hq
    rw [admission?_of_seated h, applicant?]
    cases hf : hall.find? origin with
    | none =>
        rw [connection?_of_none h hf, Hall.step, hf]
        rfl
    | some seat =>
        obtain ⟨hm, rfl⟩ := Hall.find?_eq_some hf
        rw [connection?_of_seated h hm]
        dsimp only
        rw [seat.outbox_connection]
        cases hst : seat.standing with
        | waiting =>
            have hstage : seat.connection.stage = .connected := by simp [Seat.connection, hst]
            rw [step_userInfo h hm hst, denial?_eq]
            by_cases hn : user.name = name
            · by_cases hv : user.version = s.version
              · rw [if_pos ⟨hn ▸ hname, hv, hn ▸ hfree⟩, if_pos ⟨hstage, hn, hv⟩]
                exact if_pos hn
              · rw [if_neg fun hall => hv hall.2.1, if_neg fun hall => hv hall.2.2]
                rfl
            · rw [if_neg fun hall : _ ∧ _ ∧ _ => hn hall.2.1]
              split
              · rfl
              · exact if_neg hn
        | refused known =>
            have hstage : seat.connection.stage ≠ .connected := by simp [Seat.connection, hst]
            rw [if_neg fun hall => hstage hall.1, Hall.step, hf]
            dsimp only
            rw [Hall.receive, hst]
            rfl
        | member known =>
            have hstage : seat.connection.stage ≠ .connected := by simp [Seat.connection, hst]
            rw [if_neg fun hall => hstage hall.1, Hall.step, hf]
            dsimp only
            rw [Hall.receive, hst]
            rfl
  · have hq' : ∀ origin user, request ≠ .dispatch origin (.userInfo user) :=
      fun origin user he => hq ⟨origin, user, he⟩
    rw [admission?_of_seated h, admits?_eq_none hq']
    unfold applicant?
    split
    · exact absurd rfl (hq' _ _)
    · rfl

/-- **The first applicant gets a free name.** -/
theorem head?_tenure (h : Seated s hall) {admitted : List Nat} (hheld : hall.Held name admitted)
    (hname : name ≠ "") (hfree : hall.holder? name = none) (race : List (Request Handle)) :
    (s.tenure name admitted race).head? = (s.winner? name race).map .taken := by
  induction race generalizing s hall admitted with
  | nil => rfl
  | cons request rest ih =>
      have happlicant := admission?_of_free h hname hfree request
      have hsucc : Hall.Succeeds name hall (hall.step s.version s.roster.nextHandle request) :=
        Hall.succeeds_step h.sound (fresh_of_seated h) request
      rw [tenure, turns_eq h hheld, hfree, ← admission?_of_seated h, winner?, happlicant]
      cases hadm : s.applicant? name request with
      | some n => rfl
      | none =>
          -- nobody has come in, so the name is free still
          have hnews := (admission?_of_seated h request).symm.trans (happlicant.trans hadm)
          have hfree' : (hall.step s.version s.roster.nextHandle request).1.holder? name
              = none := by
            refine Option.eq_none_iff_forall_ne_some.mpr fun n hn => ?_
            rw [hsucc.kept hnews, hfree] at hn
            exact absurd hn.1 (by simp)
          have hheld' := held_of_step h hheld request
          rw [happlicant, hadm] at hheld'
          exact ih (seated_step h request).1 hheld' hfree'

/-- **What comes of a handshake.** -/
theorem judged_of_seated (h : Seated s hall) {origin : Handle} {c : Connection}
    (hc : s.connection? origin = some c) (hstage : c.stage = .connected) (user : Identity)
    {free : Prop} (hfree : free ↔ hall.holder? user.name = none) :
    s.Judged origin c user free := by
  obtain ⟨seat, hm, rfl, hst, rfl⟩ := seat_of_connected h hc hstage
  obtain ⟨h', hmail⟩ := seated_step h (.dispatch seat.key (.userInfo user))
  have hstep := step_userInfo h hm hst s.roster.nextHandle user
  have hanswer := answer_of_waiting h hm hst user
  have hdenial := denial?_eq s.version hall user
  by_cases hfit : user.name ≠ "" ∧ user.version = s.version ∧ free
  · rw [if_pos ⟨hfit.1, hfit.2.1, hfree.mp hfit.2.2⟩] at hdenial
    rw [hdenial] at hstep hanswer
    rw [hstep] at h'
    refine ⟨⟨fun _ => hfit, fun _ => hanswer⟩, fun _ => ?_, fun hno => absurd hfit hno⟩
    rw [connection?_of_seated h' (mem_place hm (.member user))]
    simp [Seat.connection, hst, Connection.present, Connection.validate]
  · rw [if_neg fun hall => hfit ⟨hall.1, hall.2.1, hfree.mpr hall.2.2⟩] at hdenial
    rw [hdenial] at hstep hanswer
    rw [hstep] at h' hmail
    refine ⟨⟨fun hp => ?_, fun hall => absurd hall hfit⟩, fun hall => absurd hall hfit, fun _ => ?_⟩
    · rw [hanswer] at hp
      simp at hp
    · refine ⟨hanswer, ?_, fun n => ?_⟩
      · rw [connection?_of_seated h' (mem_place hm (.refused user))]
        simp [Seat.connection, hst, Connection.present, Connection.reject]
      · rw [hmail]
        show ((hall.deliver s.mail _).box n).records = _
        rw [Hall.box_deliver, seat.outbox_connection]
        simp only [Hall.ended, Hall.letters, addressed_cons, addressed_nil, List.not_mem_nil,
          false_and, if_false, Option.some.injEq]
        by_cases hr : (s.mail.box n).receiving = true
        · simp [hr]
        · simp [hr]

/-! ## Receiving ends -/

omit name in
theorem receiving_deliver (mail : Mail) (news : Option News) (n : Nat) :
    ((hall.deliver mail news).box n).receiving = (mail.box n).receiving := by
  cases news with
  | none => rfl
  | some news =>
      rw [Hall.box_deliver]
      dsimp only
      split <;> rfl

/-- Nothing that is asked of the server lets a receiving end go. -/
theorem receiving_step (h : Seated s hall) {request : Request Handle} {n : Nat}
    (hd : request ≠ .deafen n)
    (hr : n < s.mail.boxes.length → (s.mail.box n).receiving = true)
    (hn : n < (s.step request).2.mail.boxes.length) :
    ((s.step request).2.mail.box n).receiving = true := by
  have hmail := (seated_step h request).2
  have hdeliver : ∀ news, n < (hall.deliver s.mail news).boxes.length →
      ((hall.deliver s.mail news).box n).receiving = true := by
    intro news hlt
    rw [Hall.length_boxes_deliver] at hlt
    rw [receiving_deliver, hr hlt]
  rw [hmail] at hn ⊢
  cases request with
  | register address =>
      show (s.mail.add.2.box n).receiving = true
      rw [Mail.box_add]
      split
      · rfl
      · refine hr (Nat.lt_of_le_of_ne (Nat.le_of_lt_succ ?_) ‹_›)
        simpa [Hall.mailAfter, Mail.add] using hn
  | deafen m =>
      show ((s.mail.refuse m).box n).receiving = true
      rw [Mail.box_refuse, if_neg fun hm => hd (congrArg Request.deafen hm)]
      exact hr (by simpa [Hall.mailAfter] using hn)
  | dispatch origin record => exact hdeliver _ hn
  | close origin => exact hdeliver _ hn
  | kick asked => exact hdeliver _ hn
  | disconnectAll => exact hdeliver _ hn

theorem receiving_run (h : Seated s hall) {n : Nat}
    (hr : n < s.mail.boxes.length → (s.mail.box n).receiving = true)
    (requests : List (Request Handle)) (hn : n < (s.run requests).mail.boxes.length) :
    ((s.run requests).mail.box n).receiving = true ∨ Request.deafen n ∈ requests := by
  induction requests generalizing s hall with
  | nil => exact Or.inl (hr hn)
  | cons request rest ih =>
      by_cases hd : request = .deafen n
      · exact Or.inr (hd ▸ List.mem_cons_self)
      · have hrest := ih (seated_step h request).1 (receiving_step h hd hr) hn
        exact hrest.imp_right (List.mem_cons_of_mem _)

end Server

/-- **A name is held exactly as long as its holder is linked.** Whatever is asked of a server,
admissions under a name and removals of those admitted take turns; a handshake with the right
version is an admission exactly if nobody holds the name; of several the first one is; and one that
is refused is told of the first check that it fails. -/
theorem names_change_hands (version : Version) (requests : List (Request Handle)) :
    ({ version } : Server).KeepsNames requests := by
  have hstart := Server.seated_empty version
  have hrun : ∀ name, ∃ hall, Seated (({ version } : Server).run requests) hall
      ∧ hall.Held name (({ version } : Server).admissions name requests) :=
    fun name => Server.held_run hstart (Hall.held_empty name) requests
  exact {
    version := (Server.seated_run hstart requests).1
    alternate := fun name => Server.alternate_tenure hstart (Hall.held_empty name) requests
    mem_holders := by
      intro name n
      obtain ⟨hall, h, hheld⟩ := hrun name
      rw [Server.holders, Server.filter_linked h hheld, Option.mem_toList]
      exact Server.holder?_eq_some_iff h
    judged := by
      intro origin c user hc hstage
      obtain ⟨hall, h, hheld⟩ := hrun user.name
      refine Server.judged_of_seated h hc hstage user ?_
      rw [Server.holders, Server.filter_linked h hheld, Option.toList_eq_nil_iff]
    race := by
      intro name hname hfree race
      obtain ⟨hall, h, hheld⟩ := hrun name
      rw [Server.holders, Server.filter_linked h hheld, Option.toList_eq_nil_iff] at hfree
      exact Server.head?_tenure h hheld hname hfree race
    receiving := by
      intro k c n hc hbox
      obtain ⟨-, hall, h⟩ := Server.seated_run hstart requests
      obtain ⟨seat, hseat, rfl, rfl⟩ := Server.seat_of_connection h hc
      obtain rfl := Option.some.inj (seat.outbox_connection.symm.trans hbox)
      exact Server.receiving_run hstart (by simp) requests
        (h.outboxes ▸ h.sound.arrived seat hseat) }

/-- Three ask for one name, the second of them with another version. When the first one leaves, the
name is there for a fourth, and none of those that were refused has it. -/
example : ({} : Server).tenure "ann" [] [.register none, .register none, .register none,
      .register none, .dispatch ⟨1, 0⟩ (.userInfo ⟨"ann", ⟨0, 0, 0⟩⟩),
      .dispatch ⟨2, 0⟩ (.userInfo ⟨"ann", .current⟩),
      .dispatch ⟨0, 0⟩ (.userInfo ⟨"ann", .current⟩), .close ⟨2, 0⟩,
      .dispatch ⟨0, 0⟩ (.userInfo ⟨"ann", .current⟩),
      .dispatch ⟨3, 0⟩ (.userInfo ⟨"ann", .current⟩)]
    = [.taken 2, .freed 2, .taken 3] := by
  decide +kernel

end ChatRoom
