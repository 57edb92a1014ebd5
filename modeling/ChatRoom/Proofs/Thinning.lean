import ChatRoom.Proofs.ServerSteps

/-!
# What a request leaves in the roster

Only a registration puts a connection in. Everything else that is asked of a server changes
connections where they are and takes some out, so the handles that were given out stay as far apart
as they were. How many were taken out needs no record of its own: it is how many connections there
have been, less those that are left.
-/

namespace ChatRoom

open Arena

/-- How many connections have been taken down. -/
def Server.removals (s : Server) : Nat := s.mail.boxes.length - s.roster.count

theorem thinned_disconnect {r r' : Roster} {mail mail' : Mail} {h : Handle} {d : Departure}
    (hd : r.disconnect mail h = some (d, r', mail')) : Thinned r r' := by
  rw [Roster.disconnect, Option.map_eq_some_iff] at hd
  obtain ⟨⟨c, r''⟩, hu, he⟩ := hd
  obtain rfl : r'' = r' := (Prod.mk.inj (Prod.mk.inj he).2).1
  exact (Thinned.refl r).unlink hu

theorem thinned_teardown (room : Room) (h : Handle) :
    Thinned room.roster (room.teardown h).roster := by
  unfold Room.teardown
  cases hd : room.roster.disconnect room.mail h with
  | none => exact .refl _
  | some result =>
      obtain ⟨departure, roster, mail⟩ := result
      have hthin := thinned_disconnect hd
      dsimp only
      split
      · exact hthin
      · exact hthin

theorem thinned_disconnectEach (handles : List Handle) (r : Roster) (mail : Mail) :
    Thinned r (Roster.disconnectEach handles r mail).2.1 := by
  induction handles generalizing r mail with
  | nil => exact .refl r
  | cons h rest ih =>
      rw [Roster.disconnectEach]
      cases hd : r.disconnect mail h with
      | none => exact ih r mail
      | some result =>
          obtain ⟨departure, r', mail'⟩ := result
          exact (thinned_disconnect hd).trans (ih r' mail')

theorem send_roster (room : Room) (h : Handle) (record : Record) :
    (room.send h record).2.roster = room.roster := by
  unfold Room.send
  split <;> rfl

theorem thinned_deny (room : Room) (origin : Handle) (denial : Denial) :
    Thinned room.roster (room.deny origin denial).roster := by
  show Thinned room.roster (Arena.modify (room.send origin _).2.roster origin _)
  rw [send_roster]
  exact (Thinned.refl _).modify origin _

theorem thinned_welcome (room : Room) (origin : Handle) (user : Identity) (peer : String) :
    Thinned room.roster (room.welcome origin user peer).roster := by
  have hroster : (room.welcome origin user peer).roster = room.roster.modify origin .validate := by
    unfold Room.welcome
    dsimp only
    split
    · exact send_roster _ _ _
    · exact send_roster _ _ _
  rw [hroster]
  exact (Thinned.refl _).modify origin _

namespace Server

theorem thinned_userInfo (s : Server) (origin : Handle) (user : Identity) :
    Thinned s.roster (s.onUserInfo origin user).2.roster := by
  unfold Server.onUserInfo
  split
  · exact .refl _
  · split
    · exact .refl _
    · -- whatever the verdict is, it comes on top of the presenting
      have hpresent : Thinned s.roster (s.toRoom.update origin (·.present user)).roster :=
        (Thinned.refl s.roster).modify origin (·.present user)
      dsimp only
      split
      · refine hpresent.trans ?_
        exact thinned_deny ((s.toRoom.update origin (·.present user)).note _) origin _
      · exact hpresent.trans (thinned_welcome _ origin user _)

theorem thinned_asMember (s : Server) (origin : Handle) (kind : Kind)
    {request : Connection → Room} (hr : ∀ c, Thinned s.roster (request c).roster) :
    Thinned s.roster (s.asMember origin kind request).2.roster := by
  unfold Server.asMember
  split
  · exact .refl _
  · split
    · exact hr _
    · exact .refl _

/-- **Every request but a registration only thins the roster.** -/
theorem thinned_step (s : Server) {request : Request Handle}
    (hq : ∀ address, request ≠ .register address) :
    Thinned s.roster (s.step request).2.roster := by
  cases request with
  | register address => exact absurd rfl (hq address)
  | dispatch origin record =>
      cases record with
      | stdout text => exact .refl _
      | connect user validateOnly => exact .refl _
      | userInfo user => exact thinned_userInfo s origin user
      | message text => exact thinned_asMember s origin .message fun c => .refl _
      | disconnect name =>
          refine thinned_asMember s origin .disconnect fun c => ?_
          dsimp only
          split
          · exact thinned_teardown (s.toRoom.note _) _
          · exact .refl _
  | close origin => exact thinned_teardown s.toRoom origin
  | kick name =>
      show Thinned _ (s.kick name).2.roster
      unfold Server.kick
      split
      · exact thinned_teardown (s.toRoom.note _) _
      · exact .refl _
  | disconnectAll => exact thinned_disconnectEach _ s.roster s.mail
  | deafen n => exact .refl _

/-- A seated server's removals are the arrivals without a seat. -/
theorem removals_of_seated {s : Server} {hall : Hall Handle} (h : Seated s hall) :
    s.removals = hall.arrived - hall.seats.length := by
  rw [removals, h.outboxes, h.roster.count, Hall.entries, List.length_map]

/-- There are no more seats than there were arrivals. -/
theorem length_seats_le {version : Version} {hall : Hall Handle} (hs : hall.Sound version) :
    hall.seats.length ≤ hall.arrived := by
  have hsub : hall.seats.map (·.outbox) ⊆ List.range hall.arrived := by
    intro n hn
    obtain ⟨seat, hm, rfl⟩ := List.mem_map.mp hn
    exact List.mem_range.mpr (hs.arrived seat hm)
  have := hs.outboxes.length_le_of_subset hsub
  simpa using this

/-- Of the handles given out so far, none can be mistaken for that of another connection. -/
structure Traced (s : Server) (handles : List Handle) : Prop where
  issued : s.roster.Issued handles
  turned : s.roster.Turned s.removals

theorem traced_empty (version : Version) : Traced { version } [] := ⟨issued_empty, turned_empty⟩

/-- A registration takes nothing down, and its handle is a new one. -/
theorem traced_register {s : Server} {hall : Hall Handle} (h : Seated s hall)
    (address : Option SocketAddress) :
    (s.register address).2.removals = s.removals
      ∧ ∀ handles, s.Traced handles →
          (s.register address).2.Traced (handles ++ [s.roster.nextHandle]) := by
  have h' : Seated (s.register address).2 _ := (seated_step h (.register address)).1
  have hremovals : (s.register address).2.removals = s.removals := by
    rw [removals_of_seated h, removals_of_seated h', Hall.step, List.length_append,
      List.length_singleton]
    show hall.arrived + 1 - (hall.seats.length + 1) = hall.arrived - hall.seats.length
    omega
  refine ⟨hremovals, ?_⟩
  intro handles ht
  refine ⟨issued_link h.roster ht.issued _, ?_⟩
  rw [hremovals]
  exact turned_link h.roster ht.turned _

/-- Any other request takes down as many as it does, and after it nothing can be mistaken that could
not be before. -/
theorem traced_step {s : Server} {hall : Hall Handle} (h : Seated s hall)
    {request : Request Handle} (hq : ∀ address, request ≠ .register address) :
    s.removals ≤ (s.step request).2.removals
      ∧ ∀ handles, s.Traced handles → (s.step request).2.removals < UInt64.size →
          (s.step request).2.Traced handles := by
  have h' := (seated_step h request).1
  have hle := length_seats_le h.sound
  obtain ⟨items, hitems, hshort, hkeep⟩ := holds_thinned h.roster (thinned_step s hq)
  -- as many have been taken down as the roster has become shorter by
  have hlength : items.length
      = (hall.step s.version s.roster.nextHandle request).1.seats.length := by
    rw [← toList_of_holds hitems, toList_of_holds h'.roster, Hall.entries, List.length_map]
  have hentries : hall.entries.length = hall.seats.length := List.length_map _
  have hremovals : (s.step request).2.removals
      = s.removals + (hall.entries.length - items.length) := by
    rw [removals_of_seated h, removals_of_seated h', Hall.arrived_step _ _ _ hq]
    omega
  refine ⟨by omega, ?_⟩
  intro handles ht hroom
  rw [hremovals] at hroom
  obtain ⟨hi, hturned⟩ := hkeep handles s.removals ht.issued ht.turned hroom
  exact ⟨hi, by rw [hremovals]; exact hturned⟩

end Server

end ChatRoom
