import ChatRoom.Proofs.Lobby

/-!
# How an outbox fares

A request adds to an outbox, and ends it when its connection is taken down; it takes nothing out of
it and never lets the receiving end go. Letters go only to connections that are linked, so an outbox
that has ended stays as it is, and one that has not ended belongs to a linked connection.
-/

namespace ChatRoom

/-- Whether a connection with this outbox is linked. -/
def Hall.Linked {ι : Type} (hall : Hall ι) (n : Nat) : Prop := n ∈ hall.seats.map (·.outbox)

/-- An outbox before and after a request that lets no receiving end go. -/
structure Outbox.Onward (o o' : Outbox) : Prop where
  taken : o'.taken = o.taken
  receiving : o'.receiving = o.receiving
  records : o.records <+: o'.records
  /-- An outbox that has ended stays as it is. -/
  ended : o.sending = false → o'.records = o.records ∧ o'.sending = false

theorem Outbox.Onward.refl (o : Outbox) : o.Onward o :=
  ⟨rfl, rfl, List.prefix_rfl, fun h => ⟨rfl, h⟩⟩

namespace Hall

/-- An outbox after some news is out. -/
theorem box_deliver {ι : Type} (hall : Hall ι) (mail : Mail) (news : News) (n : Nat) :
    (hall.deliver mail (some news)).box n =
      let o := if n ∈ hall.ended news ∧ n < mail.boxes.length then
        { mail.box n with sending := false, stopped := true } else mail.box n
      { o with records := o.records ++
          if o.receiving then addressed n (hall.letters news) else [] } := by
  rw [deliver, Mail.box_postAll, Mail.box_endAll_eq]

/-- A reader is told to stop by news that ends its outbox, and by no other. -/
theorem stopped_deliver {ι : Type} (hall : Hall ι) {mail : Mail} {n : Nat}
    (hn : n < mail.boxes.length) (news : Option News) :
    ((hall.deliver mail news).box n).stopped = true
      ↔ (mail.box n).stopped = true ∨ ∃ item ∈ news, n ∈ hall.ended item := by
  cases news with
  | none => simp [deliver]
  | some news =>
      rw [box_deliver]
      by_cases he : n ∈ hall.ended news
      · simp [he, hn]
      · simp [he]

variable {ι : Type} [DecidableEq ι] {version : Version} {hall : Hall ι}

omit [DecidableEq ι] in
theorem linked_of_member {m : Seat ι × Identity} (hm : m ∈ hall.members) :
    hall.Linked m.1.outbox := List.mem_map_of_mem (mem_membersOf.mp hm).1

omit [DecidableEq ι] in
theorem linked_of_audience {n : Nat} {m : Seat ι × Identity} (hm : m ∈ hall.audience n) :
    hall.Linked m.1.outbox := linked_of_member (List.mem_filter.mp hm).1

/-- Only linked connections are told anything. -/
theorem linked_of_letter {outcome : Hall ι × Option News} (hmove : Move version hall outcome)
    {news : News} (hnews : outcome.2 = some news) {letter : Letter}
    (hl : letter ∈ hall.letters news) : hall.Linked letter.1 := by
  cases hmove with
  | stay => exact absurd hnews (by simp)
  | refuse hs hw user denial =>
      obtain rfl := Option.some.inj hnews
      obtain rfl := List.mem_singleton.mp hl
      exact List.mem_map_of_mem hs
  | @welcome seat hs hw user hd =>
      obtain rfl := Option.some.inj hnews
      have hnew : hall.Linked seat.outbox := List.mem_map_of_mem hs
      rcases List.mem_append.mp hl with hl | hl
      · obtain ⟨m, hm, rfl⟩ := List.mem_map.mp hl
        exact linked_of_member hm
      · rcases List.mem_cons.mp hl with rfl | hl
        · exact hnew
        · obtain ⟨m, hm, hl⟩ := List.mem_flatMap.mp hl
          rcases List.mem_cons.mp hl with rfl | hl
          · exact hnew
          · obtain rfl := List.mem_singleton.mp hl
            exact linked_of_member hm
  | say hm text =>
      obtain rfl := Option.some.inj hnews
      obtain ⟨m, hm, rfl⟩ := List.mem_map.mp hl
      exact linked_of_audience hm
  | @leave seat hs =>
      obtain rfl := Option.some.inj hnews
      cases hu : seat.standing.user? with
      | none =>
          rw [hu] at hl
          exact absurd hl (by simp [letters])
      | some user =>
          rw [hu] at hl
          obtain ⟨m, hm, rfl⟩ := List.mem_map.mp hl
          exact linked_of_audience hm
  | empty =>
      obtain rfl := Option.some.inj hnews
      exact absurd hl (by simp [letters])

/-- **Whose outbox is ended is linked no more**, and all the others stay linked. -/
theorem linked_move (hs : hall.Sound version) {outcome : Hall ι × Option News}
    (hmove : Move version hall outcome) (n : Nat) :
    outcome.1.Linked n ↔ hall.Linked n ∧ ∀ news ∈ outcome.2, n ∉ hall.ended news := by
  have hplace : ∀ key standing, (hall.place key standing).Linked n ↔ hall.Linked n := by
    intro key standing
    rw [Linked, Linked, map_place (fun _ _ => rfl)]
  cases hmove with
  | stay => simp
  | refuse hseat hw user denial => simp [hplace, ended]
  | welcome hseat hw hd => simp [hplace, ended]
  | say hm text => simp [ended]
  | @leave seat hseat =>
      show (hall.remove seat.key).Linked n ↔ _
      simp only [leave, Option.mem_def, Option.some.injEq, forall_eq', ended, List.mem_singleton]
      constructor
      · intro h
        obtain ⟨other, hm, rfl⟩ := List.mem_map.mp h
        obtain ⟨hother, hne⟩ := List.mem_filter.mp hm
        refine ⟨List.mem_map_of_mem hother, fun he => of_decide_eq_true hne ?_⟩
        exact congrArg Seat.key (List.inj_on_of_nodup_map hs.outboxes hother hseat he)
      · intro h
        obtain ⟨hlinked, hne⟩ := h
        obtain ⟨other, hother, rfl⟩ := List.mem_map.mp hlinked
        refine List.mem_map_of_mem (List.mem_filter.mpr ⟨hother, decide_eq_true fun he => hne ?_⟩)
        exact congrArg Seat.outbox (List.inj_on_of_nodup_map hs.keys hother hseat he)
  | empty => simp [Linked, ended]

/-- A connection that has just arrived is linked too. -/
theorem linked_register (version : Version) (fresh : ι) (hall : Hall ι)
    (address : Option SocketAddress) (n : Nat) :
    (hall.step version fresh (.register address)).1.Linked n
      ↔ hall.Linked n ∨ n = hall.arrived := by
  simp [Linked, step]

/-- An outbox is told of the news, or ended by it, as the hall says. -/
theorem onward_deliver (hs : hall.Sound version) {outcome : Hall ι × Option News}
    (hmove : Move version hall outcome) {mail : Mail} {n : Nat} (hn : n < mail.boxes.length)
    (ho : (mail.box n).sending = true ↔ hall.Linked n) :
    (mail.box n).Onward ((hall.deliver mail outcome.2).box n)
      ∧ (((hall.deliver mail outcome.2).box n).sending = true ↔ outcome.1.Linked n) := by
  have hlinked := linked_move hs hmove n
  cases hnews : outcome.2 with
  | none =>
      rw [hnews] at hlinked
      refine ⟨.refl _, ho.trans ?_⟩
      rw [hlinked]
      simp
  | some news =>
      rw [hnews] at hlinked
      rw [box_deliver]
      refine ⟨⟨?_, ?_, ?_, ?_⟩, ?_⟩
      · dsimp only
        split <;> rfl
      · dsimp only
        split <;> rfl
      · dsimp only
        split <;> exact List.prefix_append _ _
      · -- nobody writes to one who is not linked
        intro hended
        have hnone : addressed n (hall.letters news) = [] := by
          refine List.filterMap_eq_nil_iff.mpr fun letter hl => ?_
          have hne : letter.1 ≠ n := by
            intro he
            have hn := ho.mpr (he ▸ linked_of_letter hmove hnews hl)
            rw [hended] at hn
            exact absurd hn (by simp)
          exact if_neg hne
        rw [hnone]
        dsimp only
        split <;> simp [hended]
      · rw [hlinked]
        by_cases he : n ∈ hall.ended news
        · simp [he, hn]
        · simp [he, ho]

end Hall

namespace Lobby

variable {lobby : Lobby} {hall : Hall Nat}

/-- **A request leads an outbox onward**, and ends it exactly if it takes its connection down. -/
theorem onward_step (h : lobby.Matches hall) {request : Request Nat}
    (hq : ∀ address, request ≠ .register address) (hd : ∀ n, request ≠ .deafen n) {n : Nat}
    (hn : n < lobby.handles.length)
    (ho : (lobby.server.mail.box n).sending = true ↔ hall.Linked n)
    (hroom : (lobby.step request).server.removals < UInt64.size) :
    (lobby.server.mail.box n).Onward ((lobby.step request).server.mail.box n)
      ∧ (((lobby.step request).server.mail.box n).sending = true
        ↔ (hall.step lobby.server.version hall.arrived request).1.Linked n) := by
  have hlength : n < lobby.server.mail.boxes.length := length_boxes h ▸ hn
  have hdeliver := Hall.onward_deliver h.sound
    (Hall.move_step lobby.server.version hall.arrived hall hq) hlength ho
  rw [(obeys_step h request hroom).2]
  cases request with
  | register address => exact absurd rfl (hq address)
  | deafen m => exact absurd rfl (hd m)
  | dispatch origin record => exact hdeliver
  | close origin => exact hdeliver
  | kick name => exact hdeliver
  | disconnectAll => exact hdeliver

/-- **Whoever registers is linked and has an empty outbox**, and everybody else stays as he was. -/
theorem box_register (h : lobby.Matches hall) (address : Option SocketAddress) (n : Nat) :
    (n = lobby.handles.length
        ∧ (lobby.step (.register address)).server.mail.box n = {}
        ∧ (hall.step lobby.server.version hall.arrived (.register address)).1.Linked n)
      ∨ n ≠ lobby.handles.length
        ∧ (lobby.step (.register address)).server.mail.box n = lobby.server.mail.box n
        ∧ ((hall.step lobby.server.version hall.arrived (.register address)).1.Linked n
          ↔ hall.Linked n) := by
  rw [(obeys_register h address).2, Hall.linked_register, h.arrived.symm]
  show _ ∧ (lobby.server.mail.add.2).box n = _ ∧ _
    ∨ _ ∧ (lobby.server.mail.add.2).box n = _ ∧ _
  rw [Mail.box_add, length_boxes h]
  by_cases hn : n = lobby.handles.length
  · exact Or.inl ⟨hn, if_pos hn, Or.inr hn⟩
  · exact Or.inr ⟨hn, if_neg hn, or_iff_left hn⟩

end Lobby

end ChatRoom
