import ChatRoom.Proofs.History

/-!
# The account is complete

The letters that one piece of news leads to are many, for many outboxes, and in an order that the
loops of the server give them. Sorted by outbox they are what the account says: to whom the news is
about what it says to one who is outside, to members what it says to members, and nothing to others.

From this, step for step, an outbox holds exactly what its peer is to read of the history.
-/

namespace ChatRoom

open Arena

namespace Hall

variable {hall : Hall Nat} {history : List News}

/-- One letter to each of some members is at most one for a peer. -/
theorem addressed_each {ι : Type} {ms : List (Seat ι × Identity)}
    (hnd : (ms.map (·.1.outbox)).Nodup) (record : Record) (peer : Nat) :
    addressed peer (ms.map fun m => (m.1.outbox, record))
      = if peer ∈ ms.map (·.1.outbox) then [record] else [] := by
  induction ms with
  | nil => rfl
  | cons m rest ih =>
      rw [List.map_cons, List.nodup_cons] at hnd
      rw [List.map_cons, addressed_cons, ih hnd.2, List.map_cons]
      by_cases he : m.1.outbox = peer
      · subst he
        simp [hnd.1]
      · have hne : peer ≠ m.1.outbox := fun h => he h.symm
        rw [if_neg he]
        refine if_congr ?_ rfl rfl
        rw [List.mem_cons, or_iff_right hne]

/-- When a newcomer and some members are told of each other, the newcomer is told of all of them,
and each of them of the newcomer. -/
theorem addressed_introductions {ms : List (Seat Nat × Identity)}
    (hnd : (ms.map (·.1.outbox)).Nodup) {n : Nat} (hn : n ∉ ms.map (·.1.outbox)) (user : Identity)
    (peer : Nat) :
    addressed peer (ms.flatMap fun m =>
        [(n, .connect m.2 false), (m.1.outbox, .connect user false)])
      = if n = peer then ms.map fun m => .connect m.2 false
        else if peer ∈ ms.map (·.1.outbox) then [.connect user false] else [] := by
  induction ms with
  | nil => simp
  | cons m rest ih =>
      rw [List.map_cons, List.nodup_cons] at hnd
      rw [List.map_cons, List.mem_cons, not_or] at hn
      rw [List.flatMap_cons, addressed_append, ih hnd.2 hn.2, addressed_cons, addressed_cons,
        addressed_nil]
      -- the letters alternate, and a peer reads one side of them only
      by_cases he : n = peer
      · subst he
        have hne : m.1.outbox ≠ n := fun h => hn.1 h.symm
        simp [hne]
      · by_cases hm : m.1.outbox = peer
        · subst hm
          simp [he, hnd.1]
        · have hne : peer ≠ m.1.outbox := fun h => hm h.symm
          rw [if_neg he, if_neg he, if_neg hm, if_neg he, List.nil_append]
          refine if_congr ?_ rfl rfl
          rw [List.map_cons, List.mem_cons, or_iff_right hne]

theorem members_outboxes_sublist {ι : Type} (seats : List (Seat ι)) :
    ((membersOf seats).map (·.1.outbox)).Sublist (seats.map (·.outbox)) := by
  induction seats with
  | nil => exact List.Sublist.refl _
  | cons seat rest ih =>
      rw [membersOf_cons]
      cases seat.standing.user? with
      | none => exact ih.cons _
      | some user => exact ih.cons_cons _

theorem members_outboxes_nodup {ι : Type} {version : Version} {hall : Hall ι}
    (h : hall.Sound version) :
    (hall.members.map (·.1.outbox)).Nodup :=
  h.outboxes.sublist (members_outboxes_sublist hall.seats)

theorem mem_members_outboxes {peer : Nat} :
    peer ∈ hall.members.map (·.1.outbox) ↔ hall.Has peer := by
  rw [has_iff, List.mem_map]

/-- What is said to all but one. -/
theorem addressed_audience {ι : Type} {version : Version} {hall : Hall ι}
    (h : hall.Sound version) (n : Nat) (record : Record) (peer : Nat) :
    addressed peer ((hall.audience n).map fun m => (m.1.outbox, record))
      = if n ≠ peer ∧ peer ∈ hall.members.map (·.1.outbox) then [record] else [] := by
  have hsub : (hall.audience n).Sublist hall.members := List.filter_sublist
  rw [addressed_each ((members_outboxes_nodup h).sublist (hsub.map _))]
  refine if_congr ?_ rfl rfl
  rw [List.mem_map, List.mem_map]
  constructor
  · intro h
    obtain ⟨m, hm, rfl⟩ := h
    obtain ⟨hmem, hne⟩ := List.mem_filter.mp hm
    exact ⟨fun he => of_decide_eq_true hne he.symm, m, hmem, rfl⟩
  · intro h
    obtain ⟨hne, m, hm, rfl⟩ := h
    exact ⟨m, List.mem_filter.mpr ⟨hm, decide_eq_true fun he => hne he.symm⟩, rfl⟩

/-- What one piece of news is to a peer in some phase. -/
def reads (peer : Nat) (news : News) : Phase → List Record
  | .outside => heard peer [news]
  | .member => overheard peer [news]
  | .done => []

/-- Members and no others read a record that goes to all but one. -/
theorem reads_of_audience {version : Version} (h : hall.Sound version) (hr : hall.Recorded history)
    {n : Nat} {news : News} {record : Record} {peer : Nat}
    (hmember : overheard peer [news] = if n = peer then [] else [record])
    (houtside : heard peer [news] = []) :
    addressed peer ((hall.audience n).map fun m => (m.1.outbox, record))
      = reads peer news (phase peer history) := by
  have hmem : peer ∈ hall.members.map (·.1.outbox) ↔ phase peer history = .member :=
    mem_members_outboxes.trans (hr.member peer).symm
  rw [addressed_audience h]
  simp only [hmem]
  cases phase peer history with
  | outside => simp [reads, houtside]
  | member => by_cases he : n = peer <;> simp [reads, hmember, he]
  | done => simp [reads]

/-- A peer that is refused reads why, and nobody else reads anything. -/
theorem addressed_refused (hr : hall.Recorded history) {seat : Seat Nat} (hs : seat ∈ hall.seats)
    (hw : seat.standing = .waiting) (denial : Denial) (peer : Nat) :
    addressed peer (hall.letters (.refused seat.outbox denial))
      = reads peer (.refused seat.outbox denial) (phase peer history) := by
  rw [letters, addressed_cons, addressed_nil]
  by_cases he : seat.outbox = peer
  · subst he
    rw [if_pos rfl, hr.waiting seat hs hw]
    simp [reads, heard]
  · rw [if_neg he]
    cases phase peer history with
    | outside => simp [reads, heard, he]
    | member => rfl
    | done => rfl

/-- A newcomer reads of the members, and they read of the newcomer. -/
theorem addressed_admitted {version : Version} (h : hall.Sound version) (hr : hall.Recorded history)
    {seat : Seat Nat} (hs : seat ∈ hall.seats) (hw : seat.standing = .waiting) (user : Identity)
    (peer : Nat) :
    addressed peer (hall.letters (.admitted seat.outbox user (hall.members.map (·.2))))
      = reads peer (.admitted seat.outbox user (hall.members.map (·.2))) (phase peer history) := by
  have hmem : peer ∈ hall.members.map (·.1.outbox) ↔ phase peer history = .member :=
    mem_members_outboxes.trans (hr.member peer).symm
  have hphase := hr.waiting seat hs hw
  -- the newcomer is not among those that it is told of
  have hnew : seat.outbox ∉ hall.members.map (·.1.outbox) := by
    rw [mem_members_outboxes, ← hr.member, hphase]
    simp
  have hnd := members_outboxes_nodup h
  rw [letters, addressed_append, addressed_each hnd, addressed_cons,
    addressed_introductions hnd hnew]
  by_cases he : seat.outbox = peer
  · subst he
    rw [if_neg hnew, if_pos rfl, if_pos rfl, hphase]
    simp [reads, heard, overheard]
  · rw [if_neg he, if_neg he]
    simp only [hmem]
    cases phase peer history with
    | outside => simp [reads, heard, he]
    | member => simp [reads, overheard]
    | done => simp [reads]

/-- That somebody has gone is read by members, if it was a member that went. -/
theorem addressed_left {version : Version} (h : hall.Sound version) (hr : hall.Recorded history)
    (n : Nat) (member : Option Identity) (peer : Nat) :
    addressed peer (hall.letters (.left n member))
      = reads peer (.left n member) (phase peer history) := by
  cases member with
  | none =>
      show addressed peer [] = _
      cases phase peer history with
      | outside => rfl
      | member => by_cases he : n = peer <;> simp [reads, overheard, he]
      | done => rfl
  | some user => exact reads_of_audience h hr rfl rfl

/-- **Each outbox is sent what its peer is to read of the news, and nothing else.** -/
theorem addressed_letters {version : Version} (h : hall.Sound version) (hr : hall.Recorded history)
    {outcome : Hall Nat × Option News} (hmove : Move version hall outcome) {news : News}
    (hnews : outcome.2 = some news) (peer : Nat) :
    addressed peer (hall.letters news) = reads peer news (phase peer history) := by
  cases hmove with
  | stay => simp at hnews
  | refuse hs hw user denial =>
      obtain rfl := Option.some.inj hnews
      exact addressed_refused hr hs hw denial peer
  | welcome hs hw hd =>
      obtain rfl := Option.some.inj hnews
      exact addressed_admitted h hr hs hw _ peer
  | say hm text =>
      obtain rfl := Option.some.inj hnews
      exact reads_of_audience h hr rfl rfl
  | leave hs =>
      obtain rfl := Option.some.inj hnews
      exact addressed_left h hr _ _ peer
  | empty =>
      obtain rfl := Option.some.inj hnews
      show addressed peer [] = _
      cases phase peer history <;> rfl

end Hall

/-- Each outbox whose receiving end is held holds what its peer is to read. -/
def Mail.Tells (mail : Mail) (history : List News) : Prop :=
  ∀ peer, (mail.box peer).receiving = true → (mail.box peer).records = heard peer history

theorem Mail.tells_init : Mail.Tells {} [] := by
  intro peer h
  simp [Mail.box] at h

/-- What is delivered adds what is to be read. -/
theorem tells_deliver {version : Version} {hall : Hall Nat} {history : List News} {mail : Mail}
    (h : hall.Sound version) (hr : hall.Recorded history) (ht : mail.Tells history)
    {outcome : Hall Nat × Option News} (hmove : Hall.Move version hall outcome) :
    (hall.deliver mail outcome.2).Tells (history ++ outcome.2.toList) := by
  intro peer hlive
  cases hnews : outcome.2 with
  | none =>
      rw [hnews] at hlive
      rw [Option.toList_none, List.append_nil]
      exact ht peer hlive
  | some news =>
      rw [hnews, Hall.deliver] at hlive
      rw [Hall.deliver, Option.toList_some, heard_append]
      obtain ⟨hrecords, hreceiving⟩ := mail.box_endAll (hall.ended news) peer
      rw [Mail.box_postAll] at hlive ⊢
      have hlive' : (mail.box peer).receiving = true := hreceiving ▸ hlive
      show (Mail.box _ peer).records ++ _ = _
      rw [if_pos hlive, hrecords, ht peer hlive', Hall.addressed_letters h hr hmove hnews]
      rfl

theorem tells_step {lobby : Lobby} {hall : Hall Nat} {history : List News}
    (h : lobby.Matches hall) (hr : hall.Recorded history)
    (ht : lobby.server.mail.Tells history) (request : Request Nat) :
    (hall.mailAfter lobby.server.mail request
        (hall.step lobby.server.version hall.arrived request).2).Tells
      (history ++ (hall.step lobby.server.version hall.arrived request).2.toList) := by
  have hdeliver : (∀ address, request ≠ .register address) →
      (hall.deliver lobby.server.mail
          (hall.step lobby.server.version hall.arrived request).2).Tells
        (history ++ (hall.step lobby.server.version hall.arrived request).2.toList) := fun hq =>
    tells_deliver h.sound hr ht (Hall.move_step _ hall.arrived hall hq)
  cases request with
  | register address =>
      intro peer hlive
      have hlength : lobby.server.mail.boxes.length = hall.arrived := h.seated.outboxes
      show ((lobby.server.mail.add.2).box peer).records = heard peer (history ++ [])
      have hlive' : ((lobby.server.mail.add.2).box peer).receiving = true := hlive
      rw [List.append_nil]
      rw [Mail.box_add] at hlive' ⊢
      by_cases hp : peer = lobby.server.mail.boxes.length
      · -- a new outbox is empty, and nothing was said yet about its peer
        rw [if_pos hp, heard_of_outside (hr.future peer (by omega))]
      · rw [if_neg hp] at hlive' ⊢
        exact ht peer hlive'
  | dispatch origin record => exact hdeliver (by simp)
  | close origin => exact hdeliver (by simp)
  | kick name => exact hdeliver (by simp)
  | disconnectAll => exact hdeliver (by simp)
  | deafen n =>
      intro peer hlive
      show ((lobby.server.mail.refuse n).box peer).records = heard peer (history ++ [])
      have hlive' : ((lobby.server.mail.refuse n).box peer).receiving = true := hlive
      rw [List.append_nil]
      rw [Mail.box_refuse] at hlive' ⊢
      by_cases hn : n = peer
      · rw [if_pos hn] at hlive'
        simp at hlive'
      · rw [if_neg hn] at hlive' ⊢
        exact ht peer hlive'

/-- **Run for run, the news keeps up with the hall, and the mail with the news.** -/
theorem tells_run (version : Version) (requests : List (Request Nat))
    (hroom : (Lobby.run version requests).server.removals < UInt64.size) :
    (Hall.run version requests).1.Recorded (Hall.run version requests).2
      ∧ (Lobby.run version requests).server.mail.Tells (Hall.run version requests).2 := by
  induction requests using List.reverseRecOn with
  | nil => exact ⟨Hall.recorded_empty, Mail.tells_init⟩
  | append_singleton requests request ih =>
      -- a run whose removals can be counted could count them before its last request
      have hgrow := Lobby.removals_run_append version requests request
      have hbefore : (Lobby.run version requests).server.removals < UInt64.size := by omega
      obtain ⟨hr, ht⟩ := ih hbefore
      have h := Lobby.matches_run version requests hbefore
      have htells := tells_step h hr ht request
      rw [Lobby.run_append] at hroom ⊢
      have hmail := (Lobby.obeys_step h request hroom).2
      have hrecorded := Hall.recorded_step h.sound hr (Hall.run version requests).1.arrived request
      rw [Lobby.version_run] at htells hmail hrecorded
      rw [Hall.run_append]
      refine ⟨hrecorded, ?_⟩
      rw [hmail]
      exact htells

/-- **All that is ever queued for a peer is what `heard` says of the history.** The seats of which
the news tells are the linked connections, in link order. -/
theorem records_eq_heard (version : Version) (requests : List (Request Nat))
    (hroom : (Lobby.run version requests).server.removals < UInt64.size) :
    (Lobby.run version requests).server.roster.toList
        = (Hall.run version requests).1.seats.map (fun seat =>
            ((Lobby.run version requests).handle seat.key, seat.connection))
      ∧ ∀ peer, ((Lobby.run version requests).server.mail.box peer).receiving = true →
          ((Lobby.run version requests).server.mail.box peer).records
            = heard peer (Hall.run version requests).2 := by
  refine ⟨?_, (tells_run version requests hroom).2⟩
  have h := Lobby.matches_run version requests hroom
  rw [toList_of_holds h.seated.roster, Hall.entries, Hall.rename, List.map_map]
  rfl

/-- What the first of two members reads while the second comes, speaks and goes. -/
theorem records_of_first_member :
    ((Lobby.run .current
      [.register none, .register none, .dispatch 0 (.userInfo ⟨"ann", .current⟩),
        .dispatch 1 (.userInfo ⟨"bob", .current⟩), .dispatch 1 (.message "hello"),
        .close 1]).server.mail.box 0).records
      = [.connect ⟨"ann", .current⟩ true, .stdout "Client \"bob\" has connected\n",
          .connect ⟨"bob", .current⟩ false, .stdout "bob: hello\n", .disconnect "bob"] := by
  refine ((records_eq_heard _ _ ?_).2 0 ?_).trans ?_
  · decide +kernel
  · decide +kernel
  · decide +kernel

end ChatRoom
