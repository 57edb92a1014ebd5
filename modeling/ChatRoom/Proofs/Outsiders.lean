import ChatRoom.Proofs.Answers
import ChatRoom.Proofs.Outgoing
import ChatRoom.Proofs.Party

/-!
# Whoever is never let in goes unnoticed

Connections come, ask to be let in, are refused, send what they may not send, and go. This module
takes all of that out of a run: every request of the peers that never become members. For the others
nothing changes. They get the same answers, the same records are queued for them, they stand as they
stood, the console shows the same and the members are the same in the same order.

The two servers are not alike at all: slots are used in another order, handles are other handles,
and the peers that are left have other numbers. What ties them together is that each keeps a hall,
and that the hall of the one is the hall of the other as the party makes it up.
-/

namespace ChatRoom

/-- A connection whose outbox has another number. -/
def Connection.renumber (f : Nat → Nat) (c : Connection) : Connection :=
  { c with outbox := c.outbox.map f }

section

variable (party : Nat → Prop) [DecidablePred party]

/-- The party's outboxes are the same in both, under their numbers there. -/
structure Mail.Agree (mail part : Mail) : Prop where
  length : part.boxes.length = Nat.count party mail.boxes.length
  boxes : ∀ p, party p → part.box (Nat.count party p) = mail.box p

/-- Whatever the party can see of a server is the same of another. -/
structure Lobby.Indistinct (lobby part : Lobby) : Prop where
  /-- What is queued, and which ends are held. -/
  boxes : ∀ p, party p → part.server.mail.box (Nat.count party p) = lobby.server.mail.box p
  /-- How each connection stands, and who it is. -/
  connections : ∀ p, party p → part.connection? (Nat.count party p)
    = (lobby.connection? p).map (Connection.renumber (Nat.count party))
  console : part.server.console = lobby.server.console
  names : part.server.memberNames = lobby.server.memberNames
  /-- What the next request of the party would be answered. -/
  replies : ∀ request request', request.within? party lobby.handles.length = some request' →
    (part.reply? request').map Reply.bare = (lobby.reply? request).map Reply.bare

/-- Two servers, of which the second has the party alone. -/
structure Lobby.Pair (lobby part : Lobby) (hall : Hall Nat) : Prop where
  whole : lobby.Matches hall
  alone : part.Matches (hall.within party)
  closed : hall.Closed party
  mail : Mail.Agree party lobby.server.mail part.server.mail
  console : part.server.console = lobby.server.console
  version : part.server.version = lobby.server.version

end

variable {party : Nat → Prop} [DecidablePred party]

/-! ## The mail -/

namespace Hall

variable {hall : Hall Nat}

theorem ended_within (hkeys : ∀ seat ∈ hall.seats, seat.key = seat.outbox) {news : News}
    (hn : ∀ n ∈ news.subject?, party n) {p : Nat} (hp : party p) :
    Nat.count party p ∈ (hall.within party).ended (news.renumber (Nat.count party))
      ↔ p ∈ hall.ended news := by
  cases news with
  | left n member =>
      simp only [News.renumber, ended, List.mem_singleton]
      exact count_inj hp (hn n rfl)
  | emptied =>
      simp only [News.renumber, ended, within, List.map_map, List.mem_map]
      constructor
      · intro h
        obtain ⟨seat, hs, he⟩ := h
        obtain ⟨hseat, hparty⟩ := List.mem_filter.mp hs
        have hout : party seat.outbox := hkeys seat hseat ▸ of_decide_eq_true hparty
        exact ⟨seat, hseat, Nat.count_injective hout hp he⟩
      · intro h
        obtain ⟨seat, hseat, rfl⟩ := h
        have hparty : party seat.key := (hkeys seat hseat).symm ▸ hp
        exact ⟨seat, List.mem_filter.mpr ⟨hseat, decide_eq_true hparty⟩, rfl⟩
  | refused n denial => simp [News.renumber, ended]
  | admitted n user present => simp [News.renumber, ended]
  | said n speaker text => simp [News.renumber, ended]

theorem addressed_renumber {letters : List Letter} (hl : ∀ letter ∈ letters, party letter.1)
    {p : Nat} (hp : party p) :
    addressed (Nat.count party p) (letters.map fun letter => (Nat.count party letter.1, letter.2))
      = addressed p letters := by
  induction letters with
  | nil => rfl
  | cons letter rest ih =>
      rw [List.map_cons, addressed_cons, addressed_cons,
        ih fun other hm => hl other (List.mem_cons_of_mem _ hm)]
      exact if_congr (count_inj (hl letter List.mem_cons_self) hp) rfl rfl

/-- All but one of the members are all but one of the party's. -/
theorem audience_within (hkeys : ∀ seat ∈ hall.seats, seat.key = seat.outbox)
    (hc : hall.Closed party) {n : Nat} (hn : party n) :
    (hall.within party).audience (Nat.count party n)
      = (hall.audience n).map fun m => (m.1.renumber (Nat.count party), m.2) := by
  unfold audience
  rw [members_within hc, List.filter_map]
  refine congrArg _ (List.filter_congr fun m hm => ?_)
  have hout : party m.1.outbox := hkeys m.1 (mem_membersOf.mp hm).1 ▸ hc m hm
  have hinj := count_inj hout hn
  show decide (Nat.count party m.1.outbox ≠ Nat.count party n) = _
  simp [hinj]

/-- **The party is told the same, under its own numbers**, and nobody else is told. -/
theorem letters_within (hkeys : ∀ seat ∈ hall.seats, seat.key = seat.outbox)
    (hc : hall.Closed party) {news : News} (hn : ∀ n ∈ news.subject?, party n) :
    (∀ letter ∈ hall.letters news, party letter.1)
      ∧ (hall.within party).letters (news.renumber (Nat.count party))
        = (hall.letters news).map fun letter => (Nat.count party letter.1, letter.2) := by
  have hmember : ∀ m ∈ hall.members, party m.1.outbox := fun m hm =>
    hkeys m.1 (mem_membersOf.mp hm).1 ▸ hc m hm
  have hothers : ∀ n, ∀ m ∈ hall.audience n, party m.1.outbox := fun n m hm =>
    hmember m (List.mem_filter.mp hm).1
  cases news with
  | refused n denial =>
      refine ⟨?_, rfl⟩
      intro letter hl
      obtain rfl := List.mem_singleton.mp hl
      exact hn n rfl
  | admitted n user present =>
      constructor
      · intro letter hl
        rcases List.mem_append.mp hl with hl | hl
        · obtain ⟨m, hm, rfl⟩ := List.mem_map.mp hl
          exact hmember m hm
        · rcases List.mem_cons.mp hl with rfl | hl
          · exact hn n rfl
          · obtain ⟨m, hm, hl⟩ := List.mem_flatMap.mp hl
            rcases List.mem_cons.mp hl with rfl | hl
            · exact hn n rfl
            · obtain rfl := List.mem_singleton.mp hl
              exact hmember m hm
      · simp only [letters, News.renumber, members_within hc, List.map_append, List.map_cons,
          List.map_map, List.map_flatMap, List.flatMap_map]
        rfl
  | said n speaker text =>
      constructor
      · intro letter hl
        obtain ⟨m, hm, rfl⟩ := List.mem_map.mp hl
        exact hothers n m hm
      · simp only [letters, News.renumber, audience_within hkeys hc (hn n rfl), List.map_map]
        rfl
  | left n member =>
      cases member with
      | none => exact ⟨by simp [letters], rfl⟩
      | some user =>
          constructor
          · intro letter hl
            obtain ⟨m, hm, rfl⟩ := List.mem_map.mp hl
            exact hothers n m hm
          · simp only [letters, News.renumber, audience_within hkeys hc (hn n rfl), List.map_map]
            rfl
  | emptied => exact ⟨by simp [letters], rfl⟩

end Hall

section

variable {mail part : Mail} {hall : Hall Nat}

theorem agree_deliver (hkeys : ∀ seat ∈ hall.seats, seat.key = seat.outbox)
    (hc : hall.Closed party) (ha : Mail.Agree party mail part) {news : Option News}
    (hn : ∀ told ∈ news, ∀ n ∈ told.subject?, party n) :
    Mail.Agree party (hall.deliver mail news)
      ((hall.within party).deliver part (news.map (News.renumber (Nat.count party)))) := by
  refine ⟨?_, ?_⟩
  · rw [Hall.length_boxes_deliver, Hall.length_boxes_deliver]
    exact ha.length
  · intro p hp
    cases news with
    | none => exact ha.boxes p hp
    | some told =>
        have hsubject := hn told rfl
        obtain ⟨hall', hletters⟩ := Hall.letters_within hkeys hc hsubject
        have hlength : Nat.count party p < part.boxes.length ↔ p < mail.boxes.length := by
          rw [ha.length]
          exact count_lt_iff hp
        rw [Option.map_some, Hall.box_deliver, Hall.box_deliver, hletters,
          Hall.addressed_renumber hall' hp, ha.boxes p hp]
        simp only [Hall.ended_within hkeys hsubject hp, hlength]

/-- What outsiders are told leaves the party's outboxes alone. -/
theorem agree_outsider (ha : Mail.Agree party mail part) {news : Option News}
    (hn : ∀ told ∈ news, hall.Apart party told) :
    Mail.Agree party (hall.deliver mail news) part := by
  refine ⟨?_, ?_⟩
  · rw [Hall.length_boxes_deliver]
    exact ha.length
  · intro p hp
    rw [ha.boxes p hp]
    cases news with
    | none => rfl
    | some told =>
        obtain ⟨hended, hletters, -⟩ := hn told rfl
        have hnot : ¬ (p ∈ hall.ended told ∧ p < mail.boxes.length) := fun h => hended p h.1 hp
        have hnone : addressed p (hall.letters told) = [] := by
          refine List.filterMap_eq_nil_iff.mpr fun letter hl => ?_
          have hne : letter.1 ≠ p := fun he => hletters letter hl (he ▸ hp)
          exact if_neg hne
        rw [Hall.box_deliver, if_neg hnot, hnone]
        simp

/-- **The party's request does to its outboxes what it did.** -/
theorem agree_step (hkeys : ∀ seat ∈ hall.seats, seat.key = seat.outbox) (hc : hall.Closed party)
    (hlength : mail.boxes.length = hall.arrived) (ha : Mail.Agree party mail part)
    (version : Version) {request : Request Nat}
    (hp : ∀ p ∈ request.peer? hall.arrived, party p) :
    Mail.Agree party
      (hall.mailAfter mail request (hall.step version hall.arrived request).2)
      ((hall.within party).mailAfter part (request.renumber (Nat.count party))
        ((hall.step version hall.arrived request).2.map (News.renumber (Nat.count party)))) := by
  have hdeliver := agree_deliver hkeys hc ha (Hall.subject_step hkeys hc version hp)
  cases request with
  | register address =>
      have hnew : party mail.boxes.length := hlength ▸ hp hall.arrived rfl
      refine ⟨?_, ?_⟩
      · show (part.boxes ++ [({} : Outbox)]).length
          = Nat.count party (mail.boxes ++ [({} : Outbox)]).length
        rw [List.length_append, List.length_append, ha.length]
        simp [Nat.count_succ, hnew]
      · intro p hparty
        show (part.add.2).box _ = (mail.add.2).box p
        rw [Mail.box_add, Mail.box_add, ha.length, ha.boxes p hparty]
        exact if_congr (count_inj hparty hnew) rfl rfl
  | deafen n =>
      have hn : party n := hp n rfl
      refine ⟨?_, ?_⟩
      · show (part.refuse _).boxes.length = Nat.count party (mail.refuse n).boxes.length
        rw [Mail.length_boxes_refuse, Mail.length_boxes_refuse]
        exact ha.length
      · intro p hparty
        show (part.refuse _).box _ = (mail.refuse n).box p
        rw [Mail.box_refuse, Mail.box_refuse, ha.boxes p hparty]
        exact if_congr (count_inj hn hparty) rfl rfl
  | dispatch origin record => exact hdeliver
  | close origin => exact hdeliver
  | kick name => exact hdeliver
  | disconnectAll => exact hdeliver

/-- **An outsider's request does nothing to the party's outboxes.** -/
theorem agree_step_outsider (hlength : mail.boxes.length = hall.arrived)
    (ha : Mail.Agree party mail part) {version : Version} {request : Request Nat} {q : Nat}
    (hpeer : request.peer? hall.arrived = some q) (hq : ¬ party q)
    (hn : ∀ told ∈ (hall.step version hall.arrived request).2, hall.Apart party told) :
    Mail.Agree party (hall.mailAfter mail request (hall.step version hall.arrived request).2)
      part := by
  have hdeliver := agree_outsider ha hn
  cases request with
  | register address =>
      obtain rfl := Option.some.inj hpeer
      rw [← hlength] at hq
      refine ⟨?_, ?_⟩
      · show part.boxes.length = Nat.count party (mail.boxes ++ [({} : Outbox)]).length
        rw [List.length_append, ha.length]
        simp [Nat.count_succ, hq]
      · intro p hparty
        have hne : p ≠ mail.boxes.length := fun he => hq (he ▸ hparty)
        show _ = (mail.add.2).box p
        rw [Mail.box_add, if_neg hne]
        exact ha.boxes p hparty
  | deafen n =>
      obtain rfl := Option.some.inj hpeer
      refine ⟨?_, ?_⟩
      · show part.boxes.length = Nat.count party (mail.refuse n).boxes.length
        rw [Mail.length_boxes_refuse]
        exact ha.length
      · intro p hparty
        have hne : n ≠ p := fun he => hq (he ▸ hparty)
        show _ = (mail.refuse n).box p
        rw [Mail.box_refuse, if_neg hne]
        exact ha.boxes p hparty
  | dispatch origin record => exact hdeliver
  | close origin => exact hdeliver
  | kick name => exact hdeliver
  | disconnectAll => exact hdeliver

end

/-! ## Removals -/

/-- The party is not taken down more often than everyone is. -/
theorem removals_within {version : Version} {hall : Hall Nat} (hs : hall.Sound version)
    (hkeys : ∀ seat ∈ hall.seats, seat.key = seat.outbox) :
    (hall.within party).arrived - (hall.within party).seats.length
      ≤ hall.arrived - hall.seats.length := by
  have hseats := List.length_eq_length_filter_add (l := hall.seats)
    fun seat => decide (party seat.key)
  have hpeers := List.length_eq_length_filter_add (l := List.range hall.arrived)
    fun p => decide (party p)
  rw [List.length_range] at hpeers
  have hcount : Nat.count party hall.arrived
      = ((List.range hall.arrived).filter fun p => decide (party p)).length :=
    List.countP_eq_length_filter
  -- every outsider with a seat has come
  have hout : (hall.seats.filter fun seat => !decide (party seat.key)).length
      ≤ ((List.range hall.arrived).filter fun p => !decide (party p)).length := by
    have hsub : (hall.seats.filter fun seat => !decide (party seat.key)).map (·.outbox)
        ⊆ (List.range hall.arrived).filter fun p => !decide (party p) := by
      intro n hn
      obtain ⟨seat, hm, rfl⟩ := List.mem_map.mp hn
      obtain ⟨hseat, hp⟩ := List.mem_filter.mp hm
      rw [hkeys seat hseat] at hp
      exact List.mem_filter.mpr ⟨List.mem_range.mpr (hs.arrived seat hseat), hp⟩
    have hnodup := hs.outboxes.sublist
      ((List.filter_sublist (p := fun seat => !decide (party seat.key))).map Seat.outbox)
    simpa using hnodup.length_le_of_subset hsub
  have hwithin : (hall.within party).seats.length
      = (hall.seats.filter fun seat => decide (party seat.key)).length := List.length_map _
  show Nat.count party hall.arrived - (hall.within party).seats.length ≤ _
  omega

/-! ## One request -/

namespace Lobby

variable {lobby part : Lobby} {hall : Hall Nat}

/-- The party's request is one in both. -/
theorem pair_step (h : Pair party lobby part hall) {request : Request Nat}
    (hp : ∀ p ∈ request.peer? hall.arrived, party p)
    (hc : (hall.step lobby.server.version hall.arrived request).1.Closed party)
    (hroom : (lobby.step request).server.removals < UInt64.size) :
    Pair party (lobby.step request) (part.step (request.renumber (Nat.count party)))
      (hall.step lobby.server.version hall.arrived request).1 := by
  have hstep := Hall.step_within h.closed lobby.server.version hp
  have hobeys := obeys_step h.whole request hroom
  -- what was taken down in the whole run can be counted, so the party's removals can be too
  have hroom' : (part.step (request.renumber (Nat.count party))).server.removals < UInt64.size := by
    rw [removals_step h.alone, h.version, hstep]
    rw [removals_step h.whole] at hroom
    exact Nat.lt_of_le_of_lt (removals_within hobeys.1.sound hobeys.1.keys) hroom
  have hobeys' := obeys_step h.alone (request.renumber (Nat.count party)) hroom'
  have hconsole := console_step h.alone (request.renumber (Nat.count party))
  rw [Obeys, h.version, hstep] at hobeys'
  rw [h.version, hstep] at hconsole
  refine ⟨hobeys.1, hobeys'.1, hc, ?_, ?_, ?_⟩
  · rw [hobeys.2, hobeys'.2]
    exact agree_step h.whole.keys h.closed h.whole.seated.outboxes h.mail _ hp
  · rw [hconsole, console_step h.whole, h.console]
    cases (hall.step lobby.server.version hall.arrived request).2 with
    | none => rfl
    | some news => cases news <;> rfl
  · rw [version_step, version_step]
    exact h.version

/-- An outsider's request is one in the first only. -/
theorem pair_outsider (h : Pair party lobby part hall) {request : Request Nat} {p : Nat}
    (hpeer : request.peer? hall.arrived = some p) (hp : ¬ party p)
    (hc : (hall.step lobby.server.version hall.arrived request).1.Closed party)
    (hroom : (lobby.step request).server.removals < UInt64.size) :
    Pair party (lobby.step request) part
      (hall.step lobby.server.version hall.arrived request).1 := by
  obtain ⟨hsame, happart⟩ := Hall.step_outsider h.whole.keys h.closed hpeer hp hc
  have hobeys := obeys_step h.whole request hroom
  refine ⟨hobeys.1, ?_, hc, ?_, ?_, ?_⟩
  · rw [hsame]
    exact h.alone
  · rw [hobeys.2]
    exact agree_step_outsider h.whole.seated.outboxes h.mail hpeer hp happart
  · rw [console_step h.whole, h.console]
    symm
    refine Server.after_of_not_said fun n speaker text hsaid => ?_
    exact (happart _ hsaid).silent n speaker text rfl
  · rw [version_step]
    exact h.version

/-! ## What the party can see -/

/-- The party is answered the same. -/
theorem reply_within (hc : hall.Closed party) (version : Version) {request : Request Nat}
    (hp : ∀ p ∈ request.peer? hall.arrived, party p) :
    (hall.within party).reply version (request.renumber (Nat.count party))
      = hall.reply version request := by
  cases request with
  | dispatch origin record =>
      have hfind : (hall.within party).find? (Nat.count party origin)
          = (hall.find? origin).map (Seat.renumber (Nat.count party)) :=
        Hall.find?_within (hp origin rfl)
      simp only [Request.renumber, Hall.reply, Hall.answer, hfind, Hall.denial?_within hc,
        Option.map_map]
      rfl
  | kick name =>
      have hnamed : (hall.within party).named? name none
          = (hall.named? name none).map (Seat.renumber (Nat.count party)) :=
        Hall.named?_within hc name none (by simp)
      simp only [Request.renumber, Hall.reply, hnamed, Option.isSome_map]
  | register address => rfl
  | close origin => rfl
  | disconnectAll => rfl
  | deafen n => rfl

theorem origin?_renumber (f : Nat → Nat) (request : Request Nat) :
    (request.renumber f).origin? = request.origin?.map f := by
  cases request <;> rfl

/-- A peer of the party has come in both or in neither. -/
theorem reply?_within (h : Pair party lobby part hall) {request : Request Nat}
    (hp : ∀ p ∈ request.peer? hall.arrived, party p) :
    (part.reply? (request.renumber (Nat.count party))).map Reply.bare
      = (lobby.reply? request).map Reply.bare := by
  have hlength : part.handles.length = Nat.count party lobby.handles.length := by
    rw [h.alone.arrived, h.whole.arrived]
    rfl
  by_cases hcome : ∀ p, request.origin? = some p → p < lobby.handles.length
  · have hcome' : ∀ p, (request.renumber (Nat.count party)).origin? = some p →
        p < part.handles.length := by
      intro p' ho
      rw [origin?_renumber, Option.map_eq_some_iff] at ho
      obtain ⟨p, ho, rfl⟩ := ho
      rw [hlength]
      have hparty : party p := by
        cases request with
        | dispatch origin record => exact hp p ho
        | close origin => exact hp p ho
        | register address => exact absurd ho (by simp [Request.origin?])
        | kick name => exact absurd ho (by simp [Request.origin?])
        | disconnectAll => exact absurd ho (by simp [Request.origin?])
        | deafen n => exact absurd ho (by simp [Request.origin?])
      exact (count_lt_iff hparty).mpr (hcome p ho)
    rw [reply?_of_come h.whole hcome, reply?_of_come h.alone hcome', h.version,
      reply_within h.closed _ hp]
  · simp only [not_forall, not_lt] at hcome
    obtain ⟨p, ho, hle⟩ := hcome
    have ho' : (request.renumber (Nat.count party)).origin? = some (Nat.count party p) := by
      rw [origin?_renumber, ho]
      rfl
    have hle' : part.handles.length ≤ Nat.count party p :=
      hlength ▸ Nat.count_monotone party hle
    rw [reply?_of_absent ho hle, reply?_of_absent ho' hle']

theorem indistinct_of_pair (h : Pair party lobby part hall) : Indistinct party lobby part := by
  refine ⟨h.mail.boxes, ?_, h.console, ?_, ?_⟩
  · intro p hp
    rw [connection?_of_matches h.whole, connection?_of_matches h.alone, Hall.find?_within hp,
      Option.map_map, Option.map_map]
    refine congrArg (Option.map · _) (funext fun seat => ?_)
    show (seat.renumber (Nat.count party)).connection
      = seat.connection.renumber (Nat.count party)
    unfold Seat.connection Seat.renumber
    cases seat.standing <;> rfl
  · rw [memberNames_of_matches h.whole, memberNames_of_matches h.alone,
      Hall.members_within h.closed, List.map_map]
    rfl
  · intro request request' hwithin
    unfold Request.within? at hwithin
    split at hwithin
    · rename_i hp
      obtain rfl := Option.some.inj hwithin
      rw [h.whole.arrived] at hp
      exact reply?_within h hp
    · exact absurd hwithin (by simp)

/-! ## Runs -/

/-- Peers that never become members are no members. -/
theorem closed_of_never (h : lobby.Matches hall)
    (hn : ∀ p, ¬ party p → ∀ c ∈ lobby.connection? p, c.stage ≠ .validated) :
    hall.Closed party := by
  intro m hm
  by_contra hp
  obtain ⟨hs, hst⟩ := Hall.mem_membersOf.mp hm
  have hfind : hall.find? m.1.key = some m.1 := by
    cases hf : hall.find? m.1.key with
    | none =>
        have := List.find?_eq_none.mp hf m.1 hs
        simp at this
    | some seat =>
        obtain ⟨hseat, hk⟩ := Hall.find?_eq_some hf
        rw [List.inj_on_of_nodup_map h.sound.keys hseat hs hk]
  refine hn m.1.key hp m.1.connection ?_ ?_
  · rw [connection?_of_matches h, hfind]
    rfl
  · simp [Seat.connection, hst]

theorem arrived_run (version : Version) (requests : List (Request Nat)) :
    (Hall.run version requests).1.arrived = (requests.map Request.arrivals).sum := by
  induction requests using List.reverseRecOn with
  | nil => rfl
  | append_singleton requests request ih =>
      rw [Hall.run_append, List.map_append, List.sum_append, ← ih]
      dsimp only
      rcases request.register_or with ⟨address, rfl⟩ | hq
      · rfl
      · rw [Hall.arrived_step _ _ _ hq]
        cases request with
        | register address => exact absurd rfl (hq address)
        | _ => rfl

theorem removals_run_prefix (version : Version) (before after : List (Request Nat)) :
    (run version before).server.removals ≤ (run version (before ++ after)).server.removals := by
  induction after using List.reverseRecOn with
  | nil => rw [List.append_nil]
  | append_singleton after request ih =>
      rw [← List.append_assoc]
      exact Nat.le_trans ih (removals_run_append version (before ++ after) request)

/-- **Run for run, the party's hall is what is left of the hall.** -/
theorem pair_run (version : Version) (requests : List (Request Nat))
    (hroom : (run version requests).server.removals < UInt64.size)
    (hnever : ∀ before, before <+: requests → ∀ p, ¬ party p →
      ∀ c ∈ (run version before).connection? p, c.stage ≠ .validated) :
    Pair party (run version requests) (run version (Request.allWithin party 0 requests))
      (Hall.run version requests).1 := by
  induction requests using List.reverseRecOn with
  | nil =>
      exact ⟨matches_init version, matches_init version, by simp [Hall.Closed, Hall.run,
        Hall.members, Hall.membersOf], ⟨rfl, fun p _ => rfl⟩, rfl, rfl⟩
  | append_singleton requests request ih =>
      have hbefore := removals_run_append version requests request
      have h := ih (by omega) fun before hb => hnever before (hb.trans (List.prefix_append _ _))
      have hmatches := matches_run version (requests ++ [request]) hroom
      have hc := closed_of_never hmatches (hnever _ List.prefix_rfl)
      rw [Hall.run_append] at hc ⊢
      rw [run_append] at hroom ⊢
      have hc' : ((Hall.run version requests).1.step (run version requests).server.version
          (Hall.run version requests).1.arrived request).1.Closed party := by
        rw [version_run]
        exact hc
      rw [Request.allWithin_append, Request.allWithin_singleton, Nat.zero_add,
        ← arrived_run version]
      by_cases hp : ∀ p ∈ request.peer? (Hall.run version requests).1.arrived, party p
      · have hstep := pair_step h hp hc' hroom
        rw [version_run] at hstep
        rw [Request.within?, if_pos hp, Option.toList_some, run_append]
        exact hstep
      · have hpeer := hp
        simp only [not_forall] at hpeer
        obtain ⟨p, hpeer, houtside⟩ := hpeer
        have hstep := pair_outsider h hpeer houtside hc' hroom
        rw [version_run] at hstep
        rw [Request.within?, if_neg hp, Option.toList_none, List.append_nil]
        exact hstep

end Lobby

/-- **Whoever is never let in makes no difference to anyone else.** Take any party of peers such
that no other peer ever becomes a member, and leave the requests of all others out of a run. At
every moment of the run the party sees the same as without them: the same is queued for it, its
connections stand alike, the console and the list of members are the same, and whatever it asks for
next is answered the same. -/
theorem outsiders_unnoticed (version : Version) (party : Nat → Prop) [DecidablePred party]
    (requests : List (Request Nat))
    (hroom : (Lobby.run version requests).server.removals < UInt64.size)
    (hnever : ∀ before, before <+: requests → ∀ p, ¬ party p →
      ∀ c ∈ (Lobby.run version before).connection? p, c.stage ≠ .validated) :
    ∀ before, before <+: requests →
      Request.allWithin party 0 before <+: Request.allWithin party 0 requests
        ∧ (Lobby.run version before).Indistinct party
            (Lobby.run version (Request.allWithin party 0 before)) := by
  rintro before ⟨after, rfl⟩
  constructor
  · rw [Request.allWithin_append]
    exact List.prefix_append _ _
  · have hfewer := Lobby.removals_run_prefix version before after
    refine Lobby.indistinct_of_pair (Lobby.pair_run version before (by omega) ?_)
    intro earlier he
    exact hnever earlier (he.trans (List.prefix_append _ _))

/-- Between two members comes one that asks for a name that is taken, speaks all the same, and is
taken down. -/
def interruption : List (Request Nat) :=
  [.register none, .dispatch 0 (.userInfo ⟨"ann", .current⟩), .register none,
    .dispatch 1 (.userInfo ⟨"ann", .current⟩), .dispatch 1 (.message "hello?"), .close 1,
    .register none, .dispatch 2 (.userInfo ⟨"bob", .current⟩), .dispatch 2 (.message "hi")]

/-- Without it the second member is the second peer, and all is as it was. -/
theorem outsiders_unnoticed_interruption :
    Request.allWithin (· ≠ 1) 0 interruption
        = [.register none, .dispatch 0 (.userInfo ⟨"ann", .current⟩), .register none,
            .dispatch 1 (.userInfo ⟨"bob", .current⟩), .dispatch 1 (.message "hi")]
      ∧ ((Lobby.run .current interruption).server.mail.box 0).records
        = [.connect ⟨"ann", .current⟩ true, .stdout "Client \"bob\" has connected\n",
            .connect ⟨"bob", .current⟩ false, .stdout "bob: hi\n"]
      ∧ (Lobby.run .current interruption).Indistinct (· ≠ 1)
          (Lobby.run .current (Request.allWithin (· ≠ 1) 0 interruption)) := by
  refine ⟨by decide +kernel, by decide +kernel, ?_⟩
  have hroom : (Lobby.run .current interruption).server.removals < UInt64.size := by
    decide +kernel
  have hnever : ∀ before ∈ interruption.inits,
      ∀ c ∈ (Lobby.run .current before).connection? 1, c.stage ≠ .validated := by
    decide +kernel
  refine (outsiders_unnoticed .current (· ≠ 1) interruption hroom ?_ _ List.prefix_rfl).2
  intro before hb p hp
  obtain rfl := not_not.mp hp
  exact hnever before (List.mem_inits _ _ |>.mpr hb)

end ChatRoom
