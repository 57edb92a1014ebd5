import Mathlib.Data.List.Find
import ChatRoom.Proofs.ArenaOrder
import ChatRoom.Proofs.RecordRoundTrip
import ChatRoom.Session.Client

/-!
# What a client knows

A client's roster is its own connection, and behind it one connection for each member that it has
been told of, in the order in which it was told. Nothing of it but the names is ever used, so what a
client knows is two things: whom it was admitted as, and a list of names. `learn` is what a record
from the server does to that list, and the client does nothing else, whatever record it is.
-/

namespace ChatRoom

open Arena

namespace Client

/-- What a record from the server does to the names that a client knows. -/
def learn (known : List String) : Record → List String
  | .connect user false => if user.name ∈ known then known else known ++ [user.name]
  | .disconnect name => known.erase name
  | .connect _ true | .stdout _ | .userInfo _ | .message _ => known

/-- The client's own connection, before and after it was admitted. -/
def ownConnection (address : Option SocketAddress) : Option Identity → Connection
  | none => .remote address 0
  | some user => ⟨.validated, some user, false, address, some 0⟩

/-- A member that the client was told of. -/
def mirrored (other : Handle × Identity) : Handle × Connection := (other.1, .named other.2)

/-- A client that was admitted as `own`, if at all, and knows these names. -/
def Knows (s : Client) (own : Option Identity) (known : List String) : Prop :=
  ∃ (address : Option SocketAddress) (others : List (Handle × Identity)),
    others.map (·.2.name) = known
    ∧ s.roster.Holds ((s.home, ownConnection address own) :: others.map mirrored)

theorem knows_start (address : Option SocketAddress) : (start address).Knows none [] := by
  refine ⟨address, [], rfl, ?_⟩
  have hold := holds_link (holds_empty (α := Connection)) (.remote address 0)
  have hhome : (start address).home = Arena.nextHandle ({} : Roster) := fst_link holds_empty _
  rw [hhome]
  exact hold

/-! ## Reading the roster -/

section

variable {r : Roster} {home : Handle} {c : Connection} {others : List (Handle × Identity)}

theorem handle_ne_home (h : r.Holds ((home, c) :: others.map mirrored)) :
    ∀ other ∈ others, other.1 ≠ home := by
  intro other hm he
  have hnd := handles_nodup h
  rw [List.map_cons, List.nodup_cons, List.map_map] at hnd
  exact hnd.1 (List.mem_map.mpr ⟨other, hm, he⟩)

theorem members_of_mirrored (h : r.Holds ((home, c) :: others.map mirrored)) :
    r.members (some home) = others.map mirrored := by
  have hall : ∀ item ∈ others.map mirrored,
      (some item.1 != some home && item.2.isValidated) = true := by
    intro item hm
    obtain ⟨other, ho, rfl⟩ := List.mem_map.mp hm
    have hne := handle_ne_home h other ho
    have hvalid : (mirrored other).2.isValidated = true := rfl
    rw [hvalid, Bool.and_true, bne_iff_ne]
    intro he
    exact hne (Option.some.inj he)
  rw [Roster.members, toList_of_holds h, List.filter_cons_of_neg (by simp),
    List.filter_eq_self.mpr hall]

/-- Of the others, the first with a name is found. -/
theorem findMember_of_mirrored (h : r.Holds ((home, c) :: others.map mirrored)) (name : String) :
    r.findMember name (some home)
      = (others.find? fun other => decide (other.2.name = name)).map (·.1) := by
  have hname : ∀ other ∈ others,
      ((mirrored other).2.name? == some name) = decide (other.2.name = name) := by
    intro other _
    rw [Bool.eq_iff_iff, beq_iff_eq, decide_eq_true_eq]
    exact Option.some.injEq other.2.name name ▸ Iff.rfl
  rw [Roster.findMember, members_of_mirrored h, List.find?_map, Option.map_map]
  exact congrArg (Option.map fun other => other.1) (List.find?_congr hname)

/-- Its own name comes first, once it has one, and then the others. -/
theorem memberNames_of_knows {s : Client} {own : Option Identity} {known : List String}
    (h : s.Knows own known) : s.memberNames = (own.map (·.name)).toList ++ known := by
  obtain ⟨address, others, rfl, hold⟩ := h
  have hall : ∀ item ∈ others.map mirrored,
      (some item.1 != none && item.2.isValidated) = true := by
    intro item hm
    obtain ⟨other, -, rfl⟩ := List.mem_map.mp hm
    rfl
  have hnames : (others.map mirrored).filterMap (fun item => item.2.name?)
      = others.map (·.2.name) := by
    rw [List.filterMap_map]
    exact congrFun
      (List.filterMap_eq_map (f := fun other : Handle × Identity => other.2.name)) others
  rw [Room.memberNames, Roster.memberNames, Roster.members, toList_of_holds hold, List.filter_cons,
    List.filter_eq_self.mpr hall]
  cases own with
  | none => exact hnames
  | some user => exact congrArg (user.name :: ·) hnames

end

/-! ## One record -/

/-- A record whose answer is to go on, and what it leaves. -/
structure Takes (s : Client) (record : Record) (own : Option Identity) (known : List String)
    (status : Status) : Prop where
  proceeds : (handler.dispatch s.home record s).1 = .ok .proceed
  home : (handler.dispatch s.home record s).2.home = s.home
  knows : (handler.dispatch s.home record s).2.Knows own known
  status : (handler.dispatch s.home record s).2.status = status

theorem takes_stdout {s : Client} {own : Option Identity} {known : List String}
    (h : s.Knows own known) (text : String) : s.Takes (.stdout text) own known s.status :=
  ⟨rfl, rfl, h, rfl⟩

/-- The server's answer makes the client's own connection a member. -/
theorem takes_admission {s : Client} {own : Option Identity} {known : List String}
    (h : s.Knows own known) (user : Identity) :
    s.Takes (.connect user true) (some user) known .ready := by
  refine ⟨rfl, rfl, ?_, rfl⟩
  obtain ⟨address, others, hknown, hold⟩ := h
  refine ⟨address, others, hknown, ?_⟩
  -- a second answer would find the connection admitted, and does the same to it
  have hchange := holds_modify hold s.home fun c => (c.present user).validate
  have hown : ((ownConnection address own).present user).validate
      = ownConnection address (some user) := by
    cases own <;> rfl
  have hothers : ∀ item ∈ others.map mirrored,
      (if item.1 = s.home then (item.1, (item.2.present user).validate) else item) = item := by
    intro item hm
    obtain ⟨other, ho, rfl⟩ := List.mem_map.mp hm
    exact if_neg (handle_ne_home hold other ho)
  rw [change, List.map_cons, if_pos rfl, hown, List.map_congr_left hothers, List.map_id'] at hchange
  exact hchange

/-- A member that is not known yet is linked behind the others. -/
theorem takes_connect {s : Client} {own : Option Identity} {known : List String}
    (h : s.Knows own known) (user : Identity) :
    s.Takes (.connect user false) own (learn known (.connect user false)) s.status := by
  obtain ⟨address, others, rfl, hold⟩ := h
  have hfind := findMember_of_mirrored hold user.name
  have hdispatch : handler.dispatch s.home (.connect user false) s
      = onConnect s.home user false s := rfl
  rw [onConnect, if_neg (by simp), hfind] at hdispatch
  by_cases hmem : user.name ∈ others.map (·.2.name)
  · -- a name that is known already is not linked again
    obtain ⟨other, ho, hn⟩ := List.mem_map.mp hmem
    have hsome : (others.find? fun other => decide (other.2.name = user.name)).isSome :=
      List.find?_isSome.mpr ⟨other, ho, decide_eq_true hn⟩
    obtain ⟨found, hfound⟩ := Option.isSome_iff_exists.mp hsome
    rw [hfound, Option.map_some] at hdispatch
    have hlearn : learn (others.map (·.2.name)) (.connect user false) = others.map (·.2.name) :=
      if_pos hmem
    rw [hlearn]
    refine ⟨by rw [hdispatch], by rw [hdispatch], ?_, by rw [hdispatch]⟩
    rw [hdispatch]
    exact ⟨address, others, rfl, hold⟩
  · have hnone : (others.find? fun other => decide (other.2.name = user.name)) = none := by
      refine List.find?_eq_none.mpr ?_
      intro other ho hn
      exact hmem (List.mem_map.mpr ⟨other, ho, of_decide_eq_true hn⟩)
    rw [hnone, Option.map_none] at hdispatch
    have hlearn : learn (others.map (·.2.name)) (.connect user false)
        = (others ++ [(s.roster.nextHandle, user)]).map (·.2.name) := by
      rw [learn, if_neg hmem, List.map_append]
      rfl
    rw [hlearn]
    refine ⟨by rw [hdispatch], by rw [hdispatch], ?_, by rw [hdispatch]⟩
    rw [hdispatch]
    refine ⟨address, others ++ [(s.roster.nextHandle, user)], rfl, ?_⟩
    rw [List.map_append, ← List.cons_append]
    exact holds_link hold (.named user)

/-- The first of the others with a name, and those around it. -/
theorem split_of_find? {others : List (Handle × Identity)} {name : String}
    {found : Handle × Identity}
    (h : (others.find? fun other => decide (other.2.name = name)) = some found) :
    ∃ before after, others = before ++ found :: after
      ∧ (others.map (·.2.name)).erase name = (before ++ after).map (·.2.name) := by
  obtain ⟨hname, before, after, rfl, hbefore⟩ := List.find?_eq_some_iff_append.mp h
  refine ⟨before, after, rfl, ?_⟩
  have hn : found.2.name = name := of_decide_eq_true hname
  have hnot : name ∉ before.map (·.2.name) := by
    intro hm
    obtain ⟨other, ho, he⟩ := List.mem_map.mp hm
    have := hbefore other ho
    simp [he] at this
  rw [List.map_append, List.map_cons, hn, List.erase_append_right _ hnot, List.erase_cons_head,
    List.map_append]

/-- A member that leaves is unlinked, if it was known. -/
theorem takes_disconnect {s : Client} {own : Option Identity} {known : List String}
    (h : s.Knows own known) (name : String) :
    s.Takes (.disconnect name) own (learn known (.disconnect name)) s.status := by
  obtain ⟨address, others, rfl, hold⟩ := h
  have hfind := findMember_of_mirrored hold name
  have hdispatch : handler.dispatch s.home (.disconnect name) s = onDisconnect s.home name s := rfl
  rw [onDisconnect, hfind] at hdispatch
  cases hf : others.find? fun other => decide (other.2.name = name) with
  | none =>
      rw [hf, Option.map_none, Option.bind_none] at hdispatch
      have hnot : name ∉ others.map (·.2.name) := by
        intro hm
        obtain ⟨other, ho, hn⟩ := List.mem_map.mp hm
        have := List.find?_eq_none.mp hf other ho
        simp [hn] at this
      have hlearn : learn (others.map (·.2.name)) (.disconnect name) = others.map (·.2.name) :=
        List.erase_of_not_mem hnot
      rw [hlearn]
      refine ⟨by rw [hdispatch], by rw [hdispatch], ?_, by rw [hdispatch]⟩
      rw [hdispatch]
      exact ⟨address, others, rfl, hold⟩
  | some found =>
      -- the first with the name goes, as `erase` has it
      obtain ⟨before, after, rfl, hlearn⟩ := split_of_find? hf
      rw [List.map_append, List.map_cons, ← List.cons_append] at hold
      obtain ⟨roster, hu, hr⟩ := unlink_of_holds hold
      rw [hf, Option.map_some, Option.bind_some, hu] at hdispatch
      rw [show learn _ (.disconnect name) = _ from hlearn]
      refine ⟨by rw [hdispatch], by rw [hdispatch], ?_, by rw [hdispatch]⟩
      rw [hdispatch]
      refine ⟨address, before ++ after, rfl, ?_⟩
      rw [List.map_append, ← List.cons_append]
      exact hr

/-! ## Many records -/

/-- A record that tells a member of the others, or shows it something. -/
def Tells : Record → Prop
  | .stdout _ | .connect _ false | .disconnect _ => True
  | .connect _ true | .userInfo _ | .message _ => False

theorem tells_normal {record : Record} (hr : Tells record) : Tells record.normal := by
  cases record with
  | stdout text => trivial
  | userInfo user => exact absurd hr id
  | connect user validateOnly =>
      cases validateOnly with
      | false => trivial
      | true => exact absurd hr id
  | disconnect name => trivial
  | message text => exact absurd hr id

theorem takes_of_tells {s : Client} {own : Option Identity} {known : List String}
    (h : s.Knows own known) {record : Record} (hr : Tells record) :
    s.Takes record own (learn known record) s.status := by
  cases record with
  | stdout text => exact takes_stdout h text
  | userInfo user => exact absurd hr id
  | connect user validateOnly =>
      cases validateOnly with
      | false => exact takes_connect h user
      | true => exact absurd hr id
  | disconnect name => exact takes_disconnect h name
  | message text => exact absurd hr id

/-- Hands records to a client one after the other, each written and read back on the way. -/
def feed (s : Client) : List Record → List (Except FrameError (Except Refusal Verdict)) × Client
  | [] => ([], s)
  | record :: rest =>
    match Record.decode record.encode with
    | .error e =>
      let (answers, s) := feed s rest
      (.error e :: answers, s)
    | .ok record =>
      let (answer, s) := handler.dispatch s.home record s
      let (answers, s) := feed s rest
      (.ok answer :: answers, s)

theorem feed_cons (s : Client) (record : Record) (rest : List Record) :
    s.feed (record :: rest) =
      (.ok (handler.dispatch s.home record.normal s).1
          :: ((handler.dispatch s.home record.normal s).2.feed rest).1,
        ((handler.dispatch s.home record.normal s).2.feed rest).2) := by
  have hdecode := Record.decode_encode record []
  rw [List.append_nil] at hdecode
  rw [feed, hdecode]

/-- **News after news, the client knows what it has learnt.** -/
theorem knows_feed {s : Client} {own : Option Identity} {known : List String}
    (h : s.Knows own known) {records : List Record} (hr : ∀ record ∈ records, Tells record) :
    (∀ answer ∈ (s.feed records).1, answer = .ok (.ok .proceed))
      ∧ (s.feed records).2.Knows own ((records.map Record.normal).foldl learn known)
      ∧ (s.feed records).2.status = s.status := by
  induction records generalizing s known with
  | nil => exact ⟨by intro answer ha; simp [feed] at ha, h, rfl⟩
  | cons record rest ih =>
      have htakes := takes_of_tells h (tells_normal (hr record List.mem_cons_self))
      obtain ⟨hanswers, hknows, hstatus⟩ := ih htakes.knows fun r hm =>
        hr r (List.mem_cons_of_mem _ hm)
      rw [feed_cons]
      refine ⟨?_, hknows, hstatus.trans htakes.status⟩
      intro answer ha
      rcases List.mem_cons.mp ha with rfl | ha
      · rw [htakes.proceeds]
      · exact hanswers answer ha

/-- What a client has become that was admitted, and then read news. -/
theorem knows_admitted (address : Option SocketAddress) (user : Identity) {records : List Record}
    (hr : ∀ record ∈ records, Tells record) :
    (∀ answer ∈ ((start address).feed (.connect user true :: records)).1,
        answer = .ok (.ok .proceed))
      ∧ ((start address).feed (.connect user true :: records)).2.Knows (some user.normal)
          ((records.map Record.normal).foldl learn [])
      ∧ ((start address).feed (.connect user true :: records)).2.status = .ready := by
  have htakes := takes_admission (knows_start address) user.normal
  obtain ⟨hanswers, hknows, hstatus⟩ := knows_feed htakes.knows hr
  rw [feed_cons]
  refine ⟨?_, hknows, hstatus.trans htakes.status⟩
  intro answer ha
  rcases List.mem_cons.mp ha with rfl | ha
  · exact congrArg Except.ok htakes.proceeds
  · exact hanswers answer ha

end Client

end ChatRoom
