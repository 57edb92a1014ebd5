import Mathlib.Data.List.Basic
import ChatRoom.Proofs.Mirror
import ChatRoom.Proofs.PlainList

/-!
# A client and any server

A client has no means to check what it is told. Whatever comes in from the server, in whatever order
and as often as it likes, the client is determined by it: who it is, whom it knows, what it has
shown, and whether it is ready. This module says how. The records need make no sense: a member may
be announced before the client is admitted or under the client's own name, the client may be
admitted again and again, and somebody unknown may leave.

The roster behind it is the one that `Knows` describes, and each record does to it what `learn`
says. The client's own connection stands in front of it all the time, and nothing is ever queued on
it.
-/

namespace ChatRoom

open Arena

namespace Client

/-- The identity that a record admits the client as. -/
def admits? : Record → Option Identity
  | .connect user true => some user
  | .connect _ false | .stdout _ | .userInfo _ | .disconnect _ | .message _ => none

/-- The identities that the client was admitted as, the last one at the end. -/
def admissions (records : List Record) : List Identity := records.filterMap admits?

/-- How the client shows that somebody has left. -/
def farewell (name : String) : String :=
  "Client " ++ LogEntry.quoted name ++ " has disconnected\n"

/-- What the client shows of some records if it knows these names. -/
def shown (known : List String) : List Record → Transcript
  | [] => []
  | record :: rest =>
    match record with
    | .stdout text => text :: shown known rest
    | .disconnect name =>
      if name ∈ known then farewell name :: shown (known.erase name) rest else shown known rest
    | .connect user validateOnly => shown (learn known (.connect user validateOnly)) rest
    | .userInfo _ | .message _ => shown known rest

/-- What a record is answered. Those that only clients send are refused. -/
def answer : Record → Except Refusal Verdict
  | .userInfo _ => .error (.unsupported .userInfo "client")
  | .message _ => .error (.unsupported .message "client")
  | .stdout _ | .connect .. | .disconnect _ => .ok .proceed

/-- Hands records to a client one after the other, as coming from its own connection. -/
def listen (s : Client) : List Record → List (Except Refusal Verdict) × Client
  | [] => ([], s)
  | record :: rest =>
    let (answer, s) := handler.dispatch s.home record s
    let (answers, s) := s.listen rest
    (answer :: answers, s)

/-- A client that was told these records, and nothing else. -/
structure Told (s : Client) (records : List Record) : Prop where
  /-- The name that it was last admitted under, and then the others. -/
  members : s.memberNames
    = ((admissions records).getLast?.map (·.name)).toList ++ records.foldl learn []
  status : s.status = if admissions records = [] then .pending else .ready
  console : s.console = shown [] records
  /-- Its own connection is still there, -/
  home : (s.connection? s.home).isSome
  /-- and has nothing queued, is not ended and was not told to stop. -/
  outbox : s.outbox = {}

/-- A client that has closed its own connection and forgotten everyone. -/
structure Over (s : Client) : Prop where
  members : s.memberNames = []
  status : s.status = .closed
  home : s.connection? s.home = none
  /-- The outbox has ended without a record, and whoever reads for the client was told to stop. -/
  outbox : s.outbox = { sending := false, stopped := true }

section

variable {s : Client} {own : Option Identity} {known : List String}

/-! ## One record -/

/-- A record takes the client to what it has learnt from it. -/
theorem takes_record (h : s.Knows own known) {record : Record} (ha : answer record = .ok .proceed) :
    s.Takes record ((admits? record).or own) (learn known record)
      (if (admits? record).isSome then .ready else s.status) := by
  cases record with
  | stdout text => exact takes_stdout h text
  | userInfo user => exact absurd ha (by simp [answer])
  | connect user validateOnly =>
      cases validateOnly with
      | false => exact takes_connect h user
      | true => exact takes_admission h user
  | disconnect name => exact takes_disconnect h name
  | message text => exact absurd ha (by simp [answer])

/-- A record that is refused leaves the client as it was. -/
theorem dispatch_of_refused (s : Client) (known : List String) {record : Record} {refusal : Refusal}
    (ha : answer record = .error refusal) :
    handler.dispatch s.home record s = (.error refusal, s)
      ∧ admits? record = none ∧ learn known record = known := by
  cases record with
  | userInfo user =>
      obtain rfl := Except.error.inj ha
      exact ⟨rfl, rfl, rfl⟩
  | message text =>
      obtain rfl := Except.error.inj ha
      exact ⟨rfl, rfl, rfl⟩
  | stdout text => exact absurd ha (by simp [answer])
  | connect user validateOnly => exact absurd ha (by simp [answer])
  | disconnect name => exact absurd ha (by simp [answer])

/-- Letting a member go that is only a name lets no outbox go, and is shown. -/
theorem room_disconnect (h : s.Knows own known) (name : String) :
    (onDisconnect s.home name s).2.mail = s.mail
      ∧ (onDisconnect s.home name s).2.console = s.console ++ shown known [.disconnect name] := by
  obtain ⟨address, others, rfl, hold⟩ := h
  unfold onDisconnect
  rw [findMember_of_mirrored hold]
  cases hf : others.find? fun other => decide (other.2.name = name) with
  | none =>
      have hnot : name ∉ others.map (·.2.name) := by
        intro hm
        obtain ⟨other, ho, hn⟩ := List.mem_map.mp hm
        exact List.find?_eq_none.mp hf other ho (decide_eq_true hn)
      rw [shown, if_neg hnot, shown, List.append_nil]
      exact ⟨rfl, rfl⟩
  | some found =>
      have hname : found.2.name = name := by simpa using List.find?_some hf
      have hm : name ∈ others.map (·.2.name) :=
        List.mem_map.mpr ⟨found, List.mem_of_find?_eq_some hf, hname⟩
      obtain ⟨before, after, rfl, -⟩ := split_of_find? hf
      rw [List.map_append, List.map_cons, ← List.cons_append] at hold
      obtain ⟨roster, hu, -⟩ := unlink_of_holds hold
      rw [Option.map_some, Option.bind_some, hu, shown, if_pos hm, shown]
      exact ⟨rfl, rfl⟩

/-- **No record queues anything**, and what it shows is added to what was shown. -/
theorem room_dispatch (h : s.Knows own known) (record : Record) :
    (handler.dispatch s.home record s).2.mail = s.mail
      ∧ (handler.dispatch s.home record s).2.console = s.console ++ shown known [record] := by
  cases record with
  | stdout text => exact ⟨rfl, rfl⟩
  | userInfo user => exact ⟨rfl, (List.append_nil _).symm⟩
  | connect user validateOnly =>
      cases validateOnly with
      | true => exact ⟨rfl, (List.append_nil _).symm⟩
      | false =>
          change (onConnect s.home user false s).2.mail = _
            ∧ (onConnect s.home user false s).2.console = s.console ++ []
          rw [List.append_nil, onConnect, if_neg (by simp)]
          split <;> exact ⟨rfl, rfl⟩
  | disconnect name => exact room_disconnect h name
  | message text => exact ⟨rfl, (List.append_nil _).symm⟩

/-- What one record does to a client. -/
theorem dispatch_of_knows (h : s.Knows own known) (record : Record) :
    (handler.dispatch s.home record s).1 = answer record
      ∧ (handler.dispatch s.home record s).2.home = s.home
      ∧ (handler.dispatch s.home record s).2.Knows ((admits? record).or own) (learn known record)
      ∧ (handler.dispatch s.home record s).2.status
          = if (admits? record).isSome then .ready else s.status := by
  cases ha : answer record with
  | ok verdict =>
      have hproceed : answer record = .ok .proceed := by
        cases record <;> first | rfl | exact absurd ha (by simp [answer])
      have htakes := takes_record h hproceed
      exact ⟨htakes.proceeds.trans (hproceed.symm.trans ha), htakes.home, htakes.knows,
        htakes.status⟩
  | error refusal =>
      obtain ⟨hsame, hnone, hlearn⟩ := dispatch_of_refused s known ha
      rw [hsame, hnone, hlearn]
      exact ⟨rfl, rfl, h, rfl⟩

/-! ## Many records -/

theorem shown_cons (known : List String) (record : Record) (rest : List Record) :
    shown known (record :: rest) = shown known [record] ++ shown (learn known record) rest := by
  cases record with
  | disconnect name =>
      by_cases hm : name ∈ known
      · simp [shown, learn, hm]
      · simp [shown, learn, hm, List.erase_of_not_mem hm]
  | stdout text => rfl
  | userInfo user => rfl
  | connect user validateOnly => rfl
  | message text => rfl

theorem admissions_cons (record : Record) (rest : List Record) :
    admissions (record :: rest) = (admits? record).toList ++ admissions rest := by
  unfold admissions
  rw [List.filterMap_cons]
  cases admits? record <;> rfl

/-- **Record after record, the client is what it was told.** -/
theorem listen_of_knows (h : s.Knows own known) (records : List Record) :
    (s.listen records).1 = records.map answer
      ∧ (s.listen records).2.home = s.home
      ∧ (s.listen records).2.Knows ((admissions records).getLast?.or own)
          (records.foldl learn known)
      ∧ (s.listen records).2.status = (if admissions records = [] then s.status else .ready)
      ∧ (s.listen records).2.mail = s.mail
      ∧ (s.listen records).2.console = s.console ++ shown known records := by
  induction records generalizing s own known with
  | nil => exact ⟨rfl, rfl, h, rfl, rfl, (List.append_nil _).symm⟩
  | cons record rest ih =>
      obtain ⟨hanswer, hhome, hknows, hstatus⟩ := dispatch_of_knows h record
      obtain ⟨hmail, hconsole⟩ := room_dispatch h record
      obtain ⟨hanswers, hhome', hknows', hstatus', hmail', hconsole'⟩ := ih hknows
      -- a later admission counts for more than this one
      have hlast : (admissions (record :: rest)).getLast?.or own
          = (admissions rest).getLast?.or ((admits? record).or own) := by
        rw [admissions_cons, List.getLast?_append, Option.or_assoc]
        cases admits? record <;> rfl
      refine ⟨?_, hhome'.trans hhome, hlast ▸ hknows', ?_, hmail'.trans hmail, ?_⟩
      · rw [List.map_cons, ← hanswer, ← hanswers]
        rfl
      · refine hstatus'.trans ?_
        rw [hstatus, admissions_cons]
        cases admits? record with
        | none => rfl
        | some user =>
            rw [Option.isSome_some, if_pos rfl, ite_self]
            rfl
      · refine hconsole'.trans ?_
        rw [hconsole, List.append_assoc, ← shown_cons]

/-! ## The end -/

/-- Its own connection is found, whether it was admitted or not. -/
theorem connection?_home (h : s.Knows own known) : (s.connection? s.home).isSome := by
  obtain ⟨address, others, -, hold⟩ := h
  have hget := (get?_eq_some_iff hold).mpr List.mem_cons_self
  rw [Room.connection?, hget]
  rfl

/-- Closing ends the one outbox that there is. -/
theorem over_of_closed (h : s.Knows own known) (hmail : s.mail = ({} : Mail).add.2) (k : Handle) :
    (handler.onClosed k s).Over := by
  obtain ⟨address, others, -, hold⟩ := h
  obtain ⟨-, hleft, hended⟩ := Roster.disconnectEach_of_listed _ hold s.mail
  rw [← toList_of_holds hold] at hleft hended
  have houtboxes : s.roster.toList.flatMap (·.2.outbox.toList) = [0] := by
    have hnone : ∀ item ∈ others.map mirrored, item.2.outbox.toList = [] := by
      intro item hm
      obtain ⟨other, -, rfl⟩ := List.mem_map.mp hm
      rfl
    rw [toList_of_holds hold, List.flatMap_cons, List.flatMap_congr hnone]
    cases own <;> simp [ownConnection, Connection.remote]
  rw [houtboxes] at hended
  refine ⟨?_, rfl, (get?_eq_none_iff hleft).mpr (by simp), ?_⟩
  · show Roster.memberNames (Roster.disconnectEach _ s.roster s.mail).2.1 = []
    rw [Roster.memberNames, Roster.members, toList_of_holds hleft]
    rfl
  · show Mail.box (Roster.disconnectEach _ s.roster s.mail).2.2 0 = _
    rw [hended, hmail]
    rfl

end

/-- **Whatever a server says, a client is what it was told.** Records that only clients send are
refused and change nothing. When the client is closed it forgets everyone, and its own connection
ends. -/
theorem listen_told (address : Option SocketAddress) (records : List Record) :
    ((start address).listen records).1 = records.map answer
      ∧ ((start address).listen records).2.home = (start address).home
      ∧ ((start address).listen records).2.Told records
      ∧ (∀ user, handler.dispatch (start address).home (.userInfo user)
            ((start address).listen records).2
          = (.error (.unsupported .userInfo "client"), ((start address).listen records).2))
      ∧ (∀ text, handler.dispatch (start address).home (.message text)
            ((start address).listen records).2
          = (.error (.unsupported .message "client"), ((start address).listen records).2))
      ∧ ∀ k, (handler.onClosed k ((start address).listen records).2).Over := by
  obtain ⟨hanswers, hhome, hknows, hstatus, hmail, hconsole⟩ :=
    listen_of_knows (knows_start address) records
  have hnew : (start address).mail = ({} : Mail).add.2 := rfl
  rw [Option.or_none] at hknows
  have htold : ((start address).listen records).2.Told records :=
    { members := memberNames_of_knows hknows
      status := hstatus
      console := hconsole
      home := connection?_home hknows
      outbox := by
        rw [outbox, hmail]
        rfl }
  exact ⟨hanswers, hhome, htold, fun _ => rfl, fun _ => rfl,
    over_of_closed hknows (hmail.trans hnew)⟩

/-- Members announced too early, a name of its own that comes back, and a second admission. -/
example : ((start none).listen [.connect ⟨"bob", .current⟩ false, .connect ⟨"ann", .current⟩ false,
      .connect ⟨"ann", .current⟩ true, .connect ⟨"bob", .current⟩ false, .disconnect "bob",
      .disconnect "bob", .connect ⟨"bob", .current⟩ false,
      .connect ⟨"eve", .current⟩ true]).2.memberNames = ["eve", "ann", "bob"] := by
  decide +kernel

end Client

end ChatRoom
