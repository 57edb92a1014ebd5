import ChatRoom.Proofs.Situations

/-!
# What the server refuses

There are three grounds for refusing a record: nobody sends such a record to a server, the sender
has presented itself before, or it is no member. A record can also come too late. The connection
that it was read from has been taken down, and the handle that it comes under finds nothing, like
one that was never given out; the answer is then to stop reading.

Neither leaves anything behind. `refused_without_trace` says when it happens, and that the server is
the same afterwards, down to its slots, its outboxes and its log. Each handler looks up who has sent
the record, and how far that one has come, before it changes anything.
-/

namespace ChatRoom

open Arena

namespace Server

/-- The grounds on which a record is refused, each with what is answered. -/
inductive Objection (s : Server) (origin : Handle) : Record → Refusal → Prop where
  | stdout (text : String) : Objection s origin (.stdout text) (.unsupported .stdout "server")
  | connect (user : Identity) (validateOnly : Bool) :
      Objection s origin (.connect user validateOnly) (.unsupported .connect "server")
  /-- A linked connection presents itself once. -/
  | presented {c : Connection} (hc : (origin, c) ∈ s.roster.toList)
      (hstage : c.stage ≠ .connected) (user : Identity) :
      Objection s origin (.userInfo user) .alreadyValidated
  /-- Only members say something. -/
  | message {c : Connection} (hc : (origin, c) ∈ s.roster.toList)
      (hstage : c.stage ≠ .validated) (text : String) :
      Objection s origin (.message text) (.notValidated .message)
  /-- Only members have others removed. -/
  | disconnect {c : Connection} (hc : (origin, c) ∈ s.roster.toList)
      (hstage : c.stage ≠ .validated) (name : String) :
      Objection s origin (.disconnect name) (.notValidated .disconnect)

/-- No connection is linked under a handle. -/
def Unlinked (s : Server) (origin : Handle) : Prop := ∀ c, (origin, c) ∉ s.roster.toList

/-- How a server treats a record that it refuses, or that comes too late. -/
structure Fends (s : Server) (origin : Handle) (record : Record) : Prop where
  /-- A record is refused if there is an objection to it, and only then. -/
  error_iff : ∀ refusal, (Server.handler.dispatch origin record s).1 = .error refusal
    ↔ s.Objection origin record refusal
  /-- A refused record changes nothing. -/
  refused : ∀ refusal, (Server.handler.dispatch origin record s).1 = .error refusal →
    (Server.handler.dispatch origin record s).2 = s
  /-- Neither does a record from nobody. -/
  late : s.Unlinked origin → (Server.handler.dispatch origin record s).2 = s
  /-- If it is of a kind that members send, nothing more is read. -/
  close : s.Unlinked origin → record.kind ≠ .stdout → record.kind ≠ .connect →
    (Server.handler.dispatch origin record s).1 = .ok .close
  /-- That nobody has closed changes nothing either. -/
  closed : s.Unlinked origin → Server.handler.onClosed origin s = s

variable {s : Server} {version : Version} {origin : Handle}

/-! ## The two kinds of handlers -/

section Handlers

variable {c : Connection} {kind : Kind} {request : Connection → Room} {user : Identity}
  {refusal : Refusal}

theorem asMember_of_none (hc : s.connection? origin = none) :
    s.asMember origin kind request = (.ok .close, s) := by
  rw [asMember, hc]

theorem asMember_of_not_validated (hc : s.connection? origin = some c)
    (hstage : c.stage ≠ .validated) :
    s.asMember origin kind request = (.error (.notValidated kind), s) := by
  have hvalid : ¬ c.isValidated = true := by simpa [Connection.isValidated] using hstage
  rw [asMember, hc]
  exact if_neg hvalid

theorem not_validated_of_asMember (h : (s.asMember origin kind request).1 = .error refusal) :
    ∃ c, s.connection? origin = some c ∧ c.stage ≠ .validated ∧ refusal = .notValidated kind := by
  unfold asMember at h
  split at h
  · exact absurd h (by simp)
  · rename_i c hc
    split at h
    · exact absurd h (by simp)
    · rename_i hvalid
      refine ⟨c, hc, ?_, (Except.error.inj h).symm⟩
      simpa [Connection.isValidated] using hvalid

theorem onUserInfo_of_none (hc : s.connection? origin = none) :
    s.onUserInfo origin user = (.ok .close, s) := by
  rw [onUserInfo, hc]

theorem onUserInfo_of_presented (hc : s.connection? origin = some c)
    (hstage : c.stage ≠ .connected) :
    s.onUserInfo origin user = (.error .alreadyValidated, s) := by
  rw [onUserInfo, hc]
  exact if_pos hstage

theorem presented_of_onUserInfo (h : (s.onUserInfo origin user).1 = .error refusal) :
    ∃ c, s.connection? origin = some c ∧ c.stage ≠ .connected ∧ refusal = .alreadyValidated := by
  unfold onUserInfo at h
  split at h
  · exact absurd h (by simp)
  · rename_i c hc
    split at h
    · rename_i hstage
      exact ⟨c, hc, hstage, (Except.error.inj h).symm⟩
    · -- once the checks have begun, the answer is a verdict
      dsimp only at h
      split at h <;> exact absurd h (by simp)

end Handlers

/-! ## Every record -/

/-- What there is an objection to is refused with it, and changes nothing. -/
theorem dispatch_of_objection (h : s.InOrder version) {record : Record} {refusal : Refusal}
    (hobjection : s.Objection origin record refusal) :
    Server.handler.dispatch origin record s = (.error refusal, s) := by
  cases hobjection with
  | stdout text => rfl
  | connect user validateOnly => rfl
  | presented hc hstage user => exact onUserInfo_of_presented ((h.listed _ _).mpr hc) hstage
  | message hc hstage text => exact asMember_of_not_validated ((h.listed _ _).mpr hc) hstage
  | disconnect hc hstage name => exact asMember_of_not_validated ((h.listed _ _).mpr hc) hstage

/-- What is refused is refused on one of the grounds. -/
theorem objection_of_error (h : s.InOrder version) {record : Record} {refusal : Refusal}
    (herror : (Server.handler.dispatch origin record s).1 = .error refusal) :
    s.Objection origin record refusal := by
  cases record with
  | stdout text =>
      obtain rfl := Except.error.inj herror
      exact .stdout text
  | connect user validateOnly =>
      obtain rfl := Except.error.inj herror
      exact .connect user validateOnly
  | userInfo user =>
      obtain ⟨c, hc, hstage, rfl⟩ := presented_of_onUserInfo herror
      exact .presented ((h.listed _ _).mp hc) hstage user
  | message text =>
      obtain ⟨c, hc, hstage, rfl⟩ := not_validated_of_asMember herror
      exact .message ((h.listed _ _).mp hc) hstage text
  | disconnect name =>
      obtain ⟨c, hc, hstage, rfl⟩ := not_validated_of_asMember herror
      exact .disconnect ((h.listed _ _).mp hc) hstage name

theorem connection?_of_unlinked (h : s.InOrder version) (hlate : s.Unlinked origin) :
    s.connection? origin = none :=
  Option.eq_none_iff_forall_ne_some.mpr fun c hc => hlate c ((h.listed _ _).mp hc)

/-- What comes from nobody is refused, or is the last that is read; it changes nothing. -/
theorem dispatch_of_unlinked (h : s.InOrder version) (hlate : s.Unlinked origin)
    (record : Record) : (∃ refusal, s.Objection origin record refusal
        ∧ (record.kind = .stdout ∨ record.kind = .connect))
      ∨ Server.handler.dispatch origin record s = (.ok .close, s) := by
  have hnone := connection?_of_unlinked h hlate
  cases record with
  | stdout text => exact Or.inl ⟨_, .stdout text, Or.inl rfl⟩
  | connect user validateOnly => exact Or.inl ⟨_, .connect user validateOnly, Or.inr rfl⟩
  | userInfo user => exact Or.inr (onUserInfo_of_none hnone)
  | message text => exact Or.inr (asMember_of_none hnone)
  | disconnect name => exact Or.inr (asMember_of_none hnone)

/-- Nobody is taken down who is not there. -/
theorem onClosed_of_unlinked {hall : Hall Handle} (hseated : Seated s hall)
    (h : s.InOrder version) (hlate : s.Unlinked origin) :
    Server.handler.onClosed origin s = s := by
  have hfind := find?_of_connection?_eq_none hseated (connection?_of_unlinked h hlate)
  show { s with toRoom := s.toRoom.teardown origin } = s
  rw [teardown_of_none hseated.roster hfind]

theorem fends_of_seated {hall : Hall Handle} (hseated : Seated s hall) (h : s.InOrder version)
    (origin : Handle) (record : Record) : s.Fends origin record where
  error_iff refusal := by
    constructor
    · exact objection_of_error h
    · intro hobjection
      rw [dispatch_of_objection h hobjection]
  refused refusal herror := by
    rw [dispatch_of_objection h (objection_of_error h herror)]
  late hlate := by
    rcases dispatch_of_unlinked h hlate record with ⟨refusal, hobjection, -⟩ | hclose
    · rw [dispatch_of_objection h hobjection]
    · rw [hclose]
  close hlate hstdout hconnect := by
    rcases dispatch_of_unlinked h hlate record with ⟨refusal, -, hkind⟩ | hclose
    · exact absurd hkind (not_or.mpr ⟨hstdout, hconnect⟩)
    · rw [hclose]
  closed hlate := onClosed_of_unlinked hseated h hlate

end Server

/-- **What is refused, and what comes too late, leaves no trace.** Whatever was asked of a server
before, and whoever sends a record, it is refused only if there is an objection to it. Then nothing
has changed, and nothing changes by a record or an ending of a connection that is not linked. -/
theorem refused_without_trace (version : Version) (requests : List (Request Handle))
    (origin : Handle) (record : Record) :
    (({ version } : Server).run requests).Fends origin record := by
  obtain ⟨-, hall, hseated⟩ := Server.seated_run (Server.seated_empty version) requests
  exact Server.fends_of_seated hseated (Server.run_inOrder version requests) origin record

/-- A member has left, and its slot has been taken by one who has not presented itself. -/
def relet : List (Request Handle) :=
  [.register none, .dispatch ⟨0, 0⟩ (.userInfo ⟨"ann", .current⟩), .close ⟨0, 0⟩, .register none]

/-- Under the old handle a message comes too late, and under the new one it is refused. -/
theorem refused_relet :
    Server.handler.dispatch ⟨0, 0⟩ (.message "hé") (({} : Server).run relet)
        = (.ok .close, ({} : Server).run relet)
      ∧ Server.handler.dispatch ⟨0, 1⟩ (.message "hé") (({} : Server).run relet)
        = (.error (.notValidated .message), ({} : Server).run relet) := by
  have hlate := refused_without_trace .current relet ⟨0, 0⟩ (.message "hé")
  have hearly := refused_without_trace .current relet ⟨0, 1⟩ (.message "hé")
  have hunlinked : (({} : Server).run relet).Unlinked ⟨0, 0⟩ := by
    have hkeys : (⟨0, 0⟩ : Handle) ∉ (({} : Server).run relet).roster.toList.map (·.1) := by
      decide +kernel
    exact fun c hc => hkeys (List.mem_map_of_mem hc)
  have hobjection : (({} : Server).run relet).Objection ⟨0, 1⟩ (.message "hé")
      (.notValidated .message) :=
    .message (c := .remote none 1) (by decide +kernel) (by decide) "hé"
  have herror := (hearly.error_iff _).mpr hobjection
  exact ⟨Prod.ext (hlate.close hunlinked (by decide) (by decide)) (hlate.late hunlinked),
    Prod.ext herror (hearly.refused _ herror)⟩

end ChatRoom
