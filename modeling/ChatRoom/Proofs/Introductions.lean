import ChatRoom.Proofs.PassingOn
import ChatRoom.Proofs.Situations

/-!
# What members are called by the others

The server tells every member of every other, by name. It lets nobody in under a name that is taken,
so the names that it holds are different at any moment. What the others read is another matter: a
name is cut to its limit when it is written, and a name that was read from bytes that are no text
may have outgrown that limit.

So two members are called alike by everyone else exactly if the limit leaves the same of both names.
That asks for a name that outgrew its limit, and never happens between names that were texts to
begin with; `introduced_apart` says so, and `lookalikes_introduced_alike` that it can happen.
-/

namespace ChatRoom

open Arena

/-! ## Who is told of whom -/

theorem mem_addressed {n : Nat} {record : Record} {letters : List Letter} :
    record ∈ addressed n letters ↔ (n, record) ∈ letters := by
  rw [addressed, List.mem_filterMap]
  constructor
  · intro h
    obtain ⟨⟨m, r⟩, hm, he⟩ := h
    by_cases hn : m = n
    · rw [if_pos hn, Option.some.injEq] at he
      rw [← hn, ← he]
      exact hm
    · rw [if_neg hn] at he
      exact absurd he (by simp)
  · intro h
    exact ⟨(n, record), h, if_pos rfl⟩

namespace Hall

variable {ι : Type}

/-- Every member has been told of every other, if what is queued for it is taken. -/
def Introduced (hall : Hall ι) (mail : Mail) : Prop :=
  ∀ m ∈ hall.members, ∀ other ∈ hall.members, m.1.outbox ≠ other.1.outbox →
    (mail.box m.1.outbox).receiving = true →
      .connect other.2 false ∈ (mail.box m.1.outbox).records

/-- What is delivered is added to what is held. -/
theorem mem_records_deliver {hall : Hall ι} {mail : Mail} {news : Option News} {n : Nat}
    (hlive : ((hall.deliver mail news).box n).receiving = true) :
    (mail.box n).receiving = true
      ∧ (∀ record ∈ (mail.box n).records, record ∈ ((hall.deliver mail news).box n).records)
      ∧ ∀ told, news = some told → ∀ record, (n, record) ∈ hall.letters told →
          record ∈ ((hall.deliver mail news).box n).records := by
  cases news with
  | none => exact ⟨hlive, fun _ hr => hr, fun told ht => absurd ht (by simp)⟩
  | some told =>
      obtain ⟨hrecords, hreceiving⟩ := mail.box_endAll (hall.ended told) n
      rw [deliver] at hlive ⊢
      rw [Mail.box_postAll] at hlive ⊢
      have hheld : (mail.box n).receiving = true := hreceiving ▸ hlive
      show _ ∧ (∀ record ∈ _, record ∈ (Mail.box _ n).records ++ _)
        ∧ ∀ t, some told = some t → ∀ record, _ → record ∈ (Mail.box _ n).records ++ _
      rw [if_pos hlive, hrecords]
      refine ⟨hheld, fun record hr => List.mem_append_left _ hr, ?_⟩
      intro t ht record hletter
      obtain rfl := Option.some.inj ht
      exact List.mem_append_right _ (mem_addressed.mpr hletter)

variable [DecidableEq ι] {version : Version} {hall : Hall ι}

/-- A member is one that there was, or has just presented itself. -/
theorem mem_members_step (hs : hall.Sound version) {fresh : ι} {request : Request ι}
    {m : Seat ι × Identity} (hm : m ∈ (hall.step version fresh request).1.members) :
    m ∈ hall.members ∨ ∃ origin, request = .dispatch origin (.userInfo m.2) := by
  rcases request.register_or with ⟨address, rfl⟩ | hq
  · rw [members_register] at hm
    exact Or.inl hm
  · have hmove := move_step version fresh hall hq
    generalize hout : hall.step version fresh request = outcome at hmove hm
    cases hmove with
    | stay => exact Or.inl hm
    | refuse hseat hw user denial =>
        exact Or.inl ((members_place_perm hs.keys hseat hw (.refused user)).mem_iff.mp hm)
    | welcome hseat hw hd =>
        rcases List.mem_cons.mp ((members_place_perm hs.keys hseat hw _).mem_iff.mp hm)
          with rfl | hold
        · exact Or.inr (presented_of_admitted (by rw [hout]))
        · exact Or.inl hold
    | say hspeaker text => exact Or.inl hm
    | leave hseat =>
        obtain ⟨hms, hst⟩ := mem_membersOf.mp hm
        exact Or.inl (mem_membersOf.mpr ⟨(List.mem_filter.mp hms).1, hst⟩)
    | empty => exact absurd hm (by simp [members, membersOf])

omit [DecidableEq ι] in
/-- Members that there were before some news go on knowing each other. -/
theorem introduced_of_subset {mail : Mail} (hi : hall.Introduced mail) {hall' : Hall ι}
    (hsub : ∀ m ∈ hall'.members, m ∈ hall.members) (news : Option News) :
    hall'.Introduced (hall.deliver mail news) := by
  intro m hm other ho hne hlive
  obtain ⟨hheld, hkeep, -⟩ := mem_records_deliver hlive
  exact hkeep _ (hi m (hsub m hm) other (hsub other ho) hne hheld)

/-- A newcomer and the members are told of each other. -/
theorem introduced_welcome (hs : hall.Sound version) {mail : Mail} (hi : hall.Introduced mail)
    {seat : Seat ι} (hseat : seat ∈ hall.seats) (hw : seat.standing = .waiting) (user : Identity) :
    (hall.place seat.key (.member user)).Introduced
      (hall.deliver mail (some (.admitted seat.outbox user (hall.members.map (·.2))))) := by
  have hmem : ∀ m, m ∈ (hall.place seat.key (.member user)).members →
      m = ({ seat with standing := .member user }, user) ∨ m ∈ hall.members := fun m hm =>
    List.mem_cons.mp ((members_place_perm hs.keys hseat hw (.member user)).mem_iff.mp hm)
  have hletters : ∀ m ∈ hall.members, ∀ letter ∈
      ([(seat.outbox, .connect m.2 false), (m.1.outbox, .connect user false)] : List Letter),
      letter ∈ hall.letters (.admitted seat.outbox user (hall.members.map (·.2))) := by
    intro m hm letter hl
    exact List.mem_append_right _ (List.mem_cons_of_mem _ (List.mem_flatMap.mpr ⟨m, hm, hl⟩))
  intro m hm other ho hne hlive
  obtain ⟨hheld, hkeep, hnew⟩ := mem_records_deliver hlive
  rcases hmem m hm with rfl | hold
  · rcases hmem other ho with rfl | hother
    · exact absurd rfl hne
    · exact hnew _ rfl _ (hletters other hother _ (by simp))
  · rcases hmem other ho with rfl | hother
    · exact hnew _ rfl _ (hletters m hold _ (by simp))
    · exact hkeep _ (hi m hold other hother hne hheld)

theorem introduced_move (hs : hall.Sound version) {mail : Mail} (hi : hall.Introduced mail)
    {outcome : Hall ι × Option News} (hmove : Move version hall outcome) :
    outcome.1.Introduced (hall.deliver mail outcome.2) := by
  cases hmove with
  | stay => exact hi
  | refuse hseat hw user denial =>
      refine introduced_of_subset hi ?_ _
      intro m hm
      exact (members_place_perm hs.keys hseat hw (.refused user)).mem_iff.mp hm
  | welcome hseat hw hd => exact introduced_welcome hs hi hseat hw _
  | say hspeaker text => exact introduced_of_subset hi (fun m hm => hm) _
  | leave hseat =>
      refine introduced_of_subset hi ?_ _
      intro m hm
      obtain ⟨hms, hst⟩ := mem_membersOf.mp hm
      exact mem_membersOf.mpr ⟨(List.mem_filter.mp hms).1, hst⟩
  | empty => exact introduced_of_subset hi (by simp [members, membersOf]) _

/-- **Whatever is asked, every member has been told of every other.** -/
theorem introduced_step (hs : hall.Sound version) {mail : Mail}
    (hcount : mail.boxes.length = hall.arrived) (hi : hall.Introduced mail) (fresh : ι)
    (request : Request ι) :
    (hall.step version fresh request).1.Introduced
      (hall.mailAfter mail request (hall.step version fresh request).2) := by
  cases request with
  | register address =>
      -- a new outbox is nobody's among the members
      have hold : ∀ m ∈ hall.members, mail.add.2.box m.1.outbox = mail.box m.1.outbox := by
        intro m hm
        have hlt := hs.arrived m.1 (mem_membersOf.mp hm).1
        rw [Mail.box_add, if_neg (by omega)]
      intro m hm other ho hne hlive
      rw [members_register] at hm ho
      show _ ∈ (mail.add.2.box m.1.outbox).records
      have hlive' : (mail.add.2.box m.1.outbox).receiving = true := hlive
      rw [hold m hm] at hlive' ⊢
      exact hi m hm other ho hne hlive'
  | deafen n =>
      intro m hm other ho hne hlive
      show _ ∈ ((mail.refuse n).box m.1.outbox).records
      have hlive' : ((mail.refuse n).box m.1.outbox).receiving = true := hlive
      rw [Mail.box_refuse] at hlive' ⊢
      by_cases hn : n = m.1.outbox
      · rw [if_pos hn] at hlive'
        exact absurd hlive' (by simp)
      · rw [if_neg hn] at hlive' ⊢
        exact hi m hm other ho hne hlive'
  | dispatch origin record => exact introduced_move hs hi (move_step version fresh hall (by simp))
  | close origin => exact introduced_move hs hi (move_step version fresh hall (by simp))
  | kick name => exact introduced_move hs hi (move_step version fresh hall (by simp))
  | disconnectAll => exact introduced_move hs hi (move_step version fresh hall (by simp))

end Hall

/-! ## Names that were read -/

/-- A server whose members have presented themselves in records that were read. -/
structure Server.Acquainted (s : Server) (hall : Hall Handle) : Prop where
  seated : Seated s hall
  told : hall.Introduced s.mail
  read : ∀ m ∈ hall.members, ∃ frame, Record.decode frame = .ok (.userInfo m.2)

namespace Server

theorem acquainted_empty (version : Version) : Acquainted ({ version } : Server) {} where
  seated := seated_empty version
  told := by intro m hm; simp [Hall.members, Hall.membersOf] at hm
  read := by intro m hm; simp [Hall.members, Hall.membersOf] at hm

theorem acquainted_step {s : Server} {hall : Hall Handle} (h : s.Acquainted hall)
    {request : Request Handle} (hread : ∀ origin record, request = .dispatch origin record →
      ∃ frame, Record.decode frame = .ok record) :
    (s.step request).2.Acquainted (hall.step s.version s.roster.nextHandle request).1 := by
  obtain ⟨hseated, hmail⟩ := seated_step h.seated request
  refine ⟨hseated, ?_, ?_⟩
  · rw [hmail]
    exact Hall.introduced_step h.seated.sound h.seated.outboxes h.told _ request
  · intro m hm
    rcases Hall.mem_members_step h.seated.sound hm with hold | ⟨origin, ho⟩
    · exact h.read m hold
    · exact hread origin _ ho

theorem acquainted_run {s : Server} {hall : Hall Handle} (h : s.Acquainted hall)
    {requests : List (Request Handle)} (hread : ∀ origin record,
      Request.dispatch origin record ∈ requests → ∃ frame, Record.decode frame = .ok record) :
    ∃ hall', (s.run requests).Acquainted hall' := by
  refine run_preserves (P := fun t => ∃ hall', t.Acquainted hall') ?_ ⟨hall, h⟩
  rintro request hm t ⟨hall', ht⟩
  exact ⟨_, acquainted_step ht fun origin record he => hread origin record (he ▸ hm)⟩

end Server

/-- What others read of a member whose name has no NUL: what the limit leaves of the name. -/
theorem decode_introduction {user : Identity} (hnul : '\x00' ∉ user.name.toList) :
    Record.decode (Record.connect user false).encode
      = .ok (.connect ⟨Text.clamp nameLimit user.name, user.version⟩ false) := by
  have htext : (Record.connect user false).normal.text = Text.clamp nameLimit user.name :=
    Record.text_normal (r := .connect user false) hnul
  rw [Record.decode_encode_self]
  show Except.ok (Record.connect ⟨(Record.connect user false).normal.text, user.version⟩ false) = _
  rw [htext]

/-- A name that was read from bytes that are a text is within its limit. -/
theorem length_name_le_of_written {frame : Bytes} {user : Identity}
    (h : Record.decode frame = .ok (.userInfo user)) {text : String}
    (hwritten : Record.written frame = Text.bytes text) :
    (Text.bytes user.name).length ≤ nameLimit :=
  Record.length_text_le_of_written h hwritten

/-! ## Two members -/

/-- How a member came by its name, and what the others read of it. -/
structure Introduction (frame : Bytes) (c : Connection) (user seen : Identity) : Prop where
  presented : Record.decode frame = .ok (.userInfo user)
  known : c.user = some user
  read : Record.decode (Record.connect user false).encode = .ok (.connect seen false)
  /-- The name that is read is what the limit leaves of the member's. -/
  cut : Text.IsCut nameLimit user.name seen.name
  version : seen.version = user.version

/-- A name within its limit is read as it is. -/
theorem Introduction.name_eq {frame : Bytes} {c : Connection} {user seen : Identity}
    (h : Introduction frame c user seen) (hwithin : (Text.bytes user.name).length ≤ nameLimit) :
    seen.name = user.name := by
  have hnul : '\x00' ∉ user.name.toList := Record.nul_not_mem_text h.presented
  have hread := h.read
  rw [decode_introduction hnul, Text.clamp_of_length_le hwithin] at hread
  simp only [Except.ok.injEq, Record.connect.injEq, and_true] at hread
  rw [← hread]

theorem introduction_of_member {s : Server} {hall : Hall Handle} (h : s.Acquainted hall)
    {m : Seat Handle × Identity} (hm : m ∈ hall.members) :
    ∃ frame seen, Introduction frame m.1.connection m.2 seen := by
  obtain ⟨frame, hframe⟩ := h.read m hm
  have hnul : '\x00' ∉ m.2.name.toList := Record.nul_not_mem_text hframe
  have hknown : m.1.connection.user = some m.2 := by
    rw [Seat.connection, (Hall.mem_membersOf.mp hm).2]
  exact ⟨frame, ⟨Text.clamp nameLimit m.2.name, m.2.version⟩, hframe, hknown,
    decode_introduction hnul, Text.isCut_clamp nameLimit m.2.name, rfl⟩

/-- Members under different handles have different seats, and so different names. -/
theorem apart_of_keys {version : Version} {hall : Hall Handle} (hs : hall.Sound version)
    {m m' : Seat Handle × Identity} (hm : m ∈ hall.members) (hm' : m' ∈ hall.members)
    (hne : m.1.key ≠ m'.1.key) : m.1.outbox ≠ m'.1.outbox ∧ m.2.name ≠ m'.2.name := by
  refine ⟨fun ho => hne ?_, fun hn => hne ?_⟩
  · rw [List.inj_on_of_nodup_map hs.outboxes (Hall.mem_membersOf.mp hm).1
      (Hall.mem_membersOf.mp hm').1 ho]
  · rw [List.inj_on_of_nodup_map hs.names hm hm' hn]

/-- **Members whose names were texts are told apart by everyone else.** Where all records were read
from bytes, any two members have different names, and the others read of each what the limit leaves
of its name: so they read the same only if one of the names outgrew its limit. Every other member is
told of both. -/
theorem introduced_apart (version : Version) (requests : List (Request Handle))
    (hread : ∀ origin record, Request.dispatch origin record ∈ requests →
      ∃ frame, Record.decode frame = .ok record)
    {h h' : Handle} {c c' : Connection}
    (hc : (({ version } : Server).run requests).connection? h = some c)
    (hc' : (({ version } : Server).run requests).connection? h' = some c') (hne : h ≠ h')
    (hv : c.stage = .validated) (hv' : c'.stage = .validated) :
    ∃ frame user seen frame' user' seen',
      Introduction frame c user seen ∧ Introduction frame' c' user' seen'
        ∧ user.name ≠ user'.name
        ∧ (seen.name = seen'.name → nameLimit < (Text.bytes user.name).length
            ∨ nameLimit < (Text.bytes user'.name).length)
        ∧ (∀ text text', Record.written frame = Text.bytes text →
            Record.written frame' = Text.bytes text' → seen.name ≠ seen'.name)
        ∧ ∀ k other, (({ version } : Server).run requests).connection? k = some other →
            other.stage = .validated → k ≠ h → k ≠ h' → ∃ n, other.outbox = some n
              ∧ (((({ version } : Server).run requests).mail.box n).receiving = true →
                .connect user false ∈ ((({ version } : Server).run requests).mail.box n).records
                ∧ .connect user' false
                  ∈ ((({ version } : Server).run requests).mail.box n).records) := by
  obtain ⟨hall, hall'⟩ := Server.acquainted_run (Server.acquainted_empty version) hread
  obtain ⟨m, hm, rfl, rfl⟩ := member_of_connection hall'.seated hc hv
  obtain ⟨m', hm', rfl, rfl⟩ := member_of_connection hall'.seated hc' hv'
  obtain ⟨frame, seen, hi⟩ := introduction_of_member hall' hm
  obtain ⟨frame', seen', hi'⟩ := introduction_of_member hall' hm'
  have hnames := (apart_of_keys hall'.seated.sound hm hm' hne).2
  have halike : seen.name = seen'.name → nameLimit < (Text.bytes m.2.name).length
      ∨ nameLimit < (Text.bytes m'.2.name).length := by
    intro he
    by_contra hboth
    rw [not_or, Nat.not_lt, Nat.not_lt] at hboth
    rw [hi.name_eq hboth.1, hi'.name_eq hboth.2] at he
    exact hnames he
  refine ⟨frame, m.2, seen, frame', m'.2, seen', hi, hi', hnames, halike, ?_, ?_⟩
  · intro text text' hwritten hwritten' he
    have hlen := length_name_le_of_written hi.presented hwritten
    have hlen' := length_name_le_of_written hi'.presented hwritten'
    rcases halike he with hlong | hlong
    · omega
    · omega
  · intro k other hk hother hkh hkh'
    obtain ⟨third, ht, rfl, rfl⟩ := member_of_connection hall'.seated hk hother
    refine ⟨third.1.outbox, third.1.outbox_connection, fun hlive => ⟨?_, ?_⟩⟩
    · exact hall'.told third ht m hm (apart_of_keys hall'.seated.sound ht hm hkh).1 hlive
    · exact hall'.told third ht m' hm' (apart_of_keys hall'.seated.sound ht hm' hkh').1 hlive

/-! ## Names that outgrew their limit -/

/-- The frame of a client whose name is this many bytes that are no text. -/
def garbledFrame (count : Nat) : Bytes :=
  Header.bytes ⟨2, 51⟩ ++ List.replicate count 0xFF ++ List.replicate (nameWidth - count) 0
    ++ Version.bytes .current

/-- The name that is read from it. -/
def garbledName (count : Nat) : String := String.ofList (List.replicate count Text.replacement)

/-- One member with a name in letters, and others whose names are bytes that are no text. -/
def lookalikes (count count' : Nat) : List (Request Handle) :=
  [.register none, .register none, .register none,
    .dispatch ⟨0, 0⟩ (.userInfo ⟨"ann", .current⟩),
    .dispatch ⟨1, 0⟩ (.userInfo ⟨garbledName count, .current⟩),
    .dispatch ⟨2, 0⟩ (.userInfo ⟨garbledName count', .current⟩)]

theorem read_of_lookalikes (count count' : Nat)
    (hframe : Record.decode (garbledFrame count) = .ok (.userInfo ⟨garbledName count, .current⟩))
    (hframe' : Record.decode (garbledFrame count')
      = .ok (.userInfo ⟨garbledName count', .current⟩)) :
    ∀ origin record, Request.dispatch origin record ∈ lookalikes count count' →
      ∃ frame, Record.decode frame = .ok record := by
  have hann : Record.decode (Record.userInfo ⟨"ann", .current⟩).encode
      = .ok (.userInfo ⟨"ann", .current⟩) := by decide +kernel
  intro origin record hm
  simp only [lookalikes, List.mem_cons, List.not_mem_nil, or_false, reduceCtorEq, false_or,
    Request.dispatch.injEq] at hm
  rcases hm with ⟨-, rfl⟩ | ⟨-, rfl⟩ | ⟨-, rfl⟩
  · exact ⟨_, hann⟩
  · exact ⟨_, hframe⟩
  · exact ⟨_, hframe'⟩

/-- Nine and ten bytes that are no text are names within their limit, and are told apart. -/
theorem introduced_apart_garbled :
    ∃ seen seen' : Identity, seen.name ≠ seen'.name
      ∧ Record.decode (Record.connect ⟨garbledName 9, .current⟩ false).encode
        = .ok (.connect seen false)
      ∧ Record.decode (Record.connect ⟨garbledName 10, .current⟩ false).encode
        = .ok (.connect seen' false) := by
  have hc : (({ version := .current } : Server).run (lookalikes 9 10)).connection? ⟨1, 0⟩
      = some ⟨.validated, some ⟨garbledName 9, .current⟩, false, none, some 1⟩ := by
    decide +kernel
  have hc' : (({ version := .current } : Server).run (lookalikes 9 10)).connection? ⟨2, 0⟩
      = some ⟨.validated, some ⟨garbledName 10, .current⟩, false, none, some 2⟩ := by
    decide +kernel
  obtain ⟨frame, user, seen, frame', user', seen', hi, hi', -, halike, -, -⟩ :=
    introduced_apart .current (lookalikes 9 10)
      (read_of_lookalikes 9 10 (by decide +kernel) (by decide +kernel)) hc hc' (by decide) rfl rfl
  obtain rfl := Option.some.inj hi.known
  obtain rfl := Option.some.inj hi'.known
  refine ⟨seen, seen', ?_, hi.read, hi'.read⟩
  intro he
  exact absurd (halike he) (by decide +kernel)

/-- **Not all members are told apart by everyone else.** Eleven and twelve bytes that are no text
are two names for the server, and the limit leaves ten replacement characters of both. -/
theorem lookalikes_introduced_alike :
    ¬ ∀ (version : Version) (requests : List (Request Handle)),
        (∀ origin record, Request.dispatch origin record ∈ requests →
          ∃ frame, Record.decode frame = .ok record) →
        ∀ (h h' : Handle) (c c' : Connection) (user user' seen seen' : Identity),
          (({ version } : Server).run requests).connection? h = some c →
          (({ version } : Server).run requests).connection? h' = some c' → h ≠ h' →
          c.stage = .validated → c'.stage = .validated →
          c.user = some user → c'.user = some user' →
          Record.decode (Record.connect user false).encode = .ok (.connect seen false) →
          Record.decode (Record.connect user' false).encode = .ok (.connect seen' false) →
          seen.name ≠ seen'.name := by
  intro hall
  have hread := read_of_lookalikes 11 12 (by decide +kernel) (by decide +kernel)
  refine hall .current (lookalikes 11 12) hread ⟨1, 0⟩ ⟨2, 0⟩
    ⟨.validated, some ⟨garbledName 11, .current⟩, false, none, some 1⟩
    ⟨.validated, some ⟨garbledName 12, .current⟩, false, none, some 2⟩
    ⟨garbledName 11, .current⟩ ⟨garbledName 12, .current⟩
    ⟨garbledName 10, .current⟩ ⟨garbledName 10, .current⟩
    ?_ ?_ (by decide) rfl rfl rfl rfl ?_ ?_ rfl
  · decide +kernel
  · decide +kernel
  · decide +kernel
  · decide +kernel

end ChatRoom
