import Mathlib.Algebra.GroupWithZero.Nat
import ChatRoom.Proofs.Account
import ChatRoom.Proofs.Answers
import ChatRoom.Proofs.Introductions

/-!
# Lines

What the server has its clients show is made of texts that it has read and of words of its own: what
members say, who has come, and why somebody is not let in. A text that was read has no NUL, and may
have outgrown its limit threefold; but the limit of what can be shown is wide enough for the longest
name and the longest message together (`lineLimit`), so no line is ever cut.

`Server.Legible` carries that through a run, for the outboxes and for the console. The main result
is `lines_unmangled`: a client that decodes a line has the line, and what a member has said is on
the console as the others read it.
-/

namespace ChatRoom

open Arena

/-- Longest line, in bytes: a name, a message, and what stands between and behind them. -/
def lineLimit : Nat := 3 * nameLimit + 2 + 3 * messageLimit + 1

theorem lineLimit_lt_stdoutLimit : lineLimit < stdoutLimit := by decide

/-! ## Texts that fit -/

namespace Text

theorem Fits.append {m n : Nat} {s t : String} (hs : Fits m s) (ht : Fits n t) :
    Fits (m + n) (s ++ t) := by
  obtain ⟨hsnul, hslen⟩ := hs
  obtain ⟨htnul, htlen⟩ := ht
  refine ⟨?_, ?_⟩
  · rw [String.toList_append, List.mem_append, not_or]
    exact ⟨hsnul, htnul⟩
  · rw [bytes_append, List.length_append]
    exact Nat.add_le_add hslen htlen

theorem Fits.mono {m n : Nat} {s : String} (h : Fits m s) (hle : m ≤ n) : Fits n s :=
  ⟨h.1, h.2.trans hle⟩

theorem utf8Size_of_isDigit {c : Char} (h : c.isDigit = true) : c.utf8Size = 1 := by
  simp only [Char.isDigit, Bool.and_eq_true, decide_eq_true_eq] at h
  rw [Char.utf8Size_eq_one_iff]
  exact UInt32.le_trans h.2 (by decide)

/-- Digits take one byte each. -/
theorem size_of_digits {cs : List Char} (h : ∀ c ∈ cs, c.isDigit = true) :
    size cs = cs.length := by
  induction cs with
  | nil => rfl
  | cons c rest ih =>
      have hone := utf8Size_of_isDigit (h c List.mem_cons_self)
      have hrest := ih fun d hd => h d (List.mem_cons_of_mem c hd)
      rw [size, hone, hrest, List.length_cons, Nat.add_comm]

/-- A number below a power of ten has at most as many digits. -/
theorem fits_decimal {n k : Nat} (hk : 0 < k) (hn : n < 10 ^ k) : Fits k (decimal n) := by
  have hdigits : ∀ c ∈ (decimal n).toList, c.isDigit = true := by
    intro c hc
    rw [decimal, String.toList_ofList] at hc
    exact Nat.isDigit_of_mem_toDigits (by decide) (by decide) hc
  refine ⟨fun hnul => absurd (hdigits _ hnul) (by decide), ?_⟩
  rw [length_bytes, size_of_digits hdigits, decimal, String.toList_ofList]
  exact (Nat.length_toDigits_le_iff (by decide) hk).mpr hn

end Text

/-- A version has three numbers of at most five digits. -/
theorem Version.fits_text (v : Version) : Text.Fits 17 v.text := by
  have hpart : ∀ n : UInt16, Text.Fits 5 (Text.decimal n.toNat) := fun n =>
    Text.fits_decimal (by decide) (n.toNat_lt.trans (by decide))
  have hdot : Text.Fits 1 "." := by decide +kernel
  exact ((((hpart v.major).append hdot).append (hpart v.minor)).append hdot).append (hpart v.patch)

theorem Denial.fits_notice (denial : Denial) : Text.Fits lineLimit denial.notice := by
  cases denial with
  | emptyName => decide +kernel
  | nameTaken => decide +kernel
  | wrongVersion given expected =>
      have ⟨hfront, hmiddle, hend⟩ : Text.Fits 23 "Your client version is "
          ∧ Text.Fits 49 ", however the server expects a client version of "
          ∧ Text.Fits 2 "!\n" := by decide +kernel
      exact ((((hfront.append given.fits_text).append hmiddle).append expected.fits_text).append
        hend).mono (by decide)

/-- A text that was read has no NUL, and has outgrown its limit threefold at most. -/
theorem Record.fits_of_decode {frame : Bytes} {r : Record} (h : decode frame = .ok r) :
    Text.Fits (3 * r.kind.textLimit) r.text := ⟨nul_not_mem_text h, length_text_le h⟩

/-! ## Where lines come from -/

namespace Hall

theorem fits_line {name text : String} (hname : Text.Fits (3 * nameLimit) name)
    (htext : Text.Fits (3 * messageLimit) text) : Text.Fits lineLimit (line name text) := by
  have ⟨hcolon, hend⟩ : Text.Fits 2 ": " ∧ Text.Fits 1 "\n" := by decide +kernel
  exact ((hname.append hcolon).append htext).append hend

theorem fits_arrival {name text : String} (hname : Text.Fits (3 * nameLimit) name)
    (he : arrival name = .stdout text) : Text.Fits lineLimit text := by
  have ⟨hfront, hquote, hend⟩ : Text.Fits 7 "Client " ∧ Text.Fits 1 "\""
      ∧ Text.Fits 15 " has connected\n" := by decide +kernel
  have hquoted := (hquote.append hname).append hquote
  obtain rfl := Record.stdout.inj he
  exact ((hfront.append hquoted).append hend).mono (by decide)

/-- What an outbox holds after a request it held before, or the request has led to it. -/
theorem mem_records_mailAfter {ι : Type} {hall : Hall ι} {mail : Mail} {request : Request ι}
    {news : Option News} {n : Nat} {record : Record}
    (hm : record ∈ ((hall.mailAfter mail request news).box n).records) :
    record ∈ (mail.box n).records
      ∨ ∃ told, news = some told ∧ (n, record) ∈ hall.letters told := by
  have hdeliver : record ∈ ((hall.deliver mail news).box n).records →
      record ∈ (mail.box n).records
        ∨ ∃ told, news = some told ∧ (n, record) ∈ hall.letters told := by
    intro hm
    cases news with
    | none => exact Or.inl hm
    | some told =>
        rw [deliver, Mail.box_postAll] at hm
        rcases List.mem_append.mp hm with hold | hnew
        · rw [(mail.box_endAll (hall.ended told) n).1] at hold
          exact Or.inl hold
        · split at hnew
          · exact Or.inr ⟨told, rfl, mem_addressed.mp hnew⟩
          · exact absurd hnew (by simp)
  cases request with
  | register address =>
      have hadded : record ∈ (mail.add.2.box n).records := hm
      rw [Mail.box_add] at hadded
      split at hadded
      · exact absurd hadded (by simp)
      · exact Or.inl hadded
  | deafen m =>
      have hrefused : record ∈ ((mail.refuse m).box n).records := hm
      rw [Mail.box_refuse] at hrefused
      split at hrefused
      · exact Or.inl hrefused
      · exact Or.inl hrefused
  | dispatch origin record => exact hdeliver hm
  | close origin => exact hdeliver hm
  | kick name => exact hdeliver hm
  | disconnectAll => exact hdeliver hm

variable {ι : Type} [DecidableEq ι] {version : Version} {fresh : ι} {hall : Hall ι}
  {request : Request ι}

/-- Whoever has said something is a member. -/
theorem speaker_of_said {n : Nat} {speaker : Identity} {text : String}
    (hsaid : (hall.step version fresh request).2 = some (.said n speaker text)) :
    ∃ seat, (seat, speaker) ∈ hall.members ∧ seat.outbox = n := by
  have hq : ∀ address, request ≠ .register address := by
    rintro address rfl
    exact absurd hsaid (by simp [step])
  have hmove := move_step version fresh hall hq
  generalize hall.step version fresh request = outcome at hmove hsaid
  cases hmove with
  | say hm line =>
      obtain ⟨rfl, rfl, rfl⟩ := News.said.inj (Option.some.inj hsaid)
      exact ⟨_, hm, rfl⟩
  | stay => exact absurd hsaid (by simp)
  | refuse hs hw user denial => exact absurd hsaid (by simp)
  | welcome hs hw hd => exact absurd hsaid (by simp)
  | leave hs => exact absurd hsaid (by simp [leave])
  | empty => exact absurd hsaid (by simp)

/-- What a member's message leads to. -/
theorem step_message_of_mem (hs : hall.Sound version) {m : Seat ι × Identity}
    (hm : m ∈ hall.members) (text : String) :
    hall.step version fresh (.dispatch m.1.key (.message text))
      = (hall, some (.said m.1.outbox m.2 text)) := by
  obtain ⟨hseat, hst⟩ := mem_membersOf.mp hm
  rw [step, find?_of_mem hs hseat]
  simp only [receive, hst]

end Hall

/-- What the console shows was there, or has been said. -/
theorem Transcript.mem_after {console : Transcript} {news : Option News} {line : String}
    (h : line ∈ console.after news) : line ∈ console
      ∨ ∃ n speaker text, news = some (.said n speaker text)
        ∧ line = Hall.line speaker.name text := by
  unfold Transcript.after at h
  split at h
  · rename_i n speaker text
    rcases List.mem_append.mp h with hold | hnew
    · exact Or.inl hold
    · exact Or.inr ⟨n, speaker, text, rfl, List.mem_singleton.mp hnew⟩
  · exact Or.inl h

/-! ## Along a run -/

namespace Server

/-- All that the server has had shown are lines within their limit. -/
structure Legible (s : Server) (hall : Hall Handle) : Prop where
  acquainted : s.Acquainted hall
  queued : ∀ n text, .stdout text ∈ (s.mail.box n).records → Text.Fits lineLimit text
  shown : ∀ line ∈ s.console, Text.Fits lineLimit line

theorem legible_empty (version : Version) : Legible ({ version } : Server) {} where
  acquainted := acquainted_empty version
  queued n text hm := by
    have hnothing : (({} : Mail).box n).records = [] := rfl
    rw [hnothing] at hm
    exact absurd hm (by simp)
  shown := by simp

variable {s : Server} {hall : Hall Handle} {request : Request Handle}

theorem fits_said (h : s.Acquainted hall)
    (hread : ∀ origin record, request = .dispatch origin record →
      ∃ frame, Record.decode frame = .ok record)
    {n : Nat} {speaker : Identity} {text : String}
    (hsaid : (hall.step s.version s.roster.nextHandle request).2
      = some (.said n speaker text)) :
    Text.Fits lineLimit (Hall.line speaker.name text) := by
  obtain ⟨seat, hm, -⟩ := Hall.speaker_of_said hsaid
  obtain ⟨frame, hname⟩ := h.read _ hm
  obtain ⟨origin, ho⟩ := Hall.message_of_said hsaid
  obtain ⟨frame', htext⟩ := hread origin _ ho
  exact Hall.fits_line (Record.fits_of_decode hname) (Record.fits_of_decode htext)

/-- Every line that is queued on a request is within its limit. -/
theorem fits_letter (h : s.Acquainted hall)
    (hread : ∀ origin record, request = .dispatch origin record →
      ∃ frame, Record.decode frame = .ok record)
    {told : News} (htold : (hall.step s.version s.roster.nextHandle request).2 = some told)
    {n : Nat} {text : String} (hl : (n, .stdout text) ∈ hall.letters told) :
    Text.Fits lineLimit text := by
  cases told with
  | refused m denial =>
      obtain ⟨-, he⟩ := Prod.mk.inj (List.mem_singleton.mp hl)
      rw [Record.stdout.inj he]
      exact denial.fits_notice
  | admitted m user present =>
      rcases List.mem_append.mp hl with harrival | hnews
      · obtain ⟨other, -, he⟩ := List.mem_map.mp harrival
        obtain ⟨origin, ho⟩ := Hall.presented_of_admitted htold
        obtain ⟨frame, hname⟩ := hread origin _ ho
        exact Hall.fits_arrival (Record.fits_of_decode hname) (Prod.mk.inj he).2
      · -- the newcomer and the members are told of each other in records of another kind
        exact absurd hnews (by simp)
  | said m speaker words =>
      obtain ⟨other, -, he⟩ := List.mem_map.mp hl
      rw [← Record.stdout.inj (Prod.mk.inj he).2]
      exact fits_said h hread htold
  | left m member =>
      cases member with
      | none => exact absurd hl (by simp [Hall.letters])
      | some user =>
          obtain ⟨other, -, he⟩ := List.mem_map.mp hl
          exact absurd (Prod.mk.inj he).2 (by simp [Record.leaving])
  | emptied => exact absurd hl (by simp [Hall.letters])

/-- **Whatever is asked, only lines within their limit are shown.** -/
theorem legible_step (h : s.Legible hall)
    (hread : ∀ origin record, request = .dispatch origin record →
      ∃ frame, Record.decode frame = .ok record) :
    (s.step request).2.Legible (hall.step s.version s.roster.nextHandle request).1 := by
  obtain ⟨-, hmail⟩ := seated_step h.acquainted.seated request
  refine ⟨acquainted_step h.acquainted hread, ?_, ?_⟩
  · intro n text hm
    rw [hmail] at hm
    rcases Hall.mem_records_mailAfter hm with hold | ⟨told, htold, hl⟩
    · exact h.queued n text hold
    · exact fits_letter h.acquainted hread htold hl
  · intro line hm
    rw [console_step h.acquainted.seated] at hm
    rcases Transcript.mem_after hm with hold | ⟨n, speaker, text, hsaid, rfl⟩
    · exact h.shown line hold
    · exact fits_said h.acquainted hread hsaid

theorem legible_run (h : s.Legible hall) {requests : List (Request Handle)}
    (hread : ∀ origin record, Request.dispatch origin record ∈ requests →
      ∃ frame, Record.decode frame = .ok record) :
    ∃ hall', (s.run requests).Legible hall' := by
  refine run_preserves (P := fun t => ∃ hall', t.Legible hall') ?_ ⟨hall, h⟩
  rintro request hm t ⟨hall', ht⟩
  exact ⟨_, legible_step ht fun origin record he => hread origin record (he ▸ hm)⟩

end Server

/-! ## What is read of a line -/

/-- A text that goes through a `stdout` record as it is, and is not nearly cut. -/
structure Text.Unmangled (text : String) : Prop where
  nul : '\x00' ∉ text.toList
  short : (bytes text).length < stdoutLimit
  read : Record.decode (Record.stdout text).encode = .ok (.stdout text)

theorem Text.Fits.unmangled {text : String} (h : Fits lineLimit text) : Unmangled text where
  nul := h.1
  short := Nat.lt_of_le_of_lt h.2 lineLimit_lt_stdoutLimit
  read := (Record.decode_encode_eq_self_iff (.stdout text)).mpr
    (h.mono (Nat.le_of_lt lineLimit_lt_stdoutLimit))

/-- What comes of a message: a line, the same for the console and for everyone who reads it. -/
structure Server.Speaks (s : Server) (origin : Handle) (text line : String) : Prop where
  shown : (Server.handler.dispatch origin (.message text) s).2.console = s.console ++ [line]
  /-- Other members read it, if what is queued for them is taken. -/
  heard : ∀ k c n, s.Member k c → k ≠ origin → c.outbox = some n →
    (s.mail.box n).receiving = true →
      ((Server.handler.dispatch origin (.message text) s).2.mail.box n).records
        = (s.mail.box n).records ++ [.stdout line]
  /-- Nobody reads anything else. -/
  nothingElse : ∀ n, ((Server.handler.dispatch origin (.message text) s).2.mail.box n).records
      = (s.mail.box n).records
    ∨ ((Server.handler.dispatch origin (.message text) s).2.mail.box n).records
      = (s.mail.box n).records ++ [.stdout line]
  unmangled : Text.Unmangled line

namespace Server

variable {s : Server} {hall : Hall Handle}

theorem records_of_message (h : Seated s hall) {m : Seat Handle × Identity}
    (hm : m ∈ hall.members) (text : String) (n : Nat) :
    ((Server.handler.dispatch m.1.key (.message text) s).2.mail.box n).records
      = (s.mail.box n).records ++ if (s.mail.box n).receiving then
          if m.1.outbox ≠ n ∧ n ∈ hall.members.map (·.1.outbox) then
            [.stdout (Hall.line m.2.name text)] else []
        else [] := by
  have hmail := (seated_step h (.dispatch m.1.key (.message text))).2
  rw [Hall.step_message_of_mem h.sound hm] at hmail
  have hbox : (Server.handler.dispatch m.1.key (.message text) s).2.mail.box n
      = (hall.deliver s.mail (some (.said m.1.outbox m.2 text))).box n :=
    congrArg (Mail.box · n) hmail
  rw [hbox, Hall.deliver, Mail.box_postAll, Hall.letters, Hall.addressed_audience h.sound]
  rfl

theorem speaks_of_mem (h : Seated s hall) {m : Seat Handle × Identity} (hm : m ∈ hall.members)
    {text : String} (hfits : Text.Fits lineLimit (Hall.line m.2.name text)) :
    s.Speaks m.1.key text (Hall.line m.2.name text) where
  shown := by
    have hconsole := console_step h (.dispatch m.1.key (.message text))
    rw [Hall.step_message_of_mem h.sound hm] at hconsole
    exact hconsole
  heard k c n hk hne ho hlive := by
    obtain ⟨other, hother, rfl, rfl, -⟩ := mem_of_member h hk
    obtain rfl := Option.some.inj (other.1.outbox_connection.symm.trans ho)
    have hapart : m.1.outbox ≠ other.1.outbox := (apart_of_keys h.sound hm hother hne.symm).1
    rw [records_of_message h hm, if_pos hlive, if_pos ⟨hapart, List.mem_map_of_mem hother⟩]
  nothingElse n := by
    rw [records_of_message h hm]
    split
    · split
      · exact Or.inr rfl
      · exact Or.inl (List.append_nil _)
    · exact Or.inl (List.append_nil _)
  unmangled := hfits.unmangled

end Server

/-- **What members say is read as it is shown.** Where all records were read from bytes, whatever
they were, every line that the server has queued or shown goes through a record as it is: it has no
NUL, and is far from being cut. So what a member says appears on the console just as all the others
read it. -/
theorem lines_unmangled (version : Version) (requests : List (Request Handle))
    (hread : ∀ origin record, Request.dispatch origin record ∈ requests →
      ∃ frame, Record.decode frame = .ok record) :
    (∀ n text, .stdout text ∈ ((({ version } : Server).run requests).mail.box n).records →
        Text.Unmangled text)
      ∧ (∀ line ∈ (({ version } : Server).run requests).console, Text.Unmangled line)
      ∧ (∀ origin c frame text, (({ version } : Server).run requests).Member origin c →
          Record.decode frame = .ok (.message text) → ∃ name, c.name? = some name
            ∧ (({ version } : Server).run requests).Speaks origin text (Hall.line name text)) := by
  obtain ⟨hall, h⟩ := Server.legible_run (Server.legible_empty version) hread
  refine ⟨fun n text hm => (h.queued n text hm).unmangled,
    fun line hm => (h.shown line hm).unmangled, ?_⟩
  intro origin c frame text hc htext
  obtain ⟨m, hm, rfl, rfl, hname⟩ := Server.mem_of_member h.acquainted.seated hc
  obtain ⟨frame', hread'⟩ := h.acquainted.read m hm
  have hfits := Hall.fits_line (Record.fits_of_decode hread') (Record.fits_of_decode htext)
  exact ⟨m.2.name, hname, Server.speaks_of_mem h.acquainted.seated hm hfits⟩

/-- Each byte that is no text is read as a character of three. -/
theorem length_garbledName (count : Nat) : (Text.bytes (garbledName count)).length = 3 * count := by
  rw [Text.length_bytes, garbledName, String.toList_ofList]
  induction count with
  | zero => rfl
  | succ count ih =>
      rw [List.replicate_succ, Text.size, ih, Text.utf8Size_replacement, Nat.mul_succ, Nat.add_comm]

/-- Two members, and the name of the first is as many bytes as there is room for, none of them
text. -/
def garbledSpeaker : List (Request Handle) :=
  [.register none, .register none, .dispatch ⟨0, 0⟩ (.userInfo ⟨garbledName 32, .current⟩),
    .dispatch ⟨1, 0⟩ (.userInfo ⟨"bob", .current⟩)]

/-- If it says as many such bytes as there is room for, the line is as long as can be, and the other
one reads it as it is shown. -/
theorem lines_garbled :
    (Text.bytes (Hall.line (garbledName 32) (garbledName 256))).length = lineLimit
      ∧ (Server.handler.dispatch ⟨0, 0⟩ (.message (garbledName 256))
          (({} : Server).run garbledSpeaker)).2.console
        = [Hall.line (garbledName 32) (garbledName 256)]
      ∧ .stdout (Hall.line (garbledName 32) (garbledName 256))
        ∈ ((Server.handler.dispatch ⟨0, 0⟩ (.message (garbledName 256))
          (({} : Server).run garbledSpeaker)).2.mail.box 1).records
      ∧ Record.decode (Record.stdout (Hall.line (garbledName 32) (garbledName 256))).encode
        = .ok (.stdout (Hall.line (garbledName 32) (garbledName 256))) := by
  have hbob : Record.decode (Record.userInfo ⟨"bob", .current⟩).encode
      = .ok (.userInfo ⟨"bob", .current⟩) := by decide +kernel
  have hname : Record.decode (garbledFrame 32)
      = .ok (.userInfo ⟨garbledName 32, .current⟩) := by decide +kernel
  have htext : Record.decode (Header.bytes ⟨5, 269⟩ ++ List.replicate 256 0xFF ++ [0])
      = .ok (.message (garbledName 256)) := by decide +kernel
  have hread : ∀ origin record, Request.dispatch origin record ∈ garbledSpeaker →
      ∃ frame, Record.decode frame = .ok record := by
    intro origin record hm
    simp only [garbledSpeaker, List.mem_cons, List.not_mem_nil, or_false, reduceCtorEq, false_or,
      Request.dispatch.injEq] at hm
    rcases hm with ⟨-, rfl⟩ | ⟨-, rfl⟩
    · exact ⟨_, hname⟩
    · exact ⟨_, hbob⟩
  have hspeaker : (({} : Server).run garbledSpeaker).Member ⟨0, 0⟩
      ⟨.validated, some ⟨garbledName 32, .current⟩, false, none, some 0⟩ :=
    ⟨by decide +kernel, rfl⟩
  have hother : (({} : Server).run garbledSpeaker).Member ⟨1, 0⟩
      ⟨.validated, some ⟨"bob", .current⟩, false, none, some 1⟩ :=
    ⟨by decide +kernel, rfl⟩
  obtain ⟨-, -, hspeaks⟩ := lines_unmangled .current garbledSpeaker hread
  obtain ⟨name, hn, hline⟩ := hspeaks _ _ _ _ hspeaker htext
  obtain rfl : garbledName 32 = name := Option.some.inj hn
  have hheard := hline.heard _ _ 1 hother (by decide) rfl (by decide +kernel)
  have hquiet : (({} : Server).run garbledSpeaker).console = [] := by decide +kernel
  refine ⟨?_, ?_, ?_, hline.unmangled.read⟩
  · have ⟨hcolon, hend⟩ : (Text.bytes ": ").length = 2 ∧ (Text.bytes "\n").length = 1 := by
      decide +kernel
    rw [Hall.line, Text.bytes_append, Text.bytes_append, Text.bytes_append, List.length_append,
      List.length_append, List.length_append, length_garbledName, length_garbledName, hcolon, hend]
    rfl
  · rw [hline.shown, hquiet, List.nil_append]
  · rw [hheard]
    exact List.mem_append_right _ List.mem_cons_self

end ChatRoom
