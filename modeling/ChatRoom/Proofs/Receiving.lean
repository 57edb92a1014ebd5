import ChatRoom.Proofs.Conservation
import ChatRoom.Session.Receive
import ChatRoom.Session.Server

/-!
# Receiving is a fold

To receive is to read a record off a stream, to hand it over, and to go on until something ends it.
Of the stream nothing shows in that but its bytes. They say by themselves which records they are
made of (`Record.contents`), and these are handed over in their order, up to the first that is not
answered by going on (`Handler.attend`). If there is none, the bytes decide how it ends: nothing is
left of them, or what is left cannot be read.

A handler that closes the connection or refuses a record has the bytes read up to that record and
not one more, for the reader takes no more than the record that it reads, and its buffer is empty
whenever a record is handed over.
-/

namespace ChatRoom

/-! ## What bytes are made of -/

/-- The records at the front of some bytes, and why what is behind them cannot be read, unless
nothing is behind them. -/
structure Contents where
  records : List Record
  error? : Option FrameError
  deriving DecidableEq, Repr

/-- One record more, in front. -/
def Contents.cons (record : Record) (later : Contents) : Contents :=
  { later with records := record :: later.records }

/-- How it ends if none of the records ends it. -/
def Contents.ending (contents : Contents) : Ending :=
  match contents.error? with
  | none => .endOfStream
  | some e => .failed (.frame e)

namespace Record

/-- Every record takes a header at least. -/
theorem headerSize_le_declared {bs : Bytes} {record : Record} (h : decode bs = .ok record) :
    headerSize ≤ declared bs := by
  obtain ⟨header, kind, size, hheader, hvalid, -, -⟩ := fit_of_decode h
  rw [declared_of_fit hheader hvalid]
  exact Nat.le_trans (Kind.headerSize_le_minSize kind) (Header.validate_bounds hvalid).1

/-- What some bytes are made of: the record at the front, and what the bytes behind it are made
of. -/
def contents (bs : Bytes) : Contents :=
  if bs = [] then ⟨[], none⟩
  else
    match _ : decode bs with
    | .error e => ⟨[], some e⟩
    | .ok record => (contents (bs.drop (declared bs))).cons record
termination_by bs.length
decreasing_by
  have hfirst := headerSize_le_declared (by assumption)
  have hlength := List.length_pos_iff.mpr (show bs ≠ [] by assumption)
  have hheader : headerSize = 12 := rfl
  simp only [List.length_drop]
  omega

theorem contents_nil : contents [] = ⟨[], none⟩ := by
  rw [contents, if_pos rfl]

theorem contents_of_error {bs : Bytes} (hne : bs ≠ []) {e : FrameError} (h : decode bs = .error e) :
    contents bs = ⟨[], some e⟩ := by
  rw [contents, if_neg hne]
  split <;> simp_all

theorem contents_of_ok {bs : Bytes} (hne : bs ≠ []) {record : Record} (h : decode bs = .ok record) :
    contents bs = (contents (bs.drop (declared bs))).cons record := by
  rw [contents, if_neg hne]
  split <;> simp_all

/-- A record that is read is read from its own bytes. -/
theorem isFrame_take {bs : Bytes} {record : Record} (h : decode bs = .ok record) :
    Reader.IsFrame (bs.take (declared bs)) record := by
  obtain ⟨header, kind, size, hheader, hvalid, hlength, rfl⟩ := fit_of_decode h
  have hsize := Nat.le_trans (Kind.headerSize_le_minSize kind) (Header.validate_bounds hvalid).1
  rw [declared_of_fit hheader hvalid]
  have htake : (bs.take size).length = size := by
    rw [List.length_take]
    omega
  have hfront : Header.ofBytes? (bs.take size) = some header := by
    rw [← hheader, ← Header.ofBytes?_append (by omega) (bs.drop size), List.take_append_drop]
  refine ⟨?_, ?_⟩
  · rw [decode_of_fit hfront hvalid, if_neg (by omega), List.take_take, Nat.min_self]
  · rw [declared_of_fit hfront hvalid, htake]

end Record

namespace Reader

theorem frames_nil : Frames [] [] := ⟨rfl, by simp⟩

theorem Frames.cons {frame : Bytes} {record : Record} (h : IsFrame frame record)
    {frames : List Bytes} {records : List Record} (hs : Frames frames records) :
    Frames (frame :: frames) (record :: records) := by
  refine ⟨?_, ?_⟩
  · rw [List.map_cons, List.map_cons, h.decoded, hs.decoded]
  · intro other hm
    rcases List.mem_cons.mp hm with rfl | hm
    · exact h.whole
    · exact hs.whole other hm

/-- What a reader that has these bytes before it comes upon, if there is nothing in its buffer. -/
inductive Front (bs : Bytes) : Progress (Option Record) × Reader → Prop where
  | ended {r : Reader} (hcontents : Record.contents bs = ⟨[], none⟩) : Front bs (.done none, r)
  | unread {r : Reader} {e : FrameError} (hcontents : Record.contents bs = ⟨[], some e⟩) :
      Front bs (.failed e, r)
  | record {r : Reader} {frame rest : Bytes} {record : Record}
      (hcontents : Record.contents bs = (Record.contents rest).cons record)
      (hframe : IsFrame frame record) (hbytes : frame ++ rest = bs) (hbehind : r.Before rest)
      (hempty : r.buffer = []) : Front bs (.done (some record), r)

/-- **A reader comes upon what its bytes are made of**, and takes one frame at a time. -/
theorem front_next {r : Reader} {bs : Bytes} (h : r.Before bs) (hempty : r.buffer = []) :
    Front bs r.next := by
  obtain ⟨r', hnext, hbehind⟩ := next_of_before h
  by_cases hne : bs = []
  · subst hne
    rw [hnext, if_pos rfl]
    exact .ended Record.contents_nil
  rw [if_neg hne] at hnext
  cases hdecode : Record.decode bs with
  | error e =>
      rw [hdecode] at hnext
      rw [hnext]
      exact .unread (Record.contents_of_error hne hdecode)
  | ok record =>
      rw [hdecode] at hnext
      have hrest := hbehind record hdecode
      obtain ⟨full, hpulls, houtcome⟩ := next_cases (hempty ▸ bounded_nil)
      rw [hnext] at houtcome ⊢
      cases houtcome with
      | record hframe =>
          -- the whole buffer was the record, so what is behind it is what the source has left
          have hbytes : full.buffer ++ full.source.rest = bs := hpulls.pending.trans h.pending
          have hleft : full.source.rest = bs.drop (Record.declared bs) := hrest.pending
          rw [hleft] at hbytes
          exact .record (Record.contents_of_ok hne hdecode) hframe hbytes hrest rfl

end Reader

/-- **Bytes are the frames of the records that they are made of**, and what is left behind those is
nothing, or cannot be read. -/
theorem Record.frames_contents (bs : Bytes) :
    ∃ frames rest, Reader.Frames frames (contents bs).records ∧ frames.flatten ++ rest = bs
      ∧ match (contents bs).error? with
        | none => rest = []
        | some e => rest ≠ [] ∧ decode rest = .error e := by
  fun_induction contents bs with
  | case1 => exact ⟨[], [], Reader.frames_nil, rfl, rfl⟩
  | case2 bs hne e hdecode => exact ⟨[], bs, Reader.frames_nil, rfl, hne, hdecode⟩
  | case3 bs hne record hdecode ih =>
      obtain ⟨frames, rest, hframes, hbytes, hrest⟩ := ih
      refine ⟨bs.take (declared bs) :: frames, rest, hframes.cons (isFrame_take hdecode), ?_, hrest⟩
      rw [List.flatten_cons, List.append_assoc, hbytes, List.take_append_drop]

/-! ## Handing records over -/

/-- What comes of handing records over. -/
structure Hearing (σ : Type) where
  /-- Those that were handed over. -/
  heard : List Record
  /-- The ending that the last of them led to, unless that was answered by going on. -/
  ending? : Option Ending
  state : σ

/-- What comes of handing over a record that is answered by going on, and then others. -/
def Hearing.cons {σ : Type} (record : Record) (later : Hearing σ) : Hearing σ :=
  { later with heard := record :: later.heard }

namespace Handler

variable {σ : Type} (handler : Handler σ) (origin : Handle)

/-- Hands records over one by one, up to the first that is not answered by going on. -/
def attend : List Record → σ → Hearing σ
  | [], s => ⟨[], none, s⟩
  | record :: rest, s =>
    match handler.dispatch origin record (handler.note (.received origin record.kind) s) with
    | (.ok .proceed, s) => (attend rest s).cons record
    | (.ok .close, s) => ⟨[record], some .closed, s⟩
    | (.error refusal, s) => ⟨[record], some (.failed (.refused refusal)), s⟩

/-- The same handler with a list of the records that it was handed, each with where it came from. -/
def recording : Handler (σ × List (Handle × Record)) where
  role := handler.role
  onStdout h text s := keep (handler.onStdout h text s.1) (s.2 ++ [(h, .stdout text)])
  onUserInfo h user s := keep (handler.onUserInfo h user s.1) (s.2 ++ [(h, .userInfo user)])
  onConnect h user validateOnly s :=
    keep (handler.onConnect h user validateOnly s.1) (s.2 ++ [(h, .connect user validateOnly)])
  onDisconnect h name s := keep (handler.onDisconnect h name s.1) (s.2 ++ [(h, .disconnect name)])
  onMessage h text s := keep (handler.onMessage h text s.1) (s.2 ++ [(h, .message text)])
  onClosed h s := (handler.onClosed h s.1, s.2)
  note entry s := (handler.note entry s.1, s.2)
where
  keep (answer : Answer σ) (calls : List (Handle × Record)) :
      Answer (σ × List (Handle × Record)) := (answer.1, answer.2, calls)

theorem dispatch_recording (record : Record) (s : σ) (calls : List (Handle × Record)) :
    handler.recording.dispatch origin record (s, calls)
      = ((handler.dispatch origin record s).1, (handler.dispatch origin record s).2,
          calls ++ [(origin, record)]) := by
  cases record <;> rfl

/-- A record is handed over once, and on behalf of the one who is attended to. -/
theorem attend_recording (records : List Record) (s : σ) (calls : List (Handle × Record)) :
    handler.recording.attend origin records (s, calls)
      = ⟨(handler.attend origin records s).heard, (handler.attend origin records s).ending?,
          (handler.attend origin records s).state,
          calls ++ (handler.attend origin records s).heard.map (origin, ·)⟩ := by
  induction records generalizing s calls with
  | nil => simp [attend]
  | cons record rest ih =>
      have hnote : handler.recording.note (.received origin record.kind) (s, calls)
          = (handler.note (.received origin record.kind) s, calls) := rfl
      rw [attend, attend, hnote, dispatch_recording]
      generalize handler.dispatch origin record _ = answer
      rcases answer with ⟨refusal | verdict, s'⟩
      · rfl
      · cases verdict with
        | close => rfl
        | proceed =>
            dsimp only
            rw [ih, List.append_assoc]
            rfl

/-- Those that are handed over are the first ones, and all of them if none leads to an ending. -/
theorem heard_attend (records : List Record) (s : σ) :
    (handler.attend origin records s).heard <+: records
      ∧ ((handler.attend origin records s).ending? = none →
          (handler.attend origin records s).heard = records) := by
  induction records generalizing s with
  | nil => exact ⟨List.prefix_rfl, fun _ => rfl⟩
  | cons record rest ih =>
      rw [attend]
      split
      · rename_i s' _
        obtain ⟨hfront, hall⟩ := ih s'
        exact ⟨List.cons_prefix_cons.mpr ⟨rfl, hfront⟩,
          fun hnone => congrArg (record :: ·) (hall hnone)⟩
      · exact ⟨List.cons_prefix_cons.mpr ⟨rfl, List.nil_prefix⟩,
          fun hnone => absurd hnone (by simp)⟩
      · exact ⟨List.cons_prefix_cons.mpr ⟨rfl, List.nil_prefix⟩,
          fun hnone => absurd hnone (by simp)⟩

/-! ## Off a stream -/

/-- What comes of handing over the records that some bytes are made of. -/
def hear (bs : Bytes) (s : σ) : Hearing σ := handler.attend origin (Record.contents bs).records s

/-- What has come of receiving some bytes, if nothing but the bytes has mattered. -/
structure Heeds (bs : Bytes) (s : σ) (outcome : Option Ending × Reader × σ) : Prop where
  ending : outcome.1
    = some ((handler.hear origin bs s).ending?.getD (Record.contents bs).ending)
  state : outcome.2.2 = (handler.hear origin bs s).state
  /-- What ends it was read last, and nothing behind it was taken. -/
  taken : (handler.hear origin bs s).ending?.isSome = true →
    outcome.2.1.buffer = [] ∧ ∃ frames, Reader.Frames frames (handler.hear origin bs s).heard
      ∧ frames.flatten ++ outcome.2.1.source.rest = bs

variable {handler origin}

/-- Without a record nothing is handed over. -/
theorem heeds_of_nothing {bs : Bytes} {error? : Option FrameError}
    (hcontents : Record.contents bs = ⟨[], error?⟩) (r : Reader) (s : σ) :
    handler.Heeds origin bs s (some (Contents.ending ⟨[], error?⟩), r, s) := by
  have hnothing : handler.hear origin bs s = ⟨[], none, s⟩ := by
    rw [hear, hcontents, attend]
  refine ⟨?_, ?_, ?_⟩
  · rw [hnothing, hcontents]
    rfl
  · rw [hnothing]
  · rw [hnothing]
    intro hsome
    exact absurd hsome (by simp)

/-- A record that ends it is the last thing that is handed over. -/
theorem heeds_of_last {bs frame rest : Bytes} {record : Record} {r : Reader} {s s' : σ}
    {ending : Ending} (hhear : handler.hear origin bs s = ⟨[record], some ending, s'⟩)
    (hframe : Reader.IsFrame frame record) (hbytes : frame ++ rest = bs) (hbehind : r.Before rest)
    (hempty : r.buffer = []) : handler.Heeds origin bs s (some ending, r, s') := by
  refine ⟨?_, ?_, ?_⟩
  · rw [hhear]
    rfl
  · rw [hhear]
  · intro _
    have hleft : r.source.rest = rest := by
      rw [← hbehind.pending, Reader.pending, hempty, List.nil_append]
    rw [hhear, hleft]
    exact ⟨hempty, [frame], Reader.frames_nil.cons hframe, by simpa using hbytes⟩

/-- After a record that is answered by going on, what is behind it is heeded. -/
theorem Heeds.cons {bs frame rest : Bytes} {record : Record} {s s' : σ}
    {outcome : Option Ending × Reader × σ} (h : handler.Heeds origin rest s' outcome)
    (hcontents : Record.contents bs = (Record.contents rest).cons record)
    (hhear : handler.hear origin bs s = (handler.hear origin rest s').cons record)
    (hframe : Reader.IsFrame frame record) (hbytes : frame ++ rest = bs) :
    handler.Heeds origin bs s outcome := by
  refine ⟨?_, ?_, ?_⟩
  · rw [hhear, hcontents]
    exact h.ending
  · rw [hhear]
    exact h.state
  · rw [hhear]
    intro hsome
    obtain ⟨hempty, frames, hframes, htaken⟩ := h.taken hsome
    refine ⟨hempty, frame :: frames, hframes.cons hframe, ?_⟩
    rw [List.flatten_cons, List.append_assoc, htaken, hbytes]

/-- **What is received is heeded**, whatever the stream does. -/
theorem heeds_receive (handler : Handler σ) (origin : Handle) {bs : Bytes} {r : Reader}
    (h : r.Before bs) (hempty : r.buffer = []) (s : σ) :
    handler.Heeds origin bs s (handler.receive origin r s) := by
  have hfront := Reader.front_next h hempty
  fun_induction Handler.receive handler origin r s generalizing bs with
  | case1 r s e r' hnext =>
      rw [hnext] at hfront
      cases hfront with
      | unread hcontents => exact heeds_of_nothing hcontents r' s
  | case2 r s r' hnext =>
      rw [hnext] at hfront
      cases hfront
  | case3 r s r' hnext =>
      rw [hnext] at hfront
      cases hfront with
      | ended hcontents => exact heeds_of_nothing hcontents r' s
  | case4 r s record r' hnext s' hd ih =>
      rw [hnext] at hfront
      cases hfront with
      | record hcontents hframe hbytes hbehind hempty' =>
          have hheeds := ih hbehind hempty' (Reader.front_next hbehind hempty')
          refine hheeds.cons hcontents ?_ hframe hbytes
          rw [hear, hcontents, Contents.cons, attend, hd]
          rfl
  | case5 r s record r' hnext s' hd =>
      rw [hnext] at hfront
      cases hfront with
      | record hcontents hframe hbytes hbehind hempty' =>
          refine heeds_of_last ?_ hframe hbytes hbehind hempty'
          rw [hear, hcontents, Contents.cons, attend, hd]
  | case6 r s record r' hnext refusal s' hd =>
      rw [hnext] at hfront
      cases hfront with
      | record hcontents hframe hbytes hbehind hempty' =>
          refine heeds_of_last ?_ hframe hbytes hbehind hempty'
          rw [hear, hcontents, Contents.cons, attend, hd]

/-- A reader whose source never waits is served until something ends it. -/
theorem heeds_serve (handler : Handler σ) (origin : Handle) {source : Source}
    (hsteady : source.Steady) (s : σ) :
    handler.Heeds origin source.rest s (handler.serve origin false { source } s) := by
  have hheeds := heeds_receive handler origin (r := { source }) ⟨hsteady, rfl⟩ rfl s
  unfold serve
  split
  · rename_i r s' hreceive
    have hending := hheeds.ending
    rw [hreceive] at hending
    exact absurd hending (by simp)
  · exact hheeds

end Handler

/-- What some bytes end with is no answer of a handler. -/
theorem Contents.ending_ne (contents : Contents) :
    contents.ending ≠ .closed ∧ ∀ refusal, contents.ending ≠ .failed (.refused refusal) := by
  unfold Contents.ending
  cases contents.error? with
  | none => exact ⟨by simp, by simp⟩
  | some e => exact ⟨by simp, by simp⟩

/-- How a handler is served from a stream: by its bytes, record by record. -/
structure Handler.Served {σ : Type} (handler : Handler σ) (origin : Handle) (s : σ)
    (source : Source) : Prop where
  /-- The bytes are the frames of the records that they are made of, and behind them there is
  nothing, or what cannot be read. -/
  frames : ∃ frames rest, Reader.Frames frames (Record.contents source.rest).records
    ∧ frames.flatten ++ rest = source.rest
    ∧ match (Record.contents source.rest).error? with
      | none => rest = []
      | some e => rest ≠ [] ∧ Record.decode rest = .error e
  /-- The first of them are handed over, and all of them if none leads to an ending. -/
  heard : (handler.hear origin source.rest s).heard <+: (Record.contents source.rest).records
    ∧ ((handler.hear origin source.rest s).ending? = none →
      (handler.hear origin source.rest s).heard = (Record.contents source.rest).records)
  /-- Each of those once, in their order, and on behalf of the origin. -/
  calls : (handler.recording.serve origin false { source } (s, [])).2.2
    = ((handler.hear origin source.rest s).state,
        (handler.hear origin source.rest s).heard.map (origin, ·))
  ending : (handler.serve origin false { source } s).1
    = some ((handler.hear origin source.rest s).ending?.getD
        (Record.contents source.rest).ending)
  state : (handler.serve origin false { source } s).2.2 = (handler.hear origin source.rest s).state
  /-- Before a handler closes the connection or refuses a record, the bytes up to that record are
  taken, and none behind them. -/
  taken : ((handler.serve origin false { source } s).1 = some .closed
      ∨ ∃ refusal, (handler.serve origin false { source } s).1
        = some (.failed (.refused refusal))) →
    (handler.serve origin false { source } s).2.1.buffer = []
      ∧ ∃ frames, Reader.Frames frames (handler.hear origin source.rest s).heard
        ∧ frames.flatten ++ (handler.serve origin false { source } s).2.1.source.rest
          = source.rest
  /-- The pieces do not matter, to the ending or to anything that the handler keeps. -/
  pieces : ∀ other : Source, other.Steady → other.rest = source.rest →
    (handler.serve origin false { source := other } s).1
        = (handler.serve origin false { source } s).1
      ∧ (handler.serve origin false { source := other } s).2.2
        = (handler.serve origin false { source } s).2.2

/-- **Receiving is a fold over the records that the bytes are made of.** A handler is handed one
after the other, up to the first that it does not answer by going on, and that answer is the ending;
if there is none, the bytes decide it. -/
theorem served_record_by_record {σ : Type} (handler : Handler σ) (origin : Handle) (s : σ)
    {source : Source} (hsteady : source.Steady) : handler.Served origin s source := by
  have hserve := handler.heeds_serve origin hsteady s
  refine ⟨Record.frames_contents source.rest, handler.heard_attend origin _ s, ?_, hserve.ending,
    hserve.state, ?_, ?_⟩
  · have hcalls := handler.attend_recording origin (Record.contents source.rest).records s []
    have hrecording := handler.recording.heeds_serve origin hsteady (s, [])
    rw [hrecording.state, Handler.hear, hcalls]
    rfl
  · intro hanswered
    refine hserve.taken ?_
    rw [hserve.ending] at hanswered
    obtain ⟨hclosed, hrefused⟩ := (Record.contents source.rest).ending_ne
    cases hlast : (handler.hear origin source.rest s).ending? with
    | some ending => rfl
    | none =>
        rw [hlast] at hanswered
        rcases hanswered with hend | ⟨refusal, hend⟩
        · exact absurd (Option.some.inj hend) hclosed
        · exact absurd (Option.some.inj hend) (hrefused refusal)
  · intro other hother hrest
    have hserve' := handler.heeds_serve origin hother s
    rw [hserve'.ending, hserve'.state, hserve.ending, hserve.state, hrest]
    exact ⟨rfl, rfl⟩

/-- A client that presents itself, and then sends what only servers send. -/
def talkative : Source where
  rest := (Record.userInfo ⟨"ann", .current⟩).encode ++ (Record.stdout "hé").encode
    ++ (Record.message "hello").encode
  plan _ := .upTo 5

/-- In pieces of five bytes, it is let in and then refused, and what it said behind that is left. -/
theorem served_talkative :
    (Server.handler.serve ⟨0, 0⟩ false { source := talkative } (({} : Server).register none).2).1
        = some (.failed (.refused (.unsupported .stdout "server")))
      ∧ (Server.handler.recording.serve ⟨0, 0⟩ false { source := talkative }
          ((({} : Server).register none).2, [])).2.2.2
        = [(⟨0, 0⟩, .userInfo ⟨"ann", .current⟩), (⟨0, 0⟩, .stdout "hé")]
      ∧ (Server.handler.serve ⟨0, 0⟩ false { source := talkative }
          (({} : Server).register none).2).2.1.buffer = [] := by
  have hsteady : talkative.Steady := ⟨rfl, fun _ => Or.inr ⟨5, by decide, rfl⟩⟩
  have hserved := served_record_by_record Server.handler ⟨0, 0⟩ (({} : Server).register none).2
    hsteady
  have hending : (Server.handler.serve ⟨0, 0⟩ false { source := talkative }
      (({} : Server).register none).2).1
      = some (.failed (.refused (.unsupported .stdout "server"))) := by
    rw [hserved.ending]
    decide +kernel
  refine ⟨hending, ?_, (hserved.taken (Or.inr ⟨_, hending⟩)).1⟩
  rw [hserved.calls]
  decide +kernel

end ChatRoom
