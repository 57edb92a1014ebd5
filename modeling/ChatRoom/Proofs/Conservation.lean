import ChatRoom.Proofs.Streaming

/-!
# No byte is lost

A source may fail at any call, and it may give nothing although there is more to come. Whoever
reads may go on after either. Nothing is lost by that, nothing comes twice, and nothing is taken too
early: the frames of the records that were given, the buffer, and what the source has left are, one
behind the other, the bytes that there were.

How a reader gets from one point to the next is said once, by `Pulls`: it calls its source, each
time for some bytes, but for no more than the header or the record at the front of its buffer still
lacks. So a buffer never holds more than one record (`Bounded`), and whatever is asked of a reader,
it pulls, and then gives its whole buffer away as a record or keeps it as it is (`Moves`). A buffer
whose header was judged unfit lacks nothing, and that is why it stays as it is for good.
-/

namespace ChatRoom

namespace Source

/-- The bytes that an answer brings. -/
def Answer.chunk : Answer → Bytes
  | bytes chunk => chunk
  | failed _ => []
  | waiting => []

/-- A call brings no more than it asked for. -/
theorem length_chunk_le (s : Source) (asked : Nat) :
    (s.read asked).1.chunk.length ≤ asked := by
  unfold read
  split
  · exact Nat.zero_le _
  · split
    · exact Nat.zero_le _
    · exact List.length_take_le asked s.rest
    · rename_i limit _
      have := List.length_take_le (min limit asked) s.rest
      show (s.rest.take (min limit asked)).length ≤ asked
      omega

/-- What a call brings stood at the front of what was left. -/
theorem chunk_append_rest (s : Source) (asked : Nat) :
    (s.read asked).1.chunk ++ (s.read asked).2.rest = s.rest := by
  cases hread : s.read asked with
  | mk answer s' =>
      cases answer with
      | bytes chunk => exact (rest_of_read hread).symm
      | failed cause => exact rest_of_read_failed hread
      | waiting =>
          rw [eq_of_read_waiting hread]
          rfl

/-- A call adds itself to the calls of its source, and nothing else. -/
theorem mem_calls_read {s : Source} {asked : Nat} {call : Nat × Option Nat}
    (h : call ∈ (s.read asked).2.calls) : call ∈ s.calls ∨ call.1 = asked := by
  have hadded : ∀ given, call ∈ s.calls ++ [(asked, given)] → call ∈ s.calls ∨ call.1 = asked := by
    intro given hm
    rcases List.mem_append.mp hm with hold | hnew
    · exact Or.inl hold
    · rw [List.mem_singleton.mp hnew]
      exact Or.inr rfl
  unfold read at h
  split at h
  · exact Or.inl h
  · split at h
    · exact hadded _ h
    · exact hadded _ h
    · exact hadded _ h

end Source

/-- A header takes all of its bytes. -/
theorem Header.le_length_of_ofBytes? {bs : Bytes} {header : Header}
    (h : ofBytes? bs = some header) : headerSize ≤ bs.length := by
  unfold ofBytes? at h
  split at h
  · exact absurd h (by simp)
  · omega

namespace Reader

/-! ## Pulling -/

/-- How many bytes are missing at the end of a buffer: those of its header, and once the header is
there and fit, those of its record. -/
def lacks (buffer : Bytes) : Nat :=
  match Header.ofBytes? buffer with
  | none => headerSize - buffer.length
  | some header =>
    match header.validate with
    | .error _ => 0
    | .ok (_, size) => size - buffer.length

/-- The reader after one call of its source. What the call brings goes behind the buffer. -/
def pull (r : Reader) (asked : Nat) : Reader where
  source := (r.source.read asked).2
  buffer := r.buffer ++ (r.source.read asked).1.chunk

/-- A buffer that holds a header at most, or no more than the record that its header declares. -/
structure Bounded (buffer : Bytes) : Prop where
  limit : buffer.length ≤ recordLimit
  fit : headerSize < buffer.length →
    ∃ header kind size, Header.ofBytes? buffer = some header
      ∧ header.validate = .ok (kind, size) ∧ buffer.length ≤ size

/-- `r'` has come from `r` by calls of its source, and its buffer was bounded all the time. -/
inductive Pulls : Reader → Reader → Prop where
  | done {r : Reader} (hbounded : Bounded r.buffer) : Pulls r r
  | pull {r r' : Reader} {asked : Nat} (hbounded : Bounded r.buffer) (hsome : 0 < asked)
      (hlimit : asked ≤ callLimit) (hlacks : asked ≤ lacks r.buffer)
      (later : Pulls (r.pull asked) r') : Pulls r r'

theorem Pulls.trans {r r' r'' : Reader} (h : Pulls r r') (h' : Pulls r' r'') : Pulls r r'' := by
  induction h with
  | done _ => exact h'
  | pull hbounded hsome hlimit hlacks _ ih => exact .pull hbounded hsome hlimit hlacks (ih h')

theorem Pulls.bounded {r r' : Reader} (h : Pulls r r') : Bounded r'.buffer := by
  induction h with
  | done hbounded => exact hbounded
  | pull _ _ _ _ _ ih => exact ih

/-- **Pulling moves bytes from the source to the buffer**, and none of them anywhere else. -/
theorem Pulls.pending {r r' : Reader} (h : Pulls r r') : r'.pending = r.pending := by
  induction h with
  | done _ => rfl
  | @pull r r' asked _ _ _ _ _ ih =>
      rw [ih, Reader.pending, Reader.pending, Reader.pull, List.append_assoc,
        Source.chunk_append_rest]

/-- The source keeps its calls, and none that is new asks for nothing or for more than a call
may. -/
theorem Pulls.calls {r r' : Reader} (h : Pulls r r') :
    ∀ call ∈ r'.source.calls, call ∈ r.source.calls ∨ 0 < call.1 ∧ call.1 ≤ callLimit := by
  induction h with
  | done _ => exact fun call hm => Or.inl hm
  | @pull r r' asked _ hsome hlimit _ _ ih =>
      intro call hm
      rcases ih call hm with hold | hnew
      · rcases Source.mem_calls_read hold with hold | heq
        · exact Or.inl hold
        · exact Or.inr ⟨by omega, by omega⟩
      · exact Or.inr hnew

theorem Pulls.buffer_prefix {r r' : Reader} (h : Pulls r r') : r.buffer <+: r'.buffer := by
  induction h with
  | done _ => exact List.prefix_rfl
  | pull _ _ _ _ _ ih => exact (List.prefix_append _ _).trans ih

/-! ## Filling -/

/-- A buffer that is being filled up to a header, or up to the record that its header declares. -/
inductive Toward (buffer : Bytes) : (wanted : Nat) → Prop where
  | header (hle : buffer.length ≤ headerSize) : Toward buffer headerSize
  | record {header : Header} {kind : Kind} {size : Nat}
      (hheader : Header.ofBytes? buffer = some header)
      (hvalid : header.validate = .ok (kind, size)) (hle : buffer.length ≤ size) :
      Toward buffer size

theorem Toward.length_le {buffer : Bytes} {wanted : Nat} (h : Toward buffer wanted) :
    buffer.length ≤ wanted := by
  cases h with
  | header hle => exact hle
  | record _ _ hle => exact hle

theorem Toward.bounded {buffer : Bytes} {wanted : Nat} (h : Toward buffer wanted) :
    Bounded buffer := by
  cases h with
  | header hle =>
      have hlimit : headerSize ≤ recordLimit := by decide
      exact ⟨by omega, fun hlt => absurd hle (by omega)⟩
  | record hheader hvalid hle =>
      have hsize := Header.validate_bounds hvalid
      exact ⟨by omega, fun _ => ⟨_, _, _, hheader, hvalid, hle⟩⟩

theorem Toward.lacks_eq {buffer : Bytes} {wanted : Nat} (h : Toward buffer wanted)
    (hshort : ¬ wanted ≤ buffer.length) : lacks buffer = wanted - buffer.length := by
  cases h with
  | header hle =>
      have hnone : Header.ofBytes? buffer = none := if_pos (by omega)
      rw [lacks, hnone]
  | record hheader hvalid _ =>
      rw [lacks, hheader]
      simp only [hvalid]

theorem Toward.append {buffer chunk : Bytes} {wanted : Nat} (h : Toward buffer wanted)
    (hle : (buffer ++ chunk).length ≤ wanted) : Toward (buffer ++ chunk) wanted := by
  cases h with
  | header _ => exact .header hle
  | record hheader hvalid _ =>
      refine .record ?_ hvalid hle
      rw [Header.ofBytes?_append (Header.le_length_of_ofBytes? hheader), hheader]

/-- One turn of filling is a pull, whatever its answer is. -/
theorem Toward.pull {r : Reader} {wanted : Nat} (h : Toward r.buffer wanted)
    (hshort : ¬ wanted ≤ r.buffer.length) {answer : Source.Answer} {source : Source}
    (hread : r.source.read (min (wanted - r.buffer.length) callLimit) = (answer, source)) :
    Toward (r.buffer ++ answer.chunk) wanted
      ∧ ∀ r', Pulls { source, buffer := r.buffer ++ answer.chunk } r' → Pulls r r' := by
  have hlimit : callLimit = 512 := rfl
  have hlacks := h.lacks_eq hshort
  have hchunk := Source.length_chunk_le r.source (min (wanted - r.buffer.length) callLimit)
  have hpull : r.pull (min (wanted - r.buffer.length) callLimit)
      = { source, buffer := r.buffer ++ answer.chunk } := by
    rw [Reader.pull, hread]
  rw [hread] at hchunk
  refine ⟨h.append ?_, ?_⟩
  · rw [List.length_append]
    dsimp only at hchunk
    omega
  · intro r' hlater
    rw [← hpull] at hlater
    exact .pull h.bounded (by omega) (by omega) (by omega) hlater

/-- **Filling is pulling**, and does not go beyond what is wanted. -/
theorem pulls_fill {r : Reader} {wanted : Nat} (h : Toward r.buffer wanted) :
    Pulls r (r.fill wanted).2 ∧ Toward (r.fill wanted).2.buffer wanted := by
  fun_induction fill wanted r with
  | case1 r _ => exact ⟨.done h.bounded, h⟩
  | case2 r hshort cause source hread =>
      obtain ⟨htoward, hpulls⟩ := h.pull hshort hread
      rw [Source.Answer.chunk, List.append_nil] at htoward hpulls
      exact ⟨hpulls _ (.done htoward.bounded), htoward⟩
  | case3 r hshort source hread =>
      obtain ⟨htoward, hpulls⟩ := h.pull hshort hread
      rw [Source.Answer.chunk, List.append_nil] at htoward hpulls
      exact ⟨hpulls _ (.done htoward.bounded), htoward⟩
  | case4 r hshort source hread =>
      obtain ⟨htoward, hpulls⟩ := h.pull hshort hread
      rw [Source.Answer.chunk, List.append_nil] at htoward hpulls
      exact ⟨hpulls _ (.done htoward.bounded), htoward⟩
  | case5 r hshort b bs source hread ih =>
      obtain ⟨htoward, hpulls⟩ := h.pull hshort hread
      obtain ⟨hlater, hend⟩ := ih htoward
      exact ⟨hpulls _ hlater, hend⟩

/-- Filling fails with its source only. -/
theorem fill_failed {r r' : Reader} {wanted : Nat} {e : FrameError}
    (h : r.fill wanted = (.failed e, r')) : ∃ cause, e = .io cause := by
  fun_induction fill wanted r with
  | case1 => exact absurd h (by simp)
  | case2 r _ cause source _ =>
      obtain ⟨he, -⟩ := Prod.mk.inj h
      exact ⟨cause, (Progress.failed.inj he).symm⟩
  | case3 => exact absurd h (by simp)
  | case4 => exact absurd h (by simp)
  | case5 r _ b bs source _ ih => exact ih h

/-- A buffer that holds what is wanted is left alone. -/
theorem fill_of_le {r : Reader} {wanted : Nat} (h : wanted ≤ r.buffer.length) :
    r.fill wanted = (.done true, r) := by
  rw [fill, if_pos h]

/-! ## Looking at the header -/

/-- What comes of a look at the header, when `full` is what the reader was filled to. -/
inductive Glance (full : Reader) : Progress (Option Header) × Reader → Prop where
  | seen {header : Header} (hheader : Header.ofBytes? full.buffer = some header) :
      Glance full (.done (some header), full)
  | broken {cause : String} : Glance full (.failed (.io cause), full)
  | truncated {expected received : Nat} :
      Glance full (.failed (.truncated expected received), full)
  | ended : Glance full (.done none, full)
  | waiting : Glance full (.waiting, full)

theorem glance_probe (r : Reader) : Glance (r.fill headerSize).2 r.probe := by
  unfold probe
  cases hfill : r.fill headerSize with
  | mk answer full =>
      cases answer with
      | failed e =>
          obtain ⟨cause, rfl⟩ := fill_failed hfill
          exact .broken
      | waiting => exact .waiting
      | done complete =>
          dsimp only
          split
          · rename_i header hheader
            exact .seen hheader
          · split
            · exact .ended
            · exact .truncated

/-- **A look at the header pulls**, and comes to one of five ends. -/
theorem probe_cases {r : Reader} (h : Bounded r.buffer) :
    ∃ full, Pulls r full ∧ Glance full r.probe := by
  refine ⟨(r.fill headerSize).2, ?_, glance_probe r⟩
  rcases Nat.lt_or_ge headerSize r.buffer.length with hlong | hshort
  · -- the header is there, and nothing is asked for
    rw [fill_of_le (Nat.le_of_lt hlong)]
    exact .done h
  · exact (pulls_fill (.header hshort)).1

theorem Glance.snd_eq {full : Reader} {result : Progress (Option Header) × Reader}
    (h : Glance full result) : result.2 = full := by
  cases h with
  | seen _ => rfl
  | broken => rfl
  | truncated => rfl
  | ended => rfl
  | waiting => rfl

/-! ## Reading a record -/

/-- The bytes of one record, all of them and nothing behind them. -/
structure IsFrame (frame : Bytes) (record : Record) : Prop where
  decoded : Record.decode frame = .ok record
  whole : Record.declared frame = frame.length

/-- What comes of reading a record, when `full` is what the reader was filled to. -/
inductive Outcome (full : Reader) : Progress (Option Record) × Reader → Prop where
  | record {record : Record} (hframe : IsFrame full.buffer record) :
      Outcome full (.done (some record), { full with buffer := [] })
  | rejected {header : Header} {e : FrameError}
      (hheader : Header.ofBytes? full.buffer = some header) (hvalid : header.validate = .error e) :
      Outcome full (.failed e, full)
  | broken {cause : String} : Outcome full (.failed (.io cause), full)
  | truncated {expected received : Nat} :
      Outcome full (.failed (.truncated expected received), full)
  | ended : Outcome full (.done none, full)
  | waiting : Outcome full (.waiting, full)

/-- A buffer within its bounds is no longer than the record whose header is in front of it. -/
theorem Bounded.toward {buffer : Bytes} (h : Bounded buffer) {header : Header} {kind : Kind}
    {size : Nat} (hheader : Header.ofBytes? buffer = some header)
    (hvalid : header.validate = .ok (kind, size)) : Toward buffer size := by
  have hmin := Kind.headerSize_le_minSize kind
  have hsize := Header.validate_bounds hvalid
  refine .record hheader hvalid ?_
  rcases Nat.lt_or_ge headerSize buffer.length with hlong | hshort
  · obtain ⟨header', kind', size', hheader', hvalid', hle⟩ := h.fit hlong
    obtain rfl : header' = header := Option.some.inj (hheader'.symm.trans hheader)
    obtain ⟨-, rfl⟩ : kind' = kind ∧ size' = size := by
      simpa using hvalid'.symm.trans hvalid
    exact hle
  · omega

/-- **What reading a record can do**: pull, and then come to one of six ends, of which only a record
changes the buffer. -/
theorem next_cases {r : Reader} (h : Bounded r.buffer) :
    ∃ full, Pulls r full ∧ Outcome full r.next := by
  obtain ⟨r₁, hpulls, hglance⟩ := probe_cases h
  unfold next
  generalize r.probe = result at hglance
  cases hglance with
  | broken => exact ⟨r₁, hpulls, .broken⟩
  | truncated => exact ⟨r₁, hpulls, .truncated⟩
  | ended => exact ⟨r₁, hpulls, .ended⟩
  | waiting => exact ⟨r₁, hpulls, .waiting⟩
  | @seen header hheader =>
      dsimp only
      cases hvalid : header.validate with
      | error e => exact ⟨r₁, hpulls, .rejected hheader hvalid⟩
      | ok judged =>
          obtain ⟨kind, size⟩ := judged
          obtain ⟨hbody, htoward⟩ := pulls_fill (hpulls.bounded.toward hheader hvalid)
          dsimp only
          cases hfill : r₁.fill size with
          | mk answer r₂ =>
              rw [hfill] at hbody htoward
              refine ⟨r₂, hpulls.trans hbody, ?_⟩
              cases answer with
              | failed e =>
                  obtain ⟨cause, rfl⟩ := fill_failed hfill
                  exact .broken
              | waiting => exact .waiting
              | done complete =>
                  cases complete with
                  | false => exact .truncated
                  | true =>
                      -- not a byte is missing, and none is there that is not the record's
                      have hlength : r₂.buffer.length = size :=
                        Nat.le_antisymm htoward.length_le (le_length_of_fill hfill)
                      have hheader₂ : Header.ofBytes? r₂.buffer = some header := by
                        obtain ⟨more, hmore⟩ := hbody.buffer_prefix
                        rw [← hmore, Header.ofBytes?_append
                          (Header.le_length_of_ofBytes? hheader), hheader]
                      have hempty : r₂.buffer.drop size = [] :=
                        List.drop_of_length_le (Nat.le_of_eq hlength)
                      dsimp only
                      rw [hempty]
                      refine .record ⟨?_, ?_⟩
                      · rw [Record.decode_of_fit hheader₂ hvalid, if_neg (by omega)]
                      · rw [Record.declared_of_fit hheader₂ hvalid, hlength]

/-- **A header that was judged unfit stays unfit**: the reader keeps it, and does not call its
source again. -/
theorem next_of_unfit {r : Reader} {header : Header} {e : FrameError}
    (hheader : Header.ofBytes? r.buffer = some header) (hvalid : header.validate = .error e) :
    r.probe = (.done (some header), r) ∧ r.next = (.failed e, r) := by
  have hprobe : r.probe = (.done (some header), r) := by
    rw [probe, fill_of_le (Header.le_length_of_ofBytes? hheader)]
    simp only [hheader]
  refine ⟨hprobe, ?_⟩
  rw [next, hprobe]
  simp only [hvalid]

/-! ## Any calls, one after the other -/

/-- The record that a call gives, if it gives one, and the reader after it. -/
def obey (r : Reader) : Call → Option Record × Reader
  | .probe => (none, r.probe.2)
  | .next =>
    match r.next with
    | (.done record?, r) => (record?, r)
    | (.failed _, r) => (none, r)
    | (.waiting, r) => (none, r)

/-- The records that some calls give, and the reader after them. Errors stop nothing. -/
def run (r : Reader) : List Call → List Record × Reader
  | [] => ([], r)
  | call :: calls =>
    let (record?, r) := r.obey call
    let (records, r) := r.run calls
    (record?.toList ++ records, r)

/-- What a call does: it pulls, and gives the whole buffer away as a record, or nothing. -/
inductive Moves (r : Reader) : Option Record × Reader → Prop where
  | nothing {full : Reader} (hpulls : Pulls r full) : Moves r (none, full)
  | record {full : Reader} {record : Record} (hpulls : Pulls r full)
      (hframe : IsFrame full.buffer record) : Moves r (some record, { full with buffer := [] })

theorem moves_obey {r : Reader} (h : Bounded r.buffer) (call : Call) : Moves r (r.obey call) := by
  cases call with
  | probe =>
      obtain ⟨full, hpulls, hglance⟩ := probe_cases h
      rw [obey, hglance.snd_eq]
      exact .nothing hpulls
  | next =>
      obtain ⟨full, hpulls, houtcome⟩ := next_cases h
      unfold obey
      generalize r.next = result at houtcome
      cases houtcome with
      | record hframe => exact .record hpulls hframe
      | rejected _ _ => exact .nothing hpulls
      | broken => exact .nothing hpulls
      | truncated => exact .nothing hpulls
      | ended => exact .nothing hpulls
      | waiting => exact .nothing hpulls

theorem bounded_nil : Bounded [] := ⟨Nat.zero_le _, fun hlong => absurd hlong (by simp)⟩

theorem Moves.bounded {r r' : Reader} {record? : Option Record} (h : Moves r (record?, r')) :
    Bounded r'.buffer := by
  cases h with
  | nothing hpulls => exact hpulls.bounded
  | record _ _ => exact bounded_nil

theorem Moves.calls {r r' : Reader} {record? : Option Record} (h : Moves r (record?, r')) :
    ∀ call ∈ r'.source.calls, call ∈ r.source.calls ∨ 0 < call.1 ∧ call.1 ≤ callLimit := by
  cases h with
  | nothing hpulls => exact hpulls.calls
  | record hpulls _ => exact hpulls.calls

/-- Frames of these records, one for each and in their order. -/
structure Frames (frames : List Bytes) (records : List Record) : Prop where
  decoded : frames.map Record.decode = records.map .ok
  whole : ∀ frame ∈ frames, Record.declared frame = frame.length

/-- **A run keeps every byte**: what has left the reader are frames of the records it gave. -/
theorem frames_run {r : Reader} (h : Bounded r.buffer) (calls : List Call) :
    Bounded (r.run calls).2.buffer
      ∧ ∃ frames, Frames frames (r.run calls).1
          ∧ frames.flatten ++ (r.run calls).2.pending = r.pending := by
  induction calls generalizing r with
  | nil => exact ⟨h, [], ⟨rfl, by simp⟩, rfl⟩
  | cons call calls ih =>
      have hmoves := moves_obey h call
      rw [run]
      cases hobey : r.obey call with
      | mk record? r' =>
          rw [hobey] at hmoves
          obtain ⟨hbounded, frames, hframes, hkept⟩ := ih hmoves.bounded
          refine ⟨hbounded, ?_⟩
          cases hmoves with
          | nothing hpulls => exact ⟨frames, hframes, hkept.trans hpulls.pending⟩
          | @record full record hpulls hframe =>
              refine ⟨full.buffer :: frames, ⟨?_, ?_⟩, ?_⟩
              · show Record.decode full.buffer :: frames.map Record.decode = _
                rw [hframe.decoded, hframes.decoded]
                rfl
              · intro frame hm
                rcases List.mem_cons.mp hm with rfl | hm
                · exact hframe.whole
                · exact hframes.whole frame hm
              · show full.buffer ++ frames.flatten ++ _ = _
                rw [List.append_assoc, hkept, ← hpulls.pending]
                rfl

/-- The calls of a whole run are as modest as each of them. -/
theorem calls_run {r : Reader} (h : Bounded r.buffer) (calls : List Call) :
    ∀ call ∈ (r.run calls).2.source.calls,
      call ∈ r.source.calls ∨ 0 < call.1 ∧ call.1 ≤ callLimit := by
  induction calls generalizing r with
  | nil => exact fun call hm => Or.inl hm
  | cons asked calls ih =>
      have hmoves := moves_obey h asked
      intro call hm
      rw [run] at hm
      cases hobey : r.obey asked with
      | mk record? r' =>
          rw [hobey] at hmoves hm
          rcases ih hmoves.bounded call hm with hold | hnew
          · exact hmoves.calls call hold
          · exact Or.inr hnew

theorem run_of_unfit {r : Reader} {header : Header} {e : FrameError}
    (hheader : Header.ofBytes? r.buffer = some header) (hvalid : header.validate = .error e)
    (calls : List Call) : r.run calls = ([], r) := by
  obtain ⟨hprobe, hnext⟩ := next_of_unfit hheader hvalid
  induction calls with
  | nil => rfl
  | cons call calls ih =>
      have hobey : r.obey call = (none, r) := by
        cases call with
        | probe => rw [obey, hprobe]
        | next => rw [obey, hnext]
      rw [run, hobey]
      dsimp only
      rw [ih]
      rfl

/-- Only an unfit header is rejected as one. -/
theorem unfit_of_rejected {r : Reader} (h : Bounded r.buffer) {e : FrameError}
    (hfailed : r.next.1 = .failed e) (hreject : ∃ header : Header, header.validate = .error e) :
    ∃ header, Header.ofBytes? r.next.2.buffer = some header ∧ header.validate = .error e := by
  -- the errors of a header are not those of a source or of an end
  have hkinds : (∀ cause, e ≠ .io cause)
      ∧ ∀ expected received, e ≠ .truncated expected received := by
    obtain ⟨header, hvalid⟩ := hreject
    unfold Header.validate at hvalid
    split at hvalid
    · obtain rfl := Except.error.inj hvalid
      exact ⟨by simp, by simp⟩
    · split at hvalid
      · obtain rfl := Except.error.inj hvalid
        exact ⟨by simp, by simp⟩
      · split at hvalid
        · obtain rfl := Except.error.inj hvalid
          exact ⟨by simp, by simp⟩
        · exact absurd hvalid (by simp)
  obtain ⟨full, -, houtcome⟩ := next_cases h
  generalize r.next = result at houtcome hfailed
  cases houtcome with
  | record _ => exact absurd hfailed (by simp)
  | @rejected header e' hheader hvalid =>
      obtain rfl : e' = e := Progress.failed.inj hfailed
      exact ⟨header, hheader, hvalid⟩
  | @broken cause => exact absurd (Progress.failed.inj hfailed).symm (hkinds.1 cause)
  | @truncated expected received =>
      exact absurd (Progress.failed.inj hfailed).symm (hkinds.2 expected received)
  | ended => exact absurd hfailed (by simp)
  | waiting => exact absurd hfailed (by simp)

/-- **Whatever a source does and whatever is asked of its reader, no byte is lost, doubled or taken
too early.** After any calls, errors among them or not:

* the frames of the records so far, the buffer and what the source has left are the bytes of the
  source, and so they are at each point while the reader pulls;
* the buffer is bounded, and no call of the source was for nothing or for more than a call may be;
* the next call pulls, and gives nothing or the whole of its buffer;
* a header that it rejects is rejected ever after, and the source is left alone. -/
theorem run_loses_nothing (source : Source) (calls : List Call) :
    let (records, r) := run { source } calls
    (∃ frames, Frames frames records
        ∧ ∀ mid, Pulls r mid → frames.flatten ++ mid.buffer ++ mid.source.rest = source.rest)
      ∧ Bounded r.buffer
      ∧ (∀ call ∈ r.source.calls, call ∈ source.calls ∨ 0 < call.1 ∧ call.1 ≤ callLimit)
      ∧ (∀ call, Moves r (r.obey call))
      ∧ ∀ e, r.next.1 = .failed e → (∃ header : Header, header.validate = .error e) →
          ∀ later, run r.next.2 later = ([], r.next.2) ∧ r.next.2.next = (.failed e, r.next.2) := by
  obtain ⟨hbounded, frames, hframes, hkept⟩ := frames_run (r := { source }) bounded_nil calls
  refine ⟨⟨frames, hframes, ?_⟩, hbounded, calls_run bounded_nil calls, moves_obey hbounded, ?_⟩
  · intro mid hpulls
    rw [List.append_assoc]
    show frames.flatten ++ mid.pending = _
    rw [hpulls.pending, hkept]
    rfl
  · intro e hfailed hreject later
    obtain ⟨header, hheader, hvalid⟩ := unfit_of_rejected hbounded hfailed hreject
    exact ⟨run_of_unfit hheader hvalid later, (next_of_unfit hheader hvalid).2⟩

/-- A source that fails and pauses in the middle of things, and an unknown kind behind a record. -/
theorem run_past_faults :
    let source : Source :=
      { rest := (Record.message "hi").encode ++ [42, 0, 0, 0, 51, 0, 0, 0, 0, 0, 0, 0, 7, 7]
        plan := Source.cycle [.upTo 100, .fail "reset", .upTo 0, .all] }
    let (records, r) := run { source } [.next, .probe, .next, .next]
    records = [.message "hi"] ∧ r.next.1 = .failed (.unknownKind 42)
      ∧ ∀ later, run r.next.2 later = ([], r.next.2) := by
  intro source
  refine ⟨by decide +kernel, by decide +kernel, ?_⟩
  intro later
  obtain ⟨-, -, -, -, hstuck⟩ := run_loses_nothing source [.next, .probe, .next, .next]
  exact (hstuck (.unknownKind 42) (by decide +kernel) ⟨⟨42, 51⟩, rfl⟩ later).1

end Reader

end ChatRoom
