import ChatRoom.Wire.Reader

/-!
# Reading does not depend on the pieces

There are two ways to read records: off a stream, piece by piece, where the header is judged before
the body is asked for, and from a byte string at hand. They are the same. A source that always gives
something while it has something (`Source.Steady`) may give it in any pieces, and headers may be
looked at as often as one likes; what the reader gives, record after record, is what `decode` gives
on the bytes that are not yet used up.

The invariant is that buffer and source together hold those bytes. `fill` moves some of them from
one to the other and stops for one reason only: it has what was wanted, or there is no more.
-/

namespace ChatRoom

/-- A source that answers every call, and with nothing only when it is at its end. -/
structure Source.Steady (s : Source) : Prop where
  answers : s.waits = false
  gives : ∀ call, s.plan call = .all ∨ ∃ limit, 0 < limit ∧ s.plan call = .upTo limit

theorem Source.read_steady {s : Source} (h : s.Steady) (asked : Nat) (hpos : 0 < asked) :
    ∃ chunk s', s.read asked = (.bytes chunk, s') ∧ s'.Steady ∧ (chunk = [] → s.rest = []) := by
  have hsteady : ∀ wanted, ((read.give s asked wanted).2).Steady := fun wanted =>
    ⟨h.answers, h.gives⟩
  have htake : ∀ wanted, 0 < wanted → s.rest.take wanted = [] → s.rest = [] := by
    intro wanted hw he
    rcases List.take_eq_nil_iff.mp he with h0 | hr
    · omega
    · exact hr
  have hwaits : ¬ (s.waits = true ∧ s.rest = []) := by
    rw [h.answers]
    simp
  unfold read
  rw [if_neg hwaits]
  rcases h.gives s.calls.length with hp | ⟨limit, hlimit, hp⟩
  · rw [hp]
    exact ⟨s.rest.take asked, _, rfl, hsteady asked, htake asked hpos⟩
  · rw [hp]
    exact ⟨s.rest.take (min limit asked), _, rfl, hsteady (min limit asked),
      htake (min limit asked) (by omega)⟩

/-! ## The header at the front -/

/-- Whatever comes behind the header does not change it. -/
theorem Header.ofBytes?_append {bs : Bytes} (h : headerSize ≤ bs.length) (rest : Bytes) :
    ofBytes? (bs ++ rest) = ofBytes? bs := by
  have hlong : ¬ (bs ++ rest).length < headerSize := by
    rw [List.length_append]
    omega
  have hsize : headerSize = 12 := rfl
  rw [ofBytes?, ofBytes?, if_neg hlong, if_neg (by omega), List.take_append_of_le_length (by omega),
    List.drop_append_of_le_length (by omega), List.take_append_of_le_length (by
      rw [List.length_drop]
      omega)]

/-- The bytes that the record at the front declares to take. -/
def Record.declared (bs : Bytes) : Nat := ((Header.ofBytes? bs).map (·.size.toNat)).getD 0

section

variable {bs : Bytes} {header : Header} (hheader : Header.ofBytes? bs = some header)

include hheader

/-- Nothing behind a header is looked at that is not fit. -/
theorem Record.decode_of_unfit {e : FrameError} (hvalid : header.validate = .error e) :
    decode bs = .error e := by
  rw [decode, hheader]
  simp only [hvalid]

/-- A header that is fit decides how many bytes are the record's. -/
theorem Record.decode_of_fit {kind : Kind} {size : Nat}
    (hvalid : header.validate = .ok (kind, size)) :
    decode bs = if bs.length < size then .error (.truncated size bs.length)
      else .ok (ofBody kind ((bs.take size).drop headerSize)) := by
  rw [decode, hheader]
  simp only [hvalid]

theorem Record.declared_of_fit {kind : Kind} {size : Nat}
    (hvalid : header.validate = .ok (kind, size)) : declared bs = size := by
  rw [declared, hheader]
  exact (Header.validate_bounds hvalid).2.2

end

namespace Reader

/-- A reader that may be used on, and has these bytes still before it. -/
structure Before (r : Reader) (rest : Bytes) : Prop where
  steady : r.source.Steady
  pending : r.pending = rest

/-- **Filling brings as many bytes as were wanted, or all there are.** -/
theorem fill_of_before {r : Reader} {rest : Bytes} (h : r.Before rest) (wanted : Nat) :
    ∃ r', r.fill wanted = (.done (decide (wanted ≤ rest.length)), r') ∧ r'.Before rest
      ∧ (wanted ≤ rest.length → wanted ≤ r'.buffer.length)
      ∧ (¬ wanted ≤ rest.length → r'.buffer = rest) := by
  -- while bytes are missing the reader asks for one at least, which `read_steady` wants to know
  have hask : ∀ r : Reader, ¬ wanted ≤ r.buffer.length →
      0 < min (wanted - r.buffer.length) callLimit := by
    intro r hshort
    have hlimit : callLimit = 512 := rfl
    omega
  fun_induction fill wanted r with
  | case1 r hfull =>
      have hle : wanted ≤ rest.length := by
        rw [← h.pending, pending, List.length_append]
        omega
      exact ⟨r, by rw [decide_eq_true hle], h, fun _ => hfull, fun hn => absurd hle hn⟩
  | case2 r hshort cause source hread =>
      obtain ⟨chunk, s', hgive, -⟩ := Source.read_steady h.steady _ (hask r hshort)
      rw [hread] at hgive
      exact absurd hgive (by simp)
  | case3 r hshort source hread =>
      obtain ⟨chunk, s', hgive, -⟩ := Source.read_steady h.steady _ (hask r hshort)
      rw [hread] at hgive
      exact absurd hgive (by simp)
  | case4 r hshort source hread =>
      obtain ⟨chunk, s', hgive, hsteady, hend⟩ := Source.read_steady h.steady _ (hask r hshort)
      rw [hread] at hgive
      obtain ⟨rfl, rfl⟩ : [] = chunk ∧ source = s' := by simpa using hgive
      -- nothing was given, so nothing is left, and what is wanted is not there
      have hrest := Source.rest_of_read hread
      rw [List.nil_append, hend rfl] at hrest
      have hbuffer : r.buffer = rest := by
        rw [← h.pending, pending, hend rfl, List.append_nil]
      have hless : ¬ wanted ≤ rest.length := by
        rw [← hbuffer]
        exact hshort
      refine ⟨{ r with source }, by rw [decide_eq_false hless], ⟨hsteady, ?_⟩,
        fun hle => absurd hle hless, fun _ => hbuffer⟩
      rw [pending, ← hrest, List.append_nil]
      exact hbuffer
  | case5 r hshort b bs source hread ih =>
      obtain ⟨chunk, s', hgive, hsteady, -⟩ := Source.read_steady h.steady _ (hask r hshort)
      rw [hread] at hgive
      obtain ⟨rfl, rfl⟩ : b :: bs = chunk ∧ source = s' := by simpa using hgive
      refine ih ⟨hsteady, ?_⟩
      rw [← h.pending, pending, pending, Source.rest_of_read hread, List.append_assoc]

/-- Looking at the header is looking at the front of the bytes that are left. -/
theorem probe_of_before {r : Reader} {rest : Bytes} (h : r.Before rest) :
    ∃ r', r'.Before rest ∧ r.probe =
      (if rest = [] then .done none
        else match Header.ofBytes? rest with
          | some header => .done (some header)
          | none => .failed (.truncated headerSize rest.length), r') := by
  obtain ⟨r', hfill, hr', henough, hshort⟩ := fill_of_before h headerSize
  refine ⟨r', hr', ?_⟩
  rw [probe, hfill]
  dsimp only
  by_cases hle : headerSize ≤ rest.length
  · have hbuffer := henough hle
    have hheader : Header.ofBytes? rest = Header.ofBytes? r'.buffer := by
      rw [← hr'.pending, pending, Header.ofBytes?_append hbuffer]
    have hne : rest ≠ [] := by
      intro he
      subst he
      exact absurd hle (by decide)
    rw [hheader, if_neg hne, Header.ofBytes?, if_neg (by omega)]
  · have hnone : Header.ofBytes? rest = none := if_pos (by omega)
    rw [hshort hle, hnone]
    by_cases hne : rest = []
    · rw [if_pos hne, if_pos hne]
    · rw [if_neg hne, if_neg hne]

/-- **The next record is the one that `decode` finds** at the front of the bytes that are left, and
uses up as many of them as it declares. -/
theorem next_of_before {r : Reader} {rest : Bytes} (h : r.Before rest) :
    ∃ r', r.next =
        (if rest = [] then .done none
          else match Record.decode rest with
            | .ok record => .done (some record)
            | .error e => .failed e, r')
      ∧ ∀ record, Record.decode rest = .ok record →
          r'.Before (rest.drop (Record.declared rest)) := by
  obtain ⟨r₁, h₁, hprobe⟩ := probe_of_before h
  rw [next, hprobe]
  by_cases hne : rest = []
  · subst hne
    refine ⟨r₁, rfl, ?_⟩
    intro record hdecode
    exact absurd hdecode (by simp [Record.decode, Header.ofBytes?, headerSize])
  · rw [if_neg hne, if_neg hne]
    cases hheader : Header.ofBytes? rest with
    | none =>
        have hdecode : Record.decode rest = .error (.truncated headerSize rest.length) := by
          rw [Record.decode, hheader]
        rw [hdecode]
        exact ⟨r₁, rfl, by simp⟩
    | some header =>
        dsimp only
        cases hvalid : header.validate with
        | error e =>
            rw [Record.decode_of_unfit hheader hvalid]
            exact ⟨r₁, rfl, by simp⟩
        | ok judged =>
            obtain ⟨kind, size⟩ := judged
            obtain ⟨r₂, hfill, h₂, henough, hshort⟩ := fill_of_before h₁ size
            rw [Record.decode_of_fit hheader hvalid, Record.declared_of_fit hheader hvalid]
            simp only [hfill]
            by_cases hle : size ≤ rest.length
            · -- the record is in the buffer, and perhaps more than the record
              have hbuffer := henough hle
              have hsplit : rest = r₂.buffer ++ r₂.source.rest := h₂.pending.symm
              rw [if_neg (by omega), decide_eq_true hle]
              refine ⟨{ r₂ with buffer := r₂.buffer.drop size }, ?_, ?_⟩
              · rw [hsplit, List.take_append_of_le_length hbuffer]
              · intro record _
                refine ⟨h₂.steady, ?_⟩
                rw [hsplit, List.drop_append_of_le_length hbuffer]
                rfl
            · rw [if_pos (by omega), decide_eq_false hle]
              exact ⟨r₂, by simp only [hshort hle], by simp⟩

end Reader

/-! ## Runs -/

/-- What may be asked of a reader. -/
inductive Call where
  | probe
  | next
  deriving DecidableEq, Repr

/-- What `next` gives, call by call, up to the first answer that is no record. -/
def Reader.answers (r : Reader) : List Call → List (Progress (Option Record))
  | [] => []
  | .probe :: calls => answers r.probe.2 calls
  | .next :: calls =>
    match r.next with
    | (.done (some record), r) => .done (some record) :: answers r calls
    | (answer, _) => [answer]

/-- What `decode` makes of bytes, record by record, up to the first answer that is no record, and
for so many records at most. -/
def Record.decodeAll (bs : Bytes) : (most : Nat) → List (Progress (Option Record))
  | 0 => []
  | most + 1 =>
    if bs = [] then [.done none]
    else
      match decode bs with
      | .ok record => .done (some record) :: decodeAll (bs.drop (declared bs)) most
      | .error e => [.failed e]

theorem Reader.answers_of_before {r : Reader} {rest : Bytes} (h : r.Before rest)
    (calls : List Call) : r.answers calls = Record.decodeAll rest (calls.count .next) := by
  -- on the calls: a look leaves what is left as it is, and a record leaves what is behind it
  induction calls generalizing r rest with
  | nil => rfl
  | cons call calls ih =>
      cases call with
      | probe =>
          obtain ⟨r', hr', hprobe⟩ := probe_of_before h
          rw [answers, hprobe, ih hr', List.count_cons_of_ne (by simp)]
      | next =>
          obtain ⟨r', hnext, hr'⟩ := next_of_before h
          rw [answers, hnext, List.count_cons_self, Record.decodeAll]
          by_cases hne : rest = []
          · rw [if_pos hne, if_pos hne]
          · rw [if_neg hne, if_neg hne]
            cases hdecode : Record.decode rest with
            | ok record =>
                dsimp only
                rw [ih (hr' record hdecode)]
            | error e => rfl

/-- A record is read only behind a header that is fit, and only if its bytes are all there. -/
theorem Record.fit_of_decode {bs : Bytes} {record : Record} (h : decode bs = .ok record) :
    ∃ header kind size, Header.ofBytes? bs = some header ∧ header.validate = .ok (kind, size)
      ∧ size ≤ bs.length ∧ record = ofBody kind ((bs.take size).drop headerSize) := by
  cases hheader : Header.ofBytes? bs with
  | none =>
      rw [decode, hheader] at h
      exact absurd h (by simp)
  | some header =>
      cases hvalid : header.validate with
      | error e =>
          rw [decode_of_unfit hheader hvalid] at h
          exact absurd h (by simp)
      | ok judged =>
          obtain ⟨kind, size⟩ := judged
          rw [decode_of_fit hheader hvalid] at h
          by_cases hshort : bs.length < size
          · rw [if_pos hshort] at h
            exact absurd h (by simp)
          · rw [if_neg hshort] at h
            exact ⟨header, kind, size, rfl, hvalid, Nat.not_lt.mp hshort, (Except.ok.inj h).symm⟩

/-- A record that is read takes as many bytes as it declares, and they are all there. -/
theorem Record.declared_le_length {bs : Bytes} {record : Record} (h : decode bs = .ok record) :
    declared bs ≤ bs.length := by
  obtain ⟨header, kind, size, hheader, hvalid, hlength, -⟩ := fit_of_decode h
  rw [declared_of_fit hheader hvalid]
  exact hlength

/-- **What is read off a stream depends on its bytes alone**: whatever the pieces are in which it
comes, and however often headers are looked at, it is what `decode` gives, record after record. What
is left after a record is shorter by what the record declares. -/
theorem answers_eq_decodeAll (bs : Bytes) (source : Source) (hrest : source.rest = bs)
    (hsteady : source.Steady) (calls : List Call) :
    Reader.answers { source } calls = Record.decodeAll bs (calls.count .next)
      ∧ ∀ rest record, Record.decode rest = .ok record →
          (rest.drop (Record.declared rest)).length + Record.declared rest = rest.length := by
  have hbefore : Reader.Before { source } bs := ⟨hsteady, hrest⟩
  refine ⟨Reader.answers_of_before hbefore calls, ?_⟩
  intro rest record hdecode
  have hle := Record.declared_le_length hdecode
  rw [List.length_drop]
  omega

/-- A record in pieces of five bytes, and the beginning of another. -/
theorem answers_of_pieces :
    Reader.answers
        { source :=
            { rest := (Record.message "hello").encode ++ [4, 0, 0], plan := fun _ => .upTo 5 } }
        [.probe, .next, .probe, .probe, .next]
      = [.done (some (.message "hello")), .failed (.truncated 12 3)] := by
  have hsteady : Source.Steady
      { rest := (Record.message "hello").encode ++ [4, 0, 0], plan := fun _ => .upTo 5 } :=
    ⟨rfl, fun _ => Or.inr ⟨5, by decide, rfl⟩⟩
  refine (answers_eq_decodeAll _ _ rfl hsteady _).1.trans ?_
  decide +kernel

end ChatRoom
