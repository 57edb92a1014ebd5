import ChatRoom.Proofs.Conservation
import ChatRoom.Proofs.RecordRoundTrip

/-!
# What a stream keeps of the records in it

A record that is written and read again comes back in its normal form. That form is the record
itself for exactly the records whose text fits: no NUL in it, and no more bytes than its kind
allows. And records that are written one behind the other come back one by one, in whatever pieces
the bytes arrive, for each declares as many bytes as it takes.

How much of a text is kept is said without the writer: it is the longest run of whole characters at
the front that is within the limit (`Text.IsCut`).
-/

namespace ChatRoom

/-! ## Cut texts -/

namespace Text

/-- `cut` is what the limit leaves of a text: whole characters from the front, as many as fit. -/
structure IsCut (limit : Nat) (text cut : String) : Prop where
  front : cut.toList <+: text.toList
  within : (bytes cut).length ≤ limit
  longest : ∀ other : String, other.toList <+: text.toList → (bytes other).length ≤ limit →
    other.toList <+: cut.toList

theorem isCut_clamp (limit : Nat) (text : String) : IsCut limit text (clamp limit text) := by
  refine ⟨?_, length_bytes_clamp_le limit text, ?_⟩
  · rw [toList_clamp]
    exact takeBytes_isPrefix limit text.toList
  · intro other hfront hfits
    rw [length_bytes] at hfits
    rw [toList_clamp]
    exact isPrefix_takeBytes hfront hfits

/-- If all of a text is still there after a cut, and after something more was taken out, then there
was nothing to cut. -/
theorem takeBytes_eq_of_sublist {limit : Nat} {cs : List Char}
    (h : List.Sublist cs (takeBytes limit cs)) : takeBytes limit cs = cs :=
  (takeBytes_isPrefix limit cs).eq_of_length_le h.length_le

theorem fits_of_takeBytes {limit : Nat} {text : String}
    (hcut : takeBytes limit text.toList = text.toList) (hnul : '\x00' ∉ text.toList) :
    Fits limit text := by
  refine ⟨hnul, ?_⟩
  rw [length_bytes, ← hcut]
  exact size_takeBytes_le limit text.toList

/-- A field keeps a text as it is only if the text fits. -/
theorem fielded_eq_self_iff {limit : Nat} {text : String} :
    fielded limit text = text ↔ Fits limit text := by
  refine ⟨?_, fielded_of_fits⟩
  intro h
  have hlist : (takeBytes limit text.toList).takeWhile (· != '\x00') = text.toList := by
    have := congrArg String.toList h
    rwa [fielded, untilNul, String.toList_ofList, toList_clamp] at this
  have hcut := takeBytes_eq_of_sublist (hlist ▸ List.takeWhile_sublist _)
  rw [hcut] at hlist
  refine fits_of_takeBytes hcut ?_
  intro hm
  exact absurd (List.takeWhile_eq_self_iff.mp hlist _ hm) (by simp)

theorem withoutNuls_of_not_mem {text : String} (h : '\x00' ∉ text.toList) :
    withoutNuls text = text := by
  have hall : ∀ c ∈ text.toList, (c != '\x00') = true := by
    intro c hc
    have : c ≠ '\x00' := fun he => h (he ▸ hc)
    simpa using this
  rw [withoutNuls, List.filter_eq_self.mpr hall, String.ofList_toList]

/-- A `stdout` text is kept as it is only if it fits. -/
theorem withoutNuls_clamp_eq_self_iff {limit : Nat} {text : String} :
    withoutNuls (clamp limit text) = text ↔ Fits limit text := by
  constructor
  · intro h
    have hlist : (takeBytes limit text.toList).filter (· != '\x00') = text.toList := by
      have := congrArg String.toList h
      rwa [withoutNuls, String.toList_ofList, toList_clamp] at this
    have hcut := takeBytes_eq_of_sublist (hlist ▸ List.filter_sublist)
    rw [hcut] at hlist
    refine fits_of_takeBytes hcut ?_
    intro hm
    exact absurd (List.filter_eq_self.mp hlist _ hm) (by simp)
  · intro h
    rw [clamp_of_length_le h.2, withoutNuls_of_not_mem h.1]

end Text

/-! ## One record -/

/-- The most bytes that the text of a record of this kind may have. -/
def Kind.textLimit : Kind → Nat
  | stdout => stdoutLimit
  | userInfo => nameLimit
  | connect => nameLimit
  | disconnect => nameLimit
  | message => messageLimit

namespace Record

/-- The one text of a record: what it says, or a name. -/
def text : Record → String
  | stdout text => text
  | userInfo user => user.name
  | connect user _ => user.name
  | disconnect name => name
  | message text => text

/-- **A record is in its normal form if its text fits**, and only then. -/
theorem normal_eq_self_iff (r : Record) :
    r.normal = r ↔ Text.Fits r.kind.textLimit r.text := by
  cases r with
  | stdout text =>
      rw [normal, stdout.injEq]
      exact Text.withoutNuls_clamp_eq_self_iff
  | userInfo user =>
      rw [normal, userInfo.injEq, Identity.normal, Identity.mk.injEq, and_iff_left rfl]
      exact Text.fielded_eq_self_iff
  | connect user validateOnly =>
      rw [normal, connect.injEq, and_iff_left rfl, Identity.normal, Identity.mk.injEq,
        and_iff_left rfl]
      exact Text.fielded_eq_self_iff
  | disconnect name =>
      rw [normal, disconnect.injEq]
      exact Text.fielded_eq_self_iff
  | message text =>
      rw [normal, message.injEq]
      exact Text.fielded_eq_self_iff

theorem decode_encode_self (r : Record) : decode r.encode = .ok r.normal := by
  have := decode_encode r []
  rwa [List.append_nil] at this

theorem decode_encode_eq_self_iff (r : Record) :
    decode r.encode = .ok r ↔ Text.Fits r.kind.textLimit r.text := by
  rw [decode_encode_self, Except.ok.injEq]
  exact normal_eq_self_iff r

/-! ## One record behind the other -/

/-- What is written declares its true length, whatever comes behind it. -/
theorem declared_encode (r : Record) (rest : Bytes) :
    declared (r.encode ++ rest) = r.encode.length := by
  have hheader : Header.ofBytes? (r.encode ++ rest) = some r.header := by
    rw [encode, List.append_assoc, Header.ofBytes?_bytes_append]
  rw [declared_of_fit hheader (validate_header r), length_encode]

end Record

namespace Reader

/-- A reader with nothing before it ends with nothing in its buffer. -/
theorem run_of_before_nil {r : Reader} (h : r.Before []) (calls : List Call) :
    (r.run calls).2.buffer = [] := by
  have hnothing : ∀ r : Reader, r.pending = [] → r.buffer = [] := by
    intro r hpending
    exact (List.append_eq_nil_iff.mp hpending).1
  have hbounded : Bounded r.buffer := by
    rw [hnothing r h.pending]
    exact bounded_nil
  obtain ⟨-, frames, -, hkept⟩ := frames_run hbounded calls
  rw [h.pending] at hkept
  exact hnothing _ (List.append_eq_nil_iff.mp hkept).2

/-- **Written records are read one by one**, and after them the stream ends. -/
theorem answers_of_encoded (records : List Record) {r : Reader}
    (h : r.Before (records.flatMap Record.encode)) :
    r.answers (List.replicate (records.length + 1) .next)
        = records.map (fun record => .done (some record.normal)) ++ [.done none]
      ∧ (r.run (List.replicate (records.length + 1) .next)).2.buffer = [] := by
  induction records generalizing r with
  | nil =>
      obtain ⟨r', hnext, -⟩ := next_of_before h
      refine ⟨?_, run_of_before_nil h _⟩
      show r.answers [.next] = _
      rw [answers, hnext]
      rfl
  | cons record records ih =>
      have hne : record.encode ++ records.flatMap Record.encode ≠ [] := by
        intro he
        have := congrArg List.length he
        simp [headerSize] at this
      obtain ⟨r', hnext, hr'⟩ := next_of_before h
      have hdecode := record.decode_encode (records.flatMap Record.encode)
      rw [List.flatMap_cons, if_neg hne, hdecode] at hnext
      have hrest := hr' _ hdecode
      rw [List.flatMap_cons, Record.declared_encode, List.drop_left] at hrest
      obtain ⟨hanswers, hbuffer⟩ := ih hrest
      rw [List.length_cons, List.replicate_succ]
      refine ⟨?_, ?_⟩
      · rw [answers, hnext]
        dsimp only
        rw [hanswers]
        rfl
      · rw [run, obey, hnext]
        exact hbuffer

end Reader

/-- **The wire keeps every record, but for what its texts have too much.** What is written is read
as the record's normal form, for which a text is cut to the longest run of characters within its
limit. That is the record itself if and only if its text fits. Records that are written one behind
the other come back in any pieces, one by one, and leave nothing behind. -/
theorem wire_keeps_records :
    (∀ limit text, Text.IsCut limit text (Text.clamp limit text))
      ∧ (∀ r : Record, Record.decode r.encode = .ok r.normal
          ∧ (Record.decode r.encode = .ok r ↔ Text.Fits r.kind.textLimit r.text))
      ∧ ∀ (records : List Record) (source : Source),
          source.rest = records.flatMap Record.encode → source.Steady →
          let calls := List.replicate (records.length + 1) Call.next
          Reader.answers { source } calls
              = records.map (fun record => .done (some record.normal)) ++ [.done none]
            ∧ (Reader.run { source } calls).2.buffer = [] := by
  refine ⟨Text.isCut_clamp, ?_, ?_⟩
  · intro r
    exact ⟨r.decode_encode_self, r.decode_encode_eq_self_iff⟩
  · intro records source hrest hsteady
    exact Reader.answers_of_encoded records ⟨hsteady, hrest⟩

/-- A message that a NUL cuts short, and a shown text with a character of two bytes, in pieces of
five bytes. -/
theorem wire_keeps_two_records :
    let records : List Record := [.message "a\x00b", .stdout "hé"]
    let source : Source :=
      { rest := records.flatMap Record.encode, plan := fun _ => .upTo 5 }
    source.Steady
      ∧ Reader.answers { source } [.next, .next, .next]
        = [.done (some (.message "a")), .done (some (.stdout "hé")), .done none]
      ∧ (Reader.run { source } [.next, .next, .next]).2.buffer = [] := by
  intro records source
  have hsteady : source.Steady := ⟨rfl, fun _ => Or.inr ⟨5, by decide, rfl⟩⟩
  have hnormal : records.map (fun record => Progress.done (some record.normal))
      = [.done (some (.message "a")), .done (some (.stdout "hé"))] := by
    decide +kernel
  obtain ⟨hanswers, hbuffer⟩ := wire_keeps_records.2.2 records source rfl hsteady
  refine ⟨hsteady, ?_, hbuffer⟩
  rw [hnormal] at hanswers
  exact hanswers

end ChatRoom
