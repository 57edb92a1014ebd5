import ChatRoom.Proofs.LossyText
import ChatRoom.Proofs.StreamRoundTrip

/-!
# Passing on what was read

A record may be read from any bytes that are a frame, and is then written for somebody else. Its
text has no NUL, for reading a field stops there. But a field is cut to its limit before it is read
as text, and what is no text takes more bytes once it is replaced: up to three times as many. So
there are frames whose name or message outgrows its limit, and such a record is cut when it is
passed on. `passed_on_iff` says that this is the only thing that can happen to it, that it happens
once, and that it never happens where the bytes were a text to begin with.
-/

namespace ChatRoom

namespace Field

/-- The bytes of a field that are read as its text. -/
def content (limit : Nat) (field : Bytes) : Bytes := (field.take limit).takeWhile (· != 0)

theorem read_eq (limit : Nat) (field : Bytes) :
    read limit field = Text.ofBytes (content limit field) := rfl

theorem length_content_le (limit : Nat) (field : Bytes) : (content limit field).length ≤ limit :=
  ((List.takeWhile_sublist _).length_le).trans (List.length_take_le limit field)

theorem nul_not_mem_content (limit : Nat) (field : Bytes) : 0 ∉ content limit field := by
  intro h
  exact absurd (List.mem_takeWhile_imp h) (by decide)

end Field

namespace Record

/-! ## Where the text of a record comes from -/

/-- The field that has a record's one text in it. -/
def textField : Kind → Bytes → Bytes
  | .stdout, body => body
  | .userInfo, body => body.take nameWidth
  | .connect, body => body.take nameWidth
  | .disconnect, body => body.take nameWidth
  | .message, body => body.take messageWidth

/-- The bytes that are read as the text of the record at the front of `frame`. -/
def written (frame : Bytes) : Bytes :=
  match Header.ofBytes? frame with
  | none => []
  | some header =>
    match header.validate with
    | .error _ => []
    | .ok (kind, size) =>
      Field.content kind.textLimit (textField kind ((frame.take size).drop headerSize))

theorem kind_ofBody (kind : Kind) (body : Bytes) : (ofBody kind body).kind = kind := by
  cases kind <;> rfl

theorem text_ofBody (kind : Kind) (body : Bytes) :
    (ofBody kind body).text = Field.read kind.textLimit (textField kind body) := by
  cases kind <;> rfl

/-- **The text of a record that was read** is what its field has in front of the first NUL, within
the limit of its kind. -/
theorem text_of_decode {frame : Bytes} {r : Record} (h : decode frame = .ok r) :
    r.text = Text.ofBytes (written frame) ∧ (written frame).length ≤ r.kind.textLimit
      ∧ 0 ∉ written frame := by
  obtain ⟨header, kind, size, hheader, hvalid, -, rfl⟩ := fit_of_decode h
  have hwritten : written frame
      = Field.content kind.textLimit (textField kind ((frame.take size).drop headerSize)) := by
    rw [written, hheader]
    dsimp only
    rw [hvalid]
  rw [hwritten, kind_ofBody, text_ofBody]
  exact ⟨Field.read_eq _ _, Field.length_content_le _ _, Field.nul_not_mem_content _ _⟩

theorem nul_not_mem_text {frame : Bytes} {r : Record} (h : decode frame = .ok r) :
    '\x00' ∉ r.text.toList := by
  obtain ⟨htext, -, hnul⟩ := text_of_decode h
  rw [htext]
  exact Text.nul_not_mem_ofBytes hnul

theorem length_text_le {frame : Bytes} {r : Record} (h : decode frame = .ok r) :
    (Text.bytes r.text).length ≤ 3 * r.kind.textLimit := by
  obtain ⟨htext, hlength, -⟩ := text_of_decode h
  rw [htext]
  exact (Text.length_bytes_ofBytes_le _).trans (Nat.mul_le_mul_left 3 hlength)

/-- Bytes that are a text stay within the limit, for they are not replaced. -/
theorem length_text_le_of_written {frame : Bytes} {r : Record} (h : decode frame = .ok r)
    {text : String} (hwritten : written frame = Text.bytes text) :
    (Text.bytes r.text).length ≤ r.kind.textLimit := by
  obtain ⟨htext, hlength, -⟩ := text_of_decode h
  rwa [htext, hwritten, Text.ofBytes_bytes, ← hwritten]

/-! ## What is read of it in turn -/

theorem decode_encode_iff_of_decode {frame : Bytes} {r : Record} (h : decode frame = .ok r) :
    decode r.encode = .ok r ↔ (Text.bytes r.text).length ≤ r.kind.textLimit := by
  rw [decode_encode_eq_self_iff, Text.Fits, and_iff_right (nul_not_mem_text h)]

@[simp] theorem kind_normal (r : Record) : r.normal.kind = r.kind := by
  cases r <;> simp only [normal, kind]

/-- Of a text without a NUL, its normal form keeps what the limit leaves of it. -/
theorem text_normal {r : Record} (h : '\x00' ∉ r.text.toList) :
    r.normal.text = Text.clamp r.kind.textLimit r.text := by
  have hcut : '\x00' ∉ (Text.clamp r.kind.textLimit r.text).toList := by
    have hfront := Text.takeBytes_isPrefix r.kind.textLimit r.text.toList
    rw [Text.toList_clamp]
    intro hm
    exact h (hfront.subset hm)
  -- with its limit written out, the cut text is what each kind takes the NULs from
  cases r with
  | stdout said =>
      simp only [text, kind, Kind.textLimit] at hcut ⊢
      exact Text.withoutNuls_of_not_mem hcut
  | userInfo user =>
      simp only [text, kind, Kind.textLimit] at hcut ⊢
      exact Text.untilNul_of_not_mem hcut
  | connect user validateOnly =>
      simp only [text, kind, Kind.textLimit] at hcut ⊢
      exact Text.untilNul_of_not_mem hcut
  | disconnect name =>
      simp only [text, kind, Kind.textLimit] at hcut ⊢
      exact Text.untilNul_of_not_mem hcut
  | message said =>
      simp only [text, kind, Kind.textLimit] at hcut ⊢
      exact Text.untilNul_of_not_mem hcut

/-- What was cut once is not cut again. -/
theorem decode_encode_normal {r : Record} (h : '\x00' ∉ r.text.toList) :
    decode r.normal.encode = .ok r.normal := by
  rw [decode_encode_iff_of_decode (decode_encode_self r), kind_normal, text_normal h]
  exact Text.length_bytes_clamp_le _ _

end Record

/-- **A record that was read can be passed on as it is if its text is within its limit**, and only
then. The text is without NULs and at most three times too long. It is within the limit wherever the
bytes were a text. Otherwise the next reader has what the limit leaves of it, and so has everyone
after that one. -/
theorem passed_on_iff {frame : Bytes} {r : Record} (h : Record.decode frame = .ok r) :
    '\x00' ∉ r.text.toList
      ∧ (Text.bytes r.text).length ≤ 3 * r.kind.textLimit
      ∧ (Record.decode r.encode = .ok r ↔ (Text.bytes r.text).length ≤ r.kind.textLimit)
      ∧ (∀ text, Record.written frame = Text.bytes text →
          r.text = text ∧ (Text.bytes r.text).length ≤ r.kind.textLimit
            ∧ Record.decode r.encode = .ok r)
      ∧ (Record.decode r.encode = .ok r.normal
          ∧ Text.IsCut r.kind.textLimit r.text r.normal.text
          ∧ Record.decode r.normal.encode = .ok r.normal) := by
  have hnul := Record.nul_not_mem_text h
  have hiff := Record.decode_encode_iff_of_decode h
  refine ⟨hnul, Record.length_text_le h, hiff, ?_, ?_⟩
  · intro text hwritten
    have hwithin := Record.length_text_le_of_written h hwritten
    refine ⟨?_, hwithin, hiff.mpr hwithin⟩
    rw [(Record.text_of_decode h).1, hwritten, Text.ofBytes_bytes]
  · refine ⟨r.decode_encode_self, ?_, Record.decode_encode_normal hnul⟩
    rw [Record.text_normal hnul]
    exact Text.isCut_clamp _ _

/-- Ten bytes that are no text leave room for two characters in a name: it is just within its
limit. -/
theorem passed_on_at_limit :
    let frame :=
      Header.bytes ⟨4, 45⟩ ++ List.replicate 10 0xFF ++ [0x61, 0x62] ++ List.replicate 21 0
    let r := Record.disconnect (String.ofList (List.replicate 10 Text.replacement ++ ['a', 'b']))
    Record.decode frame = .ok r ∧ Record.decode r.encode = .ok r := by
  have hframe : Record.decode (Header.bytes ⟨4, 45⟩ ++ List.replicate 10 0xFF ++ [0x61, 0x62]
      ++ List.replicate 21 0)
      = .ok (.disconnect (String.ofList (List.replicate 10 Text.replacement ++ ['a', 'b']))) := by
    decide +kernel
  exact ⟨hframe, (passed_on_iff hframe).2.2.1.mpr (by decide +kernel)⟩

/-- **Not every record that was read can be passed on as it is.** Eleven bytes that are no text make
a name of thirty-three, which is cut by a character when it is written. -/
theorem garbled_name_outgrows_limit :
    ¬ ∀ (frame : Bytes) (r : Record), Record.decode frame = .ok r →
        (Text.bytes r.text).length ≤ r.kind.textLimit ∧ Record.decode r.encode = .ok r := by
  intro hall
  have hframe : Record.decode (Header.bytes ⟨4, 45⟩ ++ List.replicate 11 0xFF
      ++ List.replicate 22 0)
      = .ok (.disconnect (String.ofList (List.replicate 11 Text.replacement))) := by
    decide +kernel
  exact absurd (hall _ _ hframe).1 (by decide +kernel)

end ChatRoom
