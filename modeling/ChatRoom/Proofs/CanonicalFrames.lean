import ChatRoom.Proofs.FrameGrammar

/-!
# The one form of a frame

Many frames are read as the same record, and only one of them is what that record is written as. It
is the one that leaves nothing open (`Frame.Canonical`): it ends where its layout ends, its texts
are texts, there are only NULs behind them, and a flag is zero or one.

That is shown from both sides. What was read has no NUL in its text, so what it is written as is
canonical. And each part of a canonical body is written from what was read of it: a text from the
text, a number from the number, a flag from the flag.
-/

namespace ChatRoom

/-! ## Texts and fields -/

/-- Bytes that are the encoding of a text. -/
def Text.IsUtf8 (bs : Bytes) : Prop := ∃ text, bytes text = bs

/-- Of such bytes reading replaces nothing. -/
theorem Text.isUtf8_iff {bs : Bytes} : IsUtf8 bs ↔ bytes (ofBytes bs) = bs := by
  constructor
  · rintro ⟨text, rfl⟩
    rw [ofBytes_bytes]
  · intro h
    exact ⟨_, h⟩

instance (bs : Bytes) : Decidable (Text.IsUtf8 bs) := decidable_of_iff _ Text.isUtf8_iff.symm

/-- A field with a text up to its first NUL, and nothing but NULs from there to its end. -/
structure Field.Padded (field : Bytes) : Prop where
  text : Text.IsUtf8 (field.takeWhile (· != 0))
  closed : 0 ∈ field
  padding : ∀ b ∈ field.dropWhile (· != 0), b = 0

/-- A text without the NUL has no NUL among its bytes. -/
theorem Text.nul_not_mem_bytes {text : String} (h : '\x00' ∉ text.toList) : 0 ∉ bytes text := by
  intro hm
  obtain ⟨c, hc, hb⟩ := List.mem_flatMap.mp hm
  have hne : c ≠ '\x00' := by
    rintro rfl
    exact h hc
  exact encoded_ne_zero hne 0 hb rfl

/-- What a limit leaves of a text has no NUL that was not there. -/
theorem Text.nul_not_mem_clamp {text : String} (h : '\x00' ∉ text.toList) (limit : Nat) :
    '\x00' ∉ (clamp limit text).toList := by
  rw [toList_clamp]
  intro hm
  exact h ((takeBytes_isPrefix limit text.toList).subset hm)

namespace Field

theorem takeWhile_of_nul_not_mem {bs : Bytes} (h : 0 ∉ bs) : bs.takeWhile (· != 0) = bs := by
  refine List.takeWhile_eq_self_iff.mpr ?_
  intro b hb
  have hne : b ≠ 0 := by
    rintro rfl
    exact h hb
  exact bne_iff_ne.mpr hne

/-- A field is padded if it is a text without NULs, and then NULs, one at least. -/
theorem padded_iff {field : Bytes} :
    Padded field ↔ ∃ text n, '\x00' ∉ text.toList
      ∧ field = Text.bytes text ++ List.replicate (n + 1) 0 := by
  have hsplit := List.takeWhile_append_dropWhile (p := (· != 0)) (l := field)
  constructor
  · rintro ⟨⟨text, htext⟩, hclosed, hpadding⟩
    -- the field is what is before its first NUL, and NULs
    have hfront : 0 ∉ Text.bytes text := by
      rw [htext]
      intro hm
      exact absurd (List.mem_takeWhile_imp hm) (by decide)
    have hrest := List.eq_replicate_of_mem hpadding
    have hpos : 0 < (field.dropWhile (· != 0)).length := by
      refine List.length_pos_iff.mpr ?_
      intro hnil
      rw [hnil, List.append_nil] at hsplit
      rw [← hsplit, ← htext] at hclosed
      exact hfront hclosed
    obtain ⟨n, hn⟩ := Nat.exists_eq_succ_of_ne_zero hpos.ne'
    refine ⟨text, n, ?_, ?_⟩
    · have := Text.nul_not_mem_ofBytes hfront
      rwa [Text.ofBytes_bytes] at this
    · rw [htext, ← Nat.succ_eq_add_one, ← hn, ← hrest, hsplit]
  · rintro ⟨text, n, hnul, rfl⟩
    have hfront := takeWhile_of_nul_not_mem (Text.nul_not_mem_bytes hnul)
    rw [← takeWhile_replicate _ (n + 1)] at hfront
    rw [hfront] at hsplit
    refine ⟨⟨text, hfront.symm⟩, List.mem_append_right _ (by simp), ?_⟩
    rw [List.append_cancel_left hsplit]
    intro b hb
    exact List.eq_of_mem_replicate hb

/-- A field at the front of some bytes is padded if it was written from a text without NULs. -/
theorem padded_front {limit : Nat} {text : String} {rest bs : Bytes} (h : '\x00' ∉ text.toList)
    (hfront : write (limit + 1) text ++ rest = bs) : Padded (bs.take (limit + 1)) := by
  have hlength := Text.length_bytes_clamp_le limit text
  rw [← hfront, List.take_left' (length_write (limit + 1) text (Nat.succ_pos limit))]
  refine padded_iff.mpr ⟨Text.clamp limit text,
    limit - (Text.bytes (Text.clamp limit text)).length, Text.nul_not_mem_clamp h limit, ?_⟩
  rw [write, Nat.add_sub_cancel, Nat.sub_add_comm hlength]

/-- **A padded field is written from the text that is read of it.** -/
theorem write_read {limit : Nat} {field : Bytes} (h : Padded field)
    (hlength : field.length = limit + 1) : write (limit + 1) (read limit field) = field := by
  obtain ⟨text, n, hnul, rfl⟩ := padded_iff.mp h
  rw [List.length_append, List.length_replicate] at hlength
  have hfits : Text.Fits limit text := ⟨hnul, by omega⟩
  have hwritten : write (limit + 1) text = Text.bytes text ++ List.replicate (n + 1) 0 := by
    rw [write, Nat.add_sub_cancel, Text.clamp_of_length_le hfits.2,
      show limit + 1 - (Text.bytes text).length = n + 1 by omega]
  rw [← hwritten, read_write, Text.fielded_of_fits hfits]

/-- The same of bytes that are no more than the field. -/
theorem write_read_take {limit : Nat} {bs : Bytes} (h : Padded (bs.take (limit + 1)))
    (hlength : bs.length = limit + 1) :
    write (limit + 1) (read limit (bs.take (limit + 1))) = bs := by
  have hall : bs.take (limit + 1) = bs := List.take_of_length_le hlength.le
  rw [hall] at h ⊢
  exact write_read h hlength

end Field

/-! ## Numbers -/

theorem Version.bytes_ofBytes {bs : Bytes} (h : 6 ≤ bs.length) :
    (ofBytes bs).bytes = bs.take 6 := by
  have hpart : ∀ part : Bytes, part.length = 2 →
      LittleEndian.encode 2 (UInt16.ofNat (LittleEndian.decode part)).toNat = part := by
    intro part hlength
    have hlt := LittleEndian.decode_lt part
    rw [hlength] at hlt
    have hmod : LittleEndian.decode part % 2 ^ 16 = LittleEndian.decode part :=
      Nat.mod_eq_of_lt hlt
    rw [UInt16.toNat_ofNat', hmod, ← hlength, LittleEndian.encode_decode]
  have hlength : ∀ n ≤ 4, ((bs.drop n).take 2).length = 2 := by
    intro n hn
    rw [List.length_take, List.length_drop]
    omega
  have hfirst := hlength 0 (by omega)
  rw [List.drop_zero] at hfirst
  rw [bytes, ofBytes, hpart _ hfirst, hpart _ (hlength 2 (by omega)),
    hpart _ (hlength 4 (by omega)), ← List.take_add, ← List.take_add]

theorem Identity.bytes_ofBytes {bs : Bytes} (hfield : Field.Padded (bs.take nameWidth))
    (h : identityWidth ≤ bs.length) : (ofBytes bs).bytes = bs.take identityWidth := by
  have hwidth : identityWidth = nameWidth + 6 := rfl
  have hname : (bs.take nameWidth).length = nameLimit + 1 := by
    rw [List.length_take, Nat.min_eq_left (by omega)]
    rfl
  have hversion : 6 ≤ (bs.drop nameWidth).length := by
    rw [List.length_drop]
    omega
  rw [bytes, ofBytes, Version.bytes_ofBytes hversion]
  show Field.write (nameLimit + 1) _ ++ _ = _
  rw [Field.write_read hfield hname, ← List.take_add]
  rfl

/-! ## Bodies -/

/-- A body of this kind in the one form in which it is written. -/
structure Kind.CanonicalBody (kind : Kind) (body : Bytes) : Prop where
  field : kind ≠ .stdout → Field.Padded (body.take kind.textWidth)
  shown : kind = .stdout → Text.IsUtf8 body ∧ 0 ∉ body
  flag : kind = .connect → body[identityWidth]? = some 0 ∨ body[identityWidth]? = some 1

namespace Record

/-- Only what is shown has a body of no fixed length. -/
theorem length_body_of_fixed {r : Record} (h : r.kind ≠ .stdout) :
    r.body.length = r.kind.bodySize := by
  cases r with
  | stdout text => exact absurd rfl h
  | userInfo user => exact Identity.length_bytes user
  | connect user validateOnly =>
      rw [body, List.length_append, Identity.length_bytes]
      rfl
  | disconnect name => exact Field.length_write nameWidth name (by decide)
  | message text => exact Field.length_write messageWidth text (by decide)

/-- The body of a record without a NUL in its text is canonical. -/
theorem canonicalBody {r : Record} (h : '\x00' ∉ r.text.toList) :
    r.kind.CanonicalBody r.body := by
  cases r with
  | stdout text =>
      have hcut := Text.nul_not_mem_clamp h stdoutLimit
      have hbody : body (.stdout text) = Text.bytes (Text.clamp stdoutLimit text) :=
        (Text.bytes_withoutNuls _).trans (congrArg _ (Text.withoutNuls_of_not_mem hcut))
      refine ⟨fun hkind => absurd rfl hkind, ?_, by rintro ⟨⟩⟩
      intro _
      rw [hbody]
      exact ⟨⟨_, rfl⟩, Text.nul_not_mem_bytes hcut⟩
  | userInfo user =>
      exact ⟨fun _ => Field.padded_front h rfl, by rintro ⟨⟩, by rintro ⟨⟩⟩
  | connect user validateOnly =>
      refine ⟨fun _ => Field.padded_front h (List.append_assoc ..).symm, by rintro ⟨⟩, ?_⟩
      intro _
      rw [body, List.getElem?_append_right (Identity.length_bytes user).le, Identity.length_bytes,
        Nat.sub_self]
      cases validateOnly with
      | false => exact Or.inl rfl
      | true => exact Or.inr rfl
  | disconnect name =>
      exact ⟨fun _ => Field.padded_front h (List.append_nil _), by rintro ⟨⟩, by rintro ⟨⟩⟩
  | message text =>
      exact ⟨fun _ => Field.padded_front h (List.append_nil _), by rintro ⟨⟩, by rintro ⟨⟩⟩

/-- **A canonical body is written from what is read of it.** -/
theorem body_ofBody {kind : Kind} {bs : Bytes} (h : kind.CanonicalBody bs)
    (hexact : kind ≠ .stdout → bs.length = kind.bodySize) (hmost : bs.length ≤ stdoutLimit) :
    (ofBody kind bs).body = bs := by
  have hall : ∀ {n : Nat}, bs.length = n → bs.take n = bs := fun he =>
    List.take_of_length_le he.le
  cases kind with
  | stdout =>
      obtain ⟨⟨text, rfl⟩, hnul⟩ := h.shown rfl
      have hread : Field.read stdoutLimit (Text.bytes text) = text := by
        rw [Field.read, List.take_of_length_le hmost, Field.takeWhile_of_nul_not_mem hnul,
          Text.ofBytes_bytes]
      have hkeep : (Text.bytes text).filter (· != 0) = Text.bytes text := by
        refine List.filter_eq_self.mpr ?_
        exact List.takeWhile_eq_self_iff.mp (Field.takeWhile_of_nul_not_mem hnul)
      rw [ofBody, hread, body, Text.clamp_of_length_le hmost, hkeep]
  | userInfo =>
      have hlength : bs.length = identityWidth := hexact (by decide)
      rw [ofBody, body, Identity.bytes_ofBytes (h.field (by decide)) hlength.ge, hall hlength]
  | connect =>
      have hlength : bs.length = identityWidth + 1 := hexact (by decide)
      have hidentity := Identity.bytes_ofBytes (h.field (by decide)) (hlength ▸ Nat.le_succ _)
      have hlast : ∀ b, bs[identityWidth]? = some b → bs.take identityWidth ++ [b] = bs := by
        intro b hb
        have hfront := List.take_add_one (l := bs) (i := identityWidth)
        rw [hb, hall hlength] at hfront
        exact hfront.symm
      rw [ofBody, body, hidentity]
      rcases h.flag rfl with hflag | hflag
      · rw [hflag]
        exact hlast 0 hflag
      · rw [hflag]
        exact hlast 1 hflag
  | disconnect =>
      have hfield : Field.Padded (bs.take (nameLimit + 1)) := h.field (by decide)
      exact Field.write_read_take hfield (hexact (by decide))
  | message =>
      have hfield : Field.Padded (bs.take (messageLimit + 1)) := h.field (by decide)
      exact Field.write_read_take hfield (hexact (by decide))

end Record

/-! ## Frames -/

namespace Frame

/-- A frame of this kind in the one form in which it is written. -/
structure Canonical (kind : Kind) (frame : Bytes) : Prop where
  tag : kind.tag.toNat = tag frame
  /-- Nothing stands behind the declared end. -/
  whole : frame.length = size frame
  /-- Nothing stands behind a fixed layout. -/
  exact : kind ≠ .stdout → size frame = kind.minSize
  body : kind.CanonicalBody (body frame)

/-- A record that is written declares its kind and its length, and its body is behind that. -/
theorem of_encode (r : Record) :
    tag r.encode = r.kind.tag.toNat ∧ size r.encode = r.encode.length ∧ body r.encode = r.body := by
  have hlong : headerSize ≤ r.encode.length := by
    rw [Record.length_encode]
    omega
  obtain ⟨header, hheader, htag, hsize⟩ := exists_header hlong
  obtain rfl : r.header = header :=
    Option.some.inj ((Header.ofBytes?_bytes_append r.header r.body).symm.trans hheader)
  have hdeclared : size r.encode = r.encode.length := by
    rw [← hsize, (Header.validate_bounds r.validate_header).2.2, Record.length_encode]
  refine ⟨htag.symm, hdeclared, ?_⟩
  rw [body, hdeclared, List.take_length, Record.encode, List.drop_left' (Header.length_bytes _)]

/-- **What is written is canonical**, if there is no NUL in the text. -/
theorem canonical_encode {r : Record} (h : '\x00' ∉ r.text.toList) :
    Canonical r.kind r.encode := by
  obtain ⟨htag, hsize, hbody⟩ := of_encode r
  refine ⟨htag.symm, hsize.symm, ?_, ?_⟩
  · intro hkind
    rw [hsize, Record.length_encode, Record.length_body_of_fixed hkind]
    rfl
  · rw [hbody]
    exact Record.canonicalBody h

/-- A frame that ends where it says is its two numbers and its body. -/
theorem eq_append_body {frame : Bytes} (hlong : headerSize ≤ frame.length)
    (hwhole : frame.length = size frame) :
    frame = LittleEndian.encode 4 (tag frame) ++ LittleEndian.encode 8 (size frame)
      ++ body frame := by
  have hheader : headerSize = 4 + 8 := rfl
  have htag : (frame.take 4).length = 4 := by
    rw [List.length_take]
    omega
  have hsize : ((frame.drop 4).take 8).length = 8 := by
    rw [List.length_take, List.length_drop]
    omega
  have htag' := LittleEndian.encode_decode (frame.take 4)
  have hsize' := LittleEndian.encode_decode ((frame.drop 4).take 8)
  rw [htag] at htag'
  rw [hsize] at hsize'
  rw [tag, htag', body, ← hwhole, List.take_length, hwhole, size, hsize', ← List.take_add, hheader,
    List.take_append_drop]

/-- **A canonical frame is written from what is read of it.** -/
theorem Canonical.encode_ofBody {kind : Kind} {frame : Bytes} (hc : Canonical kind frame)
    (hf : Fit frame kind) : (Record.ofBody kind (Frame.body frame)).encode = frame := by
  obtain ⟨hlength, -⟩ := hf.length_body
  have hmin := hf.least
  have hmost := hf.most
  have hmin' : kind.minSize = headerSize + kind.bodySize := rfl
  have hexact : kind ≠ .stdout → (Frame.body frame).length = kind.bodySize := by
    intro hkind
    have := hc.exact hkind
    omega
  have hlimit : stdoutLimit = recordLimit - headerSize := rfl
  have hback := Record.body_ofBody hc.body hexact (by omega)
  have hkind := Record.kind_ofBody kind (Frame.body frame)
  generalize Record.ofBody kind (Frame.body frame) = r at hback hkind
  obtain ⟨htag, hsize, hbody⟩ := of_encode r
  -- what is written declares the same kind and the same length as the frame
  have hencode : r.encode.length = size frame := by
    rw [Record.length_encode, hback, hlength]
    omega
  have hlong : headerSize ≤ r.encode.length := by
    rw [Record.length_encode]
    omega
  rw [eq_append_body hlong hsize.symm, htag, hsize, hbody, hencode, hback, hkind, hc.tag,
    ← eq_append_body hf.header hc.whole]

end Frame

/-- **A record is written as it was read if the frame was in its one form**, and only then. In that
case its text is within its limit. -/
theorem encode_eq_iff_canonical {frame : Bytes} {r : Record} (h : Record.decode frame = .ok r) :
    (r.encode = frame ↔ ∃ kind, Frame.Canonical kind frame)
      ∧ (r.encode = frame → Text.Fits r.kind.textLimit r.text) := by
  refine ⟨⟨?_, ?_⟩, ?_⟩
  · intro hwritten
    have hcanonical := Frame.canonical_encode (Record.nul_not_mem_text h)
    rw [hwritten] at hcanonical
    exact ⟨_, hcanonical⟩
  · rintro ⟨kind, hcanonical⟩
    obtain ⟨kind', hfit⟩ := Frame.exists_decode_iff.mp ⟨r, h⟩
    obtain rfl : kind = kind' := Kind.eq_of_tag (hcanonical.tag.trans hfit.tag.symm)
    obtain rfl := Except.ok.inj (h.symm.trans hfit.decode)
    exact hcanonical.encode_ofBody hfit
  · intro hwritten
    refine (Record.decode_encode_eq_self_iff r).mp ?_
    rw [hwritten]
    exact h

/-- A name that is a text with NULs behind it comes back byte for byte. With one byte among those
NULs it is read as the same name, and comes back without that byte. -/
theorem encode_eq_iff_canonical_stray :
    let frame := Header.bytes ⟨4, 45⟩ ++ [0x61, 0xC3, 0xA9] ++ List.replicate 30 0
    let other := Header.bytes ⟨4, 45⟩ ++ [0x61, 0xC3, 0xA9] ++ List.replicate 29 0 ++ [7]
    let r := Record.disconnect "aé"
    Record.decode frame = .ok r ∧ Record.decode other = .ok r
      ∧ (∃ kind, Frame.Canonical kind frame) ∧ ¬ ∃ kind, Frame.Canonical kind other := by
  intro frame other r
  have hframe : Record.decode frame = .ok r := by decide +kernel
  have hother : Record.decode other = .ok r := by decide +kernel
  have hwritten : r.encode = frame := by decide +kernel
  have hdiffer : r.encode ≠ other := by decide +kernel
  refine ⟨hframe, hother, (encode_eq_iff_canonical hframe).1.mp hwritten, ?_⟩
  intro hcanonical
  exact hdiffer ((encode_eq_iff_canonical hother).1.mpr hcanonical)

end ChatRoom
