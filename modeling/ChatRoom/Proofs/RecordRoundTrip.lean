import ChatRoom.Proofs.TextRoundTrip
import ChatRoom.Wire.Codec

/-!
# Records read back

A record that is written can always be read, and what is read differs from it in its texts only. A
name and a message are cut to their limits and end before their first NUL, as their fields do; a
`stdout` text is cut, and loses its NULs. `Record.normal` is a record so changed, and
`decode_encode` says that reading gives it, with or without further bytes behind.
-/

namespace ChatRoom

/-- What a field of this limit keeps of a text. -/
def Text.fielded (limit : Nat) (text : String) : String := untilNul (clamp limit text)

/-- A text that a field of this limit keeps as it is. -/
def Text.Fits (limit : Nat) (text : String) : Prop :=
  '\x00' ∉ text.toList ∧ (bytes text).length ≤ limit

instance (limit : Nat) (text : String) : Decidable (Text.Fits limit text) :=
  inferInstanceAs (Decidable (_ ∧ _))

theorem Text.fielded_of_fits {limit : Nat} {text : String} (h : Fits limit text) :
    fielded limit text = text := by
  rw [fielded, clamp_of_length_le h.2, untilNul_of_not_mem h.1]

/-- What is read of an identity. -/
def Identity.normal (user : Identity) : Identity := ⟨Text.fielded nameLimit user.name, user.version⟩

/-- What is read of a record. -/
def Record.normal : Record → Record
  | .stdout text => .stdout (Text.withoutNuls (Text.clamp stdoutLimit text))
  | .userInfo user => .userInfo user.normal
  | .connect user validateOnly => .connect user.normal validateOnly
  | .disconnect name => .disconnect (Text.fielded nameLimit name)
  | .message text => .message (Text.fielded messageLimit text)

/-! ## Fields -/

namespace Field

/-- The NULs behind a text end it, and are never taken for part of it. -/
theorem takeWhile_replicate (bs : Bytes) (n : Nat) :
    (bs ++ List.replicate n 0).takeWhile (· != 0) = bs.takeWhile (· != 0) := by
  induction bs with
  | nil => cases n <;> rfl
  | cons b rest ih =>
      by_cases hb : b = 0
      · subst hb
        rfl
      · have hkeep : (b != 0) = true := by simpa using hb
        rw [List.cons_append, List.takeWhile_cons_of_pos (p := (· != 0)) hkeep,
          List.takeWhile_cons_of_pos (p := (· != 0)) hkeep, ih]

theorem read_write (limit : Nat) (text : String) :
    read limit (write (limit + 1) text) = Text.fielded limit text := by
  have hlen := Text.length_bytes_clamp_le limit text
  -- the last byte of a field is a NUL always, and is not read
  have htake : (write (limit + 1) text).take limit
      = Text.bytes (Text.clamp limit text)
        ++ List.replicate (limit - (Text.bytes (Text.clamp limit text)).length) 0 := by
    rw [write, Nat.add_sub_cancel, List.take_append, List.take_of_length_le hlen,
      List.take_replicate, Nat.min_eq_left (by omega)]
  rw [read, htake, takeWhile_replicate, Text.bytes_untilNul, Text.ofBytes_bytes]
  rfl

end Field

theorem Version.ofBytes_bytes (v : Version) (rest : Bytes) :
    Version.ofBytes (v.bytes ++ rest) = v := by
  have hpart : ∀ n : UInt16, (LittleEndian.encode 2 n.toNat).length = 2 := fun n =>
    LittleEndian.length_encode 2 _
  have hback : ∀ n : UInt16,
      UInt16.ofNat (LittleEndian.decode (LittleEndian.encode 2 n.toNat)) = n := by
    intro n
    rw [LittleEndian.decode_encode, Nat.mod_eq_of_lt (show n.toNat < LittleEndian.bound 2 from
      n.toNat_lt)]
    simp
  have htwo : ((v.bytes ++ rest).drop 2)
      = LittleEndian.encode 2 v.minor.toNat ++ (LittleEndian.encode 2 v.patch.toNat ++ rest) := by
    rw [bytes, List.append_assoc, List.append_assoc, List.drop_left' (hpart v.major)]
  have hfour : ((v.bytes ++ rest).drop 4) = LittleEndian.encode 2 v.patch.toNat ++ rest := by
    rw [show (4 : Nat) = 2 + 2 from rfl, ← List.drop_drop, htwo, List.drop_left' (hpart v.minor)]
  rw [ofBytes, htwo, hfour, List.take_left' (hpart v.minor), List.take_left' (hpart v.patch), bytes,
    List.append_assoc, List.append_assoc, List.take_left' (hpart v.major), hback, hback, hback]

theorem Identity.ofBytes_bytes (user : Identity) (rest : Bytes) :
    Identity.ofBytes (user.bytes ++ rest) = user.normal := by
  have hlen : (Field.write nameWidth user.name).length = nameWidth :=
    Field.length_write nameWidth user.name (by decide)
  rw [ofBytes, bytes, List.append_assoc, List.take_left' hlen, List.drop_left' hlen,
    Version.ofBytes_bytes, show nameWidth = nameLimit + 1 from rfl, Field.read_write]
  rfl

/-! ## Records -/

namespace Record

/-- A body is never longer than a record may be. -/
theorem length_body_le (r : Record) : headerSize + r.body.length ≤ recordLimit := by
  cases r with
  | stdout text =>
      have hfilter : (body (.stdout text)).length
          ≤ (Text.bytes (Text.clamp stdoutLimit text)).length :=
        List.length_filter_le _ _
      have hclamp := Text.length_bytes_clamp_le stdoutLimit text
      have hlimit : stdoutLimit = recordLimit - headerSize := rfl
      have hheader : headerSize ≤ recordLimit := by decide
      omega
  | userInfo user =>
      rw [body, Identity.length_bytes]
      decide
  | connect user validateOnly =>
      rw [body, List.length_append, Identity.length_bytes]
      exact Nat.le_of_ble_eq_true rfl
  | disconnect name =>
      rw [body, Field.length_write nameWidth name (by decide)]
      decide
  | message text =>
      rw [body, Field.length_write messageWidth text (by decide)]
      decide

theorem ofBody_body (r : Record) : ofBody r.kind r.body = r.normal := by
  cases r with
  | stdout text =>
      have hfilter : body (.stdout text)
          = Text.bytes (Text.withoutNuls (Text.clamp stdoutLimit text)) :=
        Text.bytes_withoutNuls _
      have hlen : (body (.stdout text)).length ≤ stdoutLimit :=
        (List.length_filter_le _ _).trans (Text.length_bytes_clamp_le stdoutLimit text)
      -- the NULs were taken out when it was written, so none ends it
      have hzero : (body (.stdout text)).takeWhile (· != 0) = body (.stdout text) :=
        List.takeWhile_eq_self_iff.mpr fun b hb => (List.mem_filter.mp hb).2
      show stdout (Field.read stdoutLimit _) = _
      rw [Field.read, List.take_of_length_le hlen, hzero, hfilter, Text.ofBytes_bytes]
      rfl
  | userInfo user =>
      have hback := Identity.ofBytes_bytes user []
      rw [List.append_nil] at hback
      show userInfo (Identity.ofBytes user.bytes) = _
      rw [hback]
      rfl
  | connect user validateOnly =>
      have hflag : (body (.connect user validateOnly))[identityWidth]?
          = some (if validateOnly then 1 else 0) := by
        rw [body, List.getElem?_append_right (by simp), Identity.length_bytes, Nat.sub_self]
        rfl
      show connect (Identity.ofBytes (user.bytes ++ _)) (_[identityWidth]?.getD 0 != 0) = _
      rw [hflag, Identity.ofBytes_bytes]
      cases validateOnly <;> rfl
  | disconnect name =>
      have hlen := Field.length_write nameWidth name (by decide)
      show disconnect (Field.read nameLimit ((Field.write nameWidth name).take nameWidth)) = _
      rw [List.take_of_length_le (Nat.le_of_eq hlen), show nameWidth = nameLimit + 1 from rfl,
        Field.read_write]
      rfl
  | message text =>
      have hlen := Field.length_write messageWidth text (by decide)
      show message (Field.read messageLimit ((Field.write messageWidth text).take messageWidth)) = _
      rw [List.take_of_length_le (Nat.le_of_eq hlen), show messageWidth = messageLimit + 1 from rfl,
        Field.read_write]
      rfl

theorem validate_header (r : Record) :
    r.header.validate = .ok (r.kind, headerSize + r.body.length) := by
  have hlimit := length_body_le r
  have hmin := bodySize_le_length_body r
  have hsize : (UInt64.ofNat (headerSize + r.body.length)).toNat = headerSize + r.body.length := by
    rw [UInt64.toNat_ofNat']
    exact Nat.mod_eq_of_lt (Nat.lt_of_le_of_lt hlimit (by decide))
  rw [header, Header.validate, Kind.ofTag?_tag]
  dsimp only
  rw [hsize, if_neg (by rw [Kind.minSize]; omega), if_neg (by omega)]

/-- **What is written is read as the record in its normal form**, whatever comes behind it. -/
theorem decode_encode (r : Record) (rest : Bytes) : decode (r.encode ++ rest) = .ok r.normal := by
  have hheader : r.header.bytes.length = headerSize := Header.length_bytes r.header
  have hframe : r.encode ++ rest = r.header.bytes ++ (r.body ++ rest) := by
    rw [encode, List.append_assoc]
  have hlen : ¬ (r.header.bytes ++ (r.body ++ rest)).length < headerSize + r.body.length := by
    rw [List.length_append, List.length_append, hheader]
    omega
  have hbody : ((r.header.bytes ++ (r.body ++ rest)).take
      (headerSize + r.body.length)).drop headerSize = r.body := by
    rw [← List.append_assoc, List.take_left' (by rw [List.length_append, hheader]),
      List.drop_left' hheader]
  rw [hframe, decode, Header.ofBytes?_bytes_append]
  dsimp only
  rw [validate_header]
  dsimp only
  rw [if_neg hlen, hbody, ofBody_body]

end Record

end ChatRoom
