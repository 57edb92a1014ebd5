import ChatRoom.Text.Numeral
import ChatRoom.Wire.Kind
import ChatRoom.Wire.LittleEndian

/-!
# The common header

Every record starts with a tag in four bytes and the size of the whole record in eight. `validate`
judges a header before any byte of the body is read, so a hostile size never makes anyone wait for
or hold more than `recordLimit` bytes. The tag is judged first, then too small, then too large.
-/

namespace ChatRoom

/-- Why bytes could not be read as a record. Each cause is the end of its connection: nothing says
where the next record would start. -/
inductive FrameError where
  | io (cause : String)
  | unknownKind (tag : UInt32)
  | undersized (kind : Kind) (declared : UInt64) (minimum : Nat)
  | oversized (declared : UInt64) (maximum : Nat)
  | truncated (expected received : Nat)
  deriving DecidableEq, Repr

def FrameError.message : FrameError → String
  | io cause => "socket error while reading record: " ++ cause
  | unknownKind tag => "unknown record kind " ++ Text.decimal tag.toNat
  | undersized kind declared minimum =>
    kind.name ++ " record declares " ++ Text.decimal declared.toNat
      ++ " bytes, below its minimum of " ++ Text.decimal minimum
  | oversized declared maximum =>
    "record declares " ++ Text.decimal declared.toNat ++ " bytes, above the ceiling of "
      ++ Text.decimal maximum
  | truncated expected received =>
    "stream ended after " ++ Text.decimal received ++ " of " ++ Text.decimal expected ++ " bytes"

structure Header where
  tag : UInt32
  /-- Bytes of the whole record, header included. -/
  size : UInt64
  deriving DecidableEq, Repr

namespace Header

def bytes (h : Header) : Bytes :=
  LittleEndian.encode 4 h.tag.toNat ++ LittleEndian.encode 8 h.size.toNat

/-- The header at the front of `bs`, if there are enough bytes for one. -/
def ofBytes? (bs : Bytes) : Option Header :=
  if bs.length < headerSize then none
  else some {
    tag := UInt32.ofNat (LittleEndian.decode (bs.take 4))
    size := UInt64.ofNat (LittleEndian.decode ((bs.drop 4).take 8)) }

/-- The kind, and the number of bytes the whole record takes. -/
def validate (h : Header) : Except FrameError (Kind × Nat) :=
  match Kind.ofTag? h.tag with
  | none => .error (.unknownKind h.tag)
  | some kind =>
    if h.size.toNat < kind.minSize then .error (.undersized kind h.size kind.minSize)
    else if recordLimit < h.size.toNat then .error (.oversized h.size recordLimit)
    else .ok (kind, h.size.toNat)

@[simp] theorem length_bytes (h : Header) : h.bytes.length = headerSize := by
  simp [bytes, headerSize]

theorem ofBytes?_bytes_append (h : Header) (rest : Bytes) :
    ofBytes? (h.bytes ++ rest) = some h := by
  have h4 : (LittleEndian.encode 4 h.tag.toNat).length = 4 := LittleEndian.length_encode ..
  have h8 : (LittleEndian.encode 8 h.size.toNat).length = 8 := LittleEndian.length_encode ..
  have hlen : ¬ (h.bytes ++ rest).length < headerSize := by
    simp only [List.length_append, length_bytes]; omega
  have ht : (h.bytes ++ rest).take 4 = LittleEndian.encode 4 h.tag.toNat := by
    rw [bytes, List.append_assoc, List.take_left' h4]
  have hs : ((h.bytes ++ rest).drop 4).take 8 = LittleEndian.encode 8 h.size.toNat := by
    rw [bytes, List.append_assoc, List.drop_left' h4, List.take_left' h8]
  have e4 : h.tag.toNat % LittleEndian.bound 4 = h.tag.toNat := Nat.mod_eq_of_lt h.tag.toNat_lt
  have e8 : h.size.toNat % LittleEndian.bound 8 = h.size.toNat := Nat.mod_eq_of_lt h.size.toNat_lt
  rw [ofBytes?, if_neg hlen, ht, hs, LittleEndian.decode_encode, LittleEndian.decode_encode, e4, e8]
  simp

theorem validate_bounds {h : Header} {kind : Kind} {size : Nat}
    (hv : h.validate = .ok (kind, size)) :
    kind.minSize ≤ size ∧ size ≤ recordLimit ∧ h.size.toNat = size := by
  unfold validate at hv
  split at hv
  · simp at hv
  · split at hv
    · simp at hv
    · split at hv
      · simp at hv
      · simp only [Except.ok.injEq, Prod.mk.injEq] at hv
        obtain ⟨rfl, rfl⟩ := hv
        omega

end Header

end ChatRoom
