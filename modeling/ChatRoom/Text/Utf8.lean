/-!
# Text as bytes

Text travels as UTF-8. `bytes` writes it, and `ofBytes` reads any byte string whatever: bytes that
no text writes are replaced, one U+FFFD for each maximal run that could still have begun a
character. So reading never fails, and a peer that sends garbage is seen as a peer that sends
replacement characters.

The reader works byte by byte. Between characters its state is `none`; inside one it is a `Begun`,
which knows the range the next byte must lie in. The narrowed ranges after `E0`, `ED`, `F0` and
`F4` are what excludes overlong forms, surrogates and code points above `10FFFF`, so a finished
`Begun` always holds a scalar value.
-/

namespace ChatRoom

abbrev Bytes := List UInt8

namespace Text

/-- The UTF-8 encoding. -/
def bytes (text : String) : Bytes :=
  text.toList.flatMap String.utf8EncodeChar

/-- What stands for bytes that are not UTF-8. -/
def replacement : Char := '\uFFFD'

/-- A character whose first bytes have been read. -/
structure Begun where
  /-- The code point bits read so far. -/
  bits : Nat
  /-- How many bytes are still to come. -/
  owed : Nat
  /-- Least value of the next byte. -/
  low : UInt8
  /-- Greatest value of the next byte. -/
  high : UInt8
  deriving DecidableEq, Repr

/-- Reads a byte that stands between characters. -/
def start (b : UInt8) : List Char × Option Begun :=
  if b < 0x80 then ([Char.ofNat b.toNat], none)
  else if b < 0xC2 then ([replacement], none)
  else if b < 0xE0 then ([], some ⟨b.toNat % 32, 1, 0x80, 0xBF⟩)
  else if b < 0xF0 then
    ([], some ⟨b.toNat % 16, 2, if b = 0xE0 then 0xA0 else 0x80, if b = 0xED then 0x9F else 0xBF⟩)
  else if b < 0xF5 then
    ([], some ⟨b.toNat % 8, 3, if b = 0xF0 then 0x90 else 0x80, if b = 0xF4 then 0x8F else 0xBF⟩)
  else ([replacement], none)

/-- Reads one byte: the characters it settles, and the state after it. A byte that cannot continue
the character begun ends it as one replacement, and is then read as if it stood between
characters. -/
def feed : Option Begun → UInt8 → List Char × Option Begun
  | none, b => start b
  | some c, b =>
    if c.low ≤ b ∧ b ≤ c.high then
      let bits := c.bits * 64 + b.toNat % 64
      if c.owed ≤ 1 then ([Char.ofNat bits], none)
      else ([], some ⟨bits, c.owed - 1, 0x80, 0xBF⟩)
    else (replacement :: (start b).1, (start b).2)

/-- Reads a byte string to its end. A character cut off there is one replacement. -/
def chars : Option Begun → Bytes → List Char
  | none, [] => []
  | some _, [] => [replacement]
  | state, b :: rest => (feed state b).1 ++ chars (feed state b).2 rest

/-- The text that a byte string stands for. -/
def ofBytes (bs : Bytes) : String :=
  String.ofList (chars none bs)

/-- The text that a byte string is the encoding of, if it is one: reading it replaces nothing. -/
def ofBytes? (bs : Bytes) : Option String :=
  let text := ofBytes bs
  if bytes text = bs then some text else none

@[simp] theorem bytes_empty : bytes "" = [] := rfl

theorem bytes_append (s t : String) : bytes (s ++ t) = bytes s ++ bytes t := by
  simp [bytes]

@[simp] theorem ofBytes_nil : ofBytes [] = "" := rfl

end Text

end ChatRoom
