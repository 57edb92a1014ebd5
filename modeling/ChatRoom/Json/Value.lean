import ChatRoom.Text.Numeral

/-!
# JSON values

A value keeps what a reader may still have to refuse. A string is kept as it was spelled:
characters, and UTF-16 units that were written out as `\u` and four digits. It has a text only if
the surrogates among its units come in pairs; a string without a text is well-formed all the same,
and does no harm where nobody asks for its text. A number is its spelling. The members of an object
are in the order in which they were written, names that occur twice included.
-/

namespace ChatRoom

namespace Json

inductive Piece where
  | char (c : Char)
  /-- A UTF-16 unit. -/
  | unit (u : Nat)
  deriving DecidableEq, Repr

abbrev Pieces := List Piece

/-- The characters that a string stands for, if its surrogates come in pairs. -/
def Pieces.chars? : Pieces → Option (List Char)
  | [] => some []
  | .char c :: rest => (chars? rest).map (c :: ·)
  | .unit u :: rest =>
    if 0xD800 ≤ u ∧ u < 0xDC00 then
      match rest with
      | .unit v :: rest =>
        if 0xDC00 ≤ v ∧ v < 0xE000 then
          (chars? rest).map (Char.ofNat (0x10000 + (u - 0xD800) * 0x400 + (v - 0xDC00)) :: ·)
        else none
      | _ => none
    else if 0xDC00 ≤ u ∧ u < 0xE000 then none
    else (chars? rest).map (Char.ofNat u :: ·)

def Pieces.text? (pieces : Pieces) : Option String :=
  (chars? pieces).map String.ofList

def Pieces.ofText (text : String) : Pieces :=
  text.toList.map .char

end Json

inductive Json where
  | null
  | bool (value : Bool)
  | number (spelling : List Char)
  | string (pieces : Json.Pieces)
  | array (items : List Json)
  | object (members : List (Json.Pieces × Json))
  deriving Repr

namespace Json

/-- The text of a string. -/
def text? : Json → Option String
  | string pieces => pieces.text?
  | _ => none

/-- A whole number of sixteen bits, spelled with digits alone. -/
def word16? : Json → Option UInt16
  | number spelling =>
    (Text.number? 10 spelling).bind fun n => if n < UInt16.size then some (UInt16.ofNat n) else none
  | _ => none

end Json

end ChatRoom
