import ChatRoom.Text.Numeral
import ChatRoom.Text.Utf8

/-!
# Bytes in hexadecimal

Two lower-case digits for each byte, and nothing between them.
-/

namespace ChatRoom.Hex

def chars (bs : Bytes) : List Char :=
  bs.flatMap fun b => [Nat.digitChar (b.toNat / 16), Nat.digitChar (b.toNat % 16)]

def text (bs : Bytes) : String := String.ofList (chars bs)

def ofChars? : List Char → Option Bytes
  | [] => some []
  | a :: b :: rest => do
    let n ← Text.number? 16 [a, b]
    return UInt8.ofNat n :: (← ofChars? rest)
  | [_] => none

def ofText? (text : String) : Option Bytes := ofChars? text.toList

end ChatRoom.Hex
