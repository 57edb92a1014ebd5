import ChatRoom.Json.Value

/-!
# Writing JSON

The compact form: no blanks, members in their order. Inside a string the quote, the backslash and
the control characters are escaped, those with a letter of their own by that letter, and everything
else stands as it is.
-/

namespace ChatRoom.Json

/-- `\u` and the four lower-case digits of a unit. -/
def unitChars (u : Nat) : List Char :=
  let digits := Nat.toDigits 16 u
  '\\' :: 'u' :: List.replicate (4 - digits.length) '0' ++ digits

def charChars (c : Char) : List Char :=
  if c = '"' then ['\\', '"']
  else if c = '\\' then ['\\', '\\']
  else if c = '\x08' then ['\\', 'b']
  else if c = '\x0c' then ['\\', 'f']
  else if c = '\n' then ['\\', 'n']
  else if c = '\r' then ['\\', 'r']
  else if c = '\t' then ['\\', 't']
  else if c.toNat < 0x20 then unitChars c.toNat
  else [c]

def pieceChars : Piece → List Char
  | .char c => charChars c
  | .unit u => unitChars u

def stringChars (pieces : Pieces) : List Char :=
  '"' :: pieces.flatMap pieceChars ++ ['"']

mutual

def chars : Json → List Char
  | null => "null".toList
  | bool true => "true".toList
  | bool false => "false".toList
  | number spelling => spelling
  | string pieces => stringChars pieces
  | array items => '[' :: itemsChars items ++ [']']
  | object members => '\x7b' :: membersChars members ++ ['\x7d']

/-- Items with commas between them. -/
def itemsChars : List Json → List Char
  | [] => []
  | [item] => chars item
  | item :: items => chars item ++ ',' :: itemsChars items

/-- Members with commas between them. -/
def membersChars : List (Pieces × Json) → List Char
  | [] => []
  | [(name, value)] => stringChars name ++ ':' :: chars value
  | (name, value) :: members =>
    stringChars name ++ ':' :: chars value ++ ',' :: membersChars members

end

def text (value : Json) : String := String.ofList value.chars

end ChatRoom.Json
