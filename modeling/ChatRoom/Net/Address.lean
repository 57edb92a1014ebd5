import ChatRoom.Text.Numeral
import ChatRoom.Text.Split

/-!
# Addresses

IP addresses and their text. An IPv4 address is four decimal octets with dots between them. An IPv6
address is eight groups of up to four hexadecimal digits with colons between them, in which the
first of the longest runs of zero groups, if it is longer than one group, is written `::`; an
address that carries an IPv4 one is written `::ffff:` with that behind it.

Reading admits more than is written: a `::` may stand for any number of groups from one on, any two
last groups may be written as an IPv4 address, and leading zeros may stand in a group, though not in
an octet. Nothing else is an address: no brackets, no zone, no blanks.
-/

namespace ChatRoom

structure IPv4 where
  a : UInt8
  b : UInt8
  c : UInt8
  d : UInt8
  deriving DecidableEq, Repr

structure IPv6 where
  groups : Vector UInt16 8
  deriving DecidableEq, Repr

inductive IpAddress where
  | v4 (ip : IPv4)
  | v6 (ip : IPv6)
  deriving DecidableEq, Repr

/-- An address and a port. A zone belongs to IPv6 only; zero is none. -/
structure SocketAddress where
  ip : IpAddress
  port : UInt16
  zone : UInt32 := 0
  deriving DecidableEq, Repr

namespace IPv4

def unspecified : IPv4 := ⟨0, 0, 0, 0⟩

def chars (ip : IPv4) : List Char :=
  Text.joinWith '.' ([ip.a, ip.b, ip.c, ip.d].map fun octet => Nat.toDigits 10 octet.toNat)

/-- One to three digits, no needless zero in front, at most 255. -/
def octet? (cs : List Char) : Option UInt8 :=
  if 3 < cs.length ∨ (cs.head? = some '0' ∧ 1 < cs.length) then none
  else (Text.number? 10 cs).bind fun n => if n < 256 then some (UInt8.ofNat n) else none

def ofChars? (cs : List Char) : Option IPv4 :=
  match (Text.split '.' cs).mapM octet? with
  | some [a, b, c, d] => some ⟨a, b, c, d⟩
  | _ => none

end IPv4

namespace IPv6

/-- The eight groups, where there are eight. -/
def ofGroups? (groups : List UInt16) : Option IPv6 :=
  if h : groups.length = 8 then some ⟨⟨groups.toArray, h⟩⟩ else none

/-- The IPv4 address that stands behind five zero groups and `ffff`. -/
def mapped? (ip : IPv6) : Option IPv4 :=
  match ip.groups.toList with
  | [0, 0, 0, 0, 0, 0xFFFF, x, y] =>
    some ⟨(x >>> 8).toUInt8, x.toUInt8, (y >>> 8).toUInt8, y.toUInt8⟩
  | _ => none

/-- Where the first of the longest runs of zeros starts, and how long it is. -/
def zeroRun (groups : List UInt16) : Nat × Nat :=
  (List.range groups.length).foldl
    (fun best start =>
      let length := ((groups.drop start).takeWhile (· == 0)).length
      if best.2 < length then (start, length) else best)
    (0, 0)

/-- Groups in hexadecimal with colons between them. -/
def joined (groups : List UInt16) : List Char :=
  Text.joinWith ':' (groups.map fun group => Nat.toDigits 16 group.toNat)

def chars (ip : IPv6) : List Char :=
  match ip.mapped? with
  | some ip => "::ffff:".toList ++ ip.chars
  | none =>
    let groups := ip.groups.toList
    let (start, length) := zeroRun groups
    if 1 < length then
      joined (groups.take start) ++ "::".toList ++ joined (groups.drop (start + length))
    else joined groups

/-- One to four hexadecimal digits. -/
def group? (cs : List Char) : Option UInt16 :=
  if 4 < cs.length then none else (Text.number? 16 cs).map UInt16.ofNat

/-- Groups, the last two of which may be written as an IPv4 address. -/
def groups? : List (List Char) → Option (List UInt16)
  | [] => some []
  | [last] =>
    match IPv4.ofChars? last with
    | some ip => some [ip.a.toUInt16 <<< 8 ||| ip.b.toUInt16, ip.c.toUInt16 <<< 8 ||| ip.d.toUInt16]
    | none => (group? last).map ([·])
  | part :: parts => (group? part).bind fun group => (groups? parts).map (group :: ·)

/-- The parts between colons; an empty text has none. -/
def parts (cs : List Char) : List (List Char) :=
  if cs = [] then [] else Text.split ':' cs

def ofChars? (cs : List Char) : Option IPv6 :=
  match Text.cut? "::".toList cs with
  | none => (groups? (parts cs)).bind ofGroups?
  | some (before, after) =>
    match (parts before).mapM group?, groups? (parts after) with
    | some front, some back =>
      let missing := 8 - (front.length + back.length)
      if missing = 0 then none else ofGroups? (front ++ List.replicate missing 0 ++ back)
    | _, _ => none

end IPv6

namespace IpAddress

def chars : IpAddress → List Char
  | v4 ip => ip.chars
  | v6 ip => ip.chars

def text (ip : IpAddress) : String := String.ofList ip.chars

def ofChars? (cs : List Char) : Option IpAddress :=
  match IPv4.ofChars? cs with
  | some ip => some (v4 ip)
  | none => (IPv6.ofChars? cs).map v6

def ofText? (text : String) : Option IpAddress := ofChars? text.toList

end IpAddress

namespace SocketAddress

/-- The address, in brackets if it has colons itself, and the port behind a colon. -/
def text (address : SocketAddress) : String :=
  let port := ":" ++ Text.decimal address.port.toNat
  match address.ip with
  | .v4 _ => address.ip.text ++ port
  | .v6 _ =>
    let zone := if address.zone = 0 then "" else "%" ++ Text.decimal address.zone.toNat
    "[" ++ address.ip.text ++ zone ++ "]" ++ port

/-- A decimal number below `bound`, zeros in front allowed. -/
def below? (bound : Nat) (cs : List Char) : Option Nat :=
  (Text.number? 10 cs).filter (· < bound)

def ofText? (text : String) : Option SocketAddress :=
  match text.toList with
  | '[' :: cs => do
    let (inside, rest) ← Text.cut? "]:".toList cs
    let (address, zone) ←
      match Text.cut? ['%'] inside with
      | none => some (inside, 0)
      | some (address, zone) => (below? UInt32.size zone).map (address, ·)
    let ip ← IPv6.ofChars? address
    let port ← below? UInt16.size rest
    return ⟨.v6 ip, UInt16.ofNat port, UInt32.ofNat zone⟩
  | cs => do
    let (address, rest) ← Text.cut? [':'] cs
    let ip ← IPv4.ofChars? address
    let port ← below? UInt16.size rest
    return ⟨.v4 ip, UInt16.ofNat port, 0⟩

end SocketAddress

end ChatRoom
