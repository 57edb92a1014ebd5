/-!
# Numerals

Digits of a number in a base up to sixteen. Letters stand for the digits from ten on, in either
case when read; `Nat.toDigits` writes them in lower case. Only ASCII digits count: a text that uses
the digits of another script is no numeral.
-/

namespace ChatRoom.Text

/-- The value of one digit. -/
def digit? (base : Nat) (c : Char) : Option Nat :=
  let value :=
    if '0' ≤ c ∧ c ≤ '9' then c.toNat - '0'.toNat
    else if 'a' ≤ c ∧ c ≤ 'f' then c.toNat - 'a'.toNat + 10
    else if 'A' ≤ c ∧ c ≤ 'F' then c.toNat - 'A'.toNat + 10
    else base
  if value < base then some value else none

/-- The number that a list of digits writes; there must be one digit at least. -/
def number? (base : Nat) : List Char → Option Nat
  | [] => none
  | cs => cs.foldlM (fun value c => (digit? base c).map (value * base + ·)) 0

/-- The decimal numeral of a number. -/
def decimal (n : Nat) : String := String.ofList (Nat.toDigits 10 n)

end ChatRoom.Text
