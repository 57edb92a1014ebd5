import ChatRoom.Text.Numeral

/-!
# An ordered arena

Values live in slots, and the order in which they were linked is kept by `prev` and `next` slot
numbers, so that appending and removing touch a fixed number of slots wherever the value stands. A
vacated slot is used again, the one vacated last first.

A `Handle` names a slot together with its generation, which moves on with every removal. So a
handle outlives its value safely: once the value is gone the handle finds nothing, also when the
slot has been taken by another.

`toList` is the view that the order is about: it walks from the head along `next`, and a walk never
has more steps than there are slots.
-/

namespace ChatRoom

structure Handle where
  index : Nat
  generation : UInt64
  deriving DecidableEq, Repr

/-- The form in which logs and answers show a handle. -/
def Handle.text (h : Handle) : String :=
  "#" ++ Text.decimal h.index ++ "." ++ Text.decimal h.generation.toNat

/-- A linked value and its neighbours' slots. -/
structure Cell (α : Type) where
  value : α
  prev : Option Nat
  next : Option Nat
  deriving DecidableEq, Repr

structure Slot (α : Type) where
  generation : UInt64
  cell : Option (Cell α)
  deriving DecidableEq, Repr

structure Arena (α : Type) where
  slots : List (Slot α) := []
  /-- The vacant slots, the one vacated last in front. -/
  free : List Nat := []
  head : Option Nat := none
  tail : Option Nat := none
  /-- How many values are linked. -/
  count : Nat := 0
  deriving DecidableEq, Repr

namespace Arena

variable {α : Type}

/-- The cell in a slot. -/
def cell? (a : Arena α) (index : Nat) : Option (Cell α) :=
  a.slots[index]?.bind (·.cell)

/-- Changes the cell in a slot, if there is one. -/
def modifyCell (a : Arena α) (index : Nat) (f : Cell α → Cell α) : Arena α :=
  { a with slots := a.slots.modify index fun slot => { slot with cell := slot.cell.map f } }

/-- The cell that a handle names. -/
def find? (a : Arena α) (h : Handle) : Option (Cell α) :=
  (a.slots[h.index]?.filter (·.generation == h.generation)).bind (·.cell)

/-- The value that a handle names. -/
def get? (a : Arena α) (h : Handle) : Option α :=
  (a.find? h).map (·.value)

/-- Changes the value that a handle names; nothing happens if it names none. -/
def modify (a : Arena α) (h : Handle) (f : α → α) : Arena α :=
  match a.find? h with
  | none => a
  | some _ => a.modifyCell h.index fun cell => { cell with value := f cell.value }

/-- Puts a cell into a vacant slot, or into a new one if there is none. -/
def place (a : Arena α) (cell : Cell α) : Nat × Arena α :=
  match a.free with
  | index :: free =>
    (index, { a with
      free, slots := a.slots.modify index fun slot => { slot with cell := some cell } })
  | [] => (a.slots.length, { a with slots := a.slots ++ [⟨0, some cell⟩] })

/-- Makes `next` the slot behind `prev`; without a `prev` it becomes the head. -/
def joinNext (a : Arena α) (prev next : Option Nat) : Arena α :=
  match prev with
  | some index => a.modifyCell index fun cell => { cell with next }
  | none => { a with head := next }

/-- Makes `prev` the slot before `next`; without a `next` it becomes the tail. -/
def joinPrev (a : Arena α) (next prev : Option Nat) : Arena α :=
  match next with
  | some index => a.modifyCell index fun cell => { cell with prev }
  | none => { a with tail := prev }

/-- Appends a value at the end. -/
def link (a : Arena α) (value : α) : Handle × Arena α :=
  let (index, placed) := a.place ⟨value, a.tail, none⟩
  let joined := placed.joinNext a.tail (some index)
  let linked := { joined with tail := some index, count := joined.count + 1 }
  (⟨index, (linked.slots[index]?.map (·.generation)).getD 0⟩, linked)

/-- Empties a slot and moves its generation on. -/
def vacate (a : Arena α) (index : Nat) : Arena α :=
  { a with
    slots := a.slots.modify index fun slot => ⟨slot.generation + 1, none⟩
    free := index :: a.free }

/-- Takes out the value that a handle names. -/
def unlink (a : Arena α) (h : Handle) : Option (α × Arena α) :=
  (a.find? h).map fun cell =>
    let joined := ((a.vacate h.index).joinNext cell.prev cell.next).joinPrev cell.next cell.prev
    (cell.value, { joined with count := joined.count - 1 })

/-- At most `steps` values with their handles, from the given slot on. -/
def walk (a : Arena α) : (steps : Nat) → Option Nat → List (Handle × α)
  | 0, _ => []
  | _, none => []
  | steps + 1, some index =>
    match a.slots[index]? with
    | some ⟨generation, some cell⟩ => (⟨index, generation⟩, cell.value) :: a.walk steps cell.next
    | _ => []

/-- The linked values with their handles, in the order in which they were linked. -/
def toList (a : Arena α) : List (Handle × α) :=
  a.walk a.slots.length a.head

end Arena

end ChatRoom
