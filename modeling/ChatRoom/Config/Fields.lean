import ChatRoom.Json.Value

/-!
# Named fields of a JSON value

A structure is written as an object, or as an array of its fields in their order. In an object
fields may come in any order and may be missing, and members with other names are passed over
whatever they hold; but no field may come twice, and every member's name must have a text. In an
array fields may be missing at the end only, and nothing may follow the last.
-/

namespace ChatRoom.Json

/-- The value of the one member with this name: `some none` if there is none, and `none` if there
are several. -/
def member? (name : String) (members : List (String × Json)) : Option (Option Json) :=
  match members.filter (·.1 = name) with
  | [] => some none
  | [member] => some (some member.2)
  | _ => none

/-- What a value gives for each of the fields; `none` where it is no structure of them. -/
def fields? (names : List String) : Json → Option (List (Option Json))
  | object members => do
    let members ← members.mapM fun (name, value) => name.text?.map (·, value)
    names.mapM (member? · members)
  | array items =>
    if names.length < items.length then none
    else some (items.map some ++ List.replicate (names.length - items.length) none)
  | _ => none

/-- Reads a field, or takes what stands for a missing one. -/
def orElse {α : Type} (read : Json → Option α) (missing : α) : Option Json → Option α
  | none => some missing
  | some value => read value

end ChatRoom.Json
