import ChatRoom.Config.Fields
import ChatRoom.Json.Printer
import ChatRoom.Proofs.JsonGrammar
import ChatRoom.Proofs.Numerals

/-!
# Texts of JSON values

A string can be spelled in many ways: a character may stand for itself, or be written as one UTF-16
unit or two. What counts are the units (`Pieces.units`), and a text is a text of every value that
has the same strings as the one it spells (`IsText`). Whatever asks a value for texts, numbers and
fields gets the same answer for both.

The writer writes such a text, though not always of the value that is read back, since a control
character goes out as a unit (`Written`).
-/

namespace ChatRoom.Json

/-! ## Strings as units -/

/-- The UTF-16 units of a character. -/
def unitsOf (c : Char) : List Nat :=
  if c.toNat < 0x10000 then [c.toNat]
  else [0xD800 + (c.toNat - 0x10000) / 0x400, 0xDC00 + (c.toNat - 0x10000) % 0x400]

/-- The units of a string, however they are spelled. -/
def Pieces.units : Pieces → List Nat
  | [] => []
  | .char c :: rest => unitsOf c ++ units rest
  | .unit u :: rest => u :: units rest

/-- The string with every unit written out. -/
def Pieces.inUnits (pieces : Pieces) : Pieces := pieces.units.map .unit

/-- The first unit of a character is no second half of a pair. -/
theorem unitsOf_cons (c : Char) :
    ∃ u rest, unitsOf c = u :: rest ∧ ¬ (0xDC00 ≤ u ∧ u < 0xE000) := by
  have hvalid : c.toNat < 0xD800 ∨ 0xDFFF < c.toNat ∧ c.toNat < 0x110000 := c.valid
  rw [unitsOf]
  split
  · exact ⟨_, _, rfl, by omega⟩
  · exact ⟨_, _, rfl, by omega⟩

/-! ### Surrogates -/

theorem chars?_single {u : Nat} (h : u < 0xD800 ∨ 0xE000 ≤ u) (rest : Pieces) :
    Pieces.chars? (.unit u :: rest) = (Pieces.chars? rest).map (Char.ofNat u :: ·) := by
  rw [Pieces.chars?.eq_def]
  dsimp only
  rw [if_neg (by omega), if_neg (by omega)]

theorem chars?_pair {u v : Nat} (hu : 0xD800 ≤ u ∧ u < 0xDC00) (hv : 0xDC00 ≤ v ∧ v < 0xE000)
    (rest : Pieces) :
    Pieces.chars? (.unit u :: .unit v :: rest)
      = (Pieces.chars? rest).map
          (Char.ofNat (0x10000 + (u - 0xD800) * 0x400 + (v - 0xDC00)) :: ·) := by
  rw [Pieces.chars?.eq_def]
  dsimp only
  rw [if_pos hu, if_pos hv]

/-- The first half of a pair needs the other one. -/
theorem chars?_first {u : Nat} (hu : 0xD800 ≤ u ∧ u < 0xDC00) {rest : Pieces}
    (h : ∀ v more, rest = .unit v :: more → ¬ (0xDC00 ≤ v ∧ v < 0xE000)) :
    Pieces.chars? (.unit u :: rest) = none := by
  rw [Pieces.chars?.eq_def]
  dsimp only
  rw [if_pos hu]
  split
  · rename_i v more
    rw [if_neg (h v more rfl)]
  · rfl

theorem chars?_second {u : Nat} (hu : 0xDC00 ≤ u ∧ u < 0xE000) (rest : Pieces) :
    Pieces.chars? (.unit u :: rest) = none := by
  rw [Pieces.chars?.eq_def]
  dsimp only
  rw [if_neg (by omega), if_pos hu]

/-- The units of a character are read as that character. -/
theorem chars?_unitsOf (c : Char) (rest : List Nat) :
    Pieces.chars? ((unitsOf c ++ rest).map .unit)
      = (Pieces.chars? (rest.map .unit)).map (c :: ·) := by
  have hvalid : c.toNat < 0xD800 ∨ 0xDFFF < c.toNat ∧ c.toNat < 0x110000 := c.valid
  have hchar : ∀ n, n = c.toNat → Char.ofNat n = c := by
    rintro n rfl
    exact Char.ofNat_toNat c
  rw [unitsOf]
  split
  · rw [List.singleton_append, List.map_cons, chars?_single (by omega), hchar _ rfl]
  · rw [List.cons_append, List.singleton_append, List.map_cons, List.map_cons,
      chars?_pair (by omega) (by omega), hchar _ (by omega)]

/-- **A string has the text that its units have.** -/
theorem Pieces.chars?_inUnits (pieces : Pieces) : chars? pieces.inUnits = chars? pieces := by
  rw [inUnits]
  fun_induction chars? pieces with
  | case1 => rfl
  | case2 c rest ih => rw [units, chars?_unitsOf, ih]
  | case3 u hu v rest hv ih =>
    rw [units, units, List.map_cons, List.map_cons, chars?_pair hu hv, ih]
  | case4 u hu v rest hv =>
    refine chars?_first hu ?_
    intro w more hmore
    rw [units, List.map_cons] at hmore
    obtain ⟨hw, -⟩ := List.cons.inj hmore
    obtain rfl := Piece.unit.inj hw
    exact hv
  | case5 u rest hu hrest =>
    refine chars?_first hu ?_
    intro w more hmore
    match rest, hrest with
    | [], _ => exact absurd hmore (List.cons_ne_nil _ _).symm
    | .unit v :: rest, hrest => exact absurd rfl (hrest v rest)
    | .char c :: rest, _ =>
      -- what stands there begins with the first unit of a character
      obtain ⟨first, units, hunits, hfirst⟩ := unitsOf_cons c
      rw [Pieces.units, hunits, List.cons_append, List.map_cons] at hmore
      obtain rfl := Piece.unit.inj (List.cons.inj hmore).1
      exact hfirst
  | case6 u rest hhigh hu => rw [units, List.map_cons, chars?_second hu]
  | case7 u rest hhigh hlow ih => rw [units, List.map_cons, chars?_single (by omega), ih]

theorem Pieces.text?_inUnits (pieces : Pieces) : text? pieces.inUnits = text? pieces := by
  rw [text?, text?, chars?_inUnits]

theorem Pieces.text?_ofText (text : String) : (ofText text).text? = some text := by
  have hchars : ∀ cs : List Char, Pieces.chars? (cs.map .char) = some cs := by
    intro cs
    induction cs with
    | nil => rfl
    | cons c cs ih =>
      rw [List.map_cons, Pieces.chars?, ih]
      rfl
  rw [text?, ofText, hchars, Option.map_some, String.ofList_toList]

/-! ## Values with the same strings -/

mutual

/-- The value with every string in it written out in units. -/
def inUnits : Json → Json
  | null => null
  | bool value => bool value
  | number spelling => number spelling
  | string pieces => string pieces.inUnits
  | array items => array (itemsInUnits items)
  | object members => object (membersInUnits members)

def itemsInUnits : List Json → List Json
  | [] => []
  | item :: items => inUnits item :: itemsInUnits items

def membersInUnits : List (Pieces × Json) → List (Pieces × Json)
  | [] => []
  | (name, value) :: members => (name.inUnits, inUnits value) :: membersInUnits members

end

theorem itemsInUnits_eq (items : List Json) : itemsInUnits items = items.map inUnits := by
  induction items with
  | nil => rfl
  | cons item items ih => rw [itemsInUnits, ih, List.map_cons]

theorem membersInUnits_eq (members : List (Pieces × Json)) :
    membersInUnits members = members.map fun m => (m.1.inUnits, m.2.inUnits) := by
  induction members with
  | nil => rfl
  | cons m members ih => rw [membersInUnits, ih, List.map_cons]

/-- A text of a value: what it spells has the same strings. -/
def IsText (value : Json) (text : String) : Prop :=
  ∃ spelled, Spells spelled text.toList ∧ spelled.inUnits = value.inUnits

/-! ## What is read of a value -/

theorem text?_inUnits (value : Json) : value.inUnits.text? = value.text? := by
  cases value with
  | string pieces => exact Pieces.text?_inUnits pieces
  | _ => rfl

theorem word16?_inUnits (value : Json) : value.inUnits.word16? = value.word16? := by
  cases value <;> rfl

/-- A field is looked for by its name alone. -/
theorem member?_map (name : String) (members : List (String × Json)) :
    member? name (members.map fun m => (m.1, m.2.inUnits))
      = (member? name members).map (Option.map inUnits) := by
  have hfilter : (members.map fun m => (m.1, m.2.inUnits)).filter (·.1 = name)
      = (members.filter (·.1 = name)).map fun m => (m.1, m.2.inUnits) := by
    rw [List.filter_map]
    rfl
  rw [member?, member?, hfilter]
  generalize members.filter (·.1 = name) = found
  match found with
  | [] => rfl
  | [_] => rfl
  | _ :: _ :: _ => rfl

/-- The member under the text of its name. -/
def field? (member : Pieces × Json) : Option (String × Json) := member.1.text?.map (·, member.2)

/-- The members under the texts of their names, if all names have one. -/
def named? (members : List (Pieces × Json)) : Option (List (String × Json)) :=
  members.mapM field?

theorem fields?_object (names : List String) (members : List (Pieces × Json)) :
    (object members).fields? names
      = (named? members).bind fun named => names.mapM (member? · named) := rfl

theorem named?_inUnits (members : List (Pieces × Json)) :
    named? (membersInUnits members)
      = (named? members).map (List.map fun m => (m.1, m.2.inUnits)) := by
  rw [membersInUnits_eq]
  refine mapM_map_eq ?_
  intro m
  rw [field?, field?, Pieces.text?_inUnits]
  cases m.1.text? <;> rfl

/-- **The fields of a value are there however its strings are spelled.** -/
theorem fields?_inUnits (names : List String) (value : Json) :
    value.inUnits.fields? names = (value.fields? names).map (List.map (Option.map inUnits)) := by
  cases value with
  | object members =>
    rw [inUnits, fields?_object, fields?_object, named?_inUnits]
    cases named? members with
    | none => rfl
    | some named =>
      have hread : (names.map id).mapM
            (fun name => member? name (named.map fun m => (m.1, m.2.inUnits)))
          = (names.mapM fun name => member? name named).map (List.map (Option.map inUnits)) :=
        mapM_map_eq fun name => member?_map name named
      rw [List.map_id] at hread
      exact hread
  | array items =>
    rw [inUnits, fields?, fields?, itemsInUnits_eq, List.length_map]
    split
    · rfl
    · simp
  | _ => rfl

/-! ## What is written -/

/-- Four digits are written of a unit. -/
theorem unitChars_eq {u : Nat} (h : u < 0x10000) :
    ∃ a b c d, unitChars u = ['\\', 'u', a, b, c, d] ∧ Text.number? 16 [a, b, c, d] = some u := by
  have hlength : (Nat.toDigits 16 u).length ≤ 4 :=
    (Nat.length_toDigits_le_iff (by omega) (by omega)).mpr (by omega)
  have hnumber : ∀ k, Text.number? 16 (List.replicate k '0' ++ Nat.toDigits 16 u) = some u := by
    intro k
    induction k with
    | zero => exact Text.number?_toDigits (by omega) (by omega) u
    | succ k ih =>
      rw [List.replicate_succ, List.cons_append, Text.number?_zero_cons (by omega), ih]
      exact List.append_ne_nil_of_right_ne_nil _ Nat.toDigits_ne_nil
  have hread := hnumber (4 - (Nat.toDigits 16 u).length)
  have hfour : (List.replicate (4 - (Nat.toDigits 16 u).length) '0' ++ Nat.toDigits 16 u).length
      = 4 := by
    rw [List.length_append, List.length_replicate]
    omega
  have hunit : unitChars u = '\\' :: 'u'
      :: (List.replicate (4 - (Nat.toDigits 16 u).length) '0' ++ Nat.toDigits 16 u) := rfl
  rw [hunit]
  match List.replicate (4 - (Nat.toDigits 16 u).length) '0' ++ Nat.toDigits 16 u, hfour, hread with
  | [a, b, c, d], _, hread => exact ⟨a, b, c, d, rfl, hread⟩

theorem Pieces.units_cons (piece : Piece) (pieces : Pieces) :
    units (piece :: pieces) = units [piece] ++ units pieces := by
  cases piece with
  | char c => rw [units, units, units, List.append_nil]
  | unit u => rfl

/-- What is written of a character spells it, or its one unit. -/
theorem spells_charChars (c : Char) {pieces : Pieces} {cs : List Char}
    (h : SpellsPieces pieces cs) :
    ∃ piece, SpellsPieces (piece :: pieces) (charChars c ++ cs)
      ∧ Pieces.units [piece] = Pieces.units [.char c] := by
  rw [charChars]
  split_ifs with hquote hslash hback hfeed hline hreturn htab hcontrol
  · exact ⟨.char c, .escape (by rw [hquote]; rfl) h, rfl⟩
  · exact ⟨.char c, .escape (by rw [hslash]; rfl) h, rfl⟩
  · exact ⟨.char c, .escape (hback ▸ rfl) h, rfl⟩
  · exact ⟨.char c, .escape (hfeed ▸ rfl) h, rfl⟩
  · exact ⟨.char c, .escape (hline ▸ rfl) h, rfl⟩
  · exact ⟨.char c, .escape (hreturn ▸ rfl) h, rfl⟩
  · exact ⟨.char c, .escape (htab ▸ rfl) h, rfl⟩
  · obtain ⟨a, b, d, e, hunit, hnumber⟩ := unitChars_eq (show c.toNat < 0x10000 by omega)
    refine ⟨.unit c.toNat, ?_, ?_⟩
    · rw [hunit]
      exact .unit hnumber h
    · rw [Pieces.units, Pieces.units, unitsOf, if_pos (by omega)]
      rfl
  · exact ⟨.char c, .char (by omega) hquote hslash h, rfl⟩

theorem spells_chars (cs : List Char) :
    ∃ pieces, SpellsPieces pieces ((cs.map Piece.char).flatMap pieceChars)
      ∧ pieces.units = Pieces.units (cs.map .char) := by
  induction cs with
  | nil => exact ⟨[], .nil, rfl⟩
  | cons c cs ih =>
    obtain ⟨rest, hrest, hunits⟩ := ih
    obtain ⟨piece, hpiece, hunit⟩ := spells_charChars c hrest
    refine ⟨piece :: rest, hpiece, ?_⟩
    rw [Pieces.units_cons, hunit, hunits, List.map_cons]
    exact (Pieces.units_cons _ _).symm

/-- What is written of a value spells one with the same strings. -/
def Written (value : Json) : Prop :=
  ∃ spelled, Spells spelled value.chars ∧ spelled.inUnits = value.inUnits

theorem Written.isText {value : Json} (h : Written value) : IsText value value.text := by
  rw [IsText, text, String.toList_ofList]
  exact h

theorem written_string (text : String) : Written (string (.ofText text)) := by
  obtain ⟨pieces, hpieces, hunits⟩ := spells_chars text.toList
  refine ⟨string pieces, .string hpieces, ?_⟩
  rw [inUnits, inUnits, Pieces.inUnits, Pieces.inUnits, hunits, Pieces.ofText]

theorem isNumber_toDigits (n : Nat) : IsNumber (Nat.toDigits 10 n) := by
  have hwhole : IsWhole (Nat.toDigits 10 n) := by
    rcases Nat.eq_zero_or_pos n with rfl | hn
    · exact .zero
    · refine .digits ⟨Nat.toDigits_ne_nil, ?_⟩ (Text.head?_toDigits (by omega) (by omega) hn)
      exact fun c => Nat.isDigit_of_mem_toDigits (by omega) (by omega)
  have hnumber := IsNumber.parts (Or.inl rfl) hwhole .none .none
  rwa [List.nil_append, List.nil_append, List.append_nil] at hnumber

theorem written_number (n : Nat) : Written (number (Nat.toDigits 10 n)) :=
  ⟨_, .number (isNumber_toDigits n), rfl⟩

/-- What is written of a name spells one with the same units. -/
theorem Written.name {name : Pieces} (h : Written (string name)) :
    ∃ spelled, Spells (string spelled) (stringChars name) ∧ spelled.inUnits = name.inUnits := by
  obtain ⟨spelled, hspelled, hunits⟩ := h
  rw [chars] at hspelled
  cases spelled with
  | string pieces => exact ⟨pieces, hspelled, Json.string.inj hunits⟩
  | null | bool | number | array | object => cases hunits

theorem spells_membersChars {members : List (Pieces × Json)} (hne : members ≠ [])
    (h : ∀ m ∈ members, Written (string m.1) ∧ Written m.2) :
    ∃ spelled, SpellsMembers spelled (membersChars members)
      ∧ membersInUnits spelled = membersInUnits members := by
  induction members with
  | nil => exact absurd rfl hne
  | cons member members ih =>
    obtain ⟨name, value⟩ := member
    obtain ⟨hname, spelled, hvalue, hvalueUnits⟩ := h (name, value) List.mem_cons_self
    obtain ⟨spelledName, hname, hnameUnits⟩ := hname.name
    match members, ih with
    | [], _ =>
      refine ⟨[(spelledName, spelled)], ?_, ?_⟩
      · rw [membersChars]
        exact .last hname hvalue
      · rw [membersInUnits, membersInUnits, hnameUnits, hvalueUnits]
        rfl
    | next :: members, ih =>
      obtain ⟨rest, hrest, hrestUnits⟩ :=
        ih (List.cons_ne_nil _ _) fun m hm => h m (List.mem_cons_of_mem _ hm)
      refine ⟨(spelledName, spelled) :: rest, ?_, ?_⟩
      · rw [membersChars, List.append_assoc, List.cons_append]
        · exact .more hname hvalue hrest
        · exact List.cons_ne_nil _ _
      · rw [membersInUnits, hnameUnits, hvalueUnits, hrestUnits]
        rfl

theorem written_object {members : List (Pieces × Json)} (hne : members ≠ [])
    (h : ∀ m ∈ members, Written (string m.1) ∧ Written m.2) : Written (object members) := by
  obtain ⟨spelled, hspelled, hunits⟩ := spells_membersChars hne h
  refine ⟨object spelled, .object hspelled, ?_⟩
  rw [inUnits, inUnits, hunits]

end ChatRoom.Json
