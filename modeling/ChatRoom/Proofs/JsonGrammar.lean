import Mathlib.Data.List.TakeWhile
import ChatRoom.Json.Parser

/-!
# The grammar of JSON

`Spells value cs` says that a text spells a value, rule by rule: blanks may stand around every
value, a number has no needless zero in front, and a character of a string stands for itself unless
it is a quote, a backslash or a control character. The grammar knows nothing of the reader.

The reader finds what is spelled (`ofChars?_of_spells`). It goes over a text once and has to decide
at each character, so two facts carry the induction on the derivation. A number ends where no digit,
point or exponent can follow (`Ends`), as it does before whatever may stand behind a value. And
blanks behind a value may be left for the reader to skip, so what is left is known up to blanks
only.
-/

namespace ChatRoom.Json

/-! ## What spells a value -/

/-- Digits, one at least. -/
structure IsDigits (cs : List Char) : Prop where
  some : cs ≠ []
  all : ∀ c ∈ cs, c.isDigit = true

/-- The digits before a point: a zero alone, or digits that begin with none. -/
inductive IsWhole : List Char → Prop
  | zero : IsWhole ['0']
  | digits {cs : List Char} : IsDigits cs → cs.head? ≠ some '0' → IsWhole cs

/-- A point and digits, or nothing. -/
inductive IsFraction : List Char → Prop
  | none : IsFraction []
  | point {cs : List Char} : IsDigits cs → IsFraction ('.' :: cs)

/-- An exponent, or nothing. -/
inductive IsExponent : List Char → Prop
  | none : IsExponent []
  | power {e : Char} {sign cs : List Char} : e = 'e' ∨ e = 'E' →
      sign = [] ∨ sign = ['+'] ∨ sign = ['-'] → IsDigits cs → IsExponent (e :: (sign ++ cs))

/-- A number. -/
inductive IsNumber : List Char → Prop
  | parts {sign whole fraction exponent : List Char} : sign = [] ∨ sign = ['-'] →
      IsWhole whole → IsFraction fraction → IsExponent exponent →
      IsNumber (sign ++ (whole ++ (fraction ++ exponent)))

/-- The inside of a string. -/
inductive SpellsPieces : Pieces → List Char → Prop
  | nil : SpellsPieces [] []
  | char {c : Char} {pieces : Pieces} {cs : List Char} : 0x20 ≤ c.toNat → c ≠ '"' → c ≠ '\\' →
      SpellsPieces pieces cs → SpellsPieces (.char c :: pieces) (c :: cs)
  | escape {e c : Char} {pieces : Pieces} {cs : List Char} : escape? e = some c →
      SpellsPieces pieces cs → SpellsPieces (.char c :: pieces) ('\\' :: e :: cs)
  | unit {u : Nat} {a b c d : Char} {pieces : Pieces} {cs : List Char} :
      Text.number? 16 [a, b, c, d] = some u → SpellsPieces pieces cs →
      SpellsPieces (.unit u :: pieces) ('\\' :: 'u' :: a :: b :: c :: d :: cs)

mutual

/-- `cs` spells the value, with blanks around it and between its parts. -/
inductive Spells : Json → List Char → Prop
  | null : Spells null ['n', 'u', 'l', 'l']
  | true : Spells (bool true) ['t', 'r', 'u', 'e']
  | false : Spells (bool false) ['f', 'a', 'l', 's', 'e']
  | number {cs : List Char} : IsNumber cs → Spells (number cs) cs
  | string {pieces : Pieces} {cs : List Char} : SpellsPieces pieces cs →
      Spells (string pieces) ('"' :: (cs ++ ['"']))
  | emptyArray {cs : List Char} : (∀ c ∈ cs, isBlank c = true) →
      Spells (array []) ('[' :: (cs ++ [']']))
  | array {items : List Json} {cs : List Char} : SpellsItems items cs →
      Spells (array items) ('[' :: (cs ++ [']']))
  | emptyObject {cs : List Char} : (∀ c ∈ cs, isBlank c = true) →
      Spells (object []) ('\x7b' :: (cs ++ ['\x7d']))
  | object {members : List (Pieces × Json)} {cs : List Char} : SpellsMembers members cs →
      Spells (object members) ('\x7b' :: (cs ++ ['\x7d']))
  | before {c : Char} {value : Json} {cs : List Char} : isBlank c = true → Spells value cs →
      Spells value (c :: cs)
  | behind {c : Char} {value : Json} {cs : List Char} : isBlank c = true → Spells value cs →
      Spells value (cs ++ [c])

/-- The inside of an array that has items. -/
inductive SpellsItems : List Json → List Char → Prop
  | last {item : Json} {cs : List Char} : Spells item cs → SpellsItems [item] cs
  | more {item : Json} {items : List Json} {cs ds : List Char} : Spells item cs →
      SpellsItems items ds → SpellsItems (item :: items) (cs ++ ',' :: ds)

/-- The inside of an object that has members. -/
inductive SpellsMembers : List (Pieces × Json) → List Char → Prop
  | last {name : Pieces} {value : Json} {cs ds : List Char} : Spells (string name) cs →
      Spells value ds → SpellsMembers [(name, value)] (cs ++ ':' :: ds)
  | more {name : Pieces} {value : Json} {members : List (Pieces × Json)} {cs ds es : List Char} :
      Spells (string name) cs → Spells value ds → SpellsMembers members es →
      SpellsMembers ((name, value) :: members) (cs ++ ':' :: (ds ++ ',' :: es))

end

/-! ## Numbers -/

/-- Nothing more of a number follows. -/
def Ends (rest : List Char) : Prop :=
  ∀ c, rest.head? = some c → c.isDigit = false ∧ c ≠ '.' ∧ c ≠ 'e' ∧ c ≠ 'E'

theorem ends_nil : Ends [] := by
  intro c h
  exact absurd h (by simp)

theorem ends_cons {c : Char} (h : c.isDigit = false ∧ c ≠ '.' ∧ c ≠ 'e' ∧ c ≠ 'E')
    (rest : List Char) : Ends (c :: rest) := by
  intro d hd
  obtain rfl := Option.some.inj hd
  exact h

theorem isDigit_ne {c d : Char} (h : c.isDigit = true) (hd : d.isDigit = false) : c ≠ d := by
  rintro rfl
  rw [h] at hd
  exact absurd hd (by decide)

/-- Digits are read as far as they go. -/
theorem digits?_append {cs rest : List Char} (h : IsDigits cs)
    (hrest : ∀ c, rest.head? = some c → c.isDigit = false) :
    digits? (cs ++ rest) = some (cs, rest) := by
  have htake : rest.takeWhile Char.isDigit = [] := by
    cases rest with
    | nil => rfl
    | cons c rest => rw [List.takeWhile_cons, hrest c rfl]; rfl
  have hdrop : rest.dropWhile Char.isDigit = rest := by
    cases rest with
    | nil => rfl
    | cons c rest => rw [List.dropWhile_cons, hrest c rfl]; rfl
  rw [digits?, List.takeWhile_append_of_pos h.all, List.dropWhile_append_of_pos h.all, htake, hdrop,
    List.append_nil, if_neg h.some]

theorem whole?_append {cs rest : List Char} (h : IsWhole cs)
    (hrest : ∀ c, rest.head? = some c → c.isDigit = false) :
    whole? (cs ++ rest) = some (cs, rest) := by
  cases h with
  | zero => rfl
  | digits hdigits hhead =>
    obtain ⟨c, ds, rfl⟩ := List.exists_cons_of_ne_nil hdigits.some
    have hc : c ≠ '0' := by
      rintro rfl
      exact hhead rfl
    rw [← digits?_append hdigits hrest, List.cons_append, whole?]
    simpa using hc

theorem fraction?_append {cs rest : List Char} (h : IsFraction cs)
    (hrest : ∀ c, rest.head? = some c → c.isDigit = false ∧ c ≠ '.') :
    fraction? (cs ++ rest) = some (cs, rest) := by
  cases h with
  | none =>
    cases rest with
    | nil => rfl
    | cons c rest =>
      rw [List.nil_append, fraction?]
      simpa using (hrest c rfl).2
  | point hdigits =>
    rw [List.cons_append, fraction?, digits?_append hdigits fun c hc => (hrest c hc).1]
    rfl

theorem exponent?_append {cs rest : List Char} (h : IsExponent cs) (hrest : Ends rest) :
    exponent? (cs ++ rest) = some (cs, rest) := by
  cases h with
  | none =>
    cases rest with
    | nil => rfl
    | cons c rest =>
      obtain ⟨-, -, he, hE⟩ := hrest c rfl
      unfold exponent?
      exact if_neg (by rw [not_or]; exact ⟨he, hE⟩)
  | @power e sign cs he hsign hdigits =>
    have hread := digits?_append hdigits fun c hc => (hrest c hc).1
    obtain ⟨c, ds, rfl⟩ := List.exists_cons_of_ne_nil hdigits.some
    have hc := hdigits.all c List.mem_cons_self
    rcases hsign with rfl | rfl | rfl
    · have hnone : ¬ (c = '+' ∨ c = '-') := by
        rw [not_or]
        exact ⟨isDigit_ne hc (by decide), isDigit_ne hc (by decide)⟩
      simp only [List.cons_append, List.nil_append, exponent?, if_pos he, if_neg hnone]
      rw [List.cons_append] at hread
      rw [hread]
      rfl
    · simp only [List.cons_append, List.nil_append, exponent?, if_pos he]
      rw [List.cons_append] at hread
      rw [hread]
      rfl
    · simp only [List.cons_append, List.nil_append, exponent?, if_pos he]
      rw [List.cons_append] at hread
      rw [hread]
      rfl

/-- **A number is read to its end.** -/
theorem number?_append {cs rest : List Char} (h : IsNumber cs) (hrest : Ends rest) :
    number? (cs ++ rest) = some (cs, rest) := by
  obtain @⟨sign, whole, fraction, exponent, hsign, hwhole, hfraction, hexponent⟩ := h
  have hexponent' := exponent?_append hexponent hrest
  -- what stands behind one part is not read with it
  have hpoint : ∀ c, (exponent ++ rest).head? = some c → c.isDigit = false ∧ c ≠ '.' := by
    intro c hc
    cases hexponent with
    | none =>
      obtain ⟨hdigit, hdot, -⟩ := hrest c hc
      exact ⟨hdigit, hdot⟩
    | power he =>
      obtain rfl := Option.some.inj hc
      rcases he with rfl | rfl <;> decide
  have hdigit : ∀ c, (fraction ++ (exponent ++ rest)).head? = some c → c.isDigit = false := by
    intro c hc
    cases hfraction with
    | none => exact (hpoint c hc).1
    | point =>
      obtain rfl := Option.some.inj hc
      decide
  have hfraction' := fraction?_append hfraction hpoint
  have hwhole' := whole?_append hwhole hdigit
  obtain ⟨c, ds, hcs, hc⟩ : ∃ c ds, whole = c :: ds ∧ c ≠ '-' := by
    cases hwhole with
    | zero => exact ⟨'0', [], rfl, by decide⟩
    | digits hdigits =>
      obtain ⟨c, ds, rfl⟩ := List.exists_cons_of_ne_nil hdigits.some
      exact ⟨c, ds, rfl, isDigit_ne (hdigits.all c List.mem_cons_self) (by decide)⟩
  have hassoc : whole ++ (fraction ++ exponent) ++ rest
      = whole ++ (fraction ++ (exponent ++ rest)) := by
    rw [List.append_assoc, List.append_assoc]
  rcases hsign with rfl | rfl
  · rw [List.nil_append, hassoc, number?]
    · simp [hwhole', hfraction', hexponent']
    · intro more hminus
      rw [hcs] at hminus
      exact hc (List.cons.inj hminus).1
  · rw [List.append_assoc, hassoc, List.singleton_append, number?]
    simp [hwhole', hfraction', hexponent']

/-! ## Strings -/

theorem pieces?_char {c : Char} (hc : 0x20 ≤ c.toNat) (hquote : c ≠ '"') (hslash : c ≠ '\\')
    (rest : List Char) :
    pieces? (c :: rest)
      = (pieces? rest).map fun (pieces, rest) => (.char c :: pieces, rest) := by
  rw [pieces?]
  · rw [if_neg (by omega)]
    cases pieces? rest <;> rfl
  all_goals simp_all

theorem pieces?_escape {e c : Char} (he : escape? e = some c) (rest : List Char) :
    pieces? ('\\' :: e :: rest)
      = (pieces? rest).map fun (pieces, rest) => (.char c :: pieces, rest) := by
  have hletter : e ≠ 'u' := by
    rintro rfl
    exact nomatch (show none = some c from he)
  rw [pieces?]
  · rw [he]
    cases pieces? rest <;> rfl
  · simp [hletter]

/-- The inside of a string is read up to its closing quote. -/
theorem pieces?_append {pieces : Pieces} {cs : List Char} (h : SpellsPieces pieces cs)
    (rest : List Char) : pieces? (cs ++ '"' :: rest) = some (pieces, rest) := by
  induction h with
  | nil => rfl
  | char hc hquote hslash _ ih =>
    rw [List.cons_append, pieces?_char hc hquote hslash, ih]
    rfl
  | escape he _ ih =>
    rw [List.cons_append, List.cons_append, pieces?_escape he, ih]
    rfl
  | unit hunit _ ih => simp [pieces?, hunit, ih]

/-! ## Blanks -/

theorem skip_cons {c : Char} (h : isBlank c = true) (cs : List Char) :
    skip (c :: cs) = skip cs := by
  rw [skip, List.dropWhile_cons_of_pos h, skip]

theorem skip_of_not_blank {c : Char} (h : isBlank c = false) (cs : List Char) :
    skip (c :: cs) = c :: cs := by
  rw [skip, List.dropWhile_cons_of_neg (by rw [h]; decide)]

theorem skip_append {cs : List Char} (h : ∀ c ∈ cs, isBlank c = true) (rest : List Char) :
    skip (cs ++ rest) = skip rest := by
  rw [skip, List.dropWhile_append_of_pos h, skip]

theorem skip_skip (cs : List Char) : skip (skip cs) = skip cs := by
  induction cs with
  | nil => rfl
  | cons c cs ih =>
    cases hc : isBlank c with
    | true => rw [skip_cons hc, ih]
    | false => rw [skip_of_not_blank hc, skip_of_not_blank hc]

theorem value?_congr {cs ds : List Char} (h : skip cs = skip ds) (n : Nat) :
    value? n cs = value? n ds := by
  cases n with
  | zero => rfl
  | succ n => rw [value?, value?, h]

theorem items?_congr {cs ds : List Char} (h : skip cs = skip ds) (n : Nat) :
    items? n cs = items? n ds := by
  cases n with
  | zero => rfl
  | succ n => rw [items?, items?, value?_congr h]

theorem members?_congr {cs ds : List Char} (h : skip cs = skip ds) (n : Nat) :
    members? n cs = members? n ds := by
  cases n with
  | zero => rfl
  | succ n => rw [members?, members?, h]

theorem ends_blank {c : Char} (h : isBlank c = true) (rest : List Char) : Ends (c :: rest) := by
  refine ends_cons ?_ rest
  simp only [isBlank, Bool.or_eq_true, beq_iff_eq] at h
  rcases h with ((rfl | rfl) | rfl) | rfl <;> decide

/-! ## Values -/

/-- A number begins with a digit or a minus. -/
theorem IsNumber.head {cs : List Char} (h : IsNumber cs) :
    ∃ c ds, cs = c :: ds ∧ (c = '-' ∨ c.isDigit = true) := by
  obtain ⟨hsign, hwhole, -, -⟩ := h
  rcases hsign with rfl | rfl
  · cases hwhole with
    | zero => exact ⟨_, _, rfl, Or.inr (by decide)⟩
    | digits hdigits =>
      obtain ⟨c, ds, rfl⟩ := List.exists_cons_of_ne_nil hdigits.some
      exact ⟨c, _, rfl, Or.inr (hdigits.all c List.mem_cons_self)⟩
  · exact ⟨_, _, rfl, Or.inl rfl⟩

theorem value?_number {cs rest : List Char} (h : IsNumber cs) (hrest : Ends rest) (n : Nat) :
    value? (n + 1) (cs ++ rest) = some (number cs, rest) := by
  have hread := number?_append h hrest
  obtain ⟨c, ds, rfl, hc⟩ := h.head
  have hne : ∀ d : Char, d ≠ '-' → d.isDigit = false → c ≠ d := by
    intro d hminus hdigit
    rcases hc with rfl | hc
    · exact Ne.symm hminus
    · exact isDigit_ne hc hdigit
  have hblank : isBlank c = false := by
    simp [isBlank, hne ' ' (by decide) (by decide), hne '\t' (by decide) (by decide),
      hne '\n' (by decide) (by decide), hne '\r' (by decide) (by decide)]
  rw [List.cons_append] at hread
  rw [List.cons_append, value?, skip_of_not_blank hblank]
  split
  case h_7 =>
    rw [hread]
    rfl
  -- no other kind of value begins with such a character
  all_goals
    rename_i hmore
    exact absurd (List.cons.inj hmore).1 (hne _ (by decide) (by decide))

theorem value?_string {pieces : Pieces} {cs : List Char} (h : SpellsPieces pieces cs) (n : Nat)
    (rest : List Char) :
    value? (n + 1) ('"' :: (cs ++ ['"']) ++ rest) = some (string pieces, rest) := by
  have hassoc : '"' :: (cs ++ ['"']) ++ rest = '"' :: (cs ++ '"' :: rest) := by
    rw [List.cons_append, List.append_assoc, List.singleton_append]
  rw [hassoc, value?, skip_of_not_blank (by decide)]
  simp only [pieces?_append h, Option.map_some]

theorem value?_bracket (n : Nat) (rest : List Char) :
    value? (n + 1) ('[' :: rest) = match skip rest with
      | ']' :: rest => some (array [], rest)
      | rest => (items? n rest).map fun (items, rest) => (array items, rest) := rfl

theorem value?_brace (n : Nat) (rest : List Char) :
    value? (n + 1) ('\x7b' :: rest) = match skip rest with
      | '\x7d' :: rest => some (object [], rest)
      | rest => (members? n rest).map fun (members, rest) => (object members, rest) := rfl

/-- No item begins with the bracket that closes an array. -/
theorem items?_bracket (n : Nat) (rest : List Char) : items? n (']' :: rest) = none := by
  cases n with
  | zero => rfl
  | succ n =>
    cases n with
    | zero => rfl
    | succ n => rfl

theorem value?_array {items : List Json} {cs rest : List Char} {n : Nat}
    (h : items? n (cs ++ ']' :: rest) = some (items, rest)) :
    value? (n + 1) ('[' :: (cs ++ [']']) ++ rest) = some (array items, rest) := by
  have hassoc : '[' :: (cs ++ [']']) ++ rest = '[' :: (cs ++ ']' :: rest) := by
    rw [List.cons_append, List.append_assoc, List.singleton_append]
  rw [← items?_congr (skip_skip _)] at h
  rw [hassoc, value?_bracket]
  split
  · rename_i hclosed
    rw [hclosed, items?_bracket] at h
    exact absurd h (by simp)
  · rw [h]
    rfl

theorem members?_brace (n : Nat) (rest : List Char) : members? n ('\x7d' :: rest) = none := by
  cases n with
  | zero => rfl
  | succ n => rfl

theorem value?_object {members : List (Pieces × Json)} {cs rest : List Char} {n : Nat}
    (h : members? n (cs ++ '\x7d' :: rest) = some (members, rest)) :
    value? (n + 1) ('\x7b' :: (cs ++ ['\x7d']) ++ rest) = some (object members, rest) := by
  have hassoc : '\x7b' :: (cs ++ ['\x7d']) ++ rest = '\x7b' :: (cs ++ '\x7d' :: rest) := by
    rw [List.cons_append, List.append_assoc, List.singleton_append]
  rw [← members?_congr (skip_skip _)] at h
  rw [hassoc, value?_brace]
  split
  · rename_i hclosed
    rw [hclosed, members?_brace] at h
    exact absurd h (by simp)
  · rw [h]
    rfl

/-- Nothing but blanks is in an empty array, or in an empty object. -/
theorem value?_empty {cs : List Char} (h : ∀ c ∈ cs, isBlank c = true) (n : Nat)
    (rest : List Char) :
    value? (n + 1) ('[' :: (cs ++ [']']) ++ rest) = some (array [], rest)
      ∧ value? (n + 1) ('\x7b' :: (cs ++ ['\x7d']) ++ rest) = some (object [], rest) := by
  have hskip : ∀ c : Char, isBlank c = false → skip (cs ++ [c] ++ rest) = c :: rest := by
    intro c hc
    rw [List.append_assoc, skip_append h, List.singleton_append, skip_of_not_blank hc]
  constructor
  · rw [List.cons_append, value?_bracket, hskip ']' (by decide)]
    rfl
  · rw [List.cons_append, value?_brace, hskip '\x7d' (by decide)]
    rfl

/-- The name of a member is read up to the blanks behind it. -/
theorem Spells.read_name : ∀ {name : Pieces} {cs : List Char}, Spells (Json.string name) cs →
    ∀ rest : List Char, ∃ inside out, skip (cs ++ rest) = '"' :: inside
      ∧ pieces? inside = some (name, out) ∧ skip out = skip rest
  | _, _, @string _ cs h, rest => by
    refine ⟨cs ++ '"' :: rest, rest, ?_, pieces?_append h rest, rfl⟩
    rw [List.cons_append, List.append_assoc, List.singleton_append, skip_of_not_blank (by decide)]
  | _, _, before hc h, rest => by
    rw [List.cons_append, skip_cons hc]
    exact h.read_name rest
  | _, _, @behind c _ cs hc h, rest => by
    obtain ⟨inside, out, hskip, hread, hout⟩ := h.read_name (c :: rest)
    rw [List.append_assoc, List.singleton_append]
    exact ⟨inside, out, hskip, hread, hout.trans (skip_cons hc rest)⟩
termination_by _ cs => cs.length
decreasing_by all_goals simp

/-- A member is read, and what follows it decides whether there are more. -/
theorem members?_member {name : Pieces} {value : Json} {cs tail out rest : List Char} {n : Nat}
    (hname : Spells (string name) cs) (hvalue : value? n tail = some (value, out)) :
    (skip out = '\x7d' :: rest →
        members? (n + 1) (cs ++ ':' :: tail) = some ([(name, value)], rest))
      ∧ (skip out = ',' :: rest → ∀ members last, members? n rest = some (members, last) →
        members? (n + 1) (cs ++ ':' :: tail) = some ((name, value) :: members, last)) := by
  obtain ⟨inside, behind, hskip, hread, hbehind⟩ := hname.read_name (':' :: tail)
  rw [skip_of_not_blank (by decide)] at hbehind
  rw [members?, hskip]
  constructor
  · intro hout
    simp only [hread, hbehind, hvalue, hout]
  · intro hout members last hmore
    simp only [hread, hbehind, hvalue, hout, hmore, Option.map_some]

mutual

/-- **What is spelled is read**, up to the blanks behind it. -/
theorem Spells.read : ∀ {value : Json} {cs : List Char}, Spells value cs →
    ∀ (n : Nat) (rest : List Char), 2 * cs.length ≤ n → Ends rest →
      ∃ out, value? n (cs ++ rest) = some (value, out) ∧ skip out = skip rest
  | _, _, .null, n + 1, rest, _, _ => ⟨rest, rfl, rfl⟩
  | _, _, .true, n + 1, rest, _, _ => ⟨rest, rfl, rfl⟩
  | _, _, .false, n + 1, rest, _, _ => ⟨rest, rfl, rfl⟩
  | _, _, .number h, n, rest, hn, hrest => by
    obtain ⟨c, ds, rfl, -⟩ := h.head
    rw [List.length_cons] at hn
    obtain ⟨m, rfl⟩ := Nat.exists_eq_succ_of_ne_zero (n := n) (by omega)
    exact ⟨rest, value?_number h hrest m, rfl⟩
  | _, _, .string h, n + 1, rest, hn, hrest => ⟨rest, value?_string h n rest, rfl⟩
  | _, _, .emptyArray h, n + 1, rest, hn, hrest => ⟨rest, (value?_empty h n rest).1, rfl⟩
  | _, _, .array h, n + 1, rest, hn, hrest => by
    rw [List.length_cons, List.length_append, List.length_singleton] at hn
    exact ⟨rest, value?_array (h.read n rest (by omega)), rfl⟩
  | _, _, .emptyObject h, n + 1, rest, hn, hrest => ⟨rest, (value?_empty h n rest).2, rfl⟩
  | _, _, .object h, n + 1, rest, hn, hrest => by
    rw [List.length_cons, List.length_append, List.length_singleton] at hn
    exact ⟨rest, value?_object (h.read n rest (by omega)), rfl⟩
  | _, _, .before hc h, n, rest, hn, hrest => by
    rw [List.length_cons] at hn
    obtain ⟨out, hread, hout⟩ := h.read n rest (by omega) hrest
    exact ⟨out, (value?_congr (skip_cons hc _) n).trans hread, hout⟩
  | _, _, @Spells.behind c _ _ hc h, n, rest, hn, hrest => by
    rw [List.length_append, List.length_singleton] at hn
    obtain ⟨out, hread, hout⟩ := h.read n (c :: rest) (by omega) (ends_blank hc rest)
    rw [List.append_assoc, List.singleton_append]
    exact ⟨out, hread, hout.trans (skip_cons hc rest)⟩

/-- And so are the items of an array. -/
theorem SpellsItems.read : ∀ {items : List Json} {cs : List Char}, SpellsItems items cs →
    ∀ (n : Nat) (rest : List Char), 2 * cs.length < n →
      items? n (cs ++ ']' :: rest) = some (items, rest)
  | _, _, .last h, n + 1, rest, hn => by
    obtain ⟨out, hread, hout⟩ := h.read n (']' :: rest) (by omega) (ends_cons (by decide) rest)
    rw [skip_of_not_blank (by decide)] at hout
    rw [items?, hread]
    simp only [hout]
  | _, _, @SpellsItems.more _ _ cs ds h hitems, n + 1, rest, hn => by
    rw [List.length_append, List.length_cons] at hn
    obtain ⟨out, hread, hout⟩ := h.read n (',' :: (ds ++ ']' :: rest)) (by omega)
      (ends_cons (by decide) _)
    rw [skip_of_not_blank (by decide)] at hout
    rw [List.append_assoc, List.cons_append, items?, hread]
    simp only [hout, hitems.read n rest (by omega), Option.map_some]

/-- And the members of an object. -/
theorem SpellsMembers.read : ∀ {members : List (Pieces × Json)} {cs : List Char},
    SpellsMembers members cs → ∀ (n : Nat) (rest : List Char), 2 * cs.length < n →
      members? n (cs ++ '\x7d' :: rest) = some (members, rest)
  | _, _, .last hname h, n + 1, rest, hn => by
    rw [List.length_append, List.length_cons] at hn
    obtain ⟨out, hread, hout⟩ := h.read n ('\x7d' :: rest) (by omega) (ends_cons (by decide) rest)
    rw [skip_of_not_blank (by decide)] at hout
    rw [List.append_assoc, List.cons_append]
    exact (members?_member hname hread).1 hout
  | _, _, @SpellsMembers.more _ _ _ cs ds es hname h hmembers, n + 1, rest, hn => by
    rw [List.length_append, List.length_cons, List.length_append, List.length_cons] at hn
    obtain ⟨out, hread, hout⟩ := h.read n (',' :: (es ++ '\x7d' :: rest)) (by omega)
      (ends_cons (by decide) _)
    rw [skip_of_not_blank (by decide)] at hout
    rw [List.append_assoc, List.cons_append, List.append_assoc, List.cons_append]
    exact (members?_member hname hread).2 hout _ _ (hmembers.read n rest (by omega))

end

/-- **The reader finds the value that a text spells.** -/
theorem ofChars?_of_spells {value : Json} {cs : List Char} (h : Spells value cs) :
    ofChars? cs = some value := by
  obtain ⟨out, hread, hout⟩ := h.read (2 * cs.length + 2) [] (by omega) ends_nil
  rw [List.append_nil] at hread
  have hnothing : skip out = [] := hout
  rw [ofChars?, hread]
  simp only [hnothing, if_true]

end ChatRoom.Json
