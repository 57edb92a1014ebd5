import ChatRoom.Proofs.JsonGrammar

/-!
# The reader accepts the grammar alone

What the reader takes off the front of a text spells the value that it gives, so the texts that are
read are those of the grammar and no others (`ofText?_eq_some_iff`).

The three functions that read values count down together, and so the induction is on their count:
what they take with a count of `n + 1` is put together from what they take with `n` (`Reads`).
-/

namespace ChatRoom.Json

/-! ## Numbers -/

theorem digits?_eq_some {cs digits rest : List Char} (h : digits? cs = some (digits, rest)) :
    cs = digits ++ rest ∧ IsDigits digits := by
  rw [digits?] at h
  split at h
  · cases h
  · rename_i hsome
    obtain ⟨rfl, rfl⟩ := Prod.mk.inj (Option.some.inj h)
    exact ⟨List.takeWhile_append_dropWhile.symm, hsome, fun c => List.mem_takeWhile_imp⟩

theorem whole?_eq_some {cs whole rest : List Char} (h : whole? cs = some (whole, rest)) :
    cs = whole ++ rest ∧ IsWhole whole := by
  fun_cases whole? cs with
  | case1 rest' =>
    obtain ⟨rfl, rfl⟩ := Prod.mk.inj (Option.some.inj h)
    exact ⟨rfl, .zero⟩
  | case2 cs hzero =>
    rw [whole?.eq_2 cs hzero] at h
    obtain ⟨rfl, hdigits⟩ := digits?_eq_some h
    refine ⟨rfl, .digits hdigits ?_⟩
    intro hhead
    obtain ⟨ds, rfl⟩ := List.head?_eq_some_iff.mp hhead
    exact hzero _ rfl

theorem fraction?_eq_some {cs fraction rest : List Char}
    (h : fraction? cs = some (fraction, rest)) : cs = fraction ++ rest ∧ IsFraction fraction := by
  fun_cases fraction? cs with
  | case1 after =>
    obtain ⟨⟨digits, out⟩, hread, hout⟩ := Option.map_eq_some_iff.mp h
    obtain ⟨rfl, rfl⟩ := Prod.mk.inj hout
    obtain ⟨rfl, hdigits⟩ := digits?_eq_some hread
    exact ⟨rfl, .point hdigits⟩
  | case2 cs hpoint =>
    rw [fraction?.eq_2 cs hpoint] at h
    obtain ⟨rfl, rfl⟩ := Prod.mk.inj (Option.some.inj h)
    exact ⟨rfl, .none⟩

theorem exponent?_eq_some {cs exponent rest : List Char}
    (h : exponent? cs = some (exponent, rest)) : cs = exponent ++ rest ∧ IsExponent exponent := by
  have hpower : ∀ {e : Char} {sign ds : List Char}, e = 'e' ∨ e = 'E' →
      sign = [] ∨ sign = ['+'] ∨ sign = ['-'] →
      (digits? ds).map (fun read => (e :: (sign ++ read.1), read.2)) = some (exponent, rest) →
      e :: (sign ++ ds) = exponent ++ rest ∧ IsExponent exponent := by
    intro e sign ds he hsign hread
    obtain ⟨⟨digits, out⟩, hdigits, hout⟩ := Option.map_eq_some_iff.mp hread
    obtain ⟨rfl, rfl⟩ := Prod.mk.inj hout
    obtain ⟨rfl, hisDigits⟩ := digits?_eq_some hdigits
    refine ⟨?_, .power he hsign hisDigits⟩
    rw [List.cons_append, List.append_assoc]
  rw [exponent?.eq_def] at h
  split at h
  · split_ifs at h with he
    · split at h
      · split_ifs at h with hsign
        · rcases hsign with rfl | rfl
          · exact hpower he (.inr (.inl rfl)) h
          · exact hpower he (.inr (.inr rfl)) h
        · exact hpower he (.inl rfl) h
      · cases h
    · obtain ⟨rfl, rfl⟩ := Prod.mk.inj (Option.some.inj h)
      exact ⟨rfl, .none⟩
  · obtain ⟨rfl, rfl⟩ := Prod.mk.inj (Option.some.inj h)
    exact ⟨rfl, .none⟩

theorem number?_eq_some {cs spelling rest : List Char} (h : number? cs = some (spelling, rest)) :
    cs = spelling ++ rest ∧ IsNumber spelling := by
  rw [number?.eq_def] at h
  split at h
  rename_i sign ds hsplit
  have hsign : cs = sign ++ ds ∧ (sign = [] ∨ sign = ['-']) := by
    split at hsplit
    · obtain ⟨rfl, rfl⟩ := Prod.mk.inj hsplit
      exact ⟨rfl, .inr rfl⟩
    · obtain ⟨rfl, rfl⟩ := Prod.mk.inj hsplit
      exact ⟨rfl, .inl rfl⟩
  obtain ⟨⟨whole, afterWhole⟩, hwhole, h⟩ := Option.bind_eq_some_iff.mp h
  obtain ⟨⟨fraction, afterFraction⟩, hfraction, h⟩ := Option.bind_eq_some_iff.mp h
  obtain ⟨⟨exponent, afterExponent⟩, hexponent, h⟩ := Option.bind_eq_some_iff.mp h
  obtain ⟨rfl, rfl⟩ := Prod.mk.inj (Option.some.inj h)
  obtain ⟨rfl, hisWhole⟩ := whole?_eq_some hwhole
  obtain ⟨rfl, hisFraction⟩ := fraction?_eq_some hfraction
  obtain ⟨rfl, hisExponent⟩ := exponent?_eq_some hexponent
  have hassoc : sign ++ whole ++ fraction ++ exponent
      = sign ++ (whole ++ (fraction ++ exponent)) := by
    simp only [List.append_assoc]
  rw [hassoc, hsign.1]
  exact ⟨by simp only [List.append_assoc], .parts hsign.2 hisWhole hisFraction hisExponent⟩

/-! ## Strings -/

/-- What is read of a string spells it, and ends with a quote. -/
theorem pieces?_eq_some {cs rest : List Char} {pieces : Pieces}
    (h : pieces? cs = some (pieces, rest)) :
    ∃ front, cs = front ++ '"' :: rest ∧ SpellsPieces pieces front := by
  fun_induction pieces? cs generalizing pieces with
  | case1 => cases h
  | case2 after =>
    obtain ⟨rfl, rfl⟩ := Prod.mk.inj (Option.some.inj h)
    exact ⟨[], rfl, .nil⟩
  | case3 a b c d after ih =>
    obtain ⟨u, hunit, h⟩ := Option.bind_eq_some_iff.mp h
    obtain ⟨⟨inside, out⟩, hinside, h⟩ := Option.bind_eq_some_iff.mp h
    obtain ⟨rfl, rfl⟩ := Prod.mk.inj (Option.some.inj h)
    obtain ⟨front, rfl, hfront⟩ := ih hinside
    exact ⟨_, rfl, .unit hunit hfront⟩
  | case4 e after hunit ih =>
    obtain ⟨c, hescape, h⟩ := Option.bind_eq_some_iff.mp h
    obtain ⟨⟨inside, out⟩, hinside, h⟩ := Option.bind_eq_some_iff.mp h
    obtain ⟨rfl, rfl⟩ := Prod.mk.inj (Option.some.inj h)
    obtain ⟨front, rfl, hfront⟩ := ih hinside
    exact ⟨_, rfl, .escape hescape hfront⟩
  | case5 => cases h
  | case6 c after hquote hunit hescape hcontrol ih =>
    obtain ⟨⟨inside, out⟩, hinside, h⟩ := Option.bind_eq_some_iff.mp h
    obtain ⟨rfl, rfl⟩ := Prod.mk.inj (Option.some.inj h)
    obtain ⟨front, rfl, hfront⟩ := ih hinside
    refine ⟨_, rfl, .char (by omega) hquote ?_ hfront⟩
    rintro rfl
    -- a backslash has something behind it, and then it begins an escape
    obtain ⟨e, more, hmore⟩ := List.exists_cons_of_ne_nil
      (List.append_ne_nil_of_right_ne_nil front (List.cons_ne_nil '"' out))
    exact hescape e more rfl hmore

/-! ## Blanks -/

/-- What is skipped is blank. -/
theorem exists_blanks {cs ds : List Char} (h : skip cs = ds) :
    ∃ blanks, cs = blanks ++ ds ∧ ∀ c ∈ blanks, isBlank c = true := by
  rw [← h]
  exact ⟨cs.takeWhile isBlank, List.takeWhile_append_dropWhile.symm,
    fun c => List.mem_takeWhile_imp⟩

theorem spells_behind_blanks {blanks cs : List Char} {value : Json}
    (hblank : ∀ c ∈ blanks, isBlank c = true) (h : Spells value cs) :
    Spells value (blanks ++ cs) := by
  induction blanks with
  | nil => exact h
  | cons c blanks ih =>
    have hrest := ih fun d hd => hblank d (List.mem_cons_of_mem c hd)
    exact .before (hblank c List.mem_cons_self) hrest

theorem spells_before_blanks {blanks cs : List Char} {value : Json}
    (hblank : ∀ c ∈ blanks, isBlank c = true) (h : Spells value cs) :
    Spells value (cs ++ blanks) := by
  induction blanks generalizing cs with
  | nil => rwa [List.append_nil]
  | cons c blanks ih =>
    have hnext := ih (fun d hd => hblank d (List.mem_cons_of_mem c hd))
      (.behind (hblank c List.mem_cons_self) h)
    rwa [List.append_assoc, List.singleton_append] at hnext

/-! ## Values -/

theorem after?_eq_some {word cs rest : List Char} (h : after? word cs = some rest) :
    cs = word ++ rest := by
  rw [after?] at h
  split_ifs at h with hword
  obtain ⟨out, rfl⟩ := hword
  rw [List.drop_left] at h
  rw [Option.some.inj h]

/-- What is read with this count is spelled. -/
structure Reads (n : Nat) : Prop where
  value : ∀ {cs rest : List Char} {value : Json}, value? n cs = some (value, rest) →
    ∃ front, cs = front ++ rest ∧ Spells value front
  items : ∀ {cs rest : List Char} {items : List Json}, items? n cs = some (items, rest) →
    ∃ front, cs = front ++ ']' :: rest ∧ SpellsItems items front
  members : ∀ {cs rest : List Char} {members : List (Pieces × Json)},
    members? n cs = some (members, rest) →
    ∃ front, cs = front ++ '\x7d' :: rest ∧ SpellsMembers members front

section

variable {n : Nat} {cs rest : List Char}

theorem Reads.items_succ (h : Reads n) {items : List Json}
    (hread : items? (n + 1) cs = some (items, rest)) :
    ∃ front, cs = front ++ ']' :: rest ∧ SpellsItems items front := by
  rw [items?] at hread
  split at hread
  · cases hread
  rename_i item out hitem
  obtain ⟨front, rfl, hfront⟩ := h.value hitem
  split at hread
  · rename_i after hout
    obtain ⟨rfl, rfl⟩ := Prod.mk.inj (Option.some.inj hread)
    obtain ⟨blanks, rfl, hblanks⟩ := exists_blanks hout
    exact ⟨_, by simp, .last (spells_before_blanks hblanks hfront)⟩
  · rename_i after hout
    obtain ⟨⟨more, end'⟩, hmore, hread⟩ := Option.map_eq_some_iff.mp hread
    obtain ⟨rfl, rfl⟩ := Prod.mk.inj hread
    obtain ⟨blanks, rfl, hblanks⟩ := exists_blanks hout
    obtain ⟨inside, rfl, hinside⟩ := h.items hmore
    exact ⟨_, by simp, .more (spells_before_blanks hblanks hfront) hinside⟩
  · cases hread

theorem Reads.members_succ (h : Reads n) {members : List (Pieces × Json)}
    (hread : members? (n + 1) cs = some (members, rest)) :
    ∃ front, cs = front ++ '\x7d' :: rest ∧ SpellsMembers members front := by
  rw [members?] at hread
  split at hread
  case h_2 => cases hread
  rename_i quoted hquoted
  split at hread
  case h_1 => cases hread
  rename_i name behind hname
  split at hread
  case h_2 => cases hread
  rename_i valued hvalued
  split at hread
  case h_1 => cases hread
  rename_i value out hvalue
  obtain ⟨before, rfl, hbefore⟩ := exists_blanks hquoted
  obtain ⟨inside, rfl, hinside⟩ := pieces?_eq_some hname
  obtain ⟨after, rfl, hafter⟩ := exists_blanks hvalued
  obtain ⟨front, rfl, hfront⟩ := h.value hvalue
  have hspelled := spells_before_blanks hafter (spells_behind_blanks hbefore (.string hinside))
  split at hread
  case h_3 => cases hread
  case h_1 last hout =>
    obtain ⟨rfl, rfl⟩ := Prod.mk.inj (Option.some.inj hread)
    obtain ⟨blanks, rfl, hblanks⟩ := exists_blanks hout
    exact ⟨_, by simp, .last hspelled (spells_before_blanks hblanks hfront)⟩
  case h_2 next hout =>
    obtain ⟨⟨more, last⟩, hmore, hread⟩ := Option.map_eq_some_iff.mp hread
    obtain ⟨rfl, rfl⟩ := Prod.mk.inj hread
    obtain ⟨blanks, rfl, hblanks⟩ := exists_blanks hout
    obtain ⟨others, rfl, hothers⟩ := h.members hmore
    exact ⟨_, by simp, .more hspelled (spells_before_blanks hblanks hfront) hothers⟩

theorem Reads.value_succ (h : Reads n) {value : Json}
    (hread : value? (n + 1) cs = some (value, rest)) :
    ∃ front, cs = front ++ rest ∧ Spells value front := by
  -- blanks in front of what is spelled are spelled with it
  have hblanks : ∀ front, skip cs = front ++ rest → Spells value front →
      ∃ front, cs = front ++ rest ∧ Spells value front := by
    intro front hskip hspelled
    obtain ⟨blanks, hcs, hblank⟩ := exists_blanks hskip
    exact ⟨blanks ++ front, by rw [hcs, List.append_assoc], spells_behind_blanks hblank hspelled⟩
  rw [value?] at hread
  split at hread
  case h_1 quoted hskip =>
    obtain ⟨⟨pieces, out⟩, hpieces, hout⟩ := Option.map_eq_some_iff.mp hread
    obtain ⟨rfl, rfl⟩ := Prod.mk.inj hout
    obtain ⟨inside, rfl, hinside⟩ := pieces?_eq_some hpieces
    exact hblanks _ (by rw [hskip]; simp) (.string hinside)
  case h_2 bracketed hskip =>
    split at hread
    · rename_i out hempty
      obtain ⟨rfl, rfl⟩ := Prod.mk.inj (Option.some.inj hread)
      obtain ⟨inside, rfl, hinside⟩ := exists_blanks hempty
      exact hblanks _ (by rw [hskip]; simp) (.emptyArray hinside)
    · obtain ⟨⟨items, out⟩, hitems, hout⟩ := Option.map_eq_some_iff.mp hread
      obtain ⟨rfl, rfl⟩ := Prod.mk.inj hout
      rw [items?_congr (skip_skip bracketed)] at hitems
      obtain ⟨inside, rfl, hinside⟩ := h.items hitems
      exact hblanks _ (by rw [hskip]; simp) (.array hinside)
  case h_3 braced hskip =>
    split at hread
    · rename_i out hempty
      obtain ⟨rfl, rfl⟩ := Prod.mk.inj (Option.some.inj hread)
      obtain ⟨inside, rfl, hinside⟩ := exists_blanks hempty
      exact hblanks _ (by rw [hskip]; simp) (.emptyObject hinside)
    · obtain ⟨⟨members, out⟩, hmembers, hout⟩ := Option.map_eq_some_iff.mp hread
      obtain ⟨rfl, rfl⟩ := Prod.mk.inj hout
      rw [members?_congr (skip_skip braced)] at hmembers
      obtain ⟨inside, rfl, hinside⟩ := h.members hmembers
      exact hblanks _ (by rw [hskip]; simp) (.object hinside)
  case h_4 word hskip =>
    obtain ⟨out, hword, hout⟩ := Option.map_eq_some_iff.mp hread
    obtain ⟨rfl, rfl⟩ := Prod.mk.inj hout
    exact hblanks _ (by rw [hskip, after?_eq_some hword]; rfl) .null
  case h_5 word hskip =>
    obtain ⟨out, hword, hout⟩ := Option.map_eq_some_iff.mp hread
    obtain ⟨rfl, rfl⟩ := Prod.mk.inj hout
    exact hblanks _ (by rw [hskip, after?_eq_some hword]; rfl) .true
  case h_6 word hskip =>
    obtain ⟨out, hword, hout⟩ := Option.map_eq_some_iff.mp hread
    obtain ⟨rfl, rfl⟩ := Prod.mk.inj hout
    exact hblanks _ (by rw [hskip, after?_eq_some hword]; rfl) .false
  case h_7 =>
    obtain ⟨⟨spelling, out⟩, hnumber, hout⟩ := Option.map_eq_some_iff.mp hread
    obtain ⟨rfl, rfl⟩ := Prod.mk.inj hout
    obtain ⟨hskip, hnumber⟩ := number?_eq_some hnumber
    exact hblanks _ hskip (.number hnumber)

end

/-- **Whatever is read was spelled**, with any count. -/
theorem reads (n : Nat) : Reads n := by
  induction n with
  | zero => exact ⟨fun h => (by cases h), fun h => (by cases h), fun h => (by cases h)⟩
  | succ n ih => exact ⟨ih.value_succ, ih.items_succ, ih.members_succ⟩

/-- **A text is read as a value exactly if it spells it.** -/
theorem ofText?_eq_some_iff {text : String} {value : Json} :
    ofText? text = some value ↔ Spells value text.toList := by
  constructor
  · intro h
    rw [ofText?, ofChars?] at h
    split at h
    case h_2 => cases h
    rename_i read rest hread
    split_ifs at h with hrest
    obtain rfl := Option.some.inj h
    obtain ⟨front, hfront, hspelled⟩ := (reads _).value hread
    obtain ⟨blanks, rfl, hblanks⟩ := exists_blanks hrest
    rw [hfront, List.append_nil]
    exact spells_before_blanks hblanks hspelled
  · exact ofChars?_of_spells

end ChatRoom.Json
