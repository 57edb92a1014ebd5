import Mathlib.Data.List.TakeWhile
import ChatRoom.Net.Address
import ChatRoom.Proofs.Numerals

/-!
# Addresses read back

An address is read from its text (`IpAddress.ofText?_text`). For IPv4 that is four numerals and the
dots between them. An IPv6 address has three forms, and the reader must find out which one it has
before it: where there is no `::` there are eight groups; where there is one, the groups that are
missing are zeros, and the run that was left out has no other (`IPv6.zeroRun_split`); and an address
with an IPv4 one behind it has its last two groups in four octets.

No form is mistaken for another, since numerals have neither dots nor colons in them.
-/

namespace ChatRoom

/-! ## Parts and what is between them -/

namespace Text

/-- The parts that were joined are the parts between the separators. -/
theorem split_joinWith {sep : Char} {parts : List (List Char)} (hne : parts ≠ [])
    (h : ∀ part ∈ parts, sep ∉ part) : split sep (joinWith sep parts) = parts := by
  induction parts with
  | nil => exact absurd rfl hne
  | cons part parts ih =>
    have hpart := h part List.mem_cons_self
    cases parts with
    | nil => rw [joinWith, split_of_not_mem hpart]
    | cons next parts =>
      have hrest := ih (List.cons_ne_nil next parts) fun p hp => h p (List.mem_cons_of_mem part hp)
      rw [joinWith, split_append hpart, hrest]
      exact List.cons_ne_nil next parts

theorem mem_joinWith {sep c : Char} {parts : List (List Char)} (h : c ∈ joinWith sep parts) :
    c = sep ∨ ∃ part ∈ parts, c ∈ part := by
  induction parts with
  | nil => simp [joinWith] at h
  | cons part parts ih =>
    cases parts with
    | nil => exact Or.inr ⟨part, List.mem_cons_self, h⟩
    | cons next parts =>
      rw [joinWith, List.mem_append, List.mem_cons] at h
      · rcases h with h | h | h
        · exact Or.inr ⟨part, List.mem_cons_self, h⟩
        · exact Or.inl h
        · rcases ih h with h | ⟨p, hp, hc⟩
          · exact Or.inl h
          · exact Or.inr ⟨p, List.mem_cons_of_mem part hp, hc⟩
      · exact List.cons_ne_nil next parts

/-- A mark is found where it stands at the front. -/
theorem cut?_mark {mark : List Char} (hne : mark ≠ []) (after : List Char) :
    cut? mark (mark ++ after) = some ([], after) := by
  cases mark with
  | nil => exact absurd rfl hne
  | cons c mark =>
    have hfront : c :: mark <+: c :: (mark ++ after) := ⟨after, rfl⟩
    rw [List.cons_append, cut?, if_pos hfront, ← List.cons_append, List.drop_left]

/-- A character that does not begin the mark is passed over. -/
theorem cut?_cons_of_not_prefix {mark : List Char} {c : Char} {cs : List Char}
    (h : ¬ mark <+: c :: cs) :
    cut? mark (c :: cs) = (cut? mark cs).map fun (before, after) => (c :: before, after) := by
  rw [cut?, if_neg h]

/-- And so are characters that the mark does not begin with. -/
theorem cut?_append_of_not_mem {m : Char} {mark part : List Char} (h : m ∉ part)
    (cs : List Char) :
    cut? (m :: mark) (part ++ cs)
      = (cut? (m :: mark) cs).map fun (before, after) => (part ++ before, after) := by
  induction part with
  | nil => simp
  | cons c part ih =>
    rw [List.mem_cons, not_or] at h
    have hfront : ¬ m :: mark <+: c :: (part ++ cs) := fun hp =>
      h.1 (List.cons_prefix_cons.mp hp).1
    rw [List.cons_append, cut?_cons_of_not_prefix hfront, ih h.2, Option.map_map]
    rfl

/-- Neither a dot nor a colon is a digit. -/
theorem not_mem_toDigits {base n : Nat} {c : Char} (hbase : 1 < base) (hmost : base ≤ 16)
    (hc : c = '.' ∨ c = ':') : c ∉ Nat.toDigits base n := by
  intro hm
  obtain ⟨digit, hdigit, rfl⟩ := isDigit_of_mem_toDigits hbase hmost hm
  interval_cases digit <;> rcases hc with hc | hc <;> exact absurd hc (by decide)

end Text

/-! ## IPv4 -/

namespace IPv4

theorem octet?_toDigits (octet : UInt8) : octet? (Nat.toDigits 10 octet.toNat) = some octet := by
  have hlt := octet.toNat_lt
  have hlength : (Nat.toDigits 10 octet.toNat).length ≤ 3 :=
    (Nat.length_toDigits_le_iff (by omega) (by omega)).mpr (by omega)
  have hhead : ¬ ((Nat.toDigits 10 octet.toNat).head? = some '0'
      ∧ 1 < (Nat.toDigits 10 octet.toNat).length) := by
    rintro ⟨hzero, hlong⟩
    rcases Nat.eq_zero_or_pos octet.toNat with hn | hn
    · rw [hn, Nat.toDigits_zero] at hlong
      exact absurd hlong (by decide)
    · exact Text.head?_toDigits (by omega) (by omega) hn hzero
  rw [octet?, if_neg (by rw [not_or]; exact ⟨by omega, hhead⟩),
    Text.number?_toDigits (by omega) (by omega), Option.bind_some, if_pos (by omega),
    UInt8.ofNat_toNat]

/-- The four numerals between the dots. -/
def numerals (ip : IPv4) : List (List Char) :=
  [ip.a, ip.b, ip.c, ip.d].map fun octet => Nat.toDigits 10 octet.toNat

theorem split_chars (ip : IPv4) : Text.split '.' ip.chars = ip.numerals := by
  refine Text.split_joinWith (List.cons_ne_nil _ _) ?_
  intro part hpart
  obtain ⟨octet, -, rfl⟩ := List.mem_map.mp hpart
  exact Text.not_mem_toDigits (by omega) (by omega) (Or.inl rfl)

/-- **An IPv4 address is read from its text.** -/
theorem ofChars?_chars (ip : IPv4) : ofChars? ip.chars = some ip := by
  rw [ofChars?, split_chars, numerals]
  simp [octet?_toDigits]

theorem colon_not_mem_chars (ip : IPv4) : ':' ∉ ip.chars := by
  intro hm
  rcases Text.mem_joinWith hm with hdot | ⟨part, hpart, hc⟩
  · exact absurd hdot (by decide)
  · obtain ⟨octet, -, rfl⟩ := List.mem_map.mp hpart
    exact Text.not_mem_toDigits (by omega) (by omega) (Or.inr rfl) hc

/-- An octet is read from digits only. -/
theorem colon_not_mem_of_octet? {part : List Char} {octet : UInt8} (h : octet? part = some octet) :
    ':' ∉ part := by
  intro hm
  rw [octet?] at h
  split at h
  · exact absurd h (by simp)
  · obtain ⟨n, hn, -⟩ := Option.bind_eq_some_iff.mp h
    exact absurd (Text.digit?_isSome_of_number? hn ':' hm) (by decide)

/-- A text with a colon in it is no IPv4 address. -/
theorem ofChars?_of_colon {cs : List Char} (h : ':' ∈ cs) : ofChars? cs = none := by
  rw [ofChars?]
  split
  · rename_i a b c d hoctets
    -- all parts were read as numbers, and no number has a colon
    rw [← Text.joinWith_split '.' cs] at h
    rcases Text.mem_joinWith h with hdot | ⟨part, hpart, hc⟩
    · exact absurd hdot (by decide)
    · obtain ⟨octet, hoctet⟩ := exists_of_mapM_eq_some hoctets part hpart
      exact absurd hc (colon_not_mem_of_octet? hoctet)
  · rfl

/-- A text without a dot is no IPv4 address. -/
theorem ofChars?_of_no_dot {cs : List Char} (h : '.' ∉ cs) : ofChars? cs = none := by
  rw [ofChars?, Text.split_of_not_mem h]
  cases hc : octet? cs <;> simp [hc]

end IPv4

/-! ## IPv6 -/

namespace IPv6

/-- The numeral of a group. -/
def numeral (group : UInt16) : List Char := Nat.toDigits 16 group.toNat

theorem colon_not_mem_numeral (group : UInt16) : ':' ∉ numeral group :=
  Text.not_mem_toDigits (by omega) (by omega) (Or.inr rfl)

theorem group?_numeral (group : UInt16) : group? (numeral group) = some group := by
  have hlt := group.toNat_lt
  have hlength : (numeral group).length ≤ 4 :=
    (Nat.length_toDigits_le_iff (by omega) (by omega)).mpr (by omega)
  rw [group?, if_neg (by omega), numeral, Text.number?_toDigits (by omega) (by omega),
    Option.map_some, UInt16.ofNat_toNat]

theorem mapM_group?_numerals (groups : List UInt16) :
    (groups.map numeral).mapM group? = some groups := by
  have hread := mapM_eq_some_map fun group (_ : group ∈ groups) => group?_numeral group
  rw [List.map_id'] at hread
  rw [List.mapM_map]
  exact hread

/-- Groups are read as groups, the last one as well: it has no dots. -/
theorem groups?_numerals (groups : List UInt16) : groups? (groups.map numeral) = some groups := by
  induction groups with
  | nil => rfl
  | cons group groups ih =>
    cases groups with
    | nil =>
      have hdot : '.' ∉ numeral group := Text.not_mem_toDigits (by omega) (by omega) (Or.inl rfl)
      rw [List.map_cons, List.map_nil, groups?, IPv4.ofChars?_of_no_dot hdot, group?_numeral]
      rfl
    | cons next groups =>
      rw [List.map_cons, groups?, group?_numeral, ih]
      · rfl
      · simp

theorem joined_cons_cons (group next : UInt16) (groups : List UInt16) :
    joined (group :: next :: groups) = numeral group ++ ':' :: joined (next :: groups) := rfl

/-- Groups that were joined begin with a digit. -/
theorem joined_cons (group : UInt16) (groups : List UInt16) :
    ∃ c cs, c ≠ ':' ∧ joined (group :: groups) = c :: cs := by
  have hcolon := colon_not_mem_numeral group
  obtain ⟨c, cs, hnumeral⟩ := List.exists_cons_of_ne_nil (@Nat.toDigits_ne_nil group.toNat 16)
  rw [numeral, hnumeral, List.mem_cons, not_or] at hcolon
  refine ⟨c, ?_⟩
  cases groups with
  | nil => exact ⟨cs, Ne.symm hcolon.1, hnumeral⟩
  | cons next groups =>
    refine ⟨cs ++ ':' :: joined (next :: groups), Ne.symm hcolon.1, ?_⟩
    rw [joined_cons_cons, numeral, hnumeral, List.cons_append]

theorem parts_joined (groups : List UInt16) : parts (joined groups) = groups.map numeral := by
  cases groups with
  | nil => rfl
  | cons group groups =>
    obtain ⟨c, cs, -, hjoined⟩ := joined_cons group groups
    rw [parts, if_neg (by rw [hjoined]; exact List.cons_ne_nil c cs)]
    refine Text.split_joinWith (List.cons_ne_nil _ _) ?_
    intro part hpart
    obtain ⟨group, -, rfl⟩ := List.mem_map.mp hpart
    exact colon_not_mem_numeral group

/-- There is no `::` among groups that were joined. -/
theorem cut?_joined (groups : List UInt16) (cs : List Char) :
    Text.cut? [':', ':'] (joined groups ++ cs)
      = (Text.cut? [':', ':'] cs).map fun (before, after) => (joined groups ++ before, after) := by
  induction groups with
  | nil => simp [joined, Text.joinWith]
  | cons group groups ih =>
    cases groups with
    | nil => exact Text.cut?_append_of_not_mem (colon_not_mem_numeral group) cs
    | cons next groups =>
      obtain ⟨c, rest, hc, hjoined⟩ := joined_cons next groups
      -- the colon between two groups is followed by a digit
      have hfront : ¬ [':', ':'] <+: ':' :: (joined (next :: groups) ++ cs) := by
        rw [hjoined]
        intro hp
        exact hc (List.cons_prefix_cons.mp (List.cons_prefix_cons.mp hp).2).1.symm
      rw [joined_cons_cons, List.append_assoc, List.cons_append,
        Text.cut?_append_of_not_mem (colon_not_mem_numeral group),
        Text.cut?_cons_of_not_prefix hfront, ih, Option.map_map, Option.map_map]
      simp [Function.comp_def]

theorem ofGroups?_toList (ip : IPv6) : ofGroups? ip.groups.toList = some ip := by
  obtain ⟨⟨groups, hlength⟩⟩ := ip
  simp [ofGroups?, hlength]

/-! ### The groups that are left out -/

/-- A run of zeros: where it starts, and how long it is. -/
def IsZeroRun (groups : List UInt16) (run : Nat × Nat) : Prop :=
  groups = groups.take run.1 ++ List.replicate run.2 0 ++ groups.drop (run.1 + run.2)

/-- What begins somewhere with zeros has a run of them there. -/
theorem isZeroRun_at (groups : List UInt16) (start : Nat) :
    IsZeroRun groups (start, ((groups.drop start).takeWhile (· == 0)).length) := by
  have hzeros : (groups.drop start).takeWhile (· == 0)
      = List.replicate ((groups.drop start).takeWhile (· == 0)).length 0 := by
    refine List.eq_replicate_of_mem ?_
    intro group hgroup
    have hzero := List.mem_takeWhile_imp (p := (· == 0)) hgroup
    exact eq_of_beq hzero
  have hsplit := List.takeWhile_append_dropWhile (p := (· == 0)) (l := groups.drop start)
  have hrest : groups.drop (start + ((groups.drop start).takeWhile (· == 0)).length)
      = (groups.drop start).dropWhile (· == 0) := by
    rw [← List.drop_drop]
    nth_rewrite 2 [← hsplit]
    rw [List.drop_left]
  rw [IsZeroRun, hrest, List.append_assoc, ← hzeros, hsplit, List.take_append_drop]

/-- **The run that is left out has zeros only.** -/
theorem isZeroRun_zeroRun (groups : List UInt16) : IsZeroRun groups (zeroRun groups) := by
  have hfold : ∀ (starts : List Nat) (best : Nat × Nat), IsZeroRun groups best →
      IsZeroRun groups (starts.foldl (fun best start =>
        let length := ((groups.drop start).takeWhile (· == 0)).length
        if best.2 < length then (start, length) else best) best) := by
    intro starts
    induction starts with
    | nil => exact fun best hbest => hbest
    | cons start starts ih =>
      intro best hbest
      rw [List.foldl_cons]
      refine ih _ ?_
      dsimp only
      split
      · exact isZeroRun_at groups start
      · exact hbest
  exact hfold (List.range groups.length) (0, 0) (by simp [IsZeroRun])

/-! ### The three forms -/

/-- The group that two octets make up. -/
def ofOctets (high low : UInt8) : UInt16 := high.toUInt16 <<< 8 ||| low.toUInt16

theorem ofOctets_octets (group : UInt16) :
    ofOctets (group >>> 8).toUInt8 group.toUInt8 = group := by
  have hgroup := group.toNat_lt
  have height : (8 : UInt16).toNat % 16 = 8 := rfl
  rw [ofOctets, ← UInt16.toNat_inj, UInt16.toNat_or, UInt16.toNat_shiftLeft, UInt8.toNat_toUInt16,
    UInt16.toNat_toUInt8, UInt16.toNat_shiftRight, UInt8.toNat_toUInt16, UInt16.toNat_toUInt8,
    height, Nat.shiftRight_eq_div_pow, Nat.mod_eq_of_lt (show group.toNat / 2 ^ 8 < 2 ^ 8 by omega),
    Nat.mod_eq_of_lt (by rw [Nat.shiftLeft_eq]; omega),
    ← Nat.shiftLeft_add_eq_or_of_lt (Nat.mod_lt _ (by omega)), Nat.shiftLeft_eq]
  omega

theorem eq_of_mapped? {ip : IPv6} {inner : IPv4} (h : ip.mapped? = some inner) :
    ip.groups.toList
      = [0, 0, 0, 0, 0, 0xFFFF, ofOctets inner.a inner.b, ofOctets inner.c inner.d] := by
  rw [mapped?] at h
  split at h
  · rename_i x y hgroups
    obtain rfl := Option.some.inj h
    rw [hgroups, ofOctets_octets, ofOctets_octets]
  · exact absurd h (by simp)

/-- The form with an IPv4 address behind it. -/
theorem ofChars?_mapped {ip : IPv6} {inner : IPv4} (h : ip.mapped? = some inner) :
    ofChars? ("::ffff:".toList ++ inner.chars) = some ip := by
  have hcut : Text.cut? "::".toList ("::ffff:".toList ++ inner.chars)
      = some ([], 'f' :: 'f' :: 'f' :: 'f' :: ':' :: inner.chars) :=
    Text.cut?_mark (by decide) _
  have hparts : parts ('f' :: 'f' :: 'f' :: 'f' :: ':' :: inner.chars)
      = [['f', 'f', 'f', 'f'], inner.chars] := by
    rw [parts, if_neg (List.cons_ne_nil _ _)]
    have hcolon : ':' ∉ ['f', 'f', 'f', 'f'] := by decide
    have hsplit := Text.split_append hcolon inner.chars
    rw [Text.split_of_not_mem inner.colon_not_mem_chars] at hsplit
    exact hsplit
  have hgroup : group? ['f', 'f', 'f', 'f'] = some 0xFFFF := by decide
  rw [ofChars?, hcut]
  simp only [hparts, groups?, hgroup, IPv4.ofChars?_chars]
  have hip := ofGroups?_toList ip
  rw [eq_of_mapped? h] at hip
  exact hip

/-- The form with a run of zeros left out. -/
theorem ofChars?_shortened {ip : IPv6} {start length : Nat} (h : 0 < length)
    (hrun : IsZeroRun ip.groups.toList (start, length)) :
    ofChars? (joined (ip.groups.toList.take start) ++ "::".toList
      ++ joined (ip.groups.toList.drop (start + length))) = some ip := by
  have hgroups := ofGroups?_toList ip
  have hlength : ip.groups.toList.length = 8 := ip.groups.length_toList
  rw [IsZeroRun] at hrun
  rw [hrun] at hgroups hlength
  generalize ip.groups.toList.take start = front at hgroups hlength
  generalize ip.groups.toList.drop (start + length) = back at hgroups hlength
  simp only [List.length_append, List.length_replicate] at hlength
  have hmissing : 8 - (front.length + back.length) = length := by omega
  have hcut : Text.cut? "::".toList (joined front ++ "::".toList ++ joined back)
      = some (joined front, joined back) := by
    rw [List.append_assoc]
    refine (cut?_joined front _).trans ?_
    rw [show "::".toList = [':', ':'] from rfl, Text.cut?_mark (List.cons_ne_nil _ _)]
    simp
  rw [ofChars?, hcut]
  simp only [parts_joined, mapM_group?_numerals, groups?_numerals, hmissing]
  rw [if_neg (by omega)]
  exact hgroups

/-- The form with all groups. -/
theorem ofChars?_joined (ip : IPv6) : ofChars? (joined ip.groups.toList) = some ip := by
  have hcut : Text.cut? "::".toList (joined ip.groups.toList) = none := by
    have hjoined := cut?_joined ip.groups.toList []
    rw [List.append_nil] at hjoined
    exact hjoined
  rw [ofChars?, hcut]
  simp only [parts_joined, groups?_numerals, Option.bind_some]
  exact ofGroups?_toList ip

/-- **An IPv6 address is read from its text.** -/
theorem ofChars?_chars (ip : IPv6) : ofChars? ip.chars = some ip := by
  rw [chars]
  split
  · rename_i inner hmapped
    exact ofChars?_mapped hmapped
  · dsimp only
    split
    · rename_i hlong
      exact ofChars?_shortened (by omega) (isZeroRun_zeroRun ip.groups.toList)
    · exact ofChars?_joined ip

/-- There is a colon in every form. -/
theorem colon_mem_chars (ip : IPv6) : ':' ∈ ip.chars := by
  rw [chars]
  split
  · exact List.mem_append_left _ (by decide)
  · dsimp only
    split
    · exact List.mem_append_left _ (List.mem_append_right _ (by decide))
    · have hlength : ip.groups.toList.length = 8 := ip.groups.length_toList
      obtain ⟨group, next, groups, hgroups⟩ : ∃ group next groups,
          ip.groups.toList = group :: next :: groups := by
        match ip.groups.toList, hlength with
        | group :: next :: groups, _ => exact ⟨group, next, groups, rfl⟩
      rw [hgroups, joined_cons_cons]
      exact List.mem_append_right _ List.mem_cons_self

end IPv6

/-! ## Both -/

namespace IpAddress

/-- **An address is read from its text**, an IPv6 address never as an IPv4 one. -/
theorem ofText?_text (ip : IpAddress) : ofText? ip.text = some ip := by
  rw [ofText?, text, String.toList_ofList, ofChars?]
  cases ip with
  | v4 ip => rw [chars, IPv4.ofChars?_chars]
  | v6 ip => rw [chars, IPv4.ofChars?_of_colon ip.colon_mem_chars, IPv6.ofChars?_chars]; rfl

end IpAddress

end ChatRoom
