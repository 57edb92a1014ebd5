import Mathlib.Tactic.IntervalCases
import ChatRoom.Text.Numeral

/-!
# Numerals and lists read back

`Nat.toDigits` writes a number and `Text.number?` reads it, in any base up to sixteen. The writer
puts the last digit behind the others, and so does the reader take it, which is what the induction
is on. Besides, no digit is a character that separates numerals, and only zero is written with a
zero in front.

A list is read if each of its entries is.
-/

namespace ChatRoom

/-! ## Lists of which each entry is read -/

section

variable {α β : Type} {read : α → Option β} {entries : List α}

/-- If each entry is read, so is the list. -/
theorem mapM_eq_some_map {value : α → β} (h : ∀ entry ∈ entries, read entry = some (value entry)) :
    entries.mapM read = some (entries.map value) := by
  induction entries with
  | nil => rfl
  | cons entry entries ih =>
    have hrest := ih fun e he => h e (List.mem_cons_of_mem entry he)
    rw [List.mapM_cons, h entry List.mem_cons_self, hrest]
    rfl

/-- If each entry is read, the list is read with nothing left out. -/
theorem mapM_eq_some_filterMap (h : ∀ entry ∈ entries, (read entry).isSome) :
    entries.mapM read = some (entries.filterMap read) := by
  induction entries with
  | nil => rfl
  | cons entry entries ih =>
    obtain ⟨value, hvalue⟩ := Option.isSome_iff_exists.mp (h entry List.mem_cons_self)
    have hrest := ih fun e he => h e (List.mem_cons_of_mem entry he)
    rw [List.mapM_cons, hvalue, hrest, List.filterMap_cons_some hvalue]
    rfl

/-- If the list is read, so is each entry. -/
theorem exists_of_mapM_eq_some {values : List β} (h : entries.mapM read = some values) :
    ∀ entry ∈ entries, ∃ value, read entry = some value := by
  induction entries generalizing values with
  | nil => simp
  | cons entry entries ih =>
    rw [List.mapM_cons] at h
    obtain ⟨value, hvalue, h⟩ := Option.bind_eq_some_iff.mp h
    obtain ⟨rest, hrest, -⟩ := Option.bind_eq_some_iff.mp h
    intro e he
    rcases List.mem_cons.mp he with rfl | he
    · exact ⟨value, hvalue⟩
    · exact ih hrest e he

/-- Entries that are made from others and read as they are make a list that is read as the other. -/
theorem mapM_map_eq {γ δ : Type} {read' : γ → Option δ} {make : α → γ} {turn : β → δ}
    (h : ∀ entry, read' (make entry) = (read entry).map turn) :
    (entries.map make).mapM read' = (entries.mapM read).map (List.map turn) := by
  induction entries with
  | nil => rfl
  | cons entry entries ih =>
    rw [List.map_cons, List.mapM_cons, List.mapM_cons, h, ih]
    cases read entry with
    | none => rfl
    | some value => cases entries.mapM read <;> rfl

end

namespace Text

/-! ## Digits -/

theorem digit?_digitChar {base n : Nat} (hn : n < base) (hbase : base ≤ 16) :
    digit? base n.digitChar = some n := by
  have hvalue : n < 16 := by omega
  interval_cases n <;> simp [digit?, Nat.digitChar, hn]

theorem digitChar_ne_zero {n : Nat} (hn : n < 16) (hpos : 0 < n) : n.digitChar ≠ '0' := by
  interval_cases n <;> decide

/-- What a digit in any base is. -/
def IsDigit (c : Char) : Prop := ∃ n < 16, c = n.digitChar

theorem isDigit_of_mem_toDigits {base n : Nat} {c : Char} (hbase : 1 < base) (hmost : base ≤ 16)
    (h : c ∈ Nat.toDigits base n) : IsDigit c := by
  induction n using Nat.strongRecOn with
  | ind n ih =>
    rcases Nat.lt_or_ge n base with hlt | hge
    · rw [Nat.toDigits_of_lt_base hlt, List.mem_singleton] at h
      exact ⟨n, by omega, h⟩
    · rw [Nat.toDigits_of_base_le hbase hge, List.mem_append, List.mem_singleton] at h
      rcases h with h | h
      · exact ih (n / base) (Nat.div_lt_self (by omega) hbase) h
      · exact ⟨n % base, (Nat.mod_lt n (by omega)).trans_le hmost, h⟩

/-! ## Numbers -/

/-- The digit that is read last counts once, and what was read before it as often as the base
says. -/
theorem number?_snoc {base : Nat} {cs : List Char} (h : cs ≠ []) (c : Char) :
    number? base (cs ++ [c])
      = (number? base cs).bind fun value => (digit? base c).map (value * base + ·) := by
  cases cs with
  | nil => exact absurd rfl h
  | cons d cs =>
    simp only [List.cons_append, number?]
    rw [← List.cons_append, List.foldlM_append]
    simp [List.foldlM]

/-- **A number is read from its digits.** -/
theorem number?_toDigits {base : Nat} (hbase : 1 < base) (hmost : base ≤ 16) (n : Nat) :
    number? base (Nat.toDigits base n) = some n := by
  induction n using Nat.strongRecOn with
  | ind n ih =>
    rcases Nat.lt_or_ge n base with hlt | hge
    · rw [Nat.toDigits_of_lt_base hlt]
      simp [number?, digit?_digitChar hlt hmost]
    · have hmod := Nat.mod_lt n (show 0 < base by omega)
      rw [Nat.toDigits_of_base_le hbase hge, number?_snoc Nat.toDigits_ne_nil,
        ih (n / base) (Nat.div_lt_self (by omega) hbase), Option.bind_some,
        digit?_digitChar hmod hmost, Option.map_some, Nat.mul_comm, Nat.div_add_mod]

/-- A zero in front of a number is not seen. -/
theorem number?_zero_cons {base : Nat} (hbase : 1 < base) {cs : List Char} (h : cs ≠ []) :
    number? base ('0' :: cs) = number? base cs := by
  cases cs with
  | nil => exact absurd rfl h
  | cons c cs => simp [number?, digit?, show 0 < base by omega]

/-- Only what consists of digits is a number. -/
theorem digit?_isSome_of_number? {base n : Nat} {cs : List Char} (h : number? base cs = some n) :
    ∀ c ∈ cs, (digit? base c).isSome := by
  have hfold : ∀ (cs : List Char) (value n : Nat),
      cs.foldlM (fun value c => (digit? base c).map (value * base + ·)) value = some n →
      ∀ c ∈ cs, (digit? base c).isSome := by
    intro cs
    induction cs with
    | nil => simp
    | cons d cs ih =>
      intro value n hfold c hc
      rw [List.foldlM_cons] at hfold
      obtain ⟨next, hnext, hrest⟩ := Option.bind_eq_some_iff.mp hfold
      rcases List.mem_cons.mp hc with rfl | hc
      · obtain ⟨digit, hdigit, -⟩ := Option.map_eq_some_iff.mp hnext
        rw [hdigit]
        rfl
      · exact ih next n hrest c hc
  cases cs with
  | nil => simp
  | cons d cs => exact hfold (d :: cs) 0 n h

/-! ## The first digit -/

/-- Only zero is written with a zero in front. -/
theorem head?_toDigits {base n : Nat} (hbase : 1 < base) (hmost : base ≤ 16) (hn : 0 < n) :
    (Nat.toDigits base n).head? ≠ some '0' := by
  induction n using Nat.strongRecOn with
  | ind n ih =>
    rcases Nat.lt_or_ge n base with hlt | hge
    · rw [Nat.toDigits_of_lt_base hlt, List.head?_cons, Ne, Option.some_inj]
      exact digitChar_ne_zero (by omega) hn
    · have hfront := ih (n / base) (Nat.div_lt_self (by omega) hbase) (Nat.div_pos hge (by omega))
      obtain ⟨c, cs, hcs⟩ := List.exists_cons_of_ne_nil (@Nat.toDigits_ne_nil (n / base) base)
      rw [hcs] at hfront
      rw [Nat.toDigits_of_base_le hbase hge, hcs]
      exact hfront

end Text

end ChatRoom
