import Mathlib.Data.List.TakeWhile
import ChatRoom.Text.Clamp

/-!
# Text read back

The reader takes any bytes and gives some text. Here it is given bytes that a text wrote, and gives
that text back. The two sides are written independently: the writer divides a code point by powers
of 64, and the reader narrows the range of each next byte, so the argument goes through the four
lengths of an encoding, and shows for each byte that the reader accepts it and keeps its bits.

Where fields are closed by a NUL a second fact is needed: the only character whose bytes have a NUL
among them is the NUL.
-/

namespace ChatRoom.Text

/-! ## One byte -/

/-- How a byte between characters is read, by its number. -/
theorem start_byte {n : Nat} (h : n < 256) :
    start (UInt8.ofNat n) =
      if n < 0x80 then ([Char.ofNat n], none)
      else if n < 0xC2 then ([replacement], none)
      else if n < 0xE0 then ([], some ⟨n % 32, 1, 0x80, 0xBF⟩)
      else if n < 0xF0 then
        ([], some ⟨n % 16, 2, if n = 0xE0 then 0xA0 else 0x80, if n = 0xED then 0x9F else 0xBF⟩)
      else if n < 0xF5 then
        ([], some ⟨n % 8, 3, if n = 0xF0 then 0x90 else 0x80, if n = 0xF4 then 0x8F else 0xBF⟩)
      else ([replacement], none) := by
  have hlt : ∀ m : UInt8, UInt8.ofNat n < m ↔ n < m.toNat := by
    intro m
    rw [UInt8.lt_iff_toNat_lt, toNat_byte h]
  have heq : ∀ m : UInt8, UInt8.ofNat n = m ↔ n = m.toNat := by
    intro m
    rw [← UInt8.toNat_inj, toNat_byte h]
  simp only [start, hlt, heq, toNat_byte h]
  rfl

/-- A byte within its range adds six bits, or ends the character. -/
theorem feed_byte {bits owed : Nat} {low high : UInt8} {n : Nat} (hlow : low.toNat ≤ n)
    (hhigh : n ≤ high.toNat) :
    feed (some ⟨bits, owed, low, high⟩) (UInt8.ofNat n) =
      if owed ≤ 1 then ([Char.ofNat (bits * 64 + n % 64)], none)
      else ([], some ⟨bits * 64 + n % 64, owed - 1, 0x80, 0xBF⟩) := by
  have hn := toNat_byte (n := n) (by have := high.toNat_lt; omega)
  have hrange : low ≤ UInt8.ofNat n ∧ UInt8.ofNat n ≤ high := by
    rw [UInt8.le_iff_toNat_le, UInt8.le_iff_toNat_le, hn]
    exact ⟨hlow, hhigh⟩
  simp only [feed, hrange, and_self, if_true, hn]

theorem chars_cons (state : Option Begun) (b : UInt8) (rest : Bytes) :
    chars state (b :: rest) = (feed state b).1 ++ chars (feed state b).2 rest := by
  cases state <;> rfl

/-! ## One character -/

theorem chars_one {v : Nat} (hv : v ≤ 0x7F) (rest : Bytes) :
    chars none (UInt8.ofNat v :: rest) = Char.ofNat v :: chars none rest := by
  rw [chars_cons, feed, start_byte (by omega), if_pos (by omega)]
  rfl

theorem chars_two {v : Nat} (hlow : 0x7F < v) (hhigh : v ≤ 0x7FF) (rest : Bytes) :
    chars none (UInt8.ofNat (v / 64 % 0x20 + 0xC0) :: UInt8.ofNat (v % 0x40 + 0x80) :: rest)
      = Char.ofNat v :: chars none rest := by
  have hbits : (v / 64 % 0x20 + 0xC0) % 32 * 64 + (v % 0x40 + 0x80) % 64 = v := by omega
  rw [chars_cons, feed, start_byte (by omega), if_neg (by omega), if_neg (by omega),
    if_pos (by omega)]
  show chars (some _) _ = _
  rw [chars_cons, feed_byte (by simp) (by simp; omega), if_pos (by omega), hbits]
  rfl

theorem chars_three {v : Nat} (hlow : 0x7FF < v) (hhigh : v ≤ 0xFFFF)
    (hvalid : v < 0xD800 ∨ 0xDFFF < v) (rest : Bytes) :
    chars none (UInt8.ofNat (v / 4096 % 0x10 + 0xE0) :: UInt8.ofNat (v / 64 % 0x40 + 0x80)
        :: UInt8.ofNat (v % 0x40 + 0x80) :: rest)
      = Char.ofNat v :: chars none rest := by
  have hbits : ((v / 4096 % 0x10 + 0xE0) % 16 * 64 + (v / 64 % 0x40 + 0x80) % 64) * 64
      + (v % 0x40 + 0x80) % 64 = v := by omega
  -- the second byte is where overlong forms and surrogates are excluded
  have hsecond : (if v / 4096 % 0x10 + 0xE0 = 0xE0 then (0xA0 : UInt8) else 0x80).toNat
      ≤ v / 64 % 0x40 + 0x80 := by
    split
    · simp
      omega
    · simp
  have hsecond' : v / 64 % 0x40 + 0x80
      ≤ (if v / 4096 % 0x10 + 0xE0 = 0xED then (0x9F : UInt8) else 0xBF).toNat := by
    split
    · simp
      omega
    · simp
      omega
  rw [chars_cons, feed, start_byte (by omega), if_neg (by omega), if_neg (by omega),
    if_neg (by omega), if_pos (by omega)]
  show chars (some _) _ = _
  rw [chars_cons, feed_byte hsecond hsecond', if_neg (by omega)]
  show chars (some _) _ = _
  rw [chars_cons, feed_byte (by simp) (by simp; omega), if_pos (by omega), hbits]
  rfl

theorem chars_four {v : Nat} (hlow : 0xFFFF < v) (hhigh : v < 0x110000) (rest : Bytes) :
    chars none (UInt8.ofNat (v / 262144 % 0x08 + 0xF0) :: UInt8.ofNat (v / 4096 % 0x40 + 0x80)
        :: UInt8.ofNat (v / 64 % 0x40 + 0x80) :: UInt8.ofNat (v % 0x40 + 0x80) :: rest)
      = Char.ofNat v :: chars none rest := by
  have hbits : (((v / 262144 % 0x08 + 0xF0) % 8 * 64 + (v / 4096 % 0x40 + 0x80) % 64) * 64
      + (v / 64 % 0x40 + 0x80) % 64) * 64 + (v % 0x40 + 0x80) % 64 = v := by omega
  -- here it excludes overlong forms and what is above the last code point
  have hsecond : (if v / 262144 % 0x08 + 0xF0 = 0xF0 then (0x90 : UInt8) else 0x80).toNat
      ≤ v / 4096 % 0x40 + 0x80 := by
    split
    · simp
      omega
    · simp
  have hsecond' : v / 4096 % 0x40 + 0x80
      ≤ (if v / 262144 % 0x08 + 0xF0 = 0xF4 then (0x8F : UInt8) else 0xBF).toNat := by
    split
    · simp
      omega
    · simp
      omega
  rw [chars_cons, feed, start_byte (by omega), if_neg (by omega), if_neg (by omega),
    if_neg (by omega), if_neg (by omega), if_pos (by omega)]
  show chars (some _) _ = _
  rw [chars_cons, feed_byte hsecond hsecond', if_neg (by omega)]
  show chars (some _) _ = _
  rw [chars_cons, feed_byte (by simp) (by simp; omega), if_neg (by omega)]
  show chars (some _) _ = _
  rw [chars_cons, feed_byte (by simp) (by simp; omega), if_pos (by omega), hbits]
  rfl

/-- **The encoding of a character is read as that character**, whatever comes behind it. -/
theorem chars_encoded (c : Char) (rest : Bytes) :
    chars none (String.utf8EncodeChar c ++ rest) = c :: chars none rest := by
  have hc : Char.ofNat c.val.toNat = c := Char.ofNat_toNat c
  have hvalid : c.val.toNat < 0xD800 ∨ 0xDFFF < c.val.toNat ∧ c.val.toNat < 0x110000 := c.valid
  unfold String.utf8EncodeChar
  generalize c.val.toNat = v at hc hvalid
  subst hc
  by_cases h1 : v ≤ 0x7F
  · simp only [h1, if_true]
    exact chars_one h1 rest
  · by_cases h2 : v ≤ 0x7FF
    · simp only [h1, h2, if_true, if_false]
      exact chars_two (by omega) h2 rest
    · by_cases h3 : v ≤ 0xFFFF
      · simp only [h1, h2, h3, if_true, if_false]
        exact chars_three (by omega) h3 (by omega) rest
      · simp only [h1, h2, h3, if_false]
        exact chars_four (by omega) (by omega) rest

/-- **What a text writes is read as that text.** -/
theorem ofBytes_bytes (text : String) : ofBytes (bytes text) = text := by
  have hchars : ∀ cs : List Char, chars none (cs.flatMap String.utf8EncodeChar) = cs := by
    intro cs
    induction cs with
    | nil => rfl
    | cons c rest ih => rw [List.flatMap_cons, chars_encoded, ih]
  rw [ofBytes, bytes, hchars, String.ofList_toList]

/-! ## NULs -/

/-- The text up to its first NUL. -/
def untilNul (text : String) : String := String.ofList (text.toList.takeWhile (· != '\x00'))

/-- The text without its NULs. -/
def withoutNuls (text : String) : String := String.ofList (text.toList.filter (· != '\x00'))

/-- Only the NUL writes a NUL. -/
theorem encoded_ne_zero {c : Char} (hc : c ≠ '\x00') : ∀ b ∈ String.utf8EncodeChar c, b ≠ 0 := by
  have hv : c.val.toNat ≠ 0 := by
    intro h
    refine hc (Char.ext ?_)
    rw [← UInt32.toNat_inj]
    exact h
  -- behind the first length every byte has its top bit set
  have hbyte : ∀ n, 0 < n → n < 256 → UInt8.ofNat n ≠ 0 := by
    intro n hpos hlt he
    have := congrArg UInt8.toNat he
    rw [toNat_byte hlt] at this
    simp at this
    omega
  unfold String.utf8EncodeChar
  generalize c.val.toNat = v at hv
  intro b hb
  by_cases h1 : v ≤ 0x7F
  · simp only [h1, if_true, List.mem_singleton] at hb
    rw [hb]
    exact hbyte v (by omega) (by omega)
  · by_cases h2 : v ≤ 0x7FF
    · simp only [h1, h2, if_true, if_false, List.mem_cons, List.not_mem_nil, or_false] at hb
      rcases hb with rfl | rfl
      · exact hbyte _ (by omega) (by omega)
      · exact hbyte _ (by omega) (by omega)
    · by_cases h3 : v ≤ 0xFFFF
      · simp only [h1, h2, h3, if_true, if_false, List.mem_cons, List.not_mem_nil, or_false] at hb
        rcases hb with rfl | rfl | rfl
        · exact hbyte _ (by omega) (by omega)
        · exact hbyte _ (by omega) (by omega)
        · exact hbyte _ (by omega) (by omega)
      · simp only [h1, h2, h3, if_false, List.mem_cons, List.not_mem_nil, or_false] at hb
        rcases hb with rfl | rfl | rfl | rfl
        · exact hbyte _ (by omega) (by omega)
        · exact hbyte _ (by omega) (by omega)
        · exact hbyte _ (by omega) (by omega)
        · exact hbyte _ (by omega) (by omega)

theorem bytes_untilNul (text : String) :
    (bytes text).takeWhile (· != 0) = bytes (untilNul text) := by
  unfold bytes untilNul
  rw [String.toList_ofList]
  induction text.toList with
  | nil => rfl
  | cons c rest ih =>
      by_cases hc : c = '\x00'
      · subst hc
        rfl
      · have hall : ∀ b ∈ String.utf8EncodeChar c, (b != 0) = true := by
          intro b hb
          simpa using encoded_ne_zero hc b hb
        rw [List.flatMap_cons, List.takeWhile_append_of_pos hall, ih,
          List.takeWhile_cons_of_pos (by simpa using hc), List.flatMap_cons]

theorem bytes_withoutNuls (text : String) :
    (bytes text).filter (· != 0) = bytes (withoutNuls text) := by
  unfold bytes withoutNuls
  rw [String.toList_ofList]
  induction text.toList with
  | nil => rfl
  | cons c rest ih =>
      rw [List.flatMap_cons, List.filter_append, ih]
      by_cases hc : c = '\x00'
      · subst hc
        rfl
      · have hall : ∀ b ∈ String.utf8EncodeChar c, (b != 0) = true := by
          intro b hb
          simpa using encoded_ne_zero hc b hb
        rw [List.filter_eq_self.mpr hall, List.filter_cons_of_pos (by simpa using hc),
          List.flatMap_cons]

theorem untilNul_of_not_mem {text : String} (h : '\x00' ∉ text.toList) : untilNul text = text := by
  have hall : ∀ c ∈ text.toList, (c != '\x00') = true := by
    intro c hc
    have : c ≠ '\x00' := fun he => h (he ▸ hc)
    simpa using this
  rw [untilNul, List.takeWhile_eq_self_iff.mpr hall, String.ofList_toList]

end ChatRoom.Text
