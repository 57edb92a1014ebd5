import ChatRoom.Proofs.TextRoundTrip

/-!
# What is made of any bytes

Every byte string is read as some text. Two things can be said of that text without knowing the
bytes. It takes at most three times as many bytes as they are, for a replacement takes three and
stands for one byte at least. And there is no NUL in it unless there was one among the bytes.

The second needs to know where the reader stands. A character that is no code point would come out
as a NUL, so it must be excluded that one is ever finished. `Begun.Sound` says which characters a
begun one may still become: code points, and none of them ASCII. Each byte in its range narrows that
down.
-/

namespace ChatRoom.Text

theorem toNat_ofNat {n : Nat} (h : n.isValidChar) : (Char.ofNat n).toNat = n := by
  rw [Char.ofNat, dif_pos h]
  rfl

/-! ## What a begun character may become -/

/-- How many code points so many bytes more make room for. -/
def span : Nat → Nat
  | 0 => 1
  | owed + 1 => 64 * span owed

/-- The least code point that a begun character may become. -/
def Begun.least (c : Begun) : Nat := (c.bits * 64 + c.low.toNat % 64) * span (c.owed - 1)

/-- The first code point that is too great for it. -/
def Begun.beyond (c : Begun) : Nat := (c.bits * 64 + c.high.toNat % 64 + 1) * span (c.owed - 1)

@[simp] theorem span_zero : span 0 = 1 := rfl

@[simp] theorem span_one : span 1 = 64 := rfl

@[simp] theorem span_two : span 2 = 4096 := rfl

/-- A begun character that can become nothing but a code point above ASCII. -/
structure Begun.Sound (c : Begun) : Prop where
  owed : c.owed = 1 ∨ c.owed = 2 ∨ c.owed = 3
  low : 0x80 ≤ c.low.toNat
  high : c.high.toNat ≤ 0xBF
  least : 0x80 ≤ c.least
  scalar : c.beyond ≤ 0xD800 ∨ 0xE000 ≤ c.least ∧ c.beyond ≤ 0x110000

/-- A character begun is sound, whatever its first byte was. -/
theorem sound_start {b : UInt8} {c : Begun} (h : (start b).2 = some c) : c.Sound := by
  have hb := b.toNat_lt
  rw [← UInt8.ofNat_toNat (x := b), start_byte hb] at h
  generalize b.toNat = n at h hb
  split at h
  · exact absurd h (by simp)
  split at h
  · exact absurd h (by simp)
  split at h
  · -- two bytes
    obtain rfl := Option.some.inj h
    refine ⟨Or.inl rfl, Nat.le_refl _, Nat.le_refl _, ?_, Or.inl ?_⟩
    · simp [Begun.least]
      omega
    · simp [Begun.beyond]
      omega
  split at h
  · -- three, where `E0` excludes what is shorter and `ED` excludes surrogates
    obtain rfl := Option.some.inj h
    by_cases hfirst : n = 0xE0
    · subst hfirst
      exact ⟨Or.inr (Or.inl rfl), by decide, by decide, by decide, by decide⟩
    · by_cases hlast : n = 0xED
      · subst hlast
        exact ⟨Or.inr (Or.inl rfl), by decide, by decide, by decide, by decide⟩
      · rw [if_neg hfirst, if_neg hlast]
        refine ⟨Or.inr (Or.inl rfl), Nat.le_refl _, Nat.le_refl _, ?_, ?_⟩
        · simp [Begun.least]
          omega
        · simp [Begun.least, Begun.beyond]
          omega
  split at h
  · -- four, where `F0` excludes what is shorter and `F4` what is no code point
    obtain rfl := Option.some.inj h
    by_cases hfirst : n = 0xF0
    · subst hfirst
      exact ⟨Or.inr (Or.inr rfl), by decide, by decide, by decide, by decide⟩
    · by_cases hlast : n = 0xF4
      · subst hlast
        exact ⟨Or.inr (Or.inr rfl), by decide, by decide, by decide, by decide⟩
      · rw [if_neg hfirst, if_neg hlast]
        refine ⟨Or.inr (Or.inr rfl), Nat.le_refl _, Nat.le_refl _, ?_, Or.inr ⟨?_, ?_⟩⟩
        · simp [Begun.least]
          omega
        · simp [Begun.least]
          omega
        · simp [Begun.beyond]
          omega
  · exact absurd h (by simp)

/-- A byte in its range leaves nothing possible that was not possible before. -/
theorem narrowed (bits owed : Nat) {low high b : UInt8} (hlow : low.toNat % 64 ≤ b.toNat % 64)
    (hhigh : b.toNat % 64 ≤ high.toNat % 64) :
    Begun.least ⟨bits, owed + 2, low, high⟩
        ≤ Begun.least ⟨bits * 64 + b.toNat % 64, owed + 1, 0x80, 0xBF⟩
      ∧ Begun.beyond ⟨bits * 64 + b.toNat % 64, owed + 1, 0x80, 0xBF⟩
        ≤ Begun.beyond ⟨bits, owed + 2, low, high⟩ := by
  have hbottom : (0x80 : UInt8).toNat % 64 = 0 := rfl
  have htop : (0xBF : UInt8).toNat % 64 = 63 := rfl
  constructor
  · simp only [Begun.least, Nat.add_one_sub_one, span, hbottom, ← Nat.mul_assoc]
    exact Nat.mul_le_mul_right _ (by omega)
  · simp only [Begun.beyond, Nat.add_one_sub_one, span, htop, ← Nat.mul_assoc]
    exact Nat.mul_le_mul_right _ (by omega)

/-- **A byte in its range finishes a sound character as a code point above ASCII, or leaves it
sound.** -/
theorem Begun.Sound.next {c : Begun} (h : c.Sound) {b : UInt8} (hlow : c.low ≤ b)
    (hhigh : b ≤ c.high) :
    (c.owed = 1 → 0x80 ≤ c.bits * 64 + b.toNat % 64
        ∧ (c.bits * 64 + b.toNat % 64).isValidChar)
      ∧ (c.owed ≠ 1 → Begun.Sound ⟨c.bits * 64 + b.toNat % 64, c.owed - 1, 0x80, 0xBF⟩) := by
  obtain ⟨bits, owed, low, high⟩ := c
  obtain ⟨howed, hlow', hhigh', hleast, hscalar⟩ := h
  rw [UInt8.le_iff_toNat_le] at hlow hhigh
  dsimp only at howed hlow' hhigh' hlow hhigh ⊢
  have hl : low.toNat % 64 ≤ b.toNat % 64 := by omega
  have hh : b.toNat % 64 ≤ high.toNat % 64 := by omega
  -- with two bytes owed or more, what is left is sound because it is less than there was
  have hmore : ∀ more, owed = more + 2 → more + 1 = 1 ∨ more + 1 = 2 →
      Begun.Sound ⟨bits * 64 + b.toNat % 64, owed - 1, 0x80, 0xBF⟩ := by
    intro more he hmore
    subst he
    obtain ⟨hfrom, hto⟩ := narrowed bits more hl hh
    refine ⟨?_, Nat.le_refl _, Nat.le_refl _, Nat.le_trans hleast hfrom, ?_⟩
    · show more + 1 = 1 ∨ more + 1 = 2 ∨ more + 1 = 3
      omega
    · show Begun.beyond ⟨_, more + 1, _, _⟩ ≤ _
        ∨ _ ≤ Begun.least ⟨_, more + 1, _, _⟩ ∧ Begun.beyond ⟨_, more + 1, _, _⟩ ≤ _
      omega
  rcases howed with rfl | rfl | rfl
  · simp only [Begun.least, Begun.beyond, Nat.sub_self, span_zero, Nat.mul_one] at hleast hscalar
    refine ⟨fun _ => ⟨by omega, ?_⟩, fun hne => absurd rfl hne⟩
    show _ < 0xD800 ∨ 0xDFFF < _ ∧ _ < 0x110000
    omega
  · exact ⟨fun he => absurd he (by decide), fun _ => hmore 0 rfl (Or.inl rfl)⟩
  · exact ⟨fun he => absurd he (by decide), fun _ => hmore 1 rfl (Or.inr rfl)⟩

/-! ## No NUL from nowhere -/

theorem start_nul {b : UInt8} (h : '\x00' ∈ (start b).1) : b = 0 := by
  have hreplacement : '\x00' ∉ [replacement] := by decide
  unfold start at h
  split at h
  · rename_i hascii
    have hn : b.toNat < 0x80 := UInt8.lt_iff_toNat_lt.mp hascii
    have hval : (Char.ofNat b.toNat).toNat = b.toNat := toNat_ofNat (Or.inl (by omega))
    rw [← List.mem_singleton.mp h] at hval
    exact UInt8.toNat_inj.mp hval.symm
  split at h
  · exact absurd h hreplacement
  split at h
  · exact absurd h (by simp)
  split at h
  · exact absurd h (by simp)
  split at h
  · exact absurd h (by simp)
  · exact absurd h hreplacement

/-- What a byte leaves begun is sound, and only a NUL settles a NUL. -/
theorem feed_sound {state : Option Begun} (h : ∀ c, state = some c → c.Sound) (b : UInt8) :
    (∀ c, (feed state b).2 = some c → c.Sound) ∧ ('\x00' ∈ (feed state b).1 → b = 0) := by
  cases state with
  | none => exact ⟨fun c => sound_start, start_nul⟩
  | some c =>
      have hc := h c rfl
      rw [feed]
      by_cases hrange : c.low ≤ b ∧ b ≤ c.high
      · obtain ⟨hfinished, hbegun⟩ := hc.next hrange.1 hrange.2
        have howed := hc.owed
        rw [if_pos hrange]
        dsimp only
        by_cases hlast : c.owed ≤ 1
        · rw [if_pos hlast]
          refine ⟨fun c' he => absurd he (by simp), ?_⟩
          intro hm
          obtain ⟨habove, hvalid⟩ := hfinished (by omega)
          have hval := toNat_ofNat hvalid
          rw [← List.mem_singleton.mp hm] at hval
          have hzero : ('\x00' : Char).toNat = 0 := rfl
          omega
        · rw [if_neg hlast]
          refine ⟨?_, fun hm => absurd hm (by simp)⟩
          intro c' he
          rw [← Option.some.inj he]
          exact hbegun (by omega)
      · rw [if_neg hrange]
        refine ⟨fun c' => sound_start, ?_⟩
        intro hm
        rcases List.mem_cons.mp hm with hreplaced | hm
        · exact absurd hreplaced (by decide)
        · exact start_nul hm

theorem not_mem_chars {bs : Bytes} (hbs : 0 ∉ bs) {state : Option Begun}
    (h : ∀ c, state = some c → c.Sound) : '\x00' ∉ chars state bs := by
  induction bs generalizing state with
  | nil =>
      cases state with
      | none => simp [chars]
      | some c =>
          show '\x00' ∉ [replacement]
          decide
  | cons b rest ih =>
      obtain ⟨hsound, hnul⟩ := feed_sound h b
      rw [List.mem_cons, not_or] at hbs
      intro hm
      rw [chars_cons] at hm
      rcases List.mem_append.mp hm with hfirst | hrest
      · exact hbs.1 (hnul hfirst).symm
      · exact ih hbs.2 hsound hrest

/-- **Bytes without a NUL are read as a text without one.** -/
theorem nul_not_mem_ofBytes {bs : Bytes} (h : 0 ∉ bs) : '\x00' ∉ (ofBytes bs).toList := by
  rw [ofBytes, String.toList_ofList]
  exact not_mem_chars h (fun c he => absurd he (by simp))

/-! ## How long a text may get -/

/-- How many bytes of text are still to be expected of what has been begun. -/
def credit : Option Begun → Nat
  | none => 0
  | some _ => 3

theorem utf8Size_replacement : replacement.utf8Size = 3 := by decide

theorem size_start_le (b : UInt8) : size (start b).1 + credit (start b).2 ≤ 3 := by
  have hreplaced : size [replacement] = 3 := by rw [size, size, utf8Size_replacement]
  unfold start
  split
  · rename_i hascii
    have hn : b.toNat < 0x80 := UInt8.lt_iff_toNat_lt.mp hascii
    have hval : (Char.ofNat b.toNat).val.toNat = b.toNat := toNat_ofNat (Or.inl (by omega))
    have hone : (Char.ofNat b.toNat).utf8Size = 1 := by
      have hle : (Char.ofNat b.toNat).val.toNat ≤ 0x7F := by omega
      rw [Char.utf8Size, if_pos (UInt32.le_iff_toNat_le.mpr hle)]
    simp only [size, credit, hone]
    omega
  split
  · exact Nat.le_of_eq hreplaced
  split
  · exact Nat.le_refl _
  split
  · exact Nat.le_refl _
  split
  · exact Nat.le_refl _
  · exact Nat.le_of_eq hreplaced

/-- A byte settles three bytes of text, and those that were expected. -/
theorem size_feed_le (state : Option Begun) (b : UInt8) :
    size (feed state b).1 + credit (feed state b).2 ≤ 3 + credit state := by
  have hstart := size_start_le b
  cases state with
  | none => exact hstart
  | some c =>
      rw [feed]
      split
      · dsimp only
        split
        · have hchar := Char.utf8Size_le_four (Char.ofNat (c.bits * 64 + b.toNat % 64))
          simp only [size, credit]
          omega
        · simp only [size, credit]
          omega
      · have hcredit : credit (some c) = 3 := rfl
        simp only [size, utf8Size_replacement, hcredit]
        omega

theorem size_chars_le (state : Option Begun) (bs : Bytes) :
    size (chars state bs) ≤ 3 * bs.length + credit state := by
  induction bs generalizing state with
  | nil =>
      cases state with
      | none => exact Nat.zero_le _
      | some c =>
          show size [replacement] ≤ _
          rw [size, size, utf8Size_replacement]
          exact Nat.le_refl _
  | cons b rest ih =>
      have hfeed := size_feed_le state b
      have hrest := ih (feed state b).2
      rw [chars_cons, size_append, List.length_cons]
      omega

/-- **A text takes at most three times as many bytes as it was read from.** -/
theorem length_bytes_ofBytes_le (bs : Bytes) : (bytes (ofBytes bs)).length ≤ 3 * bs.length := by
  rw [length_bytes, ofBytes, String.toList_ofList]
  exact size_chars_le none bs

end ChatRoom.Text
