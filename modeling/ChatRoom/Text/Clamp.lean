import ChatRoom.Text.Utf8

/-!
# Text within a byte limit

Names and messages have limits in bytes, but a cut must never split a character. `clamp max text`
looks at the bytes: from the limit it goes back to the next boundary between two characters, and
keeps what stands in front of it.

What is kept can be said without the bytes as well: `takeBytes` goes over whole characters from the
front for as long as they fit. Both are the same thing (`toList_clamp`), since a character either
ends within the limit, or it is the one that the limit falls into (`exists_split`). Then all bytes
between its first one and the limit continue it, and they are three at most.
-/

namespace ChatRoom.Text

/-- Whether a byte begins a character. The others of an encoding have `10` for their top bits. -/
def begins (b : UInt8) : Bool := b < 0x80 || 0xC0 ≤ b

/-- Whether an index of an encoding lies between two characters, or at one of the ends. -/
def isBoundary (bs : Bytes) (i : Nat) : Bool :=
  i == 0 || i == bs.length || bs[i]?.any begins

/-- Goes back from an index, byte by byte, until there is a boundary. -/
def retreat (bs : Bytes) : Nat → Nat
  | 0 => 0
  | i + 1 => if isBoundary bs (i + 1) then i + 1 else retreat bs i

/-- Whole characters from the front, as many as fit in `max` bytes. -/
def takeBytes : Nat → List Char → List Char
  | _, [] => []
  | max, c :: rest =>
    if c.utf8Size ≤ max then c :: takeBytes (max - c.utf8Size) rest else []

/-- The longest run of whole characters at the front of `text` that fits in `max` bytes. -/
def clamp (max : Nat) (text : String) : String :=
  if (bytes text).length ≤ max then text
  else String.ofList (takeBytes (retreat (bytes text) max) text.toList)

/-- How many bytes a list of characters takes. -/
def size : List Char → Nat
  | [] => 0
  | c :: rest => c.utf8Size + size rest

theorem length_encoded (cs : List Char) : (cs.flatMap String.utf8EncodeChar).length = size cs := by
  induction cs with
  | nil => rfl
  | cons c rest ih =>
    simp only [List.flatMap_cons, List.length_append, String.length_utf8EncodeChar, size, ih]

theorem length_bytes (text : String) : (bytes text).length = size text.toList :=
  length_encoded text.toList

theorem size_append (cs ds : List Char) : size (cs ++ ds) = size cs + size ds := by
  induction cs with
  | nil => simp [size]
  | cons c rest ih =>
    simp only [List.cons_append, size, ih]
    omega

/-! ## Characters that fit -/

theorem size_takeBytes_le (max : Nat) (cs : List Char) : size (takeBytes max cs) ≤ max := by
  induction cs generalizing max with
  | nil => simp [takeBytes, size]
  | cons c rest ih =>
    simp only [takeBytes]
    split
    · have := ih (max - c.utf8Size)
      simp only [size]
      omega
    · simp [size]

theorem takeBytes_isPrefix (max : Nat) (cs : List Char) : takeBytes max cs <+: cs := by
  induction cs generalizing max with
  | nil => simp [takeBytes]
  | cons c rest ih =>
    simp only [takeBytes]
    split
    · simpa using ih (max - c.utf8Size)
    · exact List.nil_prefix

/-- No longer run at the front fits. -/
theorem isPrefix_takeBytes {max : Nat} {cs other : List Char} (hfront : other <+: cs)
    (hfits : size other ≤ max) : other <+: takeBytes max cs := by
  induction cs generalizing max other with
  | nil => exact hfront
  | cons c rest ih =>
    cases other with
    | nil => exact List.nil_prefix
    | cons d other =>
      obtain ⟨rfl, hrest⟩ := List.cons_prefix_cons.mp hfront
      simp only [size] at hfits
      have hd : d.utf8Size ≤ max := by omega
      simp only [takeBytes, hd, if_true]
      exact List.cons_prefix_cons.mpr ⟨rfl, ih hrest (by omega)⟩

/-- Text that fits is left alone. -/
theorem takeBytes_of_size_le {max : Nat} {cs : List Char} (h : size cs ≤ max) :
    takeBytes max cs = cs := by
  induction cs generalizing max with
  | nil => rfl
  | cons c rest ih =>
    simp only [size] at h
    have hc : c.utf8Size ≤ max := by omega
    simp only [takeBytes, hc, if_true]
    rw [ih (by omega)]

/-- A front is what its own bytes hold. -/
theorem takeBytes_size (front rest : List Char) :
    takeBytes (size front) (front ++ rest) = front := by
  induction front with
  | nil =>
    cases rest with
    | nil => rfl
    | cons c rest =>
      have hc := c.utf8Size_pos
      rw [List.nil_append, size, takeBytes, if_neg (by omega)]
  | cons c front ih =>
    rw [List.cons_append, size, takeBytes, if_pos (Nat.le_add_right _ _), Nat.add_sub_cancel_left,
      ih]

/-- Where a text does not fit, the limit falls into one of its characters, or right before it. -/
theorem exists_split {max : Nat} {cs : List Char} (h : max < size cs) :
    ∃ front c rest, cs = front ++ c :: rest ∧ size front ≤ max ∧ max < size front + c.utf8Size
      ∧ takeBytes max cs = front := by
  induction cs generalizing max with
  | nil => simp [size] at h
  | cons c rest ih =>
    by_cases hc : c.utf8Size ≤ max
    · simp only [size] at h
      obtain ⟨front, d, rest, rfl, hle, hlt, htake⟩ := @ih (max - c.utf8Size) (by omega)
      refine ⟨c :: front, d, rest, rfl, ?_, ?_, ?_⟩
      · simp only [size]
        omega
      · simp only [size]
        omega
      · simp only [takeBytes, hc, if_true, htake]
    · refine ⟨[], c, rest, rfl, Nat.zero_le max, ?_, ?_⟩
      · simp only [size]
        omega
      · simp only [takeBytes, hc, if_false]

/-! ## Boundaries -/

/-- A number that fits in a byte. -/
theorem toNat_byte {n : Nat} (h : n < 256) : (UInt8.ofNat n).toNat = n := by
  rw [UInt8.toNat_ofNat']
  exact Nat.mod_eq_of_lt h

theorem begins_byte {n : Nat} (h : n < 256) : begins (UInt8.ofNat n) = (n < 0x80 || 0xC0 ≤ n) := by
  simp only [begins, UInt8.lt_iff_toNat_lt, UInt8.le_iff_toNat_le, toNat_byte h]
  rfl

/-- **Of the bytes of a character the first begins one**, and no other does. -/
theorem begins_encoded (c : Char) :
    ∃ b rest, String.utf8EncodeChar c = b :: rest ∧ begins b = true
      ∧ ∀ d ∈ rest, begins d = false := by
  have hvalid : c.val.toNat < 0xD800 ∨ 0xDFFF < c.val.toNat ∧ c.val.toNat < 0x110000 := c.valid
  unfold String.utf8EncodeChar
  generalize c.val.toNat = v at hvalid
  have hfirst : ∀ n, n < 256 → n < 0x80 ∨ 0xC0 ≤ n → begins (UInt8.ofNat n) = true := by
    intro n hn hrange
    rw [begins_byte hn]
    simpa using hrange
  have hrest : ∀ n, begins (UInt8.ofNat (n % 0x40 + 0x80)) = false := by
    intro n
    rw [begins_byte (by omega), Bool.or_eq_false_iff, decide_eq_false_iff_not,
      decide_eq_false_iff_not]
    omega
  by_cases h1 : v ≤ 0x7F
  · simp only [h1, if_true]
    exact ⟨_, _, rfl, hfirst _ (by omega) (by omega), List.forall_mem_nil _⟩
  · by_cases h2 : v ≤ 0x7FF
    · simp only [h1, h2, if_true, if_false]
      exact ⟨_, _, rfl, hfirst _ (by omega) (by omega),
        List.forall_mem_singleton.mpr (hrest _)⟩
    · by_cases h3 : v ≤ 0xFFFF
      · simp only [h1, h2, h3, if_true, if_false]
        exact ⟨_, _, rfl, hfirst _ (by omega) (by omega),
          List.forall_mem_cons.mpr ⟨hrest _, List.forall_mem_singleton.mpr (hrest _)⟩⟩
      · simp only [h1, h2, h3, if_false]
        exact ⟨_, _, rfl, hfirst _ (by omega) (by omega),
          List.forall_mem_cons.mpr
            ⟨hrest _, List.forall_mem_cons.mpr ⟨hrest _, List.forall_mem_singleton.mpr (hrest _)⟩⟩⟩

/-- The bytes of the character that stands behind a front. -/
theorem getElem?_encoded (front : List Char) (c : Char) (rest : List Char) {j : Nat}
    (h : j < c.utf8Size) :
    ((front ++ c :: rest).flatMap String.utf8EncodeChar)[size front + j]?
      = (String.utf8EncodeChar c)[j]? := by
  rw [List.flatMap_append, List.flatMap_cons,
    List.getElem?_append_right (by rw [length_encoded]; omega), length_encoded,
    Nat.add_sub_cancel_left, List.getElem?_append_left (by rwa [String.length_utf8EncodeChar])]

/-- There is a boundary in front of a character, and none inside it. -/
theorem isBoundary_encoded (front : List Char) (c : Char) (rest : List Char) {j : Nat}
    (h : j < c.utf8Size) :
    isBoundary ((front ++ c :: rest).flatMap String.utf8EncodeChar) (size front + j)
      = decide (j = 0) := by
  obtain ⟨b, tail, hencoded, hfirst, hrest⟩ := begins_encoded c
  have hlength := String.length_utf8EncodeChar c
  rw [hencoded, List.length_cons] at hlength
  have hinside : size front + j ≠ size (front ++ c :: rest) := by
    simp only [size_append, size]
    omega
  rw [isBoundary, getElem?_encoded front c rest h, hencoded, length_encoded,
    beq_false_of_ne hinside, Bool.or_false]
  cases j with
  | zero => simp [hfirst]
  | succ j =>
    have htail : j < tail.length := by omega
    rw [List.getElem?_cons_succ, List.getElem?_eq_getElem htail, Option.any_some,
      hrest _ (List.getElem_mem htail)]
    simp

/-- Going back ends at the first boundary that is met. -/
theorem retreat_eq {bs : Bytes} {stop i : Nat} (hle : stop ≤ i)
    (hstop : isBoundary bs stop = true) (hpass : ∀ k, stop < k → k ≤ i → isBoundary bs k = false) :
    retreat bs i = stop := by
  induction i with
  | zero => exact (Nat.le_zero.mp hle).symm
  | succ i ih =>
    rcases Nat.lt_or_eq_of_le hle with hlt | rfl
    · rw [retreat, hpass (i + 1) hlt (Nat.le_refl _)]
      exact ih (Nat.le_of_lt_succ hlt) fun k hk hki => hpass k hk (Nat.le_succ_of_le hki)
    · rw [retreat, hstop, if_pos rfl]

/-- Going back from inside a character ends in front of it. -/
theorem retreat_encoded {front : List Char} {c : Char} {rest : List Char} {max : Nat}
    (hle : size front ≤ max) (hlt : max < size front + c.utf8Size) :
    retreat ((front ++ c :: rest).flatMap String.utf8EncodeChar) max = size front := by
  refine retreat_eq hle ?_ ?_
  · exact isBoundary_encoded front c rest c.utf8Size_pos
  · intro k hk hkmax
    obtain ⟨j, rfl⟩ := Nat.exists_eq_add_of_lt hk
    rw [Nat.add_assoc, isBoundary_encoded front c rest (by omega), decide_eq_false (by omega)]

/-! ## The cut -/

/-- **What is kept are the characters that fit.** -/
@[simp] theorem toList_clamp (max : Nat) (text : String) :
    (clamp max text).toList = takeBytes max text.toList := by
  rw [clamp, length_bytes]
  split
  · rename_i hfits
    rw [takeBytes_of_size_le hfits]
  · rename_i hlong
    obtain ⟨front, c, rest, hsplit, hle, hlt, htake⟩ := exists_split (Nat.lt_of_not_le hlong)
    rw [String.toList_ofList, htake, bytes, hsplit, retreat_encoded hle hlt, takeBytes_size]

theorem length_bytes_clamp_le (max : Nat) (text : String) :
    (bytes (clamp max text)).length ≤ max := by
  rw [length_bytes, toList_clamp]
  exact size_takeBytes_le max _

theorem clamp_of_length_le {max : Nat} {text : String} (h : (bytes text).length ≤ max) :
    clamp max text = text := by
  rw [clamp, if_pos h]

end ChatRoom.Text
