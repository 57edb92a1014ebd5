import ChatRoom.Proofs.StreamRoundTrip

/-!
# Cuts

A text is cut by going back from its limit to a boundary between two characters. The way back is
short (`Text.Retreat`): a limit that is on no boundary lies inside a character, behind one byte of
it at least and three at most, and the character begins at a boundary. So the way back ends before
it could leave the text.

What is in front of that boundary is the longest run of characters within the limit, and so a text
that is cut twice is the text that is cut at the smaller limit. Records rely on it: names and
messages are cut where a record is made, and everything is cut again where it is written.
-/

namespace ChatRoom

namespace Text

/-- The way back from a limit to a boundary, `steps` bytes long: no index on it is a boundary, and
each step is from an index that has another one in front. -/
structure Retreat (bs : Bytes) (max steps : Nat) : Prop where
  few : steps ≤ 3
  within : steps ≤ max
  inside : ∀ k < steps, isBoundary bs (max - k) = false
  stops : isBoundary bs (max - steps) = true
  result : retreat bs max = max - steps

/-- **From a limit inside a text it is three steps at most to a boundary**, and the bytes in front
of that boundary are what is kept. -/
theorem retreat_within {text : String} {max : Nat} (h : max < (bytes text).length) :
    ∃ steps, Retreat (bytes text) max steps
      ∧ bytes (clamp max text) = (bytes text).take (max - steps) := by
  rw [length_bytes] at h
  obtain ⟨front, c, rest, hsplit, hle, hlt, htake⟩ := exists_split h
  have hback : max - (max - size front) = size front := by omega
  have hsize := c.utf8Size_le_four
  refine ⟨max - size front, ?_, ?_⟩
  · rw [bytes, hsplit]
    refine ⟨by omega, by omega, ?_, ?_, ?_⟩
    · intro k hk
      -- the index is as many bytes behind the front as there are steps to come
      have hindex : max - k = size front + (max - size front - k) := by omega
      rw [hindex, isBoundary_encoded front c rest (by omega), decide_eq_false (by omega)]
    · rw [hback]
      exact isBoundary_encoded front c rest c.utf8Size_pos
    · rw [hback]
      exact retreat_encoded hle hlt
  · have hkept : (clamp max text).toList = front := by rw [toList_clamp, htake]
    rw [hback, bytes, hkept, bytes, hsplit, List.flatMap_append, ← length_encoded, List.take_left]

/-- **What is cut twice is cut at the smaller limit.** -/
theorem clamp_clamp (a b : Nat) (text : String) :
    clamp b (clamp a text) = clamp (min a b) text := by
  have hfirst := isCut_clamp a text
  have hsecond := isCut_clamp b (clamp a text)
  have honce := isCut_clamp (min a b) text
  -- each of the two is a run at the front of the text that is within the limit of the other
  have hle : (clamp b (clamp a text)).toList <+: (clamp (min a b) text).toList := by
    refine honce.longest _ (hsecond.front.trans hfirst.front) (Nat.le_min.mpr ⟨?_, hsecond.within⟩)
    obtain ⟨rest, hrest⟩ := hsecond.front
    have hsize := hfirst.within
    rw [length_bytes, ← hrest, size_append] at hsize
    rw [length_bytes]
    omega
  have hge : (clamp (min a b) text).toList <+: (clamp b (clamp a text)).toList := by
    have hwithin := honce.within
    refine hsecond.longest _ (hfirst.longest _ honce.front ?_) ?_
    · omega
    · omega
  exact String.toList_inj.mp (hle.eq_of_length_le hge.length_le)

end Text

/-! ## Where records are cut -/

/-- A field takes a text that was cut before as it takes the text cut once. -/
theorem Field.write_clamp (limit width : Nat) (text : String) :
    Field.write (width + 1) (Text.clamp limit text)
      = Text.bytes (Text.clamp (min limit width) text)
        ++ List.replicate
          (width + 1 - (Text.bytes (Text.clamp (min limit width) text)).length) 0 := by
  rw [write, Nat.add_sub_cancel, Text.clamp_clamp]

/-- A cut at the field's own limit changes nothing. -/
theorem Field.write_clamp_self (width : Nat) (text : String) :
    Field.write (width + 1) (Text.clamp width text) = Field.write (width + 1) text := by
  rw [write_clamp, Nat.min_self, write, Nat.add_sub_cancel]

/-- An identity has the same bytes whether its name was cut before or not. -/
theorem Identity.bytes_of (name : String) (version : Version) :
    (Identity.of name version).bytes = Identity.bytes ⟨name, version⟩ := by
  rw [bytes, bytes, of]
  dsimp only
  rw [show nameWidth = nameLimit + 1 from rfl, Field.write_clamp_self]

theorem Record.encode_congr {r s : Record} (hkind : r.kind = s.kind) (hbody : r.body = s.body) :
    r.encode = s.encode := by
  rw [encode, encode, header, header, hkind, hbody]

/-- **A cut ends at a boundary that is near, keeps the longest run within its limit, and may be made
any number of times.** What is cut where a record is made, and again where it is written, is written
as if it had been cut once at the smaller limit. -/
theorem cut_at_boundary (text : String) :
    (∀ max, max < (Text.bytes text).length → ∃ steps, Text.Retreat (Text.bytes text) max steps
        ∧ Text.bytes (Text.clamp max text) = (Text.bytes text).take (max - steps))
      ∧ (∀ max, Text.IsCut max text (Text.clamp max text))
      ∧ (∀ a b, Text.clamp b (Text.clamp a text) = Text.clamp (min a b) text)
      ∧ (∀ limit width, Field.write (width + 1) (Text.clamp limit text)
          = Text.bytes (Text.clamp (min limit width) text)
            ++ List.replicate
              (width + 1 - (Text.bytes (Text.clamp (min limit width) text)).length) 0)
      ∧ (∀ limit, (Record.stdout (Text.clamp limit text)).body
          = (Text.bytes (Text.clamp (min limit stdoutLimit) text)).filter (· != 0))
      ∧ (Record.chat text).encode = (Record.message text).encode
      ∧ (Record.leaving text).encode = (Record.disconnect text).encode
      ∧ (∀ version, (Record.userInfo (Identity.of text version)).encode
          = (Record.userInfo ⟨text, version⟩).encode)
      ∧ ∀ version validateOnly, (Record.connect (Identity.of text version) validateOnly).encode
          = (Record.connect ⟨text, version⟩ validateOnly).encode := by
  refine ⟨fun max => Text.retreat_within, fun max => Text.isCut_clamp max text,
    fun a b => Text.clamp_clamp a b text, fun limit width => Field.write_clamp limit width text,
    ?_, ?_, ?_, ?_, ?_⟩
  · intro limit
    rw [Record.body, Text.clamp_clamp]
  · exact Record.encode_congr rfl (Field.write_clamp_self messageLimit text)
  · exact Record.encode_congr rfl (Field.write_clamp_self nameLimit text)
  · intro version
    exact Record.encode_congr rfl (Identity.bytes_of text version)
  · intro version validateOnly
    refine Record.encode_congr rfl ?_
    rw [Record.body, Record.body, Identity.bytes_of]

/-- A limit in front of the last byte of a character of four is three steps from its boundary. -/
theorem cut_at_boundary_inside :
    let text := "a😀b"
    4 < (Text.bytes text).length ∧ Text.Retreat (Text.bytes text) 4 3
      ∧ Text.bytes (Text.clamp 4 text) = [0x61] := by
  intro text
  have hlong : 4 < (Text.bytes text).length := by decide +kernel
  obtain ⟨steps, hretreat, hkept⟩ := (cut_at_boundary text).1 4 hlong
  have hone : Text.retreat (Text.bytes text) 4 = 1 := by decide +kernel
  have hfront : (Text.bytes text).take 1 = [0x61] := by decide +kernel
  obtain rfl : steps = 3 := by
    have hresult := hretreat.result
    have hwithin := hretreat.within
    omega
  exact ⟨hlong, hretreat, hkept.trans hfront⟩

end ChatRoom
