import ChatRoom.Proofs.PassingOn

/-!
# Which bytes are a record

A frame is judged by two numbers in its header, by its length, and by nothing else. `Frame.Fit` says
when it is a record, and `Frame.Defect` what is wrong with it otherwise; of several things that are
wrong the first is reported, in the order in which they are listed there.

Reading then takes slices of the body and single bytes of it. `Record.decode?` is the same reading
with every one of these checked: it gives nothing at all where one lies outside. That never happens,
for a fit header promises the bytes that its kind needs.

Many bytes of a frame are not looked at. `Frame.Alike` compares two frames in all others, and frames
that are alike are the same record.
-/

namespace ChatRoom

/-! ## Numbers in the header -/

namespace Frame

/-- The number in the first four bytes. -/
def tag (frame : Bytes) : Nat := LittleEndian.decode (frame.take 4)

/-- The number in the eight bytes behind it. -/
def size (frame : Bytes) : Nat := LittleEndian.decode ((frame.drop 4).take 8)

/-- What is between the header and the declared end. -/
def body (frame : Bytes) : Bytes := (frame.take (size frame)).drop headerSize

/-- A frame with a record of this kind at its front. -/
structure Fit (frame : Bytes) (kind : Kind) : Prop where
  header : headerSize ≤ frame.length
  tag : kind.tag.toNat = tag frame
  least : kind.minSize ≤ size frame
  most : size frame ≤ recordLimit
  whole : size frame ≤ frame.length

instance (frame : Bytes) (kind : Kind) : Decidable (Fit frame kind) :=
  decidable_of_iff (headerSize ≤ frame.length ∧ kind.tag.toNat = tag frame
      ∧ kind.minSize ≤ size frame ∧ size frame ≤ recordLimit ∧ size frame ≤ frame.length)
    ⟨fun ⟨header, tag, least, most, whole⟩ => ⟨header, tag, least, most, whole⟩,
      fun ⟨header, tag, least, most, whole⟩ => ⟨header, tag, least, most, whole⟩⟩

/-- The first thing that is wrong with a frame. -/
inductive Defect (frame : Bytes) : FrameError → Prop where
  | shortHeader (hheader : frame.length < headerSize) :
      Defect frame (.truncated headerSize frame.length)
  | unknownKind {number : UInt32} (hheader : headerSize ≤ frame.length)
      (hnumber : number.toNat = tag frame) (htag : ¬ (1 ≤ tag frame ∧ tag frame ≤ 5)) :
      Defect frame (.unknownKind number)
  | undersized {kind : Kind} {declared : UInt64} (hheader : headerSize ≤ frame.length)
      (htag : kind.tag.toNat = tag frame) (hdeclared : declared.toNat = size frame)
      (hleast : size frame < kind.minSize) : Defect frame (.undersized kind declared kind.minSize)
  | oversized {kind : Kind} {declared : UInt64} (hheader : headerSize ≤ frame.length)
      (htag : kind.tag.toNat = tag frame) (hdeclared : declared.toNat = size frame)
      (hleast : kind.minSize ≤ size frame) (hmost : recordLimit < size frame) :
      Defect frame (.oversized declared recordLimit)
  | shortBody {kind : Kind} (hheader : headerSize ≤ frame.length)
      (htag : kind.tag.toNat = tag frame) (hleast : kind.minSize ≤ size frame)
      (hmost : size frame ≤ recordLimit) (hwhole : frame.length < size frame) :
      Defect frame (.truncated (size frame) frame.length)

end Frame

/-- The tags are the numbers from one to five. -/
theorem Kind.exists_tag_iff {n : Nat} : (∃ kind : Kind, kind.tag.toNat = n) ↔ 1 ≤ n ∧ n ≤ 5 := by
  constructor
  · rintro ⟨kind, rfl⟩
    cases kind <;> decide
  · rintro ⟨hlow, hhigh⟩
    have hn : n = 1 ∨ n = 2 ∨ n = 3 ∨ n = 4 ∨ n = 5 := by omega
    rcases hn with rfl | rfl | rfl | rfl | rfl
    · exact ⟨.stdout, rfl⟩
    · exact ⟨.userInfo, rfl⟩
    · exact ⟨.connect, rfl⟩
    · exact ⟨.disconnect, rfl⟩
    · exact ⟨.message, rfl⟩

theorem Kind.ofTag?_of_toNat {kind : Kind} {t : UInt32} (h : kind.tag.toNat = t.toNat) :
    ofTag? t = some kind := by
  rw [← UInt32.toNat_inj.mp h, ofTag?_tag]

theorem Kind.eq_of_tag {kind kind' : Kind} (h : kind.tag.toNat = kind'.tag.toNat) :
    kind = kind' :=
  Option.some.inj ((ofTag?_of_toNat h).symm.trans (ofTag?_tag kind'))

namespace Frame

variable {frame : Bytes} {kind : Kind}

theorem exists_header (h : headerSize ≤ frame.length) :
    ∃ header, Header.ofBytes? frame = some header ∧ header.tag.toNat = tag frame
      ∧ header.size.toNat = size frame := by
  have hlong : headerSize = 12 := rfl
  have htag : tag frame < LittleEndian.bound 4 := by
    have := LittleEndian.decode_lt (frame.take 4)
    rwa [List.length_take, Nat.min_eq_left (by omega)] at this
  have hsize : size frame < LittleEndian.bound 8 := by
    have := LittleEndian.decode_lt ((frame.drop 4).take 8)
    rwa [List.length_take, List.length_drop, Nat.min_eq_left (by omega)] at this
  refine ⟨_, if_neg (by omega), ?_, ?_⟩
  · exact (UInt32.toNat_ofNat' ..).trans (Nat.mod_eq_of_lt htag)
  · exact (UInt64.toNat_ofNat' ..).trans (Nat.mod_eq_of_lt hsize)

/-- A fit frame is read as its kind says. -/
theorem Fit.decode (h : Fit frame kind) :
    Record.decode frame = .ok (Record.ofBody kind (body frame)) := by
  obtain ⟨header, hheader, htag, hsize⟩ := exists_header h.header
  have hvalid : header.validate = .ok (kind, size frame) := by
    have hleast := h.least
    have hmost := h.most
    rw [Header.validate, Kind.ofTag?_of_toNat (h.tag.trans htag.symm), hsize]
    dsimp only
    rw [if_neg (by omega), if_neg (by omega)]
  have hwhole := h.whole
  rw [Record.decode_of_fit hheader hvalid, if_neg (by omega)]
  rfl

/-- Of a frame that is not fit the first defect is reported. -/
theorem Defect.decode {e : FrameError} (h : Defect frame e) : Record.decode frame = .error e := by
  cases h with
  | shortHeader hheader =>
      rw [Record.decode, Header.ofBytes?, if_pos hheader]
  | unknownKind hheader hnumber htag =>
      obtain ⟨header, hfront, htag', -⟩ := exists_header hheader
      refine Record.decode_of_unfit hfront ?_
      rw [Header.validate]
      cases hkind : Kind.ofTag? header.tag with
      | none =>
          dsimp only
          rw [UInt32.toNat_inj.mp (htag'.trans hnumber.symm)]
      | some kind =>
          have hknown := congrArg UInt32.toNat (Kind.tag_of_ofTag? hkind)
          exact absurd (Kind.exists_tag_iff.mp ⟨kind, hknown.trans htag'⟩) htag
  | undersized hheader htag hdeclared hleast =>
      obtain ⟨header, hfront, htag', hsize⟩ := exists_header hheader
      refine Record.decode_of_unfit hfront ?_
      rw [Header.validate, Kind.ofTag?_of_toNat (htag.trans htag'.symm), hsize]
      dsimp only
      rw [if_pos hleast, UInt64.toNat_inj.mp (hsize.trans hdeclared.symm)]
  | oversized hheader htag hdeclared hleast hmost =>
      obtain ⟨header, hfront, htag', hsize⟩ := exists_header hheader
      refine Record.decode_of_unfit hfront ?_
      rw [Header.validate, Kind.ofTag?_of_toNat (htag.trans htag'.symm), hsize]
      dsimp only
      rw [if_neg (by omega), if_pos hmost, UInt64.toNat_inj.mp (hsize.trans hdeclared.symm)]
  | @shortBody kind hheader htag hleast hmost hwhole =>
      obtain ⟨header, hfront, htag', hsize⟩ := exists_header hheader
      have hvalid : header.validate = .ok (kind, size frame) := by
        rw [Header.validate, Kind.ofTag?_of_toNat (htag.trans htag'.symm), hsize]
        dsimp only
        rw [if_neg (by omega), if_neg (by omega)]
      rw [Record.decode_of_fit hfront hvalid, if_pos hwhole]

/-- A frame is fit, or something is wrong with it. -/
theorem fit_or_defect (frame : Bytes) : (∃ kind, Fit frame kind) ∨ ∃ e, Defect frame e := by
  rcases Nat.lt_or_ge frame.length headerSize with hshort | hheader
  · exact Or.inr ⟨_, .shortHeader hshort⟩
  obtain ⟨header, -, htag, hsize⟩ := exists_header hheader
  by_cases hknown : 1 ≤ tag frame ∧ tag frame ≤ 5
  · obtain ⟨kind, hkind⟩ := Kind.exists_tag_iff.mpr hknown
    rcases Nat.lt_or_ge (size frame) kind.minSize with hleast | hleast
    · exact Or.inr ⟨_, .undersized hheader hkind hsize hleast⟩
    rcases Nat.lt_or_ge recordLimit (size frame) with hmost | hmost
    · exact Or.inr ⟨_, .oversized hheader hkind hsize hleast hmost⟩
    rcases Nat.lt_or_ge frame.length (size frame) with hwhole | hwhole
    · exact Or.inr ⟨_, .shortBody hheader hkind hleast hmost hwhole⟩
    · exact Or.inl ⟨kind, hheader, hkind, hleast, hmost, hwhole⟩
  · exact Or.inr ⟨_, .unknownKind hheader htag hknown⟩

theorem exists_decode_iff :
    (∃ r, Record.decode frame = .ok r) ↔ ∃ kind, Fit frame kind := by
  constructor
  · rintro ⟨r, hr⟩
    rcases fit_or_defect frame with hfit | ⟨e, he⟩
    · exact hfit
    · exact absurd (hr.symm.trans he.decode) (by simp)
  · rintro ⟨kind, hfit⟩
    exact ⟨_, hfit.decode⟩

theorem decode_eq_error_iff {e : FrameError} :
    Record.decode frame = .error e ↔ Defect frame e := by
  refine ⟨?_, Defect.decode⟩
  intro hr
  rcases fit_or_defect frame with ⟨kind, hfit⟩ | ⟨e', he⟩
  · exact absurd (hr.symm.trans hfit.decode) (by simp)
  · obtain rfl := Except.error.inj (hr.symm.trans he.decode)
    exact he

/-- A fit frame has the bytes that its kind needs. -/
theorem Fit.length_body (h : Fit frame kind) :
    (body frame).length = size frame - headerSize ∧ kind.bodySize ≤ (body frame).length := by
  have hlength : (body frame).length = size frame - headerSize := by
    rw [body, List.length_drop, List.length_take, Nat.min_eq_left h.whole]
  have hleast : headerSize + kind.bodySize ≤ size frame := h.least
  exact ⟨hlength, by omega⟩

end Frame

/-! ## Reading with every access checked -/

/-- The bytes from one place up to another, if both places are there. -/
def slice? (bs : Bytes) (start stop : Nat) : Option Bytes :=
  if start ≤ stop ∧ stop ≤ bs.length then some ((bs.take stop).drop start) else none

theorem slice?_of_le {bs : Bytes} {start stop : Nat} (h : start ≤ stop) (h' : stop ≤ bs.length) :
    slice? bs start stop = some ((bs.take stop).drop start) := if_pos ⟨h, h'⟩

theorem slice?_front {bs : Bytes} {stop : Nat} (h : stop ≤ bs.length) :
    slice? bs 0 stop = some (bs.take stop) := slice?_of_le (Nat.zero_le _) h

/-- The number in the two bytes from one place on. -/
def number16? (bs : Bytes) (place : Nat) : Option UInt16 := do
  let low ← bs[place]?
  let high ← bs[place + 1]?
  return UInt16.ofNat (LittleEndian.decode [low, high])

theorem number16?_of_le {bs : Bytes} {place : Nat} (h : place + 2 ≤ bs.length) :
    number16? bs place = some (UInt16.ofNat (LittleEndian.decode ((bs.drop place).take 2))) := by
  have hlow : place < bs.length := by omega
  have hhigh : place + 1 < bs.length := by omega
  rw [number16?, List.getElem?_eq_getElem hlow, List.getElem?_eq_getElem hhigh,
    List.drop_eq_getElem_cons hlow, List.drop_eq_getElem_cons hhigh]
  rfl

def Field.read? (limit : Nat) (field : Bytes) : Option String := do
  let front ← slice? field 0 (min field.length limit)
  let content ← slice? front 0 (front.findIdx (· == 0))
  return Text.ofBytes content

theorem Field.read?_eq (limit : Nat) (field : Bytes) :
    read? limit field = some (read limit field) := by
  have hfront : field.take (min field.length limit) = field.take limit := by
    rw [Nat.min_comm, ← List.take_eq_take_min]
  have hcontent : (field.take limit).takeWhile (· != 0)
      = (field.take limit).take ((field.take limit).findIdx (· == 0)) := by
    have hnul : (fun b : UInt8 => !(b != 0)) = (· == 0) := by
      funext b
      exact Bool.not_not _
    rw [List.takeWhile_eq_take_findIdx_not, hnul]
  rw [read?, slice?_front (Nat.min_le_left _ _), hfront]
  show (slice? (field.take limit) 0 _).bind _ = _
  rw [slice?_front List.findIdx_le_length, ← hcontent]
  rfl

def Identity.ofBytes? (body : Bytes) : Option Identity := do
  let field ← slice? body 0 nameWidth
  let name ← Field.read? nameLimit field
  let major ← number16? body nameWidth
  let minor ← number16? body (nameWidth + 2)
  let patch ← number16? body (nameWidth + 4)
  return ⟨name, ⟨major, minor, patch⟩⟩

theorem Identity.ofBytes?_eq {body : Bytes} (h : identityWidth ≤ body.length) :
    ofBytes? body = some (ofBytes body) := by
  have hwidth : identityWidth = nameWidth + 6 := rfl
  rw [ofBytes?, slice?_front (by omega), number16?_of_le (by omega), number16?_of_le (by omega),
    number16?_of_le (by omega)]
  simp only [Option.bind_eq_bind, Option.bind_some, Field.read?_eq, ofBytes, Version.ofBytes,
    List.drop_drop]
  rfl

namespace Record

def ofBody? (kind : Kind) (body : Bytes) : Option Record :=
  match kind with
  | .stdout => (Field.read? stdoutLimit body).map stdout
  | .userInfo => (Identity.ofBytes? body).map userInfo
  | .connect => do
    let user ← Identity.ofBytes? body
    let flag ← body[identityWidth]?
    return connect user (flag != 0)
  | .disconnect => do
    let field ← slice? body 0 nameWidth
    (Field.read? nameLimit field).map disconnect
  | .message => do
    let field ← slice? body 0 messageWidth
    (Field.read? messageLimit field).map message

theorem ofBody?_eq {kind : Kind} {body : Bytes} (h : kind.bodySize ≤ body.length) :
    ofBody? kind body = some (ofBody kind body) := by
  cases kind with
  | stdout => rw [ofBody?, Field.read?_eq, ofBody, Option.map_some]
  | userInfo => rw [ofBody?, Identity.ofBytes?_eq h, ofBody, Option.map_some]
  | connect =>
      have hflag : identityWidth < body.length := h
      rw [ofBody?, Identity.ofBytes?_eq hflag.le, List.getElem?_eq_getElem hflag, ofBody,
        List.getElem?_eq_getElem hflag]
      rfl
  | disconnect =>
      have hfield : slice? body 0 nameWidth = some (body.take nameWidth) := slice?_front h
      rw [ofBody?, hfield, ofBody]
      show (Field.read? nameLimit _).map _ = _
      rw [Field.read?_eq, Option.map_some]
  | message =>
      have hfield : slice? body 0 messageWidth = some (body.take messageWidth) := slice?_front h
      rw [ofBody?, hfield, ofBody]
      show (Field.read? messageLimit _).map _ = _
      rw [Field.read?_eq, Option.map_some]

/-- Reads the record at the front of `frame`. There is no answer if bytes are asked for that are not
there. -/
def decode? (frame : Bytes) : Option (Except FrameError Record) :=
  if frame.length < headerSize then some (.error (.truncated headerSize frame.length))
  else do
    let tag ← slice? frame 0 4
    let size ← slice? frame 4 headerSize
    let header : Header :=
      ⟨UInt32.ofNat (LittleEndian.decode tag), UInt64.ofNat (LittleEndian.decode size)⟩
    match header.validate with
    | .error e => some (.error e)
    | .ok (kind, size) =>
      if frame.length < size then some (.error (.truncated size frame.length))
      else do
        let body ← slice? frame headerSize size
        let record ← ofBody? kind body
        return .ok record

/-- **No byte is asked for that is not there.** -/
theorem decode?_eq (frame : Bytes) : decode? frame = some (decode frame) := by
  rw [decode?, decode, Header.ofBytes?]
  by_cases hshort : frame.length < headerSize
  · rw [if_pos hshort, if_pos hshort]
  · have hlong : headerSize = 12 := rfl
    rw [if_neg hshort, if_neg hshort, slice?_front (by omega), slice?_of_le (by omega) (by omega)]
    have hsize : (frame.take headerSize).drop 4 = (frame.drop 4).take 8 := List.drop_take ..
    simp only [Option.bind_eq_bind, Option.bind_some, hsize]
    generalize Header.mk _ _ = header
    cases hvalid : header.validate with
    | error e => rfl
    | ok judged =>
        obtain ⟨kind, size⟩ := judged
        obtain ⟨hleast, -, -⟩ := Header.validate_bounds hvalid
        have hmin : headerSize + kind.bodySize ≤ size := hleast
        dsimp only
        by_cases hwhole : frame.length < size
        · rw [if_pos hwhole, if_pos hwhole]
        · have hbody : kind.bodySize ≤ ((frame.take size).drop headerSize).length := by
            rw [List.length_drop, List.length_take]
            omega
          rw [if_neg hwhole, if_neg hwhole, slice?_of_le (by omega) (by omega), Option.bind_some,
            ofBody?_eq hbody]
          rfl

end Record

/-! ## What is not looked at -/

/-- The width of the field with the text: for a `stdout` record the body has no other bytes. -/
def Kind.textWidth : Kind → Nat
  | stdout => stdoutLimit
  | userInfo => nameWidth
  | connect => nameWidth
  | disconnect => nameWidth
  | message => messageWidth

/-- The last byte of a field with a text is always left over. -/
theorem Kind.textWidth_eq {kind : Kind} (h : kind ≠ .stdout) :
    kind.textWidth = kind.textLimit + 1 ∧ kind.textWidth ≤ kind.bodySize := by
  cases kind with
  | stdout => exact absurd rfl h
  | userInfo => decide
  | connect => decide
  | disconnect => decide
  | message => exact ⟨rfl, Nat.le_refl _⟩

/-- Reading ends at a NUL, so bytes behind one may differ. -/
theorem takeWhile_congr {xs ys : Bytes} (h : ∀ i, ys[i]? = xs[i]? ∨ 0 ∈ xs.take i) :
    ys.takeWhile (· != 0) = xs.takeWhile (· != 0) := by
  induction xs generalizing ys with
  | nil =>
      have hnone : ys[0]? = none := by simpa using h 0
      have hempty : ys = [] := by simpa using hnone
      rw [hempty]
  | cons x xs ih =>
      have hfirst : ys[0]? = some x := by simpa using h 0
      obtain ⟨y, ys, rfl⟩ : ∃ y ys', ys = y :: ys' :=
        List.exists_cons_of_ne_nil (by rintro rfl; simp at hfirst)
      obtain rfl : y = x := by simpa using hfirst
      -- a NUL ends both; if this byte is none, the one that `h` may speak of comes later
      by_cases hnul : y = 0
      · rw [List.takeWhile_cons_of_neg (by simp [hnul]),
          List.takeWhile_cons_of_neg (by simp [hnul])]
      · have hlater : ∀ i, ys[i]? = xs[i]? ∨ 0 ∈ xs.take i := by
          intro i
          rcases h (i + 1) with hsame | hbefore
          · exact Or.inl (by simpa using hsame)
          · rw [List.take_succ_cons, List.mem_cons] at hbefore
            exact Or.inr (hbefore.resolve_left (Ne.symm hnul))
        rw [List.takeWhile_cons_of_pos (by simpa using hnul),
          List.takeWhile_cons_of_pos (by simpa using hnul), ih hlater]

theorem Field.read_congr {limit : Nat} {field other : Bytes}
    (h : ∀ i < limit, other[i]? = field[i]? ∨ 0 ∈ field.take i) :
    read limit other = read limit field := by
  have hfront : ∀ i, (other.take limit)[i]? = (field.take limit)[i]?
      ∨ 0 ∈ (field.take limit).take i := by
    intro i
    rcases Nat.lt_or_ge i limit with hi | hi
    · rw [List.getElem?_take_of_lt hi, List.getElem?_take_of_lt hi, List.take_take,
        Nat.min_eq_left hi.le]
      exact h i hi
    · exact Or.inl (by rw [List.getElem?_take_eq_none hi, List.getElem?_take_eq_none hi])
  rw [read, read, takeWhile_congr hfront]

theorem Field.read_take {limit width : Nat} {bs : Bytes} (h : limit ≤ width) :
    read limit (bs.take width) = read limit bs := by
  rw [read, List.take_take, Nat.min_eq_left h]
  rfl

theorem nameLimit_le : nameLimit ≤ nameWidth := Nat.le_succ _

theorem messageLimit_le : messageLimit ≤ messageWidth := Nat.le_succ _

/-- Bytes with the same front have the same slices of it. -/
theorem slice_congr {bs cs : Bytes} {front : Nat} (h : cs.take front = bs.take front) {n m : Nat}
    (hle : n + m ≤ front) : (cs.drop n).take m = (bs.drop n).take m := by
  have hslice := congrArg (fun part : Bytes => (part.drop n).take m) h
  simpa only [List.drop_take, List.take_take, Nat.min_eq_left (show m ≤ front - n by omega)]
    using hslice

theorem Version.ofBytes_congr {bs cs : Bytes} (h : ∀ i < 6, cs[i]? = bs[i]?) :
    ofBytes cs = ofBytes bs := by
  have hfront : cs.take 6 = bs.take 6 := by
    refine List.ext_getElem? ?_
    intro i
    rcases Nat.lt_or_ge i 6 with hi | hi
    · rw [List.getElem?_take_of_lt hi, List.getElem?_take_of_lt hi, h i hi]
    · rw [List.getElem?_take_eq_none hi, List.getElem?_take_eq_none hi]
  have hmajor : cs.take 2 = bs.take 2 := slice_congr (n := 0) hfront (by omega)
  have hminor : (cs.drop 2).take 2 = (bs.drop 2).take 2 := slice_congr hfront (by omega)
  have hpatch : (cs.drop 4).take 2 = (bs.drop 4).take 2 := slice_congr hfront (by omega)
  rw [ofBytes, ofBytes, hmajor, hminor, hpatch]

namespace Frame

/-- A place in a body that nobody looks at: behind the fixed layout, behind a NUL in the field with
the text, or at the end of that field. -/
def Unread (kind : Kind) (body : Bytes) (i : Nat) : Prop :=
  kind ≠ .stdout ∧ kind.bodySize ≤ i
    ∨ i < kind.textWidth ∧ 0 ∈ body.take i
    ∨ kind ≠ .stdout ∧ i + 1 = kind.textWidth

/-- A flag counts as set whatever it is, unless it is zero. -/
def BothSet (kind : Kind) (body other : Bytes) (i : Nat) : Prop :=
  kind = .connect ∧ i = identityWidth ∧ body[i]?.getD 0 ≠ 0 ∧ other[i]?.getD 0 ≠ 0

/-- `other` differs from `frame` only where nobody looks: behind the declared end, where it may also
go on for longer or end, and in the body at unread places and in a flag that stays set. -/
structure Alike (kind : Kind) (frame other : Bytes) : Prop where
  header : other.take headerSize = frame.take headerSize
  whole : size frame ≤ other.length
  inside : ∀ i < size frame - headerSize, (body other)[i]? = (body frame)[i]?
    ∨ Unread kind (body frame) i ∨ BothSet kind (body frame) (body other) i

instance (kind : Kind) (body : Bytes) (i : Nat) : Decidable (Unread kind body i) :=
  inferInstanceAs (Decidable (_ ∨ _))

instance (kind : Kind) (body other : Bytes) (i : Nat) : Decidable (BothSet kind body other i) :=
  inferInstanceAs (Decidable (_ ∧ _))

section

variable {kind : Kind} {body other : Bytes}
  (h : ∀ i, other[i]? = body[i]? ∨ Unread kind body i ∨ BothSet kind body other i)

include h

/-- The text is in front of the last byte of its field, and of all other fields. -/
theorem text_congr : Field.read kind.textLimit other = Field.read kind.textLimit body := by
  refine Field.read_congr ?_
  intro i hi
  rcases h i with hsame | (⟨hkind, hbehind⟩ | ⟨-, hnul⟩ | ⟨hkind, hlast⟩) | ⟨rfl, rfl, -⟩
  · exact Or.inl hsame
  · have := Kind.textWidth_eq hkind
    omega
  · exact Or.inr hnul
  · have := Kind.textWidth_eq hkind
    omega
  · exact absurd hi (by decide)

/-- Behind that field every byte of the layout counts. -/
theorem layout_congr {i : Nat} (hfield : kind.textWidth ≤ i) (hi : i < kind.bodySize) :
    other[i]? = body[i]? ∨ BothSet kind body other i := by
  rcases h i with hsame | (⟨-, hbehind⟩ | ⟨hin, -⟩ | ⟨-, hlast⟩) | hset
  · exact Or.inl hsame
  · omega
  · omega
  · omega
  · exact Or.inr hset

theorem identity_congr (hkind : kind = .userInfo ∨ kind = .connect) :
    Identity.ofBytes other = Identity.ofBytes body := by
  have hwidth : kind.textWidth = nameWidth ∧ kind.textLimit = nameLimit
      ∧ identityWidth ≤ kind.bodySize := by
    rcases hkind with rfl | rfl
    · decide
    · decide
  obtain ⟨hfield, hlimit, hsize⟩ := hwidth
  have hname := text_congr h
  rw [hlimit] at hname
  have hversion :
      Version.ofBytes (other.drop nameWidth) = Version.ofBytes (body.drop nameWidth) := by
    refine Version.ofBytes_congr ?_
    intro i hi
    have hplace : nameWidth + i < identityWidth := Nat.add_lt_add_left hi nameWidth
    rw [List.getElem?_drop, List.getElem?_drop]
    rcases layout_congr h (i := nameWidth + i) (by omega) (by omega) with hsame | ⟨-, hflag, -⟩
    · exact hsame
    · omega
  rw [Identity.ofBytes, Identity.ofBytes, Field.read_take nameLimit_le,
    Field.read_take nameLimit_le, hname, hversion]

/-- **Bodies that differ only where nobody looks are the same record.** -/
theorem ofBody_congr : Record.ofBody kind other = Record.ofBody kind body := by
  have htext := text_congr h
  cases kind with
  | stdout => exact congrArg Record.stdout htext
  | userInfo => exact congrArg Record.userInfo (identity_congr h (Or.inl rfl))
  | connect =>
      have hflag : (other[identityWidth]?.getD 0 != 0) = (body[identityWidth]?.getD 0 != 0) := by
        rcases layout_congr h (i := identityWidth) (by decide) (by decide) with hsame | ⟨-, -, hset⟩
        · rw [hsame]
        · rw [bne_iff_ne.mpr hset.1, bne_iff_ne.mpr hset.2]
      rw [Record.ofBody, Record.ofBody, identity_congr h (Or.inr rfl), hflag]
  | disconnect =>
      rw [Record.ofBody, Record.ofBody, Field.read_take nameLimit_le, Field.read_take nameLimit_le]
      exact congrArg Record.disconnect htext
  | message =>
      rw [Record.ofBody, Record.ofBody, Field.read_take messageLimit_le,
        Field.read_take messageLimit_le]
      exact congrArg Record.message htext

end

/-- **Frames that are alike are the same record.** -/
theorem Alike.decode {kind : Kind} {frame other : Bytes} (ha : Alike kind frame other)
    (hf : Fit frame kind) : Record.decode other = Record.decode frame := by
  have hlong : headerSize = 12 := rfl
  -- the header is the same, so the other frame declares the same and is fit as well
  have htag : tag other = tag frame :=
    congrArg LittleEndian.decode (slice_congr (n := 0) ha.header (by omega))
  have hsize : size other = size frame :=
    congrArg LittleEndian.decode (slice_congr ha.header (by omega))
  have hleast := hf.least
  have hheader := kind.headerSize_le_minSize
  have hfit : Fit other kind := by
    refine ⟨?_, ?_, ?_, ?_, ?_⟩
    · exact hheader.trans (hleast.trans ha.whole)
    · rw [htag]
      exact hf.tag
    · rw [hsize]
      exact hleast
    · rw [hsize]
      exact hf.most
    · rw [hsize]
      exact ha.whole
  have hbody : ∀ i, (body other)[i]? = (body frame)[i]? ∨ Unread kind (body frame) i
      ∨ BothSet kind (body frame) (body other) i := by
    intro i
    rcases Nat.lt_or_ge i (size frame - headerSize) with hi | hi
    · exact ha.inside i hi
    -- behind the declared end neither body has a byte
    · have hend := hf.length_body.1
      have hend' := hfit.length_body.1
      rw [hsize] at hend'
      left
      rw [List.getElem?_eq_none (by omega), List.getElem?_eq_none (by omega)]
  rw [hf.decode, hfit.decode, ofBody_congr hbody]

end Frame

/-- **A frame is judged by what it declares, and read by what it must have.** It is a record if it
is fit, and otherwise the first of its defects is reported; no byte is asked for that is not there;
and a record does not change with bytes that nobody looks at. -/
theorem decode_by_grammar (frame : Bytes) :
    Record.decode? frame = some (Record.decode frame)
      ∧ ((∃ r, Record.decode frame = .ok r) ↔ ∃ kind, Frame.Fit frame kind)
      ∧ (∀ e, Record.decode frame = .error e ↔ Frame.Defect frame e)
      ∧ ∀ kind other, Frame.Fit frame kind → Frame.Alike kind frame other →
          ∃ r, Record.decode frame = .ok r ∧ Record.decode other = .ok r := by
  refine ⟨Record.decode?_eq frame, Frame.exists_decode_iff, fun e => Frame.decode_eq_error_iff, ?_⟩
  intro kind other hfit halike
  exact ⟨_, hfit.decode, (halike.decode hfit).trans hfit.decode⟩

/-- A `connect` frame with five bytes more than its layout, and another one that differs from it
behind the NUL of the name, at the end of the name, in the flag, behind the layout and behind the
declared end. -/
theorem decode_by_grammar_altered :
    let name := [0x61, 0x6E, 0x6E, 0x00]
    let version := Version.bytes ⟨1, 2, 3⟩
    let frame := Header.bytes ⟨3, 57⟩ ++ name ++ List.replicate 29 0 ++ version ++ [1]
      ++ List.replicate 5 0
    let other := Header.bytes ⟨3, 57⟩ ++ name ++ List.replicate 29 0xFF ++ version ++ [7]
      ++ List.replicate 5 9 ++ [4, 0, 0]
    Frame.Fit frame .connect ∧ Frame.Alike .connect frame other
      ∧ ∃ r, Record.decode frame = .ok r ∧ Record.decode other = .ok r := by
  intro name version frame other
  have hfit : Frame.Fit frame .connect := by decide +kernel
  have halike : Frame.Alike .connect frame other :=
    ⟨by decide +kernel, by decide +kernel, by decide +kernel⟩
  exact ⟨hfit, halike, (decode_by_grammar frame).2.2.2 .connect other hfit halike⟩

end ChatRoom
