import ChatRoom.Wire.Codec
import ChatRoom.Wire.Source

/-!
# Reading records off a stream

A read may bring the tail of one record and the head of the next, or a single byte. The reader
keeps what it has in a buffer and works in two phases. `probe` fills the buffer until the header is
there and looks at it. Only when the header has been judged does `next` ask for the rest of that
record, never for a byte beyond it, so that the buffer stays within the declared size.

An error leaves the buffer as it was.
-/

namespace ChatRoom

structure Reader where
  source : Source
  /-- Bytes read and not yet used. -/
  buffer : Bytes := []

/-- What came of an attempt to read. -/
inductive Progress (α : Type) where
  | done (value : α)
  | failed (error : FrameError)
  /-- The source has to send more first. -/
  | waiting
  deriving DecidableEq, Repr

namespace Reader

/-- No single call asks for more bytes than this. -/
def callLimit : Nat := 512

/-- Reads until the buffer holds `wanted` bytes; `false` if the stream ended first. -/
def fill (wanted : Nat) (r : Reader) : Progress Bool × Reader :=
  if wanted ≤ r.buffer.length then (.done true, r)
  else
    match r.source.read (min (wanted - r.buffer.length) callLimit) with
    | (.failed cause, source) => (.failed (.io cause), { r with source })
    | (.waiting, source) => (.waiting, { r with source })
    | (.bytes [], source) => (.done false, { r with source })
    | (.bytes (b :: bs), source) => fill wanted { source, buffer := r.buffer ++ b :: bs }
termination_by wanted - r.buffer.length
decreasing_by simp only [List.length_append, List.length_cons]; omega

/-- Looks at the next header and uses up nothing; `none` if the stream ends where a record could
start. -/
def probe (r : Reader) : Progress (Option Header) × Reader :=
  match r.fill headerSize with
  | (.failed e, r) => (.failed e, r)
  | (.waiting, r) => (.waiting, r)
  | (.done _, r) =>
    match Header.ofBytes? r.buffer with
    | some header => (.done (some header), r)
    | none =>
      if r.buffer = [] then (.done none, r)
      else (.failed (.truncated headerSize r.buffer.length), r)

/-- Reads the next record; `none` if the stream ends where one could start. -/
def next (r : Reader) : Progress (Option Record) × Reader :=
  match r.probe with
  | (.failed e, r) => (.failed e, r)
  | (.waiting, r) => (.waiting, r)
  | (.done none, r) => (.done none, r)
  | (.done (some header), r) =>
    match header.validate with
    | .error e => (.failed e, r)
    | .ok (kind, size) =>
      match r.fill size with
      | (.failed e, r) => (.failed e, r)
      | (.waiting, r) => (.waiting, r)
      | (.done false, r) => (.failed (.truncated size r.buffer.length), r)
      | (.done true, r) =>
        (.done (some (Record.ofBody kind ((r.buffer.take size).drop headerSize))),
          { r with buffer := r.buffer.drop size })

/-- The bytes that have not become records yet. -/
def pending (r : Reader) : Bytes := r.buffer ++ r.source.rest

theorem pending_fill (wanted : Nat) (r : Reader) : (r.fill wanted).2.pending = r.pending := by
  fun_induction fill wanted r with
  | case1 => rfl
  | case2 r _ cause source h =>
    simp only [pending, Source.rest_of_read_failed h]
  | case3 r _ source h =>
    simp only [pending, Source.eq_of_read_waiting h]
  | case4 r _ source h =>
    simp only [pending, Source.rest_of_read h, List.nil_append]
  | case5 r _ b bs source h ih =>
    rw [ih]
    simp only [pending, Source.rest_of_read h, List.append_assoc]

/-- A full buffer holds what was wanted. -/
theorem le_length_of_fill {wanted : Nat} {r r' : Reader} (h : r.fill wanted = (.done true, r')) :
    wanted ≤ r'.buffer.length := by
  fun_induction fill wanted r with
  | case1 r hr =>
    simp only [Prod.mk.injEq, true_and] at h
    rw [← h]
    exact hr
  | case2 => simp at h
  | case3 => simp at h
  | case4 => simp at h
  | case5 r _ b bs source _ ih => exact ih h

theorem pending_probe (r : Reader) : r.probe.2.pending = r.pending := by
  have hp := pending_fill headerSize r
  unfold probe
  split <;> rename_i hf <;> rw [hf] at hp
  · exact hp
  · exact hp
  · split
    · exact hp
    · split <;> exact hp

/-- Every record uses up a header at least, so a stream of bytes holds finitely many. -/
theorem length_pending_next_lt {r r' : Reader} {record : Record}
    (h : r.next = (.done (some record), r')) : r'.pending.length < r.pending.length := by
  have hp := pending_probe r
  unfold next at h
  split at h <;> try simp at h
  rename_i header r₁ hprobe
  rw [hprobe] at hp
  split at h <;> try simp at h
  rename_i kind size hv
  have hsize := Header.validate_bounds hv
  have hf := pending_fill size r₁
  split at h <;> try simp at h
  rename_i r₂ hfill
  have hlen := le_length_of_fill hfill
  rw [hfill] at hf
  have hmin := Kind.headerSize_le_minSize kind
  have hpos : 0 < headerSize := by decide
  simp only at hf hp
  obtain ⟨-, rfl⟩ := h
  rw [← hp, ← hf]
  simp only [pending, List.length_append, List.length_drop]
  omega

end Reader

end ChatRoom
