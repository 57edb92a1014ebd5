import ChatRoom.Session.Deliver

/-!
# Delivering to an open target

A target is open as long as nothing keeps it from taking whatever it is given: no write is limited,
it never is full, and it can be shut down. To such a target all that is queued is delivered, byte
for byte, and it is shut down exactly when no more will come.
-/

namespace ChatRoom

namespace Target

/-- Nothing keeps the target from taking all that is written, and from being shut down. -/
structure Open (t : Target) : Prop where
  unlimited : ∀ call, t.plan call = none
  room : t.full = none
  free : t.stuck = none

theorem open_new : ({} : Target).Open := ⟨fun _ => rfl, rfl, rfl⟩

theorem write_of_open {t : Target} (h : t.Open) (bs : Bytes) :
    t.write bs = (.ok bs.length, { t with taken := t.taken ++ bs, turn := t.turn + 1 }) := by
  have hall : bs.take (min bs.length bs.length) = bs := by
    rw [Nat.min_self, List.take_length]
  simp only [write, write.take, h.room, h.unlimited, Option.getD_none, hall]

/-- Bytes are taken in one call, or in none if there are none. -/
theorem writeAll_of_open {t : Target} (h : t.Open) (bs : Bytes) :
    ∃ turn, t.writeAll bs = (.ok (), { t with taken := t.taken ++ bs, turn }) := by
  rw [writeAll]
  by_cases hbs : bs = []
  · subst hbs
    exact ⟨t.turn, by simp⟩
  · obtain ⟨n, hn⟩ : ∃ n, bs.length = n + 1 :=
      Nat.exists_eq_succ_of_ne_zero fun h0 => hbs (List.length_eq_zero_iff.mp h0)
    refine ⟨t.turn + 1, ?_⟩
    rw [if_neg hbs, write_of_open h, hn]
    dsimp only
    rw [← hn, List.drop_length, writeAll, if_pos rfl]

theorem open_written {t : Target} (h : t.Open) (taken : Bytes) (turn : Nat) :
    { t with taken, turn }.Open := ⟨h.unlimited, h.room, h.free⟩

/-- All records are taken, one behind the other. -/
theorem writeRecords_of_open {t : Target} (h : t.Open) (records : List Record) :
    ∃ turn, t.writeRecords records
      = (.ok (), { t with taken := t.taken ++ records.flatMap Record.encode, turn }) := by
  induction records generalizing t with
  | nil => exact ⟨t.turn, by simp [writeRecords]⟩
  | cons record rest ih =>
      obtain ⟨turn, hfirst⟩ := writeAll_of_open h record.encode
      obtain ⟨turn', hrest⟩ := ih (open_written h (t.taken ++ record.encode) turn)
      refine ⟨turn', ?_⟩
      rw [writeRecords, hfirst]
      dsimp only
      rw [hrest, List.flatMap_cons, List.append_assoc]

end Target

/-- **An open target takes all that is delivered**, stays open, and is shut down if that was the
last. -/
theorem deliver_of_open {t : Target} (h : t.Open) (peer : String) (records : List Record)
    (last : Bool) :
    ∃ t', deliver peer records last t = (if last then .finished else .written, [], t')
      ∧ t'.Open ∧ t'.taken = t.taken ++ records.flatMap Record.encode
      ∧ t'.shut = (t.shut || last) := by
  obtain ⟨turn, hwrite⟩ := Target.writeRecords_of_open h records
  have hopen := Target.open_written h (t.taken ++ records.flatMap Record.encode) turn
  rw [deliver, hwrite]
  cases last with
  | false => exact ⟨_, rfl, hopen, rfl, by simp⟩
  | true =>
      have hshut : ∀ t' : Target, t'.Open →
          t'.shutdown = (.ok (), { t' with asked := t'.asked + 1, shut := true }) := by
        intro t' ht
        rw [Target.shutdown, ht.free]
      dsimp only
      rw [if_pos rfl, hshut _ hopen]
      exact ⟨_, rfl, ⟨hopen.unlimited, hopen.room, hopen.free⟩, rfl, by simp⟩

end ChatRoom
