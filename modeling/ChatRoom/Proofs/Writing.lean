import Mathlib.Logic.Basic
import ChatRoom.Proofs.Posting
import ChatRoom.Session.Hub

/-!
# How far writing gets

A target may take any part of what a call offers it, or nothing, or it may fail, at any byte. The
bytes that it has taken are still the front of what was queued. `Target.Took` says that a target has
changed by the bytes it has taken and in no other way, and it adds up along the two loops: over the
calls that one record needs, and over the records. Either all is taken, and then the target is asked
to shut down, once; or it refuses the rest of one record, and nothing is tried after that.

`delivered_or_broken_off` is the main result: one of the two happens, and the log and the signal to
stop say which.
-/

namespace ChatRoom

namespace Target

/-- `t'` is `t`, with some bytes taken besides. Nothing else has changed but the number of calls, so
nobody has asked for a shutdown. -/
def Took (t : Target) (bs : Bytes) (t' : Target) : Prop :=
  ∃ turn, t' = { t with taken := t.taken ++ bs, turn }

theorem took_nothing (t : Target) : t.Took [] t := ⟨t.turn, by rw [List.append_nil]⟩

theorem Took.trans {t t' t'' : Target} {bs cs : Bytes} (h : t.Took bs t') (h' : t'.Took cs t'') :
    t.Took (bs ++ cs) t'' := by
  obtain ⟨turn, rfl⟩ := h
  obtain ⟨turn', rfl⟩ := h'
  exact ⟨turn', by rw [List.append_assoc]⟩

theorem Took.taken {t t' : Target} {bs : Bytes} (h : t.Took bs t') :
    t'.taken = t.taken ++ bs := by
  obtain ⟨turn, rfl⟩ := h
  rfl

/-! ## One call -/

theorem write_cases (t : Target) (bs : Bytes) :
    (∃ cause, t.write bs = (.error cause, t))
      ∨ ∃ n t', t.write bs = (.ok n, t') ∧ t.Took (bs.take n) t' := by
  have htake : ∀ room, ∃ n t', write.take t bs room = (.ok n, t') ∧ t.Took (bs.take n) t' := by
    intro room
    refine ⟨_, _, rfl, t.turn + 1, ?_⟩
    rw [List.length_take, ← List.take_eq_take_min]
  rw [write]
  cases t.full with
  | none => exact Or.inr (htake bs.length)
  | some limit =>
      obtain ⟨capacity, cause⟩ := limit
      dsimp only
      by_cases hfull : capacity ≤ t.taken.length
      · rw [if_pos hfull]
        exact Or.inl ⟨cause, rfl⟩
      · rw [if_neg hfull]
        exact Or.inr (htake _)

/-- A call brings nothing across, for this cause: it fails, or else it takes nothing. -/
inductive Refuses (t : Target) (bs : Bytes) : String → Target → Prop where
  | fails {cause : String} {t' : Target} (h : t.write bs = (.error cause, t')) :
      Refuses t bs cause t'
  | takesNothing {t' : Target} (h : t.write bs = (.ok 0, t')) : Refuses t bs "write zero" t'

theorem Refuses.took {t t' : Target} {bs : Bytes} {cause : String} (h : t.Refuses bs cause t') :
    t.Took [] t' := by
  rcases write_cases t bs with ⟨cause', hwrite⟩ | ⟨n, t₁, hwrite, htook⟩
  · cases h with
    | fails h =>
        obtain ⟨-, rfl⟩ := Prod.mk.inj (hwrite.symm.trans h)
        exact took_nothing t
    | takesNothing h => exact absurd (hwrite.symm.trans h) (by simp)
  · cases h with
    | fails h => exact absurd (hwrite.symm.trans h) (by simp)
    | takesNothing h =>
        obtain ⟨hn, rfl⟩ := Prod.mk.inj (hwrite.symm.trans h)
        rw [Except.ok.inj hn, List.take_zero] at htook
        exact htook

/-! ## One record -/

/-- What comes of writing some bytes: all of them are taken, or a front of them, and the target
refuses the rest. -/
inductive Wrote (t : Target) (bs : Bytes) : Except String Unit × Target → Prop where
  | all {t' : Target} (htook : t.Took bs t') : Wrote t bs (.ok (), t')
  | front {front rest : Bytes} {cause : String} {t₁ t' : Target} (hsplit : front ++ rest = bs)
      (hrest : rest ≠ []) (htook : t.Took front t₁) (hrefused : t₁.Refuses rest cause t') :
      Wrote t bs (.error cause, t')

theorem wrote_writeAll (t : Target) (bs : Bytes) : Wrote t bs (t.writeAll bs) := by
  -- call by call, where what is left gets shorter by what has been taken
  fun_induction writeAll t bs with
  | case1 t => exact .all (took_nothing t)
  | case2 t bs hbs cause t' hwrite =>
      exact .front rfl hbs (took_nothing t) (.fails hwrite)
  | case3 t bs hbs t' hwrite => exact .front rfl hbs (took_nothing t) (.takesNothing hwrite)
  | case4 t bs hbs n t₁ hwrite ih =>
      have hfirst : t.Took (bs.take (n + 1)) t₁ := by
        rcases write_cases t bs with ⟨cause, h⟩ | ⟨m, t', h, htook⟩
        · exact absurd (h.symm.trans hwrite) (by simp)
        · obtain ⟨hm, rfl⟩ := Prod.mk.inj (h.symm.trans hwrite)
          rwa [Except.ok.inj hm] at htook
      generalize t₁.writeAll (bs.drop (n + 1)) = result at ih
      cases ih with
      | all htook =>
          have hall := hfirst.trans htook
          rw [List.take_append_drop] at hall
          exact .all hall
      | front hsplit hrest htook hrefused =>
          refine .front ?_ hrest (hfirst.trans htook) hrefused
          rw [List.append_assoc, hsplit, List.take_append_drop]

/-! ## All records -/

/-- What comes of writing some records: all of them are taken, or those before one of them and a
front of that one, and the target refuses the rest of it. -/
inductive WroteRecords (t : Target) (records : List Record) :
    Except (Record × String) Unit × Target → Prop where
  | all {t' : Target} (htook : t.Took (records.flatMap Record.encode) t') :
      WroteRecords t records (.ok (), t')
  | within (before : List Record) {after : List Record} {record : Record} {front rest : Bytes}
      {cause : String} {t₁ t' : Target} (hrecords : before ++ record :: after = records)
      (hsplit : front ++ rest = record.encode) (hrest : rest ≠ [])
      (htook : t.Took (before.flatMap Record.encode ++ front) t₁)
      (hrefused : t₁.Refuses rest cause t') :
      WroteRecords t records (.error (record, cause), t')

theorem wrote_writeRecords (t : Target) (records : List Record) :
    WroteRecords t records (t.writeRecords records) := by
  induction records generalizing t with
  | nil => exact .all (took_nothing t)
  | cons record rest ih =>
      rw [writeRecords]
      have hfirst := wrote_writeAll t record.encode
      generalize t.writeAll record.encode = result at hfirst
      cases hfirst with
      | front hsplit hrest htook hrefused =>
          exact .within [] rfl hsplit hrest htook hrefused
      | @all t₁ htook =>
          dsimp only
          have hlater := ih t₁
          generalize t₁.writeRecords rest = result at hlater
          cases hlater with
          | all htook' => exact .all (htook.trans htook')
          | within before hrecords hsplit hrest htook' hrefused =>
              refine .within (record :: before) (by rw [← hrecords]; rfl) hsplit hrest ?_ hrefused
              rw [List.flatMap_cons, List.append_assoc]
              exact htook.trans htook'

/-- Records may be written in two portions. -/
theorem writeRecords_append (t : Target) (records more : List Record) :
    t.writeRecords (records ++ more) =
      match t.writeRecords records with
      | (.error failure, t) => (.error failure, t)
      | (.ok (), t) => t.writeRecords more := by
  induction records generalizing t with
  | nil => rfl
  | cons record rest ih =>
      rw [List.cons_append, writeRecords, writeRecords]
      split
      · rfl
      · exact ih _

end Target

/-! ## The signal -/

/-- **The signal is raised by a delivery that failed**, and by no other. -/
theorem Hub.stopped_collect {mail : Mail} {p : Nat} (hp : p < mail.boxes.length)
    (delivery : Delivery) :
    ((collect mail p delivery).box p).stopped
      = ((mail.box p).stopped || delivery == .failed) := by
  cases delivery with
  | written => simp [collect, Mail.box_modify, hp, Outbox.drain]
  | finished => simp [collect, Mail.box_modify, hp, Outbox.drain]
  | failed =>
      have hp' : p < (mail.modify p (·.drain)).boxes.length := by simpa [Mail.modify] using hp
      simp [collect, Mail.stop, Mail.box_modify, hp']

/-! ## Deliveries -/

/-- All is delivered: the target has taken every byte, and then it has been asked to shut down,
once. Nobody is told to stop, and nothing is reported unless the shutdown fails. -/
structure Delivered (peer : String) (records : List Record) (t : Target) (delivery : Delivery)
    (log : List LogEntry) (t' : Target) : Prop where
  taken : t'.taken = t.taken ++ records.flatMap Record.encode
  asked : t'.asked = t.asked + 1
  /-- Shutting down comes behind the last byte. -/
  last : ∃ full, t.Took (records.flatMap Record.encode) full ∧ t' = full.shutdown.2
  log : (t.stuck = none ∧ t'.shut = true ∧ log = [])
    ∨ ∃ cause line, t.stuck = some cause ∧ t'.shut = t.shut ∧ log = [line] ∧ line.level = .debug
      ∧ line.text = "Shutdown of " ++ peer ++ " failed: " ++ cause
  calm : ∀ mail p, p < mail.boxes.length →
    ((Hub.collect mail p delivery).box p).stopped = (mail.box p).stopped

/-- Where a delivery is broken off: inside a record, with a front of it taken and the rest refused
for some cause. -/
structure Break where
  before : List Record
  record : Record
  after : List Record
  front : Bytes
  rest : Bytes
  cause : String

/-- A delivery is broken off: all records before the break are taken, and a front of the one where
it is, which is not the whole. Nothing is tried after that, so the target has not been asked to shut
down. That is reported in one line, and whoever reads is told to stop. -/
structure BrokenOff (b : Break) (peer : String) (records : List Record) (t : Target)
    (delivery : Delivery) (log : List LogEntry) (t' : Target) : Prop where
  queued : records = b.before ++ b.record :: b.after
  encoded : b.record.encode = b.front ++ b.rest
  missing : b.rest ≠ []
  took : t.Took (b.before.flatMap Record.encode ++ b.front) t'
  /-- The last call was made for the rest, and brought nothing across. -/
  refused : ∃ t₁, t.Took (b.before.flatMap Record.encode ++ b.front) t₁
    ∧ t₁.Refuses b.rest b.cause t'
  unasked : t'.asked = t.asked ∧ t'.shut = t.shut
  log : ∃ line, log = [line] ∧ line.level = .warn
    ∧ line.text
      = "Failed to send " ++ b.record.kind.name ++ " record to " ++ peer ++ ": " ++ b.cause
  signal : ∀ mail p, p < mail.boxes.length →
    ((Hub.collect mail p delivery).box p).stopped = true

theorem Target.shutdown_cases (t : Target) :
    (t.stuck = none ∧ t.shutdown = (.ok (), { t with asked := t.asked + 1, shut := true }))
      ∨ ∃ cause, t.stuck = some cause
        ∧ t.shutdown = (.error cause, { t with asked := t.asked + 1 }) := by
  unfold shutdown
  cases t.stuck with
  | none => exact Or.inl ⟨rfl, rfl⟩
  | some cause => exact Or.inr ⟨cause, rfl, rfl⟩

/-- A target that has taken every byte is asked to shut down, and that is all. -/
theorem deliver_of_took (peer : String) {records : List Record} {t full : Target}
    (hwrite : t.writeRecords records = (.ok (), full))
    (htook : t.Took (records.flatMap Record.encode) full) :
    ∃ delivery log t', deliver peer records true t = (delivery, log, t')
      ∧ Delivered peer records t delivery log t' := by
  have hcalm : ∀ mail p, p < mail.boxes.length →
      ((Hub.collect mail p .finished).box p).stopped = (mail.box p).stopped := by
    intro mail p hp
    rw [Hub.stopped_collect hp]
    exact Bool.or_false _
  have hlast := htook
  obtain ⟨turn, hfull⟩ := htook
  have htaken : full.taken = t.taken ++ records.flatMap Record.encode := by rw [hfull]
  have hasked : full.asked = t.asked := by rw [hfull]
  have hstuck : full.stuck = t.stuck := by rw [hfull]
  have hshut : full.shut = t.shut := by rw [hfull]
  rw [deliver, hwrite]
  dsimp only
  rw [if_pos rfl]
  rcases full.shutdown_cases with ⟨hfree, hdown⟩ | ⟨cause, hfail, hdown⟩
  · rw [hdown]
    refine ⟨_, _, _, rfl, htaken, congrArg (· + 1) hasked, ⟨full, hlast, by rw [hdown]⟩,
      Or.inl ⟨hstuck.symm.trans hfree, rfl, rfl⟩, hcalm⟩
  · rw [hdown]
    refine ⟨_, _, _, rfl, htaken, congrArg (· + 1) hasked, ⟨full, hlast, by rw [hdown]⟩,
      Or.inr ⟨cause, _, hstuck.symm.trans hfail, hshut, rfl, rfl, rfl⟩, hcalm⟩

/-- A target that refuses the rest of a record is left alone. -/
theorem deliver_of_refused (b : Break) (peer : String) {t t₁ t' : Target}
    (hwrite : t.writeRecords (b.before ++ b.record :: b.after) = (.error (b.record, b.cause), t'))
    (hsplit : b.front ++ b.rest = b.record.encode) (hrest : b.rest ≠ [])
    (htook : t.Took (b.before.flatMap Record.encode ++ b.front) t₁)
    (hrefused : t₁.Refuses b.rest b.cause t') :
    ∃ delivery log t'',
      deliver peer (b.before ++ b.record :: b.after) true t = (delivery, log, t'')
        ∧ BrokenOff b peer (b.before ++ b.record :: b.after) t delivery log t'' := by
  have htook' := htook.trans hrefused.took
  rw [List.append_nil] at htook'
  have hunasked : t'.asked = t.asked ∧ t'.shut = t.shut := by
    obtain ⟨turn, rfl⟩ := htook'
    exact ⟨rfl, rfl⟩
  rw [deliver, hwrite]
  refine ⟨_, _, _, rfl, rfl, hsplit.symm, hrest, htook', ⟨t₁, htook, hrefused⟩, hunasked,
    ⟨_, rfl, rfl, rfl⟩, ?_⟩
  intro mail p hp
  rw [Hub.stopped_collect hp]
  exact Bool.or_true _

namespace BrokenOff

variable {b : Break} {peer : String} {records : List Record} {t t' : Target} {delivery : Delivery}
  {log : List LogEntry}

theorem all_eq (h : BrokenOff b peer records t delivery log t') :
    records.flatMap Record.encode
      = (b.before.flatMap Record.encode ++ b.front)
        ++ (b.rest ++ b.after.flatMap Record.encode) := by
  rw [h.queued, List.flatMap_append, List.flatMap_cons, h.encoded]
  simp only [List.append_assoc]

/-- What is missing at the end of a delivery that was broken off was not delivered. -/
theorem not_delivered (h : BrokenOff b peer records t delivery log t') :
    ¬ Delivered peer records t delivery log t' := by
  intro hall
  have hlength := congrArg List.length (hall.taken.symm.trans h.took.taken)
  have hpos := List.length_pos_iff.mpr h.missing
  rw [h.all_eq] at hlength
  simp only [List.length_append] at hlength
  omega

end BrokenOff

/-- Records may be queued in two portions. -/
theorem deliver_append (peer : String) (records more : List Record) (t : Target) :
    deliver peer (records ++ more) true t =
      match deliver peer records false t with
      | (.failed, log, t) => (.failed, log, t)
      | (_, _, t) => deliver peer more true t := by
  unfold deliver
  rw [Target.writeRecords_append]
  rcases t.writeRecords records with ⟨_ | _, t'⟩
  · rfl
  · rfl

/-- **What a target has taken is the front of what was queued for it, and it has all or is told
so.** Either every byte is taken, and then the target is asked to shut down; or it has refused the
rest of one record, and that record is reported and the reader stopped. It makes no difference to
that how many of the records were queued when the first of them was written. -/
theorem delivered_or_broken_off (peer : String) (records : List Record) (t : Target) :
    let (delivery, log, t') := deliver peer records true t
    Xor (Delivered peer records t delivery log t')
        (∃ b, BrokenOff b peer records t delivery log t')
      ∧ (∃ front, front <+: records.flatMap Record.encode ∧ t'.taken = t.taken ++ front)
      ∧ ∀ n, (delivery, log, t') =
          match deliver peer (records.take n) false t with
          | (.failed, log, t) => (.failed, log, t)
          | (_, _, t) => deliver peer (records.drop n) true t := by
  have hportions : ∀ n, deliver peer records true t =
      match deliver peer (records.take n) false t with
      | (.failed, log, t) => (.failed, log, t)
      | (_, _, t) => deliver peer (records.drop n) true t := by
    intro n
    rw [← deliver_append, List.take_append_drop]
  have hwrote := Target.wrote_writeRecords t records
  generalize hwrite : t.writeRecords records = result at hwrote
  cases hwrote with
  | all htook =>
      obtain ⟨delivery, log, t', hdeliver, hall⟩ := deliver_of_took peer hwrite htook
      rw [hdeliver] at hportions ⊢
      refine ⟨Or.inl ⟨hall, ?_⟩, ⟨_, List.prefix_rfl, hall.taken⟩, hportions⟩
      rintro ⟨b, hbroken⟩
      exact hbroken.not_delivered hall
  | @within before after record front rest cause t₁ t' hrecords hsplit hrest htook hrefused =>
      subst hrecords
      obtain ⟨delivery, log, t', hdeliver, hbroken⟩ :=
        deliver_of_refused ⟨before, record, after, front, rest, cause⟩ peer hwrite hsplit hrest
          htook hrefused
      rw [hdeliver] at hportions ⊢
      refine ⟨Or.inr ⟨⟨_, hbroken⟩, hbroken.not_delivered⟩, ?_, hportions⟩
      refine ⟨before.flatMap Record.encode ++ front, ?_, hbroken.took.taken⟩
      rw [hbroken.all_eq]
      exact List.prefix_append _ _

/-- A target for fourteen bytes: the first record fits exactly, and nothing of the second is
taken. -/
example :
    let (delivery, log, t) := deliver "bob" [.stdout "hi", .disconnect "al"] true
      { full := some (14, "boom"), plan := fun _ => some 5 }
    delivery = .failed ∧ log = [.sendFailed .disconnect "bob" "boom"]
      ∧ t.taken = (Record.stdout "hi").encode ∧ t.asked = 0 := by
  decide +kernel

end ChatRoom
