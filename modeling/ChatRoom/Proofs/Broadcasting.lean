import Mathlib.Data.List.Nodup
import ChatRoom.Proofs.PlainList

/-!
# Who is reached by a broadcast

Whatever has been asked of a roster, its members are the validated connections of a plain list, and
a walk over them comes to each of them once and in link order (`Listing.others`). So a broadcast
queues a record for each of them that something can reach, and for nobody else; one that nothing can
reach is passed over, and those behind it are reached all the same. `Reached` says what that means
for the outboxes: as many copies as there are members with that outbox.

That is one copy at most as long as no two connections have the same outbox. Linking must not bring
one that is in use, and then it stays so (`separate_run`).
-/

namespace ChatRoom

open Arena

/-! ## Members of a list -/

/-- Whether something that is sent to the connection would arrive in an outbox. -/
def Connection.reachable (c : Connection) (mail : Mail) : Bool :=
  match c.outbox with
  | some number => (mail.box number).receiving
  | none => false

namespace Listing

/-- The validated connections but for one, in link order. -/
def others (items : Listing) (except : Option Handle) : Listing :=
  items.filter fun item => some item.1 ≠ except ∧ item.2.stage = .validated

/-- The outboxes that the connections have. -/
def outboxes (items : Listing) : List Nat := items.filterMap (·.2.outbox)

/-- No two connections have the same outbox. -/
def Separate (items : Listing) : Prop := items.outboxes.Nodup

instance (items : Listing) : Decidable items.Separate := inferInstanceAs (Decidable (List.Nodup _))

theorem outboxes_cons (item : Handle × Connection) (items : Listing) :
    outboxes (item :: items) = item.2.outbox.toList ++ outboxes items := by
  unfold outboxes
  rw [List.filterMap_cons]
  cases item.2.outbox <;> rfl

theorem outboxes_append (items more : Listing) :
    outboxes (items ++ more) = outboxes items ++ outboxes more := List.filterMap_append

theorem mem_outboxes {items : Listing} {n : Nat} :
    n ∈ items.outboxes ↔ ∃ item ∈ items, item.2.outbox = some n := List.mem_filterMap

theorem Separate.sublist {items fewer : Listing} (h : items.Separate)
    (hfewer : List.Sublist fewer items) : fewer.Separate :=
  List.Nodup.sublist (hfewer.filterMap _) h

end Listing

namespace Roster

theorem members_eq_others (r : Roster) (except : Option Handle) :
    r.members except = Listing.others r.toList except := by
  unfold members Listing.others
  refine congrFun (congrArg List.filter ?_) _
  funext item
  obtain ⟨h, c⟩ := item
  rw [Bool.eq_iff_iff]
  simp [Connection.isValidated]

/-! ## Sending -/

/-- What a broadcast does: it counts those that can be reached, and an outbox that takes records has
one copy more for each of them that has it. -/
structure Reached (others : Listing) (mail : Mail) (record : Record) (result : Nat × Mail) :
    Prop where
  count : result.1 = others.countP (·.2.reachable mail)
  boxes : result.2.boxes.length = mail.boxes.length
  box : ∀ n, result.2.box n =
    { mail.box n with
      records := (mail.box n).records ++
        if (mail.box n).receiving then List.replicate (others.outboxes.count n) record else [] }

theorem fst_send (c : Connection) (mail : Mail) (record : Record) :
    (c.send mail record).1 = c.reachable mail := by
  unfold Connection.send Connection.reachable
  cases c.outbox with
  | none => rfl
  | some number =>
      dsimp only
      unfold Mail.post
      by_cases hr : (mail.box number).receiving = true
      · rw [if_pos hr, hr]
      · rw [if_neg hr, Bool.eq_false_iff.mpr hr]

/-- Sending lets no receiving end go, so who can be reached can still be reached. -/
theorem reachable_send (c other : Connection) (mail : Mail) (record : Record) :
    other.reachable (c.send mail record).2 = other.reachable mail := by
  unfold Connection.reachable
  cases other.outbox with
  | none => rfl
  | some number =>
      dsimp only
      rw [Connection.snd_send, Mail.box_postAll]

theorem fst_sendAll (record : Record) (others : Listing) (mail : Mail) :
    (sendAll record others mail).1 = others.countP (·.2.reachable mail) := by
  induction others generalizing mail with
  | nil => rfl
  | cons item rest ih =>
      have hrest : (sendAll record rest (item.2.send mail record).2).1
          = rest.countP (·.2.reachable mail) := by
        rw [ih]
        simp only [reachable_send]
      have hcons : (sendAll record (item :: rest) mail).1
          = if (item.2.send mail record).1
            then (sendAll record rest (item.2.send mail record).2).1 + 1
            else (sendAll record rest (item.2.send mail record).2).1 := rfl
      -- whether this one took the record or not, those behind it are walked over
      rw [hcons, hrest, fst_send, List.countP_cons]
      split <;> rfl

/-- An outbox is addressed once for each connection that has it. -/
theorem addressed_letters_all (record : Record) (others : Listing) (n : Nat) :
    addressed n (others.flatMap (·.2.letters record))
      = List.replicate (others.outboxes.count n) record := by
  induction others with
  | nil => rfl
  | cons item rest ih =>
      rw [List.flatMap_cons, addressed_append, ih, Listing.outboxes_cons, List.count_append,
        ← List.replicate_append_replicate]
      congr 1
      unfold Connection.letters
      cases item.2.outbox with
      | none => rfl
      | some number =>
          dsimp only [Option.toList_some]
          rw [addressed_cons, addressed_nil, List.count_singleton]
          by_cases hn : number = n
          · rw [if_pos hn, if_pos (beq_iff_eq.mpr hn)]
            rfl
          · rw [if_neg hn, if_neg (mt beq_iff_eq.mp hn)]
            rfl

/-- **A broadcast reaches every other member that can be reached**, and nobody else. -/
theorem reached_broadcast (r : Roster) (mail : Mail) (except : Option Handle) (record : Record) :
    Reached (Listing.others r.toList except) mail record (r.broadcast mail except record) := by
  rw [← members_eq_others]
  refine ⟨fst_sendAll record _ mail, ?_, ?_⟩
  · rw [snd_broadcast, Mail.length_boxes_postAll]
  · intro n
    rw [snd_broadcast, Mail.box_postAll, addressed_letters_all]

/-! ## One copy each -/

/-- A broadcast to members with outboxes of their own: each of these outboxes that takes records has
one more, every other is as it was, and the count is how many have changed. -/
structure OneEach (others : Listing) (mail : Mail) (record : Record) (result : Nat × Mail) :
    Prop where
  one : ∀ item ∈ others, ∀ n, item.2.outbox = some n → (mail.box n).receiving = true →
    result.2.box n = { mail.box n with records := (mail.box n).records ++ [record] }
  rest : ∀ n, (∀ item ∈ others, item.2.outbox = some n → (mail.box n).receiving = false) →
    result.2.box n = mail.box n
  count : result.1
    = ((List.range mail.boxes.length).filter fun n => result.2.box n ≠ mail.box n).length

theorem countP_reachable (others : Listing) (mail : Mail) :
    others.countP (·.2.reachable mail)
      = others.outboxes.countP fun n => (mail.box n).receiving := by
  unfold Listing.outboxes
  rw [List.countP_filterMap]
  refine List.countP_congr ?_
  intro item _
  unfold Connection.reachable
  cases item.2.outbox <;> rfl

/-- An outbox changes if it takes records and a member has it. -/
theorem Reached.changed_iff {others : Listing} {mail : Mail} {record : Record}
    {result : Nat × Mail} (hreached : Reached others mail record result) (n : Nat) :
    result.2.box n ≠ mail.box n ↔ (mail.box n).receiving = true ∧ n ∈ others.outboxes := by
  have hbox := hreached.box n
  constructor
  · intro hne
    by_contra hnot
    rcases not_and_or.mp hnot with hr | hm
    · rw [if_neg hr, List.append_nil] at hbox
      exact hne hbox
    · rw [List.count_eq_zero_of_not_mem hm, List.replicate_zero, ite_self, List.append_nil] at hbox
      exact hne hbox
  · rintro ⟨hr, hm⟩ he
    have hlength := congrArg (fun box => box.records.length) (hbox.symm.trans he)
    have hpos := List.count_pos_iff.mpr hm
    rw [if_pos hr] at hlength
    simp only [List.length_append, List.length_replicate] at hlength
    omega

theorem Reached.one_each {others : Listing} {mail : Mail} {record : Record}
    {result : Nat × Mail} (hreached : Reached others mail record result)
    (hseparate : others.Separate) : OneEach others mail record result where
  one := by
    intro item hitem n hn hr
    have hm := Listing.mem_outboxes.mpr ⟨item, hitem, hn⟩
    rw [hreached.box, if_pos hr, List.count_eq_one_of_mem hseparate hm, List.replicate_one]
  rest := by
    intro n hnone
    by_contra hne
    obtain ⟨hr, hm⟩ := (hreached.changed_iff n).mp hne
    obtain ⟨item, hitem, hn⟩ := Listing.mem_outboxes.mp hm
    rw [hnone item hitem hn] at hr
    exact Bool.noConfusion hr
  count := by
    rw [hreached.count, countP_reachable, List.countP_eq_length_filter]
    refine List.Perm.length_eq ?_
    refine (List.perm_ext_iff_of_nodup (hseparate.filter _) (List.nodup_range.filter _)).mpr ?_
    intro n
    rw [List.mem_filter, List.mem_filter, List.mem_range, decide_eq_true_iff,
      hreached.changed_iff]
    constructor
    · rintro ⟨hm, hr⟩
      exact ⟨Mail.lt_of_receiving hr, hr, hm⟩
    · rintro ⟨-, hr, hm⟩
      exact ⟨hm, hr⟩

/-! ## Outboxes of their own -/

/-- The request brings no outbox that a listed connection has. -/
def Edit.Apart (items : Listing) : Edit → Prop
  | .link c => ∀ n ∈ c.outbox, n ∉ items.outboxes
  | .change _ f => ∀ c, (f c).outbox = c.outbox
  | .unlink _ | .disconnect _ | .disconnectAll => True

/-- None of the requests brings an outbox that is in use when it is made. -/
def ApartRun (r : Roster) (mail : Mail) : List Edit → Prop
  | [] => True
  | e :: edits =>
    e.Apart r.toList ∧ ApartRun (r.edit mail e).2.1 (r.edit mail e).2.2 edits

theorem outboxes_change (h : Handle) {f : Connection → Connection}
    (hf : ∀ c, (f c).outbox = c.outbox) (items : Listing) :
    Listing.outboxes (change h f items) = items.outboxes := by
  unfold Listing.outboxes change
  rw [List.filterMap_map]
  refine List.filterMap_congr ?_
  intro item _
  dsimp only [Function.comp]
  split
  · exact hf item.2
  · rfl

/-- One request keeps the outboxes apart. -/
theorem separate_edit {items : Listing} (h : items.Separate) {e : Edit} (he : e.Apart items)
    (new : Handle) : (Listing.edit new items e).2.Separate := by
  cases e with
  | link c =>
      show (Listing.outboxes (items ++ [(new, c)])).Nodup
      rw [Listing.outboxes_append]
      refine List.Nodup.append h ?_ ?_
      · rw [Listing.outboxes_cons]
        cases c.outbox with
        | none => exact List.nodup_nil
        | some n => exact List.nodup_singleton n
      · intro n hold hnew
        obtain ⟨item, hitem, hn⟩ := Listing.mem_outboxes.mp hnew
        rw [List.mem_singleton.mp hitem] at hn
        exact he n hn hold
  | unlink h' => exact h.sublist List.filter_sublist
  | disconnect h' => exact h.sublist List.filter_sublist
  | disconnectAll => exact List.nodup_nil
  | change h' f =>
      show (Listing.outboxes (change h' f items)).Nodup
      rw [outboxes_change h' he]
      exact h

/-- Whatever is asked, the outboxes stay apart. -/
theorem separate_run {r : Roster} {items : Listing} (hr : r.Holds items) (mail : Mail)
    {edits : List Edit} (h : items.Separate) (hedits : ApartRun r mail edits) :
    Listing.Separate (r.run mail edits).2.1.toList := by
  induction edits generalizing r items mail with
  | nil =>
      show Listing.Separate r.toList
      rw [toList_of_holds hr]
      exact h
  | cons e edits ih =>
      obtain ⟨he, hrest⟩ := hedits
      rw [toList_of_holds hr] at he
      exact ih (edit_refines hr mail e).2 _ (separate_edit h he r.nextHandle) hrest

/-! ## Searching -/

/-- What is found is the first with the name, and nothing if nobody has it. -/
def FirstNamed (others : Listing) (name : String) : Option Handle → Prop
  | some h => ∃ before c after, others = before ++ (h, c) :: after ∧ c.name? = some name
    ∧ ∀ item ∈ before, item.2.name? ≠ some name
  | none => ∀ item ∈ others, item.2.name? ≠ some name

theorem firstNamed_findMember (r : Roster) (name : String) (except : Option Handle) :
    FirstNamed (Listing.others r.toList except) name (r.findMember name except) := by
  rw [← members_eq_others]
  unfold findMember
  cases hfound : (r.members except).find? fun item => item.2.name? == some name with
  | none =>
      intro item hitem hname
      exact List.find?_eq_none.mp hfound item hitem (beq_iff_eq.mpr hname)
  | some item =>
      obtain ⟨hname, before, after, hsplit, hnot⟩ := List.find?_eq_some_iff_append.mp hfound
      refine ⟨before, item.2, after, hsplit, beq_iff_eq.mp hname, ?_⟩
      intro other hother he
      have := hnot other hother
      rw [he, beq_self_eq_true] at this
      exact Bool.noConfusion this

/-! ## After any requests -/

/-- **Broadcasts and searches come to every other member, once and in link order.** This is so after
any requests, and for any handle that is left out, also one that finds nothing. The roster lists the
connections in the order in which they were linked; what is visited of them, who is found under a
name and which outboxes have a copy more is then a matter of that list. It is one copy each if no
request brought an outbox that was in use. -/
theorem broadcast_to_others (mail₀ : Mail) (edits : List Edit) :
    let r := (run {} mail₀ edits).2.1
    Listing.Runs [] edits (run {} mail₀ edits).1 r.toList ∧ (r.toList.map (·.1)).Nodup
      ∧ ∀ except,
        let others := Listing.others r.toList except
        (∀ p, r.membersWhere except p = others.filter fun item => p item.2)
          ∧ (∀ name, FirstNamed others name (r.findMember name except))
          ∧ (∀ mail record, Reached others mail record (r.broadcast mail except record))
          ∧ (ApartRun {} mail₀ edits → ∀ mail record,
              OneEach others mail record (r.broadcast mail except record)) := by
  obtain ⟨items, hr, hruns⟩ := runs_of_holds holds_empty mail₀ edits
  rw [← toList_of_holds hr] at hruns
  refine ⟨hruns, ?_, ?_⟩
  · rw [toList_of_holds hr]
    exact handles_nodup hr
  · intro except
    refine ⟨?_, fun name => firstNamed_findMember _ name except,
      fun mail record => reached_broadcast _ mail except record, ?_⟩
    · intro p
      rw [← members_eq_others]
      rfl
    · intro hapart mail record
      have hall := separate_run holds_empty mail₀ List.nodup_nil hapart
      exact (reached_broadcast _ mail except record).one_each (hall.sublist List.filter_sublist)

/-- Three peers and a name, and the first of them goes and comes back. The second is never
validated. -/
def company : List Edit :=
  [.link ((Connection.remote none 0).present ⟨"ann", .current⟩).validate,
    .link ((Connection.remote none 1).present ⟨"bob", .current⟩),
    .link (.named ⟨"cleo", .current⟩),
    .link ((Connection.remote none 2).present ⟨"dan", .current⟩).validate,
    .unlink ⟨0, 0⟩,
    .link ((Connection.remote none 0).present ⟨"ann", .current⟩).validate]

/-- Nothing reaches `cleo` or `dan`, whose receiving end is gone, but `ann` stands behind them and
is sent her copy: the handle that is left out is the one she had before. -/
theorem broadcast_to_others_behind :
    let r := (run {} {} company).2.1
    let mail : Mail := { boxes := [{}, {}, { receiving := false }] }
    let result := r.broadcast mail (some ⟨0, 0⟩) (.stdout "hello")
    ApartRun {} {} company
      ∧ (Listing.others r.toList (some ⟨0, 0⟩)).map (·.1) = [⟨2, 0⟩, ⟨3, 0⟩, ⟨0, 1⟩]
      ∧ result.1 = 1 ∧ result.2.box 0 = { records := [.stdout "hello"] } ∧ result.2.box 1 = {}
      ∧ result.2.box 2 = { receiving := false }
      ∧ r.findMember "ann" (some ⟨0, 0⟩) = some ⟨0, 1⟩ := by
  intro r mail result
  have hapart : ApartRun {} {} company := by
    refine ⟨?_, ?_, ?_, ?_, ?_, ?_, trivial⟩ <;> unfold Edit.Apart <;> decide +kernel
  obtain ⟨-, -, hothers⟩ := broadcast_to_others {} company
  obtain ⟨-, -, hreached, hone⟩ := hothers (some ⟨0, 0⟩)
  have hone' := hone hapart mail (.stdout "hello")
  have hann : (⟨0, 1⟩, ((Connection.remote none 0).present ⟨"ann", .current⟩).validate)
      ∈ Listing.others r.toList (some ⟨0, 0⟩) := by decide +kernel
  refine ⟨hapart, by decide +kernel, ?_, ?_, ?_, ?_, by decide +kernel⟩
  · rw [(hreached mail (.stdout "hello")).count]
    decide +kernel
  · exact hone'.one _ hann 0 rfl rfl
  · exact hone'.rest 1 (by decide +kernel)
  · exact hone'.rest 2 (by decide +kernel)

end Roster

end ChatRoom
