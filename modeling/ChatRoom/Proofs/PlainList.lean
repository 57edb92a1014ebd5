import Mathlib.Data.List.Induction
import ChatRoom.Proofs.ArenaOrder
import ChatRoom.Proofs.Posting

/-!
# A roster is a plain list

Behind slots, generations and neighbours there is nothing but a list of connections under handles.
`Listing.edit` says what each request does to such a list, and `run_refines` that the roster does
the same, request after request, with the same answers: also where a handle is stale, was given out
by another roster or was never given out, and where a connection is linked again that was taken out
here or elsewhere.

The handle under which a connection is linked is the roster's own choice. All that the list asks of
it is that it is not listed yet.

What the roster does to its slots for that shows in `Threaded`: from the head along `next` and from
the tail along `prev` one comes through the same slots, in opposite orders, and these are the
occupied ones.
-/

namespace ChatRoom

open Arena

namespace Arena

variable {α : Type}

/-! ## What can be seen of a list -/

/-- The answers that an arena gives are those of a list. -/
structure Answers (a : Arena α) (items : List (Handle × α)) : Prop where
  /-- No handle is listed twice, so what is listed with one is one value. -/
  apart : (items.map (·.1)).Nodup
  get : ∀ h, a.get? h = items.lookup h
  /-- A walk ends behind the last value, however many steps it may have. -/
  walk : ∀ steps, items.length ≤ steps → a.walk steps a.head = items
  toList : a.toList = items
  count : a.count = items.length
  empty : a.count = 0 ↔ items = []

/-- A handle finds what is listed with it. -/
theorem lookup_of_holds {a : Arena α} {items : List (Handle × α)} (ha : Holds a items)
    (h : Handle) : a.get? h = items.lookup h := by
  cases hl : items.lookup h with
  | none =>
      refine (get?_eq_none_iff ha).mpr ?_
      intro hm
      obtain ⟨item, hitem, rfl⟩ := List.mem_map.mp hm
      exact absurd (List.lookup_eq_none_iff.mp hl item hitem) (by simp)
  | some v =>
      obtain ⟨before, after, he, -⟩ := List.lookup_eq_some_iff.mp hl
      exact (get?_eq_some_iff ha).mpr (he ▸ List.mem_append_right _ List.mem_cons_self)

theorem answers_of_holds {a : Arena α} {items : List (Handle × α)} (ha : Holds a items) :
    a.Answers items := by
  refine ⟨handles_nodup ha, lookup_of_holds ha, ?_, toList_of_holds ha, ha.count, ?_⟩
  · intro steps hle
    rw [ha.head]
    exact walk_of_holds ha items [] steps rfl hle
  · rw [ha.count, List.length_eq_zero_iff]

/-! ## The thread through the slots -/

/-- Going on from a slot by `step` leads through these slots, and ends behind the last of them. -/
inductive Trail (a : Arena α) (step : Cell α → Option Nat) : Option Nat → List Nat → Prop where
  | ends : Trail a step none []
  | goes {i : Nat} {cell : Cell α} {slots : List Nat} (hcell : a.cell? i = some cell)
      (later : Trail a step (step cell) slots) : Trail a step (some i) (i :: slots)

/-- The occupied slots hang on one thread, and the others are free. -/
structure Threaded (a : Arena α) : Prop where
  thread : ∃ slots, a.Trail (·.next) a.head slots ∧ a.Trail (·.prev) a.tail slots.reverse
    ∧ slots.Nodup ∧ ∀ i, i ∈ slots ↔ (a.cell? i).isSome
  free : ∀ i, i ∈ a.free ↔ ∃ g, a.slots[i]? = some ⟨g, none⟩
  free_nodup : a.free.Nodup

theorem cell?_of_holds {a : Arena α} {before after : List (Handle × α)} {h : Handle} {v : α}
    (ha : Holds a (before ++ (h, v) :: after)) :
    a.cell? h.index = some ⟨v, slotOf before.getLast?, slotOf after.head?⟩ := by
  rw [cell?, ha.cells before h v after rfl]
  rfl

theorem trail_next {a : Arena α} (before after : List (Handle × α))
    (ha : Holds a (before ++ after)) :
    a.Trail (·.next) (slotOf after.head?) (after.map (·.1.index)) := by
  induction after generalizing before with
  | nil => exact .ends
  | cons item rest ih =>
      obtain ⟨h, v⟩ := item
      have hrest := ih (before ++ [(h, v)]) (by simpa using ha)
      exact .goes (cell?_of_holds ha) hrest

theorem trail_prev {a : Arena α} (before after : List (Handle × α))
    (ha : Holds a (before ++ after)) :
    a.Trail (·.prev) (slotOf before.getLast?) (before.map (·.1.index)).reverse := by
  -- the same walk from the other end, so the induction takes values off there
  induction before using List.reverseRecOn generalizing after with
  | nil => exact .ends
  | append_singleton rest item ih =>
      obtain ⟨h, v⟩ := item
      rw [List.append_assoc, List.singleton_append] at ha
      rw [List.getLast?_concat, List.map_append, List.reverse_append]
      exact .goes (cell?_of_holds ha) (ih ((h, v) :: after) ha)

theorem isSome_cell?_iff {a : Arena α} {items : List (Handle × α)} (ha : Holds a items) (i : Nat) :
    i ∈ items.map (·.1.index) ↔ (a.cell? i).isSome := by
  constructor
  · intro hm
    obtain ⟨⟨h, v⟩, hitem, rfl⟩ := List.mem_map.mp hm
    obtain ⟨prev, next, hs⟩ := lookup_of_mem ha hitem
    rw [cell?, hs]
    rfl
  · intro hsome
    obtain ⟨cell, hcell⟩ := Option.isSome_iff_exists.mp hsome
    obtain ⟨slot, hslot, hc⟩ := Option.bind_eq_some_iff.mp hcell
    have hm := ha.occupied i slot.generation cell (by rw [hslot, ← hc])
    exact List.mem_map.mpr ⟨_, hm, rfl⟩

theorem threaded_of_holds {a : Arena α} {items : List (Handle × α)} (ha : Holds a items) :
    a.Threaded := by
  refine ⟨⟨items.map (·.1.index), ?_, ?_, ha.nodup, isSome_cell?_iff ha⟩, ha.vacant, ha.free_nodup⟩
  · rw [ha.head]
    exact trail_next [] items ha
  · rw [ha.tail]
    exact trail_prev items [] (by rwa [List.append_nil])

end Arena

/-! ## Requests -/

namespace Roster

/-- What may be asked of a roster. Handles and connections may come from anywhere. -/
inductive Edit where
  | link (c : Connection)
  | unlink (h : Handle)
  | disconnect (h : Handle)
  | disconnectAll
  /-- Changes the connection that a handle finds, where it stands. -/
  | change (h : Handle) (f : Connection → Connection)

inductive Reply where
  | linked (h : Handle)
  | unlinked (c : Option Connection)
  | disconnected (departure : Option Departure)
  | allDisconnected (count : Nat)
  | found (c : Option Connection)
  deriving DecidableEq, Repr

/-- Does what is asked. If there is nothing to take out, nothing changes. -/
def edit (r : Roster) (mail : Mail) : Edit → Reply × Roster × Mail
  | .link c =>
    let (h, r) := r.link c
    (.linked h, r, mail)
  | .unlink h =>
    match r.unlink h with
    | some (c, r) => (.unlinked (some c), r, mail)
    | none => (.unlinked none, r, mail)
  | .disconnect h =>
    match r.disconnect mail h with
    | some (departure, r, mail) => (.disconnected (some departure), r, mail)
    | none => (.disconnected none, r, mail)
  | .disconnectAll =>
    let (count, r, mail) := r.disconnectAll mail
    (.allDisconnected count, r, mail)
  | .change h f => (.found (r.get? h), r.modify h f, mail)

/-- The answers to some requests, and the roster and the mail after them. -/
def run (r : Roster) (mail : Mail) : List Edit → List Reply × Roster × Mail
  | [] => ([], r, mail)
  | e :: edits =>
    let (reply, r, mail) := r.edit mail e
    let (replies, r, mail) := run r mail edits
    (reply :: replies, r, mail)

end Roster

/-- Connections under handles, the one that was linked last at the end. -/
abbrev Listing := List (Handle × Connection)

namespace Listing

/-- What a request does to a plain list, when `new` is the handle for what it links. -/
def edit (new : Handle) (items : Listing) : Roster.Edit → Roster.Reply × Listing
  | .link c => (.linked new, items ++ [(new, c)])
  | .unlink h => (.unlinked (items.lookup h), without h items)
  | .disconnect h => (.disconnected ((items.lookup h).map (·.departure)), without h items)
  | .disconnectAll => (.allDisconnected items.length, [])
  | .change h f => (.found (items.lookup h), Arena.change h f items)

/-- Some requests, one after the other, lead from one list to another with these answers. -/
inductive Runs : Listing → List Roster.Edit → List Roster.Reply → Listing → Prop where
  | done {items : Listing} : Runs items [] [] items
  | step {items items' : Listing} {e : Roster.Edit} {edits : List Roster.Edit}
      {replies : List Roster.Reply} (new : Handle) (hnew : new ∉ items.map (·.1))
      (later : Runs (edit new items e).2 edits replies items') :
      Runs items (e :: edits) ((edit new items e).1 :: replies) items'

end Listing

namespace Roster

theorem without_of_not_mem {items : Listing} {h : Handle} (hm : h ∉ items.map (·.1)) :
    without h items = items := by
  refine List.filter_eq_self.mpr ?_
  intro item hitem
  refine decide_eq_true ?_
  intro he
  exact hm (List.mem_map.mpr ⟨item, hitem, he⟩)

theorem nextHandle_not_listed {r : Roster} {items : Listing} (hr : r.Holds items) :
    r.nextHandle ∉ items.map (·.1) := by
  intro hm
  obtain ⟨item, hitem, he⟩ := List.mem_map.mp hm
  exact index_ne_nextSlot hr hitem (congrArg Handle.index he)

/-- Unlinking takes out what a handle finds, and nothing if it finds nothing. -/
theorem unlink_of_lookup {r : Roster} {items : Listing} (hr : r.Holds items) (h : Handle) :
    (items.lookup h = none ∧ r.unlink h = none ∧ without h items = items)
      ∨ ∃ c r', items.lookup h = some c ∧ r.unlink h = some (c, r')
        ∧ r'.Holds (without h items) := by
  have hget := lookup_of_holds hr h
  cases hl : items.lookup h with
  | none =>
      have hm := (get?_eq_none_iff hr).mp (hget.trans hl)
      exact Or.inl ⟨rfl, unlink_of_not_mem hr hm, without_of_not_mem hm⟩
  | some c =>
      obtain ⟨r', hu, hr'⟩ := unlink_of_mem hr ((get?_eq_some_iff hr).mp (hget.trans hl))
      exact Or.inr ⟨c, r', rfl, hu, hr'⟩

/-- Taking out all that is listed, one after the other, leaves nothing, and ends every outbox that
was listed. -/
theorem disconnectEach_of_listed (items : Listing) {r : Roster} (hr : r.Holds items)
    (mail : Mail) :
    (disconnectEach (items.map (·.1)) r mail).1 = items.length
      ∧ (disconnectEach (items.map (·.1)) r mail).2.1.Holds []
      ∧ (disconnectEach (items.map (·.1)) r mail).2.2
          = mail.endAll (items.flatMap (·.2.outbox.toList)) := by
  -- the handles were listed before the first was taken out, and each is still listed at its turn
  induction items generalizing r mail with
  | nil => exact ⟨rfl, hr, rfl⟩
  | cons item rest ih =>
      obtain ⟨h, c⟩ := item
      have hfirst : r.Holds ([] ++ (h, c) :: rest) := hr
      obtain ⟨r', hu, hr'⟩ := unlink_of_holds hfirst
      have hd : r.disconnect mail h = some (c.departure, r', (c.close mail).2) := by
        rw [disconnect, hu]
        rfl
      obtain ⟨hcount, hleft, hmail⟩ := ih hr' (c.close mail).2
      rw [List.map_cons, disconnectEach, hd, List.flatMap_cons, Mail.endAll_append,
        ← Connection.snd_close]
      exact ⟨congrArg (· + 1) hcount, hleft, hmail⟩

/-- **Each request does to the roster what it does to the list**, and is answered alike. -/
theorem edit_refines {r : Roster} {items : Listing} (hr : r.Holds items) (mail : Mail) (e : Edit) :
    (r.edit mail e).1 = (Listing.edit r.nextHandle items e).1
      ∧ (r.edit mail e).2.1.Holds (Listing.edit r.nextHandle items e).2 := by
  cases e with
  | link c =>
      refine ⟨?_, holds_link hr c⟩
      show Reply.linked (r.link c).1 = _
      rw [fst_link hr]
      rfl
  | unlink h =>
      rw [edit, Listing.edit]
      rcases unlink_of_lookup hr h with ⟨hl, hu, hsame⟩ | ⟨c, r', hl, hu, hr'⟩
      · rw [hl, hu, hsame]
        exact ⟨rfl, hr⟩
      · rw [hl, hu]
        exact ⟨rfl, hr'⟩
  | disconnect h =>
      rw [edit, Listing.edit, disconnect]
      rcases unlink_of_lookup hr h with ⟨hl, hu, hsame⟩ | ⟨c, r', hl, hu, hr'⟩
      · rw [hl, hu, hsame]
        exact ⟨rfl, hr⟩
      · rw [hl, hu]
        exact ⟨rfl, hr'⟩
  | disconnectAll =>
      have hhandles : r.toList.map (·.1) = items.map (·.1) := by rw [toList_of_holds hr]
      obtain ⟨hcount, hleft, -⟩ := disconnectEach_of_listed items hr mail
      rw [← hhandles] at hcount hleft
      exact ⟨congrArg Reply.allDisconnected hcount, hleft⟩
  | change h f =>
      refine ⟨?_, holds_modify hr h f⟩
      show Reply.found (r.get? h) = _
      rw [lookup_of_holds hr]
      rfl

theorem runs_of_holds {r : Roster} {items : Listing} (hr : r.Holds items) (mail : Mail)
    (edits : List Edit) :
    ∃ items', (r.run mail edits).2.1.Holds items'
      ∧ Listing.Runs items edits (r.run mail edits).1 items' := by
  induction edits generalizing r items mail with
  | nil => exact ⟨items, hr, .done⟩
  | cons e edits ih =>
      obtain ⟨hreply, hr'⟩ := edit_refines hr mail e
      obtain ⟨items', hend, hruns⟩ := ih hr' (r.edit mail e).2.2
      have hstep := Listing.Runs.step r.nextHandle (nextHandle_not_listed hr) hruns
      rw [← hreply] at hstep
      exact ⟨items', hend, hstep⟩

/-- **A roster is a plain list, whatever is asked of it.** From the empty roster on, any requests
lead to the list that they lead to without slots, and each is answered as the list would answer it.
The roster that is left answers as that list, and its occupied slots hang on one thread. -/
theorem run_refines (mail : Mail) (edits : List Edit) :
    let (replies, r, _) := run {} mail edits
    Listing.Runs [] edits replies r.toList ∧ r.Answers r.toList ∧ r.Threaded := by
  obtain ⟨items, hr, hruns⟩ := runs_of_holds holds_empty mail edits
  have hlist := toList_of_holds hr
  refine ⟨?_, ?_, threaded_of_holds hr⟩
  · rw [hlist]
    exact hruns
  · rw [hlist]
    exact answers_of_holds hr

end Roster

end ChatRoom
