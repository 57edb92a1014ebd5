import ChatRoom.Proofs.Lobby
import ChatRoom.Proofs.PlainList
import ChatRoom.Proofs.Situations

/-!
# Handles that are out of use

A handle outlives what it was given out for. This module follows an arena from its beginning, keeps
the books of the handles that it has given out and of those whose values are gone, and shows that
the books never mix them up: no handle is given out twice, and one whose value is gone finds nothing
ever after, also when its slot has long been taken by another.

Behind it is one count. The generation of a slot is the number of times that the slot was vacated,
so a handle taken back is behind its slot for good. The count is a machine word, and what is shown
holds of every run in which no slot is vacated as often as the word can count; how often other slots
were vacated makes no difference.

A server's requests are such a run of its roster, so whoever comes late with the handle of a
connection that was taken down changes nothing at all.
-/

namespace ChatRoom

namespace Arena

variable {α : Type}

/-- The handles that find something in one arena and nothing in the other. -/
def lost (a a' : Arena α) : List Handle :=
  (a.toList.map (·.1)).filter fun h => (a'.get? h).isNone

/-- How often a slot was vacated, if these handles were taken back. -/
def turns (taken : List Handle) (slot : Nat) : Nat := (taken.map (·.index)).count slot

/-- No slot was vacated as often as a generation can count. -/
def Countable (taken : List Handle) : Prop := ∀ slot, turns taken slot < UInt64.size

/-- The generation of a slot, if there is one. -/
def generationAt (a : Arena α) (i : Nat) : Option UInt64 := a.slots[i]?.map (·.generation)

/-- The books are right about an arena. -/
structure Kept (a : Arena α) (given taken : List Handle) : Prop where
  issued : Issued a given
  /-- A slot's generation is the number of times that it was vacated. -/
  counted : ∀ i g, a.generationAt i = some g → g.toNat = turns taken i
  /-- Handles taken back are behind their slots. -/
  behind : ∀ h ∈ taken, ∃ g, a.generationAt h.index = some g ∧ h.generation.toNat < g.toNat

/-! ## Counting -/

theorem turns_append (taken more : List Handle) (slot : Nat) :
    turns (taken ++ more) slot = turns taken slot + turns more slot := by
  rw [turns, List.map_append, List.count_append]
  rfl

theorem turns_singleton (h : Handle) (slot : Nat) :
    turns [h] slot = if h.index = slot then 1 else 0 := by
  rw [turns, List.map_singleton, List.count_singleton]
  by_cases hi : h.index = slot
  · simp [hi]
  · simp [hi]

theorem turns_le_length (taken : List Handle) (slot : Nat) : turns taken slot ≤ taken.length := by
  have := List.count_le_length (a := slot) (l := taken.map (·.index))
  rwa [List.length_map] at this

theorem turns_perm {taken taken' : List Handle} (hp : taken.Perm taken') (slot : Nat) :
    turns taken slot = turns taken' slot := by
  unfold turns
  exact (hp.map Handle.index).count_eq slot

theorem Countable.of_append {taken more : List Handle} (h : Countable (taken ++ more)) :
    Countable taken := by
  intro slot
  have := h slot
  rw [turns_append] at this
  omega

theorem Kept.of_perm {a : Arena α} {given taken taken' : List Handle} (h : Kept a given taken)
    (hp : taken.Perm taken') : Kept a given taken' where
  issued := h.issued
  counted := by
    intro i g hg
    rw [← turns_perm hp]
    exact h.counted i g hg
  behind := fun k hk => h.behind k (hp.mem_iff.mpr hk)

/-! ## One operation -/

theorem generationAt_of_mapCell {a a' : Arena α} {i : Nat} {f : Slot α → Slot α}
    (hf : ∀ slot, (f slot).generation = slot.generation)
    (hslots : a'.slots[i]? = a.slots[i]?.map f) : a'.generationAt i = a.generationAt i := by
  rw [generationAt, hslots, Option.map_map]
  exact congrArg (Option.map · a.slots[i]?) (funext hf)

theorem generationAt_modify (a : Arena α) (h : Handle) (f : α → α) (i : Nat) :
    (a.modify h f).generationAt i = a.generationAt i := by
  refine generationAt_of_mapCell ?_ (slots_modify a h f i)
  intro slot
  split <;> rfl

theorem generationAt_link {a : Arena α} {items : List (Handle × α)} (ha : Holds a items) (v : α)
    (i : Nat) : (a.link v).2.generationAt i
      = if a.nextSlot = i then some a.nextHandle.generation else a.generationAt i := by
  by_cases hi : a.nextSlot = i
  · subst hi
    rw [if_pos rfl, generationAt, slots_link_self ha]
    rfl
  · rw [if_neg hi]
    refine generationAt_of_mapCell ?_ (slots_link_ne ha v hi)
    intro slot
    split <;> rfl

theorem generationAt_unlink {a a' : Arena α} {h : Handle} {v : α} (hu : a.unlink h = some (v, a'))
    (i : Nat) : a.generationAt h.index = some h.generation ∧ a'.generationAt i
      = if h.index = i then some (h.generation + 1) else a.generationAt i := by
  obtain ⟨cell, hs, -, rfl⟩ := unlink_eq_some hu
  refine ⟨by rw [generationAt, hs]; rfl, ?_⟩
  by_cases hi : h.index = i
  · subst hi
    rw [if_pos rfl, generationAt, slots_cut_self hs]
    rfl
  · rw [if_neg hi]
    obtain ⟨f, -, hslots⟩ := slots_cut_ne hi cell
    have hsame : ∀ slot : Slot α, (slot.mapCell f).generation = slot.generation := fun _ => rfl
    exact generationAt_of_mapCell hsame hslots

theorem kept_empty : Kept ({} : Arena α) [] [] where
  issued := issued_empty
  counted := by intro i g hg; simp [generationAt] at hg
  behind := by intro h hm; simp at hm

theorem kept_modify {a : Arena α} {given taken : List Handle} (hk : Kept a given taken)
    (h : Handle) (f : α → α) : Kept (a.modify h f) given taken where
  issued := issued_modify hk.issued h f
  counted := by
    intro i g hg
    rw [generationAt_modify] at hg
    exact hk.counted i g hg
  behind := by
    intro k hm
    rw [generationAt_modify]
    exact hk.behind k hm

/-- A slot that was vacated has a generation, and it is that of the next handle for it. A new slot
begins with the first. -/
theorem generation_nextHandle {a : Arena α} {items : List (Handle × α)} (ha : Holds a items) :
    (a.generationAt a.nextSlot = none ∧ a.nextHandle.generation = 0)
      ∨ a.generationAt a.nextSlot = some a.nextHandle.generation := by
  rw [generationAt, nextHandle]
  rcases nextSlot_vacant ha with hn | ⟨g, hn⟩
  · rw [hn]
    exact Or.inl ⟨rfl, rfl⟩
  · rw [hn]
    exact Or.inr rfl

/-- No handle was taken back for a slot that is not there. -/
theorem Kept.turns_eq_zero {a : Arena α} {given taken : List Handle} (hk : Kept a given taken)
    {i : Nat} (hnone : a.generationAt i = none) : turns taken i = 0 := by
  refine List.count_eq_zero.mpr ?_
  intro hm
  obtain ⟨k, hkt, rfl⟩ := List.mem_map.mp hm
  obtain ⟨g, hg, -⟩ := hk.behind k hkt
  rw [hnone] at hg
  exact absurd hg (by simp)

theorem kept_link {a : Arena α} {items : List (Handle × α)} (ha : Holds a items)
    {given taken : List Handle} (hk : Kept a given taken) (v : α) :
    Kept (a.link v).2 (given ++ [a.nextHandle]) taken := by
  refine ⟨issued_link ha hk.issued v, ?_, ?_⟩
  · intro i g hg
    rw [generationAt_link ha] at hg
    by_cases hi : a.nextSlot = i
    · subst hi
      rw [if_pos rfl] at hg
      obtain rfl := Option.some.inj hg
      rcases generation_nextHandle ha with ⟨hnone, hzero⟩ | hlevel
      · rw [hk.turns_eq_zero hnone, hzero]
        rfl
      · exact hk.counted _ _ hlevel
    · rw [if_neg hi] at hg
      exact hk.counted i g hg
  · intro k hm
    obtain ⟨g, hg, hlt⟩ := hk.behind k hm
    rw [generationAt_link ha]
    by_cases hi : a.nextSlot = k.index
    · rw [if_pos hi]
      rw [← hi] at hg
      rcases generation_nextHandle ha with ⟨hnone, -⟩ | hlevel
      · rw [hnone] at hg
        exact absurd hg (by simp)
      · obtain rfl := Option.some.inj (hlevel.symm.trans hg)
        exact ⟨_, rfl, hlt⟩
    · rw [if_neg hi]
      exact ⟨g, hg, hlt⟩

theorem kept_unlink {a a' : Arena α} {given taken : List Handle} (hk : Kept a given taken)
    {h : Handle} {v : α} (hu : a.unlink h = some (v, a')) (hroom : Countable (taken ++ [h])) :
    Kept a' given (taken ++ [h]) := by
  have hgen := hk.counted h.index h.generation (generationAt_unlink hu 0).1
  -- the slot has been vacated as often as its generation says, and can be counted once more
  have hfits : h.generation.toNat + 1 < UInt64.size := by
    have := hroom h.index
    rw [turns_append, turns_singleton, if_pos rfl] at this
    omega
  have hnext := toNat_succ_generation hfits
  refine ⟨issued_unlink hk.issued hu hfits, ?_, ?_⟩
  · intro i g hg
    rw [(generationAt_unlink hu i).2] at hg
    rw [turns_append, turns_singleton]
    by_cases hi : h.index = i
    · rw [if_pos hi] at hg ⊢
      obtain rfl := Option.some.inj hg
      rw [hnext, hgen, hi]
    · rw [if_neg hi] at hg ⊢
      exact hk.counted i g hg
  · intro k hm
    rw [(generationAt_unlink hu k.index).2]
    rcases List.mem_append.mp hm with hold | hnew
    · obtain ⟨g, hg, hlt⟩ := hk.behind k hold
      by_cases hi : h.index = k.index
      · rw [if_pos hi]
        refine ⟨_, rfl, ?_⟩
        rw [← hi, (generationAt_unlink hu 0).1] at hg
        obtain rfl := Option.some.inj hg
        omega
      · rw [if_neg hi]
        exact ⟨g, hg, hlt⟩
    · obtain rfl := List.mem_singleton.mp hnew
      rw [if_pos rfl]
      exact ⟨_, rfl, by omega⟩

/-! ## Any number of operations -/

/-- What changing values and taking some out does to the books. -/
theorem kept_thinned {a a' : Arena α} {items : List (Handle × α)} (ha : Holds a items)
    (hthin : Thinned a a') :
    ∃ items' gone, Holds a' items' ∧ (items.map (·.1)).Perm (gone ++ items'.map (·.1))
      ∧ ∀ given taken, Kept a given taken → Countable (taken ++ gone) →
          Kept a' given (taken ++ gone) := by
  induction hthin with
  | refl =>
      refine ⟨items, [], ha, List.Perm.refl _, ?_⟩
      intro given taken hk _
      rwa [List.append_nil]
  | modify _ h f ih =>
      obtain ⟨items', gone, ha', hperm, hkeep⟩ := ih
      have hhandles : (change h f items').map (·.1) = items'.map (·.1) := by
        rw [change, List.map_map]
        exact List.map_congr_left fun item _ => fst_change h f item
      refine ⟨change h f items', gone, holds_modify ha' h f, by rwa [hhandles], ?_⟩
      intro given taken hk hroom
      exact kept_modify (hkeep given taken hk hroom) h f
  | @unlink a₁ a₂ h v _ hu ih =>
      obtain ⟨items', gone, ha', hperm, hkeep⟩ := ih
      have hm : (h, v) ∈ items' := by
        obtain ⟨cell, hs, rfl, -⟩ := unlink_eq_some hu
        exact ha'.occupied h.index h.generation cell hs
      obtain ⟨before, after, rfl⟩ := List.append_of_mem hm
      obtain ⟨a₃, hu', ha₃⟩ := unlink_of_holds ha'
      obtain rfl : a₃ = a₂ := by
        rw [hu, Option.some.injEq, Prod.mk.injEq] at hu'
        exact hu'.2.symm
      refine ⟨before ++ after, gone ++ [h], ha₃, ?_, ?_⟩
      · refine hperm.trans ?_
        rw [List.map_append, List.map_cons, List.map_append, List.append_assoc,
          List.singleton_append]
        exact List.Perm.append_left gone List.perm_middle
      · intro given taken hk hroom
        rw [← List.append_assoc] at hroom ⊢
        exact kept_unlink (hkeep given taken hk hroom.of_append) hu hroom

/-- What is lost is what the list has become shorter by. -/
theorem lost_perm {a a' : Arena α} {items items' : List (Handle × α)} (ha : Holds a items)
    (ha' : Holds a' items') {gone : List Handle}
    (hperm : (items.map (·.1)).Perm (gone ++ items'.map (·.1))) : (a.lost a').Perm gone := by
  have hnodup : (gone ++ items'.map (·.1)).Nodup := hperm.nodup_iff.mp (handles_nodup ha)
  have hleft : ∀ h ∈ items'.map (·.1), (a'.get? h).isNone = false := by
    intro h hm
    cases hg : a'.get? h with
    | none => exact absurd hm ((get?_eq_none_iff ha').mp hg)
    | some v => rfl
  have hgone : ∀ h ∈ gone, (a'.get? h).isNone = true := by
    intro h hm
    rw [Option.isNone_iff_eq_none, get?_eq_none_iff ha']
    intro hm'
    exact (List.nodup_append.mp hnodup).2.2 h hm h hm' rfl
  rw [lost, toList_of_holds ha]
  refine (hperm.filter _).trans (List.Perm.of_eq ?_)
  rw [List.filter_append, List.filter_eq_self.mpr hgone,
    List.filter_eq_nil_iff.mpr fun h hm => by simp [hleft h hm], List.append_nil]

/-- Nothing is lost when something is linked. -/
theorem lost_link {a : Arena α} {items : List (Handle × α)} (ha : Holds a items) (v : α) :
    a.lost (a.link v).2 = [] := by
  rw [lost, toList_of_holds ha, List.filter_eq_nil_iff]
  intro h hm hnone
  rw [Option.isNone_iff_eq_none, get?_eq_none_iff (holds_link ha v), List.map_append] at hnone
  exact hnone (List.mem_append_left _ hm)

/-- An arena that has come about by linking, changing and taking out; the handles that it has given
out, and those whose values are gone. -/
inductive Course : Arena α → List Handle → List Handle → Prop where
  | start : Course {} [] []
  | link {a : Arena α} {given taken : List Handle} (before : Course a given taken) (v : α) :
      Course (a.link v).2 (given ++ [(a.link v).1]) (taken ++ a.lost (a.link v).2)
  | thin {a a' : Arena α} {given taken : List Handle} (before : Course a given taken)
      (hthin : Thinned a a') : Course a' given (taken ++ a.lost a')

/-- Every handle that was given out is taken back, or finds a value still. -/
theorem holds_of_course {a : Arena α} {given taken : List Handle} (h : Course a given taken) :
    ∃ items, Holds a items ∧ given.Perm (taken ++ items.map (·.1)) := by
  induction h with
  | start => exact ⟨[], holds_empty, List.Perm.refl _⟩
  | link _ v ih =>
      obtain ⟨items, ha, hperm⟩ := ih
      refine ⟨_, holds_link ha v, ?_⟩
      rw [lost_link ha, List.append_nil, fst_link ha, List.map_append, ← List.append_assoc]
      exact hperm.append_right _
  | thin _ hthin ih =>
      obtain ⟨items, ha, hperm⟩ := ih
      obtain ⟨items', gone, ha', hgone, -⟩ := kept_thinned ha hthin
      refine ⟨items', ha', hperm.trans ?_⟩
      rw [List.append_assoc]
      refine List.Perm.append_left _ (hgone.trans ?_)
      exact (lost_perm ha ha' hgone).symm.append_right _

/-- **The books are right as long as every slot's removals can be counted.** No handle was given out
twice. -/
theorem kept_of_course {a : Arena α} {given taken : List Handle} (h : Course a given taken)
    (hroom : Countable taken) : Kept a given taken ∧ given.Nodup := by
  induction h with
  | start => exact ⟨kept_empty, List.nodup_nil⟩
  | @link a given taken before v ih =>
      obtain ⟨items, ha, -⟩ := holds_of_course before
      obtain ⟨hk, hnodup⟩ := ih hroom.of_append
      have hnew := nextHandle_not_issued ha hk.issued
      rw [lost_link ha, List.append_nil, fst_link ha]
      refine ⟨kept_link ha hk v, ?_⟩
      exact (List.perm_append_singleton a.nextHandle given).nodup_iff.mpr
        (List.nodup_cons.mpr ⟨hnew, hnodup⟩)
  | @thin a a' given taken before hthin ih =>
      obtain ⟨items, ha, -⟩ := holds_of_course before
      obtain ⟨hk, hnodup⟩ := ih hroom.of_append
      obtain ⟨items', gone, ha', hgone, hkeep⟩ := kept_thinned ha hthin
      have hlost : (taken ++ a.lost a').Perm (taken ++ gone) :=
        (lost_perm ha ha' hgone).append_left taken
      have hroom' : Countable (taken ++ gone) := by
        intro slot
        rw [← turns_perm hlost]
        exact hroom slot
      exact ⟨(hkeep given taken hk hroom').of_perm hlost.symm, hnodup⟩

/-- Handles are told apart, and those whose values are gone find nothing. -/
structure Apart (a : Arena α) (given taken : List Handle) : Prop where
  distinct : given.Nodup
  /-- What was given out is gone, or listed. -/
  accounted : given.Perm (taken ++ a.toList.map (·.1))
  get : ∀ h ∈ taken, a.get? h = none
  modify : ∀ h ∈ taken, ∀ f, a.modify h f = a
  unlink : ∀ h ∈ taken, a.unlink h = none
  unlisted : ∀ h ∈ taken, ∀ item ∈ a.toList, item.1 ≠ h

theorem find?_eq_none_of_get? {a : Arena α} {h : Handle} (hg : a.get? h = none) :
    a.find? h = none := Option.map_eq_none_iff.mp hg

/-- A handle taken back is not listed. -/
theorem not_mem_of_behind {a : Arena α} {items : List (Handle × α)} (ha : Holds a items)
    {given taken : List Handle} (hk : Kept a given taken) {h : Handle} (hm : h ∈ taken) :
    h ∉ items.map (·.1) := by
  intro hlisted
  obtain ⟨⟨k, v⟩, hitem, rfl⟩ := List.mem_map.mp hlisted
  obtain ⟨prev, next, hs⟩ := lookup_of_mem ha hitem
  obtain ⟨g, hg, hlt⟩ := hk.behind k hm
  -- what is listed is level with its slot
  rw [generationAt, hs] at hg
  obtain rfl := Option.some.inj hg
  exact Nat.lt_irrefl _ hlt

/-- **No handle is given out twice, and none finds anything once its value is gone.** -/
theorem apart_of_course {a : Arena α} {given taken : List Handle} (h : Course a given taken)
    (hroom : Countable taken) : Apart a given taken := by
  obtain ⟨items, ha, hperm⟩ := holds_of_course h
  obtain ⟨hk, hnodup⟩ := kept_of_course h hroom
  have hlist := toList_of_holds ha
  have hnone : ∀ k ∈ taken, a.get? k = none := fun k hm =>
    (get?_eq_none_iff ha).mpr (not_mem_of_behind ha hk hm)
  refine ⟨hnodup, by rwa [hlist], hnone, ?_, ?_, ?_⟩
  · intro k hm f
    rw [Arena.modify, find?_eq_none_of_get? (hnone k hm)]
  · intro k hm
    exact unlink_of_not_mem ha (not_mem_of_behind ha hk hm)
  · intro k hm item hitem he
    rw [hlist] at hitem
    exact not_mem_of_behind ha hk hm (List.mem_map.mpr ⟨item, hitem, he⟩)

end Arena

open Arena

/-! ## Rosters -/

namespace Roster

def Reply.handle? : Roster.Reply → Option Handle
  | .linked h => some h
  | .unlinked _ | .disconnected _ | .allDisconnected _ | .found _ => none

/-- The handles that a roster gives out in some edits, and those whose connections it loses. -/
def books (r : Roster) (mail : Mail) : List Edit → List Handle × List Handle
  | [] => ([], [])
  | e :: edits =>
    let (reply, r', mail) := r.edit mail e
    let (given, taken) := books r' mail edits
    (reply.handle?.toList ++ given, r.lost r' ++ taken)

theorem course_edit {r : Roster} {given taken : List Handle} (h : Course r given taken)
    (mail : Mail) (e : Edit) :
    Course (r.edit mail e).2.1 (given ++ (r.edit mail e).1.handle?.toList)
      (taken ++ r.lost (r.edit mail e).2.1) := by
  cases e with
  | link c => exact h.link c
  | unlink k =>
      rw [edit]
      cases hu : r.unlink k with
      | none =>
          rw [Reply.handle?, Option.toList_none, List.append_nil]
          exact h.thin (.refl r)
      | some result =>
          rw [Reply.handle?, Option.toList_none, List.append_nil]
          exact h.thin ((Thinned.refl r).unlink hu)
  | disconnect k =>
      rw [edit]
      cases hd : r.disconnect mail k with
      | none =>
          rw [Reply.handle?, Option.toList_none, List.append_nil]
          exact h.thin (.refl r)
      | some result =>
          rw [Reply.handle?, Option.toList_none, List.append_nil]
          exact h.thin (thinned_disconnect hd)
  | disconnectAll =>
      rw [edit, Reply.handle?, Option.toList_none, List.append_nil]
      exact h.thin (thinned_disconnectEach _ r mail)
  | change k f =>
      rw [edit, Reply.handle?, Option.toList_none, List.append_nil]
      exact h.thin ((Thinned.refl r).modify k f)

theorem course_run {r : Roster} {given taken : List Handle} (h : Course r given taken)
    (mail : Mail) (edits : List Edit) :
    Course (r.run mail edits).2.1 (given ++ (r.books mail edits).1)
      (taken ++ (r.books mail edits).2) := by
  induction edits generalizing r mail given taken with
  | nil =>
      rw [books, List.append_nil, List.append_nil]
      exact h
  | cons e edits ih =>
      have hrest := ih (course_edit h mail e) (r.edit mail e).2.2
      rw [List.append_assoc, List.append_assoc] at hrest
      exact hrest

end Roster

/-! ## Servers -/

namespace Server

/-- The handles that a server gives out on some requests, and those whose connections it loses. -/
def books (s : Server) : List (Request Handle) → List Handle × List Handle
  | [] => ([], [])
  | request :: requests =>
    let (reply, s') := s.step request
    let (given, taken) := books s' requests
    (reply.handle?.toList ++ given, s.roster.lost s'.roster ++ taken)

theorem course_step {s : Server} {given taken : List Handle} (h : Course s.roster given taken)
    (request : Request Handle) :
    Course (s.step request).2.roster (given ++ (s.step request).1.handle?.toList)
      (taken ++ s.roster.lost (s.step request).2.roster) := by
  rcases request.register_or with ⟨address, rfl⟩ | hq
  · exact h.link (.remote address s.mail.boxes.length)
  · rw [Lobby.handle?_step s hq, Option.toList_none, List.append_nil]
    exact h.thin (thinned_step s hq)

theorem course_run {s : Server} {given taken : List Handle} (h : Course s.roster given taken)
    (requests : List (Request Handle)) :
    Course (s.run requests).roster (given ++ (s.books requests).1)
      (taken ++ (s.books requests).2) := by
  induction requests generalizing s given taken with
  | nil =>
      rw [books, List.append_nil, List.append_nil]
      exact h
  | cons request requests ih =>
      have hrest := ih (course_step h request)
      rw [List.append_assoc, List.append_assoc] at hrest
      exact hrest

/-- Whoever comes with this handle changes nothing, and is told to go unless the record is of a kind
that is never handled. -/
structure Ignores (s : Server) (h : Handle) : Prop where
  close : (s.step (.close h)).2 = s
  record : ∀ record, (s.step (.dispatch h record)).2 = s
  userInfo : ∀ user, (s.step (.dispatch h (.userInfo user))).1 = .answered (.ok .close)
  message : ∀ text, (s.step (.dispatch h (.message text))).1 = .answered (.ok .close)
  disconnect : ∀ name, (s.step (.dispatch h (.disconnect name))).1 = .answered (.ok .close)

theorem ignores_of_unlinked {s : Server} {h : Handle} (hnone : s.connection? h = none) :
    s.Ignores h := by
  have hfind : s.roster.find? h = none := find?_eq_none_of_get? hnone
  have huser : ∀ user, s.onUserInfo h user = (.ok .close, s) := by
    intro user
    rw [onUserInfo, hnone]
  have hmember : ∀ kind request, s.asMember h kind request = (.ok .close, s) := by
    intro kind request
    rw [asMember, hnone]
  refine ⟨?_, ?_, ?_, ?_, ?_⟩
  · show { s with toRoom := s.toRoom.teardown h } = s
    rw [Room.teardown, Roster.disconnect, unlink_eq, hfind]
    rfl
  · intro record
    cases record with
    | stdout text => rfl
    | connect user validateOnly => rfl
    | userInfo user => exact congrArg Prod.snd (huser user)
    | message text => exact congrArg Prod.snd (hmember .message _)
    | disconnect name => exact congrArg Prod.snd (hmember .disconnect _)
  · intro user
    exact congrArg (fun answer => Reply.answered answer.1) (huser user)
  · intro text
    exact congrArg (fun answer => Reply.answered answer.1) (hmember .message _)
  · intro name
    exact congrArg (fun answer => Reply.answered answer.1) (hmember .disconnect _)

end Server

/-- **Handles are never confused, however often slots are used again.** Whatever is done to a
roster, no handle is given out twice, and one whose connection was taken out finds nothing ever
after. The same is true of the roster of a server, whatever is asked of it, and a request that comes
late under such a handle changes nothing. All that is asked for is that no slot is vacated as often
as its generation can count. -/
theorem handles_never_return :
    (∀ (mail : Mail) (edits : List Roster.Edit),
        Countable (Roster.books {} mail edits).2 →
          (Roster.run {} mail edits).2.1.Apart (Roster.books {} mail edits).1
              (Roster.books {} mail edits).2
            ∧ ∀ h ∈ (Roster.books {} mail edits).2, ∀ mail',
                (Roster.run {} mail edits).2.1.disconnect mail' h = none)
      ∧ ∀ (version : Version) (requests : List (Request Handle)),
          Countable (Server.books { version } requests).2 →
            (({ version } : Server).run requests).roster.Apart
                (Server.books { version } requests).1 (Server.books { version } requests).2
              ∧ ∀ h ∈ (Server.books { version } requests).2,
                  (({ version } : Server).run requests).Ignores h := by
  constructor
  · intro mail edits hroom
    have happart := apart_of_course (Roster.course_run .start mail edits) hroom
    refine ⟨happart, ?_⟩
    intro h hm mail'
    rw [Roster.disconnect, happart.unlink h hm]
    rfl
  · intro version requests hroom
    have hcourse : Course ({ version } : Server).roster [] [] := .start
    have happart := apart_of_course (Server.course_run hcourse requests) hroom
    exact ⟨happart, fun h hm => Server.ignores_of_unlinked (happart.get h hm)⟩

/-- A connection is linked in the slot of one that was taken out. -/
def replacing : List Roster.Edit :=
  [.link (.remote none 0), .unlink ⟨0, 0⟩, .link (.remote none 1)]

/-- A peer comes back to the slot that it has left, twice. -/
def comings : List (Request Handle) :=
  [.register none, .close ⟨0, 0⟩, .register none, .close ⟨0, 1⟩, .register none]

/-- The first handle does not find the connection that has its slot now, and late requests of the
first two peers leave the third alone. -/
theorem handles_never_return_comings :
    ((Roster.run {} {} replacing).2.1.get? ⟨0, 1⟩ = some (.remote none 1)
        ∧ (Roster.run {} {} replacing).2.1.get? ⟨0, 0⟩ = none
        ∧ (Roster.run {} {} replacing).2.1.unlink ⟨0, 0⟩ = none)
      ∧ (Server.books {} comings).1 = [⟨0, 0⟩, ⟨0, 1⟩, ⟨0, 2⟩]
      ∧ (({} : Server).run comings).connection? ⟨0, 2⟩ = some (.remote none 2)
      ∧ (({} : Server).run comings).Ignores ⟨0, 0⟩
      ∧ (({} : Server).run comings).Ignores ⟨0, 1⟩ := by
  have hcountable : ∀ taken : List Handle, taken.length < UInt64.size → Countable taken :=
    fun taken hl slot => Nat.lt_of_le_of_lt (turns_le_length taken slot) hl
  constructor
  · have hbooks : (Roster.books {} {} replacing).2 = [⟨0, 0⟩] := by decide +kernel
    obtain ⟨happart, -⟩ :=
      handles_never_return.1 {} replacing (hcountable _ (by rw [hbooks]; decide))
    have hm : ⟨0, 0⟩ ∈ (Roster.books {} {} replacing).2 := hbooks ▸ List.mem_cons_self
    exact ⟨by decide +kernel, happart.get _ hm, happart.unlink _ hm⟩
  · have hbooks : (Server.books {} comings).2 = [⟨0, 0⟩, ⟨0, 1⟩] := by decide +kernel
    obtain ⟨-, hignores⟩ :=
      handles_never_return.2 .current comings (hcountable _ (by rw [hbooks]; decide))
    refine ⟨by decide +kernel, by decide +kernel, hignores _ ?_, hignores _ ?_⟩
    · exact hbooks ▸ List.mem_cons_self
    · exact hbooks ▸ List.mem_cons_of_mem _ List.mem_cons_self

end ChatRoom
