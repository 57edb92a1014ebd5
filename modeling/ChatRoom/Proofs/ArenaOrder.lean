import ChatRoom.Roster.Arena

/-!
# What an arena holds

An arena is slots that point at each other. To everyone who uses it, it is a list: values in the
order in which they were linked, each with the handle that finds it. `Holds a items` says that `a`
is such a list, and nothing besides: every listed value stands in its slot between its neighbours,
no occupied slot is missing from the list, and the vacant slots are exactly the free ones.

Linking, changing and unlinking are then operations on `items`, and `toList` gives `items` back. No
later module looks at a slot's `prev` or `next` again.
-/

namespace ChatRoom

/-- The slot with its cell changed, if it has one. -/
def Slot.mapCell {α : Type} (f : Cell α → Cell α) (slot : Slot α) : Slot α :=
  { slot with cell := slot.cell.map f }

@[simp] theorem Slot.cell_mapCell {α : Type} (f : Cell α → Cell α) (slot : Slot α) :
    (slot.mapCell f).cell = slot.cell.map f := rfl

/-- Only an occupied slot becomes an occupied one. -/
theorem Slot.mapCell_eq_iff {α : Type} {f : Cell α → Cell α} {slot : Slot α} {g : UInt64}
    {c : Cell α} : slot.mapCell f = ⟨g, some c⟩ ↔ ∃ c', slot = ⟨g, some c'⟩ ∧ f c' = c := by
  obtain ⟨gen, cell⟩ := slot
  simp only [mapCell, Slot.mk.injEq, Option.map_eq_some_iff]
  constructor
  · intro h
    obtain ⟨rfl, c', rfl, hc⟩ := h
    exact ⟨c', ⟨rfl, rfl⟩, hc⟩
  · intro h
    obtain ⟨c', ⟨rfl, rfl⟩, hc⟩ := h
    exact ⟨rfl, c', rfl, hc⟩

/-- A change that leaves vacant slots vacant, and occupied ones occupied. -/
theorem Slot.exists_vacant_map {α : Type} {s : Option (Slot α)} {f : Slot α → Slot α}
    (hf : ∀ slot, (f slot).cell = none ↔ slot.cell = none) :
    (∃ g, s.map f = some ⟨g, none⟩) ↔ ∃ g, s = some ⟨g, none⟩ := by
  have hiff : ∀ slot : Slot α, (∃ g, some slot = some ⟨g, none⟩) ↔ slot.cell = none := by
    intro slot
    constructor
    · intro h
      obtain ⟨g, h⟩ := h
      rw [Option.some.inj h]
    · intro h
      exact ⟨slot.generation, by rw [← h]⟩
  cases s with
  | none => simp
  | some slot => rw [Option.map_some, hiff, hiff, hf]

namespace Arena

variable {α : Type}

/-- The slot of a listed value, if there is one. -/
def slotOf (item : Option (Handle × α)) : Option Nat := item.map (·.1.index)

/-- The values that an arena holds, with their handles and in link order. -/
structure Holds (a : Arena α) (items : List (Handle × α)) : Prop where
  /-- Each value stands in its slot, between the slots of its neighbours. -/
  cells : ∀ before h v after, items = before ++ (h, v) :: after →
    a.slots[h.index]? = some ⟨h.generation, some ⟨v, slotOf before.getLast?, slotOf after.head?⟩⟩
  /-- No slot is listed twice. -/
  nodup : (items.map (·.1.index)).Nodup
  /-- Every occupied slot is listed. -/
  occupied : ∀ i g c, a.slots[i]? = some ⟨g, some c⟩ → (⟨i, g⟩, c.value) ∈ items
  /-- The free slots are the vacant ones. -/
  vacant : ∀ i, i ∈ a.free ↔ ∃ g, a.slots[i]? = some ⟨g, none⟩
  /-- No slot is free twice. -/
  free_nodup : a.free.Nodup
  head : a.head = slotOf items.head?
  tail : a.tail = slotOf items.getLast?
  count : a.count = items.length

theorem holds_empty : Holds ({} : Arena α) [] where
  cells := by intro before h v after he; simp at he
  nodup := List.nodup_nil
  occupied := by intro i g c h; simp at h
  vacant := by intro i; simp
  free_nodup := List.nodup_nil
  head := rfl
  tail := rfl
  count := rfl

/-! ## Slots under the elementary changes -/

theorem slots_modifyCell (a : Arena α) (i j : Nat) (f : Cell α → Cell α) :
    (a.modifyCell i f).slots[j]? =
      a.slots[j]?.map fun slot => if i = j then Slot.mapCell f slot else slot := by
  simp only [modifyCell, List.getElem?_modify, Slot.mapCell]
  rfl

theorem slots_joinNext (a : Arena α) (prev next : Option Nat) (j : Nat) :
    (a.joinNext prev next).slots[j]? =
      a.slots[j]?.map fun slot =>
        if prev = some j then Slot.mapCell (fun cell => { cell with next }) slot else slot := by
  cases prev with
  | none => simp [joinNext]
  | some i => simp [joinNext, slots_modifyCell]

theorem slots_joinPrev (a : Arena α) (next prev : Option Nat) (j : Nat) :
    (a.joinPrev next prev).slots[j]? =
      a.slots[j]?.map fun slot =>
        if next = some j then Slot.mapCell (fun cell => { cell with prev }) slot else slot := by
  cases next with
  | none => simp [joinPrev]
  | some i => simp [joinPrev, slots_modifyCell]

theorem slots_vacate (a : Arena α) (i j : Nat) :
    (a.vacate i).slots[j]? =
      a.slots[j]?.map fun slot => if i = j then ⟨slot.generation + 1, none⟩ else slot := by
  simp only [vacate, List.getElem?_modify]
  rfl

@[simp] theorem free_joinNext (a : Arena α) (prev next : Option Nat) :
    (a.joinNext prev next).free = a.free := by cases prev <;> rfl

@[simp] theorem free_joinPrev (a : Arena α) (next prev : Option Nat) :
    (a.joinPrev next prev).free = a.free := by cases next <;> rfl

@[simp] theorem count_joinNext (a : Arena α) (prev next : Option Nat) :
    (a.joinNext prev next).count = a.count := by cases prev <;> rfl

@[simp] theorem count_joinPrev (a : Arena α) (next prev : Option Nat) :
    (a.joinPrev next prev).count = a.count := by cases next <;> rfl

@[simp] theorem tail_joinNext (a : Arena α) (prev next : Option Nat) :
    (a.joinNext prev next).tail = a.tail := by cases prev <;> rfl

@[simp] theorem head_joinPrev (a : Arena α) (next prev : Option Nat) :
    (a.joinPrev next prev).head = a.head := by cases next <;> rfl

theorem head_joinNext (a : Arena α) (prev next : Option Nat) :
    (a.joinNext prev next).head = if prev = none then next else a.head := by
  cases prev <;> rfl

theorem tail_joinPrev (a : Arena α) (next prev : Option Nat) :
    (a.joinPrev next prev).tail = if next = none then prev else a.tail := by
  cases next <;> rfl

/-! ## Reading -/

theorem lookup_of_mem {a : Arena α} {items : List (Handle × α)} (ha : Holds a items)
    {h : Handle} {v : α} (hm : (h, v) ∈ items) :
    ∃ prev next, a.slots[h.index]? = some ⟨h.generation, some ⟨v, prev, next⟩⟩ := by
  obtain ⟨before, after, he⟩ := List.append_of_mem hm
  exact ⟨_, _, ha.cells before h v after he⟩

/-- A handle finds the value that is listed with it. -/
theorem get?_eq_some_iff {a : Arena α} {items : List (Handle × α)} (ha : Holds a items)
    {h : Handle} {v : α} : a.get? h = some v ↔ (h, v) ∈ items := by
  constructor
  · intro hg
    simp only [get?, find?, Option.map_eq_some_iff, Option.bind_eq_some_iff,
      Option.filter_eq_some_iff, beq_iff_eq] at hg
    obtain ⟨c, ⟨slot, ⟨hs, hgen⟩, hc⟩, rfl⟩ := hg
    have hslot : a.slots[h.index]? = some ⟨h.generation, some c⟩ := by
      rw [hs, ← hgen, ← hc]
    exact ha.occupied h.index h.generation c hslot
  · intro hm
    obtain ⟨prev, next, hs⟩ := lookup_of_mem ha hm
    simp [get?, find?, hs, Option.filter]

/-- A handle with which nothing is listed finds nothing. -/
theorem get?_eq_none_iff {a : Arena α} {items : List (Handle × α)} (ha : Holds a items)
    {h : Handle} : a.get? h = none ↔ h ∉ items.map (·.1) := by
  constructor
  · intro hn hm
    obtain ⟨⟨k, v⟩, hkv, rfl⟩ := List.mem_map.mp hm
    rw [(get?_eq_some_iff ha).mpr hkv] at hn
    exact absurd hn (by simp)
  · intro hm
    cases hg : a.get? h with
    | none => rfl
    | some v => exact absurd (List.mem_map.mpr ⟨(h, v), (get?_eq_some_iff ha).mp hg, rfl⟩) hm

theorem walk_of_holds {a : Arena α} {items : List (Handle × α)} (ha : Holds a items) :
    ∀ (after before : List (Handle × α)) (n : Nat), items = before ++ after → after.length ≤ n →
      a.walk n (slotOf after.head?) = after := by
  -- the walk may be met anywhere, so the induction is on what it has still before it
  intro after
  induction after with
  | nil =>
      intro before n _ _
      cases n <;> rfl
  | cons item rest ih =>
      intro before n he hn
      obtain ⟨h, v⟩ := item
      cases n with
      | zero => exact absurd hn (by simp)
      | succ n =>
          have hs := ha.cells before h v rest he
          have hrest := ih (before ++ [(h, v)]) n (by rw [he, List.append_assoc]; rfl)
            (by simpa using hn)
          show a.walk (n + 1) (some h.index) = _
          rw [walk, hs]
          simp only [hrest]

/-- No more values are listed than there are slots. -/
theorem length_le_slots {a : Arena α} {items : List (Handle × α)} (ha : Holds a items) :
    items.length ≤ a.slots.length := by
  have hsub : items.map (·.1.index) ⊆ List.range a.slots.length := by
    intro i hi
    obtain ⟨⟨h, v⟩, hm, rfl⟩ := List.mem_map.mp hi
    obtain ⟨prev, next, hs⟩ := lookup_of_mem ha hm
    exact List.mem_range.mpr (List.getElem?_eq_some_iff.mp hs).1
  have := ha.nodup.length_le_of_subset hsub
  simpa using this

/-- **The walk along the slots gives the list back.** -/
theorem toList_of_holds {a : Arena α} {items : List (Handle × α)} (ha : Holds a items) :
    a.toList = items := by
  rw [toList, ha.head]
  exact walk_of_holds ha items [] _ rfl (length_le_slots ha)

/-! ## Changing a value -/

/-- The list with the value changed that one handle names. -/
def change (h : Handle) (f : α → α) (items : List (Handle × α)) : List (Handle × α) :=
  items.map fun item => if item.1 = h then (item.1, f item.2) else item

theorem fst_change (h : Handle) (f : α → α) (item : Handle × α) :
    (if item.1 = h then (item.1, f item.2) else item).1 = item.1 := by split <;> rfl

theorem slotOf_change (h : Handle) (f : α → α) (item : Option (Handle × α)) :
    slotOf (item.map fun item => if item.1 = h then (item.1, f item.2) else item)
      = slotOf item := by
  cases item with
  | none => rfl
  | some item => simp only [slotOf, Option.map_some, fst_change]

theorem slots_modify (a : Arena α) (h : Handle) (f : α → α) (j : Nat) :
    (a.modify h f).slots[j]? = a.slots[j]?.map fun slot =>
      if h = ⟨j, slot.generation⟩ then
        slot.mapCell (fun cell => { cell with value := f cell.value })
      else slot := by
  obtain ⟨i, g⟩ := h
  cases hs : a.slots[j]? with
  | none =>
      unfold modify
      split <;> simp [slots_modifyCell, hs]
  | some slot =>
      unfold modify
      split
      · -- nothing is found, so if this is the slot then it is vacant
        rename_i hf
        rw [hs, Option.map_some]
        split
        · rename_i he
          obtain ⟨rfl, rfl⟩ := Handle.mk.inj he
          have hc : slot.cell = none := by simpa [find?, hs, Option.filter] using hf
          rw [Slot.mapCell, hc, Option.map_none, ← hc]
        · rfl
      · rename_i c hf
        rw [slots_modifyCell, hs, Option.map_some, Option.map_some]
        by_cases hij : i = j
        · subst hij
          have hg : slot.generation = g := by
            simp only [find?, hs, Option.bind_eq_some_iff, Option.filter_eq_some_iff,
              Option.some.injEq, beq_iff_eq] at hf
            obtain ⟨_, ⟨rfl, hg⟩, _⟩ := hf
            exact hg
          simp [hg]
        · have : ¬ (⟨i, g⟩ : Handle) = ⟨j, slot.generation⟩ := by
            intro he; exact hij (Handle.mk.inj he).1
          simp [hij, this]

/-- Changing a value touches nothing but its slot. -/
theorem modify_frame (a : Arena α) (h : Handle) (f : α → α) :
    (a.modify h f).free = a.free ∧ (a.modify h f).head = a.head
      ∧ (a.modify h f).tail = a.tail ∧ (a.modify h f).count = a.count := by
  unfold modify
  split <;> exact ⟨rfl, rfl, rfl, rfl⟩

theorem cells_modify {a : Arena α} {items : List (Handle × α)} (ha : Holds a items)
    {h : Handle} {f : α → α} {before after : List (Handle × α)} {k : Handle} {w : α}
    (he : change h f items = before ++ (k, w) :: after) :
    (a.modify h f).slots[k.index]? =
      some ⟨k.generation, some ⟨w, slotOf before.getLast?, slotOf after.head?⟩⟩ := by
  -- the split of the changed list is that of the list
  obtain ⟨b, rest, rfl, rfl, hrest⟩ := List.map_eq_append_iff.mp he
  obtain ⟨item, r, rfl, hitem, rfl⟩ := List.map_eq_cons_iff.mp hrest
  obtain ⟨k', v⟩ := item
  have hk : k' = k := by
    have := congrArg (·.1) hitem
    rwa [fst_change] at this
  subst hk
  rw [slots_modify, ha.cells b k' v r rfl, Option.map_some, List.getLast?_map, List.head?_map,
    slotOf_change, slotOf_change]
  by_cases hkh : k' = h
  · subst hkh
    rw [if_pos rfl] at hitem
    obtain ⟨-, rfl⟩ := Prod.mk.inj hitem
    simp [Slot.mapCell]
  · rw [if_neg hkh] at hitem
    obtain ⟨-, rfl⟩ := Prod.mk.inj hitem
    have : ¬ h = ⟨k'.index, k'.generation⟩ := fun he => hkh he.symm
    rw [if_neg this]

theorem occupied_modify {a : Arena α} {items : List (Handle × α)} (ha : Holds a items)
    {h : Handle} {f : α → α} {i : Nat} {g : UInt64} {c : Cell α}
    (hs : (a.modify h f).slots[i]? = some ⟨g, some c⟩) : (⟨i, g⟩, c.value) ∈ change h f items := by
  rw [slots_modify, Option.map_eq_some_iff] at hs
  obtain ⟨slot, hslot, hs⟩ := hs
  refine List.mem_map.mpr ?_
  split at hs
  · rename_i he
    obtain ⟨c', rfl, rfl⟩ := Slot.mapCell_eq_iff.mp hs
    refine ⟨_, ha.occupied i g c' hslot, ?_⟩
    rw [if_pos he.symm]
  · rename_i he
    subst hs
    refine ⟨_, ha.occupied i g c hslot, ?_⟩
    rw [if_neg (fun hq => he hq.symm)]

theorem indices_change (h : Handle) (f : α → α) (items : List (Handle × α)) :
    (change h f items).map (·.1.index) = items.map (·.1.index) := by
  simp only [change, List.map_map]
  exact List.map_congr_left fun item _ => congrArg Handle.index (fst_change h f item)

/-- **Changing a value changes it in the list, in its place.** -/
theorem holds_modify {a : Arena α} {items : List (Handle × α)} (ha : Holds a items)
    (h : Handle) (f : α → α) : Holds (a.modify h f) (change h f items) := by
  obtain ⟨hfree, hhead, htail, hcount⟩ := modify_frame a h f
  refine ⟨?_, ?_, ?_, ?_, ?_, ?_, ?_, ?_⟩
  · intro before k w after he
    exact cells_modify ha he
  · rw [indices_change]
    exact ha.nodup
  · intro i g c hs
    exact occupied_modify ha hs
  · intro i
    rw [hfree, ha.vacant, slots_modify]
    refine (Slot.exists_vacant_map fun slot => ?_).symm
    split <;> simp
  · rw [hfree]
    exact ha.free_nodup
  · rw [hhead, ha.head, change, List.head?_map, slotOf_change]
  · rw [htail, ha.tail, change, List.getLast?_map, slotOf_change]
  · rw [hcount, ha.count, change, List.length_map]

/-! ## Taking a value out -/

theorem slotOf_getLast?_ne {l : List (Handle × α)} {i : Nat}
    (h : ∀ item ∈ l, item.1.index ≠ i) : slotOf l.getLast? ≠ some i := by
  intro he
  obtain ⟨item, hl, hi⟩ := Option.map_eq_some_iff.mp he
  exact h item (List.mem_of_getLast? hl) hi

theorem slotOf_head?_ne {l : List (Handle × α)} {i : Nat}
    (h : ∀ item ∈ l, item.1.index ≠ i) : slotOf l.head? ≠ some i := by
  intro he
  obtain ⟨item, hl, hi⟩ := Option.map_eq_some_iff.mp he
  exact h item (List.mem_of_head? hl) hi

/-- The arena without the cell of one slot, whose neighbours are joined. -/
def cut (a : Arena α) (index : Nat) (cell : Cell α) : Arena α :=
  let joined := ((a.vacate index).joinNext cell.prev cell.next).joinPrev cell.next cell.prev
  { joined with count := joined.count - 1 }

theorem unlink_eq (a : Arena α) (h : Handle) :
    a.unlink h = (a.find? h).map fun cell => (cell.value, a.cut h.index cell) := rfl

/-- What is unlinked stood in the slot that the handle names, and the slot was cut out. -/
theorem unlink_eq_some {a a' : Arena α} {h : Handle} {v : α} (hu : a.unlink h = some (v, a')) :
    ∃ cell, a.slots[h.index]? = some ⟨h.generation, some cell⟩ ∧ v = cell.value
      ∧ a' = a.cut h.index cell := by
  rw [unlink_eq, Option.map_eq_some_iff] at hu
  obtain ⟨cell, hf, hu⟩ := hu
  obtain ⟨rfl, rfl⟩ := Prod.mk.inj hu
  simp only [find?, Option.bind_eq_some_iff, Option.filter_eq_some_iff, beq_iff_eq] at hf
  obtain ⟨slot, ⟨hs, hg⟩, hc⟩ := hf
  exact ⟨cell, by rw [hs, ← hg, ← hc], rfl, rfl⟩

theorem slots_cut (a : Arena α) (i : Nat) (cell : Cell α) (j : Nat) :
    (a.cut i cell).slots[j]? =
      (((a.slots[j]?.map fun slot =>
            if i = j then ⟨slot.generation + 1, none⟩ else slot).map fun slot =>
          if cell.prev = some j then slot.mapCell ({ · with next := cell.next }) else slot).map
        fun slot =>
          if cell.next = some j then slot.mapCell ({ · with prev := cell.prev }) else slot) := by
  rw [← slots_vacate, ← slots_joinNext, ← slots_joinPrev]
  rfl

/-- The slot that is cut out is vacant, and its generation has moved on. -/
theorem slots_cut_self {a : Arena α} {i : Nat} {slot : Slot α} (hs : a.slots[i]? = some slot)
    (cell : Cell α) : (a.cut i cell).slots[i]? = some ⟨slot.generation + 1, none⟩ := by
  rw [slots_cut, hs]
  simp only [if_true, Option.map_some, Slot.mapCell, Option.map_none, ite_self]

/-- No other slot changes its generation, becomes vacant or becomes occupied. -/
theorem slots_cut_ne {a : Arena α} {i j : Nat} (hij : i ≠ j) (cell : Cell α) :
    ∃ f : Cell α → Cell α, (∀ c, (f c).value = c.value) ∧
      (a.cut i cell).slots[j]? = a.slots[j]?.map (Slot.mapCell f) := by
  refine ⟨fun c =>
    { value := c.value
      prev := if cell.next = some j then cell.prev else c.prev
      next := if cell.prev = some j then cell.next else c.next }, fun _ => rfl, ?_⟩
  rw [slots_cut]
  -- nothing is known here of the two neighbours, so the slot may be either, both or neither
  cases a.slots[j]? with
  | none => rfl
  | some slot =>
      obtain ⟨g, c⟩ := slot
      cases c <;> by_cases h1 : cell.prev = some j <;> by_cases h2 : cell.next = some j <;>
        simp [hij, h1, h2, Slot.mapCell]

theorem find?_of_holds {a : Arena α} {before after : List (Handle × α)} {h : Handle} {v : α}
    (ha : Holds a (before ++ (h, v) :: after)) :
    a.find? h = some ⟨v, slotOf before.getLast?, slotOf after.head?⟩ := by
  simp [find?, ha.cells before h v after rfl, Option.filter]

/-- Listed values stand in different slots. -/
theorem index_ne {l r : List (Handle × α)} {item : Handle × α}
    (hnd : ((l ++ item :: r).map (·.1.index)).Nodup) :
    ∀ other ∈ l ++ r, other.1.index ≠ item.1.index := by
  intro other ho he
  simp only [List.map_append, List.map_cons, List.nodup_append, List.nodup_cons] at hnd
  rcases List.mem_append.mp ho with hl | hr
  · exact hnd.2.2 _ (List.mem_map.mpr ⟨other, hl, rfl⟩) _ List.mem_cons_self he
  · exact hnd.2.1.1 (List.mem_map.mpr ⟨other, hr, he⟩)

/-- A value that stood behind the one that was cut out keeps its place. -/
theorem cells_cut_behind {a : Arena α} {before m after : List (Handle × α)} {h k : Handle}
    {v w : α} (ha : Holds a (before ++ (h, v) :: (m ++ (k, w) :: after))) :
    (a.cut h.index
        ⟨v, slotOf before.getLast?, slotOf (m ++ (k, w) :: after).head?⟩).slots[k.index]? =
      some ⟨k.generation, some ⟨w, slotOf (before ++ m).getLast?, slotOf after.head?⟩⟩ := by
  have he : before ++ (h, v) :: (m ++ (k, w) :: after)
      = (before ++ (h, v) :: m) ++ (k, w) :: after := by simp
  have hne := index_ne (he ▸ ha.nodup)
  have hhk : h.index ≠ k.index := hne (h, v) (by simp)
  have hprev : slotOf before.getLast? ≠ some k.index :=
    slotOf_getLast?_ne fun item hi => hne item (by simp [hi])
  rw [slots_cut, ha.cells _ k w after he, Option.map_some, Option.map_some, Option.map_some,
    if_neg hhk, if_neg hprev]
  -- it has a new neighbour if it stood right behind the gap
  cases m with
  | nil => simp [Slot.mapCell, slotOf]
  | cons x m =>
      have hx : x.1.index ≠ k.index := hne x (by simp)
      simp [slotOf, hx, List.getLast?_append, List.getLast?_cons]

/-- A value that stood before the one that was cut out keeps its place. -/
theorem cells_cut_ahead {a : Arena α} {before m after : List (Handle × α)} {h k : Handle}
    {v w : α} (ha : Holds a ((before ++ (k, w) :: m) ++ (h, v) :: after)) :
    (a.cut h.index
        ⟨v, slotOf (before ++ (k, w) :: m).getLast?, slotOf after.head?⟩).slots[k.index]? =
      some ⟨k.generation, some ⟨w, slotOf before.getLast?, slotOf (m ++ after).head?⟩⟩ := by
  have he : (before ++ (k, w) :: m) ++ (h, v) :: after
      = before ++ (k, w) :: (m ++ (h, v) :: after) := by simp
  have hne := index_ne (he ▸ ha.nodup)
  have hhk : h.index ≠ k.index := hne (h, v) (by simp)
  have hnext : slotOf after.head? ≠ some k.index :=
    slotOf_head?_ne fun item hi => hne item (by simp [hi])
  rw [slots_cut, ha.cells before k w _ he, Option.map_some, Option.map_some, Option.map_some,
    if_neg hhk, if_neg hnext]
  -- it has a new neighbour if it stood right before the gap
  cases hm : m.getLast? with
  | none =>
      have : m = [] := List.getLast?_eq_none_iff.mp hm
      subst this
      simp [Slot.mapCell, slotOf]
  | some y =>
      have hy : y.1.index ≠ k.index := hne y (by simp [List.mem_of_getLast? hm])
      have hmne : m ≠ [] := by
        intro he
        simp [he] at hm
      obtain ⟨x, m, rfl⟩ := List.exists_cons_of_ne_nil hmne
      have hlast : (before ++ (k, w) :: x :: m).getLast? = some y := by
        rw [List.getLast?_append, List.getLast?_cons_cons, hm]
        rfl
      rw [hlast]
      simp [slotOf, hy]

/-- The neighbours of a value that was cut out are each other's neighbours. -/
theorem cells_cut {a : Arena α} {before after : List (Handle × α)} {h : Handle} {v : α}
    (ha : Holds a (before ++ (h, v) :: after)) {before' after' : List (Handle × α)} {k : Handle}
    {w : α} (he : before ++ after = before' ++ (k, w) :: after') :
    (a.cut h.index ⟨v, slotOf before.getLast?, slotOf after.head?⟩).slots[k.index]? =
      some ⟨k.generation, some ⟨w, slotOf before'.getLast?, slotOf after'.head?⟩⟩ := by
  -- two splits of one list: the value is on one side of the gap or on the other
  rcases List.append_eq_append_iff.mp he with ⟨m, rfl, rfl⟩ | ⟨m, rfl, hm⟩
  · exact cells_cut_behind ha
  · cases m with
    | nil =>
        obtain rfl : after = (k, w) :: after' := hm.symm
        have := cells_cut_behind (m := []) (by simpa using ha)
        simpa using this
    | cons x m =>
        obtain ⟨rfl, rfl⟩ := List.cons.inj hm
        exact cells_cut_ahead ha

theorem occupied_cut {a : Arena α} {before after : List (Handle × α)} {h : Handle} {v : α}
    (ha : Holds a (before ++ (h, v) :: after)) {i : Nat} {g : UInt64} {c : Cell α}
    (hs : (a.cut h.index ⟨v, slotOf before.getLast?, slotOf after.head?⟩).slots[i]?
      = some ⟨g, some c⟩) : (⟨i, g⟩, c.value) ∈ before ++ after := by
  by_cases hi : h.index = i
  · subst hi
    rw [slots_cut_self (ha.cells before h v after rfl)] at hs
    simp at hs
  · obtain ⟨f, hf, hslots⟩ := slots_cut_ne hi ⟨v, slotOf before.getLast?, slotOf after.head?⟩
    rw [hslots, Option.map_eq_some_iff] at hs
    obtain ⟨slot, hslot, hs⟩ := hs
    obtain ⟨c', rfl, rfl⟩ := Slot.mapCell_eq_iff.mp hs
    have hm := ha.occupied i g c' hslot
    rw [hf]
    rcases List.mem_append.mp hm with hb | hb
    · exact List.mem_append_left _ hb
    · rcases List.mem_cons.mp hb with heq | hb
      · exact absurd (congrArg (·.1.index) heq).symm hi
      · exact List.mem_append_right _ hb

/-- The slot that was cut out is free, and so are those that were free before. -/
theorem vacant_cut {a : Arena α} {before after : List (Handle × α)} {h : Handle} {v : α}
    (ha : Holds a (before ++ (h, v) :: after)) (i : Nat) :
    i ∈ h.index :: a.free ↔
      ∃ g, (a.cut h.index ⟨v, slotOf before.getLast?, slotOf after.head?⟩).slots[i]?
        = some ⟨g, none⟩ := by
  by_cases hi : h.index = i
  · subst hi
    rw [slots_cut_self (ha.cells before h v after rfl)]
    simp
  · obtain ⟨f, -, hslots⟩ := slots_cut_ne hi ⟨v, slotOf before.getLast?, slotOf after.head?⟩
    have hne : ¬ i = h.index := fun he => hi he.symm
    rw [hslots, List.mem_cons, or_iff_right hne, ha.vacant]
    exact (Slot.exists_vacant_map fun slot => by simp).symm

theorem holds_cut {a : Arena α} {before after : List (Handle × α)} {h : Handle} {v : α}
    (ha : Holds a (before ++ (h, v) :: after)) :
    Holds (a.cut h.index ⟨v, slotOf before.getLast?, slotOf after.head?⟩) (before ++ after) := by
  have hfree : (a.cut h.index ⟨v, slotOf before.getLast?, slotOf after.head?⟩).free
      = h.index :: a.free := by
    show ((a.vacate h.index).joinNext _ _ |>.joinPrev _ _).free = _
    rw [free_joinPrev, free_joinNext]
    rfl
  refine ⟨?_, ?_, ?_, ?_, ?_, ?_, ?_, ?_⟩
  · intro before' k w after' he
    exact cells_cut ha he
  · exact ha.nodup.sublist (((List.sublist_cons_self _ _).append_left before).map _)
  · intro i g c hs
    exact occupied_cut ha hs
  · intro i
    rw [hfree]
    exact vacant_cut ha i
  · rw [hfree, List.nodup_cons]
    refine ⟨?_, ha.free_nodup⟩
    -- the slot was occupied until now
    intro hm
    obtain ⟨g, hs⟩ := (ha.vacant h.index).mp hm
    rw [ha.cells before h v after rfl] at hs
    simp at hs
  · show ((a.vacate h.index).joinNext _ _ |>.joinPrev _ _).head = _
    rw [head_joinPrev, head_joinNext]
    show (if slotOf before.getLast? = none then slotOf after.head? else a.head) = _
    rw [ha.head]
    cases before with
    | nil => rfl
    | cons x before => simp [slotOf, List.getLast?_cons]
  · show ((a.vacate h.index).joinNext _ _ |>.joinPrev _ _).tail = _
    rw [tail_joinPrev, tail_joinNext]
    show (if slotOf after.head? = none then slotOf before.getLast? else a.tail) = _
    rw [ha.tail]
    cases after with
    | nil => simp [slotOf]
    | cons x after => simp [slotOf, List.getLast?_append, List.getLast?_cons]
  · show ((a.vacate h.index).joinNext _ _ |>.joinPrev _ _).count - 1 = _
    rw [count_joinPrev, count_joinNext]
    show a.count - 1 = _
    rw [ha.count]
    simp

/-- **Unlinking takes the value out of the list.** -/
theorem unlink_of_holds {a : Arena α} {before after : List (Handle × α)} {h : Handle} {v : α}
    (ha : Holds a (before ++ (h, v) :: after)) :
    ∃ a', a.unlink h = some (v, a') ∧ Holds a' (before ++ after) := by
  refine ⟨_, ?_, holds_cut ha⟩
  rw [unlink_eq, find?_of_holds ha]
  rfl

/-- The list without the value that one handle names. -/
def without (h : Handle) (items : List (Handle × α)) : List (Handle × α) :=
  items.filter fun item => decide (item.1 ≠ h)

theorem handles_nodup {a : Arena α} {items : List (Handle × α)} (ha : Holds a items) :
    (items.map (·.1)).Nodup := by
  have := ha.nodup
  rw [show items.map (·.1.index) = (items.map (·.1)).map Handle.index by simp] at this
  exact List.Pairwise.of_map Handle.index (fun _ _ hne he => hne (congrArg _ he)) this

theorem without_split {before after : List (Handle × α)} {h : Handle} {v : α}
    (hnd : ((before ++ (h, v) :: after).map (·.1)).Nodup) :
    without h (before ++ (h, v) :: after) = before ++ after := by
  simp only [List.map_append, List.map_cons, List.nodup_append, List.nodup_cons, List.mem_map,
    List.mem_cons] at hnd
  have hb : without h before = before := by
    refine List.filter_eq_self.mpr fun item hi => ?_
    exact decide_eq_true (hnd.2.2 item.1 ⟨item, hi, rfl⟩ h (Or.inl rfl))
  have ha : without h after = after := by
    refine List.filter_eq_self.mpr fun item hi => ?_
    exact decide_eq_true fun he => hnd.2.1.1 ⟨item, hi, he⟩
  unfold without at hb ha ⊢
  rw [List.filter_append, List.filter_cons, hb, ha]
  simp

/-- Unlinking with the handle of a listed value. -/
theorem unlink_of_mem {a : Arena α} {items : List (Handle × α)} (ha : Holds a items)
    {h : Handle} {v : α} (hm : (h, v) ∈ items) :
    ∃ a', a.unlink h = some (v, a') ∧ Holds a' (without h items) := by
  obtain ⟨before, after, rfl⟩ := List.append_of_mem hm
  rw [without_split (handles_nodup ha)]
  exact unlink_of_holds ha

/-- Unlinking with any other handle does nothing. -/
theorem unlink_of_not_mem {a : Arena α} {items : List (Handle × α)} (ha : Holds a items)
    {h : Handle} (hm : h ∉ items.map (·.1)) : a.unlink h = none := by
  have := (get?_eq_none_iff ha).mpr hm
  rw [unlink_eq]
  simpa [get?] using this

/-! ## Putting a value in -/

/-- The slot that the next value will be put into. -/
def nextSlot (a : Arena α) : Nat := a.free.head?.getD a.slots.length

/-- The handle under which the next value will be linked. -/
def nextHandle (a : Arena α) : Handle :=
  ⟨a.nextSlot, (a.slots[a.nextSlot]?.map (·.generation)).getD 0⟩

/-- Nothing is linked where the next value goes. -/
theorem nextSlot_vacant {a : Arena α} {items : List (Handle × α)} (ha : Holds a items) :
    a.slots[a.nextSlot]? = none ∨ ∃ g, a.slots[a.nextSlot]? = some ⟨g, none⟩ := by
  cases hf : a.free with
  | nil => exact Or.inl (by simp [nextSlot, hf])
  | cons i rest =>
      have : a.nextSlot = i := by simp [nextSlot, hf]
      rw [this]
      exact Or.inr ((ha.vacant i).mp (by simp [hf]))

theorem index_ne_nextSlot {a : Arena α} {items : List (Handle × α)} (ha : Holds a items)
    {item : Handle × α} (hm : item ∈ items) : item.1.index ≠ a.nextSlot := by
  intro he
  obtain ⟨prev, next, hs⟩ := lookup_of_mem ha hm
  rw [he] at hs
  rcases nextSlot_vacant ha with hn | ⟨g, hn⟩ <;> rw [hn] at hs <;> simp at hs

theorem fst_place (a : Arena α) (cell : Cell α) : (a.place cell).1 = a.nextSlot := by
  unfold place nextSlot
  cases a.free <;> rfl

theorem slots_place {a : Arena α} {items : List (Handle × α)} (ha : Holds a items)
    (cell : Cell α) (j : Nat) :
    (a.place cell).2.slots[j]? =
      if a.nextSlot = j then some ⟨a.nextHandle.generation, some cell⟩ else a.slots[j]? := by
  cases hf : a.free with
  | nil =>
      -- a slot is added, behind all there are
      have hn : a.nextSlot = a.slots.length := by simp [nextSlot, hf]
      have hg : a.nextHandle.generation = 0 := by simp [nextHandle, hn]
      have hp : (a.place cell).2.slots = a.slots ++ [⟨0, some cell⟩] := by simp [place, hf]
      rw [hn, hg, hp, List.getElem?_append]
      by_cases hj : a.slots.length = j
      · subst hj
        simp
      · rw [if_neg hj]
        split
        · rfl
        · rw [List.getElem?_eq_none (by simp; omega), List.getElem?_eq_none (by omega)]
  | cons i rest =>
      have hn : a.nextSlot = i := by simp [nextSlot, hf]
      have hp : (a.place cell).2.slots = a.slots.modify i ({ · with cell := some cell }) := by
        simp [place, hf]
      obtain ⟨g, hs⟩ := (ha.vacant i).mp (by simp [hf])
      have hg : a.nextHandle.generation = g := by simp [nextHandle, hn, hs]
      rw [hn, hg, hp, List.getElem?_modify]
      by_cases hj : i = j
      · subst hj
        simp [hs]
      · simp [hj]

theorem slots_link_snd {a : Arena α} {items : List (Handle × α)} (ha : Holds a items) (v : α)
    (j : Nat) :
    (a.link v).2.slots[j]? =
      (if a.nextSlot = j then some ⟨a.nextHandle.generation, some ⟨v, a.tail, none⟩⟩
        else a.slots[j]?).map fun slot =>
          if a.tail = some j then slot.mapCell ({ · with next := some a.nextSlot }) else slot := by
  rw [← slots_place ha ⟨v, a.tail, none⟩ j, ← fst_place a ⟨v, a.tail, none⟩, ← slots_joinNext]
  rfl

/-- The last value does not stand where the next one goes. -/
theorem tail_ne_nextSlot {a : Arena α} {items : List (Handle × α)} (ha : Holds a items) :
    a.tail ≠ some a.nextSlot := by
  rw [ha.tail]
  exact slotOf_getLast?_ne fun item hi => index_ne_nextSlot ha hi

theorem slots_link_self {a : Arena α} {items : List (Handle × α)} (ha : Holds a items) (v : α) :
    (a.link v).2.slots[a.nextSlot]? = some ⟨a.nextHandle.generation, some ⟨v, a.tail, none⟩⟩ := by
  rw [slots_link_snd ha, if_pos rfl, Option.map_some, if_neg (tail_ne_nextSlot ha)]

theorem slots_link_ne {a : Arena α} {items : List (Handle × α)} (ha : Holds a items) (v : α)
    {j : Nat} (hj : a.nextSlot ≠ j) :
    (a.link v).2.slots[j]? = a.slots[j]?.map fun slot =>
      if a.tail = some j then slot.mapCell ({ · with next := some a.nextSlot }) else slot := by
  rw [slots_link_snd ha, if_neg hj]

theorem fst_link {a : Arena α} {items : List (Handle × α)} (ha : Holds a items) (v : α) :
    (a.link v).1 = a.nextHandle := by
  have hs := slots_link_self ha v
  show (⟨(a.place ⟨v, a.tail, none⟩).1,
    ((a.link v).2.slots[(a.place ⟨v, a.tail, none⟩).1]?.map (·.generation)).getD 0⟩ : Handle) = _
  rw [fst_place, hs]
  rfl

theorem free_link (a : Arena α) (v : α) : (a.link v).2.free = a.free.tail := by
  show ((a.place ⟨v, a.tail, none⟩).2.joinNext _ _).free = _
  rw [free_joinNext]
  unfold place
  cases a.free <;> simp

theorem cells_link {a : Arena α} {items : List (Handle × α)} (ha : Holds a items) (v : α)
    {before after : List (Handle × α)} {k : Handle} {w : α}
    (he : items ++ [(a.nextHandle, v)] = before ++ (k, w) :: after) :
    (a.link v).2.slots[k.index]? =
      some ⟨k.generation, some ⟨w, slotOf before.getLast?, slotOf after.head?⟩⟩ := by
  rcases List.append_eq_append_iff.mp he with ⟨m, rfl, hm⟩ | ⟨m, rfl, hm⟩
  · -- the split is behind every value that was there
    have hone := congrArg List.length hm
    simp only [List.length_nil, List.length_append, List.length_cons] at hone
    have hm0 : m = [] := List.length_eq_zero_iff.mp (by omega)
    subst hm0
    obtain ⟨hkw, rfl⟩ := List.cons.inj hm
    obtain ⟨rfl, rfl⟩ := Prod.mk.inj hkw
    have hself := slots_link_self ha v
    rw [ha.tail] at hself
    simpa [nextHandle, slotOf] using hself
  · cases m with
    | nil =>
        obtain ⟨hkw, rfl⟩ := List.cons.inj hm
        obtain ⟨rfl, rfl⟩ := Prod.mk.inj hkw
        have hself := slots_link_self ha w
        rw [ha.tail] at hself
        simpa [nextHandle, slotOf] using hself
    | cons x m =>
        obtain ⟨rfl, rfl⟩ := List.cons.inj hm
        -- a value that was there, of which only the last one gets a new neighbour
        have hk : a.nextSlot ≠ k.index := fun hq =>
          index_ne_nextSlot ha (List.mem_append_right before List.mem_cons_self) hq.symm
        have hne := index_ne ha.nodup
        rw [slots_link_ne ha v hk, ha.cells before k w m rfl, Option.map_some, ha.tail]
        cases m with
        | nil => simp [slotOf, Slot.mapCell, nextHandle]
        | cons y m =>
            have hy : slotOf (before ++ (k, w) :: y :: m).getLast? ≠ some k.index := by
              rw [List.getLast?_append, List.getLast?_cons_cons, List.getLast?_cons]
              exact fun hq => hne _ (List.mem_append_right _
                (List.mem_of_getLast? List.getLast?_cons)) (Option.some.inj hq)
            rw [if_neg hy]
            simp [slotOf]

theorem occupied_link {a : Arena α} {items : List (Handle × α)} (ha : Holds a items) {v : α}
    {i : Nat} {g : UInt64} {c : Cell α} (hs : (a.link v).2.slots[i]? = some ⟨g, some c⟩) :
    (⟨i, g⟩, c.value) ∈ items ++ [(a.nextHandle, v)] := by
  by_cases hi : a.nextSlot = i
  · subst hi
    rw [slots_link_self ha] at hs
    simp only [Option.some.injEq, Slot.mk.injEq] at hs
    obtain ⟨rfl, rfl⟩ := hs
    exact List.mem_append_right _ (List.mem_singleton.mpr rfl)
  · rw [slots_link_ne ha v hi, Option.map_eq_some_iff] at hs
    obtain ⟨slot, hslot, hs⟩ := hs
    refine List.mem_append_left _ ?_
    split at hs
    · obtain ⟨c', rfl, rfl⟩ := Slot.mapCell_eq_iff.mp hs
      exact ha.occupied i g c' hslot
    · subst hs
      exact ha.occupied i g c hslot

/-- The next value takes the first of the free slots, and leaves the others. -/
theorem mem_free_tail {a : Arena α} (hnd : a.free.Nodup) {i : Nat} :
    i ∈ a.free.tail ↔ i ∈ a.free ∧ a.nextSlot ≠ i := by
  cases hf : a.free with
  | nil => simp
  | cons j rest =>
      have hnext : a.nextSlot = j := by simp [nextSlot, hf]
      rw [hf, List.nodup_cons] at hnd
      rw [hnext, List.tail_cons, List.mem_cons]
      constructor
      · intro hi
        refine ⟨Or.inr hi, ?_⟩
        intro he
        subst he
        exact hnd.1 hi
      · intro h
        obtain ⟨hi, hne⟩ := h
        rcases hi with rfl | hi
        · exact absurd rfl hne
        · exact hi

theorem vacant_link {a : Arena α} {items : List (Handle × α)} (ha : Holds a items) (v : α)
    (i : Nat) :
    i ∈ (a.link v).2.free ↔ ∃ g, (a.link v).2.slots[i]? = some ⟨g, none⟩ := by
  rw [free_link, mem_free_tail ha.free_nodup]
  by_cases hi : a.nextSlot = i
  · subst hi
    rw [slots_link_self ha]
    simp
  · rw [slots_link_ne ha v hi, ha.vacant, and_iff_left hi]
    refine (Slot.exists_vacant_map fun slot => ?_).symm
    split <;> simp

theorem head_place (a : Arena α) (cell : Cell α) : (a.place cell).2.head = a.head := by
  unfold place
  cases a.free <;> rfl

theorem count_place (a : Arena α) (cell : Cell α) : (a.place cell).2.count = a.count := by
  unfold place
  cases a.free <;> rfl

/-- **Linking puts the value behind all the others.** -/
theorem holds_link {a : Arena α} {items : List (Handle × α)} (ha : Holds a items) (v : α) :
    Holds (a.link v).2 (items ++ [(a.nextHandle, v)]) := by
  refine ⟨?_, ?_, ?_, ?_, ?_, ?_, ?_, ?_⟩
  · intro before k w after he
    exact cells_link ha v he
  · rw [List.map_append, List.nodup_append]
    refine ⟨ha.nodup, by simp, ?_⟩
    intro i hi j hj hij
    obtain ⟨item, hm, rfl⟩ := List.mem_map.mp hi
    obtain rfl : j = a.nextSlot := by simpa [nextHandle] using hj
    exact index_ne_nextSlot ha hm hij
  · intro i g c hs
    exact occupied_link ha hs
  · intro i
    exact vacant_link ha v i
  · rw [free_link]
    exact ha.free_nodup.sublist (List.tail_sublist _)
  · show ((a.place ⟨v, a.tail, none⟩).2.joinNext _ (some (a.place ⟨v, a.tail, none⟩).1)).head = _
    rw [head_joinNext, fst_place, head_place, ha.tail, ha.head]
    cases items with
    | nil => rfl
    | cons x items => simp [slotOf, List.getLast?_cons]
  · show some (a.place ⟨v, a.tail, none⟩).1 = _
    rw [fst_place, List.getLast?_concat]
    rfl
  · show ((a.place ⟨v, a.tail, none⟩).2.joinNext _ _).count + 1 = _
    rw [count_joinNext, count_place, ha.count]
    simp

end Arena

end ChatRoom
