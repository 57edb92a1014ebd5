import ChatRoom.Proofs.ArenaOrder

/-!
# Handles across reuse of a slot

A slot is used again and again, and each removal moves its generation on. So of all the handles that
were ever given out for a slot, only the last one can be at the slot's generation, and only while
its value is still linked: every other one is behind for good. `Issued` is that statement. It makes
every new handle different from all earlier ones, and it keeps the handle of a removed value from
finding whatever stands in the slot now.

The generation is a machine word. It would come round after as many removals as there are words, so
removing asks that it does not; `Turned` bounds every generation by the number of removals.
-/

namespace ChatRoom.Arena

variable {α : Type}

/-- Handles that an arena has given out: none is ahead of its slot, and one that is level with it
names a value that is still there. -/
def Issued (a : Arena α) (handles : List Handle) : Prop :=
  ∀ h ∈ handles, ∃ slot, a.slots[h.index]? = some slot
    ∧ h.generation.toNat ≤ slot.generation.toNat
    ∧ (h.generation = slot.generation → slot.cell ≠ none)

/-- No slot has been vacated more than `n` times. -/
def Turned (a : Arena α) (n : Nat) : Prop :=
  ∀ (i : Nat) (slot : Slot α), a.slots[i]? = some slot → slot.generation.toNat ≤ n

theorem issued_empty : Issued ({} : Arena α) [] := by intro h hm; simp at hm

theorem turned_empty : Turned ({} : Arena α) 0 := by intro i slot hs; simp at hs

theorem toNat_succ_generation {g : UInt64} (h : g.toNat + 1 < UInt64.size) :
    (g + 1).toNat = g.toNat + 1 := by
  rw [UInt64.toNat_add]
  exact Nat.mod_eq_of_lt h

/-- A slot that was not vacated is as occupied as before, and at the same generation. -/
theorem issued_slot {slot : Slot α} {h : Handle} {f : Cell α → Cell α}
    (hs : h.generation.toNat ≤ slot.generation.toNat
      ∧ (h.generation = slot.generation → slot.cell ≠ none)) :
    h.generation.toNat ≤ (slot.mapCell f).generation.toNat
      ∧ (h.generation = (slot.mapCell f).generation → (slot.mapCell f).cell ≠ none) := by
  refine ⟨hs.1, fun he hc => hs.2 he ?_⟩
  simpa [Slot.mapCell] using hc

/-! ## Changing -/

theorem issued_modify {a : Arena α} {handles : List Handle} (hi : Issued a handles)
    (h : Handle) (f : α → α) : Issued (a.modify h f) handles := by
  intro k hk
  obtain ⟨slot, hs, hslot⟩ := hi k hk
  rw [slots_modify, hs, Option.map_some]
  split
  · exact ⟨_, rfl, issued_slot hslot⟩
  · exact ⟨_, rfl, hslot⟩

theorem turned_modify {a : Arena α} {n : Nat} (ht : Turned a n) (h : Handle) (f : α → α) :
    Turned (a.modify h f) n := by
  intro i slot hs
  rw [slots_modify, Option.map_eq_some_iff] at hs
  obtain ⟨slot', hs', rfl⟩ := hs
  have := ht i slot' hs'
  split
  · exact this
  · exact this

/-! ## Putting in -/

/-- **A new handle has never been given out before.** -/
theorem nextHandle_not_issued {a : Arena α} {items : List (Handle × α)} (ha : Holds a items)
    {handles : List Handle} (hi : Issued a handles) : a.nextHandle ∉ handles := by
  intro hm
  obtain ⟨slot, hs, -, hlevel⟩ := hi _ hm
  rcases nextSlot_vacant ha with hn | ⟨g, hn⟩
  · exact absurd (hs.symm.trans hn) (by simp)
  · obtain rfl : slot = ⟨g, none⟩ := Option.some.inj (hs.symm.trans hn)
    exact hlevel (by simp [nextHandle, hn]) rfl

theorem issued_link {a : Arena α} {items : List (Handle × α)} (ha : Holds a items)
    {handles : List Handle} (hi : Issued a handles) (v : α) :
    Issued (a.link v).2 (handles ++ [a.nextHandle]) := by
  have hself := slots_link_self ha v
  intro k hk
  rcases List.mem_append.mp hk with hold | hnew
  · obtain ⟨slot, hs, hle, hlevel⟩ := hi k hold
    by_cases hj : a.nextSlot = k.index
    · -- the slot was vacant, so `k` was behind it already
      rcases nextSlot_vacant ha with hn | ⟨g, hn⟩
      · exact absurd (hs.symm.trans (hj ▸ hn)) (by simp)
      · obtain rfl : slot = ⟨g, none⟩ := Option.some.inj (hs.symm.trans (hj ▸ hn))
        have hg : a.nextHandle.generation = g := by simp [nextHandle, hn]
        rw [hj, hg] at hself
        exact ⟨_, hself, hle, fun _ hc => by simp at hc⟩
    · rw [slots_link_ne ha v hj, hs, Option.map_some]
      split
      · exact ⟨_, rfl, issued_slot ⟨hle, hlevel⟩⟩
      · exact ⟨_, rfl, hle, hlevel⟩
  · -- the new handle is level with its slot, which is occupied from now on
    obtain rfl : k = a.nextHandle := by simpa using hnew
    exact ⟨_, hself, Nat.le_refl _, fun _ hc => by simp at hc⟩

theorem turned_link {a : Arena α} {items : List (Handle × α)} (ha : Holds a items) {n : Nat}
    (ht : Turned a n) (v : α) : Turned (a.link v).2 n := by
  intro i slot hs
  by_cases hj : a.nextSlot = i
  · subst hj
    rw [slots_link_self ha] at hs
    obtain rfl := Option.some.inj hs
    rcases nextSlot_vacant ha with hn | ⟨g, hn⟩
    · simp [nextHandle, hn]
    · simpa [nextHandle, hn] using ht _ _ hn
  · rw [slots_link_ne ha v hj, Option.map_eq_some_iff] at hs
    obtain ⟨slot', hs', rfl⟩ := hs
    have := ht i slot' hs'
    split
    · exact this
    · exact this

/-! ## Taking out -/

theorem issued_unlink {a a' : Arena α} {handles : List Handle} (hi : Issued a handles)
    {h : Handle} {v : α} (hu : a.unlink h = some (v, a'))
    (hroom : h.generation.toNat + 1 < UInt64.size) : Issued a' handles := by
  obtain ⟨cell, hs, -, rfl⟩ := unlink_eq_some hu
  intro k hk
  obtain ⟨slot, hs', hle, hlevel⟩ := hi k hk
  by_cases hj : h.index = k.index
  · -- every handle of this slot is now behind it
    obtain rfl : slot = ⟨h.generation, some cell⟩ := Option.some.inj (by rw [← hs', ← hs, hj])
    rw [← hj, slots_cut_self hs _]
    have hnext := toNat_succ_generation hroom
    have hbehind : k.generation.toNat ≤ h.generation.toNat := hle
    refine ⟨_, rfl, ?_, ?_⟩
    · show k.generation.toNat ≤ (h.generation + 1).toNat
      omega
    · intro he
      have he' : k.generation.toNat = (h.generation + 1).toNat := congrArg UInt64.toNat he
      omega
  · obtain ⟨f, -, hslots⟩ := slots_cut_ne hj cell
    rw [hslots, hs', Option.map_some]
    exact ⟨_, rfl, issued_slot ⟨hle, hlevel⟩⟩

theorem turned_unlink {a a' : Arena α} {n : Nat} (ht : Turned a n) {h : Handle} {v : α}
    (hu : a.unlink h = some (v, a')) (hroom : h.generation.toNat + 1 < UInt64.size) :
    Turned a' (n + 1) := by
  obtain ⟨cell, hs, -, rfl⟩ := unlink_eq_some hu
  intro i slot hs'
  by_cases hj : h.index = i
  · subst hj
    rw [slots_cut_self hs _] at hs'
    obtain rfl := Option.some.inj hs'
    have hgen : h.generation.toNat ≤ n := ht _ _ hs
    show (h.generation + 1).toNat ≤ n + 1
    rw [toNat_succ_generation hroom]
    omega
  · obtain ⟨f, -, hslots⟩ := slots_cut_ne hj cell
    rw [hslots, Option.map_eq_some_iff] at hs'
    obtain ⟨slot', hold, rfl⟩ := hs'
    exact Nat.le_succ_of_le (ht i slot' hold)

/-- The handle of a listed value is at its slot's generation. -/
theorem generation_le {a : Arena α} {items : List (Handle × α)} (ha : Holds a items) {n : Nat}
    (ht : Turned a n) {h : Handle} {v : α} (hm : (h, v) ∈ items) : h.generation.toNat ≤ n := by
  obtain ⟨prev, next, hs⟩ := lookup_of_mem ha hm
  exact ht _ _ hs

/-! ## Any number of changes and removals -/

/-- `a'` has come from `a` by changing values and taking some out. -/
inductive Thinned : Arena α → Arena α → Prop where
  | refl (a : Arena α) : Thinned a a
  | modify {a a' : Arena α} (before : Thinned a a') (h : Handle) (f : α → α) :
      Thinned a (a'.modify h f)
  | unlink {a a' a'' : Arena α} {h : Handle} {v : α} (before : Thinned a a')
      (hu : a'.unlink h = some (v, a'')) : Thinned a a''

theorem Thinned.trans {a a' a'' : Arena α} (h : Thinned a a') (h' : Thinned a' a'') :
    Thinned a a'' := by
  induction h' with
  | refl => exact h
  | modify _ k f ih => exact ih.modify k f
  | unlink _ hu ih => exact ih.unlink hu

/-- **What was given out stays apart while values change and go**, as long as the removals can be
counted: as many as the list has become shorter by. -/
theorem holds_thinned {a a' : Arena α} {items : List (Handle × α)} (ha : Holds a items)
    (hthin : Thinned a a') :
    ∃ items', Holds a' items' ∧ items'.length ≤ items.length
      ∧ ∀ handles n, Issued a handles → Turned a n →
          n + (items.length - items'.length) < UInt64.size →
          Issued a' handles ∧ Turned a' (n + (items.length - items'.length)) := by
  induction hthin with
  | refl =>
      refine ⟨items, ha, Nat.le_refl _, ?_⟩
      intro handles n hi ht _
      exact ⟨hi, by simpa using ht⟩
  | modify _ h f ih =>
      obtain ⟨items', ha', hle, hkeep⟩ := ih
      have hlen : (change h f items').length = items'.length := List.length_map _
      refine ⟨change h f items', holds_modify ha' h f, by omega, ?_⟩
      intro handles n hi ht hroom
      rw [hlen] at hroom ⊢
      obtain ⟨hi', ht'⟩ := hkeep handles n hi ht hroom
      exact ⟨issued_modify hi' h f, turned_modify ht' h f⟩
  | @unlink a₁ a₂ h v _ hu ih =>
      obtain ⟨items', ha', hle, hkeep⟩ := ih
      -- what is taken out was listed, so there is one value less
      have hm : (h, v) ∈ items' := by
        obtain ⟨cell, hs, rfl, -⟩ := unlink_eq_some hu
        exact ha'.occupied h.index h.generation cell hs
      obtain ⟨before, after, rfl⟩ := List.append_of_mem hm
      obtain ⟨a₃, hu', ha₃⟩ := unlink_of_holds ha'
      obtain rfl : a₃ = a₂ := by
        rw [hu, Option.some.injEq, Prod.mk.injEq] at hu'
        exact hu'.2.symm
      simp only [List.length_append, List.length_cons] at hle hkeep
      refine ⟨before ++ after, ha₃, by simp only [List.length_append]; omega, ?_⟩
      intro handles n hi ht hroom
      rw [List.length_append] at hroom ⊢
      obtain ⟨hi', ht'⟩ := hkeep handles n hi ht (by omega)
      have hgen := generation_le ha' ht' hm
      refine ⟨issued_unlink hi' hu (by omega), ?_⟩
      have := turned_unlink ht' hu (by omega)
      rwa [show n + (items.length - (before.length + (after.length + 1))) + 1
        = n + (items.length - (before.length + after.length)) by omega] at this

end ChatRoom.Arena
