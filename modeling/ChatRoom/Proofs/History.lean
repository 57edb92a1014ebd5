import ChatRoom.Proofs.Lobby

/-!
# What a peer reads

All that is ever queued for a peer is determined by the news. A peer that never presents itself to a
server that looks at it reads nothing. One that is refused reads why, and nothing more. One that is
admitted reads that it is in, then who else is, and from then on whatever the other members do,
until it is taken down itself.

`heard` is that account: whatever has gone on among any number of peers, an outbox holds nothing
else. A peer is in one of three phases, which the history alone tells and which the hall agrees with
(`Recorded`). What one piece of news adds to the account depends on the phase.
-/

namespace ChatRoom

open Arena

/-- What a member reads of later news. -/
def overheard (peer : Nat) : List News → List Record
  | [] => []
  | .refused .. :: rest => overheard peer rest
  | .admitted _ user _ :: rest =>
    Hall.arrival user.name :: .connect user false :: overheard peer rest
  | .said n speaker text :: rest =>
    if n = peer then overheard peer rest
    else .stdout (Hall.line speaker.name text) :: overheard peer rest
  | .left n (some user) :: rest =>
    if n = peer then [] else .leaving user.name :: overheard peer rest
  | .left n none :: rest => if n = peer then [] else overheard peer rest
  | .emptied :: _ => []

/-- What a peer reads of all the news since the beginning. -/
def heard (peer : Nat) : List News → List Record
  | [] => []
  | .refused n denial :: rest => if n = peer then [.stdout denial.notice] else heard peer rest
  | .admitted n user present :: rest =>
    if n = peer then .connect user true :: present.map (.connect · false) ++ overheard peer rest
    else heard peer rest
  | .said .. :: rest | .left .. :: rest | .emptied :: rest => heard peer rest

/-! ## Phases -/

/-- How far a peer has come, as the news tells. -/
inductive Phase where
  /-- Nothing has been decided about it. -/
  | outside
  | member
  /-- It has been refused, or was a member once. -/
  | done
  deriving DecidableEq, Repr

/-- Whether a member is still one after some news. -/
def stays (peer : Nat) : List News → Bool
  | [] => true
  | .left n _ :: rest => if n = peer then false else stays peer rest
  | .emptied :: _ => false
  | .refused .. :: rest | .admitted .. :: rest | .said .. :: rest => stays peer rest

def phase (peer : Nat) : List News → Phase
  | [] => .outside
  | .refused n _ :: rest => if n = peer then .done else phase peer rest
  | .admitted n _ _ :: rest =>
    if n = peer then if stays peer rest then .member else .done else phase peer rest
  | .said .. :: rest | .left .. :: rest | .emptied :: rest => phase peer rest

theorem stays_append (peer : Nat) (old new : List News) :
    stays peer (old ++ new) = (stays peer old && stays peer new) := by
  induction old with
  | nil => rfl
  | cons news rest ih =>
      cases news with
      | refused n denial => exact ih
      | admitted n user present => exact ih
      | said n speaker text => exact ih
      | left n member =>
          simp only [List.cons_append, stays]
          split
          · rfl
          · exact ih
      | emptied => rfl

theorem overheard_append (peer : Nat) (old new : List News) :
    overheard peer (old ++ new)
      = overheard peer old ++ if stays peer old then overheard peer new else [] := by
  induction old with
  | nil => rfl
  | cons news rest ih =>
      cases news with
      | refused n denial => exact ih
      | admitted n user present =>
          simp only [List.cons_append, overheard, stays, ih]
          rfl
      | said n speaker text =>
          simp only [List.cons_append, overheard, stays, ih]
          split <;> rfl
      | left n member =>
          cases member with
          | none =>
              simp only [List.cons_append, overheard, stays, ih]
              split <;> rfl
          | some user =>
              simp only [List.cons_append, overheard, stays, ih]
              split <;> rfl
      | emptied => rfl

theorem phase_append (peer : Nat) (old new : List News) :
    phase peer (old ++ new) = match phase peer old with
      | .outside => phase peer new
      | .member => if stays peer new then .member else .done
      | .done => .done := by
  induction old with
  | nil => rfl
  | cons news rest ih =>
      cases news with
      | refused n denial =>
          simp only [List.cons_append, phase]
          split
          · rfl
          · exact ih
      | admitted n user present =>
          simp only [List.cons_append, phase, stays_append]
          split
          · cases stays peer rest <;> rfl
          · exact ih
      | said n speaker text => exact ih
      | left n member => exact ih
      | emptied => exact ih

/-- **What later news adds depends on the phase alone.** -/
theorem heard_append (peer : Nat) (old new : List News) :
    heard peer (old ++ new) = heard peer old ++ match phase peer old with
      | .outside => heard peer new
      | .member => overheard peer new
      | .done => [] := by
  -- on the old news: only what decides about the peer hands over to what members read
  induction old with
  | nil => rfl
  | cons news rest ih =>
      cases news with
      | refused n denial =>
          simp only [List.cons_append, heard, phase]
          split
          · rfl
          · exact ih
      | admitted n user present =>
          simp only [List.cons_append, heard, phase, overheard_append]
          split
          · cases stays peer rest <;> simp
          · exact ih
      | said n speaker text => exact ih
      | left n member => exact ih
      | emptied => exact ih

theorem heard_of_outside {peer : Nat} {history : List News}
    (h : phase peer history = .outside) : heard peer history = [] := by
  induction history with
  | nil => rfl
  | cons news rest ih =>
      cases news with
      | refused n denial =>
          rw [phase] at h
          rw [heard]
          split
          · rename_i hn
            rw [if_pos hn] at h
            exact absurd h (by simp)
          · rename_i hn
            rw [if_neg hn] at h
            exact ih h
      | admitted n user present =>
          rw [phase] at h
          rw [heard]
          split
          · rename_i hn
            rw [if_pos hn] at h
            split at h
            · exact absurd h (by simp)
            · exact absurd h (by simp)
          · rename_i hn
            rw [if_neg hn] at h
            exact ih h
      | said n speaker text => exact ih h
      | left n member => exact ih h
      | emptied => exact ih h

theorem phase_snoc_member (peer : Nat) (history : List News) (news : News) :
    phase peer (history ++ [news]) = .member ↔
      phase peer history = .member ∧ stays peer [news] = true
        ∨ phase peer history = .outside ∧ phase peer [news] = .member := by
  rw [phase_append]
  cases phase peer history with
  | outside => simp
  | member => simp
  | done => simp

theorem phase_snoc_outside (peer : Nat) (history : List News) (news : News) :
    phase peer (history ++ [news]) = .outside ↔
      phase peer history = .outside ∧ phase peer [news] = .outside := by
  rw [phase_append]
  cases phase peer history with
  | outside => simp
  | member => cases stays peer [news] <;> simp
  | done => simp

/-! ## Phases and seats -/

namespace Hall

variable {hall : Hall Nat} {history : List News}

/-- A peer is a member if it has a member's seat. -/
def Has (hall : Hall Nat) (peer : Nat) : Prop :=
  ∃ seat ∈ hall.seats, seat.outbox = peer ∧ seat.standing.user?.isSome

theorem has_iff {peer : Nat} : hall.Has peer ↔ ∃ m ∈ hall.members, m.1.outbox = peer := by
  constructor
  · intro h
    obtain ⟨seat, hs, ho, hu⟩ := h
    obtain ⟨user, hu⟩ := Option.isSome_iff_exists.mp hu
    exact ⟨(seat, user), mem_membersOf.mpr ⟨hs, Standing.user?_eq_some_iff.mp hu⟩, ho⟩
  · intro h
    obtain ⟨⟨seat, user⟩, hm, ho⟩ := h
    obtain ⟨hs, hst⟩ := mem_membersOf.mp hm
    exact ⟨seat, hs, ho, by rw [hst]; rfl⟩

/-- The news has told of every seat what it is now. -/
structure Recorded (hall : Hall Nat) (history : List News) : Prop where
  member : ∀ peer, phase peer history = .member ↔ hall.Has peer
  waiting : ∀ seat ∈ hall.seats, seat.standing = .waiting → phase seat.outbox history = .outside
  /-- Nothing is known of those that have not come. -/
  future : ∀ peer, hall.arrived ≤ peer → phase peer history = .outside

theorem recorded_empty : Recorded {} [] where
  member := by intro peer; simp [phase, Has]
  waiting := by intro seat hs; simp at hs
  future := by intro peer _; rfl

theorem outbox_inj {version : Version} (h : hall.Sound version) {seat seat' : Seat Nat}
    (hs : seat ∈ hall.seats) (hs' : seat' ∈ hall.seats) (he : seat.outbox = seat'.outbox) :
    seat = seat' := List.inj_on_of_nodup_map h.outboxes hs hs' he

/-- Who is seated after a seat was given another standing. -/
theorem mem_seats_place {version : Version} (h : hall.Sound version) {seat : Seat Nat}
    (hs : seat ∈ hall.seats) {standing : Standing} {seat' : Seat Nat} :
    seat' ∈ (hall.place seat.key standing).seats ↔
      seat' = { seat with standing } ∨ seat' ∈ hall.seats ∧ seat'.outbox ≠ seat.outbox := by
  rw [place, List.mem_map]
  constructor
  · intro hm
    obtain ⟨old, hold, rfl⟩ := hm
    by_cases hk : old.key = seat.key
    · obtain rfl := List.inj_on_of_nodup_map h.keys hold hs hk
      rw [if_pos rfl]
      exact Or.inl rfl
    · rw [if_neg hk]
      refine Or.inr ⟨hold, ?_⟩
      intro ho
      exact hk (congrArg Seat.key (outbox_inj h hold hs ho))
  · intro hm
    rcases hm with rfl | ⟨hold, ho⟩
    · exact ⟨seat, hs, if_pos rfl⟩
    · refine ⟨seat', hold, if_neg ?_⟩
      intro hk
      exact ho (congrArg Seat.outbox (List.inj_on_of_nodup_map h.keys hold hs hk))

/-- Who is seated after a seat was taken away. -/
theorem mem_seats_remove {version : Version} (h : hall.Sound version) {seat : Seat Nat}
    (hs : seat ∈ hall.seats) {seat' : Seat Nat} :
    seat' ∈ (hall.remove seat.key).seats ↔ seat' ∈ hall.seats ∧ seat'.outbox ≠ seat.outbox := by
  rw [remove, List.mem_filter, decide_eq_true_eq]
  constructor
  · intro hm
    refine ⟨hm.1, fun ho => hm.2 ?_⟩
    exact congrArg Seat.key (outbox_inj h hm.1 hs ho)
  · intro hm
    refine ⟨hm.1, fun hk => hm.2 ?_⟩
    exact congrArg Seat.outbox (List.inj_on_of_nodup_map h.keys hm.1 hs hk)

theorem has_place {version : Version} (h : hall.Sound version) {seat : Seat Nat}
    (hs : seat ∈ hall.seats) (hw : seat.standing = .waiting) (standing : Standing) (peer : Nat) :
    (hall.place seat.key standing).Has peer ↔
      hall.Has peer ∨ seat.outbox = peer ∧ standing.user?.isSome := by
  constructor
  · intro hhas
    obtain ⟨seat', hs', ho, hu⟩ := hhas
    rcases (mem_seats_place h hs).mp hs' with rfl | ⟨hold, -⟩
    · exact Or.inr ⟨ho, hu⟩
    · exact Or.inl ⟨seat', hold, ho, hu⟩
  · intro hhas
    rcases hhas with ⟨seat', hs', ho, hu⟩ | ⟨ho, hu⟩
    · refine ⟨seat', (mem_seats_place h hs).mpr (Or.inr ⟨hs', fun he => ?_⟩), ho, hu⟩
      -- a member's seat is not the waiting one
      obtain rfl := outbox_inj h hs' hs he
      rw [hw] at hu
      simp [Standing.user?] at hu
    · exact ⟨{ seat with standing }, (mem_seats_place h hs).mpr (Or.inl rfl), ho, hu⟩

theorem has_remove {version : Version} (h : hall.Sound version) {seat : Seat Nat}
    (hs : seat ∈ hall.seats) (peer : Nat) :
    (hall.remove seat.key).Has peer ↔ hall.Has peer ∧ seat.outbox ≠ peer := by
  constructor
  · intro hhas
    obtain ⟨seat', hs', ho, hu⟩ := hhas
    obtain ⟨hold, hne⟩ := (mem_seats_remove h hs).mp hs'
    exact ⟨⟨seat', hold, ho, hu⟩, fun he => hne (ho.trans he.symm)⟩
  · intro hhas
    obtain ⟨⟨seat', hs', ho, hu⟩, hne⟩ := hhas
    exact ⟨seat', (mem_seats_remove h hs).mpr ⟨hs', fun he => hne (he.symm.trans ho)⟩, ho, hu⟩

/-- A decision about a waiting seat is recorded with it. -/
theorem recorded_place {version : Version} (h : hall.Sound version)
    (hr : hall.Recorded history) {seat : Seat Nat} (hs : seat ∈ hall.seats)
    (hw : seat.standing = .waiting) {standing : Standing} (hst : standing ≠ .waiting) {news : News}
    (hself : phase seat.outbox [news] = if standing.user?.isSome then .member else .done)
    (hother : ∀ peer, seat.outbox ≠ peer → phase peer [news] = .outside)
    (hstays : ∀ peer, stays peer [news] = true) :
    (hall.place seat.key standing).Recorded (history ++ [news]) := by
  refine ⟨?_, ?_, ?_⟩
  · intro peer
    rw [phase_snoc_member, hr.member, has_place h hs hw]
    refine or_congr (and_iff_left (hstays peer)) ?_
    constructor
    · intro hnow
      have hphase := hnow.2
      by_cases he : seat.outbox = peer
      · subst he
        rw [hself] at hphase
        refine ⟨rfl, ?_⟩
        by_cases hu : standing.user?.isSome
        · exact hu
        · rw [if_neg hu] at hphase
          exact absurd hphase (by simp)
      · rw [hother peer he] at hphase
        exact absurd hphase (by simp)
    · intro hnow
      obtain ⟨rfl, hu⟩ := hnow
      rw [hself, if_pos hu]
      exact ⟨hr.waiting seat hs hw, rfl⟩
  · -- any other seat that waits goes on waiting
    intro seat' hs' hw'
    rw [phase_snoc_outside]
    rcases (mem_seats_place h hs).mp hs' with rfl | ⟨hold, hne⟩
    · exact absurd hw' hst
    · exact ⟨hr.waiting seat' hold hw', hother _ fun he => hne he.symm⟩
  · intro peer hle
    rw [phase_snoc_outside]
    have hlt := h.arrived seat hs
    have hle' : hall.arrived ≤ peer := hle
    exact ⟨hr.future peer hle', hother peer (by omega)⟩

/-- News that decides about nobody is recorded when those it ends are gone. -/
theorem recorded_append (hr : hall.Recorded history) {hall' : Hall Nat} {news : News}
    (harrived : hall'.arrived = hall.arrived) (hout : ∀ peer, phase peer [news] = .outside)
    (hseats : ∀ seat ∈ hall'.seats, seat ∈ hall.seats)
    (hhas : ∀ peer, hall'.Has peer ↔ hall.Has peer ∧ stays peer [news] = true) :
    hall'.Recorded (history ++ [news]) := by
  refine ⟨?_, ?_, ?_⟩
  · intro peer
    rw [phase_snoc_member, hr.member, hhas, hout]
    simp
  · intro seat hs hw
    rw [phase_snoc_outside]
    exact ⟨hr.waiting seat (hseats seat hs) hw, hout _⟩
  · intro peer hle
    rw [phase_snoc_outside]
    rw [harrived] at hle
    exact ⟨hr.future peer hle, hout _⟩

theorem recorded_move {version : Version} (h : hall.Sound version) (hr : hall.Recorded history)
    {outcome : Hall Nat × Option News} (hmove : Move version hall outcome) :
    outcome.1.Recorded (history ++ outcome.2.toList) := by
  cases hmove with
  | stay => simpa using hr
  | @refuse seat hs hw user denial =>
      refine recorded_place h hr hs hw (by simp) ?_ ?_ ?_
      · simp [phase, Standing.user?]
      · intro peer hne
        simp [phase, hne]
      · intro peer
        rfl
  | @welcome seat hs hw user hd =>
      refine recorded_place h hr hs hw (by simp) ?_ ?_ ?_
      · simp [phase, stays, Standing.user?]
      · intro peer hne
        simp [phase, hne]
      · intro peer
        rfl
  | say hm text =>
      refine recorded_append hr rfl (fun _ => rfl) (fun seat hs => hs) ?_
      intro peer
      simp [stays]
  | @leave seat hs =>
      refine recorded_append hr rfl (fun _ => rfl) ?_ ?_
      · intro seat' hs'
        exact ((mem_seats_remove h hs).mp hs').1
      · intro peer
        refine (has_remove h hs peer).trans ?_
        simp [stays]
  | empty =>
      refine recorded_append hr rfl (fun _ => rfl) ?_ ?_
      · intro seat hs
        simp at hs
      · intro peer
        simp [stays, Has]

theorem recorded_register (hr : hall.Recorded history) (version : Version) (fresh : Nat)
    (address : Option SocketAddress) :
    (hall.step version fresh (.register address)).1.Recorded history := by
  refine ⟨?_, ?_, ?_⟩
  · intro peer
    rw [hr.member, has_iff, has_iff, members_register]
  · intro seat hs hw
    rcases List.mem_append.mp hs with hold | hnew
    · exact hr.waiting seat hold hw
    · obtain rfl := List.mem_singleton.mp hnew
      exact hr.future hall.arrived (Nat.le_refl _)
  · intro peer hle
    have hle' : hall.arrived + 1 ≤ peer := hle
    exact hr.future peer (by omega)

/-- **The news keeps up with the hall.** -/
theorem recorded_step {version : Version} (h : hall.Sound version) (hr : hall.Recorded history)
    (fresh : Nat) (request : Request Nat) :
    (hall.step version fresh request).1.Recorded
      (history ++ (hall.step version fresh request).2.toList) := by
  rcases request.register_or with ⟨address, rfl⟩ | hq
  · show Recorded _ (history ++ [])
    rw [List.append_nil]
    exact recorded_register hr version fresh address
  · exact recorded_move h hr (move_step version fresh hall hq)

end Hall

end ChatRoom
