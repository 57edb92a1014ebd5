import Mathlib.Algebra.GroupWithZero.Nat
import Mathlib.Data.List.Find
import Mathlib.Data.Nat.Count
import ChatRoom.Proofs.Hall

/-!
# A party and its outsiders

A party is some of the peers of a hall, and a peer that is not of the party is an outsider. As long
as no outsider is a member, the rules never ask for one: `Hall.within` leaves the outsiders' seats
out, and what the party asks for does to the seats that are left what it did to all of them. What an
outsider asks for does nothing to them at all.

Without outsiders the party's peers come one after the other, and each is numbered by how many of
the party came before it.
-/

namespace ChatRoom

/-! ## Leaving outsiders out -/

/-- The peer that a request comes from or is about. A registration is that of the next peer. -/
def Request.peer? (arrived : Nat) : Request Nat → Option Nat
  | .register _ => some arrived
  | .dispatch origin _ | .close origin => some origin
  | .deafen n => some n
  | .kick _ | .disconnectAll => none

def Request.renumber (f : Nat → Nat) : Request Nat → Request Nat
  | .register address => .register address
  | .dispatch origin record => .dispatch (f origin) record
  | .close origin => .close (f origin)
  | .kick name => .kick name
  | .disconnectAll => .disconnectAll
  | .deafen n => .deafen (f n)

def Seat.renumber (f : Nat → Nat) (seat : Seat Nat) : Seat Nat :=
  { seat with key := f seat.key, outbox := f seat.outbox }

def News.renumber (f : Nat → Nat) : News → News
  | .refused n denial => .refused (f n) denial
  | .admitted n user present => .admitted (f n) user present
  | .said n speaker text => .said (f n) speaker text
  | .left n member => .left (f n) member
  | .emptied => .emptied

/-- The outbox of the connection that some news is about. -/
def News.subject? : News → Option Nat
  | .refused n _ | .admitted n .. | .said n .. | .left n _ => some n
  | .emptied => none

/-- How many peers come by a request. -/
def Request.arrivals {ι : Type} : Request ι → Nat
  | .register _ => 1
  | .dispatch .. | .close _ | .kick _ | .disconnectAll | .deafen _ => 0

section

variable (party : Nat → Prop) [DecidablePred party]

/-- A request as it stands in a run without outsiders, if it stands there. -/
def Request.within? (arrived : Nat) (request : Request Nat) : Option (Request Nat) :=
  if ∀ p ∈ request.peer? arrived, party p then some (request.renumber (Nat.count party)) else none

/-- A run without the requests of outsiders. So many peers have come before it. -/
def Request.allWithin : (arrived : Nat) → List (Request Nat) → List (Request Nat)
  | _, [] => []
  | arrived, request :: rest =>
    (request.within? party arrived).toList ++ allWithin (arrived + request.arrivals) rest

/-- The hall as the party makes it up. -/
def Hall.within (hall : Hall Nat) : Hall Nat where
  seats := (hall.seats.filter fun seat => party seat.key).map (Seat.renumber (Nat.count party))
  arrived := Nat.count party hall.arrived

/-- No outsider is a member. -/
def Hall.Closed (hall : Hall Nat) : Prop := ∀ m ∈ hall.members, party m.1.key

end

/-! ## Numbers -/

section

variable {party : Nat → Prop} [DecidablePred party]

theorem count_inj {p q : Nat} (hp : party p) (hq : party q) :
    Nat.count party p = Nat.count party q ↔ p = q :=
  ⟨Nat.count_injective hp hq, congrArg _⟩

theorem count_lt_iff {p n : Nat} (hp : party p) :
    Nat.count party p < Nat.count party n ↔ p < n :=
  ⟨Nat.lt_of_count_lt_count, Nat.count_strict_mono hp⟩

theorem Request.allWithin_append (arrived : Nat) (requests more : List (Request Nat)) :
    allWithin party arrived (requests ++ more) = allWithin party arrived requests
      ++ allWithin party (arrived + (requests.map arrivals).sum) more := by
  induction requests generalizing arrived with
  | nil => simp [allWithin]
  | cons first rest ih =>
      rw [List.cons_append, allWithin, allWithin, ih, List.map_cons, List.sum_cons,
        List.append_assoc, Nat.add_assoc]

theorem Request.allWithin_singleton (arrived : Nat) (request : Request Nat) :
    allWithin party arrived [request] = (request.within? party arrived).toList := by
  rw [allWithin, allWithin, List.append_nil]

namespace Hall

variable {hall : Hall Nat}

/-! ## Reading the hall -/

theorem membersOf_within {seats : List (Seat Nat)} (hc : ∀ m ∈ membersOf seats, party m.1.key) :
    membersOf ((seats.filter fun seat => decide (party seat.key)).map
        (Seat.renumber (Nat.count party)))
      = (membersOf seats).map fun m => (m.1.renumber (Nat.count party), m.2) := by
  induction seats with
  | nil => rfl
  | cons seat rest ih =>
      rw [membersOf_cons] at hc
      have hrest := ih fun m hm => hc m (List.mem_append_right _ hm)
      rw [membersOf_cons, List.map_append, ← hrest, List.filter_cons]
      by_cases hp : party seat.key
      · rw [if_pos (decide_eq_true hp), List.map_cons, membersOf_cons]
        have hst : (seat.renumber (Nat.count party)).standing = seat.standing := rfl
        rw [hst]
        cases seat.standing.user? <;> rfl
      · -- a seat that is left out is no member's
        rw [if_neg (by simpa using hp)]
        cases hu : seat.standing.user? with
        | none => rfl
        | some user =>
            rw [hu] at hc
            exact absurd (hc (seat, user) (by simp)) hp

theorem members_within (hc : hall.Closed party) :
    (hall.within party).members
      = hall.members.map fun m => (m.1.renumber (Nat.count party), m.2) := membersOf_within hc

theorem denial?_within (hc : hall.Closed party) (version : Version) (user : Identity) :
    (hall.within party).denial? version user = hall.denial? version user := by
  have hnames : (hall.within party).members.map (·.2.name) = hall.members.map (·.2.name) := by
    rw [members_within hc, List.map_map]
    rfl
  rw [denial?, hnames, ← denial?]

theorem find?_within {key : Nat} (hp : party key) :
    (hall.within party).find? (Nat.count party key)
      = (hall.find? key).map (Seat.renumber (Nat.count party)) := by
  unfold find? within
  dsimp only
  rw [List.find?_map, List.find?_filter]
  refine congrArg _ (List.find?_congr fun seat _ => ?_)
  show decide (decide (party seat.key) = true
    ∧ decide (Nat.count party seat.key = Nat.count party key) = true) = _
  by_cases hs : party seat.key
  · simp [hs, count_inj hs hp]
  · have hne : seat.key ≠ key := fun he => hs (he ▸ hp)
    simp [hs, hne]

theorem others_within (hc : hall.Closed party) (except : Option Nat)
    (he : ∀ key ∈ except, party key) :
    (hall.within party).others (except.map (Nat.count party))
      = (hall.others except).map fun m => (m.1.renumber (Nat.count party), m.2) := by
  unfold others
  rw [members_within hc, List.filter_map]
  refine congrArg _ (List.filter_congr fun m hm => ?_)
  cases except with
  | none => simp
  | some key =>
      have hkey := count_inj (hc m hm) (he key rfl)
      show decide (some (Nat.count party m.1.key) ≠ some (Nat.count party key)) = _
      simp [hkey]

theorem named?_within (hc : hall.Closed party) (name : String) (except : Option Nat)
    (he : ∀ key ∈ except, party key) :
    (hall.within party).named? name (except.map (Nat.count party))
      = (hall.named? name except).map (Seat.renumber (Nat.count party)) := by
  unfold named?
  rw [others_within hc except he, List.find?_map, Option.map_map, Option.map_map]
  rfl

/-! ## Changing the hall -/

/-- A seat that is left out does not show, whatever becomes of it. -/
theorem within_congr {hall' : Hall Nat} (ha : hall'.arrived = hall.arrived)
    (hs : hall'.seats.filter (fun seat => decide (party seat.key))
      = hall.seats.filter fun seat => decide (party seat.key)) :
    hall'.within party = hall.within party := by
  rw [within, within, ha, hs]

/-- A seat's standing has no part in whether it is the party's. -/
theorem party_place (key : Nat) (standing : Standing) :
    ((fun seat : Seat Nat => decide (party seat.key)) ∘
      fun seat => if seat.key = key then { seat with standing } else seat)
        = fun seat => decide (party seat.key) := by
  funext seat
  show decide (party (if seat.key = key then { seat with standing } else seat).key) = _
  split <;> rfl

theorem within_place {key : Nat} (hp : party key) (standing : Standing) :
    (hall.place key standing).within party
      = (hall.within party).place (Nat.count party key) standing := by
  unfold within place
  dsimp only
  rw [List.filter_map, party_place, List.map_map, List.map_map]
  refine congrArg (Hall.mk · _) (List.map_congr_left fun seat hs => ?_)
  have hseat : party seat.key := by simpa using (List.mem_filter.mp hs).2
  have hkey : (seat.renumber (Nat.count party)).key = Nat.count party key ↔ seat.key = key :=
    count_inj hseat hp
  show Seat.renumber (Nat.count party) (if seat.key = key then { seat with standing } else seat)
    = if (seat.renumber (Nat.count party)).key = Nat.count party key then
        { seat.renumber (Nat.count party) with standing } else seat.renumber (Nat.count party)
  by_cases he : seat.key = key
  · rw [if_pos he, if_pos (hkey.mpr he)]
    rfl
  · rw [if_neg he, if_neg fun h => he (hkey.mp h)]

theorem within_place_outsider {key : Nat} (hp : ¬ party key) (standing : Standing) :
    (hall.place key standing).within party = hall.within party := by
  refine within_congr rfl ?_
  rw [place, List.filter_map, party_place]
  refine (List.map_congr_left fun seat hs => ?_).trans (List.map_id _)
  have hseat : party seat.key := by simpa using (List.mem_filter.mp hs).2
  have hne : seat.key ≠ key := fun he => hp (he ▸ hseat)
  exact if_neg hne

theorem within_remove {key : Nat} (hp : party key) :
    (hall.remove key).within party = (hall.within party).remove (Nat.count party key) := by
  unfold within remove
  dsimp only
  rw [List.filter_map, List.filter_filter, List.filter_filter]
  refine congrArg (fun seats : List (Seat Nat) => Hall.mk (seats.map _) _)
    (List.filter_congr fun seat _ => ?_)
  show (decide (party seat.key) && decide (seat.key ≠ key))
    = (decide (Nat.count party seat.key ≠ Nat.count party key) && decide (party seat.key))
  by_cases hs : party seat.key
  · simp [hs, count_inj hs hp]
  · simp [hs]

theorem within_remove_outsider {key : Nat} (hp : ¬ party key) :
    (hall.remove key).within party = hall.within party := by
  refine within_congr rfl ?_
  rw [remove, List.filter_filter]
  refine List.filter_congr fun seat _ => ?_
  by_cases hs : party seat.key
  · have hne : seat.key ≠ key := fun he => hp (he ▸ hs)
    simp [hs, hne]
  · simp [hs]

/-! ## What the party asks for -/

theorem leave_within {seat : Seat Nat} (hp : party seat.key) :
    (hall.within party).leave (seat.renumber (Nat.count party))
      = ((hall.leave seat).1.within party,
          (hall.leave seat).2.map (News.renumber (Nat.count party))) := by
  unfold leave
  rw [within_remove hp]
  rfl

omit [DecidablePred party] in
/-- The seat of a member that was found is the party's. -/
theorem Closed.named (hc : hall.Closed party) {name : String} {except : Option Nat}
    {seat : Seat Nat} (h : hall.named? name except = some seat) : party seat.key := by
  obtain ⟨user, hm, -⟩ := named?_eq_some h
  exact hc (seat, user) hm

theorem receive_within (hc : hall.Closed party) {seat : Seat Nat} (hp : party seat.key)
    (version : Version) (record : Record) :
    (hall.within party).receive version (seat.renumber (Nat.count party)) record
      = ((hall.receive version seat record).1.within party,
          (hall.receive version seat record).2.map (News.renumber (Nat.count party))) := by
  have hst : (seat.renumber (Nat.count party)).standing = seat.standing := rfl
  have hkey : (seat.renumber (Nat.count party)).key = Nat.count party seat.key := rfl
  cases record with
  | stdout text => rfl
  | connect user validateOnly => rfl
  | userInfo user =>
      have husers : (hall.within party).members.map (·.2) = hall.members.map (·.2) := by
        rw [members_within hc, List.map_map]
        rfl
      simp only [receive, hst, hkey, denial?_within hc, husers]
      cases seat.standing with
      | waiting =>
          cases hall.denial? version user with
          | some denial =>
              dsimp only
              rw [within_place hp]
              rfl
          | none =>
              dsimp only
              rw [within_place hp]
              rfl
      | refused known => rfl
      | member known => rfl
  | message text =>
      simp only [receive, hst]
      cases seat.standing <;> rfl
  | disconnect name =>
      have hnamed := named?_within hc name (some seat.key) (by simpa using hp)
      rw [Option.map_some] at hnamed
      simp only [receive, hst, hkey, hnamed]
      cases seat.standing with
      | waiting => rfl
      | refused known => rfl
      | member requester =>
          cases ht : hall.named? name (some seat.key) with
          | none => rfl
          | some target => exact leave_within (hc.named ht)

/-- **What the party asks for does the same without outsiders**, and leads to the same news. -/
theorem step_within (hc : hall.Closed party) (version : Version) {request : Request Nat}
    (hp : ∀ p ∈ request.peer? hall.arrived, party p) :
    (hall.within party).step version (hall.within party).arrived
        (request.renumber (Nat.count party))
      = ((hall.step version hall.arrived request).1.within party,
          (hall.step version hall.arrived request).2.map (News.renumber (Nat.count party))) := by
  cases request with
  | register address =>
      have hnew : party hall.arrived := hp hall.arrived rfl
      simp [Request.renumber, step, within, hnew, Nat.count_succ, Seat.renumber]
  | dispatch origin record =>
      have horigin : party origin := hp origin rfl
      simp only [Request.renumber, step, find?_within horigin]
      cases hf : hall.find? origin with
      | none => rfl
      | some seat =>
          obtain ⟨-, rfl⟩ := find?_eq_some hf
          exact receive_within hc horigin version record
  | close origin =>
      have horigin : party origin := hp origin rfl
      simp only [Request.renumber, step, find?_within horigin]
      cases hf : hall.find? origin with
      | none => rfl
      | some seat =>
          obtain ⟨-, rfl⟩ := find?_eq_some hf
          exact leave_within horigin
  | kick name =>
      have hnamed : (hall.within party).named? name none
          = (hall.named? name none).map (Seat.renumber (Nat.count party)) :=
        named?_within hc name none (by simp)
      simp only [Request.renumber, step, hnamed]
      cases ht : hall.named? name none with
      | none => rfl
      | some target => exact leave_within (hc.named ht)
  | disconnectAll => rfl
  | deafen n => rfl

omit [DecidablePred party] in
theorem subject_leave {seat : Seat Nat} (hk : seat.key = seat.outbox) (hp : party seat.key) :
    ∀ news ∈ (hall.leave seat).2, ∀ n ∈ news.subject?, party n := by
  intro news hnews n hn
  obtain rfl := Option.some.inj hnews
  obtain rfl := Option.some.inj hn
  exact hk ▸ hp

omit [DecidablePred party] in
/-- A record is news about the one that it came from, or about one who is found by name. -/
theorem subject_receive (hkeys : ∀ seat ∈ hall.seats, seat.key = seat.outbox)
    (hc : hall.Closed party) {seat : Seat Nat} (hs : seat ∈ hall.seats) (hp : party seat.key)
    (version : Version) (record : Record) :
    ∀ news ∈ (hall.receive version seat record).2, ∀ n ∈ news.subject?, party n := by
  have hseat : party seat.outbox := hkeys seat hs ▸ hp
  intro news hnews n hn
  cases record with
  | stdout text => exact absurd hnews (by simp [receive])
  | connect user validateOnly => exact absurd hnews (by simp [receive])
  | userInfo user =>
      unfold receive at hnews
      dsimp only at hnews
      split at hnews
      · split at hnews
        · obtain rfl := Option.some.inj hnews
          exact Option.some.inj hn ▸ hseat
        · obtain rfl := Option.some.inj hnews
          exact Option.some.inj hn ▸ hseat
      · exact absurd hnews (by simp)
  | message text =>
      unfold receive at hnews
      dsimp only at hnews
      split at hnews
      · obtain rfl := Option.some.inj hnews
        exact Option.some.inj hn ▸ hseat
      · exact absurd hnews (by simp)
  | disconnect name =>
      unfold receive at hnews
      dsimp only at hnews
      split at hnews
      · split at hnews
        · rename_i target ht
          obtain ⟨user, hm, -⟩ := named?_eq_some ht
          have hkey := hkeys target (mem_membersOf.mp hm).1
          exact subject_leave hkey (hc.named ht) news hnews n hn
        · exact absurd hnews (by simp)
      · exact absurd hnews (by simp)

omit [DecidablePred party] in
/-- What the party asks for is news about the party. -/
theorem subject_step (hkeys : ∀ seat ∈ hall.seats, seat.key = seat.outbox)
    (hc : hall.Closed party) (version : Version) {request : Request Nat}
    (hp : ∀ p ∈ request.peer? hall.arrived, party p) :
    ∀ news ∈ (hall.step version hall.arrived request).2, ∀ n ∈ news.subject?, party n := by
  intro news hnews
  cases request with
  | register address => exact absurd hnews (by simp [step])
  | dispatch origin record =>
      rw [step] at hnews
      split at hnews
      · rename_i seat hf
        obtain ⟨hs, rfl⟩ := find?_eq_some hf
        exact subject_receive hkeys hc hs (hp _ rfl) version record news hnews
      · exact absurd hnews (by simp)
  | close origin =>
      rw [step] at hnews
      split at hnews
      · rename_i seat hf
        obtain ⟨hs, rfl⟩ := find?_eq_some hf
        exact subject_leave (hkeys seat hs) (hp _ rfl) news hnews
      · exact absurd hnews (by simp)
  | kick name =>
      rw [step] at hnews
      split at hnews
      · rename_i target ht
        obtain ⟨user, hm, -⟩ := named?_eq_some ht
        exact subject_leave (hkeys target (mem_membersOf.mp hm).1) (hc.named ht) news hnews
      · exact absurd hnews (by simp)
  | disconnectAll =>
      obtain rfl := Option.some.inj hnews
      intro n hn
      exact absurd hn (by simp [News.subject?])
  | deafen n => exact absurd hnews (by simp [step])

/-! ## What outsiders ask for -/

/-- What is told only to outsiders, and ends nobody's outbox but theirs. -/
structure Apart (party : Nat → Prop) (hall : Hall Nat) (news : News) : Prop where
  ended : ∀ n ∈ hall.ended news, ¬ party n
  letters : ∀ letter ∈ hall.letters news, ¬ party letter.1
  silent : ∀ n speaker text, news ≠ .said n speaker text

/-- What an outsider's departure leads to. -/
theorem leave_outsider {seat : Seat Nat} (hk : seat.key = seat.outbox) (hp : ¬ party seat.key)
    (hu : seat.standing.user? = none) :
    (hall.leave seat).1.within party = hall.within party
      ∧ ∀ news ∈ (hall.leave seat).2, hall.Apart party news := by
  refine ⟨within_remove_outsider hp, ?_⟩
  intro news hnews
  obtain rfl := Option.some.inj hnews
  rw [hu]
  refine ⟨?_, by simp [Hall.letters], by simp⟩
  intro n hn
  obtain rfl := List.mem_singleton.mp hn
  rwa [← hk]

/-- What an outsider's record leads to, unless it makes the outsider a member. -/
theorem receive_outsider {version : Version} {seat : Seat Nat} (hs : seat ∈ hall.seats)
    (hk : seat.key = seat.outbox) (hp : ¬ party seat.key) (hu : seat.standing.user? = none)
    {record : Record} (hc : (hall.receive version seat record).1.Closed party) :
    (hall.receive version seat record).1.within party = hall.within party
      ∧ ∀ news ∈ (hall.receive version seat record).2, hall.Apart party news := by
  have hstay : ∀ outcome : Hall Nat × Option News, outcome = (hall, none) →
      outcome.1.within party = hall.within party
        ∧ ∀ news ∈ outcome.2, hall.Apart party news := by
    rintro outcome rfl
    exact ⟨rfl, by simp⟩
  cases record with
  | stdout text => exact hstay _ rfl
  | connect user validateOnly => exact hstay _ rfl
  | userInfo user =>
      cases hst : seat.standing with
      | waiting =>
          simp only [receive, hst] at hc ⊢
          rcases Option.eq_none_or_eq_some (hall.denial? version user) with hd | ⟨denial, hd⟩
          · -- nobody but the party is let in
            simp only [hd] at hc
            have hnew : ({ seat with standing := .member user }, user)
                ∈ (hall.place seat.key (.member user)).members :=
              mem_membersOf.mpr ⟨List.mem_map.mpr ⟨seat, hs, if_pos rfl⟩, rfl⟩
            exact absurd (hc _ hnew) hp
          · simp only [hd]
            refine ⟨within_place_outsider hp _, ?_⟩
            intro news hnews
            obtain rfl := Option.some.inj hnews
            refine ⟨by simp [Hall.ended], ?_, by simp⟩
            intro letter hletter
            obtain rfl := List.mem_singleton.mp hletter
            rwa [← hk]
      | refused known =>
          exact hstay _ (by simp only [receive, hst])
      | member known =>
          rw [hst] at hu
          exact absurd hu (by simp [Standing.user?])
  | message text =>
      cases hst : seat.standing with
      | waiting => exact hstay _ (by simp only [receive, hst])
      | refused known => exact hstay _ (by simp only [receive, hst])
      | member known => rw [hst] at hu; exact absurd hu (by simp [Standing.user?])
  | disconnect name =>
      cases hst : seat.standing with
      | waiting => exact hstay _ (by simp only [receive, hst])
      | refused known => exact hstay _ (by simp only [receive, hst])
      | member known => rw [hst] at hu; exact absurd hu (by simp [Standing.user?])

/-- **What an outsider asks for does nothing to the party**, unless it makes the outsider a member,
and the party is told nothing. -/
theorem step_outsider (hkeys : ∀ seat ∈ hall.seats, seat.key = seat.outbox)
    (hc : hall.Closed party) {version : Version} {request : Request Nat} {p : Nat}
    (hpeer : request.peer? hall.arrived = some p) (hp : ¬ party p)
    (hc' : (hall.step version hall.arrived request).1.Closed party) :
    (hall.step version hall.arrived request).1.within party = hall.within party
      ∧ ∀ news ∈ (hall.step version hall.arrived request).2, hall.Apart party news := by
  have hnobody : ∀ {seat : Seat Nat}, seat ∈ hall.seats → ¬ party seat.key →
      seat.standing.user? = none := by
    intro seat hs hseat
    cases hu : seat.standing.user? with
    | none => rfl
    | some user =>
        exact absurd (hc (seat, user) (mem_membersOf.mpr ⟨hs, Standing.user?_eq_some_iff.mp hu⟩))
          hseat
  cases request with
  | register address =>
      obtain rfl := Option.some.inj hpeer
      refine ⟨?_, by simp [step]⟩
      simp [step, within, hp, Nat.count_succ]
  | dispatch origin record =>
      obtain rfl := Option.some.inj hpeer
      simp only [step] at hc' ⊢
      cases hf : hall.find? origin with
      | none => exact ⟨rfl, by simp⟩
      | some seat =>
          obtain ⟨hs, rfl⟩ := find?_eq_some hf
          rw [hf] at hc'
          exact receive_outsider hs (hkeys seat hs) hp (hnobody hs hp) hc'
  | close origin =>
      obtain rfl := Option.some.inj hpeer
      simp only [step]
      cases hf : hall.find? origin with
      | none => exact ⟨rfl, by simp⟩
      | some seat =>
          obtain ⟨hs, rfl⟩ := find?_eq_some hf
          exact leave_outsider (hkeys seat hs) hp (hnobody hs hp)
  | deafen n => exact ⟨rfl, by simp [step]⟩
  | kick name => exact absurd hpeer (by simp [Request.peer?])
  | disconnectAll => exact absurd hpeer (by simp [Request.peer?])

end Hall

end

end ChatRoom
