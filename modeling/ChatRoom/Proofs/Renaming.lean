import Mathlib.Data.List.Find
import ChatRoom.Proofs.Hall

/-!
# A hall under other keys

The rules of a hall look at keys only to tell seats apart, and at nothing but the order and the
standings to say what happens. So a hall may be kept under any keys: as long as renaming never makes
two keys one, a renamed request does to the renamed hall what the request did, and the news is the
same to the letter.
-/

namespace ChatRoom

variable {ι κ : Type}

/-- The request under other keys; `none` if it names a key that has no other. -/
def Request.rename? (f : ι → Option κ) : Request ι → Option (Request κ)
  | .register address => some (.register address)
  | .dispatch origin record => (f origin).map (.dispatch · record)
  | .close origin => (f origin).map .close
  | .kick name => some (.kick name)
  | .disconnectAll => some .disconnectAll
  | .deafen outbox => some (.deafen outbox)

/-- The key that a request names. -/
def Request.origin? : Request ι → Option ι
  | .dispatch origin _ | .close origin => some origin
  | .register _ | .kick _ | .disconnectAll | .deafen _ => none

def Seat.rename (f : ι → κ) (seat : Seat ι) : Seat κ :=
  ⟨f seat.key, seat.outbox, seat.address, seat.standing⟩

namespace Hall

def rename (f : ι → κ) (hall : Hall ι) : Hall κ :=
  ⟨hall.seats.map (Seat.rename f), hall.arrived⟩

/-- A key is the only one among the seats that is renamed to what it is renamed to. -/
def Told (f : ι → κ) (hall : Hall ι) (key : ι) : Prop :=
  ∀ seat ∈ hall.seats, f seat.key = f key → seat.key = key

variable {f : ι → κ} {hall : Hall ι}

theorem told_iff {key : ι} (hk : hall.Told f key) {seat : Seat ι} (hs : seat ∈ hall.seats) :
    (seat.rename f).key = f key ↔ seat.key = key :=
  ⟨hk seat hs, fun he => congrArg f he⟩

/-- Renaming only looks at the keys of the seats. -/
theorem rename_congr {g : ι → κ} (hfg : ∀ seat ∈ hall.seats, f seat.key = g seat.key) :
    hall.rename f = hall.rename g := by
  have hseats : hall.seats.map (Seat.rename f) = hall.seats.map (Seat.rename g) :=
    List.map_congr_left fun seat hs => by rw [Seat.rename, hfg seat hs]; rfl
  rw [rename, rename, hseats]

theorem members_rename (f : ι → κ) (hall : Hall ι) :
    (hall.rename f).members = hall.members.map fun m => (m.1.rename f, m.2) := by
  unfold members rename
  induction hall.seats with
  | nil => rfl
  | cons seat rest ih =>
      rw [List.map_cons, membersOf_cons, membersOf_cons, List.map_append, ← ih]
      have huser : (seat.rename f).standing = seat.standing := rfl
      rw [huser]
      cases seat.standing.user? <;> rfl

theorem denial?_rename (f : ι → κ) (version : Version) (hall : Hall ι) (user : Identity) :
    (hall.rename f).denial? version user = hall.denial? version user := by
  have hnames : (hall.rename f).members.map (·.2.name) = hall.members.map (·.2.name) := by
    rw [members_rename, List.map_map]
    rfl
  rw [denial?, hnames, ← denial?]

variable [DecidableEq ι] [DecidableEq κ]

theorem find?_rename {key : ι} (hk : hall.Told f key) :
    (hall.rename f).find? (f key) = (hall.find? key).map (Seat.rename f) := by
  unfold find? rename
  dsimp only
  rw [List.find?_map]
  have hseats : ∀ seat ∈ hall.seats,
      decide ((seat.rename f).key = f key) = decide (seat.key = key) := by
    intro seat hs
    simp [told_iff hk hs]
  exact congrArg _ (List.find?_congr hseats)

theorem rename_place {key : ι} (hk : hall.Told f key) (standing : Standing) :
    (hall.place key standing).rename f = (hall.rename f).place (f key) standing := by
  unfold place rename
  dsimp only
  rw [List.map_map, List.map_map]
  have hseats : ∀ seat ∈ hall.seats,
      Seat.rename f (if seat.key = key then { seat with standing } else seat)
        = if (seat.rename f).key = f key then { seat.rename f with standing }
          else seat.rename f := by
    intro seat hs
    have hkey := told_iff hk hs
    by_cases he : seat.key = key
    · rw [if_pos he, if_pos (hkey.mpr he)]
      rfl
    · rw [if_neg he, if_neg fun h => he (hkey.mp h)]
  exact congrArg (Hall.mk · hall.arrived) (List.map_congr_left hseats)

theorem rename_remove {key : ι} (hk : hall.Told f key) :
    (hall.remove key).rename f = (hall.rename f).remove (f key) := by
  unfold remove rename
  dsimp only
  rw [List.filter_map]
  have hseats : ∀ seat ∈ hall.seats,
      decide (seat.key ≠ key) = decide ((seat.rename f).key ≠ f key) := by
    intro seat hs
    simp [told_iff hk hs]
  rw [List.filter_congr hseats]
  rfl

theorem others_rename (except : Option ι) (hk : ∀ key, except = some key → hall.Told f key) :
    (hall.rename f).others (except.map f)
      = (hall.others except).map fun m => (m.1.rename f, m.2) := by
  unfold others
  rw [members_rename, List.filter_map]
  have hmembers : ∀ m ∈ hall.members,
      decide (some (m.1.rename f).key ≠ except.map f) = decide (some m.1.key ≠ except) := by
    intro m hm
    cases except with
    | none => simp
    | some key =>
        simp [told_iff (hk key rfl) (mem_membersOf.mp hm).1]
  exact congrArg _ (List.filter_congr hmembers)

theorem named?_rename (name : String) (except : Option ι)
    (hk : ∀ key, except = some key → hall.Told f key) :
    (hall.rename f).named? name (except.map f) = (hall.named? name except).map (Seat.rename f) := by
  unfold named?
  rw [others_rename except hk, List.find?_map, Option.map_map, Option.map_map]
  rfl

/-! ## The rules -/

theorem rename_leave {seat : Seat ι} (hk : hall.Told f seat.key) :
    (hall.rename f).leave (seat.rename f)
      = ((hall.leave seat).1.rename f, (hall.leave seat).2) := by
  unfold leave
  rw [rename_remove hk]
  rfl

theorem rename_receive (hf : ∀ seat ∈ hall.seats, hall.Told f seat.key) {seat : Seat ι}
    (hs : seat ∈ hall.seats) (version : Version) (record : Record) :
    (hall.rename f).receive version (seat.rename f) record
      = ((hall.receive version seat record).1.rename f, (hall.receive version seat record).2) := by
  have hk := hf seat hs
  -- the rules go by standing, which renaming leaves alone
  have hst : (seat.rename f).standing = seat.standing := rfl
  cases record with
  | stdout text => rfl
  | connect user validateOnly => rfl
  | userInfo user =>
      simp only [receive, hst, denial?_rename]
      cases seat.standing with
      | waiting =>
          have husers : (hall.rename f).members.map (·.2) = hall.members.map (·.2) := by
            rw [members_rename, List.map_map]
            rfl
          cases hall.denial? version user with
          | some denial =>
              dsimp only
              rw [rename_place hk]
              rfl
          | none =>
              dsimp only
              rw [rename_place hk, husers]
              rfl
      | refused known => rfl
      | member known => rfl
  | message text =>
      simp only [receive, hst]
      cases seat.standing <;> rfl
  | disconnect name =>
      simp only [receive, hst]
      cases seat.standing with
      | waiting => rfl
      | refused known => rfl
      | member requester =>
          have hexcept : ∀ key, some seat.key = some key → hall.Told f key := by
            intro key he
            obtain rfl := Option.some.inj he
            exact hk
          have hnamed := named?_rename name (some seat.key) hexcept
          rw [Option.map_some] at hnamed
          have hkey : (seat.rename f).key = f seat.key := rfl
          simp only [hkey, hnamed]
          cases ht : hall.named? name (some seat.key) with
          | none => rfl
          | some target =>
              obtain ⟨user, hm, -⟩ := named?_eq_some ht
              exact rename_leave (hf target (mem_membersOf.mp hm).1)

/-- **A renamed request does to the renamed hall what the request did**, and leads to the same news,
unless it is a registration, which makes a key. -/
theorem rename_step (hf : ∀ seat ∈ hall.seats, hall.Told f seat.key) (version : Version)
    (fresh : ι) (fresh' : κ) {g : ι → Option κ} {request : Request ι} {request' : Request κ}
    (hr : request.rename? g = some request') (hq : ∀ address, request ≠ .register address)
    (ho : ∀ key, request.origin? = some key → g key = some (f key) ∧ hall.Told f key) :
    (hall.rename f).step version fresh' request'
      = ((hall.step version fresh request).1.rename f, (hall.step version fresh request).2) := by
  cases request with
  | register address => exact absurd rfl (hq address)
  | dispatch origin record =>
      obtain ⟨hg, hk⟩ := ho origin rfl
      rw [Request.rename?, hg] at hr
      obtain rfl := Option.some.inj hr
      simp only [step, find?_rename hk]
      cases hfind : hall.find? origin with
      | none => rfl
      | some seat => exact rename_receive hf (find?_eq_some hfind).1 version record
  | close origin =>
      obtain ⟨hg, hk⟩ := ho origin rfl
      rw [Request.rename?, hg] at hr
      obtain rfl := Option.some.inj hr
      simp only [step, find?_rename hk]
      cases hfind : hall.find? origin with
      | none => rfl
      | some seat => exact rename_leave (hf seat (find?_eq_some hfind).1)
  | kick name =>
      -- no key is named, but the seat that is found by name has one
      obtain rfl := Option.some.inj hr
      have hnamed : (hall.rename f).named? name none
          = (hall.named? name none).map (Seat.rename f) := named?_rename name none (by simp)
      simp only [step, hnamed]
      cases ht : hall.named? name none with
      | none => rfl
      | some target =>
          obtain ⟨user, hm, -⟩ := named?_eq_some ht
          exact rename_leave (hf target (mem_membersOf.mp hm).1)
  | disconnectAll =>
      obtain rfl := Option.some.inj hr
      rfl
  | deafen outbox =>
      obtain rfl := Option.some.inj hr
      rfl

/-! ## The mail -/

omit [DecidableEq ι] [DecidableEq κ] in
theorem letters_rename (f : ι → κ) (hall : Hall ι) (news : News) :
    (hall.rename f).letters news = hall.letters news := by
  have haudience : ∀ n, (hall.rename f).audience n
      = (hall.audience n).map fun m => (m.1.rename f, m.2) := by
    intro n
    rw [audience, members_rename, List.filter_map]
    rfl
  cases news with
  | refused n denial => rfl
  | admitted n user present =>
      simp only [letters, members_rename, List.map_map, List.flatMap_map]
      rfl
  | said n speaker text =>
      simp only [letters, haudience, List.map_map]
      rfl
  | left n member =>
      cases member with
      | none => rfl
      | some user =>
          simp only [letters, haudience, List.map_map]
          rfl
  | emptied => rfl

omit [DecidableEq ι] [DecidableEq κ] in
theorem deliver_rename (f : ι → κ) (hall : Hall ι) (mail : Mail) (news : Option News) :
    (hall.rename f).deliver mail news = hall.deliver mail news := by
  have hended : ∀ news, (hall.rename f).ended news = hall.ended news := by
    intro news
    cases news with
    | emptied =>
        rw [ended, rename, List.map_map]
        rfl
    | refused n denial => rfl
    | admitted n user present => rfl
    | said n speaker text => rfl
    | left n member => rfl
  cases news with
  | none => rfl
  | some news => rw [deliver, deliver, letters_rename, hended]

omit [DecidableEq ι] [DecidableEq κ] in
theorem mailAfter_rename (f : ι → κ) (hall : Hall ι) (mail : Mail) (news : Option News)
    {g : ι → Option κ} {request : Request ι} {request' : Request κ}
    (hr : request.rename? g = some request') :
    (hall.rename f).mailAfter mail request' news = hall.mailAfter mail request news := by
  have hdeliver := deliver_rename f hall mail news
  cases request with
  | register address =>
      obtain rfl := Option.some.inj hr
      rfl
  | dispatch origin record =>
      obtain ⟨k, -, rfl⟩ := Option.map_eq_some_iff.mp hr
      exact hdeliver
  | close origin =>
      obtain ⟨k, -, rfl⟩ := Option.map_eq_some_iff.mp hr
      exact hdeliver
  | kick name =>
      obtain rfl := Option.some.inj hr
      exact hdeliver
  | disconnectAll =>
      obtain rfl := Option.some.inj hr
      exact hdeliver
  | deafen outbox =>
      obtain rfl := Option.some.inj hr
      rfl

end Hall

end ChatRoom
