import ChatRoom.Proofs.Posting

/-!
# The hall

The server as its rules are told: a row of seats in link order, each with a standing, and one rule
for each request. There are no slots here, no generations, no stages and marks that have to agree,
and no mail; what a request leads to is at most one piece of `News`.

A seat has a key, by which requests name it. The server's requests name connections by handle, and
a run among peers names them by number, so the hall is the same for any kind of key.

`Hall.Sound` is what the rules preserve: keys and outboxes are not shared, and the members have
names that are not empty, not shared, and presented with the server's version.
-/

namespace ChatRoom

/-- What can be asked of a server, by whoever may ask it. -/
inductive Request (ι : Type) where
  /-- A peer has connected. -/
  | register (address : Option SocketAddress)
  /-- A record has come in from a connection. -/
  | dispatch (origin : ι) (record : Record)
  /-- Nothing more will be read from a connection. -/
  | close (origin : ι)
  | kick (name : String)
  | disconnectAll
  /-- The receiving end of an outbox is let go. -/
  | deafen (outbox : Nat)
  deriving DecidableEq, Repr

theorem Request.register_or {ι : Type} (request : Request ι) :
    (∃ address, request = .register address) ∨ ∀ address, request ≠ .register address := by
  cases request with
  | register address => exact Or.inl ⟨address, rfl⟩
  | _ => exact Or.inr (by simp)

/-- How far a linked connection has come. -/
inductive Standing where
  /-- It has not presented itself. -/
  | waiting
  /-- It has been refused, and waits to be taken down. -/
  | refused (user : Identity)
  | member (user : Identity)
  deriving DecidableEq, Repr

/-- A linked connection. -/
structure Seat (ι : Type) where
  /-- What requests call it. -/
  key : ι
  outbox : Nat
  address : Option SocketAddress
  standing : Standing
  deriving DecidableEq, Repr

/-- What a member is known by. -/
def Standing.user? : Standing → Option Identity
  | member user => some user
  | waiting | refused _ => none

theorem Standing.user?_eq_some_iff {standing : Standing} {user : Identity} :
    standing.user? = some user ↔ standing = .member user := by
  cases standing <;> simp [user?]

/-- Something that has happened, told by the numbers of the outboxes. -/
inductive News where
  | refused (outbox : Nat) (denial : Denial)
  /-- A connection has been admitted; `present` were members already, in link order. -/
  | admitted (outbox : Nat) (user : Identity) (present : List Identity)
  | said (outbox : Nat) (speaker : Identity) (text : String)
  /-- A connection has been taken down; `member` is what it was known by if it was a member. -/
  | left (outbox : Nat) (member : Option Identity)
  /-- Every connection has been taken down. -/
  | emptied
  deriving DecidableEq, Repr

structure Hall (ι : Type) where
  seats : List (Seat ι) := []
  /-- How many connections there have been. -/
  arrived : Nat := 0
  deriving DecidableEq, Repr

namespace Hall

variable {ι : Type}

/-- The members among some seats, each with what it is known by. -/
def membersOf (seats : List (Seat ι)) : List (Seat ι × Identity) :=
  seats.filterMap fun seat => seat.standing.user?.map fun user => (seat, user)

def members (hall : Hall ι) : List (Seat ι × Identity) := membersOf hall.seats

/-- The first check that fails. -/
def denial? (version : Version) (hall : Hall ι) (user : Identity) : Option Denial :=
  if user.name = "" then some .emptyName
  else if user.version ≠ version then some (.wrongVersion user.version version)
  else if user.name ∈ hall.members.map (·.2.name) then some .nameTaken
  else none

variable [DecidableEq ι]

def find? (hall : Hall ι) (key : ι) : Option (Seat ι) :=
  hall.seats.find? fun seat => decide (seat.key = key)

/-- Gives a seat another standing. -/
def place (hall : Hall ι) (key : ι) (standing : Standing) : Hall ι :=
  { hall with
    seats := hall.seats.map fun seat => if seat.key = key then { seat with standing } else seat }

/-- Takes a seat away. -/
def remove (hall : Hall ι) (key : ι) : Hall ι :=
  { hall with seats := hall.seats.filter fun seat => decide (seat.key ≠ key) }

/-- The members but for one. -/
def others (hall : Hall ι) (except : Option ι) : List (Seat ι × Identity) :=
  hall.members.filter fun m => decide (some m.1.key ≠ except)

/-- The first member with a name, but for one. -/
def named? (hall : Hall ι) (name : String) (except : Option ι) : Option (Seat ι) :=
  ((hall.others except).find? fun m => decide (m.2.name = name)).map (·.1)

/-- Takes a seat away, which is news. -/
def leave (hall : Hall ι) (seat : Seat ι) : Hall ι × Option News :=
  (hall.remove seat.key, some (.left seat.outbox seat.standing.user?))

/-- What a record leads to that comes from a seat. -/
def receive (version : Version) (hall : Hall ι) (seat : Seat ι) :
    Record → Hall ι × Option News
  | .userInfo user =>
    match seat.standing with
    | .waiting =>
      match hall.denial? version user with
      | some denial =>
        (hall.place seat.key (.refused user), some (.refused seat.outbox denial))
      | none =>
        (hall.place seat.key (.member user),
          some (.admitted seat.outbox user (hall.members.map (·.2))))
    | _ => (hall, none)
  | .message text =>
    match seat.standing with
    | .member speaker => (hall, some (.said seat.outbox speaker text))
    | _ => (hall, none)
  | .disconnect name =>
    match seat.standing with
    | .member _ =>
      match hall.named? name (some seat.key) with
      | some target => hall.leave target
      | none => (hall, none)
    | _ => (hall, none)
  | .stdout _ | .connect .. => (hall, none)

/-- One rule for each request. A connection that arrives is given the key `fresh`. -/
def step (version : Version) (fresh : ι) (hall : Hall ι) : Request ι → Hall ι × Option News
  | .register address =>
    ({ seats := hall.seats ++ [⟨fresh, hall.arrived, address, .waiting⟩]
       arrived := hall.arrived + 1 }, none)
  | .dispatch origin record =>
    match hall.find? origin with
    | some seat => hall.receive version seat record
    | none => (hall, none)
  | .close origin =>
    match hall.find? origin with
    | some seat => hall.leave seat
    | none => (hall, none)
  | .kick name =>
    match hall.named? name none with
    | some seat => hall.leave seat
    | none => (hall, none)
  | .disconnectAll => ({ hall with seats := [] }, some .emptied)
  | .deafen _ => (hall, none)

/-! ## What is queued -/

/-- How the others read that someone has come. -/
def arrival (name : String) : Record :=
  .stdout ("Client " ++ LogEntry.quoted name ++ " has connected\n")

/-- How the others read what someone says. -/
def line (name text : String) : String := name ++ ": " ++ text ++ "\n"

/-- The members but for the one with this outbox. -/
def audience (hall : Hall ι) (outbox : Nat) : List (Seat ι × Identity) :=
  hall.members.filter fun m => decide (m.1.outbox ≠ outbox)

/-- What is queued on news from a hall that was in this state, in this order. -/
def letters (hall : Hall ι) : News → List Letter
  | .refused n denial => [(n, .stdout denial.notice)]
  | .admitted n user _ =>
    hall.members.map (fun m => (m.1.outbox, arrival user.name)) ++ (n, .connect user true) ::
      hall.members.flatMap fun m => [(n, .connect m.2 false), (m.1.outbox, .connect user false)]
  | .said n speaker text =>
    (hall.audience n).map fun m => (m.1.outbox, .stdout (line speaker.name text))
  | .left n (some user) => (hall.audience n).map fun m => (m.1.outbox, .leaving user.name)
  | .left _ none | .emptied => []

/-- The outboxes whose sending ends are let go on news from a hall that was in this state. -/
def ended (hall : Hall ι) : News → List Nat
  | .left n _ => [n]
  | .emptied => hall.seats.map (·.outbox)
  | .refused .. | .admitted .. | .said .. => []

/-- The mail once the news is out, from a hall that was in this state. -/
def deliver (hall : Hall ι) (mail : Mail) : Option News → Mail
  | some news => (mail.endAll (hall.ended news)).postAll (hall.letters news)
  | none => mail

/-- The mail after a request and the news that it led to. -/
def mailAfter (hall : Hall ι) (mail : Mail) (request : Request ι) (news : Option News) : Mail :=
  match request with
  | .register _ => mail.add.2
  | .deafen n => mail.refuse n
  | .dispatch .. | .close _ | .kick _ | .disconnectAll => hall.deliver mail news

/-! ## Seats and members -/

omit [DecidableEq ι] in
theorem mem_membersOf {seats : List (Seat ι)} {seat : Seat ι} {user : Identity} :
    (seat, user) ∈ membersOf seats ↔ seat ∈ seats ∧ seat.standing = .member user := by
  simp only [membersOf, List.mem_filterMap, Option.map_eq_some_iff, Prod.mk.injEq,
    Standing.user?_eq_some_iff]
  constructor
  · intro h
    obtain ⟨s, hs, u, hu, rfl, rfl⟩ := h
    exact ⟨hs, hu⟩
  · intro h
    exact ⟨seat, h.1, user, h.2, rfl, rfl⟩

omit [DecidableEq ι] in
theorem membersOf_append (l r : List (Seat ι)) :
    membersOf (l ++ r) = membersOf l ++ membersOf r := List.filterMap_append

omit [DecidableEq ι] in
theorem membersOf_cons (seat : Seat ι) (r : List (Seat ι)) :
    membersOf (seat :: r)
      = (seat.standing.user?.map fun user => (seat, user)).toList ++ membersOf r := by
  rw [membersOf, List.filterMap_cons]
  cases seat.standing.user? <;> rfl

theorem find?_eq_some {hall : Hall ι} {key : ι} {seat : Seat ι} (h : hall.find? key = some seat) :
    seat ∈ hall.seats ∧ seat.key = key :=
  ⟨List.mem_of_find?_eq_some h, by simpa using List.find?_some h⟩

theorem named?_eq_some {hall : Hall ι} {name : String} {except : Option ι} {seat : Seat ι}
    (h : hall.named? name except = some seat) :
    ∃ user, (seat, user) ∈ hall.members ∧ user.name = name ∧ some seat.key ≠ except := by
  obtain ⟨⟨s, user⟩, hf, rfl⟩ := Option.map_eq_some_iff.mp h
  have hm := List.mem_filter.mp (List.mem_of_find?_eq_some hf)
  exact ⟨user, hm.1, by simpa using List.find?_some hf, by simpa using hm.2⟩

/-- Seats with different keys: one of them can be given another standing where it is. -/
theorem place_split {l r : List (Seat ι)} {seat : Seat ι} {hall : Hall ι}
    (he : hall.seats = l ++ seat :: r) (hk : (hall.seats.map (·.key)).Nodup) (standing : Standing) :
    (hall.place seat.key standing).seats = l ++ { seat with standing } :: r := by
  rw [he] at hk
  simp only [List.map_append, List.map_cons, List.nodup_append, List.nodup_cons, List.mem_map,
    List.mem_cons] at hk
  have hl : ∀ s ∈ l, (if s.key = seat.key then { s with standing } else s) = s := by
    intro s hs
    rw [if_neg (hk.2.2 s.key ⟨s, hs, rfl⟩ seat.key (Or.inl rfl))]
  have hr : ∀ s ∈ r, (if s.key = seat.key then { s with standing } else s) = s := by
    intro s hs
    rw [if_neg fun hq => hk.2.1.1 ⟨s, hs, hq⟩]
  show hall.seats.map _ = _
  rw [he, List.map_append, List.map_cons, if_pos rfl, List.map_congr_left hl,
    List.map_congr_left hr, List.map_id', List.map_id']

/-- A seat keeps what its standing has no part in. -/
theorem map_place {β : Type} {f : Seat ι → β}
    (hf : ∀ seat standing, f { seat with standing } = f seat) (hall : Hall ι) (key : ι)
    (standing : Standing) : (hall.place key standing).seats.map f = hall.seats.map f := by
  rw [place, List.map_map]
  refine List.map_congr_left fun seat _ => ?_
  show f (if seat.key = key then { seat with standing } else seat) = f seat
  split
  · exact hf seat standing
  · rfl

theorem mem_place {hall : Hall ι} {key : ι} {standing : Standing} {seat : Seat ι}
    (hm : seat ∈ (hall.place key standing).seats) :
    ∃ old ∈ hall.seats, old.key = seat.key ∧ old.outbox = seat.outbox := by
  obtain ⟨old, hold, rfl⟩ := List.mem_map.mp hm
  refine ⟨old, hold, ?_⟩
  split <;> exact ⟨rfl, rfl⟩

/-- The members after a decision about a seat that was waiting, up to order. -/
theorem members_place_perm {hall : Hall ι} (hk : (hall.seats.map (·.key)).Nodup) {seat : Seat ι}
    (hs : seat ∈ hall.seats) (hw : seat.standing = .waiting) (standing : Standing) :
    (hall.place seat.key standing).members.Perm
      ((standing.user?.map fun user => ({ seat with standing }, user)).toList ++ hall.members) := by
  obtain ⟨l, r, he⟩ := List.append_of_mem hs
  have hold : hall.members = membersOf l ++ membersOf r := by
    rw [members, he, membersOf_append, membersOf_cons, hw]
    rfl
  rw [members, place_split he hk standing, membersOf_append, membersOf_cons, hold]
  exact List.perm_append_comm_assoc _ _ _

/-- Seats with different keys: one of them can be taken away. -/
theorem remove_split {l r : List (Seat ι)} {seat : Seat ι} {hall : Hall ι}
    (he : hall.seats = l ++ seat :: r) (hk : (hall.seats.map (·.key)).Nodup) :
    (hall.remove seat.key).seats = l ++ r := by
  rw [he] at hk
  simp only [List.map_append, List.map_cons, List.nodup_append, List.nodup_cons, List.mem_map,
    List.mem_cons] at hk
  have hl : ∀ s ∈ l, decide (s.key ≠ seat.key) = true := by
    intro s hs
    exact decide_eq_true (hk.2.2 s.key ⟨s, hs, rfl⟩ seat.key (Or.inl rfl))
  have hr : ∀ s ∈ r, decide (s.key ≠ seat.key) = true := by
    intro s hs
    exact decide_eq_true fun hq => hk.2.1.1 ⟨s, hs, hq⟩
  show hall.seats.filter _ = _
  rw [he, List.filter_append, List.filter_cons, List.filter_eq_self.mpr hl,
    List.filter_eq_self.mpr hr]
  simp

/-! ## What a request can do -/

omit [DecidableEq ι] in
theorem denial?_eq_none {version : Version} {hall : Hall ι} {user : Identity}
    (h : hall.denial? version user = none) :
    user.name ≠ "" ∧ user.version = version ∧ user.name ∉ hall.members.map (·.2.name) := by
  unfold denial? at h
  split at h
  · simp at h
  · rename_i h1
    split at h
    · simp at h
    · rename_i h2
      split at h
      · simp at h
      · rename_i h3
        exact ⟨h1, Decidable.not_not.mp h2, h3⟩

/-- What becomes of a hall on a request that is no registration, and the news. -/
inductive Move (version : Version) (hall : Hall ι) : Hall ι × Option News → Prop where
  | stay : Move version hall (hall, none)
  | refuse {seat : Seat ι} (hs : seat ∈ hall.seats) (hw : seat.standing = .waiting)
      (user : Identity) (denial : Denial) :
      Move version hall
        (hall.place seat.key (.refused user), some (.refused seat.outbox denial))
  | welcome {seat : Seat ι} (hs : seat ∈ hall.seats) (hw : seat.standing = .waiting)
      {user : Identity} (hd : hall.denial? version user = none) :
      Move version hall
        (hall.place seat.key (.member user),
          some (.admitted seat.outbox user (hall.members.map (·.2))))
  | say {seat : Seat ι} {speaker : Identity} (hm : (seat, speaker) ∈ hall.members)
      (text : String) : Move version hall (hall, some (.said seat.outbox speaker text))
  | leave {seat : Seat ι} (hs : seat ∈ hall.seats) : Move version hall (hall.leave seat)
  | empty : Move version hall ({ hall with seats := [] }, some .emptied)

theorem move_receive (version : Version) (hall : Hall ι) {seat : Seat ι} (hs : seat ∈ hall.seats)
    (record : Record) : Move version hall (hall.receive version seat record) := by
  cases record with
  | stdout text => exact .stay
  | connect user validateOnly => exact .stay
  | userInfo user =>
      cases hst : seat.standing with
      | waiting =>
          simp only [receive, hst]
          cases hd : hall.denial? version user with
          | some denial => exact .refuse hs hst user denial
          | none => exact .welcome hs hst hd
      | refused known => simp only [receive, hst]; exact .stay
      | member known => simp only [receive, hst]; exact .stay
  | message text =>
      cases hst : seat.standing with
      | waiting => simp only [receive, hst]; exact .stay
      | refused known => simp only [receive, hst]; exact .stay
      | member speaker =>
          simp only [receive, hst]
          exact .say (mem_membersOf.mpr ⟨hs, hst⟩) text
  | disconnect name =>
      cases hst : seat.standing with
      | waiting => simp only [receive, hst]; exact .stay
      | refused known => simp only [receive, hst]; exact .stay
      | member requester =>
          simp only [receive, hst]
          cases ht : hall.named? name (some seat.key) with
          | none => exact .stay
          | some target =>
              obtain ⟨user, hm, -⟩ := named?_eq_some ht
              exact .leave (mem_membersOf.mp hm).1

/-- **Every request but a registration is one of six moves.** -/
theorem move_step (version : Version) (fresh : ι) (hall : Hall ι) {request : Request ι}
    (hq : ∀ address, request ≠ .register address) :
    Move version hall (hall.step version fresh request) := by
  cases request with
  | register address => exact absurd rfl (hq address)
  | dispatch origin record =>
      rw [step]
      cases hf : hall.find? origin with
      | none => exact .stay
      | some seat => exact move_receive version hall (find?_eq_some hf).1 record
  | close origin =>
      rw [step]
      cases hf : hall.find? origin with
      | none => exact .stay
      | some seat => exact .leave (find?_eq_some hf).1
  | kick name =>
      rw [step]
      cases ht : hall.named? name none with
      | none => exact .stay
      | some seat =>
          obtain ⟨user, hm, -⟩ := named?_eq_some ht
          exact .leave (mem_membersOf.mp hm).1
  | disconnectAll => exact .empty
  | deafen outbox => exact .stay

/-- Only one who has presented itself is let in. -/
theorem presented_of_admitted {version : Version} {fresh : ι} {hall : Hall ι} {request : Request ι}
    {n : Nat} {user : Identity} {present : List Identity}
    (h : (hall.step version fresh request).2 = some (.admitted n user present)) :
    ∃ origin, request = .dispatch origin (.userInfo user) := by
  cases request with
  | dispatch origin record =>
      rw [step] at h
      split at h
      · rename_i seat _
        cases record with
        | userInfo known =>
            refine ⟨origin, ?_⟩
            unfold receive at h
            dsimp only at h
            split at h
            · split at h
              · exact absurd h (by simp)
              · simp only [Option.some.injEq, News.admitted.injEq] at h
                rw [h.2.1]
            · exact absurd h (by simp)
        | stdout text => exact absurd h (by simp [receive])
        | connect known validateOnly => exact absurd h (by simp [receive])
        | message text =>
            unfold receive at h
            dsimp only at h
            split at h <;> exact absurd h (by simp)
        | disconnect name =>
            unfold receive at h
            dsimp only at h
            split at h
            · split at h <;> exact absurd h (by simp [leave])
            · exact absurd h (by simp)
      · exact absurd h (by simp)
  | register address => exact absurd h (by simp [step])
  | close origin =>
      rw [step] at h
      split at h <;> exact absurd h (by simp [leave])
  | kick name =>
      rw [step] at h
      split at h <;> exact absurd h (by simp [leave])
  | disconnectAll => exact absurd h (by simp [step])
  | deafen outbox => exact absurd h (by simp [step])

/-! ## What the rules preserve -/

/-- The state of a hall whose server has a given version. -/
structure Sound (version : Version) (hall : Hall ι) : Prop where
  /-- No two seats have one key. -/
  keys : (hall.seats.map (·.key)).Nodup
  /-- No two seats have one outbox. -/
  outboxes : (hall.seats.map (·.outbox)).Nodup
  /-- Outboxes are numbered by arrival. -/
  arrived : ∀ seat ∈ hall.seats, seat.outbox < hall.arrived
  /-- Members have passed the checks. -/
  checked : ∀ m ∈ hall.members, m.2.name ≠ "" ∧ m.2.version = version
  /-- No two members have one name. -/
  names : (hall.members.map (·.2.name)).Nodup

omit [DecidableEq ι] in
theorem sound_empty (version : Version) : Sound version ({} : Hall ι) :=
  ⟨List.nodup_nil, List.nodup_nil, by simp, by simp [members, membersOf], List.nodup_nil⟩

theorem sound_remove {version : Version} {hall : Hall ι} (h : Sound version hall) (key : ι) :
    Sound version (hall.remove key) := by
  have hsub : (hall.remove key).seats.Sublist hall.seats := List.filter_sublist
  have hmem : (hall.remove key).members.Sublist hall.members := hsub.filterMap _
  exact {
    keys := h.keys.sublist (hsub.map _)
    outboxes := h.outboxes.sublist (hsub.map _)
    arrived := fun seat hs => h.arrived seat (hsub.subset hs)
    checked := fun m hm => h.checked m (hmem.subset hm)
    names := h.names.sublist (hmem.map _) }

/-- A new standing keeps the hall sound if it makes no member that the checks would not let in. -/
theorem sound_place {version : Version} {hall : Hall ι} (h : Sound version hall) {seat : Seat ι}
    (hs : seat ∈ hall.seats) (hw : seat.standing = .waiting) {standing : Standing}
    (hn : ∀ user, standing = .member user → hall.denial? version user = none) :
    Sound version (hall.place seat.key standing) := by
  have hperm := members_place_perm h.keys hs hw standing
  refine ⟨?_, ?_, ?_, ?_, ?_⟩
  · rw [map_place (fun _ _ => rfl)]
    exact h.keys
  · rw [map_place (fun _ _ => rfl)]
    exact h.outboxes
  · intro s hsm
    obtain ⟨old, hold, -, ho⟩ := mem_place hsm
    rw [← ho]
    exact h.arrived old hold
  · intro m hm
    rcases List.mem_append.mp (hperm.mem_iff.mp hm) with hnew | hold
    · obtain ⟨user, hu, rfl⟩ := Option.map_eq_some_iff.mp (Option.mem_toList.mp hnew)
      have hfit := denial?_eq_none (hn user (Standing.user?_eq_some_iff.mp hu))
      exact ⟨hfit.1, hfit.2.1⟩
    · exact h.checked m hold
  · -- a name is new only if a member is, and then the checks have found it free
    refine (hperm.map (·.2.name)).nodup_iff.mpr ?_
    cases hu : standing.user? with
    | none => exact h.names
    | some user =>
        have hfit := denial?_eq_none (hn user (Standing.user?_eq_some_iff.mp hu))
        exact List.nodup_cons.mpr ⟨hfit.2.2, h.names⟩

theorem sound_move {version : Version} {hall : Hall ι} (h : Sound version hall)
    {outcome : Hall ι × Option News} (hmove : Move version hall outcome) :
    Sound version outcome.1 := by
  cases hmove with
  | stay => exact h
  | refuse hs hw user denial => exact sound_place h hs hw (by intro u hu; simp at hu)
  | welcome hs hw hd =>
      refine sound_place h hs hw ?_
      intro u hu
      obtain rfl := Standing.member.inj hu
      exact hd
  | say hm text => exact h
  | leave hs => exact sound_remove h _
  | empty =>
      exact ⟨List.nodup_nil, List.nodup_nil, by simp, by simp [members, membersOf], List.nodup_nil⟩

theorem members_register (version : Version) (fresh : ι) (hall : Hall ι)
    (address : Option SocketAddress) :
    (hall.step version fresh (.register address)).1.members = hall.members := by
  show membersOf (hall.seats ++ [_]) = _
  rw [membersOf_append]
  exact List.append_nil _

theorem sound_register {version : Version} {fresh : ι} {hall : Hall ι} (h : Sound version hall)
    (hf : fresh ∉ hall.seats.map (·.key)) (address : Option SocketAddress) :
    Sound version (hall.step version fresh (.register address)).1 := by
  refine ⟨?_, ?_, ?_, ?_, ?_⟩
  · rw [step, List.map_append, List.nodup_append]
    refine ⟨h.keys, by simp, ?_⟩
    intro k hk k' hk' hkk
    obtain rfl : k' = fresh := by simpa using hk'
    exact hf (hkk ▸ hk)
  · rw [step, List.map_append, List.nodup_append]
    refine ⟨h.outboxes, by simp, ?_⟩
    intro n hn n' hn' hnn
    obtain ⟨seat, hs, rfl⟩ := List.mem_map.mp hn
    obtain rfl : n' = hall.arrived := by simpa using hn'
    exact absurd hnn (Nat.ne_of_lt (h.arrived seat hs))
  · intro seat hs
    rcases List.mem_append.mp hs with hs | hs
    · exact Nat.lt_succ_of_lt (h.arrived seat hs)
    · obtain rfl := List.mem_singleton.mp hs
      exact Nat.lt_succ_self _
  · rw [members_register]
    exact h.checked
  · rw [members_register]
    exact h.names

/-- **No request breaks the order of the hall.** -/
theorem sound_step {version : Version} {fresh : ι} {hall : Hall ι} (h : Sound version hall)
    (hf : fresh ∉ hall.seats.map (·.key)) (request : Request ι) :
    Sound version (hall.step version fresh request).1 := by
  rcases request.register_or with ⟨address, rfl⟩ | hq
  · exact sound_register h hf address
  · exact sound_move h (move_step version fresh hall hq)

omit [DecidableEq ι] in
@[simp] theorem length_boxes_deliver (hall : Hall ι) (mail : Mail) (news : Option News) :
    (hall.deliver mail news).boxes.length = mail.boxes.length := by
  cases news with
  | none => rfl
  | some news => simp [deliver]

/-- Only a registration makes an outbox. -/
theorem arrived_step (version : Version) (fresh : ι) (hall : Hall ι) {request : Request ι}
    (hq : ∀ address, request ≠ .register address) :
    (hall.step version fresh request).1.arrived = hall.arrived := by
  have hmove := move_step version fresh hall hq
  generalize hall.step version fresh request = outcome at hmove
  cases hmove <;> rfl

/-- A move puts nobody in. -/
theorem mem_move {version : Version} {hall : Hall ι} {outcome : Hall ι × Option News}
    (hmove : Move version hall outcome) {seat : Seat ι} (hm : seat ∈ outcome.1.seats) :
    ∃ old ∈ hall.seats, old.key = seat.key ∧ old.outbox = seat.outbox := by
  cases hmove with
  | stay => exact ⟨seat, hm, rfl, rfl⟩
  | refuse hs hw user denial => exact mem_place hm
  | welcome hs hw hd => exact mem_place hm
  | say hspeaker text => exact ⟨seat, hm, rfl, rfl⟩
  | leave hs => exact ⟨seat, (List.mem_filter.mp hm).1, rfl, rfl⟩
  | empty => exact absurd hm (by simp)

/-- **A seat is one that there was, or that of a connection that has just arrived.** -/
theorem mem_step {version : Version} {fresh : ι} {hall : Hall ι} {request : Request ι}
    {seat : Seat ι} (hm : seat ∈ (hall.step version fresh request).1.seats) :
    (∃ old ∈ hall.seats, old.key = seat.key ∧ old.outbox = seat.outbox)
      ∨ seat.key = fresh ∧ seat.outbox = hall.arrived := by
  rcases request.register_or with ⟨address, rfl⟩ | hq
  · rcases List.mem_append.mp hm with hold | hnew
    · exact Or.inl ⟨seat, hold, rfl, rfl⟩
    · obtain rfl := List.mem_singleton.mp hnew
      exact Or.inr ⟨rfl, rfl⟩
  · exact Or.inl (mem_move (move_step version fresh hall hq) hm)

end Hall

end ChatRoom
