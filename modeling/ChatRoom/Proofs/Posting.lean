import ChatRoom.Session.Server

/-!
# What reaches an outbox

Every operation of the server queues records one after the other, some for many connections. Here
that is one thing: posting a list of letters, each with the number of its outbox. What an outbox
holds afterwards is what it held, and then the letters addressed to it, in their order, provided
that its receiving end is held. Nothing else about an outbox changes when letters are posted.
-/

namespace ChatRoom

/-- A record, and the number of the outbox that it is for. -/
abbrev Letter := Nat × Record

/-- The records that are for one outbox. -/
def addressed (number : Nat) (letters : List Letter) : List Record :=
  letters.filterMap fun letter => if letter.1 = number then some letter.2 else none

@[simp] theorem addressed_nil (n : Nat) : addressed n [] = [] := rfl

theorem addressed_append (n : Nat) (ls ms : List Letter) :
    addressed n (ls ++ ms) = addressed n ls ++ addressed n ms := List.filterMap_append

theorem addressed_cons (n : Nat) (l : Letter) (ls : List Letter) :
    addressed n (l :: ls) = if l.1 = n then l.2 :: addressed n ls else addressed n ls := by
  unfold addressed
  rw [List.filterMap_cons]
  split <;> split <;> simp_all

namespace Mail

/-- Queues letters one after the other. -/
def postAll : Mail → List Letter → Mail
  | mail, [] => mail
  | mail, (number, record) :: rest => postAll (mail.post number record).2 rest

/-- Lets the sending ends of outboxes go, and stops those who read from the peers. -/
def endAll : Mail → List Nat → Mail
  | mail, [] => mail
  | mail, number :: rest => endAll ((mail.release number).stop number) rest

@[simp] theorem postAll_nil (mail : Mail) : mail.postAll [] = mail := rfl

theorem postAll_append (mail : Mail) (ls ms : List Letter) :
    mail.postAll (ls ++ ms) = (mail.postAll ls).postAll ms := by
  induction ls generalizing mail with
  | nil => rfl
  | cons l ls ih => exact ih (mail.post l.1 l.2).2

theorem endAll_append (mail : Mail) (ns ms : List Nat) :
    mail.endAll (ns ++ ms) = (mail.endAll ns).endAll ms := by
  induction ns generalizing mail with
  | nil => rfl
  | cons n ns ih => exact ih ((mail.release n).stop n)

/-! ## One outbox -/

@[simp] theorem box_mark (mail : Mail) (m n : Nat) : (mail.mark m).box n = mail.box n := by
  unfold mark
  split <;> rfl

theorem box_modify (mail : Mail) (m n : Nat) (f : Outbox → Outbox) :
    (mail.modify m f).box n =
      if m = n ∧ n < mail.boxes.length then f (mail.box n) else mail.box n := by
  unfold modify box
  rw [List.getElem?_modify]
  by_cases hn : n < mail.boxes.length
  · by_cases hm : m = n
    · simp [hm, hn]
    · simp [hm, hn]
  · simp [hn]

/-- Only an outbox that was added has a receiving end. -/
theorem lt_of_receiving {mail : Mail} {n : Nat} (h : (mail.box n).receiving = true) :
    n < mail.boxes.length := by
  rcases Nat.lt_or_ge n mail.boxes.length with hn | hn
  · exact hn
  · rw [box, List.getElem?_eq_none hn] at h
    simp at h

theorem box_post (mail : Mail) (m n : Nat) (r : Record) :
    (mail.post m r).2.box n =
      if m = n ∧ (mail.box n).receiving = true then
        { mail.box n with records := (mail.box n).records ++ [r] }
      else mail.box n := by
  unfold post
  by_cases hr : (mail.box m).receiving = true
  · rw [if_pos hr, box_mark, box_modify]
    by_cases hm : m = n
    · subst hm
      rw [if_pos ⟨rfl, lt_of_receiving hr⟩, if_pos ⟨rfl, hr⟩]
    · rw [if_neg (fun h => hm h.1), if_neg (fun h => hm h.1)]
  · rw [if_neg hr]
    have hno : ¬ (m = n ∧ (mail.box n).receiving = true) := by
      intro h
      exact hr (h.1 ▸ h.2)
    rw [if_neg hno]

/-- **An outbox holds what it held, and then what is addressed to it.** -/
theorem box_postAll (mail : Mail) (letters : List Letter) (n : Nat) :
    (mail.postAll letters).box n =
      { mail.box n with
        records := (mail.box n).records ++
          if (mail.box n).receiving then addressed n letters else [] } := by
  -- posting lets no receiving end go, so asking once at the beginning is enough
  induction letters generalizing mail with
  | nil => simp
  | cons l rest ih =>
      obtain ⟨m, r⟩ := l
      show ((mail.post m r).2.postAll rest).box n = _
      rw [ih, box_post, addressed_cons]
      by_cases hm : m = n
      · by_cases hr : (mail.box n).receiving = true
        · simp [hm, hr]
        · simp [hm, hr]
      · simp [hm]

theorem box_release_stop (mail : Mail) (m n : Nat) :
    ((mail.release m).stop m).box n =
      if m = n ∧ n < mail.boxes.length then
        { mail.box n with sending := false, stopped := true }
      else mail.box n := by
  unfold stop release
  rw [box_modify, box_mark, box_modify]
  have hlen : ((mail.modify m fun o => { o with sending := false }).mark m).boxes.length
      = mail.boxes.length := by
    unfold mark modify
    split <;> simp
  rw [hlen]
  split <;> rfl

@[simp] theorem length_boxes_endAll (mail : Mail) (numbers : List Nat) :
    (mail.endAll numbers).boxes.length = mail.boxes.length := by
  induction numbers generalizing mail with
  | nil => rfl
  | cons n rest ih =>
      show (((mail.release n).stop n).endAll rest).boxes.length = _
      rw [ih]
      unfold release stop mark modify
      split <;> simp

/-- Exactly the outboxes that are named are ended. -/
theorem box_endAll_eq (mail : Mail) (numbers : List Nat) (n : Nat) :
    (mail.endAll numbers).box n =
      if n ∈ numbers ∧ n < mail.boxes.length then
        { mail.box n with sending := false, stopped := true }
      else mail.box n := by
  induction numbers generalizing mail with
  | nil => simp [endAll]
  | cons m rest ih =>
      have hlength : ((mail.release m).stop m).boxes.length = mail.boxes.length :=
        length_boxes_endAll mail [m]
      show (((mail.release m).stop m).endAll rest).box n = _
      rw [ih, hlength, box_release_stop]
      by_cases hm : m = n
      · by_cases hn : n < mail.boxes.length
        · simp [hm, hn]
        · simp [hn]
      · have hne : n ≠ m := fun h => hm h.symm
        simp [hm, hne]

/-- Ending outboxes leaves what they hold and their receiving ends alone. -/
theorem box_endAll (mail : Mail) (numbers : List Nat) (n : Nat) :
    ((mail.endAll numbers).box n).records = (mail.box n).records
      ∧ ((mail.endAll numbers).box n).receiving = (mail.box n).receiving := by
  rw [box_endAll_eq]
  split <;> exact ⟨rfl, rfl⟩

theorem box_refuse (mail : Mail) (m n : Nat) :
    (mail.refuse m).box n
      = if m = n then { mail.box n with receiving := false } else mail.box n := by
  unfold refuse
  rw [box_modify]
  by_cases hn : n < mail.boxes.length
  · simp [hn]
  · have : mail.box n = { sending := false, receiving := false } := by
      rw [box, List.getElem?_eq_none (Nat.le_of_not_lt hn)]; rfl
    simp [hn, this]

theorem box_add (mail : Mail) (n : Nat) :
    mail.add.2.box n = if n = mail.boxes.length then {} else mail.box n := by
  show ((mail.boxes ++ [({} : Outbox)])[n]?).getD _ = _
  rcases Nat.lt_trichotomy n mail.boxes.length with hn | hn | hn
  · rw [List.getElem?_append_left hn, if_neg (Nat.ne_of_lt hn)]
    rfl
  · subst hn
    simp
  · rw [if_neg (Nat.ne_of_gt hn), box, List.getElem?_eq_none (by simp; omega),
      List.getElem?_eq_none (by omega)]

/-! ## How many outboxes there are -/

@[simp] theorem length_boxes_post (mail : Mail) (m : Nat) (r : Record) :
    (mail.post m r).2.boxes.length = mail.boxes.length := by
  unfold post mark modify
  split
  · split <;> simp
  · rfl

@[simp] theorem length_boxes_postAll (mail : Mail) (letters : List Letter) :
    (mail.postAll letters).boxes.length = mail.boxes.length := by
  induction letters generalizing mail with
  | nil => rfl
  | cons l rest ih =>
      show ((mail.post l.1 l.2).2.postAll rest).boxes.length = _
      rw [ih, length_boxes_post]

@[simp] theorem length_boxes_refuse (mail : Mail) (n : Nat) :
    (mail.refuse n).boxes.length = mail.boxes.length := by simp [refuse, modify]

end Mail

/-! ## What connections are sent -/

namespace Connection

/-- The letter that carries a record to a connection, unless nothing can reach it. -/
def letters (c : Connection) (record : Record) : List Letter :=
  match c.outbox with
  | some number => [(number, record)]
  | none => []

theorem snd_send (c : Connection) (mail : Mail) (record : Record) :
    (c.send mail record).2 = mail.postAll (c.letters record) := by
  unfold send letters
  cases c.outbox <;> rfl

theorem snd_close (c : Connection) (mail : Mail) :
    (c.close mail).2 = mail.endAll c.outbox.toList := by
  unfold close
  cases c.outbox <;> rfl

end Connection

theorem Roster.snd_sendAll (record : Record) (cs : List (Handle × Connection)) (mail : Mail) :
    (sendAll record cs mail).2 = mail.postAll (cs.flatMap fun c => c.2.letters record) := by
  induction cs generalizing mail with
  | nil => rfl
  | cons c rest ih =>
      rw [List.flatMap_cons, Mail.postAll_append, ← Connection.snd_send, ← ih]
      rfl

theorem Roster.snd_broadcast (r : Roster) (mail : Mail) (except : Option Handle)
    (record : Record) :
    (r.broadcast mail except record).2 =
      mail.postAll ((r.members except).flatMap fun c => c.2.letters record) :=
  Roster.snd_sendAll record _ mail

/-- What is queued when a newcomer and one member are told of each other. -/
def Connection.introduction (newcomer : Connection) (user : Identity) (other : Connection) :
    List Letter :=
  match other.user with
  | none => []
  | some known => newcomer.letters (.connect known false) ++ other.letters (.connect user false)

theorem Room.introduce_eq (newcomer : Connection) (user : Identity)
    (others : List (Handle × Connection)) (mail : Mail) :
    introduce newcomer user others mail =
      mail.postAll (others.flatMap fun other => newcomer.introduction user other.2) := by
  induction others generalizing mail with
  | nil => rfl
  | cons other rest ih =>
      rw [List.flatMap_cons, Mail.postAll_append]
      obtain ⟨h, c⟩ := other
      cases hu : c.user with
      | none => simp only [introduce, hu, ih, Connection.introduction, Mail.postAll_nil]
      | some known =>
          simp only [introduce, hu, ih, Connection.introduction, Connection.snd_send,
            Mail.postAll_append]

end ChatRoom
