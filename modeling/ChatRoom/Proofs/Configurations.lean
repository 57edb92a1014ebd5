import ChatRoom.Config.Basic
import ChatRoom.Proofs.AddressText
import ChatRoom.Proofs.JsonReading
import ChatRoom.Proofs.JsonText

/-!
# Configurations read back

What is read of a configuration hangs on the values of its own fields, and on nothing else in the
text: neither the order of the fields, nor what stands between them, nor how a string is spelled
(`Json.Altered`, `Json.IsText`). So a configuration is read from its own text, and with defaults for
the fields that were taken out of it.
-/

namespace ChatRoom

namespace Json

/-! ## An object with its fields moved about -/

/-- A field with its name spelled character by character. -/
def memberOf (field : String × Json) : Pieces × Json := (.ofText field.1, field.2)

/-- The object of these fields. -/
def ofFields (fields : List (String × Json)) : Json := object (fields.map memberOf)

theorem field?_memberOf (field : String × Json) : field? (memberOf field) = some field := by
  rw [field?, memberOf, Pieces.text?_ofText, Option.map_some]

theorem named?_memberOf (fields : List (String × Json)) :
    named? (fields.map memberOf) = some fields := by
  rw [named?, List.mapM_map]
  exact (mapM_eq_some_map fun field _ => field?_memberOf field).trans (by rw [List.map_id'])

theorem ofFields_injective {fields others : List (String × Json)}
    (h : ofFields fields = ofFields others) : fields = others := by
  have hnamed := congrArg named? (object.inj h)
  rw [named?_memberOf, named?_memberOf] at hnamed
  exact Option.some.inj hnamed

/-- An object that has the fields of the whole one but for the dropped ones, in any order, and among
them any members with other names. A name may be spelled in any way, but it must have a text. -/
def Altered (whole : Json) (dropped : List String) (value : Json) : Prop :=
  ∃ fields members added, whole = ofFields fields ∧ value = object members
    ∧ members.Perm ((fields.filter (·.1 ∉ dropped)).map memberOf ++ added)
    ∧ ∀ member ∈ added, ∃ name, member.1.text? = some name ∧ name ∉ fields.map (·.1)

/-- An object is itself, with nothing dropped and nothing added. -/
theorem altered_self (fields : List (String × Json)) :
    Altered (ofFields fields) [] (ofFields fields) := by
  refine ⟨fields, _, [], rfl, rfl, ?_, fun member h => absurd h List.not_mem_nil⟩
  rw [List.append_nil, List.filter_eq_self.mpr fun field _ => by simp]

section

variable {fields : List (String × Json)} {dropped : List String} {value : Json}

/-- A name that is there once finds its field. -/
theorem filter_name (hdistinct : (fields.map (·.1)).Nodup) {field : String × Json}
    (h : field ∈ fields) : fields.filter (·.1 = field.1) = [field] := by
  induction fields with
  | nil => exact absurd h List.not_mem_nil
  | cons first rest ih =>
    rw [List.map_cons, List.nodup_cons] at hdistinct
    obtain ⟨hfirst, hrest⟩ := hdistinct
    rcases List.mem_cons.mp h with rfl | h
    · rw [List.filter_cons_of_pos (by simp), List.filter_eq_nil_iff.mpr]
      intro other hother hname
      exact hfirst (of_decide_eq_true hname ▸ List.mem_map_of_mem hother)
    · rw [List.filter_cons_of_neg, ih hrest h]
      intro hname
      exact hfirst (of_decide_eq_true hname ▸ List.mem_map_of_mem h)

/-- What bears a field's name among the fields that were kept, and others that bear none. -/
theorem filter_kept (hdistinct : (fields.map (·.1)).Nodup) {field : String × Json}
    (h : field ∈ fields) {added : List (String × Json)}
    (hadded : ∀ member ∈ added, member.1 ∉ fields.map (·.1)) :
    (fields.filter (·.1 ∉ dropped) ++ added).filter (·.1 = field.1)
      = if field.1 ∈ dropped then [] else [field] := by
  have hnone : added.filter (·.1 = field.1) = [] := by
    rw [List.filter_eq_nil_iff]
    intro member hmember hname
    exact hadded member hmember (of_decide_eq_true hname ▸ List.mem_map_of_mem h)
  rw [List.filter_append, hnone, List.append_nil]
  split
  · rename_i hdropped
    rw [List.filter_eq_nil_iff]
    intro other hother hname
    have hkept := of_decide_eq_true (List.mem_filter.mp hother).2
    exact hkept (of_decide_eq_true hname ▸ hdropped)
  · rename_i hkept
    refine filter_name (hdistinct.sublist (List.filter_sublist.map _)) ?_
    exact List.mem_filter.mpr ⟨h, decide_eq_true hkept⟩

/-- The members of an altered object are the kept fields and others, all with a text for a name. -/
theorem Altered.named (h : Altered (ofFields fields) dropped value) :
    ∃ members named added, value = object members ∧ named? members = some named
      ∧ named.Perm (fields.filter (·.1 ∉ dropped) ++ added)
      ∧ ∀ member ∈ added, member.1 ∉ fields.map (·.1) := by
  obtain ⟨fields, members, added, hwhole, hvalue, hperm, hadded⟩ := h
  obtain rfl := ofFields_injective hwhole
  refine ⟨members, members.filterMap field?, added.filterMap field?, hvalue, ?_, ?_, ?_⟩
  · refine mapM_eq_some_filterMap fun member hmember => ?_
    rcases List.mem_append.mp (hperm.mem_iff.mp hmember) with hmember | hmember
    · obtain ⟨field, -, rfl⟩ := List.mem_map.mp hmember
      rw [field?_memberOf]
      rfl
    · obtain ⟨name, hname, -⟩ := hadded member hmember
      rw [field?, hname]
      rfl
  · have hkept := hperm.filterMap field?
    have hread : field? ∘ memberOf = some := funext field?_memberOf
    rwa [List.filterMap_append, List.filterMap_map, hread, List.filterMap_some] at hkept
  · intro field hfield
    obtain ⟨member, hmember, hread⟩ := List.mem_filterMap.mp hfield
    obtain ⟨name, hname, hother⟩ := hadded member hmember
    rw [field?, hname, Option.map_some, Option.some.injEq] at hread
    rwa [← hread]

/-- **Of an altered object the fields are read that were not dropped.** -/
theorem Altered.fields? (h : Altered (ofFields fields) dropped value)
    (hdistinct : (fields.map (·.1)).Nodup) :
    value.fields? (fields.map (·.1))
      = some (fields.map fun field => if field.1 ∈ dropped then none else some field.2) := by
  obtain ⟨members, named, added, rfl, hnamed, hperm, hadded⟩ := h.named
  rw [fields?_object, hnamed, Option.bind_some, List.mapM_map]
  refine mapM_eq_some_map fun field hfield => ?_
  have hfound := hperm.filter (·.1 = field.1)
  rw [filter_kept hdistinct hfield hadded] at hfound
  rw [Function.comp_apply, member?]
  split_ifs at hfound ⊢ with hdropped
  · rw [List.perm_nil.mp hfound]
  · rw [List.perm_singleton.mp hfound]

end

/-- What is written of an object, if something is written of each of its values. -/
theorem written_ofFields {fields : List (String × Json)} (hne : fields ≠ [])
    (h : ∀ field ∈ fields, Written field.2) : Written (ofFields fields) := by
  refine written_object (by simpa using hne) ?_
  intro member hmember
  obtain ⟨field, hfield, rfl⟩ := List.mem_map.mp hmember
  exact ⟨written_string field.1, h field hfield⟩

/-! ## Reading fields -/

section

variable {α : Type} {read : Json → Option α} {missing found : α} {value : Json}

theorem orElse_ite (h : read value = some found) (p : Prop) [Decidable p] :
    orElse read missing (if p then none else some value) = some (if p then missing else found) := by
  split
  · rfl
  · exact h

theorem orElse_inUnits (h : ∀ value, read value.inUnits = read value) (field : Option Json) :
    orElse read missing (field.map inUnits) = orElse read missing field := by
  cases field with
  | none => rfl
  | some value => exact h value

end

theorem word16?_toDigits (n : UInt16) : word16? (number (Nat.toDigits 10 n.toNat)) = some n := by
  rw [word16?, Text.number?_toDigits (by omega) (by omega), Option.bind_some, if_pos n.toNat_lt,
    UInt16.ofNat_toNat]

/-- A reader that does not see how strings are spelled reads every text of a value alike. -/
theorem IsText.read {α : Type} {read : Json → Option α}
    (hread : ∀ value, read value.inUnits = read value) {value : Json} {text : String}
    (h : IsText value text) : (ofText? text).bind read = read value := by
  obtain ⟨spelled, hspelled, hunits⟩ := h
  rw [ofText?_eq_some_iff.mpr hspelled, Option.bind_some, ← hread, hunits, hread]

end Json

/-! ## Addresses and versions -/

namespace IpAddress

theorem ofJson?_inUnits (value : Json) : ofJson? value.inUnits = ofJson? value := by
  rw [ofJson?, ofJson?, Json.text?_inUnits]

theorem ofJson?_text (ip : IpAddress) : ofJson? (.string (.ofText ip.text)) = some ip := by
  rw [ofJson?, Json.text?, Json.Pieces.text?_ofText, Option.bind_some, ofText?_text]

end IpAddress

namespace Version

def fields (v : Version) : List (String × Json) :=
  [("major", .number (Nat.toDigits 10 v.major.toNat)),
    ("minor", .number (Nat.toDigits 10 v.minor.toNat)),
    ("patch", .number (Nat.toDigits 10 v.patch.toNat))]

theorem toJson_eq (v : Version) : v.toJson = .ofFields v.fields := rfl

theorem written (v : Version) : Json.Written v.toJson := by
  rw [toJson_eq]
  refine Json.written_ofFields (List.cons_ne_nil _ _) ?_
  simp [fields, Json.written_number]

theorem ofJson?_toJson (v : Version) : ofJson? v.toJson = some v := by
  have hfields : v.toJson.fields? ["major", "minor", "patch"] = _ :=
    (Json.altered_self v.fields).fields? (by simp [fields])
  rw [ofJson?, hfields]
  simp [fields, Json.word16?_toDigits]

theorem ofJson?_inUnits (value : Json) : ofJson? value.inUnits = ofJson? value := by
  rw [ofJson?, ofJson?, Json.fields?_inUnits]
  cases value.fields? ["major", "minor", "patch"] with
  | none => rfl
  | some read =>
    rcases read with - | ⟨- | major, - | ⟨- | minor, - | ⟨- | patch, - | ⟨_, _⟩⟩⟩⟩ <;> try rfl
    simp only [Option.map_some, List.map_cons, List.map_nil, Json.word16?_inUnits]

end Version

/-! ## The server's configuration -/

namespace ServerConfig

def fields (c : ServerConfig) : List (String × Json) :=
  [("bind", .string (.ofText c.bind.text)), ("port", .number (Nat.toDigits 10 c.port.toNat)),
    ("version", c.version.toJson)]

theorem toJson_eq (c : ServerConfig) : c.toJson = .ofFields c.fields := rfl

/-- The configuration with defaults for the dropped fields. -/
def without (dropped : List String) (c : ServerConfig) : ServerConfig :=
  let missing : ServerConfig := {}
  { bind := if "bind" ∈ dropped then missing.bind else c.bind
    port := if "port" ∈ dropped then missing.port else c.port
    version := if "version" ∈ dropped then missing.version else c.version }

theorem without_nil (c : ServerConfig) : c.without [] = c := rfl

theorem written (c : ServerConfig) : Json.Written c.toJson := by
  rw [toJson_eq]
  refine Json.written_ofFields (List.cons_ne_nil _ _) ?_
  simp [fields, Json.written_string, Json.written_number, Version.written]

theorem ofJson?_inUnits (value : Json) : ofJson? value.inUnits = ofJson? value := by
  rw [ofJson?, ofJson?, Json.fields?_inUnits]
  match value.fields? ["bind", "port", "version"] with
  | some [bind, port, version] =>
    simp only [Option.map_some, List.map_cons, List.map_nil,
      Json.orElse_inUnits IpAddress.ofJson?_inUnits, Json.orElse_inUnits Json.word16?_inUnits,
      Json.orElse_inUnits Version.ofJson?_inUnits]
  | none | some [] | some [_] | some [_, _] | some (_ :: _ :: _ :: _ :: _) => rfl

/-- What is left of a configuration is read, and defaults for what is gone. -/
theorem ofJson?_altered {c : ServerConfig} {dropped : List String} {value : Json}
    (h : Json.Altered c.toJson dropped value) : ofJson? value = some (c.without dropped) := by
  rw [toJson_eq] at h
  have hfields : value.fields? ["bind", "port", "version"] = _ := h.fields? (by simp [fields])
  rw [ofJson?, hfields]
  simp only [fields, List.map_cons, List.map_nil, Json.orElse_ite c.bind.ofJson?_text,
    Json.orElse_ite (Json.word16?_toDigits c.port), Json.orElse_ite c.version.ofJson?_toJson]
  rfl

end ServerConfig

/-! ## The client's configuration -/

namespace ClientConfig

def fields (c : ClientConfig) : List (String × Json) :=
  [("host", .string (.ofText c.host)), ("port", .number (Nat.toDigits 10 c.port.toNat))]

theorem toJson_eq (c : ClientConfig) : c.toJson = .ofFields c.fields := rfl

/-- The configuration with defaults for the dropped fields. -/
def without (dropped : List String) (c : ClientConfig) : ClientConfig :=
  let missing : ClientConfig := {}
  { host := if "host" ∈ dropped then missing.host else c.host
    port := if "port" ∈ dropped then missing.port else c.port }

theorem without_nil (c : ClientConfig) : c.without [] = c := rfl

theorem written (c : ClientConfig) : Json.Written c.toJson := by
  rw [toJson_eq]
  refine Json.written_ofFields (List.cons_ne_nil _ _) ?_
  simp [fields, Json.written_string, Json.written_number]

theorem ofJson?_inUnits (value : Json) : ofJson? value.inUnits = ofJson? value := by
  rw [ofJson?, ofJson?, Json.fields?_inUnits]
  match value.fields? ["host", "port"] with
  | some [host, port] =>
    simp only [Option.map_some, List.map_cons, List.map_nil,
      Json.orElse_inUnits Json.text?_inUnits, Json.orElse_inUnits Json.word16?_inUnits]
  | none | some [] | some [_] | some (_ :: _ :: _ :: _) => rfl

/-- What is left of a configuration is read, and defaults for what is gone. -/
theorem ofJson?_altered {c : ClientConfig} {dropped : List String} {value : Json}
    (h : Json.Altered c.toJson dropped value) : ofJson? value = some (c.without dropped) := by
  have hhost : (Json.string (.ofText c.host)).text? = some c.host := Json.Pieces.text?_ofText c.host
  rw [toJson_eq] at h
  have hfields : value.fields? ["host", "port"] = _ := h.fields? (by simp [fields])
  rw [ofJson?, hfields]
  simp only [fields, List.map_cons, List.map_nil, Json.orElse_ite hhost,
    Json.orElse_ite (Json.word16?_toDigits c.port)]
  rfl

end ClientConfig

/-- **A configuration is read from its own text, and what is left of it from any text of an object
that lost some of its fields**, with the defaults for those: whatever the order of the others, and
whatever other fields stand among them. -/
theorem configurations_reread :
    (∀ c : ServerConfig, ServerConfig.ofText? c.text = some c)
      ∧ (∀ c : ClientConfig, ClientConfig.ofText? c.text = some c)
      ∧ (∀ (c : ServerConfig) (dropped : List String) (value : Json) (text : String),
          Json.Altered c.toJson dropped value → Json.IsText value text →
            ServerConfig.ofText? text = some (c.without dropped))
      ∧ (∀ (c : ClientConfig) (dropped : List String) (value : Json) (text : String),
          Json.Altered c.toJson dropped value → Json.IsText value text →
            ClientConfig.ofText? text = some (c.without dropped)) := by
  have hserver : ∀ (c : ServerConfig) (dropped : List String) (value : Json) (text : String),
      Json.Altered c.toJson dropped value → Json.IsText value text →
        ServerConfig.ofText? text = some (c.without dropped) := by
    intro c dropped value text haltered htext
    rw [ServerConfig.ofText?, htext.read ServerConfig.ofJson?_inUnits,
      ServerConfig.ofJson?_altered haltered]
  have hclient : ∀ (c : ClientConfig) (dropped : List String) (value : Json) (text : String),
      Json.Altered c.toJson dropped value → Json.IsText value text →
        ClientConfig.ofText? text = some (c.without dropped) := by
    intro c dropped value text haltered htext
    rw [ClientConfig.ofText?, htext.read ClientConfig.ofJson?_inUnits,
      ClientConfig.ofJson?_altered haltered]
  refine ⟨fun c => ?_, fun c => ?_, hserver, hclient⟩
  · rw [hserver c [] c.toJson c.text (Json.altered_self c.fields) c.written.isText, c.without_nil]
  · rw [hclient c [] c.toJson c.text (Json.altered_self c.fields) c.written.isText, c.without_nil]

/-- A port alone, behind a field that no configuration has and whose string has no text. -/
theorem configurations_reread_port :
    let text := "\x7b \"x\": [\"\\ud800\"],\n\"port\":9000\x7d"
    ServerConfig.ofText? text = some { port := 9000 }
      ∧ ClientConfig.ofText? text = some { port := 9000 } := by
  intro text
  let port : Json := .number (Nat.toDigits 10 9000)
  let unknown : Json.Pieces × Json := (.ofText "x", .array [.string [.unit 0xD800]])
  let value : Json := .object [unknown, Json.memberOf ("port", port)]
  have hx : Json.SpellsPieces (.ofText "x") ['x'] := .char (by decide) (by decide) (by decide) .nil
  have hport : Json.SpellsPieces (.ofText "port") ['p', 'o', 'r', 't'] :=
    .char (by decide) (by decide) (by decide) <| .char (by decide) (by decide) (by decide) <|
      .char (by decide) (by decide) (by decide) <| .char (by decide) (by decide) (by decide) .nil
  have hunit : Json.SpellsPieces [.unit 0xD800] ['\\', 'u', 'd', '8', '0', '0'] :=
    .unit (by decide) .nil
  have hspelled : value.Spells _ := .object <|
    .more (@Json.Spells.before ' ' _ _ rfl (.string hx))
      (@Json.Spells.before ' ' _ _ rfl (.array (.last (.string hunit))))
      (.last (@Json.Spells.before '\n' _ _ rfl (.string hport))
        (.number (Json.isNumber_toDigits 9000)))
  have htext : value.IsText text := by
    refine ⟨value, ?_, rfl⟩
    convert hspelled using 1
    decide +kernel
  have hunknown : ∀ names : List String, "x" ∉ names →
      ∀ member ∈ [unknown], ∃ name, member.1.text? = some name ∧ name ∉ names := by
    rintro names hnames member hmember
    rw [List.mem_singleton.mp hmember]
    exact ⟨"x", Json.Pieces.text?_ofText "x", hnames⟩
  let server : ServerConfig := ⟨.v4 .unspecified, 9000, ⟨2, 1, 0⟩⟩
  have hserver : server.toJson.Altered ["bind", "version"] value := by
    refine ⟨server.fields, _, [unknown], rfl, rfl, List.Perm.swap _ _ _, hunknown _ ?_⟩
    decide
  let client : ClientConfig := ⟨"a \"host\"", 9000⟩
  have hclient : client.toJson.Altered ["host"] value := by
    refine ⟨client.fields, _, [unknown], rfl, rfl, List.Perm.swap _ _ _, hunknown _ ?_⟩
    decide
  obtain ⟨-, -, hreadServer, hreadClient⟩ := configurations_reread
  exact ⟨hreadServer server _ value _ hserver htext, hreadClient client _ value _ hclient htext⟩

end ChatRoom
