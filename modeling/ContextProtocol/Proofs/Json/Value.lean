import ContextProtocol.Proofs.Dict
import ContextProtocol.Proofs.Json.Written

/-!
# Values and their forms

A value in memory and the form it is written in determine each other. The way from a form into
memory brings members into order and reads the payloads that were copied in, so it ends at the form
of a value, and a second time changes nothing.

Results:
* `ofForm_ofJson`: the text of a value is read as the document of the value.
* `canonical_parse`, `canonical_toJson`: what is read from a text, or comes out of a form, has its
  members in order.
* `ofJson_toJson`: the value of a form is written as the form with payloads read and members in
  order.
* `toJson_ofJson`: the form of a value stands for that value.
* `toJson_eq_error`, `parse_of_toJson`: only a payload that cannot be read keeps a form out of
  memory.
* `ofJson_eq_sorted`: without payloads, the way into memory does no more than sort.
* `text_injective`: forms without payloads are told apart by their texts.
-/
namespace ContextProtocol

namespace Form

mutual

/-- The form of a value can be written. -/
theorem writable_ofJson : ∀ v : Json, (ofJson v).Writable
  | .null | .bool _ | .string _ => trivial
  | .number (.integer _ h) => h
  | .number (.float _ h) => h
  | .array items => writable_ofItems items
  | .object members => writable_ofMembers members

theorem writable_ofItems : ∀ items : List Json, WritableItems (ofItems items)
  | [] => trivial
  | item :: rest => ⟨writable_ofJson item, writable_ofItems rest⟩

theorem writable_ofMembers :
    ∀ members : List (String × Json), WritableMembers (ofMembers members)
  | [] => trivial
  | (_, v) :: rest => ⟨writable_ofJson v, writable_ofMembers rest⟩

end

end Form

namespace Doc

mutual

/-- The text of a value is read as the document of the value. -/
theorem ofForm_ofJson : ∀ v : Json, ofForm (Form.ofJson v) = ofJson v
  | .null | .bool _ | .string _ => rfl
  | .number (.integer _ h) => ofForm_integer h
  | .number (.float _ h) => ofForm_float h
  | .array items => by rw [Form.ofJson, ofForm, ofFormItems_ofItems items, ofJson]
  | .object members => by rw [Form.ofJson, ofForm, ofFormMembers_ofMembers members, ofJson]

theorem ofFormItems_ofItems :
    ∀ items : List Json, ofFormItems (Form.ofItems items) = ofItems items
  | [] => rfl
  | item :: rest => by
    rw [Form.ofItems, ofFormItems, ofForm_ofJson item, ofFormItems_ofItems rest, ofItems]
    rfl

theorem ofFormMembers_ofMembers : ∀ members : List (String × Json),
    ofFormMembers (Form.ofMembers members) = ofMembers members
  | [] => rfl
  | (name, v) :: rest => by
    rw [Form.ofMembers, ofFormMembers, ofForm_ofJson v, ofFormMembers_ofMembers rest, ofMembers]
    rfl

end

theorem sourced_eq (v : Json) : sourced v = Sourced.ofForm (Form.ofJson v) := by
  rw [Sourced.ofForm, ofForm_ofJson]
  rfl

end Doc

/-! ## Members in order -/

namespace Json

theorem canonicalMembers_iff {members : List (String × Json)} :
    CanonicalMembers members ↔ ∀ m ∈ members, m.2.Canonical := by
  induction members with
  | nil => simp [CanonicalMembers]
  | cons m rest ih =>
    obtain ⟨name, v⟩ := m
    simp [CanonicalMembers, ih]

theorem canonicalItems_iff {items : List Json} :
    CanonicalItems items ↔ ∀ v ∈ items, v.Canonical := by
  induction items with
  | nil => simp [CanonicalItems]
  | cons item rest ih => rw [CanonicalItems, ih, List.forall_mem_cons]

theorem canonical_ofMembers {members : List (String × Json)} (h : CanonicalMembers members) :
    (ofMembers members).Canonical :=
  ⟨Entries.sorted_ofList _, canonicalMembers_iff.mpr fun m hm =>
    canonicalMembers_iff.mp h m (Entries.mem_ofList hm)⟩

end Json

namespace Doc

variable {embedded : String → Except ShapeError Json}

mutual

/-- What is read has its members in order, if the texts that stand for values give such values. -/
theorem canonical_json (he : ∀ t v, embedded t = .ok v → v.Canonical) :
    ∀ (d : Doc) (origin : Origin) (v : Json), json embedded origin d = .ok v → v.Canonical
  | .null, _, _, h => by cases h; trivial
  | .bool _, _, _, h => by cases h; trivial
  | .number token, _, _, h => by
    rw [json, Outcome.map_eq_ok_iff] at h
    obtain ⟨n, -, rfl⟩ := h
    trivial
  | .string token, _, _, h => by
    rw [json, Outcome.map_eq_ok_iff] at h
    obtain ⟨s, -, rfl⟩ := h
    trivial
  | .array items stop, origin, v, h => by
    rw [json, Outcome.bind_eq_ok_iff] at h
    obtain ⟨inner, -, h⟩ := h
    obtain ⟨found, hitems, h⟩ := Outcome.bind_eq_ok_iff.mp h
    cases h
    exact canonical_jsonItems he items inner stop found hitems
  | .object [] stop, origin, v, h => by
    rw [json, Outcome.bind_eq_ok_iff] at h
    obtain ⟨inner, -, h⟩ := h
    obtain ⟨u, -, h⟩ := Outcome.bind_eq_ok_iff.mp h
    cases h
    exact ⟨List.Pairwise.nil, trivial⟩
  | .object ((name, ⟨value, text⟩) :: rest) stop, origin, v, h => by
    rw [json, Outcome.bind_eq_ok_iff] at h
    obtain ⟨inner, -, h⟩ := h
    obtain ⟨name, -, h⟩ := Outcome.bind_eq_ok_iff.mp h
    split at h
    · split at h
      · obtain ⟨t, -, h⟩ := Outcome.bind_eq_ok_iff.mp h
        obtain ⟨found, hfound, h⟩ := Outcome.bind_eq_ok_iff.mp h
        obtain ⟨u, -, h⟩ := Outcome.bind_eq_ok_iff.mp h
        cases h
        exact he t v hfound
      · cases h
    · obtain ⟨first, hfirst, h⟩ := Outcome.bind_eq_ok_iff.mp h
      obtain ⟨others, hothers, h⟩ := Outcome.bind_eq_ok_iff.mp h
      cases h
      exact Json.canonical_ofMembers ⟨canonical_json he value inner first hfirst,
        canonical_jsonMembers he rest inner stop others hothers⟩
  | .cut _ _, _, _, h => by cases h
  | .absent _, _, _, h => by cases h

theorem canonical_jsonItems (he : ∀ t v, embedded t = .ok v → v.Canonical) :
    ∀ (items : List (Sourced Doc)) (origin : Origin) (stop : Option Fault) (found : List Json),
      jsonItems embedded origin stop items = .ok found → Json.CanonicalItems found
  | [], origin, stop, found, h => by
    rw [jsonItems, Outcome.map_eq_ok_iff] at h
    obtain ⟨u, -, rfl⟩ := h
    trivial
  | ⟨item, text⟩ :: rest, origin, stop, found, h => by
    rw [jsonItems, Outcome.bind_eq_ok_iff] at h
    obtain ⟨first, hfirst, h⟩ := h
    obtain ⟨others, hothers, h⟩ := Outcome.bind_eq_ok_iff.mp h
    cases h
    exact ⟨canonical_json he item origin first hfirst,
      canonical_jsonItems he rest origin stop others hothers⟩

theorem canonical_jsonMembers (he : ∀ t v, embedded t = .ok v → v.Canonical) :
    ∀ (members : List (Token String × Sourced Doc)) (origin : Origin) (stop : Option Fault)
      (found : List (String × Json)),
      jsonMembers embedded origin stop members = .ok found → Json.CanonicalMembers found
  | [], origin, stop, found, h => by
    rw [jsonMembers, Outcome.map_eq_ok_iff] at h
    obtain ⟨u, -, rfl⟩ := h
    trivial
  | (name, ⟨value, text⟩) :: rest, origin, stop, found, h => by
    rw [jsonMembers, Outcome.bind_eq_ok_iff] at h
    obtain ⟨name, -, h⟩ := h
    obtain ⟨first, hfirst, h⟩ := Outcome.bind_eq_ok_iff.mp h
    obtain ⟨others, hothers, h⟩ := Outcome.bind_eq_ok_iff.mp h
    cases h
    exact ⟨canonical_json he value origin first hfirst,
      canonical_jsonMembers he rest origin stop others hothers⟩

end

theorem canonical_jsonWithin (level : Nat) : ∀ (origin : Origin) (d : Doc) (v : Json),
    jsonWithin level origin d = .ok v → v.Canonical := by
  induction level with
  | zero =>
    intro origin d v h
    exact canonical_json (fun t w ht => by cases ht) d origin v h
  | succ level ih =>
    intro origin d v h
    refine canonical_json (fun t w ht => ?_) d origin v h
    rw [Outcome.mapError_eq_ok_iff] at ht
    obtain ⟨found, hfound, ht⟩ := Outcome.bind_eq_ok_iff.mp ht
    obtain ⟨u, -, ht⟩ := Outcome.bind_eq_ok_iff.mp ht
    cases ht
    exact ih _ _ _ hfound

end Doc

/-- What is read from a text has its members in order. -/
theorem Json.canonical_parse {text : String} {v : Json} (h : parse text = .ok v) :
    v.Canonical :=
  Doc.canonical_jsonWithin _ _ _ _ (Decoder.runDocument_eq_ok_iff.mp h).1

/-! ## From forms into memory -/

theorem Json.ofInt_eq {i : Int} (h : -0x8000000000000000 ≤ i ∧ i < 0x10000000000000000) :
    ofInt i = .number (.integer i h) := by
  rw [ofInt, Number.ofInt?, dif_pos h]
  rfl

theorem Json.ofFloat_eq {x : Float} (h : x.isFinite = true) : ofFloat x = .number (.float x h) := by
  rw [ofFloat, Number.ofFloat?, dif_pos h]
  rfl

namespace Form

mutual

/-- A form that comes into memory has its members in order there. -/
theorem canonical_toJson : ∀ (f : Form) (v : Json), f.toJson = .ok v → v.Canonical
  | .null, _, h | .bool _, _, h | .string _, _, h => by
    cases h
    trivial
  | .integer i, v, h => by
    cases h
    unfold Json.ofInt
    cases Number.ofInt? i <;> trivial
  | .float x, v, h => by
    cases h
    unfold Json.ofFloat
    cases Number.ofFloat? x <;> trivial
  | .array items, v, h => by
    rw [toJson, Outcome.map_eq_ok_iff] at h
    obtain ⟨found, hitems, rfl⟩ := h
    exact canonical_toJsonItems items found hitems
  | .object members, v, h => by
    rw [toJson, Outcome.map_eq_ok_iff] at h
    obtain ⟨found, hmembers, rfl⟩ := h
    exact Json.canonical_ofMembers (canonical_toJsonMembers members found hmembers)
  | .raw _, _, h => Json.canonical_parse h

theorem canonical_toJsonItems : ∀ (items : List Form) (found : List Json),
    toJsonItems items = .ok found → Json.CanonicalItems found
  | [], _, h => by
    cases h
    trivial
  | item :: rest, _, h => by
    rw [toJsonItems, Outcome.bind_eq_ok_iff] at h
    obtain ⟨first, hfirst, h⟩ := h
    obtain ⟨others, hothers, h⟩ := Outcome.bind_eq_ok_iff.mp h
    cases h
    exact ⟨canonical_toJson item first hfirst, canonical_toJsonItems rest others hothers⟩

theorem canonical_toJsonMembers : ∀ (members : List (String × Form))
    (found : List (String × Json)), toJsonMembers members = .ok found →
    Json.CanonicalMembers found
  | [], _, h => by
    cases h
    trivial
  | (_, f) :: rest, _, h => by
    rw [toJsonMembers, Outcome.bind_eq_ok_iff] at h
    obtain ⟨first, hfirst, h⟩ := h
    obtain ⟨others, hothers, h⟩ := Outcome.bind_eq_ok_iff.mp h
    cases h
    exact ⟨canonical_toJson f first hfirst, canonical_toJsonMembers rest others hothers⟩

end

theorem ofMembers_eq (members : List (String × Json)) :
    ofMembers members = Entries.mapValues ofJson members := by
  induction members with
  | nil => rfl
  | cons m rest ih =>
    obtain ⟨name, v⟩ := m
    rw [ofMembers, ih]
    rfl

theorem ofItems_eq (items : List Json) : ofItems items = items.map ofJson := by
  induction items with
  | nil => rfl
  | cons item rest ih =>
    rw [ofItems, ih]
    rfl

theorem sortedMembers_eq (members : List (String × Form)) :
    sortedMembers members = Entries.mapValues sorted members := by
  induction members with
  | nil => rfl
  | cons m rest ih =>
    obtain ⟨name, f⟩ := m
    rw [sortedMembers, ih]
    rfl

theorem sortedItems_eq (items : List Form) : sortedItems items = items.map sorted := by
  induction items with
  | nil => rfl
  | cons item rest ih =>
    rw [sortedItems, ih]
    rfl

mutual

/-- The form of a value with its members in order is in order. -/
theorem sorted_ofJson : ∀ v : Json, v.Canonical → (ofJson v).sorted = ofJson v
  | .null, _ | .bool _, _ | .string _, _ => rfl
  | .number (.integer _ _), _ | .number (.float _ _), _ => rfl
  | .array items, h => by rw [ofJson, sorted, sortedItems_ofItems items h]
  | .object members, h => by
    rw [ofJson, sorted, sortedMembers_ofMembers members h.2, ofMembers_eq, Entries.ofList_map,
      Entries.ofList_of_sorted h.1]

theorem sortedItems_ofItems : ∀ items : List Json, Json.CanonicalItems items →
    sortedItems (ofItems items) = ofItems items
  | [], _ => rfl
  | item :: rest, h => by
    rw [ofItems, sortedItems, sorted_ofJson item h.1, sortedItems_ofItems rest h.2]

theorem sortedMembers_ofMembers : ∀ members : List (String × Json),
    Json.CanonicalMembers members → sortedMembers (ofMembers members) = ofMembers members
  | [], _ => rfl
  | (name, v) :: rest, h => by
    rw [ofMembers, sortedMembers, sorted_ofJson v h.1, sortedMembers_ofMembers rest h.2]

end

mutual

/-- The form with another form in the place of every payload. -/
def mapRaw (g : String → Form) : Form → Form
  | .array items => .array (mapRawItems g items)
  | .object members => .object (mapRawMembers g members)
  | .raw text => g text
  | f => f

def mapRawItems (g : String → Form) : List Form → List Form
  | [] => []
  | item :: rest => mapRaw g item :: mapRawItems g rest

def mapRawMembers (g : String → Form) : List (String × Form) → List (String × Form)
  | [] => []
  | (name, value) :: rest => (name, mapRaw g value) :: mapRawMembers g rest

end

theorem mapRawItems_eq (g : String → Form) (items : List Form) :
    mapRawItems g items = items.map (mapRaw g) := by
  induction items with
  | nil => rfl
  | cons item rest ih =>
    rw [mapRawItems, ih]
    rfl

theorem mapRawMembers_eq (g : String → Form) (members : List (String × Form)) :
    mapRawMembers g members = Entries.mapValues (mapRaw g) members := by
  induction members with
  | nil => rfl
  | cons m rest ih =>
    obtain ⟨name, f⟩ := m
    rw [mapRawMembers, ih]
    rfl

/-- A payload taken apart; one that cannot be read becomes `null`. -/
def ofPayload (t : String) : Form :=
  match Json.parse t with
  | .ok v => ofJson v
  | .error _ => .null

/-- The form with every payload taken apart. -/
def resolve (f : Form) : Form := f.mapRaw ofPayload

theorem ofPayload_eq {t : String} {v : Json} (h : Json.parse t = .ok v) :
    ofPayload t = ofJson v := by
  rw [ofPayload, h]

mutual

/-- In memory, payloads are read and members are in order. -/
theorem ofJson_toJson : ∀ (f : Form), f.Writable → ∀ v, f.toJson = .ok v →
    ofJson v = f.resolve.sorted
  | .null, _, v, h => by cases h; rfl
  | .bool _, _, v, h => by cases h; rfl
  | .integer i, hf, v, h => by
    cases h
    rw [Json.ofInt_eq hf]
    rfl
  | .float x, hf, v, h => by
    cases h
    rw [Json.ofFloat_eq hf]
    rfl
  | .string _, _, v, h => by cases h; rfl
  | .array items, hf, v, h => by
    rw [toJson, Outcome.map_eq_ok_iff] at h
    obtain ⟨found, hitems, rfl⟩ := h
    rw [ofJson, ofItems_toJsonItems items hf found hitems, resolve, mapRaw, sorted]
  | .object members, hf, v, h => by
    rw [toJson, Outcome.map_eq_ok_iff] at h
    obtain ⟨found, hmembers, rfl⟩ := h
    rw [Json.ofMembers, ofJson, ofMembers_eq, ← Entries.ofList_map, ← ofMembers_eq,
      ofMembers_toJsonMembers members hf found hmembers, resolve, mapRaw, sorted]
  | .raw text, hf, v, h => by
    rw [resolve, mapRaw, ofPayload_eq h, sorted_ofJson v (Json.canonical_parse h)]

theorem ofItems_toJsonItems : ∀ (items : List Form), WritableItems items → ∀ found,
    toJsonItems items = .ok found → ofItems found = sortedItems (mapRawItems ofPayload items)
  | [], _, found, h => by cases h; rfl
  | item :: rest, hf, found, h => by
    rw [toJsonItems, Outcome.bind_eq_ok_iff] at h
    obtain ⟨first, hfirst, h⟩ := h
    obtain ⟨others, hothers, h⟩ := Outcome.bind_eq_ok_iff.mp h
    cases h
    rw [ofItems, ofJson_toJson item hf.1 first hfirst,
      ofItems_toJsonItems rest hf.2 others hothers, mapRawItems, sortedItems, resolve]

theorem ofMembers_toJsonMembers : ∀ (members : List (String × Form)), WritableMembers members →
    ∀ found, toJsonMembers members = .ok found →
      ofMembers found = sortedMembers (mapRawMembers ofPayload members)
  | [], _, found, h => by cases h; rfl
  | (name, f) :: rest, hf, found, h => by
    rw [toJsonMembers, Outcome.bind_eq_ok_iff] at h
    obtain ⟨first, hfirst, h⟩ := h
    obtain ⟨others, hothers, h⟩ := Outcome.bind_eq_ok_iff.mp h
    cases h
    rw [ofMembers, ofJson_toJson f hf.1 first hfirst,
      ofMembers_toJsonMembers rest hf.2 others hothers, mapRawMembers, sortedMembers, resolve]

end

mutual

/-- The form of a value stands for that value. -/
theorem toJson_ofJson : ∀ v : Json, v.Canonical → (ofJson v).toJson = .ok v
  | .null, _ | .bool _, _ | .string _, _ => rfl
  | .number (.integer _ hi), _ => congrArg Except.ok (Json.ofInt_eq hi)
  | .number (.float _ hx), _ => congrArg Except.ok (Json.ofFloat_eq hx)
  | .array items, h => by
    rw [ofJson, toJson, toJsonItems_ofItems items h]
    rfl
  | .object members, h => by
    rw [ofJson, toJson, toJsonMembers_ofMembers members h.2, Outcome.map_ok, Json.ofMembers,
      Entries.ofList_of_sorted h.1]

theorem toJsonItems_ofItems : ∀ items : List Json, Json.CanonicalItems items →
    toJsonItems (ofItems items) = .ok items
  | [], _ => rfl
  | item :: rest, h => by
    rw [ofItems, toJsonItems, toJson_ofJson item h.1, toJsonItems_ofItems rest h.2]
    rfl

theorem toJsonMembers_ofMembers : ∀ members : List (String × Json),
    Json.CanonicalMembers members → toJsonMembers (ofMembers members) = .ok members
  | [], _ => rfl
  | (name, v) :: rest, h => by
    rw [ofMembers, toJsonMembers, toJson_ofJson v h.1, toJsonMembers_ofMembers rest h.2]
    rfl

end

mutual

/-- The payloads that are copied in. -/
def raws : Form → List String
  | .array items => rawsItems items
  | .object members => rawsMembers members
  | .raw text => [text]
  | _ => []

def rawsItems : List Form → List String
  | [] => []
  | item :: rest => raws item ++ rawsItems rest

def rawsMembers : List (String × Form) → List String
  | [] => []
  | (_, value) :: rest => raws value ++ rawsMembers rest

end

mutual

/-- Only a payload that cannot be read keeps a form out of memory. -/
theorem toJson_eq_error : ∀ (f : Form) (e : ShapeError), f.toJson = .error e →
    ∃ t ∈ f.raws, Json.parse t = .error e
  | .null, _, h | .bool _, _, h | .integer _, _, h | .float _, _, h | .string _, _, h => by
    cases h
  | .array items, e, h => by
    rw [toJson, Outcome.map_eq_error_iff] at h
    exact toJsonItems_eq_error items e h
  | .object members, e, h => by
    rw [toJson, Outcome.map_eq_error_iff] at h
    exact toJsonMembers_eq_error members e h
  | .raw text, e, h => ⟨text, List.mem_singleton_self _, h⟩

theorem toJsonItems_eq_error : ∀ (items : List Form) (e : ShapeError),
    toJsonItems items = .error e → ∃ t ∈ rawsItems items, Json.parse t = .error e
  | [], _, h => by cases h
  | item :: rest, e, h => by
    rw [toJsonItems, Outcome.bind_eq_error_iff] at h
    rcases h with h | ⟨first, -, h⟩
    · obtain ⟨t, ht, hparse⟩ := toJson_eq_error item e h
      exact ⟨t, List.mem_append_left _ ht, hparse⟩
    · rcases Outcome.bind_eq_error_iff.mp h with h | ⟨others, -, h⟩
      · obtain ⟨t, ht, hparse⟩ := toJsonItems_eq_error rest e h
        exact ⟨t, List.mem_append_right _ ht, hparse⟩
      · cases h

theorem toJsonMembers_eq_error : ∀ (members : List (String × Form)) (e : ShapeError),
    toJsonMembers members = .error e → ∃ t ∈ rawsMembers members, Json.parse t = .error e
  | [], _, h => by cases h
  | (name, f) :: rest, e, h => by
    rw [toJsonMembers, Outcome.bind_eq_error_iff] at h
    rcases h with h | ⟨first, -, h⟩
    · obtain ⟨t, ht, hparse⟩ := toJson_eq_error f e h
      exact ⟨t, List.mem_append_left _ ht, hparse⟩
    · rcases Outcome.bind_eq_error_iff.mp h with h | ⟨others, -, h⟩
      · obtain ⟨t, ht, hparse⟩ := toJsonMembers_eq_error rest e h
        exact ⟨t, List.mem_append_right _ ht, hparse⟩
      · cases h

end

mutual

/-- Every payload of a form that comes into memory can be read. -/
theorem parse_of_toJson : ∀ (f : Form) (v : Json), f.toJson = .ok v →
    ∀ t ∈ f.raws, ∃ w, Json.parse t = .ok w
  | .null, _, _, t, ht | .bool _, _, _, t, ht | .integer _, _, _, t, ht | .float _, _, _, t, ht
  | .string _, _, _, t, ht => absurd ht List.not_mem_nil
  | .array items, _, h, t, ht => by
    rw [toJson, Outcome.map_eq_ok_iff] at h
    obtain ⟨found, hitems, -⟩ := h
    exact parse_of_toJsonItems items found hitems t ht
  | .object members, _, h, t, ht => by
    rw [toJson, Outcome.map_eq_ok_iff] at h
    obtain ⟨found, hmembers, -⟩ := h
    exact parse_of_toJsonMembers members found hmembers t ht
  | .raw text, v, h, t, ht => by
    rw [List.mem_singleton.mp ht]
    exact ⟨v, h⟩

theorem parse_of_toJsonItems : ∀ (items : List Form) (found : List Json),
    toJsonItems items = .ok found → ∀ t ∈ rawsItems items, ∃ w, Json.parse t = .ok w
  | [], _, _, t, ht => absurd ht List.not_mem_nil
  | item :: rest, _, h, t, ht => by
    rw [toJsonItems, Outcome.bind_eq_ok_iff] at h
    obtain ⟨first, hfirst, h⟩ := h
    obtain ⟨others, hothers, -⟩ := Outcome.bind_eq_ok_iff.mp h
    rcases List.mem_append.mp ht with ht | ht
    · exact parse_of_toJson item first hfirst t ht
    · exact parse_of_toJsonItems rest others hothers t ht

theorem parse_of_toJsonMembers : ∀ (members : List (String × Form))
    (found : List (String × Json)), toJsonMembers members = .ok found →
    ∀ t ∈ rawsMembers members, ∃ w, Json.parse t = .ok w
  | [], _, _, t, ht => absurd ht List.not_mem_nil
  | (_, f) :: rest, _, h, t, ht => by
    rw [toJsonMembers, Outcome.bind_eq_ok_iff] at h
    obtain ⟨first, hfirst, h⟩ := h
    obtain ⟨others, hothers, -⟩ := Outcome.bind_eq_ok_iff.mp h
    rcases List.mem_append.mp ht with ht | ht
    · exact parse_of_toJson f first hfirst t ht
    · exact parse_of_toJsonMembers rest others hothers t ht

end

theorem rawsItems_eq_nil {items : List Form} :
    rawsItems items = [] ↔ ∀ item ∈ items, item.raws = [] := by
  induction items with
  | nil => simp [rawsItems]
  | cons item rest ih => rw [rawsItems, List.append_eq_nil_iff, ih, List.forall_mem_cons]

theorem rawsMembers_eq_nil {members : List (String × Form)} :
    rawsMembers members = [] ↔ ∀ m ∈ members, m.2.raws = [] := by
  induction members with
  | nil => simp [rawsMembers]
  | cons m rest ih =>
    obtain ⟨name, f⟩ := m
    rw [rawsMembers, List.append_eq_nil_iff, ih, List.forall_mem_cons]

/-! ### Forms without payloads -/

theorem exists_toJson {f : Form} (h : f.raws = []) : ∃ v, f.toJson = .ok v := by
  cases hv : f.toJson with
  | ok v => exact ⟨v, rfl⟩
  | error e =>
    obtain ⟨t, ht, -⟩ := toJson_eq_error f e hv
    rw [h] at ht
    cases ht

mutual

theorem mapRaw_of_raws (g : String → Form) : ∀ f : Form, f.raws = [] → f.mapRaw g = f
  | .null, _ | .bool _, _ | .integer _, _ | .float _, _ | .string _, _ => rfl
  | .array items, h => congrArg array (mapRawItems_of_raws g items h)
  | .object members, h => congrArg object (mapRawMembers_of_raws g members h)
  | .raw _, h => by cases h

theorem mapRawItems_of_raws (g : String → Form) : ∀ items : List Form, rawsItems items = [] →
    mapRawItems g items = items
  | [], _ => rfl
  | item :: rest, h => by
    rw [rawsItems, List.append_eq_nil_iff] at h
    rw [mapRawItems, mapRaw_of_raws g item h.1, mapRawItems_of_raws g rest h.2]

theorem mapRawMembers_of_raws (g : String → Form) : ∀ members : List (String × Form),
    rawsMembers members = [] → mapRawMembers g members = members
  | [], _ => rfl
  | (name, f) :: rest, h => by
    rw [rawsMembers, List.append_eq_nil_iff] at h
    rw [mapRawMembers, mapRaw_of_raws g f h.1, mapRawMembers_of_raws g rest h.2]

end

mutual

/-- The form of a value holds no payload. -/
theorem raws_ofJson : ∀ v : Json, (ofJson v).raws = []
  | .null | .bool _ | .string _ => rfl
  | .number (.integer _ _) | .number (.float _ _) => rfl
  | .array items => raws_ofItems items
  | .object members => raws_ofMembers members

theorem raws_ofItems : ∀ items : List Json, rawsItems (ofItems items) = []
  | [] => rfl
  | item :: rest => List.append_eq_nil_iff.mpr ⟨raws_ofJson item, raws_ofItems rest⟩

theorem raws_ofMembers : ∀ members : List (String × Json), rawsMembers (ofMembers members) = []
  | [] => rfl
  | (_, v) :: rest => List.append_eq_nil_iff.mpr ⟨raws_ofJson v, raws_ofMembers rest⟩

end

/-- A form without payloads is in memory as it is written, with its members in order. -/
theorem ofJson_eq_sorted {f : Form} (hf : f.Writable) (hraws : f.raws = []) {v : Json}
    (h : f.toJson = .ok v) : ofJson v = f.sorted := by
  rw [ofJson_toJson f hf v h, resolve, mapRaw_of_raws _ f hraws]

end Form

/-! ### Texts of forms -/

namespace Doc

/-- The value of a token. -/
def tokenValue {α : Type} (token : Token α) (absent : α) : α :=
  match token.reading with
  | .ok value => value
  | .error _ => absent

mutual

/-- The form that a document was written from, if no payload was copied in. -/
def form : Doc → Form
  | .null => .null
  | .bool b => .bool b
  | .number ⟨.ok n, _⟩ => Form.ofNumber n
  | .string ⟨.ok s, _⟩ => .string s
  | .array items _ => .array (formItems items)
  | .object members _ => .object (formMembers members)
  | _ => .null

def formItems : List (Sourced Doc) → List Form
  | [] => []
  | ⟨item, _⟩ :: rest => form item :: formItems rest

def formMembers : List (Token String × Sourced Doc) → List (String × Form)
  | [] => []
  | (name, ⟨value, _⟩) :: rest => (tokenValue name "", form value) :: formMembers rest

end

mutual

theorem form_ofForm : ∀ f : Form, f.Writable → f.raws = [] → (ofForm f).form = f
  | .null, _, _ | .bool _, _, _ | .string _, _, _ => rfl
  | .integer i, hf, _ => by rw [ofForm_integer hf]; rfl
  | .float x, hf, _ => by rw [ofForm_float hf]; rfl
  | .array items, hf, hraws => by
    rw [ofForm, form, formItems_ofFormItems items hf hraws]
  | .object members, hf, hraws => by
    rw [ofForm, form, formMembers_ofFormMembers members hf hraws]
  | .raw _, _, hraws => by cases hraws

theorem formItems_ofFormItems : ∀ items : List Form, Form.WritableItems items →
    Form.rawsItems items = [] → formItems (ofFormItems items) = items
  | [], _, _ => rfl
  | item :: rest, hf, hraws => by
    rw [Form.rawsItems, List.append_eq_nil_iff] at hraws
    rw [ofFormItems, formItems, form_ofForm item hf.1 hraws.1,
      formItems_ofFormItems rest hf.2 hraws.2]

theorem formMembers_ofFormMembers : ∀ members : List (String × Form),
    Form.WritableMembers members → Form.rawsMembers members = [] →
      formMembers (ofFormMembers members) = members
  | [], _, _ => rfl
  | (name, f) :: rest, hf, hraws => by
    rw [Form.rawsMembers, List.append_eq_nil_iff] at hraws
    rw [ofFormMembers, formMembers, form_ofForm f hf.1 hraws.1,
      formMembers_ofFormMembers rest hf.2 hraws.2]
    rfl

end

end Doc

/-- Forms without payloads are told apart by their texts. -/
theorem Form.text_injective {f g : Form} (hf : f.Writable) (hg : g.Writable) (hf' : f.raws = [])
    (hg' : g.raws = []) (h : f.text = g.text) : f = g := by
  have hroot : Sourced.ofForm f = Sourced.ofForm g := by
    have hdoc := congrArg (fun t => (Document.ofString t).root) h
    rwa [Document.ofString_text hf, Document.ofString_text hg] at hdoc
  have hform := congrArg (fun d : Sourced Doc => d.value.form) hroot
  calc f = (Doc.ofForm f).form := (Doc.form_ofForm f hf hf').symm
    _ = (Doc.ofForm g).form := hform
    _ = g := Doc.form_ofForm g hg hg'

end ContextProtocol
