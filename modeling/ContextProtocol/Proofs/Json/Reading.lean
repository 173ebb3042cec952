import ContextProtocol.Proofs.Json.Value

/-!
# Values read back

A value that is taken out of a text goes through its document. An object whose first member has
the reserved name stands for another value, so a value with that name inside need not come back
from its own text. Everything else does, from a text with enough room and from memory alike.

Results:
* `json_ofForm`: a form without payloads whose objects stand for themselves is read as its value in
  memory.
* `verify_ofForm`: a form without payloads is taken apart without a fault.
* `json_origin`: whatever is read from a text is read the same way wherever there is room for it.
* `parse_text`: a value without the reserved name that nests at most 127 levels comes back.
* `Json.Recovered.ofDoc`: a value that comes back from its own text comes back everywhere.
-/
namespace ContextProtocol

/-! ## Nesting -/

namespace Form

mutual

/-- How deep the containers nest; what is copied in is not taken apart. -/
def depth : Form → Nat
  | .array items => depthItems items + 1
  | .object members => depthMembers members + 1
  | _ => 0

def depthItems : List Form → Nat
  | [] => 0
  | item :: rest => max (depth item) (depthItems rest)

def depthMembers : List (String × Form) → Nat
  | [] => 0
  | (_, value) :: rest => max (depth value) (depthMembers rest)

end

theorem depthItems_le_iff {items : List Form} {n : Nat} :
    depthItems items ≤ n ↔ ∀ item ∈ items, item.depth ≤ n := by
  induction items with
  | nil => simp [depthItems]
  | cons item rest ih => rw [depthItems, Nat.max_le, ih, List.forall_mem_cons]

theorem depthMembers_le_iff {members : List (String × Form)} {n : Nat} :
    depthMembers members ≤ n ↔ ∀ m ∈ members, m.2.depth ≤ n := by
  induction members with
  | nil => simp [depthMembers]
  | cons m rest ih =>
    obtain ⟨name, f⟩ := m
    rw [depthMembers, Nat.max_le, ih, List.forall_mem_cons]

end Form

namespace Origin

/-- There is room for so many containers inside each other. -/
def Admits : Origin → Nat → Prop
  | .text room, n => n ≤ room
  | .value, _ => True

theorem Admits.mono {origin : Origin} {m n : Nat} (h : origin.Admits n) (hmn : m ≤ n) :
    origin.Admits m := by
  cases origin with
  | text room => exact Nat.le_trans hmn h
  | value => trivial

theorem admits_zero (origin : Origin) : origin.Admits 0 := by
  cases origin with
  | text room => exact Nat.zero_le room
  | value => trivial

theorem admits_max {origin : Origin} {m n : Nat} :
    origin.Admits (max m n) ↔ origin.Admits m ∧ origin.Admits n := by
  cases origin with
  | text room => exact Nat.max_le
  | value => exact ⟨fun _ => ⟨trivial, trivial⟩, fun _ => trivial⟩

theorem admits_depthMembers_iff {origin : Origin} {members : List (String × Form)} :
    origin.Admits (Form.depthMembers members) ↔ ∀ m ∈ members, origin.Admits m.2.depth := by
  cases origin with
  | text room => exact Form.depthMembers_le_iff
  | value => exact ⟨fun _ _ _ => trivial, fun _ => trivial⟩

/-- Entering a container uses up the room for one. -/
theorem enter_admits {origin inner : Origin} (h : origin.enter = .ok inner) {n : Nat} :
    origin.Admits (n + 1) ↔ inner.Admits n := by
  cases origin with
  | text room =>
    cases room with
    | zero => cases h
    | succ room =>
      cases h
      exact Nat.succ_le_succ_iff
  | value =>
    cases h
    exact Iff.rfl

/-- A container with room for it is entered, and leaves room for what it holds. -/
theorem Admits.enter {origin : Origin} {n : Nat} (h : origin.Admits (n + 1)) :
    ∃ inner, origin.enter = .ok inner ∧ inner.Admits n := by
  cases origin with
  | text room =>
    cases room with
    | zero => exact absurd h (Nat.not_succ_le_zero n)
    | succ room => exact ⟨.text room, rfl, Nat.le_of_succ_le_succ h⟩
  | value => exact ⟨.value, rfl, trivial⟩

end Origin

/-! ## Forms without the reserved name -/

namespace Form

mutual

/-- No payload is copied in, and no member has the reserved name. -/
def Plain : Form → Prop
  | .array items => PlainItems items
  | .object members => PlainMembers members
  | .raw _ => False
  | _ => True

def PlainItems : List Form → Prop
  | [] => True
  | item :: rest => Plain item ∧ PlainItems rest

def PlainMembers : List (String × Form) → Prop
  | [] => True
  | (name, value) :: rest => name ≠ Doc.embeddedName ∧ Plain value ∧ PlainMembers rest

end

theorem plainMembers_iff {members : List (String × Form)} :
    PlainMembers members ↔ ∀ m ∈ members, m.1 ≠ Doc.embeddedName ∧ m.2.Plain := by
  induction members with
  | nil => simp [PlainMembers]
  | cons m rest ih =>
    obtain ⟨name, f⟩ := m
    rw [PlainMembers, ih, List.forall_mem_cons, and_assoc]

mutual

theorem Plain.sorted : ∀ {f : Form}, f.Plain → f.sorted.Plain
  | .null, _ | .bool _, _ | .integer _, _ | .float _, _ | .string _, _ => trivial
  | .array _, h => PlainItems.sorted h
  | .object _, h => plainMembers_iff.mpr fun m hm =>
      plainMembers_iff.mp (PlainMembers.sorted h) m (Entries.mem_ofList hm)
  | .raw _, h => h

theorem PlainItems.sorted : ∀ {items : List Form}, PlainItems items → PlainItems (sortedItems items)
  | [], _ => trivial
  | _ :: _, h => ⟨Plain.sorted h.1, PlainItems.sorted h.2⟩

theorem PlainMembers.sorted : ∀ {members : List (String × Form)}, PlainMembers members →
    PlainMembers (sortedMembers members)
  | [], _ => trivial
  | (_, _) :: _, h => ⟨h.1, Plain.sorted h.2.1, PlainMembers.sorted h.2.2⟩

end

mutual

/-- Bringing members into order makes nothing deeper. -/
theorem depth_sorted_le : ∀ f : Form, f.sorted.depth ≤ f.depth
  | .null | .bool _ | .integer _ | .float _ | .string _ | .raw _ => Nat.le_refl _
  | .array items => Nat.succ_le_succ (depthItems_sorted_le items)
  | .object members => by
    refine Nat.succ_le_succ (depthMembers_le_iff.mpr fun m hm => ?_)
    exact depthMembers_le_iff.mp (depthMembers_sorted_le members) m (Entries.mem_ofList hm)

theorem depthItems_sorted_le : ∀ items : List Form,
    depthItems (sortedItems items) ≤ depthItems items
  | [] => Nat.le_refl _
  | item :: rest => by
    have := depth_sorted_le item
    have := depthItems_sorted_le rest
    simp only [sortedItems, depthItems]
    omega

theorem depthMembers_sorted_le : ∀ members : List (String × Form),
    depthMembers (sortedMembers members) ≤ depthMembers members
  | [] => Nat.le_refl _
  | (_, f) :: rest => by
    have := depth_sorted_le f
    have := depthMembers_sorted_le rest
    simp only [sortedMembers, depthMembers]
    omega

end

/-! ## Forms whose objects stand for themselves -/

mutual

/-- No payload is copied in, and no object begins with the reserved name. -/
def Bare : Form → Prop
  | .array items => BareItems items
  | .object [] => True
  | .object ((name, value) :: rest) => name ≠ Doc.embeddedName ∧ Bare value ∧ BareMembers rest
  | .raw _ => False
  | _ => True

def BareItems : List Form → Prop
  | [] => True
  | item :: rest => Bare item ∧ BareItems rest

/-- The values are bare, whatever their names. -/
def BareMembers : List (String × Form) → Prop
  | [] => True
  | (_, value) :: rest => Bare value ∧ BareMembers rest

end

mutual

theorem Plain.bare : ∀ {f : Form}, f.Plain → f.Bare
  | .null, _ | .bool _, _ | .integer _, _ | .float _, _ | .string _, _ => trivial
  | .array _, h => PlainItems.bare h
  | .object [], _ => trivial
  | .object ((_, _) :: _), h => ⟨h.1, Plain.bare h.2.1, PlainMembers.bare h.2.2⟩
  | .raw _, h => h

theorem PlainItems.bare : ∀ {items : List Form}, PlainItems items → BareItems items
  | [], _ => trivial
  | _ :: _, h => ⟨Plain.bare h.1, PlainItems.bare h.2⟩

theorem PlainMembers.bare : ∀ {members : List (String × Form)}, PlainMembers members →
    BareMembers members
  | [], _ => trivial
  | (_, _) :: _, h => ⟨Plain.bare h.2.1, PlainMembers.bare h.2.2⟩

end

theorem bareItems_iff {items : List Form} : BareItems items ↔ ∀ item ∈ items, item.Bare := by
  induction items with
  | nil => simp [BareItems]
  | cons item rest ih => rw [BareItems, ih, List.forall_mem_cons]

theorem bareMembers_iff {members : List (String × Form)} :
    BareMembers members ↔ ∀ m ∈ members, m.2.Bare := by
  induction members with
  | nil => simp [BareMembers]
  | cons m rest ih =>
    obtain ⟨name, f⟩ := m
    rw [BareMembers, ih, List.forall_mem_cons]

/-- Members are bare when their values are and the first one has another name. -/
theorem bare_object_iff {members : List (String × Form)} : (Form.object members).Bare ↔
    (∀ m ∈ members.head?, m.1 ≠ Doc.embeddedName) ∧ ∀ m ∈ members, m.2.Bare := by
  cases members with
  | nil => simp [Bare]
  | cons m rest =>
    obtain ⟨name, f⟩ := m
    rw [Bare, bareMembers_iff, List.forall_mem_cons]
    simp

mutual

theorem Bare.raws : ∀ {f : Form}, f.Bare → f.raws = []
  | .null, _ | .bool _, _ | .integer _, _ | .float _, _ | .string _, _ => rfl
  | .array _, h => BareItems.raws h
  | .object [], _ => rfl
  | .object ((_, _) :: _), h =>
    List.append_eq_nil_iff.mpr ⟨Bare.raws h.2.1, BareMembers.raws h.2.2⟩
  | .raw _, h => h.elim

theorem BareItems.raws : ∀ {items : List Form}, BareItems items → rawsItems items = []
  | [], _ => rfl
  | _ :: _, h => List.append_eq_nil_iff.mpr ⟨Bare.raws h.1, BareItems.raws h.2⟩

theorem BareMembers.raws :
    ∀ {members : List (String × Form)}, BareMembers members → rawsMembers members = []
  | [], _ => rfl
  | (_, _) :: _, h => List.append_eq_nil_iff.mpr ⟨Bare.raws h.1, BareMembers.raws h.2⟩

end

theorem Plain.raws {f : Form} (h : f.Plain) : f.raws = [] := h.bare.raws

end Form

namespace Doc

variable (embedded : String → Except ShapeError Json)

mutual

/-- A form whose objects stand for themselves is read as its value in memory. -/
theorem json_ofForm : ∀ (f : Form), f.Writable → f.Bare → ∀ origin, origin.Admits f.depth →
    json embedded origin (ofForm f) = f.toJson
  | .null, _, _, _, _ | .bool _, _, _, _, _ | .string _, _, _, _, _ => rfl
  | .integer i, hf, _, origin, _ => by
    rw [ofForm_integer hf, Form.toJson, Json.ofInt_eq hf]
    rfl
  | .float x, hf, _, origin, _ => by
    rw [ofForm_float hf, Form.toJson, Json.ofFloat_eq hf]
    rfl
  | .array items, hf, hp, origin, ho => by
    obtain ⟨inner, henter, hinner⟩ := Origin.Admits.enter ho
    rw [ofForm, json, henter, Outcome.ok_bind, jsonItems_ofFormItems items hf hp inner hinner,
      Form.toJson]
    rfl
  | .object [], _, _, origin, ho => by
    obtain ⟨inner, henter, -⟩ := Origin.Admits.enter ho
    rw [ofForm, ofFormMembers, json, henter]
    rfl
  | .object ((name, f) :: rest), hf, hp, origin, ho => by
    obtain ⟨inner, henter, hinner⟩ := Origin.Admits.enter ho
    rw [ofForm, ofFormMembers, json, henter, Outcome.ok_bind]
    rw [Form.depthMembers] at hinner
    have hread : (Token.sound name).read = .ok name := rfl
    rw [hread, Outcome.ok_bind, if_neg hp.1,
      json_ofForm f hf.1 hp.2.1 inner (hinner.mono (Nat.le_max_left _ _)),
      jsonMembers_ofFormMembers rest hf.2 hp.2.2 inner (hinner.mono (Nat.le_max_right _ _)),
      Form.toJson, Form.toJsonMembers]
    cases f.toJson with
    | error e => rfl
    | ok v => cases Form.toJsonMembers rest <;> rfl
  | .raw _, _, hp, _, _ => hp.elim

theorem jsonItems_ofFormItems : ∀ (items : List Form), Form.WritableItems items →
    Form.BareItems items → ∀ origin, origin.Admits (Form.depthItems items) →
    jsonItems embedded origin none (ofFormItems items) = Form.toJsonItems items
  | [], _, _, _, _ => rfl
  | item :: rest, hf, hp, origin, ho => by
    rw [Form.depthItems] at ho
    rw [ofFormItems, jsonItems,
      json_ofForm item hf.1 hp.1 origin (ho.mono (Nat.le_max_left _ _)),
      jsonItems_ofFormItems rest hf.2 hp.2 origin (ho.mono (Nat.le_max_right _ _)),
      Form.toJsonItems]

theorem jsonMembers_ofFormMembers : ∀ (members : List (String × Form)),
    Form.WritableMembers members → Form.BareMembers members →
    ∀ origin, origin.Admits (Form.depthMembers members) →
    jsonMembers embedded origin none (ofFormMembers members) = Form.toJsonMembers members
  | [], _, _, _, _ => rfl
  | (name, f) :: rest, hf, hp, origin, ho => by
    rw [Form.depthMembers] at ho
    have hread : (Token.sound name).read = .ok name := rfl
    rw [ofFormMembers, jsonMembers, hread, Outcome.ok_bind,
      json_ofForm f hf.1 hp.1 origin (ho.mono (Nat.le_max_left _ _)),
      jsonMembers_ofFormMembers rest hf.2 hp.2 origin (ho.mono (Nat.le_max_right _ _)),
      Form.toJsonMembers]

end

mutual

/-- A form without payloads is taken apart wherever there is room for it. -/
theorem verify_ofForm : ∀ (f : Form), f.Writable → f.raws = [] → ∀ origin,
    origin.Admits f.depth → verify origin (ofForm f) = .ok ()
  | .null, _, _, _, _ | .bool _, _, _, _, _ | .string _, _, _, _, _ => rfl
  | .integer i, hf, _, origin, _ => by
    rw [ofForm_integer hf]
    rfl
  | .float x, hf, _, origin, _ => by
    rw [ofForm_float hf]
    rfl
  | .array items, hf, hraws, origin, ho => by
    obtain ⟨inner, henter, hinner⟩ := Origin.Admits.enter ho
    rw [ofForm, verify, henter]
    exact verifyItems_ofFormItems items hf hraws inner hinner
  | .object members, hf, hraws, origin, ho => by
    obtain ⟨inner, henter, hinner⟩ := Origin.Admits.enter ho
    rw [ofForm, verify, henter]
    exact verifyMembers_ofFormMembers members hf hraws inner hinner
  | .raw _, _, hraws, _, _ => by cases hraws

theorem verifyItems_ofFormItems : ∀ (items : List Form), Form.WritableItems items →
    Form.rawsItems items = [] → ∀ origin, origin.Admits (Form.depthItems items) →
    verifyItems origin none (ofFormItems items) = .ok ()
  | [], _, _, _, _ => rfl
  | item :: rest, hf, hraws, origin, ho => by
    rw [Form.rawsItems, List.append_eq_nil_iff] at hraws
    rw [Form.depthItems] at ho
    rw [ofFormItems, verifyItems,
      verify_ofForm item hf.1 hraws.1 origin (ho.mono (Nat.le_max_left _ _))]
    exact verifyItems_ofFormItems rest hf.2 hraws.2 origin (ho.mono (Nat.le_max_right _ _))

theorem verifyMembers_ofFormMembers : ∀ (members : List (String × Form)),
    Form.WritableMembers members → Form.rawsMembers members = [] → ∀ origin,
    origin.Admits (Form.depthMembers members) →
    verifyMembers origin none (ofFormMembers members) = .ok ()
  | [], _, _, _, _ => rfl
  | (name, f) :: rest, hf, hraws, origin, ho => by
    have hread : (Token.sound name).read = .ok name := rfl
    rw [Form.rawsMembers, List.append_eq_nil_iff] at hraws
    rw [Form.depthMembers] at ho
    rw [ofFormMembers, verifyMembers, hread, Outcome.ok_bind,
      verify_ofForm f hf.1 hraws.1 origin (ho.mono (Nat.le_max_left _ _))]
    exact verifyMembers_ofFormMembers rest hf.2 hraws.2 origin (ho.mono (Nat.le_max_right _ _))

end

end Doc

theorem Json.ofDoc_ofForm {f : Form} (hf : f.Writable) (hp : f.Bare) {origin : Origin}
    (ho : origin.Admits f.depth) : Json.ofDoc origin (Doc.ofForm f) = f.toJson :=
  Doc.json_ofForm _ f hf hp origin ho

/-- The text of such a form is the text of its value in memory. -/
theorem Json.parseBytes_text {f : Form} (hf : f.Writable) (hp : f.Bare)
    (hd : f.depth ≤ Origin.maxDepth) : Json.parseBytes f.text.toUTF8 = f.toJson := by
  obtain ⟨v, hv⟩ := Form.exists_toJson hp.raws
  have ho : Origin.Admits (.text Origin.maxDepth) f.depth := hd
  rw [hv]
  refine Decoder.runDocument_eq_ok_iff.mpr ?_
  rw [Document.ofBytes_text hf]
  exact ⟨(Json.ofDoc_ofForm hf hp ho).trans hv, rfl⟩

/-- A value without the reserved name is read as itself, wherever there is room for it. -/
theorem Json.ofDoc_plain {v : Json} (hv : v.Canonical) (hp : (Form.ofJson v).Plain)
    {origin : Origin} (ho : origin.Admits (Form.ofJson v).depth) :
    Json.ofDoc origin (Doc.ofForm (Form.ofJson v)) = .ok v := by
  rw [Json.ofDoc_ofForm (Form.writable_ofJson v) hp.bare ho, Form.toJson_ofJson v hv]

/-- A value without the reserved name that nests at most 127 levels comes back from its text. -/
theorem Json.parse_text {v : Json} (hv : v.Canonical) (hp : (Form.ofJson v).Plain)
    (hd : (Form.ofJson v).depth ≤ Origin.maxDepth) : Json.parse v.text = .ok v := by
  refine Decoder.runDocument_eq_ok_iff.mpr ?_
  rw [Json.text, Document.ofString_text (Form.writable_ofJson v)]
  have ho : Origin.Admits (.text Origin.maxDepth) (Form.ofJson v).depth := hd
  exact ⟨Json.ofDoc_plain hv hp ho, rfl⟩

/-! ## Values that come back -/

namespace Doc

variable {embedded : String → Except ShapeError Json}

theorem closeEmbedded_origin {origin : Origin} {others : Nat} {stop : Option Fault}
    (h : closeEmbedded origin others stop = .ok ()) (origin' : Origin) :
    closeEmbedded origin' others stop = .ok () := by
  cases others with
  | zero => exact h
  | succ n => cases origin <;> cases h

mutual

/-- What is read from the document of a value is read the same way wherever there is room. -/
theorem json_origin : ∀ (v : Json) {origin : Origin} {w : Json},
    json embedded origin (ofJson v) = .ok w →
    ∀ {origin' : Origin}, origin'.Admits (Form.ofJson v).depth →
    json embedded origin' (ofJson v) = .ok w
  | .null, _, _, h, _, _ => h
  | .bool _, _, _, h, _, _ => h
  | .number _, _, _, h, _, _ => h
  | .string _, _, _, h, _, _ => h
  | .array items, origin, w, h, origin', ho => by
    obtain ⟨inner, henter, hinner⟩ := Origin.Admits.enter ho
    rw [ofJson, json, Outcome.bind_eq_ok_iff] at h
    obtain ⟨_, -, h⟩ := h
    obtain ⟨found, hitems, h⟩ := Outcome.bind_eq_ok_iff.mp h
    rw [ofJson, json, henter, Outcome.ok_bind, jsonItems_origin items hitems hinner]
    exact h
  | .object [], origin, w, h, origin', ho => by
    obtain ⟨inner, henter, -⟩ := Origin.Admits.enter ho
    rw [ofJson, ofMembers, json, Outcome.bind_eq_ok_iff] at h
    obtain ⟨_, -, h⟩ := h
    rw [ofJson, ofMembers, json, henter]
    exact h
  | .object ((name, v) :: rest), origin, w, h, origin', ho => by
    obtain ⟨inner, henter, hinner⟩ := Origin.Admits.enter ho
    rw [Form.ofMembers, Form.depthMembers] at hinner
    have hread : (Token.sound name).read = .ok name := rfl
    rw [ofJson, ofMembers, json, Outcome.bind_eq_ok_iff] at h
    obtain ⟨_, -, h⟩ := h
    rw [hread, Outcome.ok_bind] at h
    rw [ofJson, ofMembers, json, henter, Outcome.ok_bind, hread, Outcome.ok_bind]
    by_cases hname : name = embeddedName
    · rw [if_pos hname] at h ⊢
      split at h
      · obtain ⟨t, ht, h⟩ := Outcome.bind_eq_ok_iff.mp h
        obtain ⟨found, hfound, h⟩ := Outcome.bind_eq_ok_iff.mp h
        obtain ⟨u, hclose, h⟩ := Outcome.bind_eq_ok_iff.mp h
        rw [ht, Outcome.ok_bind, hfound, Outcome.ok_bind, closeEmbedded_origin hclose]
        exact h
      · cases h
    · rw [if_neg hname] at h ⊢
      obtain ⟨first, hfirst, h⟩ := Outcome.bind_eq_ok_iff.mp h
      obtain ⟨others, hothers, h⟩ := Outcome.bind_eq_ok_iff.mp h
      rw [json_origin v hfirst (hinner.mono (Nat.le_max_left _ _)), Outcome.ok_bind,
        jsonMembers_origin rest hothers (hinner.mono (Nat.le_max_right _ _))]
      exact h

theorem jsonItems_origin : ∀ (items : List Json) {origin : Origin} {found : List Json},
    jsonItems embedded origin none (ofItems items) = .ok found →
    ∀ {origin' : Origin}, origin'.Admits (Form.depthItems (Form.ofItems items)) →
    jsonItems embedded origin' none (ofItems items) = .ok found
  | [], _, _, h, _, _ => h
  | item :: rest, origin, found, h, origin', ho => by
    rw [Form.ofItems, Form.depthItems] at ho
    rw [ofItems, jsonItems, Outcome.bind_eq_ok_iff] at h
    obtain ⟨first, hfirst, h⟩ := h
    obtain ⟨others, hothers, h⟩ := Outcome.bind_eq_ok_iff.mp h
    rw [ofItems, jsonItems, json_origin item hfirst (ho.mono (Nat.le_max_left _ _)),
      Outcome.ok_bind, jsonItems_origin rest hothers (ho.mono (Nat.le_max_right _ _))]
    exact h

theorem jsonMembers_origin : ∀ (members : List (String × Json)) {origin : Origin}
    {found : List (String × Json)},
    jsonMembers embedded origin none (ofMembers members) = .ok found →
    ∀ {origin' : Origin}, origin'.Admits (Form.depthMembers (Form.ofMembers members)) →
    jsonMembers embedded origin' none (ofMembers members) = .ok found
  | [], _, _, h, _, _ => h
  | (name, v) :: rest, origin, found, h, origin', ho => by
    have hread : (Token.sound name).read = .ok name := rfl
    rw [Form.ofMembers, Form.depthMembers] at ho
    rw [ofMembers, jsonMembers, hread, Outcome.ok_bind, Outcome.bind_eq_ok_iff] at h
    obtain ⟨first, hfirst, h⟩ := h
    obtain ⟨others, hothers, h⟩ := Outcome.bind_eq_ok_iff.mp h
    rw [ofMembers, jsonMembers, hread, Outcome.ok_bind,
      json_origin v hfirst (ho.mono (Nat.le_max_left _ _)), Outcome.ok_bind,
      jsonMembers_origin rest hothers (ho.mono (Nat.le_max_right _ _))]
    exact h

end

end Doc

namespace Json

/-- The value comes back from its own text. -/
def Recovered (v : Json) : Prop := parse v.text = .ok v

theorem Recovered.canonical {v : Json} (h : v.Recovered) : v.Canonical := canonical_parse h

/-- A value that comes back from its own text comes back wherever there is room for it. -/
theorem Recovered.ofDoc {v : Json} (h : v.Recovered) {origin : Origin}
    (ho : origin.Admits (Form.ofJson v).depth) :
    Json.ofDoc origin (Doc.ofForm (Form.ofJson v)) = .ok v := by
  have hread := (Decoder.runDocument_eq_ok_iff.mp h).1
  rw [Json.text, Document.ofString_text (Form.writable_ofJson v)] at hread
  have htext : Json.ofDoc (.text Origin.maxDepth) (Doc.ofForm (Form.ofJson v)) = .ok v := hread
  rw [Doc.ofForm_ofJson] at htext ⊢
  exact Doc.json_origin v htext ho

end Json

end ContextProtocol
