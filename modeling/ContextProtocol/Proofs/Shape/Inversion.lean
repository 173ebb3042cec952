import ContextProtocol.Proofs.Json.Recovered
import ContextProtocol.Shape.Record

/-!
# Where the values of a record come from

A record that was read says something about the document it was read from: each of its values was
decoded from a member with the name of its field, or from an item of an array, unless it stands in
for an absent one. The invariant of the reader is that this holds of the slots that are filled.

Results:
* `Record.decode_object_eq_ok_iff`, `Record.decode_array_eq_ok_iff`: how a record is read.
* `SlotsFrom.storeAll`: reading members keeps the invariant, whatever else the object holds.
* `From.readItems`: the same for the items of an array.
* `Record.from_of_decode`: every value of a record that was read comes from the document.
* `Decoder.dict_eq_ok_iff`, `Decoder.holds_of_dict`: the same two for dictionaries.
* `Decoder.forall₂_of_list`: the items of a list, one by one.
* `Json.holds_sourced`: in the document of a value stand the documents of the values inside.
-/
namespace ContextProtocol

/-- The document holds another one under a name. The items of an array stand under any name. -/
def Doc.Holds (doc : Doc) (name : String) (d : Sourced Doc) : Prop :=
  match doc with
  | .object members _ => ∃ token, (token, d) ∈ members ∧ token.read = .ok name
  | .array items _ => d ∈ items
  | _ => False

namespace Field

variable {α : Type}

/-- The value was decoded from a document under the name of the field. -/
def ReadFrom (origin : Origin) (source : String → Sourced Doc → Prop) (field : Field α)
    (value : α) : Prop :=
  ∃ d, source field.name d ∧ (field.codec.decode origin d).result = .ok value

theorem absent_of_absentItem {field : Field α} {value : α} (h : field.absentItem? = some value) :
    field.absent? = some value := by
  unfold absentItem? at h
  unfold absent?
  split at h
  · rename_i heq
    rw [heq]
    exact h
  · cases h

end Field

/-! ## The stages of a record -/

namespace Fields

variable {columns : List Type} {origin : Origin} {stop : Option Fault}

/-- The next value was read or is a stand-in, and the others come after it. -/
theorem finish_cons_eq_ok_iff {α : Type} {field : Field α} {rest : Fields columns} {slot : Option α}
    {slots : Slots columns} {value : α} {row : Row columns} :
    finish (.cons field rest) (slot, slots) = .ok (value, row) ↔
      slot.or field.absent? = some value ∧ rest.finish slots = .ok row := by
  have hrow : ∀ v : α, (rest.finish slots >>= fun row => Except.ok ((v, row) : Row (α :: columns))) =
      .ok (value, row) ↔ v = value ∧ rest.finish slots = .ok row := by
    intro v
    rw [Outcome.bind_eq_ok_iff]
    constructor
    · rintro ⟨row', hrow, h⟩
      cases h
      exact ⟨rfl, hrow⟩
    · rintro ⟨rfl, hrow⟩
      exact ⟨row, hrow, rfl⟩
  cases slot with
  | some v => exact (hrow v).trans (and_congr Option.some_inj.symm Iff.rfl)
  | none =>
    simp only [finish]
    cases field.absent? with
    | some v => exact (hrow v).trans (and_congr Option.some_inj.symm Iff.rfl)
    | none =>
      constructor
      · intro h
        cases h
      · rintro ⟨h, -⟩
        cases h

/-- One item is read as the next field, and the others behind it. -/
theorem readItems_cons_eq_ok_iff {α : Type} {field : Field α} {rest : Fields columns}
    {tooShort : Nat → ShapeError} {position : Nat} {item : Sourced Doc} {items : List (Sourced Doc)}
    {value : α} {row : Row columns} {left : List (Sourced Doc)} :
    (readItems origin stop tooShort position (.cons field rest) (item :: items)).result =
        .ok ((value, row), left) ↔
      (field.codec.decode origin item).result = .ok value ∧
        (rest.readItems origin stop tooShort (position + 1) items).result = .ok (row, left) := by
  rw [readItems, Traced.bind_eq_ok_iff]
  constructor
  · rintro ⟨v, hv, h⟩
    obtain ⟨⟨row', left'⟩, hrow, h⟩ := Traced.bind_eq_ok_iff.mp h
    cases h
    exact ⟨hv, hrow⟩
  · rintro ⟨hv, hrow⟩
    exact ⟨value, hv, Traced.bind_eq_ok_iff.mpr ⟨_, hrow, rfl⟩⟩

end Fields

namespace Record

variable {R : Type} {r : Record R} {origin : Origin} {stop : Option Fault}
  {text : Thunk (Option String)} {v : R}

/-- A record is read from an object, member by member. -/
theorem decode_object_eq_ok_iff {members : List (Token String × Sourced Doc)} :
    (r.decode origin ⟨.object members stop, text⟩).result = .ok v ↔
      ∃ inner slots row, origin.enter = .ok inner ∧
        (r.fields.storeAll r.exact inner stop members r.fields.noSlots).result = .ok slots ∧
        r.fields.finish slots = .ok row ∧ r.ofRow row = v := by
  rw [decode]
  simp only [Traced.bind_eq_ok_iff, Traced.result_liftM, Traced.result_pure, Except.ok.injEq]
  constructor
  · rintro ⟨inner, henter, slots, hslots, row, hrow, hv⟩
    exact ⟨inner, slots, row, henter, hslots, hrow, hv⟩
  · rintro ⟨inner, slots, row, henter, hslots, hrow, hv⟩
    exact ⟨inner, henter, slots, hslots, row, hrow, hv⟩

/-- A record is read from an array, item by item. -/
theorem decode_array_eq_ok_iff {items : List (Sourced Doc)} :
    (r.decode origin ⟨.array items stop, text⟩).result = .ok v ↔
      ∃ inner row left, origin.enter = .ok inner ∧
        (r.fields.readItems inner stop r.tooShort 0 items).result = .ok (row, left) ∧
        closeItems origin items.length left stop = .ok () ∧ r.ofRow row = v := by
  rw [decode]
  simp only [Traced.bind_eq_ok_iff, Traced.result_liftM, Traced.result_pure, Except.ok.injEq]
  constructor
  · rintro ⟨inner, henter, ⟨row, left⟩, hrow, u, hclose, hv⟩
    exact ⟨inner, row, left, henter, hrow, hclose, hv⟩
  · rintro ⟨inner, row, left, henter, hrow, hclose, hv⟩
    exact ⟨inner, henter, ⟨row, left⟩, hrow, (), hclose, hv⟩

end Record

/-! ## Records -/

namespace Fields

variable {columns : List Type} {fields : Fields columns} {origin : Origin}
  {source : String → Sourced Doc → Prop}

/-- Every value was decoded from a document under the name of its field, or is a stand-in. -/
def From (origin : Origin) (source : String → Sourced Doc → Prop) :
    {columns : List Type} → Fields columns → Row columns → Prop
  | _, .nil, _ => True
  | _, .cons field rest, (value, row) =>
    (field.ReadFrom origin source value ∨ field.absent? = some value) ∧ From origin source rest row

/-- Every slot that is filled was decoded from a document under the name of its field. -/
def SlotsFrom (origin : Origin) (source : String → Sourced Doc → Prop) :
    {columns : List Type} → Fields columns → Slots columns → Prop
  | _, .nil, _ => True
  | _, .cons field rest, (slot, slots) =>
    (∀ value, slot = some value → field.ReadFrom origin source value) ∧
      SlotsFrom origin source rest slots

theorem SlotsFrom.noSlots (fields : Fields columns) :
    fields.SlotsFrom origin source fields.noSlots := by
  induction fields with
  | nil => trivial
  | cons field rest ih => exact ⟨nofun, ih⟩

/-- One member goes into the slot of its field. -/
theorem SlotsFrom.store {slots slots' : Slots columns} (h : fields.SlotsFrom origin source slots)
    {name : String} {doc : Sourced Doc} (hdoc : source name doc)
    {step : Traced ShapeError (Slots columns)}
    (hstep : fields.store origin name doc slots = some step) (hok : step.result = .ok slots') :
    fields.SlotsFrom origin source slots' := by
  induction fields with
  | nil => cases hstep
  | cons field rest ih =>
    obtain ⟨slot, slots⟩ := slots
    obtain ⟨hslot, hslots⟩ := h
    rw [Fields.store] at hstep
    split at hstep
    · rename_i hname
      obtain rfl := Option.some.inj hstep
      split at hok
      · cases hok
      · obtain ⟨value, hvalue, rfl⟩ := Traced.map_eq_ok_iff.mp hok
        refine ⟨?_, hslots⟩
        intro found hfound
        cases hfound
        exact ⟨doc, hname ▸ hdoc, hvalue⟩
    · obtain ⟨read, hread, rfl⟩ := Option.map_eq_some_iff.mp hstep
      obtain ⟨slots'', hslots'', rfl⟩ := Traced.map_eq_ok_iff.mp hok
      exact ⟨hslot, ih hslots hread hslots''⟩

/-- All members go into the slots of their fields or are passed over. -/
theorem SlotsFrom.storeAll {exact : Bool} {stop : Option Fault}
    {members : List (Token String × Sourced Doc)}
    (hmembers : ∀ m ∈ members, ∀ name, m.1.read = .ok name → source name m.2) :
    ∀ {slots slots' : Slots columns}, fields.SlotsFrom origin source slots →
      (fields.storeAll exact origin stop members slots).result = .ok slots' →
        fields.SlotsFrom origin source slots' := by
  induction members with
  | nil =>
    intro slots slots' h hok
    rw [Fields.storeAll, Traced.bind_eq_ok_iff] at hok
    obtain ⟨u, -, hok⟩ := hok
    cases hok
    exact h
  | cons m rest ih =>
    intro slots slots' h hok
    obtain ⟨token, value⟩ := m
    have hrest := @ih fun m hm => hmembers m (List.mem_cons_of_mem _ hm)
    rw [Fields.storeAll, Traced.bind_eq_ok_iff] at hok
    obtain ⟨name, hname, hok⟩ := hok
    split at hok
    · rename_i read hread
      rw [Traced.bind_eq_ok_iff] at hok
      obtain ⟨slots'', hslots'', hok⟩ := hok
      exact hrest (h.store (hmembers _ List.mem_cons_self name hname) hread hslots'') hok
    · split at hok
      · cases hok
      · rw [Traced.bind_eq_ok_iff] at hok
        obtain ⟨u, -, hok⟩ := hok
        exact hrest h hok

theorem From.finish {slots : Slots columns} {row : Row columns}
    (h : fields.SlotsFrom origin source slots) (hok : fields.finish slots = .ok row) :
    fields.From origin source row := by
  induction fields with
  | nil => trivial
  | cons field rest ih =>
    obtain ⟨slot, slots⟩ := slots
    obtain ⟨value, row⟩ := row
    obtain ⟨hslot, hslots⟩ := h
    obtain ⟨hvalue, hrow⟩ := finish_cons_eq_ok_iff.mp hok
    refine ⟨?_, ih hslots hrow⟩
    cases slot with
    | some found => exact .inl (hslot value hvalue)
    | none => exact .inr hvalue

/-- The items of an array are the fields in their order. -/
theorem From.readItems {stop : Option Fault} {tooShort : Nat → ShapeError} :
    ∀ {items : List (Sourced Doc)} {position : Nat} {row : Row columns}
      {left : List (Sourced Doc)}, (∀ d ∈ items, ∀ name, source name d) →
      (fields.readItems origin stop tooShort position items).result = .ok (row, left) →
        fields.From origin source row := by
  induction fields with
  | nil => exact fun _ _ => trivial
  | cons field rest ih =>
    intro items position row left hitems hok
    cases items with
    | nil =>
      rw [Fields.readItems, Traced.bind_eq_ok_iff] at hok
      obtain ⟨u, -, hok⟩ := hok
      split at hok
      · cases hok
      · rename_i value habsent
        rw [Traced.bind_eq_ok_iff] at hok
        obtain ⟨⟨row', left'⟩, hrow', hok⟩ := hok
        cases hok
        exact ⟨.inr (Field.absent_of_absentItem habsent), ih hitems hrow'⟩
    | cons item items =>
      obtain ⟨value, row⟩ := row
      obtain ⟨hvalue, hrow⟩ := readItems_cons_eq_ok_iff.mp hok
      have hitem := hitems item List.mem_cons_self field.name
      exact ⟨.inl ⟨item, hitem, hvalue⟩,
        ih (fun d hd => hitems d (List.mem_cons_of_mem _ hd)) hrow⟩

end Fields

/-- Every value of a record that was read comes from the document. -/
theorem Record.from_of_decode {R : Type} {r : Record R} {origin : Origin} {doc : Sourced Doc}
    {v : R} (h : (r.codec.decode origin doc).result = .ok v) :
    ∃ inner row, origin.enter = .ok inner ∧ r.ofRow row = v ∧
      r.fields.From inner doc.value.Holds row := by
  obtain ⟨d, text⟩ := doc
  have h' : (r.decode origin ⟨d, text⟩).result = .ok v := h
  cases d with
  | object members stop =>
    obtain ⟨inner, slots, row, henter, hslots, hrow, hv⟩ := decode_object_eq_ok_iff.mp h'
    refine ⟨inner, row, henter, hv, Fields.From.finish ?_ hrow⟩
    exact Fields.SlotsFrom.storeAll (fun m hm name hname => ⟨m.1, hm, hname⟩) (.noSlots _) hslots
  | array items stop =>
    obtain ⟨inner, row, left, henter, hrow, -, hv⟩ := decode_array_eq_ok_iff.mp h'
    exact ⟨inner, row, henter, hv, Fields.From.readItems (fun d hd _ => hd) hrow⟩
  | _ => cases h'

/-! ## Dictionaries -/

namespace Decoder

variable {α : Type} {dec : Decoder α} {origin : Origin} {stop : Option Fault}

/-- One member is read, and the others behind it. -/
theorem members_cons_eq_ok_iff {token : Token String} {d : Sourced Doc}
    {rest : List (Token String × Sourced Doc)} {found : List (String × α)} :
    (members dec origin stop ((token, d) :: rest)).result = .ok found ↔
      ∃ name value more, token.read = .ok name ∧ (dec origin d).result = .ok value ∧
        (members dec origin stop rest).result = .ok more ∧ (name, value) :: more = found := by
  simp only [members, Traced.bind_eq_ok_iff, Traced.result_liftM, Traced.result_pure,
    Except.ok.injEq]
  constructor
  · rintro ⟨name, hname, value, hvalue, more, hmore, hfound⟩
    exact ⟨name, value, more, hname, hvalue, hmore, hfound⟩
  · rintro ⟨name, value, more, hname, hvalue, hmore, hfound⟩
    exact ⟨name, hname, value, hvalue, more, hmore, hfound⟩

/-- Members are read one part after the other. -/
theorem members_append_eq_ok_iff {front back : List (Token String × Sourced Doc)} :
    ∀ {found : List (String × α)},
      (members dec origin stop (front ++ back)).result = .ok found ↔
        ∃ first later, (members dec origin none front).result = .ok first ∧
          (members dec origin stop back).result = .ok later ∧ first ++ later = found := by
  induction front with
  | nil =>
    intro found
    constructor
    · exact fun h => ⟨[], found, rfl, h, rfl⟩
    · rintro ⟨first, later, hfirst, hlater, rfl⟩
      cases hfirst
      exact hlater
  | cons m front ih =>
    intro found
    obtain ⟨token, d⟩ := m
    rw [List.cons_append, members_cons_eq_ok_iff]
    simp only [members_cons_eq_ok_iff, ih]
    constructor
    · rintro ⟨name, value, _, hname, hvalue, ⟨first, later, hfirst, hlater, rfl⟩, rfl⟩
      exact ⟨_, later, ⟨name, value, first, hname, hvalue, hfirst, rfl⟩, hlater, rfl⟩
    · rintro ⟨_, later, ⟨name, value, first, hname, hvalue, hfirst, rfl⟩, hlater, rfl⟩
      exact ⟨name, value, _, hname, hvalue, ⟨first, later, hfirst, hlater, rfl⟩, rfl⟩

/-- Every entry was decoded from a member with its name. -/
theorem mem_of_members {members : List (Token String × Sourced Doc)} :
    ∀ {found : List (String × α)}, (Decoder.members dec origin stop members).result = .ok found →
      ∀ e ∈ found, ∃ m ∈ members, m.1.read = .ok e.1 ∧ (dec origin m.2).result = .ok e.2 := by
  induction members with
  | nil =>
    intro found h
    rw [Decoder.members, Traced.bind_eq_ok_iff] at h
    obtain ⟨u, -, h⟩ := h
    cases h
    exact List.forall_mem_nil _
  | cons m rest ih =>
    intro found h
    obtain ⟨token, d⟩ := m
    obtain ⟨name, value, more, hname, hvalue, hmore, rfl⟩ := members_cons_eq_ok_iff.mp h
    refine List.forall_mem_cons.mpr ⟨⟨_, List.mem_cons_self, hname, hvalue⟩, fun e he => ?_⟩
    obtain ⟨m, hm, hread⟩ := ih hmore e he
    exact ⟨m, List.mem_cons_of_mem _ hm, hread⟩

/-- A dictionary is read from an object, member by member. -/
theorem dict_eq_ok_iff {members : List (Token String × Sourced Doc)}
    {text : Thunk (Option String)} {found : Dict α} :
    (dict dec origin ⟨.object members stop, text⟩).result = .ok found ↔
      ∃ inner l, origin.enter = .ok inner ∧
        (Decoder.members dec inner stop members).result = .ok l ∧ Table.ofList l = found := by
  refine Traced.map_eq_ok_iff.trans ?_
  constructor
  · rintro ⟨l, hl, hfound⟩
    obtain ⟨inner, henter, hmembers⟩ := Traced.bind_eq_ok_iff.mp hl
    exact ⟨inner, l, henter, hmembers, hfound⟩
  · rintro ⟨inner, l, henter, hmembers, hfound⟩
    exact ⟨l, Traced.bind_eq_ok_iff.mpr ⟨inner, henter, hmembers⟩, hfound⟩

/-- Every entry of an object was decoded from a member with its name. -/
theorem holds_of_entries {d : Sourced Doc} {found : List (String × α)}
    (h : (entries dec origin d).result = .ok found) {e : String × α} (he : e ∈ found) :
    ∃ inner d', d.value.Holds e.1 d' ∧ (dec inner d').result = .ok e.2 := by
  obtain ⟨doc, text⟩ := d
  cases doc with
  | object members stop =>
    obtain ⟨inner, -, hmembers⟩ := Traced.bind_eq_ok_iff.mp h
    obtain ⟨m, hm, hname, hvalue⟩ := mem_of_members hmembers e he
    exact ⟨inner, m.2, ⟨m.1, hm, hname⟩, hvalue⟩
  | _ => cases h

/-- Every value of a dictionary was decoded from a member with its name. -/
theorem holds_of_dict {d : Sourced Doc} {found : Dict α}
    (h : (dict dec origin d).result = .ok found) {e : String × α} (he : e ∈ found.entries) :
    ∃ inner d', d.value.Holds e.1 d' ∧ (dec inner d').result = .ok e.2 := by
  obtain ⟨l, hl, rfl⟩ := Traced.map_eq_ok_iff.mp h
  exact holds_of_entries hl (Entries.mem_ofList he)

/-! ## Lists -/

/-- The items were decoded one by one. -/
theorem forall₂_of_items {docs : List (Sourced Doc)} :
    ∀ {found : List α}, (items dec origin stop docs).result = .ok found →
      List.Forall₂ (fun d a => (dec origin d).result = .ok a) docs found := by
  induction docs with
  | nil =>
    intro found h
    rw [items, Traced.bind_eq_ok_iff] at h
    obtain ⟨u, -, h⟩ := h
    cases h
    exact .nil
  | cons d rest ih =>
    intro found h
    rw [items, Traced.bind_eq_ok_iff] at h
    obtain ⟨a, ha, h⟩ := h
    obtain ⟨more, hmore, h⟩ := Traced.bind_eq_ok_iff.mp h
    cases h
    exact .cons ha (ih hmore)

/-- A list was decoded from the items of an array. -/
theorem forall₂_of_list {d : Sourced Doc} {docs : List (Sourced Doc)} {found : List α}
    (hd : d.value = .array docs stop) (h : (list dec origin d).result = .ok found) :
    ∃ inner, List.Forall₂ (fun d a => (dec inner d).result = .ok a) docs found := by
  obtain ⟨doc, text⟩ := d
  cases hd
  obtain ⟨inner, -, hitems⟩ := Traced.bind_eq_ok_iff.mp h
  exact ⟨inner, forall₂_of_items hitems⟩

/-! ## Values that may be unset -/

theorem result_of_option {d : Sourced Doc} {a : α}
    (h : (option dec origin d).result = .ok (some a)) : (dec origin d).result = .ok a := by
  unfold option at h
  split at h
  · cases h
  · cases h
  · obtain ⟨b, hb, heq⟩ := Traced.map_eq_ok_iff.mp h
    cases heq
    exact hb

end Decoder

/-- What a written object holds under a name is a member of that name. -/
theorem Doc.holds_ofForm {members : List (String × Form)} {name : String} {d : Sourced Doc} :
    (Doc.ofForm (.object members)).Holds name d ↔
      ∃ f, (name, f) ∈ members ∧ d = Sourced.ofForm f := by
  rw [Doc.ofForm, Doc.ofFormMembers_eq]
  constructor
  · rintro ⟨token, hmem, hread⟩
    obtain ⟨m, hm, heq⟩ := List.mem_map.mp hmem
    cases heq
    cases hread
    exact ⟨m.2, hm, rfl⟩
  · rintro ⟨f, hf, rfl⟩
    exact ⟨.sound name, List.mem_map_of_mem
      (f := fun m : String × Form => (Token.sound m.1, Sourced.ofForm m.2)) hf, rfl⟩

namespace Json

/-- What stands in the document of a value is the document of a value inside. -/
theorem holds_sourced {v : Json} {name : String} {d : Sourced Doc}
    (h : (Doc.sourced v).value.Holds name d) : ∃ w, d = Doc.sourced w ∧
      (Form.ofJson w).depth + 1 ≤ (Form.ofJson v).depth ∧ (v.Recovered → w.Recovered) := by
  cases v with
  | object members =>
    rw [Doc.sourced_eq, Sourced.ofForm, Form.ofJson, Form.ofMembers_eq] at h
    obtain ⟨f, hf, rfl⟩ := Doc.holds_ofForm.mp h
    obtain ⟨m, hm, heq⟩ := List.mem_map.mp hf
    cases heq
    refine ⟨m.2, (Doc.sourced_eq m.2).symm, Nat.succ_le_succ ?_, fun hv => hv.member hm⟩
    refine Form.depthMembers_le_iff.mp (Nat.le_refl _) (m.1, Form.ofJson m.2) ?_
    rw [Form.ofMembers_eq]
    exact hf
  | array items =>
    rw [Doc.sourced_eq, Sourced.ofForm, Form.ofJson, Doc.ofForm, Doc.ofFormItems_eq] at h
    obtain ⟨f, hf, rfl⟩ := List.mem_map.mp h
    have hf' := hf
    rw [Form.ofItems_eq] at hf'
    obtain ⟨w, hw, rfl⟩ := List.mem_map.mp hf'
    exact ⟨w, (Doc.sourced_eq w).symm,
      Nat.succ_le_succ (Form.depthItems_le_iff.mp (Nat.le_refl _) _ hf), fun hv => hv.item hw⟩
  | _ => cases h

end Json

end ContextProtocol
