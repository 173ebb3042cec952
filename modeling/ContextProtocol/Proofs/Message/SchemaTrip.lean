import ContextProtocol.Proofs.Json.Recovered
import ContextProtocol.Proofs.Message.Schema
import ContextProtocol.Proofs.Shape.RecordTrip

/-!
# Schemas that arrive

A schema is written node by node, each node as an object inside the object of the node above it. A
bound that is infinite or NaN is written as `null`, and a keyword that is `null` is read as one that
is not set. Every other keyword of every node arrives as it is.

Results:
* `Schema.arriving`: the schema that arrives, and `Schema.arriving_eq_self_iff`, when it is the one
  that was sent.
* `Schema.wellShaped_arriving`: nothing is wrong with what arrives when nothing was before.
* `Schema.regular_withProperty`, `Schema.regular_withRequired`: a schema stays regular.
* `Schema.depth_le_depth_encode`: the text of a schema nests at least as deep as its tree.
* `Schema.codec_arrives`: what is written for a schema is read as the schema that arrives.
-/
namespace ContextProtocol

/-! ## What arrives -/

namespace SchemaNode

variable {α β : Type}

/-- The node as it arrives: a bound that is not finite is not set. -/
def arriving (f : α → β) (s : SchemaNode α) : SchemaNode β where
  type := s.type
  properties := Entries.mapValues f s.properties
  required := s.required
  items := s.items.map f
  enum := s.enum
  minLength := s.minLength
  maxLength := s.maxLength
  pattern := s.pattern
  minimum := s.minimum.filter Float.isFinite
  maximum := s.maximum.filter Float.isFinite

/-- The bounds that are set are finite. -/
structure Finite (s : SchemaNode α) : Prop where
  minimum : ∀ x, s.minimum = some x → x.isFinite = true
  maximum : ∀ x, s.maximum = some x → x.isFinite = true

/-- The properties are in the order of their names, as they are kept in memory, and the values that
the node lists come back from their text. -/
structure Regular (s : SchemaNode α) : Prop where
  ordered : Entries.Sorted s.properties
  recovered : ∀ v ∈ s.enum, v.Recovered

/-- How a node is kept in memory: its properties, and the members of the objects in the values that
it lists, are in the order of their names. -/
structure Stored (s : SchemaNode α) : Prop where
  ordered : Entries.Sorted s.properties
  canonical : ∀ v ∈ s.enum, v.Canonical

/-- No object in the values that the node lists begins with the reserved name. -/
def Bare (s : SchemaNode α) : Prop := ∀ v ∈ s.enum, (Form.ofJson v).Bare

/-- Everything in the node stands for itself. Unlike what is asked of a regular node, this holds at
any depth. -/
structure Faithful (s : SchemaNode α) : Prop extends Stored s where
  bare : s.Bare

theorem Regular.faithful {s : SchemaNode α} (h : s.Regular) : s.Faithful where
  ordered := h.ordered
  canonical v hv := (h.recovered v hv).canonical
  bare v hv := (h.recovered v hv).bare

theorem filter_eq_self_iff {bound : Option Float} :
    bound.filter Float.isFinite = bound ↔ ∀ x, bound = some x → x.isFinite = true := by
  cases bound <;> simp [Option.filter]

theorem WellShaped.arriving {s : SchemaNode α} (h : s.WellShaped) (f : α → β) :
    (s.arriving f).WellShaped where
  texts := h.texts
  numbers := h.numbers.imp_right fun ⟨hmin, hmax⟩ =>
    ⟨congrArg (Option.filter Float.isFinite) hmin, congrArg (Option.filter Float.isFinite) hmax⟩
  arrays := h.arrays.imp_right Option.map_eq_none_iff.mpr
  objects := h.objects.imp_right fun ⟨hproperties, hrequired⟩ =>
    ⟨congrArg (Entries.mapValues f) hproperties, hrequired⟩
  lengths := h.lengths
  range min max hmin hmax :=
    h.range min max (Option.filter_eq_some_iff.mp hmin).1 (Option.filter_eq_some_iff.mp hmax).1
  required htype name hname := by
    have hkeys : (s.arriving f).properties.map (·.1) = s.properties.map (·.1) := List.map_map ..
    exact hkeys ▸ h.required htype name hname
  enum := h.enum

end SchemaNode

namespace Schema

variable {s : Schema}

mutual

/-- The schema as it arrives: bounds that are not finite are not set. -/
def arriving : Schema → Schema
  | .node type properties required items enum minLength maxLength pattern minimum maximum =>
    .node type (arrivingProperties properties) required (arrivingItems items) enum minLength
      maxLength pattern (minimum.filter Float.isFinite) (maximum.filter Float.isFinite)

def arrivingProperties : List (String × Schema) → List (String × Schema)
  | [] => []
  | (name, s) :: rest => (name, arriving s) :: arrivingProperties rest

def arrivingItems : Option Schema → Option Schema
  | none => none
  | some s => some (arriving s)

end

theorem arrivingProperties_eq (properties : List (String × Schema)) :
    arrivingProperties properties = Entries.mapValues arriving properties := by
  induction properties with
  | nil => rfl
  | cons e rest ih =>
    obtain ⟨name, s⟩ := e
    rw [arrivingProperties, ih]
    rfl

theorem arrivingItems_eq (items : Option Schema) : arrivingItems items = items.map arriving := by
  cases items <;> rfl

theorem arriving_ofRoot (s : SchemaNode Schema) :
    (ofRoot s).arriving = ofRoot (s.arriving arriving) := by
  rw [ofRoot, arriving, arrivingProperties_eq, arrivingItems_eq]
  rfl

theorem root_arriving (s : Schema) : s.arriving.root = s.root.arriving arriving := by
  rw [← ofRoot_root s, arriving_ofRoot]
  rfl

theorem ext_iff {s s' : Schema} : s = s' ↔ s.root = s'.root :=
  ⟨congrArg root, fun h => by rw [← ofRoot_root s, h, ofRoot_root]⟩

/-- A schema arrives as itself when its bounds are finite, at every node. -/
theorem arriving_eq_self_iff : s.arriving = s ↔ s.Everywhere SchemaNode.Finite := by
  induction s using induction with
  | node s hproperties hitems =>
    have hitem : s.items.map arriving = s.items ↔
        ∀ item, s.items = some item → item.arriving = item := by
      cases s.items <;> simp
    have hroot : s.arriving arriving = s ↔ Entries.mapValues arriving s.properties = s.properties ∧
        s.items.map arriving = s.items ∧ s.minimum.filter Float.isFinite = s.minimum ∧
          s.maximum.filter Float.isFinite = s.maximum := by
      cases s
      simp [SchemaNode.arriving]
    rw [ext_iff, root_arriving, root_ofRoot, everywhere_iff, root_ofRoot, hroot,
      Entries.mapValues_eq_self_iff, hitem, SchemaNode.filter_eq_self_iff,
      SchemaNode.filter_eq_self_iff]
    constructor
    · rintro ⟨hp, hi, hmin, hmax⟩
      exact ⟨⟨hmin, hmax⟩, fun e he => (hproperties e he).mp (hp e he),
        fun item h => (hitems item h).mp (hi item h)⟩
    · rintro ⟨⟨hmin, hmax⟩, hp, hi⟩
      exact ⟨fun e he => (hproperties e he).mpr (hp e he),
        fun item h => (hitems item h).mpr (hi item h), hmin, hmax⟩

/-- Bounds that are lost leave nothing wrong behind. -/
theorem wellShaped_arriving (h : s.Everywhere SchemaNode.WellShaped) :
    s.arriving.Everywhere SchemaNode.WellShaped := by
  induction h with
  | @intro s root _ _ hproperties hitems =>
    refine .intro ?_ ?_ ?_
    · rw [root_arriving]
      exact root.arriving arriving
    · rw [root_arriving]
      intro e he
      obtain ⟨d, hd, rfl⟩ := List.mem_map.mp he
      exact hproperties d hd
    · rw [root_arriving]
      intro item hitem
      obtain ⟨i, hi, rfl⟩ := Option.map_eq_some_iff.mp hitem
      exact hitems i hi

/-! ## Regular schemas -/

/-- Nothing is asked of a node without properties and enumeration. -/
theorem regular_plain (hproperties : s.root.properties = [])
    (henum : s.root.enum = [])
    (hitems : ∀ item, s.root.items = some item → item.Everywhere SchemaNode.Regular) :
    s.Everywhere SchemaNode.Regular := by
  refine .intro ⟨?_, ?_⟩ ?_ hitems
  · rw [hproperties]
    exact List.Pairwise.nil
  · rw [henum]
    exact nofun
  · rw [hproperties]
    exact nofun

theorem regular_withProperty {property : Schema} (name : String)
    (hs : s.Everywhere SchemaNode.Regular) (hproperty : property.Everywhere SchemaNode.Regular) :
    (s.withProperty name property).Everywhere SchemaNode.Regular := by
  obtain ⟨hroot, hproperties, hitems⟩ := everywhere_iff.mp hs
  refine .intro ⟨Entries.sorted_insert hroot.ordered, hroot.recovered⟩ (fun e he => ?_) hitems
  rcases Entries.mem_insert he with rfl | he
  · exact hproperty
  · exact hproperties e he

theorem regular_withRequired (names : List String)
    (hs : s.Everywhere SchemaNode.Regular) :
    (s.withRequired names).Everywhere SchemaNode.Regular := by
  obtain ⟨hroot, hproperties, hitems⟩ := everywhere_iff.mp hs
  exact .intro ⟨hroot.ordered, hroot.recovered⟩ hproperties hitems

/-! ## One node -/

theorem record_names (c : Codec Schema) : (record c).fields.names = ["type", "properties",
    "required", "items", "enum", "minLength", "maxLength", "pattern", "minimum", "maximum"] := rfl

theorem nodup_record_names (c : Codec Schema) : (record c).fields.names.Nodup := by
  rw [record_names]
  decide

/-- What is written for a node depends on the codec of the nodes under it only there. -/
theorem encode_record_congr {c c' : Codec Schema}
    (hproperties : ∀ e ∈ s.root.properties, c.encode e.2 = c'.encode e.2)
    (hitems : ∀ item, s.root.items = some item → c.encode item = c'.encode item) :
    (record c).codec.encode s = (record c').codec.encode s := by
  obtain ⟨type, properties, required, items, enum, _, _, _, minimum, maximum⟩ := s
  have hp : c.entries.encode properties = c'.entries.encode properties :=
    congrArg Form.object (List.map_congr_left fun e he => by rw [hproperties e he])
  have hi : c.option.encode items = c'.option.encode items := by
    cases items with
    | none => rfl
    | some item => exact hitems item rfl
  show Form.object (Fields.encode _ _) = Form.object (Fields.encode _ _)
  simp only [record, Fields.encode, Field.optional, Field.listed, Field.required, hp, hi]

theorem mem_encode_properties {c : Codec Schema} (h : s.root.properties ≠ []) :
    ("properties", c.entries.encode s.root.properties) ∈
      (record c).fields.encode ((record c).toRow s) := by
  obtain ⟨type, properties, required, items, enum, _, _, _, minimum, maximum⟩ := s
  have hne : properties.isEmpty = false := List.isEmpty_eq_false_iff.mpr h
  simp [record, Fields.encode, Field.required, hne, root]

theorem mem_encode_items {c : Codec Schema} {item : Schema} (h : s.root.items = some item) :
    ("items", c.encode item) ∈ (record c).fields.encode ((record c).toRow s) := by
  obtain ⟨type, properties, required, items, enum, _, _, _, minimum, maximum⟩ := s
  obtain rfl : items = some item := h
  cases hp : properties.isEmpty <;> cases hr : required.isEmpty <;>
    simp [record, Fields.encode, Field.required, Field.optional, Field.listed, Codec.option, hp, hr]

theorem mem_encode_enum {c : Codec Schema} (h : s.root.enum ≠ []) :
    ("enum", Codec.json.list.encode s.root.enum) ∈
      (record c).fields.encode ((record c).toRow s) := by
  obtain ⟨type, properties, required, items, enum, _, _, _, minimum, maximum⟩ := s
  have hne : enum.isEmpty = false := List.isEmpty_eq_false_iff.mpr h
  cases hp : properties.isEmpty <;> cases hr : required.isEmpty <;> cases items <;>
    simp [record, Fields.encode, Field.required, Field.optional, Field.listed, hp, hr, hne, root]

/-- A node arrives when the nodes under it do. -/
theorem record_arrives {c : Codec Schema} (hs : s.root.Faithful)
    (hproperties : ∀ e ∈ s.root.properties, c.Arrives e.2 e.2.arriving)
    (hitems : ∀ item, s.root.items = some item → c.Arrives item item.arriving ∧ c.Present item) :
    (record c).codec.Arrives s s.arriving := by
  obtain ⟨type, properties, required, items, enum, _, _, _, minimum, maximum⟩ := s
  have hp : Field.Arrives ⟨"properties", .entries c, .defaulted [], List.isEmpty⟩ properties
      (arrivingProperties properties) := by
    rw [arrivingProperties_eq]
    cases properties with
    | nil => exact rfl
    | cons e rest => exact Codec.Arrives.entries hs.ordered hproperties
  have hi : (Field.optional "items" c).Arrives items (arrivingItems items) := by
    rw [arrivingItems_eq]
    exact Field.arrives_optional hitems
  have hlength : ∀ name n, (Field.optional name .uint64).Holds n := fun name n =>
    Field.holds_optional fun n _ => ⟨.uint64 n, Codec.present_uint64 n⟩
  refine Record.arrives (nodup_record_names c) ⟨?_, hp, ?_, hi, ?_, ?_, ?_, ?_, ?_, ?_, trivial⟩
  · refine Field.Holds.arrives (Field.holds_required ?_)
    cases type <;> exact .word rfl rfl
  · exact (Field.holds_listed fun name _ => .string name).arrives
  · exact (Field.holds_listed fun v hv => .jsonBare (hs.canonical v hv) (hs.bare v hv)).arrives
  · exact (hlength _ _).arrives
  · exact (hlength _ _).arrives
  · exact (Field.holds_optionalText _).arrives
  · exact Field.arrives_optionalFloat _
  · exact Field.arrives_optionalFloat _

/-! ## Whole trees -/

theorem present_codecWithin {n : Nat} (h : s.depth ≤ n) : (codecWithin n).Present s := by
  cases n with
  | zero => exact absurd (depth_pos s) (Nat.not_lt.mpr h)
  | succ n => exact Codec.present_of_object rfl

/-- Levels beyond the depth of a schema do not show in its text. -/
theorem encode_codecWithin {m n : Nat} (hm : s.depth ≤ m) (hn : s.depth ≤ n) :
    (codecWithin m).encode s = (codecWithin n).encode s := by
  induction m generalizing s n with
  | zero => exact absurd (depth_pos s) (Nat.not_lt.mpr hm)
  | succ m ih =>
    cases n with
    | zero => exact absurd (depth_pos s) (Nat.not_lt.mpr hn)
    | succ n =>
      rw [depth_le_succ_iff] at hm hn
      exact encode_record_congr (fun e he => ih (hm.1 e he) (hn.1 e he))
        fun item hitem => ih (hm.2 item hitem) (hn.2 item hitem)

/-- A schema is written as a node over the schemas under it. -/
theorem encode_codec (s : Schema) : codec.encode s = (record codec).codec.encode s := by
  obtain ⟨n, hn⟩ := Nat.exists_eq_succ_of_ne_zero (Nat.ne_of_gt s.depth_pos)
  have hlevels := depth_le_succ_iff.mp (Nat.le_of_eq hn)
  have hencode : codec.encode s = (record (codecWithin n)).codec.encode s := by
    show (codecWithin s.depth).encode s = _
    rw [hn]
    rfl
  rw [hencode]
  exact encode_record_congr (fun e he => encode_codecWithin (hlevels.1 e he) (Nat.le_refl _))
    fun item hitem => encode_codecWithin (hlevels.2 item hitem) (Nat.le_refl _)

theorem codecWithin_arrives {n : Nat} (hs : s.Everywhere SchemaNode.Faithful) (h : s.depth ≤ n) :
    (codecWithin n).Arrives s s.arriving := by
  induction n generalizing s with
  | zero => exact absurd (depth_pos s) (Nat.not_lt.mpr h)
  | succ n ih =>
    rw [depth_le_succ_iff] at h
    obtain ⟨hroot, hproperties, hitems⟩ := everywhere_iff.mp hs
    exact record_arrives hroot (fun e he => ih (hproperties e he) (h.1 e he)) fun item hitem =>
      ⟨ih (hitems item hitem) (h.2 item hitem), present_codecWithin (h.2 item hitem)⟩

/-- The text of a schema nests at least as deep as its tree. -/
theorem depth_le_depth_encode (hs : s.Everywhere SchemaNode.Faithful) (a : Arrangement) :
    s.depth ≤ ((codec.encode s).arrange a).depth := by
  induction hs with
  | @intro s root _ _ hproperties hitems =>
    have hmember : ∀ m ∈ (record codec).fields.encode ((record codec).toRow s),
        (m.2.arrange a).depth < ((codec.encode s).arrange a).depth := by
      rw [encode_codec]
      exact fun m hm => Form.depth_arrange_member
        ((Fields.encode_sublist _ _).nodup (nodup_record_names codec)) a hm
    -- a property stands two containers below its node, and items one
    have hproperty : ∀ e ∈ s.root.properties,
        e.2.depth < ((codec.encode s).arrange a).depth := by
      intro e he
      have hsorted : Entries.Sorted (Entries.mapValues codec.encode s.root.properties) :=
        List.pairwise_map.mpr root.ordered
      have hinner := Form.depth_arrange_member (Entries.nodup_keys_of_sorted hsorted) a
        (List.mem_map_of_mem (f := fun e => (e.1, codec.encode e.2)) he)
      have houter := hmember _ (mem_encode_properties (List.ne_nil_of_mem he))
      exact Nat.lt_of_le_of_lt (hproperties e he) (Nat.lt_trans hinner houter)
    have hitem : ∀ item, s.root.items = some item →
        item.depth < ((codec.encode s).arrange a).depth := fun item h =>
      Nat.lt_of_le_of_lt (hitems item h) (hmember _ (mem_encode_items h))
    obtain ⟨n, hn⟩ : ∃ n, ((codec.encode s).arrange a).depth = n + 1 := by
      rw [encode_codec]
      cases a <;> exact ⟨_, rfl⟩
    rw [hn] at hproperty hitem ⊢
    exact depth_le_succ_iff.mpr ⟨fun e he => Nat.le_of_lt_succ (hproperty e he),
      fun item h => Nat.le_of_lt_succ (hitem item h)⟩

end Schema

mutual

/-- A document nests at least as deep as the form it is read from. -/
theorem Doc.depth_ofForm : ∀ f : Form, f.depth ≤ (ofForm f).depth
  | .null | .bool _ | .integer _ | .float _ | .string _ | .raw _ => Nat.zero_le _
  | .array items => Nat.succ_le_succ (depth_ofFormItems items)
  | .object members => Nat.succ_le_succ (depth_ofFormMembers members)

theorem Doc.depth_ofFormItems : ∀ items : List Form,
    Form.depthItems items ≤ depthItems (ofFormItems items)
  | [] => Nat.le_refl _
  | item :: rest => by
    have := depth_ofForm item
    have := depth_ofFormItems rest
    rw [Form.depthItems, ofFormItems, depthItems]
    omega

theorem Doc.depth_ofFormMembers : ∀ members : List (String × Form),
    Form.depthMembers members ≤ depthMembers (ofFormMembers members)
  | [] => Nat.le_refl _
  | (_, value) :: rest => by
    have := depth_ofForm value
    have := depth_ofFormMembers rest
    rw [Form.depthMembers, ofFormMembers, depthMembers]
    omega

end

namespace Schema

/-- What is written for a schema is read as the schema without its bounds that are not finite. -/
theorem codec_arrives {s : Schema} (hs : s.Everywhere SchemaNode.Faithful) :
    codec.Arrives s s.arriving where
  writable := (codecWithin_arrives hs (Nat.le_refl _)).writable
  reads a origin ho := by
    -- the writer takes its levels from the tree and the reader from the document
    have hdepth : s.depth ≤ (Doc.ofForm ((codec.encode s).arrange a)).depth + 1 :=
      Nat.le_succ_of_le (Nat.le_trans (depth_le_depth_encode hs a) (Doc.depth_ofForm _))
    have hencode := encode_codecWithin (Nat.le_refl s.depth) hdepth
    have harrives := (codecWithin_arrives hs hdepth).reads a
    rw [← hencode] at harrives
    exact harrives origin ho

end Schema

end ContextProtocol
