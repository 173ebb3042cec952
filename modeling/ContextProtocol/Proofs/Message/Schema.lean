import ContextProtocol.Message.Schema
import ContextProtocol.Proofs.Dict

/-!
# Trees of schemas

What is asked of a schema is asked of every node of its tree: of the root, of the nodes under its
properties and of the nodes under its items, whatever the types on the way are.

Results:
* `Schema.induction`: induction over the nodes of a tree.
* `Schema.everywhere_iff`: a property of all nodes, from the root down.
* `SchemaNode.errors_eq_nil_iff`: which nodes have nothing wrong with them.
* `Schema.errorsAt_eq_nil_iff`, `Schema.checkShape_eq_ok_iff`: nothing is wrong with a schema when
  nothing is with any node.
-/
namespace ContextProtocol

/-! ## Nodes -/

namespace SchemaNode

variable {α : Type} {s : SchemaNode α} {path : String}

/-- The keywords of the node belong to its type and do not exclude each other, and it requires and
lists only what it describes. -/
structure WellShaped (s : SchemaNode α) : Prop where
  texts : s.type = .string ∨ s.minLength = none ∧ s.maxLength = none ∧ s.pattern = none
  numbers : s.type.isNumeric = true ∨ s.minimum = none ∧ s.maximum = none
  arrays : s.type = .array ∨ s.items = none
  objects : s.type = .object ∨ s.properties = [] ∧ s.required = []
  lengths : ∀ min max, s.minLength = some min → s.maxLength = some max → ¬ max < min
  range : ∀ min max, s.minimum = some min → s.maximum = some max → ¬ max < min
  required : s.type = .object → ∀ name ∈ s.required, name ∈ s.properties.map (·.1)
  enum : ∀ v ∈ s.enum, s.type.admits v = true

theorem misplaced_eq_nil_iff : s.misplaced = [] ↔
    (s.type = .string ∨ s.minLength = none ∧ s.maxLength = none ∧ s.pattern = none) ∧
      (s.type.isNumeric = true ∨ s.minimum = none ∧ s.maximum = none) ∧
      (s.type = .array ∨ s.items = none) ∧
      (s.type = .object ∨ s.properties = [] ∧ s.required = []) := by
  simp only [Decidable.or_iff_not_imp_left]
  simp [misplaced]

theorem lengthErrors_eq_nil_iff : s.lengthErrors path = [] ↔
    ∀ min max, s.minLength = some min → s.maxLength = some max → ¬ max < min := by
  unfold lengthErrors
  cases s.minLength <;> cases s.maxLength <;> simp

theorem rangeErrors_eq_nil_iff : s.rangeErrors path = [] ↔
    ∀ min max, s.minimum = some min → s.maximum = some max → ¬ max < min := by
  unfold rangeErrors
  cases s.minimum <;> cases s.maximum <;> simp

theorem requiredErrors_eq_nil_iff : s.requiredErrors path = [] ↔
    (s.type = .object → ∀ name ∈ s.required, name ∈ s.properties.map (·.1)) := by
  have hdeclared : ∀ name, (s.properties.lookup name).isNone = true ↔
      name ∉ s.properties.map (·.1) := fun name =>
    Option.isNone_iff_eq_none.trans Entries.lookup_eq_none_iff
  unfold requiredErrors
  split
  · rename_i htype
    rw [List.map_eq_nil_iff, List.filter_eq_nil_iff]
    simp only [hdeclared, Decidable.not_not, htype, forall_const]
  · rename_i htype
    exact iff_of_true rfl fun h => absurd h htype

theorem enumErrors_eq_nil_iff : s.enumErrors path = [] ↔
    ∀ v ∈ s.enum, s.type.admits v = true := by
  rw [enumErrors, List.map_eq_nil_iff, List.filter_eq_nil_iff]
  simp only [Bool.not_eq_true', Bool.not_eq_false]
  constructor
  · intro h v hv
    obtain ⟨i, hi⟩ := List.getElem?_of_mem hv
    exact h (v, i) (List.mem_zipIdx_iff_getElem?.mpr hi)
  · rintro h ⟨v, i⟩ hv
    exact h v (List.mem_of_getElem? (List.mem_zipIdx_iff_getElem?.mp hv))

/-- Nothing is wrong with the nodes that are well-shaped. -/
theorem errors_eq_nil_iff : s.errors path = [] ↔ s.WellShaped := by
  simp only [errors, List.append_eq_nil_iff, List.map_eq_nil_iff, misplaced_eq_nil_iff,
    lengthErrors_eq_nil_iff, rangeErrors_eq_nil_iff, requiredErrors_eq_nil_iff,
    enumErrors_eq_nil_iff]
  exact ⟨fun ⟨⟨⟨⟨⟨ht, hn, ha, ho⟩, hl⟩, hr⟩, hq⟩, he⟩ => ⟨ht, hn, ha, ho, hl, hr, hq, he⟩,
    fun h => ⟨⟨⟨⟨⟨h.texts, h.numbers, h.arrays, h.objects⟩, h.lengths⟩, h.range⟩, h.required⟩,
      h.enum⟩⟩

end SchemaNode

/-! ## Trees -/

namespace Schema

variable {s : Schema}

/-- Induction over the nodes of a tree. -/
@[elab_as_elim]
theorem induction {motive : Schema → Prop}
    (node : ∀ s : SchemaNode Schema, (∀ e ∈ s.properties, motive e.2) →
      (∀ item, s.items = some item → motive item) → motive (ofRoot s))
    (s : Schema) : motive s := by
  refine @Schema.rec motive (fun properties => ∀ e ∈ properties, motive e.2)
    (fun items => ∀ item, items = some item → motive item) (fun e => motive e.2)
    ?node ?noProperties ?property ?noItems ?items (fun _ _ h => h) s
  case node =>
    intro type properties required items enum minLength maxLength pattern minimum maximum
    exact node ⟨type, properties, required, items, enum, minLength, maxLength, pattern, minimum,
      maximum⟩
  case noProperties => exact fun _ he => nomatch he
  case property => exact fun e rest he hrest => List.forall_mem_cons.mpr ⟨he, hrest⟩
  case noItems => exact fun _ h => nomatch h
  case items => exact fun s hs item h => Option.some.inj h ▸ hs

/-- A property of every node of a tree. -/
inductive Everywhere (P : SchemaNode Schema → Prop) : Schema → Prop where
  | intro {s : Schema} (root : P s.root) (properties : ∀ e ∈ s.root.properties, Everywhere P e.2)
      (items : ∀ item, s.root.items = some item → Everywhere P item) : Everywhere P s

theorem everywhere_iff {P : SchemaNode Schema → Prop} : s.Everywhere P ↔
    P s.root ∧ (∀ e ∈ s.root.properties, e.2.Everywhere P) ∧
      ∀ item, s.root.items = some item → item.Everywhere P :=
  ⟨fun | .intro root properties items => ⟨root, properties, items⟩,
    fun ⟨root, properties, items⟩ => .intro root properties items⟩

theorem Everywhere.mono {P Q : SchemaNode Schema → Prop} (h : s.Everywhere P)
    (hPQ : ∀ node, P node → Q node) : s.Everywhere Q := by
  induction h with
  | intro root _ _ hproperties hitems => exact .intro (hPQ _ root) hproperties hitems

theorem Everywhere.and {P Q : SchemaNode Schema → Prop} (hP : s.Everywhere P)
    (hQ : s.Everywhere Q) : s.Everywhere fun node => P node ∧ Q node := by
  induction hP with
  | intro root _ _ hproperties hitems =>
    obtain ⟨hroot, hproperties', hitems'⟩ := everywhere_iff.mp hQ
    exact .intro ⟨root, hroot⟩ (fun e he => hproperties e he (hproperties' e he))
      fun item h => hitems item h (hitems' item h)

theorem propertyErrors_eq_nil_iff {path : String} {properties : List (String × Schema)} :
    propertyErrors path properties = [] ↔
      ∀ e ∈ properties, e.2.errorsAt (path ++ "." ++ e.1) = [] := by
  induction properties with
  | nil => exact iff_of_true rfl nofun
  | cons e rest ih =>
    obtain ⟨name, s⟩ := e
    rw [propertyErrors, List.append_eq_nil_iff, ih, List.forall_mem_cons]

theorem itemErrors_eq_nil_iff {path : String} {items : Option Schema} :
    itemErrors path items = [] ↔ ∀ item, items = some item → item.errorsAt (path ++ "[]") = [] := by
  cases items with
  | none => exact iff_of_true rfl nofun
  | some s => simp [itemErrors]

/-- Nothing is wrong with a schema when nothing is wrong with any of its nodes. -/
theorem errorsAt_eq_nil_iff {path : String} :
    s.errorsAt path = [] ↔ s.Everywhere SchemaNode.WellShaped := by
  induction s using induction generalizing path with
  | node s hproperties hitems =>
    have herrors : (ofRoot s).errorsAt path =
        s.errors path ++ propertyErrors path s.properties ++ itemErrors path s.items := rfl
    rw [herrors, List.append_eq_nil_iff, List.append_eq_nil_iff, SchemaNode.errors_eq_nil_iff,
      propertyErrors_eq_nil_iff, itemErrors_eq_nil_iff, everywhere_iff, root_ofRoot, and_assoc]
    refine and_congr_right fun _ => and_congr ?_ ?_
    · exact forall₂_congr fun e he => hproperties e he
    · exact forall₂_congr fun item hitem => hitems item hitem

theorem checkShape_eq_ok_iff : s.checkShape = .ok () ↔ s.Everywhere SchemaNode.WellShaped := by
  have hshape : s.shapeErrors = [] ↔ s.Everywhere SchemaNode.WellShaped := errorsAt_eq_nil_iff
  rw [← hshape, checkShape]
  cases s.shapeErrors <;> simp

/-! ## Levels -/

theorem depthProperties_le_iff {properties : List (String × Schema)} {n : Nat} :
    depthProperties properties ≤ n ↔ ∀ e ∈ properties, e.2.depth ≤ n := by
  induction properties with
  | nil => exact iff_of_true (Nat.zero_le _) nofun
  | cons e rest ih =>
    obtain ⟨name, s⟩ := e
    rw [depthProperties, Nat.max_le, ih, List.forall_mem_cons]

theorem depthItems_le_iff {items : Option Schema} {n : Nat} :
    depthItems items ≤ n ↔ ∀ item, items = some item → item.depth ≤ n := by
  cases items with
  | none => exact iff_of_true (Nat.zero_le _) nofun
  | some s => simp [depthItems]

theorem depth_le_succ_iff {n : Nat} : s.depth ≤ n + 1 ↔
    (∀ e ∈ s.root.properties, e.2.depth ≤ n) ∧
      ∀ item, s.root.items = some item → item.depth ≤ n := by
  cases s with
  | node type properties required items =>
    rw [depth, Nat.succ_le_succ_iff, Nat.max_le, depthProperties_le_iff, depthItems_le_iff]
    rfl

theorem depth_pos (s : Schema) : 0 < s.depth := by
  cases s
  exact Nat.succ_pos _

end Schema

end ContextProtocol
