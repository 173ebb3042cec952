import ContextProtocol.Proofs.Message.Schema

/-!
# What is wrong with a schema, and where

A schema is a tree whose nodes have addresses: the names of properties, and steps into items, from
the root down. A **violation** is one way in which a node breaks the rules of its type, and a schema
reports the violations of all its nodes, each with the address of its node: a node before those
under it, properties in the order of their names, and these before the items.

Results:
* `SchemaNode.mem_violations_iff`, `SchemaNode.nodup_violations`: every violation of a node once.
* `Schema.errorsAt_eq`: the errors of a schema are its violations, from whichever path it is seen.
* `Schema.within_violations`: what is reported under an address is what the schema there reports.
* `Schema.violations_ascending`: the order of the report.
* `Schema.checkShape_by_node`: which schemas have nothing wrong with them, and what is reported of
  the others.
-/
namespace ContextProtocol

/-! ## Nodes -/

/-- A keyword that belongs to some types only. -/
inductive Keyword where
  | minLength
  | maxLength
  | pattern
  | minimum
  | maximum
  | items
  | properties
  | required
  deriving DecidableEq

namespace Keyword

def text : Keyword → String
  | minLength => "minLength"
  | maxLength => "maxLength"
  | pattern => "pattern"
  | minimum => "minimum"
  | maximum => "maximum"
  | items => "items"
  | properties => "properties"
  | required => "required"

def all : List Keyword :=
  [minLength, maxLength, pattern, minimum, maximum, items, properties, required]

theorem mem_all (k : Keyword) : k ∈ all := by cases k <;> decide

/-- The keyword belongs to the type. -/
def fits (type : SchemaType) : Keyword → Bool
  | minLength | maxLength | pattern => type = .string
  | minimum | maximum => type = .number || type = .integer
  | items => type = .array
  | properties | required => type = .object

end Keyword

/-- One way in which a node breaks the rules of its type. -/
inductive Violation where
  | misplaced (keyword : Keyword) (type : SchemaType)
  | lengths (min max : UInt64)
  | range (min max : Float)
  /-- A required name, by its place in the list. -/
  | undeclared (i : Nat) (name : String)
  /-- A value of the enumeration, by its place in the list. -/
  | mistyped (i : Nat) (value : Json) (type : SchemaType)

namespace Violation

/-- Where in the node the violation is. -/
def place : Violation → String
  | misplaced keyword _ => "." ++ keyword.text
  | lengths .. => ".minLength"
  | range .. => ".minimum"
  | undeclared .. => ".required"
  | mistyped i .. => ".enum[" ++ toString i ++ "]"

def reason : Violation → String
  | misplaced _ type => "does not apply to " ++ type.text ++ " schemas"
  | lengths min max => toString min.toNat ++ " exceeds maxLength " ++ toString max.toNat
  | range min max => Decimal.reason min ++ " exceeds maximum " ++ Decimal.reason max
  | undeclared _ name => Text.quoted name ++ " is not a declared property"
  | mistyped _ value type => value.text ++ " is not a " ++ type.text

/-- The error that reports the violation of the node at the path. -/
def error (path : String) (v : Violation) : ConstructionError := ⟨path ++ v.place, v.reason⟩

end Violation

namespace SchemaNode

variable {α : Type} {s : SchemaNode α} {v : Violation}

/-- The keyword is set. -/
def has (s : SchemaNode α) : Keyword → Bool
  | .minLength => s.minLength.isSome
  | .maxLength => s.maxLength.isSome
  | .pattern => s.pattern.isSome
  | .minimum => s.minimum.isSome
  | .maximum => s.maximum.isSome
  | .items => s.items.isSome
  | .properties => !s.properties.isEmpty
  | .required => !s.required.isEmpty

/-- The rules that the node breaks. -/
inductive Breaks (s : SchemaNode α) : Violation → Prop where
  | misplaced {k : Keyword} (hset : s.has k = true) (hfits : k.fits s.type = false) :
    Breaks s (.misplaced k s.type)
  | lengths {min max : UInt64} (hmin : s.minLength = some min) (hmax : s.maxLength = some max)
    (h : max < min) : Breaks s (.lengths min max)
  | range {min max : Float} (hmin : s.minimum = some min) (hmax : s.maximum = some max)
    (h : max < min) : Breaks s (.range min max)
  | undeclared {i : Nat} {name : String} (htype : s.type = .object)
    (hname : s.required[i]? = some name) (h : name ∉ s.properties.map (·.1)) :
    Breaks s (.undeclared i name)
  | mistyped {i : Nat} {value : Json} (hvalue : s.enum[i]? = some value)
    (h : s.type.admits value = false) : Breaks s (.mistyped i value s.type)

/-! ### What is reported of a node -/

def misplacedViolations (s : SchemaNode α) : List Violation :=
  (Keyword.all.filter fun k => s.has k && !k.fits s.type).map fun k => .misplaced k s.type

def lengthViolations (s : SchemaNode α) : List Violation :=
  match s.minLength, s.maxLength with
  | some min, some max => if max < min then [.lengths min max] else []
  | _, _ => []

def rangeViolations (s : SchemaNode α) : List Violation :=
  match s.minimum, s.maximum with
  | some min, some max => if max < min then [.range min max] else []
  | _, _ => []

def requiredViolations (s : SchemaNode α) : List Violation :=
  if s.type = .object then
    (s.required.zipIdx.filter fun e => (s.properties.lookup e.1).isNone).map fun e =>
      .undeclared e.2 e.1
  else []

def enumViolations (s : SchemaNode α) : List Violation :=
  (s.enum.zipIdx.filter fun e => !s.type.admits e.1).map fun e => .mistyped e.2 e.1 s.type

/-- The violations of the node, in the order in which they are reported. -/
def violations (s : SchemaNode α) : List Violation :=
  s.misplacedViolations ++ s.lengthViolations ++ s.rangeViolations ++ s.requiredViolations ++
    s.enumViolations

theorem mem_misplacedViolations_iff : v ∈ s.misplacedViolations ↔
    ∃ k, s.has k = true ∧ k.fits s.type = false ∧ v = .misplaced k s.type := by
  simp only [misplacedViolations, List.mem_map, List.mem_filter, Keyword.mem_all, true_and,
    Bool.and_eq_true, Bool.not_eq_true']
  constructor
  · rintro ⟨k, ⟨hset, hfits⟩, rfl⟩
    exact ⟨k, hset, hfits, rfl⟩
  · rintro ⟨k, hset, hfits, rfl⟩
    exact ⟨k, ⟨hset, hfits⟩, rfl⟩

theorem mem_lengthViolations_iff : v ∈ s.lengthViolations ↔
    ∃ min max, s.minLength = some min ∧ s.maxLength = some max ∧ max < min ∧
      v = .lengths min max := by
  unfold lengthViolations
  cases s.minLength <;> cases s.maxLength <;> simp

theorem mem_rangeViolations_iff : v ∈ s.rangeViolations ↔
    ∃ min max, s.minimum = some min ∧ s.maximum = some max ∧ max < min ∧ v = .range min max := by
  unfold rangeViolations
  cases s.minimum <;> cases s.maximum <;> simp

theorem mem_requiredViolations_iff : v ∈ s.requiredViolations ↔ s.type = .object ∧
    ∃ i name, s.required[i]? = some name ∧ name ∉ s.properties.map (·.1) ∧
      v = .undeclared i name := by
  unfold requiredViolations
  split
  · rename_i htype
    simp only [htype, true_and, List.mem_map, List.mem_filter, Option.isNone_iff_eq_none,
      Entries.lookup_eq_none_iff, List.mem_zipIdx_iff_getElem?, Prod.exists]
    constructor
    · rintro ⟨name, i, ⟨hname, hnew⟩, rfl⟩
      exact ⟨i, name, hname, hnew, rfl⟩
    · rintro ⟨i, name, hname, hnew, rfl⟩
      exact ⟨name, i, ⟨hname, hnew⟩, rfl⟩
  · rename_i htype
    simp [htype]

theorem mem_enumViolations_iff : v ∈ s.enumViolations ↔
    ∃ i value, s.enum[i]? = some value ∧ s.type.admits value = false ∧
      v = .mistyped i value s.type := by
  simp only [enumViolations, List.mem_map, List.mem_filter, Bool.not_eq_true',
    List.mem_zipIdx_iff_getElem?, Prod.exists]
  constructor
  · rintro ⟨value, i, ⟨hvalue, h⟩, rfl⟩
    exact ⟨i, value, hvalue, h, rfl⟩
  · rintro ⟨i, value, hvalue, h, rfl⟩
    exact ⟨value, i, ⟨hvalue, h⟩, rfl⟩

/-- Every violation is reported. -/
theorem mem_violations_iff : v ∈ s.violations ↔ s.Breaks v := by
  simp only [violations, List.mem_append, mem_misplacedViolations_iff, mem_lengthViolations_iff,
    mem_rangeViolations_iff, mem_requiredViolations_iff, mem_enumViolations_iff]
  constructor
  · rintro ((((⟨k, hset, hfits, rfl⟩ | ⟨min, max, hmin, hmax, h, rfl⟩) |
      ⟨min, max, hmin, hmax, h, rfl⟩) | ⟨htype, i, name, hname, h, rfl⟩) |
      ⟨i, value, hvalue, h, rfl⟩)
    · exact .misplaced hset hfits
    · exact .lengths hmin hmax h
    · exact .range hmin hmax h
    · exact .undeclared htype hname h
    · exact .mistyped hvalue h
  · rintro (⟨hset, hfits⟩ | ⟨hmin, hmax, h⟩ | ⟨hmin, hmax, h⟩ | ⟨htype, hname, h⟩ | ⟨hvalue, h⟩)
    · exact .inl (.inl (.inl (.inl ⟨_, hset, hfits, rfl⟩)))
    · exact .inl (.inl (.inl (.inr ⟨_, _, hmin, hmax, h, rfl⟩)))
    · exact .inl (.inl (.inr ⟨_, _, hmin, hmax, h, rfl⟩))
    · exact .inl (.inr ⟨htype, _, _, hname, h, rfl⟩)
    · exact .inr ⟨_, _, hvalue, h, rfl⟩

/-- What is reported of the places of a list is reported once. -/
theorem nodup_map_zipIdx {β : Type} {f : β × Nat → Violation} (hf : ∀ a b, f a = f b → a.2 = b.2)
    (p : β × Nat → Bool) (l : List β) : ((l.zipIdx.filter p).map f).Nodup := by
  have hplaces : (l.zipIdx.map (·.2)).Nodup := by
    rw [List.zipIdx_map_snd]
    exact List.nodup_range'
  have hpairs : l.zipIdx.Pairwise fun a b => a.2 ≠ b.2 := List.pairwise_map.mp hplaces
  exact List.pairwise_map.mpr
    ((hpairs.sublist List.filter_sublist).imp fun {a b} hne heq => hne (hf a b heq))

/-- No violation is reported twice. -/
theorem nodup_violations (s : SchemaNode α) : s.violations.Nodup := by
  have hmisplaced : s.misplacedViolations.Nodup := by
    have hall : Keyword.all.Nodup := by decide
    refine List.pairwise_map.mpr
      ((hall.sublist List.filter_sublist).imp fun {a b} hne heq => hne ?_)
    exact (Violation.misplaced.inj heq).1
  have hlengths : s.lengthViolations.Nodup := by
    unfold lengthViolations
    split
    · split <;> simp
    · simp
  have hrange : s.rangeViolations.Nodup := by
    unfold rangeViolations
    split
    · split <;> simp
    · simp
  have hrequired : s.requiredViolations.Nodup := by
    unfold requiredViolations
    split
    · exact nodup_map_zipIdx (fun _ _ h => (Violation.undeclared.inj h).1) _ _
    · exact List.nodup_nil
  have henum : s.enumViolations.Nodup :=
    nodup_map_zipIdx (fun _ _ h => (Violation.mistyped.inj h).1) _ _
  -- different parts report violations of different rules
  simp only [violations, List.nodup_append, List.mem_append, mem_misplacedViolations_iff,
    mem_lengthViolations_iff, mem_rangeViolations_iff, mem_requiredViolations_iff,
    mem_enumViolations_iff]
  refine ⟨⟨⟨⟨hmisplaced, hlengths, ?_⟩, hrange, ?_⟩, hrequired, ?_⟩, henum, ?_⟩
  · rintro _ ⟨_, _, _, rfl⟩ _ ⟨_, _, _, _, _, rfl⟩
    nofun
  · rintro _ (⟨_, _, _, rfl⟩ | ⟨_, _, _, _, _, rfl⟩) _ ⟨_, _, _, _, _, rfl⟩ <;> nofun
  · rintro _ ((⟨_, _, _, rfl⟩ | ⟨_, _, _, _, _, rfl⟩) | ⟨_, _, _, _, _, rfl⟩) _
      ⟨_, _, _, _, _, rfl⟩ <;> nofun
  · rintro _ (((⟨_, _, _, rfl⟩ | ⟨_, _, _, _, _, rfl⟩) | ⟨_, _, _, _, _, rfl⟩) |
      ⟨_, _, _, _, _, rfl⟩) _ ⟨_, _, _, _, rfl⟩ <;> nofun

/-! ### The errors of a node -/

/-- The keywords of one type that are misplaced, named or not. -/
theorem misplaced_group (s : SchemaNode α) (fits : Bool) (group : List Keyword)
    (h : ∀ k ∈ group, k.fits s.type = fits) :
    (if fits then [] else ((group.map fun k => (k.text, s.has k)).filter (·.2)).map (·.1)) =
      (group.filter fun k => s.has k && !k.fits s.type).map Keyword.text := by
  have hfilter : (group.filter fun k => s.has k && !k.fits s.type) =
      group.filter fun k => s.has k && !fits :=
    List.filter_congr fun k hk => by rw [h k hk]
  rw [hfilter]
  cases fits with
  | true => simp
  | false => simp [List.filter_map, Function.comp_def]

theorem misplaced_eq (s : SchemaNode α) : s.misplaced =
    (Keyword.all.filter fun k => s.has k && !k.fits s.type).map Keyword.text := by
  have htexts := s.misplaced_group (s.type = .string) [.minLength, .maxLength, .pattern]
    (by simp [Keyword.fits])
  have hnumbers := s.misplaced_group s.type.isNumeric [.minimum, .maximum] (by
    cases s.type <;> simp [Keyword.fits, SchemaType.isNumeric])
  have hitems := s.misplaced_group (s.type = .array) [.items] (by simp [Keyword.fits])
  have hobjects := s.misplaced_group (s.type = .object) [.properties, .required]
    (by simp [Keyword.fits])
  have hall : Keyword.all = [.minLength, .maxLength, .pattern] ++ [.minimum, .maximum] ++
    [.items] ++ [.properties, .required] := rfl
  rw [hall, List.filter_append, List.filter_append, List.filter_append, List.map_append,
    List.map_append, List.map_append, ← htexts, ← hnumbers, ← hitems, ← hobjects]
  rfl

/-- The errors of a node are its violations, seen from the path. -/
theorem errors_eq (path : String) (s : SchemaNode α) :
    s.errors path = s.violations.map (Violation.error path) := by
  have hmisplaced : (s.misplaced.map fun keyword => (⟨path ++ "." ++ keyword,
      "does not apply to " ++ s.type.text ++ " schemas"⟩ : ConstructionError)) =
        s.misplacedViolations.map (Violation.error path) := by
    rw [misplaced_eq, misplacedViolations, List.map_map, List.map_map]
    refine List.map_congr_left fun k _ => congrArg (ConstructionError.mk · _) ?_
    exact String.append_assoc ..
  have hlengths : s.lengthErrors path = s.lengthViolations.map (Violation.error path) := by
    unfold lengthErrors lengthViolations
    rcases s.minLength with _ | min <;> rcases s.maxLength with _ | max
    case some.some =>
      dsimp only
      split <;> rfl
    all_goals rfl
  have hrange : s.rangeErrors path = s.rangeViolations.map (Violation.error path) := by
    unfold rangeErrors rangeViolations
    rcases s.minimum with _ | min <;> rcases s.maximum with _ | max
    case some.some =>
      dsimp only
      split <;> rfl
    all_goals rfl
  have hrequired : s.requiredErrors path = s.requiredViolations.map (Violation.error path) := by
    have hnames : (s.required.filter fun name => (s.properties.lookup name).isNone) =
        (s.required.zipIdx.filter fun e => (s.properties.lookup e.1).isNone).map (·.1) := by
      calc
        _ = (s.required.zipIdx.map (·.1)).filter fun name => (s.properties.lookup name).isNone := by
          rw [List.zipIdx_map_fst]
        _ = _ := List.filter_map
    unfold requiredErrors requiredViolations
    rw [hnames]
    split
    · rw [List.map_map, List.map_map]
      rfl
    · rfl
  have henum : s.enumErrors path = s.enumViolations.map (Violation.error path) := by
    rw [enumErrors, enumViolations, List.map_map]
    refine List.map_congr_left fun e _ => congrArg (ConstructionError.mk · _) ?_
    simp only [Violation.place, String.append_assoc]
  rw [errors, hmisplaced, hlengths, hrange, hrequired, henum, violations]
  simp only [List.map_append]

/-- The nodes that are well-shaped break no rule. -/
theorem wellShaped_iff : s.WellShaped ↔ ∀ v, ¬ s.Breaks v := by
  have herrors : s.errors "" = [] ↔ s.WellShaped := errors_eq_nil_iff
  rw [← herrors, errors_eq, List.map_eq_nil_iff, List.eq_nil_iff_forall_not_mem]
  simp only [mem_violations_iff]

end SchemaNode
/-! ## Addresses -/

/-- A step down from a node. -/
inductive SchemaStep where
  | property (name : String)
  | items
  deriving DecidableEq

/-- The steps from the root to a node. -/
abbrev SchemaAddress := List SchemaStep

namespace SchemaStep

def text : SchemaStep → String
  | property name => "." ++ name
  | items => "[]"

/-- What is under the first step comes before what is under the second one. -/
def Before : SchemaStep → SchemaStep → Prop
  | property a, property b => KeyOrder.lt a b
  | property _, items => True
  | items, _ => False

theorem not_before_self : ∀ step : SchemaStep, ¬ step.Before step
  | property name => by simp [Before, KeyOrder.irrefl]
  | items => id

end SchemaStep

namespace SchemaAddress

def text : SchemaAddress → String
  | [] => ""
  | step :: rest => step.text ++ text rest

/-- A node comes before the nodes under it, and otherwise the first step that differs decides. -/
def Before : SchemaAddress → SchemaAddress → Prop := List.Lex SchemaStep.Before

theorem text_append (a b : SchemaAddress) : text (a ++ b) = text a ++ text b := by
  induction a with
  | nil => exact String.empty_append.symm
  | cons step a ih => rw [List.cons_append, text, ih, text, String.append_assoc]

theorem not_before_self (a : SchemaAddress) : ¬ a.Before a := by
  induction a with
  | nil => nofun
  | cons step a ih =>
    rintro (_ | h | h)
    · exact SchemaStep.not_before_self step h
    · exact ih h

end SchemaAddress

namespace Schema

variable {s : Schema} {v : Violation} {a : SchemaAddress}

/-- The schema at an address. -/
def at? (s : Schema) : SchemaAddress → Option Schema
  | [] => some s
  | .property name :: rest => (s.root.properties.lookup name).bind fun t => t.at? rest
  | .items :: rest => s.root.items.bind fun t => t.at? rest

mutual

/-- The violations of all nodes, each with the address of its node: a node before its properties, in
the order of their names, and these before its items. -/
def violations : Schema → List (SchemaAddress × Violation)
  | .node type properties required items enum minLength maxLength pattern minimum maximum =>
    let node : SchemaNode Schema :=
      ⟨type, properties, required, items, enum, minLength, maxLength, pattern, minimum, maximum⟩
    node.violations.map (fun v => ([], v)) ++ propertyViolations properties ++ itemViolations items

def propertyViolations : List (String × Schema) → List (SchemaAddress × Violation)
  | [] => []
  | (name, s) :: rest =>
    (violations s).map (fun e => (.property name :: e.1, e.2)) ++ propertyViolations rest

def itemViolations : Option Schema → List (SchemaAddress × Violation)
  | none => []
  | some s => (violations s).map fun e => (.items :: e.1, e.2)

end

theorem violations_ofRoot (s : SchemaNode Schema) : (ofRoot s).violations =
    s.violations.map (fun v => ([], v)) ++ propertyViolations s.properties ++
      itemViolations s.items := rfl

theorem violations_eq (s : Schema) : s.violations =
    s.root.violations.map (fun v => ([], v)) ++ propertyViolations s.root.properties ++
      itemViolations s.root.items := by
  cases s
  rfl

theorem propertyViolations_eq (properties : List (String × Schema)) :
    propertyViolations properties = properties.flatMap fun e =>
      e.2.violations.map fun x => (.property e.1 :: x.1, x.2) := by
  induction properties with
  | nil => rfl
  | cons e rest ih => rw [propertyViolations, ih, List.flatMap_cons]

theorem mem_propertyViolations_iff {properties : List (String × Schema)}
    {x : SchemaAddress × Violation} : x ∈ propertyViolations properties ↔
      ∃ e ∈ properties, ∃ y ∈ e.2.violations, (.property e.1 :: y.1, y.2) = x := by
  simp only [propertyViolations_eq, List.mem_flatMap, List.mem_map]

theorem mem_itemViolations_iff {items : Option Schema} {x : SchemaAddress × Violation} :
    x ∈ itemViolations items ↔
      ∃ t, items = some t ∧ ∃ y ∈ t.violations, (.items :: y.1, y.2) = x := by
  cases items with
  | none => simp [itemViolations]
  | some t => simp [itemViolations]

theorem errorsAt_ofRoot (path : String) (s : SchemaNode Schema) : (ofRoot s).errorsAt path =
    s.errors path ++ propertyErrors path s.properties ++ itemErrors path s.items := rfl

/-- The errors that report violations, seen from the path. -/
def errorsOf (path : String) (violations : List (SchemaAddress × Violation)) :
    List ConstructionError :=
  violations.map fun e => e.2.error (path ++ e.1.text)

/-- The violations under a step are seen from one path further down. -/
theorem errorsOf_step (path : String) (step : SchemaStep)
    (violations : List (SchemaAddress × Violation)) :
    errorsOf path (violations.map fun e => (step :: e.1, e.2)) =
      errorsOf (path ++ step.text) violations := by
  unfold errorsOf
  rw [List.map_map]
  refine List.map_congr_left fun e _ => ?_
  simp only [Function.comp_apply, SchemaAddress.text, String.append_assoc]

/-- The errors of a schema are its violations, from whichever path it is seen. -/
theorem errorsAt_eq (path : String) (s : Schema) :
    s.errorsAt path = errorsOf path s.violations := by
  induction s using induction generalizing path with
  | node s hproperties hitems =>
    have hnode : s.errors path = errorsOf path (s.violations.map fun v => ([], v)) := by
      rw [SchemaNode.errors_eq, errorsOf, List.map_map]
      refine List.map_congr_left fun v _ => ?_
      simp only [Function.comp_apply, SchemaAddress.text, String.append_empty]
    have hunder : propertyErrors path s.properties =
        errorsOf path (propertyViolations s.properties) := by
      generalize s.properties = properties at hproperties
      induction properties with
      | nil => rfl
      | cons e rest ih =>
        obtain ⟨name, t⟩ := e
        obtain ⟨ht, hrest⟩ := List.forall_mem_cons.mp hproperties
        rw [propertyErrors, propertyViolations, ht, ih hrest, errorsOf, errorsOf, errorsOf,
          List.map_append]
        congr 1
        rw [String.append_assoc]
        exact (errorsOf_step path (.property name) _).symm
    have hbelow : itemErrors path s.items = errorsOf path (itemViolations s.items) := by
      cases hitem : s.items with
      | none => rfl
      | some t =>
        rw [itemErrors, itemViolations, hitems t hitem]
        exact (errorsOf_step path .items _).symm
    rw [errorsAt_ofRoot, violations_ofRoot, hnode, hunder, hbelow]
    simp only [errorsOf, List.map_append]

/-! ### What is under an address -/

/-- The properties of all nodes are in the order of their names, as they are kept in memory. -/
def Ordered (s : Schema) : Prop := s.Everywhere fun node => Entries.Sorted node.properties

theorem Ordered.of_property (h : s.Ordered) {name : String} {t : Schema}
    (ht : s.root.properties.lookup name = some t) : t.Ordered :=
  (everywhere_iff.mp h).2.1 (name, t) (Entries.mem_of_lookup ht)

theorem Ordered.of_items (h : s.Ordered) {t : Schema} (ht : s.root.items = some t) : t.Ordered :=
  (everywhere_iff.mp h).2.2 t ht

/-- The violations at and under an address. -/
def within (a : SchemaAddress) (violations : List (SchemaAddress × Violation)) :
    List (SchemaAddress × Violation) :=
  violations.filter fun e => a.isPrefixOf e.1

theorem within_append (a : SchemaAddress) (violations more : List (SchemaAddress × Violation)) :
    within a (violations ++ more) = within a violations ++ within a more :=
  List.filter_append ..

/-- Under an address that begins with a step are only violations under that step. -/
theorem within_step (step step' : SchemaStep) (a : SchemaAddress)
    (violations : List (SchemaAddress × Violation)) :
    within (step :: a) (violations.map fun e => (step' :: e.1, e.2)) =
      if step = step' then (within a violations).map fun e => (step :: e.1, e.2) else [] := by
  unfold within
  rw [List.filter_map]
  by_cases hstep : step = step'
  · subst hstep
    simp [Function.comp_def, List.isPrefixOf]
  · simp [Function.comp_def, List.isPrefixOf, hstep]

theorem within_propertyViolations {properties : List (String × Schema)}
    (h : (properties.map (·.1)).Nodup) (name : String) (a : SchemaAddress) :
    within (.property name :: a) (propertyViolations properties) =
      (properties.lookup name).elim [] fun t =>
        (within a t.violations).map fun e => (.property name :: e.1, e.2) := by
  induction properties with
  | nil => rfl
  | cons e rest ih =>
    obtain ⟨other, t⟩ := e
    rw [List.map_cons, List.nodup_cons] at h
    have hhead := within_step (.property name) (.property other) a t.violations
    have htail := ih h.2
    rw [propertyViolations, within_append, hhead, htail, List.lookup_cons]
    by_cases hname : name = other
    · subst hname
      have hnone : rest.lookup name = none := Entries.lookup_eq_none_iff.mpr h.1
      simp [hnone]
    · have hne : (name == other) = false := by simpa using hname
      simp [hname, hne]

/-- What is reported at and under an address is what the schema there reports. -/
theorem within_violations (h : s.Ordered) (a : SchemaAddress) : within a s.violations =
    (s.at? a).elim [] fun t => t.violations.map fun e => (a ++ e.1, e.2) := by
  induction a generalizing s with
  | nil => simp [within, at?]
  | cons step a ih =>
    have hroot : within (step :: a) (s.root.violations.map fun v => ([], v)) = [] := by
      simp [within, List.filter_map, Function.comp_def, List.isPrefixOf]
    have hsplit : within (step :: a) s.violations =
        within (step :: a) (propertyViolations s.root.properties) ++
          within (step :: a) (itemViolations s.root.items) := by
      rw [violations_eq, within_append, within_append, hroot, List.nil_append]
    rw [hsplit]
    cases step with
    | property name =>
      have hitems : within (.property name :: a) (itemViolations s.root.items) = [] := by
        cases s.root.items with
        | none => rfl
        | some t => exact within_step ..
      have hkeys := Entries.nodup_keys_of_sorted (everywhere_iff.mp h).1
      rw [hitems, List.append_nil, within_propertyViolations hkeys, at?]
      cases ht : s.root.properties.lookup name with
      | none => rfl
      | some t =>
        rw [Option.elim_some, ih (h.of_property ht), Option.bind_some]
        cases t.at? a <;> simp
    | items =>
      have hproperties : within (.items :: a) (propertyViolations s.root.properties) = [] := by
        induction s.root.properties with
        | nil => rfl
        | cons e rest ih =>
          have hhead := within_step .items (.property e.1) a e.2.violations
          rw [propertyViolations, within_append, hhead, ih]
          rfl
      rw [hproperties, List.nil_append, at?]
      cases ht : s.root.items with
      | none => rfl
      | some t =>
        rw [itemViolations, within_step, if_pos rfl, ih (h.of_items ht), Option.bind_some]
        cases t.at? a <;> simp

/-- The violations with no address are those of the root. -/
theorem mem_violations_root_iff : ([], v) ∈ s.violations ↔ s.root.Breaks v := by
  rw [violations_eq, List.mem_append, List.mem_append, mem_propertyViolations_iff,
    mem_itemViolations_iff, List.mem_map]
  simp [SchemaNode.mem_violations_iff]

/-- The violations of a node are those with its address. -/
theorem mem_violations_iff (h : s.Ordered) :
    (a, v) ∈ s.violations ↔ ∃ t, s.at? a = some t ∧ t.root.Breaks v := by
  have hwithin : (a, v) ∈ s.violations ↔ (a, v) ∈ within a s.violations := by
    simp [within]
  rw [hwithin, within_violations h]
  cases ht : s.at? a with
  | none => simp
  | some t => simp [← mem_violations_root_iff]

/-! ### The order -/

/-- One violation is reported before the other. -/
def Earlier (x y : SchemaAddress × Violation) : Prop := x.1.Before y.1 ∨ x.1 = y.1 ∧ x.2 ≠ y.2

theorem Earlier.under {step : SchemaStep} {x y : SchemaAddress × Violation} (h : Earlier x y) :
    Earlier (step :: x.1, x.2) (step :: y.1, y.2) :=
  h.imp List.Lex.cons fun ⟨ha, hv⟩ => ⟨congrArg (step :: ·) ha, hv⟩

theorem earlier_of_step {step step' : SchemaStep} (h : step.Before step')
    {x y : SchemaAddress × Violation} : Earlier (step :: x.1, x.2) (step' :: y.1, y.2) :=
  .inl (.rel h)

theorem Earlier.ne {x y : SchemaAddress × Violation} (h : Earlier x y) : x ≠ y := by
  rintro rfl
  rcases h with h | ⟨-, h⟩
  · exact SchemaAddress.not_before_self _ h
  · exact h rfl

/-- Violations are reported in order, none of them twice. -/
theorem violations_ascending (h : s.Ordered) : s.violations.Pairwise Earlier := by
  induction s using induction with
  | node s hproperties hitems =>
    obtain ⟨hsorted, hunder, hbelow⟩ := everywhere_iff.mp h
    have hroot : (s.violations.map fun v => (([] : SchemaAddress), v)).Pairwise Earlier :=
      List.pairwise_map.mpr (s.nodup_violations.imp fun hne => .inr ⟨rfl, hne⟩)
    have hnamed : (propertyViolations s.properties).Pairwise Earlier := by
      rw [propertyViolations_eq, List.pairwise_flatMap]
      refine ⟨fun e he => ?_, hsorted.imp fun {e d} hlt => ?_⟩
      · exact List.pairwise_map.mpr ((hproperties e he (hunder e he)).imp .under)
      · simp only [List.mem_map]
        rintro _ ⟨x, -, rfl⟩ _ ⟨y, -, rfl⟩
        have hstep : SchemaStep.Before (.property e.1) (.property d.1) := hlt
        exact earlier_of_step hstep
    have hlast : (itemViolations s.items).Pairwise Earlier := by
      cases hitem : s.items with
      | none => exact .nil
      | some t => exact List.pairwise_map.mpr ((hitems t hitem (hbelow t hitem)).imp .under)
    rw [violations_ofRoot, List.pairwise_append, List.pairwise_append]
    refine ⟨⟨hroot, hnamed, ?_⟩, hlast, ?_⟩
    · intro x hx y hy
      obtain ⟨v, -, rfl⟩ := List.mem_map.mp hx
      obtain ⟨e, -, y, -, rfl⟩ := mem_propertyViolations_iff.mp hy
      exact .inl .nil
    · intro x hx y hy
      obtain ⟨t, -, y, -, rfl⟩ := mem_itemViolations_iff.mp hy
      rcases List.mem_append.mp hx with hx | hx
      · obtain ⟨v, -, rfl⟩ := List.mem_map.mp hx
        exact .inl .nil
      · obtain ⟨e, -, x, -, rfl⟩ := mem_propertyViolations_iff.mp hx
        have hstep : SchemaStep.Before (.property e.1) .items := trivial
        exact earlier_of_step hstep

/-! ## The report -/

/-- A schema has nothing wrong with it when every node in it is well-shaped, whatever the types of
the nodes on the way. Otherwise the rules that are broken are reported, each violation once: a node
before the nodes under it, properties in the order of their names, and these before the items. What
is reported at and under an address is what the schema there reports of itself, seen from the
address. -/
theorem checkShape_by_node (s : Schema) (h : s.Ordered) :
    (s.checkShape = .ok () ↔ ∀ a t, s.at? a = some t → t.root.WellShaped) ∧
    ∀ errors, s.checkShape = .error errors → ∃ violations : List (SchemaAddress × Violation),
      errors = violations.map (fun e => e.2.error ("root" ++ e.1.text)) ∧
      (∀ a v, (a, v) ∈ violations ↔ ∃ t, s.at? a = some t ∧ t.root.Breaks v) ∧
      violations.Nodup ∧ violations.Pairwise (fun x y => x.1.Before y.1 ∨ x.1 = y.1) ∧
      ∀ a t, s.at? a = some t → ∃ seen : List (String × String),
        (violations.filter fun e => a.isPrefixOf e.1).map
          (fun e => e.2.error ("root" ++ e.1.text)) =
            seen.map (fun e => ⟨"root" ++ a.text ++ e.1, e.2⟩) ∧
        t.shapeErrors = seen.map fun e => ⟨"root" ++ e.1, e.2⟩ := by
  have hreport : s.shapeErrors = errorsOf "root" s.violations := errorsAt_eq "root" s
  refine ⟨?accepted, fun errors herrors => ⟨s.violations, ?_, fun a v => mem_violations_iff h,
    ?_, ?_, fun a t ht => ?_⟩⟩
  case accepted =>
    have hnone : s.checkShape = .ok () ↔ s.violations = [] := by
      rw [checkShape, hreport, errorsOf]
      cases s.violations <;> simp
    rw [hnone, List.eq_nil_iff_forall_not_mem]
    simp only [SchemaNode.wellShaped_iff, Prod.forall, mem_violations_iff h, not_exists, not_and]
    exact ⟨fun hall a t ht v => hall a v t ht, fun hall a v t ht => hall a t ht v⟩
  · rw [checkShape] at herrors
    split at herrors
    · cases herrors
    · cases herrors
      exact hreport
  · exact (violations_ascending h).imp Earlier.ne
  · exact (violations_ascending h).imp fun hxy => hxy.imp_right And.left
  · refine ⟨t.violations.map fun e => (e.1.text ++ e.2.place, e.2.reason), ?_, ?_⟩
    · have hwithin := within_violations h a
      rw [ht, Option.elim_some] at hwithin
      unfold within at hwithin
      rw [hwithin, List.map_map, List.map_map]
      refine List.map_congr_left fun e _ => congrArg (ConstructionError.mk · _) ?_
      simp only [SchemaAddress.text_append, String.append_assoc]
    · rw [List.map_map]
      refine (errorsAt_eq "root" t).trans (List.map_congr_left fun e _ => ?_)
      exact congrArg (ConstructionError.mk · _) (String.append_assoc ..)

/-- A missing property at the root comes before a bound on texts, which is reported through the
items of an array that is a property. -/
theorem checkShape_by_node_nested :
    let bounded : Schema := Schema.string.withRange (some 0.5) none
    let s : Schema :=
      ((Schema.ofType .object).withProperty "words" (.array bounded)).withRequired ["count"]
    let errors : List ConstructionError :=
      [⟨"root.required", "\"count\" is not a declared property"⟩,
        ⟨"root.words[].minimum", "does not apply to string schemas"⟩]
    let address : SchemaAddress := [.property "words", .items]
    s.Ordered ∧ s.checkShape = .error errors ∧ ¬ bounded.root.WellShaped ∧
      ∃ violations : List (SchemaAddress × Violation),
        (address, .misplaced .minimum .string) ∈ violations ∧
          errors = violations.map fun e => e.2.error ("root" ++ e.1.text) := by
  intro bounded s errors address
  have hleaf : bounded.Ordered := .intro .nil nofun nofun
  have hlist : (Schema.array bounded).Ordered :=
    .intro .nil nofun fun item hitem => Option.some.inj hitem ▸ hleaf
  have hs : s.Ordered :=
    .intro (List.pairwise_singleton ..) (fun e he => List.mem_singleton.mp he ▸ hlist) nofun
  have hshape : s.shapeErrors = errors := by decide +kernel
  have herrors : s.checkShape = .error errors := by rw [checkShape, hshape]
  have hbounded : s.at? address = some bounded := rfl
  have hbreaks : bounded.root.Breaks (.misplaced .minimum .string) := .misplaced rfl rfl
  obtain ⟨-, hreport⟩ := checkShape_by_node s hs
  obtain ⟨violations, heq, hmem, -⟩ := hreport errors herrors
  refine ⟨hs, herrors, fun hshape => ?_, violations, ?_, heq⟩
  · exact SchemaNode.wellShaped_iff.mp hshape _ hbreaks
  · exact (hmem address _).mpr ⟨bounded, hbounded, hbreaks⟩

end Schema

end ContextProtocol
