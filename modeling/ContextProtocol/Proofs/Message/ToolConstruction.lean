import ContextProtocol.Proofs.Message.Tool

/-!
# Tools are made of their last steps

The steps of a tool are taken or refused one by one, each by itself. What the tool is made of is
said by the whole list: its description is the last one, each argument has the last schema it was
given, and a name is required once, where it first was. A step that requires names is never refused
and does not look at the arguments, so it may come before them.

Results:
* `Tool.apply_eq_ok_iff`, `Tool.applyAll_eq_ok_iff`: one step, and all of them.
* `Tool.foldl_after`: the tool that all steps make together.
* `Tool.applyAll_required_last`: steps that require names may come at the end.
* `Tool.new_by_last_steps`: which lists of steps make a tool, which tool they make, and which lists
  come to the same.
-/
namespace ContextProtocol

/-! ## Steps -/

namespace ToolStep

/-- The description that the step gives. -/
def description? : ToolStep → Option String
  | .description text => some text
  | _ => none

/-- The argument that the step describes. -/
def property? : ToolStep → Option (String × Schema)
  | .property name schema => some (name, schema)
  | _ => none

/-- The schema that the step gives to an argument. -/
def schema? (name : String) : ToolStep → Option Schema
  | .property n schema => if n = name then some schema else none
  | _ => none

/-- The names that the step requires. -/
def names : ToolStep → List String
  | .required names => names
  | _ => []

/-- The step requires names. -/
def isRequired : ToolStep → Bool
  | .required _ => true
  | _ => false

/-- The step is not refused. -/
def Accepted : ToolStep → Prop
  | .description text => text ≠ ""
  | .property name _ => name ≠ ""
  | .required _ => True

end ToolStep

/-! ## Required names -/

namespace Schema

theorem addNames_append (required names more : List String) :
    addNames required (names ++ more) = addNames (addNames required names) more :=
  List.foldl_append ..

theorem addNames_cons (required : List String) (name : String) (names : List String) :
    addNames required (name :: names) =
      addNames (if name ∈ required then required else required ++ [name]) names :=
  List.foldl_cons ..

/-- What is appended is what is not there yet, each name where it first comes. -/
theorem addNames_eq (names : List String) : ∀ required : List String,
    addNames required names = required ++ (names.filter fun n => n ∉ required).eraseDups := by
  induction names with
  | nil => intro required; simp [addNames]
  | cons name names ih =>
    intro required
    rw [addNames_cons]
    by_cases hname : name ∈ required
    · simp [hname, ih]
    · have hrest : (names.filter fun n => n ∉ required ++ [name]) =
          (names.filter fun n => n ∉ required).filter fun n => !n == name := by
        rw [List.filter_filter]
        refine List.filter_congr fun n _ => ?_
        by_cases h : n = name <;> simp [h]
      rw [if_neg hname, ih, hrest, List.filter_cons_of_pos (by simpa using hname),
        List.eraseDups_cons, List.append_assoc, List.singleton_append]

theorem addNames_nil (names : List String) : addNames [] names = names.eraseDups := by
  simp [addNames_eq]

end Schema

namespace Tool

variable {t t' : Tool} {steps : List ToolStep}

/-- The tool after a step. -/
def after (t : Tool) : ToolStep → Tool
  | .description text => { t with description := some text }
  | .property name schema => { t with inputSchema := t.inputSchema.withProperty name schema }
  | .required names => { t with inputSchema := t.inputSchema.withRequired names }

theorem apply_eq_ok_iff {step : ToolStep} :
    Validated.apply t step = .ok t' ↔ step.Accepted ∧ t.after step = t' := by
  cases step with
  | description text => exact checkNonEmpty_bind_eq_ok_iff
  | property name schema => exact checkNonEmpty_bind_eq_ok_iff
  | required names => simp [Validated.apply, ToolStep.Accepted, after]

theorem applyAll_eq_ok_iff : applyAll t steps = .ok t' ↔
    (∀ step ∈ steps, step.Accepted) ∧ steps.foldl after t = t' :=
  ContextProtocol.applyAll_eq_ok_iff fun _ _ _ => apply_eq_ok_iff

/-! ## All steps -/

/-- The tool that the steps make. -/
def made (name : String) (steps : List ToolStep) : Tool where
  name
  description := (steps.filterMap ToolStep.description?).getLast?
  inputSchema := .node .object (Entries.ofList (steps.filterMap ToolStep.property?))
    (steps.flatMap ToolStep.names).eraseDups none [] none none none none none

theorem foldl_after (name : String) (steps : List ToolStep) :
    steps.foldl after ⟨name, none, .ofType .object⟩ = made name steps := by
  -- the names that are required are carried along as they are added, one by one
  have hfold : ∀ (t : Tool), steps.foldl after t =
      ⟨t.name, (steps.filterMap ToolStep.description?).getLast?.or t.description,
        t.inputSchema.modify fun s => { s with
          properties := (steps.filterMap ToolStep.property?).foldl
            (fun acc e => Entries.insert e.1 e.2 acc) s.properties
          required := Schema.addNames s.required (steps.flatMap ToolStep.names) }⟩ := by
    induction steps with
    | nil =>
      intro t
      obtain ⟨name, description, ⟨⟩⟩ := t
      rfl
    | cons step steps ih =>
      intro t
      rw [List.foldl_cons, ih]
      cases step with
      | description text =>
        rw [getLast?_filterMap_cons]
        rfl
      | property name schema => rfl
      | required names =>
        simp [after, List.filterMap_cons, ToolStep.description?, ToolStep.property?, ToolStep.names,
          Schema.withRequired, Schema.modify, Schema.addNames_append]
  rw [hfold, Option.or_none]
  simp [made, Schema.modify, Schema.ofRoot, Schema.ofType, Schema.root, Schema.addNames_nil,
    Entries.ofList]

theorem lookup_properties (n : String) (steps : List ToolStep) :
    (Entries.ofList (steps.filterMap ToolStep.property?)).lookup n =
      (steps.filterMap (ToolStep.schema? n)).getLast? := by
  rw [Entries.lookup_ofList_eq_last, List.filterMap_filterMap]
  congr 2
  funext step
  cases step <;> rfl

theorem mem_properties_iff {n : String} : n ∈ (Entries.ofList
    (steps.filterMap ToolStep.property?)).map (·.1) ↔ ∃ s, ToolStep.property n s ∈ steps := by
  constructor
  · intro h
    obtain ⟨⟨_, s⟩, he, rfl⟩ := List.mem_map.mp h
    obtain ⟨step, hstep, hs⟩ := List.mem_filterMap.mp (Entries.mem_ofList he)
    cases step with
    | property name schema => exact ⟨schema, by cases hs; exact hstep⟩
    | _ => cases hs
  · rintro ⟨s, hs⟩
    refine Decidable.not_not.mp fun hnone => ?_
    rw [← Entries.lookup_eq_none_iff, lookup_properties, List.getLast?_eq_none_iff,
      List.filterMap_eq_nil_iff] at hnone
    simpa [ToolStep.schema?] using hnone _ hs

theorem mem_names_iff {n : String} : n ∈ (steps.flatMap ToolStep.names).eraseDups ↔
    ∃ names, .required names ∈ steps ∧ n ∈ names := by
  rw [List.mem_eraseDups, List.mem_flatMap]
  constructor
  · rintro ⟨step, hstep, hn⟩
    cases step with
    | required names => exact ⟨names, hstep, hn⟩
    | _ => cases hn
  · rintro ⟨names, hstep, hn⟩
    exact ⟨_, hstep, hn⟩

/-- The steps make a valid tool when every required name is an argument and nothing is wrong with
any schema that an argument was given last. -/
theorem valid_made_iff {name : String} : Valid (made name steps) ↔ name ≠ "" ∧
    (∀ names, .required names ∈ steps → ∀ n ∈ names, ∃ s, .property n s ∈ steps) ∧
      ∀ n s, (steps.filterMap (ToolStep.schema? n)).getLast? = some s → s.checkShape = .ok () := by
  have htype : (made name steps).inputSchema.root.type = .object := rfl
  rw [valid_iff, and_iff_right htype, Schema.everywhere_iff]
  refine and_congr_right fun _ => and_congr ?root ?properties
  case root =>
    constructor
    · intro h names hnames n hn
      exact mem_properties_iff.mp (h.required rfl n (mem_names_iff.mpr ⟨names, hnames, hn⟩))
    · intro h
      refine { texts := .inr ⟨rfl, rfl, rfl⟩, numbers := .inr ⟨rfl, rfl⟩, arrays := .inr rfl,
               objects := .inl rfl, lengths := nofun, range := nofun, enum := nofun,
               required := fun _ n hn => ?_ }
      obtain ⟨names, hnames, hn⟩ := mem_names_iff.mp hn
      exact mem_properties_iff.mpr (h names hnames n hn)
  case properties =>
    have hmem : ∀ n s, (n, s) ∈ Entries.ofList (steps.filterMap ToolStep.property?) ↔
        (steps.filterMap (ToolStep.schema? n)).getLast? = some s := by
      intro n s
      rw [← lookup_properties]
      exact Table.mem_entries_iff (t := Table.ofList _)
    constructor
    · rintro ⟨h, -⟩ n s hs
      exact Schema.checkShape_eq_ok_iff.mpr (h (n, s) ((hmem n s).mpr hs))
    · intro h
      refine ⟨fun ⟨n, s⟩ he => ?_, nofun⟩
      exact Schema.checkShape_eq_ok_iff.mp (h n s ((hmem n s).mp he))

/-! ## The order of the steps -/

/-- A step that requires names and one that does not come to the same in either order. -/
theorem commute_required (step step' : ToolStep) (h : step.isRequired = true)
    (h' : step'.isRequired = false) : Commute Tool step step' := by
  intro t
  cases step with
  | required names =>
    cases step' with
    | description text => cases hcheck : checkNonEmpty "description" text <;>
        simp [Validated.apply, hcheck]
    | property name schema => cases hcheck : checkNonEmpty "inputSchema.properties" name <;>
        simp [Validated.apply, hcheck, Schema.withProperty, Schema.withRequired, Schema.modify]
    | required names => cases h'
  | _ => cases h

theorem applyAll_required_last (t : Tool) (steps : List ToolStep) :
    applyAll t steps =
      applyAll t (steps.filter (fun s => !s.isRequired) ++ steps.filter ToolStep.isRequired) :=
  applyAll_eq_last ToolStep.isRequired commute_required t steps

/-- Which steps make a tool, and which one: the steps are accepted one by one, every name that is
required is that of an argument, described before or after, and nothing is wrong with any schema
that an argument was given last. The tool has the last description, under each name the last schema,
and the required names in the order in which each first comes. The steps that require names may
stand anywhere among the others. -/
theorem new_by_last_steps (name : String) (steps : List ToolStep) :
    ((∃ t, (new name steps).result = .ok t) ↔
      name ≠ "" ∧ (∀ text, .description text ∈ steps → text ≠ "") ∧
        (∀ n s, .property n s ∈ steps → n ≠ "") ∧
        (∀ names, .required names ∈ steps → ∀ n ∈ names, ∃ s, .property n s ∈ steps) ∧
        ∀ n s, (steps.filterMap (ToolStep.schema? n)).getLast? = some s → s.checkShape = .ok ()) ∧
    (∀ t, (new name steps).result = .ok t → ∃ properties : Dict Schema,
      (∀ n, properties.get? n = (steps.filterMap (ToolStep.schema? n)).getLast?) ∧
        t = ⟨name, (steps.filterMap ToolStep.description?).getLast?,
          .node .object properties.entries (steps.flatMap ToolStep.names).eraseDups none [] none
            none none none none⟩) ∧
    ∀ steps', steps'.filter ToolStep.isRequired = steps.filter ToolStep.isRequired →
      steps'.filter (fun s => !s.isRequired) = steps.filter (fun s => !s.isRequired) →
        new name steps' = new name steps := by
  have hnew : ∀ t, (new name steps).result = .ok t ↔
      ((∀ step ∈ steps, step.Accepted) ∧ made name steps = t) ∧ Valid t := by
    intro t
    rw [new, build_eq_ok_iff, applyAll_eq_ok_iff, foldl_after]
  refine ⟨?accepted, ?made, ?moved⟩
  case accepted =>
    have haccepted : (∀ step ∈ steps, step.Accepted) ↔
        (∀ text, .description text ∈ steps → text ≠ "") ∧
          ∀ n s, .property n s ∈ steps → n ≠ "" := by
      refine ⟨fun h => ⟨fun _ hs => h _ hs, fun _ _ hs => h _ hs⟩, ?_⟩
      rintro ⟨htexts, hnames⟩ step hs
      cases step with
      | description text => exact htexts text hs
      | property n s => exact hnames n s hs
      | required names => trivial
    have hexists : (∃ t, (new name steps).result = .ok t) ↔
        (∀ step ∈ steps, step.Accepted) ∧ Valid (made name steps) := by
      simp only [hnew]
      exact ⟨fun ⟨_, ⟨h, rfl⟩, hvalid⟩ => ⟨h, hvalid⟩, fun ⟨h, hvalid⟩ => ⟨_, ⟨h, rfl⟩, hvalid⟩⟩
    rw [hexists, haccepted, valid_made_iff]
    tauto
  case made =>
    intro t ht
    obtain ⟨⟨-, rfl⟩, -⟩ := (hnew t).mp ht
    exact ⟨Table.ofList (steps.filterMap ToolStep.property?), fun n => lookup_properties n steps,
      rfl⟩
  case moved =>
    intro steps' hrequired hothers
    have happly := applyAll_required_last ⟨name, none, .ofType .object⟩
    unfold new build
    rw [happly steps', hrequired, hothers, ← happly steps]

/-- An argument may be required before it is described, and a schema with a misplaced keyword does
no harm when another one takes its place. -/
theorem new_by_last_steps_replaced :
    let misplaced : Schema := Schema.string.withRange (some 0.5) none
    let described : List ToolStep :=
      [.property "a" misplaced, .property "b" .string, .property "a" .integer]
    let steps : List ToolStep := .required ["b", "a", "b"] :: described
    misplaced.checkShape ≠ .ok () ∧
      (∃ t, (new "t" steps).result = .ok t ∧ t.inputSchema.root.required = ["b", "a"] ∧
        t.inputSchema.root.properties.lookup "a" = some .integer) ∧
      (∀ n s, (steps.filterMap (ToolStep.schema? n)).getLast? = some s → s.checkShape = .ok ()) ∧
      new "t" (described ++ [.required ["b", "a", "b"]]) = new "t" steps := by
  intro misplaced described steps
  obtain ⟨accepted, made, moved⟩ := new_by_last_steps "t" steps
  have hmisplaced : misplaced.checkShape ≠ .ok () := by
    have herrors : misplaced.shapeErrors ≠ [] := by decide +kernel
    rw [Schema.checkShape]
    cases h : misplaced.shapeErrors <;> simp_all
  have hok : (new "t" steps).result.toOption.isSome = true := by decide +kernel
  obtain ⟨t, ht⟩ := Option.isSome_iff_exists.mp hok
  have ht : (new "t" steps).result = .ok t := Outcome.toOption_eq_some_iff.mp ht
  obtain ⟨-, -, -, -, hshapes⟩ := accepted.mp ⟨t, ht⟩
  obtain ⟨properties, hget, heq⟩ := made t ht
  refine ⟨hmisplaced, ⟨t, ht, ?_, ?_⟩, hshapes, moved _ rfl rfl⟩
  · rw [heq]
    rfl
  · rw [heq]
    exact (hget "a").trans rfl

end Tool

end ContextProtocol
