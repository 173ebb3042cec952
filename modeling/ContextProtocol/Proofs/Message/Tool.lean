import ContextProtocol.Message.Tool
import ContextProtocol.Proofs.Message.SchemaTrip
import ContextProtocol.Proofs.Message.Stages
import ContextProtocol.Proofs.Validated

/-!
# Tools on the wire

A tool is accepted when nothing is wrong with its schema, and a bound that is infinite or NaN is
nothing wrong. Such a bound has no number in JSON, so the tool that is decoded is the one that was
encoded without it.

Results:
* `Tool.valid_iff`: which tools are valid.
* `Tool.regular_of_new`: what is asked of the schemas of the arguments holds of the tool.
* `Tool.decode_of_valid`: the tool that arrives in place of a valid one.
* `Tool.keywords_arrive`: a tool that was constructed arrives without its bounds that are not
  finite, so it comes back exactly when there are none.
-/
namespace ContextProtocol

namespace Tool

variable {t : Tool}

/-- The tool as it arrives. -/
def arriving (t : Tool) : Tool := { t with inputSchema := t.inputSchema.arriving }

theorem arriving_eq_self_iff :
    t.arriving = t ↔ t.inputSchema.Everywhere SchemaNode.Finite := by
  rw [← Schema.arriving_eq_self_iff]
  cases t
  simp [arriving]

theorem checkSchema_eq_ok_iff {s : Schema} : checkSchema s = .ok () ↔
    s.root.type = .object ∧ s.Everywhere SchemaNode.WellShaped := by
  have hshape : s.shapeErrors = [] ↔ s.Everywhere SchemaNode.WellShaped :=
    Schema.errorsAt_eq_nil_iff
  rw [← hshape]
  unfold checkSchema
  split
  · rename_i htype
    exact iff_of_false nofun fun h => htype h.1
  · rename_i htype
    rw [and_iff_right (Decidable.not_not.mp htype)]
    cases s.shapeErrors with
    | nil => exact iff_of_true rfl rfl
    | cons first rest => exact iff_of_false nofun nofun

theorem valid_iff : Valid t ↔ t.name ≠ "" ∧ t.inputSchema.root.type = .object ∧
    t.inputSchema.Everywhere SchemaNode.WellShaped := by
  have hvalid : Valid t ↔ checkNonEmpty "name" t.name = .ok () ∧ checkSchema t.inputSchema = .ok () :=
    Outcome.check_bind_eq_ok_iff
  rw [hvalid, checkNonEmpty_eq_ok_iff, checkSchema_eq_ok_iff]

theorem valid_arriving (h : Valid t) : Valid t.arriving := by
  obtain ⟨hname, htype, hshape⟩ := valid_iff.mp h
  refine valid_iff.mpr ⟨hname, ?_, Schema.wellShaped_arriving hshape⟩
  show t.inputSchema.arriving.root.type = .object
  rw [Schema.root_arriving]
  exact htype

/-! ## Construction -/

/-- The schemas of the arguments are regular, at every node. -/
def Regular (steps : List ToolStep) : Prop :=
  ∀ name s, ToolStep.property name s ∈ steps → s.Everywhere SchemaNode.Regular

theorem regular_of_apply {step : ToolStep} {t' : Tool} (h : Validated.apply t step = .ok t')
    (hstep : Regular [step]) (ht : t.inputSchema.Everywhere SchemaNode.Regular) :
    t'.inputSchema.Everywhere SchemaNode.Regular := by
  cases step with
  | description text =>
    obtain ⟨-, rfl⟩ := checkNonEmpty_bind_eq_ok_iff.mp h
    exact ht
  | property name s =>
    obtain ⟨-, rfl⟩ := checkNonEmpty_bind_eq_ok_iff.mp h
    exact Schema.regular_withProperty name ht (hstep name s List.mem_cons_self)
  | required names =>
    cases h
    exact Schema.regular_withRequired names ht

/-- What is constructed from regular schemas is regular. -/
theorem regular_of_new {name : String} {steps : List ToolStep}
    (h : (new name steps).result = .ok t) (hsteps : Regular steps) :
    t.inputSchema.Everywhere SchemaNode.Regular := by
  obtain ⟨happly, -⟩ := build_eq_ok_iff.mp h
  refine applyAll_invariant (fun t : Tool => t.inputSchema.Everywhere SchemaNode.Regular)
    (fun a step hstep b hb ha => regular_of_apply hb (fun name s hs => ?_) ha) happly ?_
  · exact hsteps name s (List.mem_singleton.mp hs ▸ hstep)
  · exact Schema.regular_plain rfl rfl nofun

/-! ## The wire -/

theorem codec_arrives (h : t.inputSchema.Everywhere SchemaNode.Regular) :
    record.codec.Arrives t t.arriving := by
  refine Record.arrives (by decide) ⟨?_, ?_, ?_, trivial⟩
  · exact (Field.holds_required (.string t.name)).arrives
  · exact (Field.holds_optionalText t.description).arrives
  · exact Schema.codec_arrives (h.mono fun _ => SchemaNode.Regular.faithful)

/-- A valid tool is decoded as the tool that arrives. -/
theorem decode_of_valid (h : Valid t) (hregular : t.inputSchema.Everywhere SchemaNode.Regular)
    (hdepth : ((Message.codec : Codec Tool).encode t).depth ≤ Origin.maxDepth) :
    (Wire.decode (Wire.encode t).toUTF8 : Traced DecodeError Tool).result = .ok t.arriving :=
  Wire.decode_eq_ok_iff.mpr ⟨(codec_arrives hregular).run hdepth, valid_arriving h⟩

/-- A tool that was constructed is decoded as itself without the bounds that are not finite, at any
depth of properties and items. So it comes back if and only if its bounds are finite everywhere. -/
theorem keywords_arrive {name : String} {steps : List ToolStep} (hsteps : Regular steps)
    (ht : (new name steps).result = .ok t)
    (hdepth : ((Message.codec : Codec Tool).encode t).depth ≤ Origin.maxDepth) :
    (Wire.decode (Wire.encode t).toUTF8 : Traced DecodeError Tool).result = .ok t.arriving ∧
      ((Wire.decode (Wire.encode t).toUTF8 : Traced DecodeError Tool).result = .ok t ↔
        t.inputSchema.Everywhere SchemaNode.Finite) := by
  have hdecode := decode_of_valid (validate_of_build ht) (regular_of_new ht hsteps) hdepth
  refine ⟨hdecode, ?_⟩
  rw [hdecode, Except.ok.injEq, arriving_eq_self_iff]

theorem keywords_arrive_bounded :
    let values : Schema := .array (Schema.number.withRange (some 0.5) none)
    let steps : List ToolStep := [.property "values" values, .required ["values"]]
    let t : Tool :=
      ⟨"sum", none, ((Schema.ofType .object).withProperty "values" values).withRequired ["values"]⟩
    Regular steps ∧ (new "sum" steps).result = .ok t ∧
      ((Message.codec : Codec Tool).encode t).depth ≤ Origin.maxDepth ∧
      (Wire.decode (Wire.encode t).toUTF8 : Traced DecodeError Tool).result = .ok t := by
  intro values steps t
  have hitem : (Schema.number.withRange (some 0.5) none).Everywhere SchemaNode.Regular :=
    Schema.regular_plain rfl rfl nofun
  have hsteps : Regular steps := by
    intro name s hs
    rcases List.mem_cons.mp hs with h | hs
    · cases h
      exact Schema.regular_plain rfl rfl fun item h => Option.some.inj h ▸ hitem
    · cases List.mem_singleton.mp hs
  have hnew : (new "sum" steps).result = .ok t := rfl
  have hdepth : ((Message.codec : Codec Tool).encode t).depth ≤ Origin.maxDepth := by decide
  have hbound : (Schema.number.withRange (some 0.5) none).Everywhere SchemaNode.Finite :=
    .intro ⟨fun x hx => Option.some.inj hx ▸ (by decide +kernel), nofun⟩ nofun nofun
  have hvalues : values.Everywhere SchemaNode.Finite :=
    .intro ⟨nofun, nofun⟩ nofun fun item hitem => Option.some.inj hitem ▸ hbound
  have hfinite : t.inputSchema.Everywhere SchemaNode.Finite :=
    .intro ⟨nofun, nofun⟩ (fun e he => List.mem_singleton.mp he ▸ hvalues) nofun
  exact ⟨hsteps, hnew, hdepth, (keywords_arrive hsteps hnew hdepth).2.mpr hfinite⟩

/-- A tool with an infinite bound is accepted and does not come back. -/
theorem infinite_bound_lost :
    let bounded : Schema :=
      Schema.number.withRange (some (Decimal.floatOfBits true Decimal.infinityBits)) none
    let steps : List ToolStep := [.property "x" bounded]
    let t : Tool := ⟨"t", none, (Schema.ofType .object).withProperty "x" bounded⟩
    Regular steps ∧ (new "t" steps).result = .ok t ∧
      ((Message.codec : Codec Tool).encode t).depth ≤ Origin.maxDepth ∧
      (Wire.decode (Wire.encode t).toUTF8 : Traced DecodeError Tool).result ≠ .ok t := by
  intro bounded steps t
  have hsteps : Regular steps := by
    intro name s hs
    cases List.mem_singleton.mp hs
    exact Schema.regular_plain rfl rfl nofun
  have hnew : (new "t" steps).result = .ok t := rfl
  have hdepth : ((Message.codec : Codec Tool).encode t).depth ≤ Origin.maxDepth := by decide
  refine ⟨hsteps, hnew, hdepth, ?_⟩
  rw [decode_of_valid (validate_of_build hnew) (regular_of_new hnew hsteps) hdepth]
  intro h
  have hfinite := arriving_eq_self_iff.mp (Except.ok.inj h)
  have hbounded : bounded.Everywhere SchemaNode.Finite :=
    (Schema.everywhere_iff.mp hfinite).2.1 ("x", bounded) List.mem_cons_self
  have hbound := (Schema.everywhere_iff.mp hbounded).1.minimum _ rfl
  exact absurd hbound (by decide +kernel)

end Tool

end ContextProtocol
