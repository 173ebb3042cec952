import ContextProtocol.Message.ErrorData
import ContextProtocol.Proofs.Message.Tagged

/-!
# Error data that reads what it writes

Data of every kind is an object under its tag, and the reader of its kind finds it there. The kinds
are told apart by the tag alone, and an extension may have any tag, also the one of a built-in kind:
then it poses as data of that kind, and nothing but the tag and the fields is left to tell the two
apart.

Results:
* `ErrorData.exists_inMemory`: valid data is in memory as an object under its tag.
* `InMemory.readValidation`, `InMemory.readToolExecution`, `InMemory.readExtension`: the reader of
  its kind finds the data in that object.
* `InMemory.recovered`: the object comes back from its text if the fields of an extension do.
* `ErrorData.form_eq_iff`: data that is written alike is the same, or an extension poses as data of
  a built-in kind.
-/
namespace ContextProtocol

/-! ## The built-in kinds -/

namespace ValidationFailure

theorem roundTrips (f : ValidationFailure) : record.codec.RoundTrips f :=
  Record.roundTrips (by decide)
    ⟨Field.holds_required (.string _), Field.holds_required (.string _), trivial⟩

theorem shallow (f : ValidationFailure) : (record.codec.encode f).Shallow 1 :=
  Record.shallow ⟨fun _ => ⟨by decide, trivial, Nat.zero_le _⟩,
    fun _ => ⟨by decide, trivial, Nat.zero_le _⟩, trivial⟩

end ValidationFailure

theorem ValidationDetails.shallow (d : ValidationDetails) : (codec.encode d).Shallow 3 := by
  refine Record.shallow ⟨fun _ => ⟨by decide, Form.shallow_array ?_⟩, trivial⟩
  intro item hitem
  obtain ⟨f, -, rfl⟩ := List.mem_map.mp hitem
  exact f.shallow

theorem ValidationDetails.taggable (d : ValidationDetails) :
    record.Taggable errorTypeField d where
  names := by decide
  hold := ⟨Field.holds_required (.list fun f _ => f.roundTrips), trivial⟩
  raws := d.shallow.1.raws
  other := by decide
  exact := rfl

theorem ToolExecutionDetails.shallow (d : ToolExecutionDetails) : (codec.encode d).Shallow 3 :=
  Record.shallow ⟨fun _ => ⟨by decide, trivial, Nat.zero_le _⟩,
    fun _ => ⟨by decide, trivial, Nat.zero_le _⟩,
    fun _ => ⟨by decide, trivial, Nat.zero_le _⟩, trivial⟩

theorem ToolExecutionDetails.taggable (d : ToolExecutionDetails) :
    record.Taggable errorTypeField d where
  names := by decide
  hold := by
    refine ⟨Field.holds_required (.string _), Field.holds_required (.string _), ?_, trivial⟩
    unfold Field.Holds
    split
    · rename_i hempty
      exact congrArg some (String.isEmpty_iff.mp hempty).symm
    · exact .string _
  raws := d.shallow.1.raws
  other := by decide
  exact := rfl

/-! ## Data in memory -/

namespace ErrorData

theorem errorTypeField_ne : errorTypeField ≠ Doc.embeddedName := by decide

/-- The fields of an extension are in order, as values in memory are. -/
def Canonical : ErrorData → Prop
  | .extension x => (Json.object x.fields.entries).Canonical
  | _ => True

/-- The fields of an extension come back from their text. -/
def Recovered : ErrorData → Prop
  | .extension x => (Json.object x.fields.entries).Recovered
  | _ => True

/-- No object inside a field of an extension begins with the reserved name. -/
def Bare : ErrorData → Prop
  | .extension x => ∀ e ∈ x.fields.entries, (Form.ofJson e.2).Bare
  | _ => True

theorem Recovered.canonical {d : ErrorData} (h : d.Recovered) : d.Canonical := by
  cases d with
  | extension x => exact Json.Recovered.canonical h
  | _ => trivial

theorem Recovered.bare {d : ErrorData} (h : d.Recovered) : d.Bare := by
  cases d with
  | extension x => exact fun e he => (Json.Recovered.member h he).bare
  | _ => trivial

/-- Data of a kind that belongs to one code. -/
def BuiltIn (d : ErrorData) : Prop := d.expectedCode.isSome = true

/-- The built-in kinds hold nothing of unknown shape. -/
theorem BuiltIn.recovered {d : ErrorData} (h : d.BuiltIn) : d.Recovered := by
  cases d with
  | extension x => cases h
  | _ => trivial

theorem BuiltIn.shallow {d : ErrorData} (h : d.BuiltIn) : d.body.Shallow 3 := by
  cases d with
  | validation w => exact w.shallow
  | toolExecution w => exact w.shallow
  | extension x => cases h

/-- The body of an extension is the object of its fields. -/
theorem body_extension (x : ExtensionDetails) :
    body (.extension x) = Form.ofJson (.object x.fields.entries) := by
  rw [Form.ofJson, Form.ofMembers_eq]
  rfl

/-- The data is in memory as the object. -/
structure InMemory (d : ErrorData) (object : Dict Json) : Prop where
  tagged : taggedObject errorTypeField d.errorType d.body = .ok object
  body_writable : d.body.Writable
  body_raws : d.body.raws = []

theorem exists_inMemory_of_taggable {R : Type} {r : Record R} {w : R} {d : ErrorData}
    (hbody : d.body = r.codec.encode w) (htag : d.errorType ≠ "")
    (h : r.Taggable errorTypeField w) : ∃ object, d.InMemory object := by
  obtain ⟨object, hobject⟩ := h.taggedObject_ok htag
  exact ⟨object, hbody ▸ hobject, hbody ▸ Form.writableMembers_iff.mpr h.hold.written.members,
    hbody ▸ h.raws⟩

theorem exists_inMemory {d : ErrorData} (h : d.Canonical) : ∃ object, d.InMemory object := by
  cases d with
  | validation w =>
    have htag : ValidationDetails.tag ≠ "" := by decide
    exact exists_inMemory_of_taggable rfl htag w.taggable
  | toolExecution w =>
    have htag : ToolExecutionDetails.tag ≠ "" := by decide
    exact exists_inMemory_of_taggable rfl htag w.taggable
  | extension x =>
    refine ⟨_, taggedObject_eq_ok_iff.mpr ⟨x.errorType_ne_empty, x.fields.entries, ?_,
      x.tag_not_mem, rfl⟩, ?_, ?_⟩
    · rw [body_extension, Form.toJson_ofJson _ h]
    · rw [body_extension]
      exact Form.writable_ofJson _
    · rw [body_extension]
      exact Form.raws_ofJson _

namespace InMemory

variable {d : ErrorData} {object : Dict Json} (h : d.InMemory object)
include h

theorem toJson : d.form.toJson = .ok (.object object.entries) :=
  toJson_taggedForm h.body_writable h.body_raws h.tagged

theorem toValue : d.toValue = .ok (.object object.entries) := by
  rw [ErrorData.toValue, h.tagged]
  rfl

theorem body_toJson : d.body.toJson = .ok (.object (object.erase errorTypeField).entries) :=
  erase_taggedObject h.tagged

theorem writable : d.form.Writable :=
  writable_taggedForm h.body_writable h.body_raws h.body_toJson _ _

theorem raws : d.form.raws = [] := by
  have hform : d.form = .object ((errorTypeField, .string d.errorType) ::
      Form.ofMembers (object.erase errorTypeField).entries) :=
    taggedForm_eq h.body_writable h.body_raws h.body_toJson _ _
  rw [hform]
  exact Form.raws_ofMembers _

theorem depth_le : d.form.depth ≤ d.body.depth :=
  depth_taggedForm_le h.body_writable h.body_raws h.body_toJson _ _

/-- The body comes back from its text: the built-in kinds are plain. -/
theorem body_recovered (hd : d.Recovered) {v : Json} (hv : d.body.toJson = .ok v) :
    v.Recovered := by
  have hbuiltIn : d.BuiltIn → v.Recovered := by
    intro hb
    have hsame := Form.ofJson_eq_sorted h.body_writable h.body_raws hv
    refine Json.recovered_iff.mpr ⟨Form.canonical_toJson _ _ hv, ?_, ?_⟩
    · rw [hsame]
      exact hb.shallow.1.sorted.bare
    · rw [hsame]
      exact Nat.le_trans (Form.depth_sorted_le _) (Nat.le_trans hb.shallow.2 (by decide))
  cases d with
  | extension x =>
    rw [body_extension, Form.toJson_ofJson _ (Json.Recovered.canonical hd)] at hv
    exact Except.ok.inj hv ▸ hd
  | _ => exact hbuiltIn rfl

/-- The tag comes first, so only the values of the members count. -/
theorem bare (hc : d.Canonical) (hd : d.Bare) : d.form.Bare := by
  refine bare_taggedForm h.body_writable h.body_raws h.body_toJson errorTypeField_ne ?_
  cases d with
  | extension x =>
    have hbody := h.body_toJson
    rw [body_extension, Form.toJson_ofJson _ hc] at hbody
    rw [← Json.object.inj (Except.ok.inj hbody)]
    exact hd
  | _ => exact fun _ hm => ((h.body_recovered trivial h.body_toJson).member hm).bare

/-- The object comes back from its text. -/
theorem recovered (hd : d.Recovered) (hdepth : d.form.depth ≤ Origin.maxDepth) :
    (Json.object object.entries).Recovered :=
  recovered_taggedObject h.body_writable h.body_raws h.tagged errorTypeField_ne
    (fun _ hv => h.body_recovered hd hv) hdepth

end InMemory

theorem BuiltIn.depth_le {d : ErrorData} (h : d.BuiltIn) : d.form.depth ≤ 3 := by
  obtain ⟨object, hm⟩ := exists_inMemory h.recovered.canonical
  exact Nat.le_trans hm.depth_le h.shallow.2

/-! ## The readers -/

namespace InMemory

variable {object : Dict Json}

theorem readValidation {w : ValidationDetails} (h : (validation w).InMemory object)
    (hw : Valid w) : (readValidation ValidationDetails.tag object).result = .ok (.validation w) := by
  rw [ErrorData.readValidation, Traced.result_map]
  exact congrArg (validation <$> ·) (w.taggable.decodeVariant hw h.tagged)

theorem readToolExecution {w : ToolExecutionDetails} (h : (toolExecution w).InMemory object)
    (hw : Valid w) :
    (readToolExecution ToolExecutionDetails.tag object).result = .ok (.toolExecution w) := by
  rw [ErrorData.readToolExecution, Traced.result_map]
  exact congrArg (toolExecution <$> ·) (w.taggable.decodeVariant hw h.tagged)

/-- Without the tag, the object of an extension is its fields. -/
theorem erase_extension {x : ExtensionDetails} (h : (extension x).InMemory object)
    (hx : (extension x).Canonical) : object.erase errorTypeField = x.fields := by
  have herase := h.body_toJson
  rw [body_extension, Form.toJson_ofJson _ hx] at herase
  exact Table.ext (Json.object.inj (Except.ok.inj herase)).symm

theorem readExtension {x : ExtensionDetails} (h : (extension x).InMemory object)
    (hx : (extension x).Canonical) :
    (readExtension x.errorType object).result = .ok (.extension x) := by
  have hnew : ExtensionDetails.new x.errorType x.fields = .ok x := by
    rw [ExtensionDetails.new, dif_neg x.errorType_ne_empty, dif_pos x.tag_not_mem]
  rw [ErrorData.readExtension, h.erase_extension hx, hnew]
  rfl

end InMemory

theorem readValidation_eq_ok {tag : String} {object : Dict Json} {d : ErrorData}
    (h : (readValidation tag object).result = .ok d) : ∃ w, d = .validation w ∧ Valid w := by
  rw [readValidation, Traced.map_eq_ok_iff] at h
  obtain ⟨w, hw, rfl⟩ := h
  exact ⟨w, rfl, valid_of_decodeVariant hw⟩

theorem readToolExecution_eq_ok {tag : String} {object : Dict Json} {d : ErrorData}
    (h : (readToolExecution tag object).result = .ok d) :
    ∃ w, d = .toolExecution w ∧ Valid w := by
  rw [readToolExecution, Traced.map_eq_ok_iff] at h
  obtain ⟨w, hw, rfl⟩ := h
  exact ⟨w, rfl, valid_of_decodeVariant hw⟩

theorem readExtension_eq_ok {tag : String} {object : Dict Json} {d : ErrorData}
    (h : (readExtension tag object).result = .ok d) :
    ∃ x, d = .extension x ∧ x.errorType = tag ∧ x.fields = object.erase errorTypeField := by
  rw [readExtension, Traced.result_ofExcept, Outcome.mapError_eq_ok_iff, Outcome.map_eq_ok_iff] at h
  obtain ⟨x, hx, rfl⟩ := h
  unfold ExtensionDetails.new at hx
  split at hx
  · cases hx
  · split at hx
    · cases hx
      exact ⟨_, rfl, rfl, rfl⟩
    · cases hx

/-! ## Data that is written alike -/

/-- An extension that is written like data of a built-in kind: it has the tag of that kind, and its
fields are the members of the data. -/
def Poses (d d' : ErrorData) : Prop :=
  ∃ x, d = .extension x ∧ d'.BuiltIn ∧ x.errorType = d'.errorType ∧
    d'.body.toJson = .ok (.object x.fields.entries)

theorem Poses.form_eq {d d' : ErrorData} (h : d.Poses d') (hd : d.Canonical) : d.form = d'.form := by
  obtain ⟨x, rfl, hbuiltIn, htag, hbody⟩ := h
  obtain ⟨object, hm⟩ := exists_inMemory hd
  obtain ⟨object', hm'⟩ := exists_inMemory hbuiltIn.recovered.canonical
  have hfields := hm.body_toJson
  rw [hm.erase_extension hd] at hfields
  have hform : form (.extension x) = .object ((errorTypeField, .string x.errorType) ::
      Form.ofMembers x.fields.entries) :=
    taggedForm_eq hm.body_writable hm.body_raws hfields _ _
  have hform' : d'.form = .object ((errorTypeField, .string d'.errorType) ::
      Form.ofMembers x.fields.entries) :=
    taggedForm_eq hm'.body_writable hm'.body_raws hbody _ _
  rw [hform, hform', htag]

/-- Only by posing as data of a built-in kind is data written like other data. -/
theorem form_eq_iff {d d' : ErrorData} (hd : d.Canonical) (hd' : d'.Canonical) (hv : Valid d)
    (hv' : Valid d') : d.form = d'.form ↔ d = d' ∨ d.Poses d' ∨ d'.Poses d := by
  constructor
  · intro hform
    obtain ⟨object, hm⟩ := exists_inMemory hd
    obtain ⟨object', hm'⟩ := exists_inMemory hd'
    have hobject : object = object' := by
      have hjson := hm.toJson
      rw [hform, hm'.toJson] at hjson
      exact Table.ext (Json.object.inj (Except.ok.inj hjson)).symm
    have htag : d.errorType = d'.errorType := by
      have hsame := (taggedForm_eq hm.body_writable hm.body_raws hm.body_toJson errorTypeField
        d.errorType).symm.trans (hform.trans (taggedForm_eq hm'.body_writable hm'.body_raws
          hm'.body_toJson errorTypeField d'.errorType))
      injection hsame with hmembers
      injection hmembers with hfirst
      injection hfirst with _ hfirst
      injection hfirst
    subst hobject
    -- the same object under the same tag: two kinds differ only where one is an extension
    have hpose : ∀ x, d = .extension x → d'.BuiltIn → d.Poses d' := by
      rintro x rfl hbuiltIn
      refine ⟨x, rfl, hbuiltIn, htag, ?_⟩
      rw [← hm.erase_extension hd]
      exact hm'.body_toJson
    have hpose' : ∀ x, d' = .extension x → d.BuiltIn → d'.Poses d := by
      rintro x rfl hbuiltIn
      refine ⟨x, rfl, hbuiltIn, htag.symm, ?_⟩
      rw [← hm'.erase_extension hd']
      exact hm.body_toJson
    cases d with
    | validation w =>
      cases d' with
      | validation w' =>
        exact .inl (Except.ok.inj ((hm.readValidation hv).symm.trans (hm'.readValidation hv')))
      | toolExecution w' =>
        have htags : ValidationDetails.tag = ToolExecutionDetails.tag := htag
        exact absurd htags (by decide)
      | extension x => exact .inr (.inr (hpose' x rfl rfl))
    | toolExecution w =>
      cases d' with
      | validation w' =>
        have htags : ToolExecutionDetails.tag = ValidationDetails.tag := htag
        exact absurd htags (by decide)
      | toolExecution w' =>
        exact .inl (Except.ok.inj ((hm.readToolExecution hv).symm.trans (hm'.readToolExecution hv')))
      | extension x => exact .inr (.inr (hpose' x rfl rfl))
    | extension x =>
      cases d' with
      | validation w => exact .inr (.inl (hpose x rfl rfl))
      | toolExecution w => exact .inr (.inl (hpose x rfl rfl))
      | extension y =>
        have hread := hm.readExtension hd
        have htag' : x.errorType = y.errorType := htag
        rw [htag'] at hread
        exact .inl (Except.ok.inj (hread.symm.trans (hm'.readExtension hd')))
  · rintro (rfl | h | h)
    · rfl
    · exact h.form_eq hd
    · exact (h.form_eq hd').symm

end ErrorData

end ContextProtocol
