import ContextProtocol.Proofs.Message.ErrorInfo
import ContextProtocol.Proofs.Shape.Inversion
import ContextProtocol.Proofs.Shape.Rawless

/-!
# Errors read through a registry

Reading an error again needs that the tag that was written leads back to the kind that wrote it. The
invariant of a registry says where its routes lead: the pairs of the built-in kinds to their own
readers, and every other pair to the reader of extensions. An extension under the pair of a built-in
kind is read as data of that kind, so it is the only error that gets lost.

Results:
* `ErrorRegistry.Extended.routed`: the invariant holds of every registry that is built from the new
  one by fallbacks and extensions.
* `ErrorInfo.decodeWith_of_leads`: an error comes back when its tag leads to its kind.
* `ErrorInfo.decodeWith_iff`: of the constructed errors whose kinds are registered, exactly the
  extensions under a pair of a built-in kind do not come back.
* `ErrorInfo.decodeWith_again`: whatever was read comes back.
-/
namespace ContextProtocol

/-! ## Registries -/

namespace ErrorRegistry

/-- The pairs of a code and a tag that belong to the built-in kinds. -/
def Reserved (code : Int32) (tag : String) : Prop :=
  (code = ErrorCode.invalidParams.code ∧ tag = ValidationDetails.tag) ∨
    (code = ErrorCode.internalError.code ∧ tag = ToolExecutionDetails.tag)

/-- The registries that are built from the new one by setting fallbacks and by registering extensions
under pairs that belong to no built-in kind. -/
inductive Extended : ErrorRegistry → Prop where
  | new : Extended .new
  | withDefault {r : ErrorRegistry} (code : Int32) (tag : String) (h : Extended r) :
      Extended (r.withDefault code tag)
  | register {r : ErrorRegistry} {code : Int32} {tag : String} (hpair : ¬ Reserved code tag)
      (h : Extended r) : Extended (r.register code tag ErrorData.readExtension)

/-- Where the routes lead. -/
structure Routed (r : ErrorRegistry) : Prop where
  validation : r.routes.get? (ErrorCode.invalidParams.code, ValidationDetails.tag) =
    some ErrorData.readValidation
  toolExecution : r.routes.get? (ErrorCode.internalError.code, ToolExecutionDetails.tag) =
    some ErrorData.readToolExecution
  others : ∀ {code tag reader}, r.routes.get? (code, tag) = some reader → ¬ Reserved code tag →
    reader = ErrorData.readExtension

theorem routes_withDefault (r : ErrorRegistry) (code : Int32) (tag : String) :
    (r.withDefault code tag).routes = r.routes := by
  unfold withDefault
  split <;> rfl

theorem Routed.register {r : ErrorRegistry} (h : r.Routed) {code : Int32} {tag : String}
    (hpair : ¬ Reserved code tag) : (r.register code tag ErrorData.readExtension).Routed where
  validation := by
    refine (Table.get?_insert_of_ne _ ?_ _).trans h.validation
    rintro heq
    cases heq
    exact hpair (.inl ⟨rfl, rfl⟩)
  toolExecution := by
    refine (Table.get?_insert_of_ne _ ?_ _).trans h.toolExecution
    rintro heq
    cases heq
    exact hpair (.inr ⟨rfl, rfl⟩)
  others := by
    intro code' tag' reader hget hpair'
    by_cases heq : (code', tag') = (code, tag)
    · rw [heq] at hget
      exact (Option.some.inj (hget.symm.trans (Table.get?_insert_self ..)))
    · exact h.others ((Table.get?_insert_of_ne _ heq _).symm.trans hget) hpair'

theorem routed_new : new.Routed where
  validation := rfl
  toolExecution := rfl
  others := by
    intro code tag reader hget hpair
    have hmem := Entries.mem_of_lookup hget
    have hroutes : new.routes.entries =
        [((ErrorCode.internalError.code, ToolExecutionDetails.tag), ErrorData.readToolExecution),
          ((ErrorCode.invalidParams.code, ValidationDetails.tag), ErrorData.readValidation)] := rfl
    rw [hroutes] at hmem
    rcases List.mem_cons.mp hmem with heq | hmem
    · cases heq
      exact absurd (.inr ⟨rfl, rfl⟩) hpair
    · cases List.mem_singleton.mp hmem
      exact absurd (.inl ⟨rfl, rfl⟩) hpair

/-- The invariant of the registries that are built from the new one. -/
theorem Extended.routed {r : ErrorRegistry} (h : Extended r) : r.Routed := by
  induction h with
  | new => exact routed_new
  | @withDefault r code tag _ ih =>
    have hroutes := routes_withDefault r code tag
    exact ⟨hroutes ▸ ih.validation, hroutes ▸ ih.toolExecution, hroutes ▸ ih.others⟩
  | register hpair _ ih => exact ih.register hpair

theorem knowsCode_of_get? {r : ErrorRegistry} {code : Int32} {tag : String}
    {reader : ErrorData.Reader} (h : r.routes.get? (code, tag) = some reader) :
    r.knowsCode code = true := by
  refine List.any_eq_true.mpr ⟨(code, tag), ?_, decide_eq_true rfl⟩
  exact List.mem_map_of_mem (f := (·.1)) (Entries.mem_of_lookup h)

/-- What an object is read as under a code and a tag. -/
def readTagged (r : ErrorRegistry) (code : Int32) (tag : String) (object : Dict Json) :
    Except DecodeError ErrorData :=
  match r.routes.get? (code, tag) with
  | none => .error (.unknownErrorType code tag)
  | some reader => (reader tag object).result

/-- Under a known code, an object is read under its tag or the fallback of the code. -/
theorem decode_of_splitTag {r : ErrorRegistry} {code : Int32} {v : Json} {tag? : Option String}
    {object : Dict Json} (hknown : r.knowsCode code = true)
    (h : splitTag errorTypeField v = .ok (tag?, object)) : (r.decode code v).result =
      match tag?.or (r.defaults.get? code) with
      | none => .ok none
      | some tag => some <$> r.readTagged code tag object := by
  unfold decode
  rw [hknown, h]
  simp only [Bool.not_true, Bool.false_eq_true, if_false, Traced.result_bind, Traced.result_liftM,
    Outcome.ok_bind]
  cases tag?.or (r.defaults.get? code) with
  | none => rfl
  | some tag =>
    dsimp only
    rw [readTagged]
    cases r.routes.get? (code, tag) with
    | none => rfl
    | some reader => exact Traced.result_map _ _

theorem decode_of_splitTag_error {r : ErrorRegistry} {code : Int32} {v : Json} {e : DecodeError}
    (hknown : r.knowsCode code = true) (h : splitTag errorTypeField v = .error e) :
    (r.decode code v).result = .error e := by
  unfold decode
  rw [hknown, h]
  rfl

/-- An object that holds a tag with a reader is read by it. -/
theorem decode_tagged {r : ErrorRegistry} {code : Int32} {d : ErrorData} {object : Dict Json}
    {reader : ErrorData.Reader} (hreader : r.routes.get? (code, d.errorType) = some reader)
    (hm : d.InMemory object) (hobject : (Json.object object.entries).Recovered) :
    (r.decode code (.object object.entries)).result =
      some <$> (reader d.errorType object).result := by
  have hkept : ∀ e ∈ object.entries, Json.ofDoc .value (Doc.ofForm (Form.ofJson e.2)) = .ok e.2 :=
    fun e he => (hobject.member he).ofDoc trivial
  rw [decode_of_splitTag (knowsCode_of_get? hreader) (splitTag_taggedObject hm.tagged hkept)]
  simp only [Option.some_or, readTagged, hreader]

/-- The tag of the data leads to a reader that finds the data in memory. -/
def LeadsTo (r : ErrorRegistry) (code : Int32) (d : ErrorData) : Prop :=
  ∃ reader, r.routes.get? (code, d.errorType) = some reader ∧
    ∀ object, d.InMemory object → (reader d.errorType object).result = .ok d

/-- Data that was not dropped was read by the reader of its tag. -/
theorem decode_eq_some {r : ErrorRegistry} {code : Int32} {v : Json} {d : ErrorData}
    (h : (r.decode code v).result = .ok (some d)) :
    ∃ tag? tag object reader, splitTag errorTypeField v = .ok (tag?, object) ∧
      r.routes.get? (code, tag) = some reader ∧ (reader tag object).result = .ok d := by
  unfold decode at h
  dsimp only at h
  split at h
  · cases h
  · rw [Traced.bind_eq_ok_iff, Traced.result_liftM] at h
    obtain ⟨⟨tag?, object⟩, hsplit, h⟩ := h
    dsimp only at h
    split at h
    · cases h
    · rename_i tag htag
      split at h
      · cases h
      · rename_i reader hreader
        rw [Traced.map_eq_ok_iff] at h
        obtain ⟨d', hd, heq⟩ := h
        cases heq
        exact ⟨tag?, tag, object, reader, hsplit, hreader, hd⟩

theorem lt_errorTypeField : KeyOrder.lt Doc.embeddedName errorTypeField = true := by decide

/-- What was read is led back to its kind by the registry that led to it, and it is not deeper than
what it was read from. -/
theorem Routed.decode {r : ErrorRegistry} (hr : r.Routed) {code : Int32} {v : Json} {d : ErrorData}
    (hv : v.Recovered) (h : (r.decode code v).result = .ok (some d)) :
    r.LeadsTo code d ∧ d.Recovered ∧ d.form.depth ≤ max 3 (Form.ofJson v).depth := by
  obtain ⟨tag?, tag, object, reader, hsplit, hreader, hd⟩ := decode_eq_some h
  obtain rfl := eq_object_of_splitTag hv hsplit
  -- the pair says which reader it was, also when the tag is the fallback of the code
  by_cases hpair : Reserved code tag
  · rcases hpair with ⟨rfl, rfl⟩ | ⟨rfl, rfl⟩
    · obtain rfl := Option.some.inj (hr.validation.symm.trans hreader)
      obtain ⟨w, rfl, hw⟩ := ErrorData.readValidation_eq_ok hd
      have hbuiltIn : (ErrorData.validation w).BuiltIn := rfl
      exact ⟨⟨_, hreader, fun object hm => hm.readValidation hw⟩, trivial,
        Nat.le_trans hbuiltIn.depth_le (Nat.le_max_left _ _)⟩
    · obtain rfl := Option.some.inj (hr.toolExecution.symm.trans hreader)
      obtain ⟨w, rfl, hw⟩ := ErrorData.readToolExecution_eq_ok hd
      have hbuiltIn : (ErrorData.toolExecution w).BuiltIn := rfl
      exact ⟨⟨_, hreader, fun object hm => hm.readToolExecution hw⟩, trivial,
        Nat.le_trans hbuiltIn.depth_le (Nat.le_max_left _ _)⟩
  · obtain rfl := hr.others hreader hpair
    obtain ⟨x, rfl, rfl, hfields⟩ := ErrorData.readExtension_eq_ok hd
    have hback : (ErrorData.extension x).Recovered := by
      show (Json.object x.fields.entries).Recovered
      rw [hfields]
      exact hv.erase lt_errorTypeField
    refine ⟨⟨_, hreader, fun object hm => hm.readExtension hback.canonical⟩, hback, ?_⟩
    obtain ⟨object', hm⟩ := ErrorData.exists_inMemory hback.canonical
    have hbody : (ErrorData.extension x).body.depth ≤ (Form.ofJson (.object object.entries)).depth := by
      rw [ErrorData.body_extension, hfields]
      exact Json.depth_object_mono fun m hm => (List.mem_filter.mp hm).1
    exact Nat.le_trans hm.depth_le (Nat.le_trans hbody (Nat.le_max_right _ _))

end ErrorRegistry

/-! ## Errors in memory -/

namespace ErrorInfo

variable {i : ErrorInfo} {r : ErrorRegistry}

/-- What stands in memory for the data of an error. -/
def DataInMemory (i : ErrorInfo) (data : Option Json) : Prop :=
  match i.data with
  | none => data = none
  | some d => ∃ object, d.InMemory object ∧ data = some (.object object.entries)

theorem DataInMemory.eq_some {data : Option Json} (h : i.DataInMemory data) {v : Json}
    (hv : data = some v) :
    ∃ d object, i.data = some d ∧ d.InMemory object ∧ v = .object object.entries := by
  obtain ⟨code, message, d?⟩ := i
  cases d? with
  | none =>
    have hnone : data = none := h
    rw [hv] at hnone
    cases hnone
  | some d =>
    obtain ⟨object, hm, heq⟩ := h
    rw [hv] at heq
    exact ⟨d, object, rfl, hm, Option.some.inj heq⟩

theorem DataInMemory.recovered {data : Option Json} (h : i.DataInMemory data) (hi : i.Recovered)
    (hdepth : i.form.depth ≤ Origin.maxDepth) {v : Json} (hv : data = some v) : v.Recovered := by
  obtain ⟨d, object, hd, hm, rfl⟩ := h.eq_some hv
  have hinner : d.form.depth ≤ 126 := depth_form_le_iff.mp hdepth d hd
  exact hm.recovered (hi d hd) (Nat.le_trans hinner (by decide))

/-- In memory, an error is the record of its members before the data is read. -/
theorem DataInMemory.toJson {data : Option Json} (h : i.DataInMemory data)
    (hdata : ∀ v, data = some v → v.Canonical) :
    i.form.toJson = (ErrorMembers.record.codec.encode ⟨i.code, i.message, data⟩).toJson := by
  obtain ⟨code, message, d?⟩ := i
  cases d? with
  | none =>
    have hnone : data = none := h
    rw [hnone]
    rfl
  | some d =>
    obtain ⟨object, hm, rfl⟩ := h
    have hsame : (Form.ofJson (.object object.entries)).toJson = d.form.toJson := by
      rw [hm.toJson, Form.toJson_ofJson _ (hdata _ rfl)]
    have hmembers : Form.toJsonMembers [("code", .integer code.toInt), ("message", .string message),
        ("data", d.form)] = Form.toJsonMembers [("code", .integer code.toInt),
          ("message", .string message), ("data", Form.ofJson (.object object.entries))] := by
      simp only [Form.toJsonMembers, hsame]
    exact congrArg (fun found => found.map Json.ofMembers) hmembers

theorem members_roundTrips {m : ErrorMembers}
    (h : ∀ v, m.data = some v → v.Recovered ∧ v ≠ .null) : ErrorMembers.record.codec.RoundTrips m :=
  Record.roundTrips (by decide) ⟨Field.holds_required (.int32 _), Field.holds_required (.string _),
    Field.holds_optional fun v hv => ⟨.json (h v hv).1, Codec.present_json (h v hv).2⟩, trivial⟩

/-- What the registry makes of the data of an error. -/
def readData (r : ErrorRegistry) (code : Int32) :
    Option Json → Except DecodeError (Option ErrorData)
  | none => .ok none
  | some v => (r.decode code v).result

/-- The members are read, then the data, and last the rules are looked at. -/
theorem result_fromValueWith (r : ErrorRegistry) (v : Json) : (fromValueWith r v).result =
    ((ErrorMembers.record.decode.runValue v).result.mapError DecodeError.json >>= fun m =>
      readData r m.code m.data >>= fun data =>
        (validate (⟨m.code, m.message, data⟩ : ErrorInfo)).mapError DecodeError.invalid >>=
          fun _ => .ok ⟨m.code, m.message, data⟩) := by
  unfold fromValueWith
  rw [Traced.result_bind, Traced.result_mapError]
  refine congrArg _ (funext fun m => ?_)
  obtain ⟨code, message, data⟩ := m
  cases data <;> simp only [Traced.result_bind, Traced.result_pure, Traced.result_liftM] <;> rfl

theorem fromValueWith_eq_ok_iff {v : Json} : (fromValueWith r v).result = .ok i ↔
    ∃ m, (ErrorMembers.record.decode.runValue v).result = .ok m ∧ i.code = m.code ∧
      i.message = m.message ∧ readData r m.code m.data = .ok i.data ∧ Valid i := by
  rw [result_fromValueWith, Outcome.bind_eq_ok_iff]
  constructor
  · rintro ⟨m, hm, h⟩
    obtain ⟨data, hdata, h⟩ := Outcome.bind_eq_ok_iff.mp h
    obtain ⟨u, hvalid, h⟩ := Outcome.bind_eq_ok_iff.mp h
    cases h
    exact ⟨m, Outcome.mapError_eq_ok_iff.mp hm, rfl, rfl, hdata,
      Outcome.mapError_eq_ok_iff.mp hvalid⟩
  · rintro ⟨m, hm, hcode, hmessage, hdata, hvalid⟩
    obtain ⟨code, message, data⟩ := i
    cases hcode
    cases hmessage
    refine ⟨m, Outcome.mapError_eq_ok_iff.mpr hm, Outcome.bind_eq_ok_iff.mpr ⟨_, hdata, ?_⟩⟩
    exact Outcome.bind_eq_ok_iff.mpr ⟨(), Outcome.mapError_eq_ok_iff.mpr hvalid, rfl⟩

theorem decodeWith_eq_ok_iff {bytes : ByteArray} : (decodeWith r bytes).result = .ok i ↔
    ∃ v, Json.parseBytes bytes = .ok v ∧ (fromValueWith r v).result = .ok i := by
  unfold decodeWith
  rw [Traced.bind_eq_ok_iff, Traced.result_liftM]
  simp only [Outcome.mapError_eq_ok_iff]

/-- An error is read from memory just when the registry makes its data of what stands for it. -/
theorem fromValueWith_form {data : Option Json} (h : i.DataInMemory data) (hi : i.Recovered)
    (hdepth : i.form.depth ≤ Origin.maxDepth) {v : Json} (hv : i.form.toJson = .ok v) :
    (fromValueWith r v).result = .ok i ↔ readData r i.code data = .ok i.data ∧ Valid i := by
  have hrecovered := fun v hv => h.recovered hi hdepth (v := v) hv
  have hobject : ∀ v, data = some v → v.Recovered ∧ v ≠ .null := by
    intro v hv
    obtain ⟨d, object, -, -, rfl⟩ := h.eq_some hv
    exact ⟨hrecovered _ hv, nofun⟩
  have hround := members_roundTrips (m := ⟨i.code, i.message, data⟩) hobject
  have hraws : (ErrorMembers.record.codec.encode ⟨i.code, i.message, data⟩).raws = [] := by
    have hrawless : ErrorMembers.record.codec.Rawless :=
      Record.rawless ⟨.int32, .string, .option .json, trivial⟩
    exact hrawless _
  rw [h.toJson fun v hv => (hrecovered v hv).canonical] at hv
  have hmembers : (ErrorMembers.record.decode.runValue v).result =
      .ok ⟨i.code, i.message, data⟩ := hround.runValue hraws hv
  rw [fromValueWith_eq_ok_iff]
  constructor
  · rintro ⟨m, hm, -, -, hdata, hvalid⟩
    rw [hmembers] at hm
    cases hm
    exact ⟨hdata, hvalid⟩
  · rintro ⟨hdata, hvalid⟩
    exact ⟨_, hmembers, rfl, rfl, hdata, hvalid⟩

/-- An error with data is read from memory just when the reader of its tag finds the data. -/
theorem fromValueWith_data {d : ErrorData} (hd : i.data = some d) (hi : i.Recovered)
    (hdepth : i.form.depth ≤ Origin.maxDepth) (hvalid : Valid i) {reader : ErrorData.Reader}
    (hreader : r.routes.get? (i.code, d.errorType) = some reader) {object : Dict Json}
    (hm : d.InMemory object) {v : Json} (hv : i.form.toJson = .ok v) :
    (fromValueWith r v).result = .ok i ↔ (reader d.errorType object).result = .ok d := by
  have hdata : i.DataInMemory (some (.object object.entries)) := by
    unfold DataInMemory
    rw [hd]
    exact ⟨object, hm, rfl⟩
  have hrecovered := hdata.recovered hi hdepth rfl
  rw [fromValueWith_form hdata hi hdepth hv, readData,
    ErrorRegistry.decode_tagged hreader hm hrecovered, hd, Outcome.fmap_eq_ok_iff]
  constructor
  · rintro ⟨⟨d', hread, heq⟩, -⟩
    cases heq
    exact hread
  · exact fun hread => ⟨⟨d, hread, rfl⟩, hvalid⟩

/-- In the text of an error stands the error in memory. -/
theorem decodeWith_form (hi : i.Recovered) (hdepth : i.form.depth ≤ Origin.maxDepth) :
    ∃ v, i.form.toJson = .ok v ∧ ∀ j, (decodeWith r i.form.text.toUTF8).result = .ok j ↔
      (fromValueWith r v).result = .ok j := by
  obtain ⟨v, hv⟩ := Form.exists_toJson (raws_form hi.canonical)
  have hparse : Json.parseBytes i.form.text.toUTF8 = .ok v :=
    (Json.parseBytes_text (writable_form hi.canonical) (bare_form hi.canonical hi.bare) hdepth).trans hv
  refine ⟨v, hv, fun j => ?_⟩
  rw [decodeWith_eq_ok_iff, hparse]
  constructor
  · rintro ⟨w, hw, hread⟩
    cases hw
    exact hread
  · exact fun hread => ⟨v, rfl, hread⟩

/-! ## Errors that come back -/

/-- An error is found in memory when its tag leads to its kind. -/
theorem fromValueWith_of_leads (h : ∀ d, i.data = some d → r.LeadsTo i.code d) (hi : i.Recovered)
    (hvalid : Valid i) (hdepth : i.form.depth ≤ Origin.maxDepth) {v : Json}
    (hv : i.form.toJson = .ok v) : (fromValueWith r v).result = .ok i := by
  cases hd : i.data with
  | none =>
    have hdata : i.DataInMemory none := by
      unfold DataInMemory
      rw [hd]
    rw [fromValueWith_form hdata hi hdepth hv, hd]
    exact ⟨rfl, hvalid⟩
  | some d =>
    obtain ⟨reader, hreader, hread⟩ := h d hd
    obtain ⟨object, hm⟩ := ErrorData.exists_inMemory (hi d hd).canonical
    exact (fromValueWith_data hd hi hdepth hvalid hreader hm hv).mpr (hread object hm)

/-- An error comes back from its text when its tag leads to its kind. -/
theorem decodeWith_of_leads (h : ∀ d, i.data = some d → r.LeadsTo i.code d) (hi : i.Recovered)
    (hvalid : Valid i) (hdepth : i.form.depth ≤ Origin.maxDepth) :
    (decodeWith r i.form.text.toUTF8).result = .ok i := by
  obtain ⟨v, hv, hread⟩ := decodeWith_form (r := r) hi hdepth
  exact (hread i).mpr (fromValueWith_of_leads h hi hvalid hdepth hv)

/-- Data of a built-in kind is led back, and so is an extension under a pair of its own. -/
theorem leads_of_routed (hr : r.Routed) (hvalid : Valid i) (hi : i.Canonical)
    (hext : ∀ x, i.data = some (.extension x) →
      r.routes.contains (i.code, x.errorType) = true ∧
        ¬ ErrorRegistry.Reserved i.code x.errorType) :
    ∀ d, i.data = some d → r.LeadsTo i.code d := by
  intro d hd
  have hvd := (valid_iff.mp hvalid d hd).2
  cases d with
  | validation w =>
    rw [code_eq_of_valid hvalid hd rfl]
    exact ⟨_, hr.validation, fun object hm => hm.readValidation hvd⟩
  | toolExecution w =>
    rw [code_eq_of_valid hvalid hd rfl]
    exact ⟨_, hr.toolExecution, fun object hm => hm.readToolExecution hvd⟩
  | extension x =>
    obtain ⟨hknown, hpair⟩ := hext x hd
    obtain ⟨reader, hreader⟩ := Option.isSome_iff_exists.mp hknown
    obtain rfl := hr.others hreader hpair
    exact ⟨_, hreader, fun object hm => hm.readExtension (hi _ hd)⟩

/-- Of the errors whose kinds are registered, those come back that are no extension under a pair of a
built-in kind. -/
theorem decodeWith_iff (hr : r.Routed) (hvalid : Valid i) (hi : i.Recovered)
    (hdepth : i.form.depth ≤ Origin.maxDepth)
    (hknown : ∀ x, i.data = some (.extension x) →
      r.routes.contains (i.code, x.errorType) = true) :
    (decodeWith r i.form.text.toUTF8).result = .ok i ↔
      ∀ x, i.data = some (.extension x) → ¬ ErrorRegistry.Reserved i.code x.errorType := by
  constructor
  · intro hread x hx hpair
    obtain ⟨reader, hreader, hother⟩ : ∃ reader,
        r.routes.get? (i.code, x.errorType) = some reader ∧
          ∀ tag object, (reader tag object).result ≠ .ok (.extension x) := by
      rcases hpair with ⟨hcode, htag⟩ | ⟨hcode, htag⟩
      · refine ⟨_, by rw [hcode, htag]; exact hr.validation, fun tag object h => ?_⟩
        obtain ⟨w, hw, -⟩ := ErrorData.readValidation_eq_ok h
        cases hw
      · refine ⟨_, by rw [hcode, htag]; exact hr.toolExecution, fun tag object h => ?_⟩
        obtain ⟨w, hw, -⟩ := ErrorData.readToolExecution_eq_ok h
        cases hw
    obtain ⟨object, hm⟩ := ErrorData.exists_inMemory (hi _ hx).canonical
    obtain ⟨v, hv, hform⟩ := decodeWith_form (r := r) hi hdepth
    exact hother _ _
      ((fromValueWith_data hx hi hdepth hvalid hreader hm hv).mp ((hform i).mp hread))
  · intro hpair
    exact decodeWith_of_leads (leads_of_routed hr hvalid hi.canonical fun x hx =>
      ⟨hknown x hx, hpair x hx⟩) hi hvalid hdepth

/-! ## Errors that were read -/

/-- The data of an error in a value stands in that value. -/
theorem data_of_members {v : Json} (hv : v.Recovered) {m : ErrorMembers}
    (h : (ErrorMembers.record.decode.runValue v).result = .ok m) {w : Json}
    (hw : m.data = some w) :
    w.Recovered ∧ (Form.ofJson w).depth + 1 ≤ (Form.ofJson v).depth := by
  have hdecode : (ErrorMembers.record.codec.decode .value (Doc.sourced v)).result = .ok m := h
  obtain ⟨inner, ⟨code, message, data, ⟨⟩⟩, henter, rfl, -, -, hdata, -⟩ :=
    Record.from_of_decode hdecode
  cases henter
  have hdata' : data = some w := hw
  subst hdata'
  rcases hdata with ⟨d, hholds, hread⟩ | habsent
  · obtain ⟨w', rfl, hdepth, hback⟩ := Json.holds_sourced hholds
    have hrecovered := hback hv
    have hjson : (Decoder.json .value (Doc.sourced w')).result = .ok w' := by
      rw [Doc.sourced_eq]
      exact hrecovered.ofDoc trivial
    have hsame : w = w' := by
      by_cases hnull : w' = .null
      · subst hnull
        cases hread
      · have hsome : (Decoder.json.option .value (Doc.sourced w')).result = .ok (some w') := by
          have hpresent := Codec.present_json hnull .written
          rw [Doc.sourced_eq] at hjson ⊢
          exact Decoder.option_eq_some hpresent.1 hpresent.2 hjson
        exact Option.some.inj (Except.ok.inj (hread.symm.trans hsome))
    exact hsame ▸ ⟨hrecovered, hdepth⟩
  · cases habsent

/-- Whatever was read comes back, also when its tag was the fallback of its code. -/
theorem decodeWith_again (hr : r.Routed) {v : Json} (hv : v.Recovered)
    (h : (fromValueWith r v).result = .ok i) :
    ∃ text, i.encode = .ok text ∧ (decodeWith r text.toUTF8).result = .ok i := by
  obtain ⟨m, hm, hcode, -, hdata, hvalid⟩ := fromValueWith_eq_ok_iff.mp h
  have hread : ∀ d, i.data = some d → r.LeadsTo i.code d ∧ d.Recovered ∧ d.form.depth ≤ 126 := by
    intro d hd
    rw [hd, ← hcode] at hdata
    cases hmembers : m.data with
    | none =>
      rw [hmembers] at hdata
      cases hdata
    | some w =>
      rw [hmembers] at hdata
      obtain ⟨hw, hdepth⟩ := data_of_members hv hm hmembers
      obtain ⟨hleads, hback, hform⟩ := hr.decode hw hdata
      have hroom : (Form.ofJson v).depth ≤ 127 := hv.depth
      exact ⟨hleads, hback, Nat.le_trans hform (by omega)⟩
  have hi : i.Recovered := fun d hd => (hread d hd).2.1
  have hdepth : i.form.depth ≤ Origin.maxDepth := depth_form_le_iff.mpr fun d hd => (hread d hd).2.2
  exact ⟨_, encode_eq hi.canonical,
    decodeWith_of_leads (fun d hd => (hread d hd).1) hi hvalid hdepth⟩

end ErrorInfo

end ContextProtocol
