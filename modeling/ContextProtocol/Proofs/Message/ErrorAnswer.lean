import ContextProtocol.Proofs.Message.ErrorRegistry
import ContextProtocol.Proofs.Shape.OnValue

/-!
# What an error object is read as

The members of an error object, the code of its error, the tag of its data and the members under
that tag are looked at one after the other, and each stage has a refusal of its own. Here the answer
is said without any reader, as a function of the object: `ErrorInfo.answer`.

Results:
* `ValidationDetails.found_eq`, `ToolExecutionDetails.found_eq`: what is found under a tag is what
  the members say.
* `ErrorRegistry.decode_new`: what the built-in registry makes of the data of an error.
* `ErrorRegistry.valid_of_decode_new`: the last check, whether the data belongs to the code, never fails.
* `ErrorInfo.fromValue_eq_answer`: reading an error object gives its answer.
-/
namespace ContextProtocol

/-! ## The answer -/

/-- Why an error object is refused, without the reason of a wrong shape or a broken rule. -/
inductive Refusal where
  | shape
  | missingTag
  | unknownType (code : Int32) (tag : String)
  | malformed (tag : String)
  | broken (tag : String)
  deriving DecidableEq

/-- The refusal that an error stands for. The other errors are those of other messages. -/
def DecodeError.refusal? : DecodeError → Option Refusal
  | .json _ => some .shape
  | .missingDiscriminator field => if field = errorTypeField then some .missingTag else none
  | .unknownErrorType code tag => some (.unknownType code tag)
  | .malformedVariant tag _ => some (.malformed tag)
  | .invalidVariant tag _ => some (.broken tag)
  | _ => none

/-- The text under a name. -/
def Entries.text? (members : List (String × Json)) (name : String) : Option String :=
  (members.lookup name).bind Json.string?

/-- A failure is an object with two texts, or an array of them. -/
def ValidationFailure.ofJson? : Json → Option ValidationFailure
  | .object members => do
    let field ← Entries.text? members "field"
    let error ← Entries.text? members "error"
    return ⟨field, error⟩
  | .array [.string field, .string error] => some ⟨field, error⟩
  | _ => none

/-- Validation data is a list of failures. -/
def ValidationDetails.ofMembers? (members : List (String × Json)) : Option ValidationDetails :=
  match members.lookup "validation" with
  | some (.array items) => (items.mapM ValidationFailure.ofJson?).map .mk
  | _ => none

/-- Data of a failed tool has two texts, and a third one if there are details. -/
def ToolExecutionDetails.ofMembers? (members : List (String × Json)) :
    Option ToolExecutionDetails := do
  let toolName ← Entries.text? members "toolName"
  let errorKind ← Entries.text? members "errorKind"
  let details ←
    match members.lookup "details" with
    | none => some ""
    | some details => details.string?
  return ⟨toolName, errorKind, details⟩

namespace ErrorData

/-- The data under a tag: its members have to have the shape of the kind, and obey its rule. -/
def answerAs {α : Type} (tag : String) (make : α → ErrorData) (rule : α → Bool) :
    Option α → Except Refusal ErrorData
  | none => .error (.malformed tag)
  | some details => if rule details then .ok (make details) else .error (.broken tag)

/-- The data under a code and a tag. -/
def answerTagged (code : Int32) (tag : String) (members : List (String × Json)) :
    Except Refusal ErrorData :=
  if code = -32602 ∧ tag = "validation" then
    answerAs tag .validation (fun d => !d.failures.isEmpty) (ValidationDetails.ofMembers? members)
  else if code = -32603 ∧ tag = "toolExecution" then
    answerAs tag .toolExecution (fun d => d.toolName ≠ "" ∧ d.errorKind ≠ "")
      (ToolExecutionDetails.ofMembers? members)
  else .error (.unknownType code tag)

/-- The data under a code. -/
def answer (code : Int32) (data : Json) : Except Refusal (Option ErrorData) :=
  if code ≠ -32602 ∧ code ≠ -32603 then .ok none
  else
    match data with
    | .object members =>
      match members.lookup "errorType" with
      | some (.string tag) => some <$> answerTagged code tag members
      | some _ => .error .missingTag
      | none => if code = -32602 then some <$> answerTagged code "validation" members else .ok none
    | _ => .error .shape

end ErrorData

/-- An error object has a code and a message, and its data is `null` or absent when it has none. -/
def ErrorMembers.ofMembers? (members : List (String × Json)) : Option ErrorMembers := do
  let code ← (members.lookup "code").bind Json.int32?
  let message ← Entries.text? members "message"
  let data :=
    match members.lookup "data" with
    | some .null => none
    | data => data
  return ⟨code, message, data⟩

/-- What an error object is read as. -/
def ErrorInfo.answer (members : List (String × Json)) : Except Refusal ErrorInfo :=
  match ErrorMembers.ofMembers? members with
  | none => .error .shape
  | some ⟨code, message, none⟩ => .ok ⟨code, message, none⟩
  | some ⟨code, message, some data⟩ => do
    let data ← ErrorData.answer code data
    return ⟨code, message, data⟩

/-! ## The kinds -/

/-- A field with a text finds the text under its name. -/
theorem Field.gather_text (name : String) (members : List (String × Json)) :
    ((Field.required name .string).gather .value fun n => (members.lookup n).map Doc.sourced) =
      Entries.text? members name := by
  rw [Field.gather_required, Entries.text?]
  exact congrArg _ (funext Decoder.found_string)

namespace ValidationFailure

theorem found_object {members : List (String × Json)} (hkeys : (members.map (·.1)).Nodup) :
    (record.codec.decode.runValue (.object members)).found = ofJson? (.object members) := by
  refine (Record.found_members rfl (by decide) hkeys).trans ?_
  rw [ofJson?]
  simp only [record, Fields.gather, Field.gather_text]
  cases Entries.text? members "field" with
  | none => rfl
  | some field => cases Entries.text? members "error" <;> rfl

/-- An array of two texts. -/
theorem found_array (items : List Json) :
    (record.codec.decode.runValue (.array items)).found = ofJson? (.array items) := by
  have htext : ∀ v, (Decoder.string .value (Doc.sourced v)).found = v.string? :=
    Decoder.found_string
  have hvalue : Origin.value.enter = .ok .value := rfl
  refine (Record.found_array (r := record) hvalue (Doc.ofItems items)
    (Doc.sourced (.array items)).text).trans ?_
  match items with
  | [] => rfl
  | [field] =>
    simp only [Doc.ofItems_eq, List.map_cons, List.map_nil, record, Fields.readItems,
      Traced.found_bind, Field.required, Codec.string, htext, Field.absentItem?]
    cases field <;> rfl
  | field :: error :: rest =>
    simp only [Doc.ofItems_eq, List.map_cons, record, Fields.readItems,
      Traced.found_bind, Field.required, Codec.string, htext]
    cases field <;> cases error <;> cases rest <;> rfl

theorem found_eq {v : Json} (hv : v.Canonical) :
    (record.codec.decode.runValue v).found = ofJson? v := by
  cases v with
  | object members => exact found_object (Entries.nodup_keys_of_sorted hv.1)
  | array items => exact found_array items
  | _ => rfl

/-- The failures are read one by one. -/
theorem found_each {items : List Json} (hitems : ∀ v ∈ items, v.Canonical) :
    (items.mapM fun v => (record.codec.decode.runValue v).found) = items.mapM ofJson? := by
  induction items with
  | nil => rfl
  | cons v rest ih =>
    obtain ⟨hv, hrest⟩ := List.forall_mem_cons.mp hitems
    rw [List.mapM_cons, List.mapM_cons, found_eq hv, ih hrest]

end ValidationFailure

section Members

variable {members : List (String × Json)} (hc : (Json.object members).Canonical)
include hc

theorem ValidationDetails.found_eq :
    (codec.decode.runValue (.object members)).found = ofMembers? members := by
  refine (Record.found_members rfl (by decide) (Entries.nodup_keys_of_sorted hc.1)).trans ?_
  simp only [record, Fields.gather, Field.gather_required, Codec.list, Decoder.found_list,
    ofMembers?, tag]
  cases hlookup : members.lookup "validation" with
  | none => rfl
  | some v =>
    have hv := Json.canonicalMembers_iff.mp hc.2 _ (Entries.mem_of_lookup hlookup)
    cases v with
    | array items =>
      have heach := ValidationFailure.found_each (Json.canonicalItems_iff.mp hv)
      show Option.map _ (Option.bind (items.mapM fun v =>
        (ValidationFailure.record.codec.decode.runValue v).found) _) =
          (items.mapM ValidationFailure.ofJson?).map mk
      rw [heach]
      cases items.mapM ValidationFailure.ofJson? <;> rfl
    | _ => rfl

theorem ToolExecutionDetails.found_eq :
    (codec.decode.runValue (.object members)).found = ofMembers? members := by
  refine (Record.found_members rfl (by decide) (Entries.nodup_keys_of_sorted hc.1)).trans ?_
  simp only [record, Fields.gather, Field.gather_text]
  simp only [Field.gather_lookup, Codec.string, Decoder.found_string, Field.absent?, ofMembers?]
  cases Entries.text? members "toolName" with
  | none => rfl
  | some toolName =>
    cases Entries.text? members "errorKind" with
    | none => rfl
    | some errorKind =>
      cases members.lookup "details" with
      | none => rfl
      | some details => cases details <;> rfl

end Members

/-- The members of an error are found, if no object in its data begins with the reserved name. -/
theorem ErrorMembers.found_eq {members : List (String × Json)}
    (hkeys : (members.map (·.1)).Nodup)
    (hdata : ∀ d, members.lookup "data" = some d → d.Canonical ∧ (Form.ofJson d).Bare) :
    (record.decode.runValue (.object members)).found = ofMembers? members := by
  refine (Record.found_members rfl (by decide) hkeys).trans ?_
  simp only [record, Fields.gather, Field.gather_text]
  simp only [Field.gather_required, Codec.int32, Decoder.found_int32, Field.gather_optional,
    Codec.json, ofMembers?]
  cases (members.lookup "code").bind Json.int32? with
  | none => rfl
  | some code =>
    cases Entries.text? members "message" with
    | none => rfl
    | some message =>
      cases hlookup : members.lookup "data" with
      | none => rfl
      | some d =>
        obtain ⟨hc, hbare⟩ := hdata d hlookup
        have hread := Decoder.found_json hc hbare
        cases d with
        | null => rfl
        | _ => simp only [hread]; rfl

/-- The data that an error object has is the value under its name. -/
theorem ErrorMembers.lookup_data {members : List (String × Json)} {code : Int32} {message : String}
    {d : Json} (h : ofMembers? members = some ⟨code, message, some d⟩) :
    members.lookup "data" = some d := by
  obtain ⟨code', -, h⟩ := Option.bind_eq_some_iff.mp h
  obtain ⟨message', -, h⟩ := Option.bind_eq_some_iff.mp h
  cases hlookup : members.lookup "data" with
  | none =>
    rw [hlookup] at h
    cases h
  | some v =>
    rw [hlookup] at h
    cases v with
    | null => cases h
    | _ =>
      cases h
      rfl

/-- A kind is read from the members, and then its rule is looked at. -/
theorem refusal_decodeVariant {α Step : Type} [Validated α Step] (codec : Codec α) (tag : String)
    (object : Dict Json) (make : α → ErrorData) {rule : α → Bool}
    (hrule : ∀ a : α, rule a = true ↔ Valid a) :
    (make <$> decodeVariant codec tag object).result.mapError DecodeError.refusal? =
      (ErrorData.answerAs tag make rule
        (codec.decode.runValue (.object object.entries)).found).mapError some := by
  have hmalformed : ∀ e, (DecodeError.malformedVariant tag e).refusal? = some (.malformed tag) :=
    fun _ => rfl
  have hbroken : ∀ e, (DecodeError.invalidVariant tag e).refusal? = some (.broken tag) :=
    fun _ => rfl
  rw [Traced.result_map, Outcome.mapError_fmap, mapError_decodeVariant hmalformed hbroken hrule]
  cases (codec.decode.runValue (.object object.entries)).found with
  | none => rfl
  | some a => cases h : rule a <;> simp [ErrorData.answerAs, h]

theorem ValidationDetails.valid_iff (d : ValidationDetails) :
    (!d.failures.isEmpty) = true ↔ Valid d := by
  obtain ⟨failures⟩ := d
  cases failures with
  | nil => exact ⟨nofun, nofun⟩
  | cons f rest => exact ⟨fun _ => rfl, fun _ => rfl⟩

theorem ToolExecutionDetails.valid_iff (d : ToolExecutionDetails) :
    decide (d.toolName ≠ "" ∧ d.errorKind ≠ "") = true ↔ Valid d := by
  have hvalid : Valid d ↔ checkNonEmpty "toolName" d.toolName = .ok () ∧
      checkNonEmpty "errorKind" d.errorKind = .ok () := Outcome.check_bind_eq_ok_iff
  rw [decide_eq_true_iff, hvalid, checkNonEmpty_eq_ok_iff, checkNonEmpty_eq_ok_iff]

/-! ## The built-in registry -/

namespace ErrorRegistry

theorem knowsCode_new (code : Int32) :
    new.knowsCode code = decide (code = -32603 ∨ code = -32602) := by
  have hkeys : new.routes.keys = [(-32603, "toolExecution"), (-32602, "validation")] := rfl
  rw [knowsCode, hkeys]
  simp only [List.any_cons, List.any_nil, Bool.or_false, Bool.decide_or, eq_comm]

theorem routes_new (code : Int32) (tag : String) : new.routes.get? (code, tag) =
    if code = -32602 ∧ tag = "validation" then some ErrorData.readValidation
    else if code = -32603 ∧ tag = "toolExecution" then some ErrorData.readToolExecution
    else none := by
  split
  · rename_i h
    obtain ⟨rfl, rfl⟩ := h
    rfl
  · rename_i h
    split
    · rename_i h'
      obtain ⟨rfl, rfl⟩ := h'
      rfl
    · rename_i h'
      have hentries : new.routes.entries = [((-32603, "toolExecution"), ErrorData.readToolExecution),
        ((-32602, "validation"), ErrorData.readValidation)] := rfl
      refine Entries.lookup_eq_none_iff.mpr ?_
      rw [hentries]
      simp [h, h']

theorem defaults_new (code : Int32) :
    new.defaults.get? code = if code = -32602 then some "validation" else none := by
  have hentries : new.defaults.entries = [(-32602, "validation")] := rfl
  rw [Table.get?, hentries, List.lookup_cons, List.lookup_nil]
  split <;> simp_all

/-- The kind under a code and a tag. -/
theorem readTagged_new (code : Int32) (tag : String) {object : Dict Json}
    (hc : (Json.object object.entries).Canonical) :
    (new.readTagged code tag object).mapError DecodeError.refusal? =
      (ErrorData.answerTagged code tag object.entries).mapError some := by
  rw [readTagged, routes_new, ErrorData.answerTagged]
  by_cases hvalidation : code = -32602 ∧ tag = "validation"
  · rw [if_pos hvalidation, if_pos hvalidation, ← ValidationDetails.found_eq hc]
    exact refusal_decodeVariant _ tag object .validation ValidationDetails.valid_iff
  rw [if_neg hvalidation, if_neg hvalidation]
  by_cases htool : code = -32603 ∧ tag = "toolExecution"
  · rw [if_pos htool, if_pos htool, ← ToolExecutionDetails.found_eq hc]
    exact refusal_decodeVariant _ tag object .toolExecution ToolExecutionDetails.valid_iff
  · rw [if_neg htool, if_neg htool]
    rfl

/-- What the built-in registry makes of the data of an error. -/
theorem decode_new (code : Int32) {data : Json} (hc : data.Canonical)
    (hbare : (Form.ofJson data).Bare) : (new.decode code data).result.mapError DecodeError.refusal? =
      (ErrorData.answer code data).mapError some := by
  unfold ErrorData.answer
  by_cases hcode : code ≠ -32602 ∧ code ≠ -32603
  · have hunknown : new.knowsCode code = false := by
      rw [knowsCode_new]
      exact decide_eq_false fun h => h.elim hcode.2 hcode.1
    rw [if_pos hcode, decode, hunknown]
    rfl
  have hknown : new.knowsCode code = true := by
    rw [knowsCode_new]
    exact decide_eq_true (by tauto)
  rw [if_neg hcode]
  cases data with
  | object members =>
    obtain ⟨object, rfl⟩ : ∃ object : Dict Json, members = object.entries :=
      ⟨⟨members, hc.1⟩, rfl⟩
    have hsplit : splitTag errorTypeField (.object object.entries) = _ :=
      splitTag_object hc hbare
    -- two ways lead to a kind: the tag of the data, and the default of the code
    have htagged : ∀ tag,
        (some <$> new.readTagged code tag object).mapError DecodeError.refusal? =
          (some <$> ErrorData.answerTagged code tag object.entries).mapError some := by
      intro tag
      rw [Outcome.mapError_fmap, Outcome.mapError_fmap, readTagged_new code tag hc]
    have hget : object.get? errorTypeField = object.entries.lookup "errorType" := rfl
    rw [hget] at hsplit
    cases hlookup : object.entries.lookup "errorType" with
    | none =>
      rw [hlookup] at hsplit
      rw [decode_of_splitTag hknown hsplit, Option.none_or, defaults_new]
      by_cases hcode' : code = -32602
      · simp only [if_pos hcode', hlookup]
        exact htagged _
      · simp only [if_neg hcode', hlookup]
        rfl
    | some v =>
      rw [hlookup] at hsplit
      have hmissing : splitTag errorTypeField (.object object.entries) =
          .error (.missingDiscriminator errorTypeField) →
          (new.decode code (.object object.entries)).result.mapError DecodeError.refusal? =
            .error (some .missingTag) := by
        intro herror
        rw [decode_of_splitTag_error hknown herror]
        rfl
      cases v with
      | string tag =>
        rw [decode_of_splitTag hknown hsplit]
        simp only [hlookup]
        exact htagged tag
      | _ =>
        simp only [hlookup]
        exact hmissing hsplit
  | _ =>
    rw [decode_of_splitTag_error hknown rfl]
    rfl

/-- No failure of the built-in registry is about the rules of the whole error. -/
theorem readTagged_new_ne {code : Int32} {tag : String} {object : Dict Json}
    (rule : ConstructionError) : new.readTagged code tag object ≠ .error (.invalid rule) := by
  intro h
  have hkind : ∀ {α Step : Type} [Validated α Step] (codec : Codec α) (make : α → ErrorData),
      (make <$> decodeVariant codec tag object).result ≠ .error (.invalid rule) := by
    intro α Step _ codec make h
    rw [Traced.result_map] at h
    rcases decodeVariant_eq_error (Outcome.map_eq_error_iff.mp h) with ⟨_, he⟩ | ⟨_, he⟩
    · cases he
    · cases he
  rw [readTagged, routes_new] at h
  by_cases hvalidation : code = -32602 ∧ tag = "validation"
  · rw [if_pos hvalidation] at h
    exact hkind _ _ h
  rw [if_neg hvalidation] at h
  by_cases htool : code = -32603 ∧ tag = "toolExecution"
  · rw [if_pos htool] at h
    exact hkind _ _ h
  · rw [if_neg htool] at h
    cases h

theorem decode_new_ne (code : Int32) (data : Json) (rule : ConstructionError) :
    (new.decode code data).result ≠ .error (.invalid rule) := by
  intro h
  by_cases hknown : new.knowsCode code = true
  · cases hsplit : splitTag errorTypeField data with
    | error e =>
      rw [decode_of_splitTag_error hknown hsplit] at h
      rcases splitTag_eq_error hsplit with ⟨_, he⟩ | he
      · cases h.symm.trans (congrArg _ he)
      · cases h.symm.trans (congrArg _ he)
    | ok split =>
      obtain ⟨tag?, object⟩ := split
      rw [decode_of_splitTag hknown hsplit] at h
      split at h
      · cases h
      · exact readTagged_new_ne rule (Outcome.map_eq_error_iff.mp h)
  · rw [decode, Bool.eq_false_iff.mpr hknown] at h
    cases h

/-- The built-in registry finds data that obeys its rules, and only under its own code. -/
theorem valid_of_decode_new {code : Int32} {message : String} {v : Json} {data : Option ErrorData}
    (h : (new.decode code v).result = .ok data) : Valid (⟨code, message, data⟩ : ErrorInfo) := by
  refine ErrorInfo.valid_iff.mpr fun d hd => ?_
  cases hd
  obtain ⟨tag?, tag, object, reader, -, hreader, hread⟩ := decode_eq_some h
  -- each reader of the table stands under the code that its data belongs to
  rw [routes_new] at hreader
  split at hreader
  · rename_i hcode
    obtain ⟨rfl, rfl⟩ := hcode
    cases hreader
    obtain ⟨w, rfl, hw⟩ := ErrorData.readValidation_eq_ok hread
    exact ⟨rfl, hw⟩
  · split at hreader
    · rename_i hcode
      obtain ⟨rfl, rfl⟩ := hcode
      cases hreader
      obtain ⟨w, rfl, hw⟩ := ErrorData.readToolExecution_eq_ok hread
      exact ⟨rfl, hw⟩
    · cases hreader

end ErrorRegistry

namespace ErrorInfo

theorem valid_of_readData_new {code : Int32} {message : String} {v : Option Json}
    {data : Option ErrorData} (h : readData .new code v = .ok data) :
    Valid (⟨code, message, data⟩ : ErrorInfo) := by
  cases v with
  | none =>
    cases h
    rfl
  | some v => exact ErrorRegistry.valid_of_decode_new h

/-- With the built-in registry, the last look at the rules finds nothing. -/
theorem result_fromValue (v : Json) : (fromValue v).result =
    ((ErrorMembers.record.decode.runValue v).result.mapError DecodeError.json >>= fun m =>
      readData .new m.code m.data >>= fun data => .ok ⟨m.code, m.message, data⟩) := by
  refine (result_fromValueWith .new v).trans (congrArg _ (funext fun m => ?_))
  cases hdata : readData .new m.code m.data with
  | error e => rfl
  | ok data =>
    have hvalid : validate (⟨m.code, m.message, data⟩ : ErrorInfo) = .ok () :=
      valid_of_readData_new hdata
    rw [Outcome.ok_bind, hvalid]
    rfl

theorem fromValue_ne_invalid (v : Json) (rule : ConstructionError) :
    (fromValue v).result ≠ .error (.invalid rule) := by
  intro h
  rw [result_fromValue] at h
  rcases Outcome.bind_eq_error_iff.mp h with h | ⟨m, -, h⟩
  · cases hread : (ErrorMembers.record.decode.runValue v).result with
    | ok m =>
      rw [hread] at h
      cases h
    | error e =>
      rw [hread] at h
      cases h
  · rcases Outcome.bind_eq_error_iff.mp h with h | ⟨data, -, h⟩
    · cases hdata : m.data with
      | none =>
        rw [hdata] at h
        cases h
      | some v =>
        rw [hdata] at h
        exact ErrorRegistry.decode_new_ne m.code v rule h
    · cases h

/-- Reading an error object gives its answer, if no object in its data begins with the reserved
name; and whatever the object is, it is not refused for the rules of the whole error. -/
theorem fromValue_eq_answer (o : Dict Json) :
    ((∀ d, o.get? "data" = some d → d.Canonical ∧ (Form.ofJson d).Bare) →
      (fromValue (.object o.entries)).result.mapError DecodeError.refusal? =
        (answer o.entries).mapError some) ∧
    ∀ rule, (fromValue (.object o.entries)).result ≠ .error (.invalid rule) := by
  refine ⟨fun hdata => ?_, fromValue_ne_invalid _⟩
  have hmembers := ErrorMembers.found_eq (Entries.nodup_keys_of_sorted o.sorted) hdata
  rw [result_fromValue, Outcome.mapError_bind, answer]
  rw [Traced.found] at hmembers
  cases hread : (ErrorMembers.record.decode.runValue (.object o.entries)).result with
  | error e =>
    rw [hread, Outcome.toOption_error] at hmembers
    rw [← hmembers]
    rfl
  | ok m =>
    obtain ⟨code, message, data⟩ := m
    rw [hread, Outcome.toOption_ok] at hmembers
    rw [← hmembers]
    cases data with
    | none => rfl
    | some d =>
      obtain ⟨hc, hbare⟩ := hdata d (ErrorMembers.lookup_data hmembers.symm)
      have hanswer := ErrorRegistry.decode_new code hc hbare
      simp only [Outcome.mapError_ok, Outcome.ok_bind, Outcome.mapError_bind, readData, hanswer]
      rfl

/-- The object of an error under the code of a failed tool, with data that breaks a rule. -/
def nameless : Dict Json :=
  .ofList [("code", .number (.integer (-32603) (by decide))), ("message", .string "m"),
    ("data", .object [("errorKind", .string "k"), ("errorType", .string "toolExecution"),
      ("toolName", .string "")])]

theorem fromValue_eq_answer_nameless :
    (∀ d, nameless.get? "data" = some d → d.Canonical ∧ (Form.ofJson d).Bare) ∧
      answer nameless.entries = .error (.broken "toolExecution") ∧
      (fromValue (.object nameless.entries)).result.mapError DecodeError.refusal? =
        .error (some (.broken "toolExecution")) ∧
      ∀ rule, (fromValue (.object nameless.entries)).result ≠ .error (.invalid rule) := by
  have hdata : ∀ d, nameless.get? "data" = some d → d.Canonical ∧ (Form.ofJson d).Bare := by
    intro d hd
    obtain rfl : d = .object [("errorKind", .string "k"), ("errorType", .string "toolExecution"),
      ("toolName", .string "")] := Option.some.inj (hd.symm.trans rfl)
    decide +kernel
  have hanswer : answer nameless.entries = .error (.broken "toolExecution") := by rfl
  refine ⟨hdata, hanswer, ?_, (fromValue_eq_answer nameless).2⟩
  rw [(fromValue_eq_answer nameless).1 hdata, hanswer]
  rfl

/-- An object with data that begins with the reserved name, which is not looked at under its code. -/
def reserved : Dict Json :=
  .ofList [("code", .number (.integer 1 (by decide))), ("message", .string "m"),
    ("data", .object [(Doc.embeddedName, .number (.integer 5 (by decide))),
      ("a", .number (.integer 1 (by decide)))])]

/-- Data that begins with the reserved name is refused where the answer drops it. -/
theorem fromValue_ne_answer_reserved :
    (Json.object reserved.entries).Canonical ∧ answer reserved.entries = .ok ⟨1, "m", none⟩ ∧
      (fromValue (.object reserved.entries)).result.mapError DecodeError.refusal? =
        .error (some .shape) :=
  ⟨by decide +kernel, rfl, rfl⟩

end ErrorInfo

end ContextProtocol
