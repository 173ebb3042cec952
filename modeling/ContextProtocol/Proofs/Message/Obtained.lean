import ContextProtocol.Proofs.Message.ErrorAnswer

/-!
# Every error that can be obtained can be written

An error comes from a constructor or from reading, and some constructors skip the check at the end of
construction, while the readers of a registry may return data of any kind under any code. Reading
checks the finished error, and the constructors without a check hold no data or data that was checked
on its own, so every error obeys the rules of its data.

* `ErrorInfo.Obtained`: the errors that constructors and readers return.

Results:
* `ErrorData.exists_toValue`: data of every kind has a place in memory.
* `Obtained.valid`: an error that was obtained is valid.
* `Obtained.fits_and_encodes`: what that says of its data, and that it can be written.
-/
namespace ContextProtocol

/-! ## Data in memory -/

/-- An object may go under a tag when no member has the name of the tag. -/
theorem taggedObject_ofJson {field tag : String} (htag : tag ≠ "") {members : List (String × Json)}
    (hfield : field ∉ members.map (·.1)) :
    ∃ object, taggedObject field tag (Form.ofJson (.object members)) = .ok object := by
  have hraws := Form.raws_ofJson (.object members)
  obtain ⟨v, hv⟩ := Form.exists_toJson hraws
  have hsorted := Form.ofJson_eq_sorted (Form.writable_ofJson _) hraws hv
  rw [Form.ofJson, Form.sorted, Form.sortedMembers_eq, Form.ofMembers_eq] at hsorted
  cases v with
  | object found =>
    refine ⟨_, (taggedObject_of_toJson hv).mpr ⟨htag, fun hmem => ?_, rfl⟩⟩
    rw [Form.ofJson, Form.ofMembers_eq] at hsorted
    obtain ⟨e, he, rfl⟩ := List.mem_map.mp hmem
    -- no name appears when an object is put into memory
    have hmapped : (e.1, Form.ofJson e.2) ∈ Entries.mapValues Form.ofJson found :=
      List.mem_map_of_mem (f := fun e => (e.1, Form.ofJson e.2)) he
    rw [Form.object.inj hsorted, Entries.mapValues_mapValues] at hmapped
    obtain ⟨w, hw, heq⟩ := List.mem_map.mp (Entries.mem_ofList hmapped)
    exact hfield (List.mem_map.mpr ⟨w, hw, (Prod.ext_iff.mp heq).1⟩)
  | number n => cases n <;> cases hsorted
  | _ => cases hsorted

/-- Data of every kind has a place in memory, whatever the fields of an extension hold. -/
theorem ErrorData.exists_toValue (d : ErrorData) : ∃ v, d.toValue = .ok v := by
  obtain ⟨object, hobject⟩ : ∃ object, taggedObject errorTypeField d.errorType d.body = .ok object := by
    cases d with
    | extension x =>
      rw [ErrorData.body_extension]
      exact taggedObject_ofJson x.errorType_ne_empty (Entries.lookup_eq_none_iff.mp x.tag_not_mem)
    | validation w =>
      obtain ⟨object, hm⟩ := ErrorData.exists_inMemory (d := .validation w) trivial
      exact ⟨object, hm.tagged⟩
    | toolExecution w =>
      obtain ⟨object, hm⟩ := ErrorData.exists_inMemory (d := .toolExecution w) trivial
      exact ⟨object, hm.tagged⟩
  exact ⟨_, by rw [ErrorData.toValue, hobject]; rfl⟩

namespace ErrorInfo

variable {i : ErrorInfo}

/-- An error can be written when its data can, and so it always can. -/
theorem exists_encode (i : ErrorInfo) : (∃ text, i.encode = .ok text) ∧ ∃ v, i.toValue = .ok v := by
  obtain ⟨code, message, data⟩ := i
  cases data with
  | none => exact ⟨⟨_, rfl⟩, _, rfl⟩
  | some d =>
    obtain ⟨v, hv⟩ := d.exists_toValue
    have hdata : (some d).mapM ErrorData.toValue = .ok (some v) := by
      show some <$> d.toValue = _
      rw [hv]
      rfl
    constructor
    · exact ⟨_, by rw [encode, hdata]; rfl⟩
    · exact ⟨_, by rw [toValue, hdata]; rfl⟩

/-! ## Errors that were obtained -/

/-- The errors that the constructors return and those that are read, under any registry. The readers
of the registry are arbitrary functions. -/
inductive Obtained (i : ErrorInfo) : Prop where
  | constructed (h : Constructed i)
  | ofValue (registry : ErrorRegistry) (v : Json) (h : (fromValueWith registry v).result = .ok i)
  | ofBytes (registry : ErrorRegistry) (bytes : ByteArray)
      (h : (decodeWith registry bytes).result = .ok i)

theorem Obtained.valid (h : Obtained i) : Valid i := by
  cases h with
  | constructed h => exact h.valid
  | ofValue registry v h =>
    obtain ⟨members, -, -, -, -, hvalid⟩ := fromValueWith_eq_ok_iff.mp h
    exact hvalid
  | ofBytes registry bytes h =>
    obtain ⟨v, -, hv⟩ := decodeWith_eq_ok_iff.mp h
    obtain ⟨members, -, -, -, -, hvalid⟩ := fromValueWith_eq_ok_iff.mp hv
    exact hvalid

/-- What can be relied on in an error that was obtained. -/
theorem Obtained.fits_and_encodes (h : Obtained i) :
    (∀ d, i.data = some (.validation d) → i.code = -32602 ∧ d.failures ≠ []) ∧
    (∀ d, i.data = some (.toolExecution d) →
      i.code = -32603 ∧ d.toolName ≠ "" ∧ d.errorKind ≠ "") ∧
    (∀ d, i.data = some (.extension d) →
      d.errorType ≠ "" ∧ d.fields.get? "errorType" = none) ∧
    (∃ text, i.encode = .ok text) ∧ ∃ v, i.toValue = .ok v := by
  have hdata := valid_iff.mp h.valid
  refine ⟨fun d hd => ⟨code_eq_of_valid h.valid hd rfl, ?_⟩,
    fun d hd => ⟨code_eq_of_valid h.valid hd rfl, ?_⟩,
    fun d _ => ⟨d.errorType_ne_empty, d.tag_not_mem⟩, exists_encode i⟩
  · have hrule := (ValidationDetails.valid_iff d).mpr (hdata _ hd).2
    rw [Bool.not_eq_true', List.isEmpty_eq_false_iff] at hrule
    exact hrule
  · exact of_decide_eq_true ((ToolExecutionDetails.valid_iff d).mpr (hdata _ hd).2)

/-- A reader that returns tool data under the code and the tag of validation data is caught: the data
is refused there, and tool data is accepted under its own code. -/
theorem fits_and_encodes_foreign :
    let foreign : ErrorData.Reader := fun _ _ => .ofExcept (.ok (.toolExecution ⟨"t", "k", ""⟩))
    let registry := (ErrorRegistry.new.register (-32602) "validation" foreign).register (-32603)
      "any" foreign
    let under := fun (code : Int32) (tag : String) => Json.object
      [("code", .ofInt code.toInt), ("data", .object [("errorType", .string tag)]),
        ("message", .string "m")]
    (fromValueWith registry (under (-32602) "validation")).result.toOption = none ∧
      ∃ i, (fromValueWith registry (under (-32603) "any")).result = .ok i ∧
        i.data = some (.toolExecution ⟨"t", "k", ""⟩) ∧ i.code = -32603 ∧ "t" ≠ "" ∧ "k" ≠ "" ∧
        (∃ text, i.encode = .ok text) ∧ ∃ v, i.toValue = .ok v := by
  intro foreign registry under
  refine ⟨by rfl, ⟨-32603, "m", some (.toolExecution ⟨"t", "k", ""⟩)⟩, rfl, rfl, ?_⟩
  obtain ⟨-, htool, -, hwritten⟩ :=
    Obtained.fits_and_encodes (i := ⟨-32603, "m", some (.toolExecution ⟨"t", "k", ""⟩)⟩)
      (.ofValue registry (under (-32603) "any") rfl)
  obtain ⟨hcode, hname, hkind⟩ := htool _ rfl
  exact ⟨hcode, hname, hkind, hwritten⟩

end ErrorInfo

end ContextProtocol
