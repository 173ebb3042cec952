import ContextProtocol.Message.ErrorInfo
import ContextProtocol.Proofs.Message.ErrorData

/-!
# The texts of errors

An error is written with its code, its message and the object of its data, and nothing in the text
says which kind the data is of but its tag. So the text of an error stands for that error alone,
unless its data is an extension that poses as data of a built-in kind.

Results:
* `ErrorInfo.encode_eq`: every error whose data is in memory can be written.
* `ErrorInfo.Constructed.valid`: what is constructed is valid.
* `ErrorInfo.encode_eq_iff`: which errors have the same text.
-/
namespace ContextProtocol.ErrorInfo

variable {i j : ErrorInfo}

/-- The fields of an extension are in order, as values in memory are. -/
def Canonical (i : ErrorInfo) : Prop := ∀ d, i.data = some d → d.Canonical

/-- The fields of an extension come back from their text. -/
def Recovered (i : ErrorInfo) : Prop := ∀ d, i.data = some d → d.Recovered

/-- No object inside a field of an extension begins with the reserved name. -/
def Bare (i : ErrorInfo) : Prop := ∀ d, i.data = some d → d.Bare

theorem Recovered.canonical (h : i.Recovered) : i.Canonical := fun d hd => (h d hd).canonical

theorem Recovered.bare (h : i.Recovered) : i.Bare := fun d hd => (h d hd).bare

/-! ## The written form -/

theorem writable_code (code : Int32) : (Form.integer code.toInt).Writable :=
  (Codec.RoundTrips.int32 code).writable

/-- The members are the code, the message and the object of the data. -/
theorem mem_form {m : String × Form} : m ∈ i.form.members ↔
    m = ("code", .integer i.code.toInt) ∨ m = ("message", .string i.message) ∨
      ∃ d, i.data = some d ∧ m = ("data", d.form) := by
  obtain ⟨code, message, data⟩ := i
  cases data with
  | none => simp [form, Form.members]
  | some d => simp [form, Form.members]

theorem writable_form (h : i.Canonical) : i.form.Writable := by
  refine Form.writableMembers_iff.mpr fun m hm => ?_
  rcases mem_form.mp hm with rfl | rfl | ⟨d, hd, rfl⟩
  · exact writable_code i.code
  · trivial
  · obtain ⟨object, hm⟩ := ErrorData.exists_inMemory (h d hd)
    exact hm.writable

theorem raws_form (h : i.Canonical) : i.form.raws = [] := by
  refine Form.rawsMembers_eq_nil.mpr fun m hm => ?_
  rcases mem_form.mp hm with rfl | rfl | ⟨d, hd, rfl⟩
  · rfl
  · rfl
  · obtain ⟨object, hm⟩ := ErrorData.exists_inMemory (h d hd)
    exact hm.raws

theorem bare_form (hc : i.Canonical) (h : i.Bare) : i.form.Bare := by
  refine Form.bare_object_iff.mpr ⟨?_, fun m hm => ?_⟩
  · rintro m hm
    obtain rfl : ("code", Form.integer i.code.toInt) = m := Option.some.inj hm
    show "code" ≠ Doc.embeddedName
    decide
  · rcases mem_form.mp hm with rfl | rfl | ⟨d, hd, rfl⟩
    · trivial
    · trivial
    · obtain ⟨object, hm⟩ := ErrorData.exists_inMemory (hc d hd)
      exact hm.bare (hc d hd) (h d hd)

theorem depth_form_le_iff {n : Nat} :
    i.form.depth ≤ n + 1 ↔ ∀ d, i.data = some d → d.form.depth ≤ n := by
  refine Nat.succ_le_succ_iff.trans (Form.depthMembers_le_iff.trans ⟨fun h d hd => ?_, ?_⟩)
  · exact h _ (mem_form.mpr (.inr (.inr ⟨d, hd, rfl⟩)))
  · intro h m hm
    rcases mem_form.mp hm with rfl | rfl | ⟨d, hd, rfl⟩
    · exact Nat.zero_le _
    · exact Nat.zero_le _
    · exact h d hd

/-- Data of every kind has a place in memory, so the error can be written. -/
theorem encode_eq (h : i.Canonical) : i.encode = .ok i.form.text := by
  obtain ⟨code, message, data⟩ := i
  cases data with
  | none => rfl
  | some d =>
    obtain ⟨object, hm⟩ := ErrorData.exists_inMemory (h d rfl)
    have hdata : (some d).mapM ErrorData.toValue = .ok (some (.object object.entries)) := by
      show some <$> d.toValue = _
      rw [hm.toValue]
      rfl
    rw [encode, hdata]
    rfl

/-! ## Construction -/

theorem valid_iff : Valid i ↔ ∀ d, i.data = some d → checkCode i.code d = .ok () ∧ Valid d := by
  obtain ⟨code, message, data⟩ := i
  cases data with
  | none => exact ⟨fun _ _ => nofun, fun _ => rfl⟩
  | some d =>
    have hvalid : Valid (⟨code, message, some d⟩ : ErrorInfo) ↔
        checkCode code d = .ok () ∧ (validate d).mapError (·.within "data") = .ok () :=
      Outcome.check_bind_eq_ok_iff
    rw [hvalid, Outcome.mapError_eq_ok_iff]
    exact ⟨fun h d' hd' => by cases hd'; exact h, fun h => h d rfl⟩

theorem valid_of_new {code : Int32} {message : String} {steps : List ErrorInfoStep}
    (h : (new code message steps).result = .ok i) : Valid i := by
  rw [new, Traced.bind_eq_ok_iff] at h
  obtain ⟨u, -, h⟩ := h
  exact validate_of_build h

/-- The errors that the constructors return. -/
inductive Constructed : ErrorInfo → Prop where
  | new {i : ErrorInfo} {code : Int32} {message : String} {steps : List ErrorInfoStep}
      (h : (ErrorInfo.new code message steps).result = .ok i) : Constructed i
  | ofCode (code : ErrorCode) : Constructed (.ofCode code)
  | methodNotFound (method : String) : Constructed (.methodNotFound method)
  | invalidParams (message : String) : Constructed (.invalidParams message)
  | internalError (message : String) : Constructed (.internalError message)
  | validation {i : ErrorInfo} {failures : List ValidationFailure}
      (h : (ErrorInfo.validation failures).result = .ok i) : Constructed i
  | toolExecution {i : ErrorInfo} {toolName errorKind details : String}
      (h : (ErrorInfo.toolExecution toolName errorKind details).result = .ok i) : Constructed i

/-- Whatever a constructor returns is valid. -/
theorem Constructed.valid (h : Constructed i) : Valid i := by
  cases h with
  | new h => exact valid_of_new h
  | ofCode | methodNotFound | invalidParams | internalError => exact rfl
  | validation h =>
    rw [ErrorInfo.validation, Traced.bind_eq_ok_iff] at h
    obtain ⟨details, hdetails, h⟩ := h
    cases h
    refine valid_iff.mpr fun d hd => ?_
    cases hd
    exact ⟨rfl, validate_of_build (α := ValidationDetails) hdetails⟩
  | toolExecution h =>
    rw [ErrorInfo.toolExecution, Traced.bind_eq_ok_iff] at h
    obtain ⟨details, hdetails, h⟩ := h
    cases h
    refine valid_iff.mpr fun d hd => ?_
    cases hd
    exact ⟨rfl, validate_of_build (α := ToolExecutionDetails) hdetails⟩

/-- Data of a built-in kind stands under the code of its kind. -/
theorem code_eq_of_valid (h : Valid i) {d : ErrorData} (hd : i.data = some d) {code : Int32}
    (hcode : d.expectedCode = some code) : i.code = code := by
  have hcheck := (valid_iff.mp h d hd).1
  unfold checkCode at hcheck
  rw [hcode] at hcheck
  dsimp only at hcheck
  split at hcheck
  · rename_i heq
    exact heq.symm
  · cases hcheck

/-! ## Errors that are written alike -/

/-- The data of the error is an extension that poses as the data of the other one, with which it
agrees otherwise. -/
def Poses (i j : ErrorInfo) : Prop :=
  i.code = j.code ∧ i.message = j.message ∧
    ∃ d d', i.data = some d ∧ j.data = some d' ∧ d.Poses d'

/-- Errors are written alike when their codes and messages agree and their data is written alike. -/
theorem form_eq_form_iff : i.form = j.form ↔
    i.code = j.code ∧ i.message = j.message ∧
      i.data.map ErrorData.form = j.data.map ErrorData.form := by
  obtain ⟨code, message, data⟩ := i
  obtain ⟨code', message', data'⟩ := j
  constructor
  · intro h
    simp only [form, List.cons_append, List.nil_append, Form.object.injEq, List.cons.injEq,
      Prod.mk.injEq, true_and, Form.integer.injEq, Form.string.injEq] at h
    obtain ⟨hcode, hmessage, hdata⟩ := h
    refine ⟨Int32.toInt_inj.mp hcode, hmessage, ?_⟩
    cases data <;> cases data' <;> simp_all
  · rintro ⟨rfl, rfl, hdata⟩
    cases data with
    | none =>
      obtain rfl : data' = none := Option.map_eq_none_iff.mp hdata.symm
      rfl
    | some d =>
      obtain ⟨d', rfl, hform⟩ := Option.map_eq_some_iff.mp hdata.symm
      simp only [form, Option.toList_some, List.map_cons, List.map_nil, hform]

/-- Errors that were constructed have the same text just when they are the same or the data of one
poses as the data of the other. -/
theorem encode_eq_iff {code code' : Int32} {message message' : String}
    {steps steps' : List ErrorInfoStep} (hi : (new code message steps).result = .ok i)
    (hj : (new code' message' steps').result = .ok j) (hci : i.Canonical) (hcj : j.Canonical) :
    (∃ text, i.encode = .ok text) ∧ (∃ text, j.encode = .ok text) ∧
      (i.encode = j.encode ↔ i = j ∨ i.Poses j ∨ j.Poses i) := by
  refine ⟨⟨_, encode_eq hci⟩, ⟨_, encode_eq hcj⟩, ?_⟩
  have hvi := valid_iff.mp (valid_of_new hi)
  have hvj := valid_iff.mp (valid_of_new hj)
  have htext : i.encode = j.encode ↔ i.form = j.form := by
    rw [encode_eq hci, encode_eq hcj, Except.ok.injEq]
    exact ⟨Form.text_injective (writable_form hci) (writable_form hcj) (raws_form hci)
      (raws_form hcj), congrArg Form.text⟩
  rw [htext, form_eq_form_iff]
  obtain ⟨code, message, data⟩ := i
  obtain ⟨code', message', data'⟩ := j
  constructor
  · rintro ⟨rfl, rfl, hdata⟩
    cases data with
    | none =>
      obtain rfl : data' = none := Option.map_eq_none_iff.mp hdata.symm
      exact .inl rfl
    | some d =>
      obtain ⟨d', rfl, hform⟩ := Option.map_eq_some_iff.mp hdata.symm
      have hcases := (ErrorData.form_eq_iff (hci d rfl) (hcj d' rfl) (hvi d rfl).2
        (hvj d' rfl).2).mp hform.symm
      rcases hcases with rfl | h | h
      · exact .inl rfl
      · exact .inr (.inl ⟨rfl, rfl, d, d', rfl, rfl, h⟩)
      · exact .inr (.inr ⟨rfl, rfl, d', d, rfl, rfl, h⟩)
  · rintro (h | ⟨hcode, hmessage, d, d', hd, hd', h⟩ | ⟨hcode, hmessage, d, d', hd, hd', h⟩)
    · cases h
      exact ⟨rfl, rfl, rfl⟩
    · cases hd
      cases hd'
      exact ⟨hcode, hmessage, congrArg some (h.form_eq (hci d rfl))⟩
    · cases hd
      cases hd'
      exact ⟨hcode.symm, hmessage.symm, congrArg some (h.form_eq (hcj d rfl)).symm⟩

/-- An extension with the tag and the member of validation data. -/
def posing : ErrorData :=
  .extension ⟨"validation", .ofList [("validation",
    .array [.object [("error", .string "e"), ("field", .string "f")]])], by decide, rfl⟩

/-- The data as which it poses. -/
def posed : ErrorData := .validation ⟨[⟨"f", "e"⟩]⟩

theorem encode_eq_iff_posing :
    let i : ErrorInfo := ⟨-32602, "m", some posing⟩
    let j : ErrorInfo := ⟨-32602, "m", some posed⟩
    (new (-32602) "m" [.data posing]).result = .ok i ∧
      (new (-32602) "m" [.data posed]).result = .ok j ∧ i.Canonical ∧ j.Canonical ∧
      (∃ text, i.encode = .ok text) ∧ (∃ text, j.encode = .ok text) ∧
        (i.encode = j.encode ↔ i = j ∨ i.Poses j ∨ j.Poses i) := by
  have hi : (new (-32602) "m" [.data posing]).result = .ok ⟨-32602, "m", some posing⟩ := rfl
  have hj : (new (-32602) "m" [.data posed]).result = .ok ⟨-32602, "m", some posed⟩ := rfl
  have hfields : posing.Canonical := by
    refine ⟨List.pairwise_singleton .., ⟨⟨?_, trivial, trivial, trivial⟩, trivial⟩, trivial⟩
    refine List.pairwise_cons.mpr ⟨fun m hm => ?_, List.pairwise_singleton ..⟩
    obtain rfl := List.mem_singleton.mp hm
    show KeyOrder.lt "error" "field" = true
    decide
  have hci : Canonical ⟨-32602, "m", some posing⟩ := fun d hd => by cases hd; exact hfields
  have hcj : Canonical ⟨-32602, "m", some posed⟩ := fun d hd => by cases hd; trivial
  exact ⟨hi, hj, hci, hcj, encode_eq_iff hi hj hci hcj⟩

/-- The two are different errors with one text. -/
theorem encode_posing_eq_encode_posed :
    let i : ErrorInfo := ⟨-32602, "m", some posing⟩
    let j : ErrorInfo := ⟨-32602, "m", some posed⟩
    (new (-32602) "m" [.data posing]).result = .ok i ∧
      (new (-32602) "m" [.data posed]).result = .ok j ∧
      (∃ text, i.encode = .ok text ∧ j.encode = .ok text) ∧ i ≠ j := by
  have htext : encode ⟨-32602, "m", some posed⟩ = encode ⟨-32602, "m", some posing⟩ := rfl
  exact ⟨rfl, rfl, ⟨_, rfl, htext⟩, nofun⟩

end ContextProtocol.ErrorInfo
