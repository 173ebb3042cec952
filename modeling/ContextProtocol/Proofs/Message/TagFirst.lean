import ContextProtocol.Proofs.Message.Content
import ContextProtocol.Proofs.Message.Obtained

/-!
# Tags come first

A tagged object is written in two ways. In memory its tag stands among the members, in the order of
their names. In a text it stands in front of them: it is taken out of the sorted members and written
first. Reading the text leads back to the object in memory, since the order of members does not
survive reading.

* `TagFirst`: a text that begins with the tag of an object and goes on with its other members.

Results:
* `tagFirst_taggedForm`: what is written for a tagged object is such a text.
* `ErrorInfo.exists_toJson`: an error in memory is what its form stands for.
* `tagged_encodings_agree`: for content and for errors, the text is read as the object in memory.
-/
namespace ContextProtocol

/-- The text of an object: its tag, and then its other members in the order of their names. No name
comes twice. -/
structure TagFirst (field tag : String) (object : Dict Json) (text : List Char) : Prop where
  tagged : object.get? field = some (.string tag)
  begins : text = '\x7b' :: Form.quote field ++ ':' :: Form.quote tag ++
    Form.memberChars (Form.ofMembers (object.erase field).entries)
  ordered : Entries.Sorted (object.erase field).entries
  distinct : (field :: (object.erase field).entries.map (·.1)).Nodup

variable {field tag : String} {body : Form} {object : Dict Json}

/-- What is written for a tagged object begins with its tag. -/
theorem tagFirst_taggedForm (hbody : body.Writable) (hraws : body.raws = [])
    (h : taggedObject field tag body = .ok object) :
    TagFirst field tag object (taggedForm field tag body).chars where
  tagged := get?_taggedObject h
  begins := by
    rw [taggedForm_eq hbody hraws (erase_taggedObject h)]
    rfl
  ordered := (object.erase field).sorted
  distinct := by
    refine List.nodup_cons.mpr ⟨fun hmem => ?_, Entries.nodup_keys_of_sorted (Table.sorted _)⟩
    obtain ⟨e, he, hname⟩ := List.mem_map.mp hmem
    exact of_decide_eq_true (List.mem_filter.mp he).2 hname

/-! ## Content -/

namespace Content

/-- The text of valid content is read as the content in memory, and begins with its tag. -/
theorem encodings_agree {c : Content} (h : Valid c) : ∃ text object, c.encode = .ok text ∧
    c.form.toJson = .ok (.object object.entries) ∧
    Json.parseBytes text.toUTF8 = .ok (.object object.entries) ∧
    TagFirst typeField c.type.tag object text.toList := by
  obtain ⟨object, hm⟩ := exists_inMemory h
  obtain ⟨hbody, hraws⟩ := writable_body h
  have hencode : c.encode = .ok c.form.text := by
    rw [encode, encodeTagged_eq hbody hraws hm.tagged]
    rfl
  have hdepth : c.form.depth ≤ Origin.maxDepth := Nat.le_trans hm.shallow.2 (by decide)
  have htext : c.form.text.toList = c.form.chars := String.toList_ofList
  refine ⟨c.form.text, object, hencode, hm.toJson, ?_, ?_⟩
  · exact (Json.parseBytes_text hm.writable hm.shallow.1.bare hdepth).trans hm.toJson
  · rw [htext]
    exact tagFirst_taggedForm hbody hraws hm.tagged

end Content

/-! ## Errors -/

namespace ErrorInfo

variable {i : ErrorInfo}

/-- The form of an error stands for the error in memory. -/
theorem exists_toJson (h : i.Canonical) : ∃ v, i.toValue = .ok v ∧ i.form.toJson = .ok v := by
  obtain ⟨code, message, data⟩ := i
  cases data with
  | none => exact ⟨_, rfl, rfl⟩
  | some d =>
    obtain ⟨object, hm⟩ := ErrorData.exists_inMemory (h d rfl)
    have hvalue : (some d).mapM ErrorData.toValue = .ok (some (.object object.entries)) := by
      show some <$> d.toValue = _
      rw [hm.toValue]
      rfl
    have hmembers : Form.toJsonMembers [("code", .integer code.toInt), ("message", .string message),
        ("data", d.form)] = .ok [("code", .ofInt code.toInt), ("message", .string message),
          ("data", .object object.entries)] := by
      simp only [Form.toJsonMembers, hm.toJson]
      rfl
    refine ⟨_, ?_, congrArg (fun found => found.map Json.ofMembers) hmembers⟩
    rw [toValue, hvalue]
    rfl

/-- The text of an error around the text of its data. -/
def around (i : ErrorInfo) (data : List Char) : List Char :=
  '\x7b' :: Form.quote "code" ++ ':' :: Form.integerChars i.code.toInt ++
    (',' :: Form.quote "message" ++ ':' :: Form.quote i.message ++
      (',' :: Form.quote "data" ++ ':' :: data ++ ['\x7d']))

theorem chars_form {d : ErrorData} (hd : i.data = some d) : i.form.chars = i.around d.form.chars := by
  rw [form, hd]
  rfl

/-- The text of an error is read as the error in memory, and its data begins with its tag, unless an
object inside a field of an extension begins with the reserved name. -/
theorem encodings_agree (hc : i.Canonical) (hbare : i.Bare)
    (hdepth : i.form.depth ≤ Origin.maxDepth) :
    ∃ text v, i.encode = .ok text ∧ i.toValue = .ok v ∧ Json.parseBytes text.toUTF8 = .ok v ∧
      ∀ d, i.data = some d → ∃ object data, d.toValue = .ok (.object object.entries) ∧
        TagFirst errorTypeField d.errorType object data ∧ text.toList = i.around data := by
  obtain ⟨v, hvalue, hjson⟩ := exists_toJson hc
  refine ⟨i.form.text, v, encode_eq hc, hvalue, ?_, fun d hd => ?_⟩
  · exact (Json.parseBytes_text (writable_form hc) (bare_form hc hbare) hdepth).trans hjson
  · obtain ⟨object, hm⟩ := ErrorData.exists_inMemory (hc d hd)
    refine ⟨object, d.form.chars, hm.toValue, ?_, ?_⟩
    · exact tagFirst_taggedForm hm.body_writable hm.body_raws hm.tagged
    · rw [← chars_form hd]
      exact String.toList_ofList

end ErrorInfo

/-- Content and errors are written in two ways that agree: the text is read as the value in memory.
The text of content begins with its tag, and so does the data in the text of an error. An object
inside a field of an extension must not begin with the reserved name. -/
theorem tagged_encodings_agree :
    (∀ c : Content, Valid c → ∃ text object, c.encode = .ok text ∧
      c.form.toJson = .ok (.object object.entries) ∧
      Json.parseBytes text.toUTF8 = .ok (.object object.entries) ∧
      TagFirst Content.typeField c.type.tag object text.toList) ∧
    ∀ i : ErrorInfo, i.Canonical → i.Bare → i.form.depth ≤ Origin.maxDepth →
      ∃ text v, i.encode = .ok text ∧ i.toValue = .ok v ∧ Json.parseBytes text.toUTF8 = .ok v ∧
        ∀ d, i.data = some d → ∃ object data, d.toValue = .ok (.object object.entries) ∧
          TagFirst errorTypeField d.errorType object data ∧ text.toList = i.around data :=
  ⟨fun _ h => Content.encodings_agree h,
    fun _ hc hbare hdepth => ErrorInfo.encodings_agree hc hbare hdepth⟩

/-- A tag with a quote, and a field whose name comes before that of the tag. -/
theorem tagged_encodings_agree_quote :
    let greeting : Content := .text ⟨"hello", none⟩
    let fields : Dict Json := .ofList [("a", .array [.null]), ("z", .object [("b", .null)])]
    let i : ErrorInfo := ⟨5, "m", some (.extension ⟨"\"", fields, by decide, rfl⟩)⟩
    Valid greeting ∧ i.Canonical ∧ i.Bare ∧ i.form.depth ≤ Origin.maxDepth ∧
      (∃ text object, greeting.encode = .ok text ∧
        TagFirst Content.typeField "text" object text.toList) ∧
      ∃ text v, i.encode = .ok text ∧ i.toValue = .ok v ∧ Json.parseBytes text.toUTF8 = .ok v ∧
        ∃ object data, TagFirst errorTypeField "\"" object data ∧ text.toList = i.around data := by
  intro greeting fields i
  have hvalid : Valid greeting := rfl
  have hfields : (Json.object fields.entries).Canonical := by decide
  have hcanonical : i.Canonical := fun d hd => Option.some.inj hd ▸ hfields
  have hvalues : ∀ e ∈ fields.entries, (Form.ofJson e.2).Bare := by decide
  have hbare : i.Bare := fun d hd => Option.some.inj hd ▸ hvalues
  have hdepth : i.form.depth ≤ Origin.maxDepth := by decide
  obtain ⟨hcontent, herror⟩ := tagged_encodings_agree
  obtain ⟨text, object, hencode, -, -, hfirst⟩ := hcontent greeting hvalid
  obtain ⟨text', v, hencode', hvalue, hparse, hdata⟩ := herror i hcanonical hbare hdepth
  obtain ⟨object', data, -, hfirst', haround⟩ := hdata _ rfl
  exact ⟨hvalid, hcanonical, hbare, hdepth, ⟨text, object, hencode, hfirst⟩, text', v, hencode',
    hvalue, hparse, object', data, hfirst', haround⟩

/-- An object that begins with the reserved name is a value in memory like any other, but its text
is not read as that value. -/
theorem encodings_disagree_reserved :
    let inner : Json := .object [(Doc.embeddedName, .number (.integer 5 (by decide))),
      ("a", .number (.integer 1 (by decide)))]
    let data : ErrorData := .extension ⟨"t", .ofList [("x", inner)], by decide, rfl⟩
    let i : ErrorInfo := ⟨5, "m", some data⟩
    (ErrorInfo.new 5 "m" [.data data]).result = .ok i ∧ i.Canonical ∧
      i.form.depth ≤ Origin.maxDepth ∧
      ∃ text v, i.encode = .ok text ∧ i.toValue = .ok v ∧ Json.parseBytes text.toUTF8 ≠ .ok v := by
  intro inner data i
  have hfields : (Json.object [("x", inner)]).Canonical := by decide
  have hcanonical : i.Canonical := fun d hd => Option.some.inj hd ▸ hfields
  obtain ⟨v, hvalue, -⟩ := ErrorInfo.exists_toJson hcanonical
  have hrefused : (Json.parseBytes i.form.text.toUTF8).toOption = none := by
    have hread : (Json.parseBytes i.form.text.toUTF8).toOption.isNone = true := by decide +kernel
    exact Option.isNone_iff_eq_none.mp hread
  refine ⟨rfl, hcanonical, by decide, i.form.text, v, ErrorInfo.encode_eq hcanonical, hvalue, ?_⟩
  intro hparse
  rw [hparse] at hrefused
  cases hrefused

end ContextProtocol
