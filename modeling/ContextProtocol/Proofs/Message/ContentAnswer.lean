import ContextProtocol.Proofs.Message.Content
import ContextProtocol.Proofs.Message.ErrorAnswer

/-!
# What content is read as

A value is split into its tag and its members, the tag names a variant, the members are looked at
with the eyes of the variant, and last its rules are checked. Here the outcome is said without any
reader, as a function of the value: `Content.answer`.

Results:
* `Annotations.found_eq`: what is found as annotations is what the value says.
* `TextContent.found_eq`, `ImageContent.found_eq`, `ResourceContent.found_eq`: the variants.
* `Annotations.obeys_iff`, `ResourceContent.obeys_iff`: the rules.
* `Content.fromValue_outcome`: reading a value gives its answer.
-/
namespace ContextProtocol

/-! ## The answer -/

/-- What stands under a name; `null` is as good as no member. -/
def Entries.optional? {α : Type} (read : Json → Option α) (members : List (String × Json))
    (name : String) : Option (Option α) :=
  match members.lookup name with
  | none | some .null => some none
  | some v => (read v).map some

/-- A role goes by its name. -/
def Role.ofJson? (v : Json) : Option Role := v.word? (all.map fun r => (r.text, r))

namespace Annotations

/-- An audience is a list of roles. -/
def audience? : Json → Option (List Role)
  | .array items => items.mapM Role.ofJson?
  | _ => none

/-- A priority is a number, or `null` when it is unset. -/
def priority? : Json → Option (Option Float)
  | .null => some none
  | v => v.float?.map some

/-- Annotations are an object with an audience and a priority, or an array of them. Each of the two
may be absent. -/
def ofJson? : Json → Option Annotations
  | .object members => do
    let audience ← ((members.lookup "audience").map audience?).getD (some [])
    let priority ← ((members.lookup "priority").map priority?).getD (some none)
    return ⟨audience, priority⟩
  | .array [] => some ⟨[], none⟩
  | .array [audience] => (audience? audience).map fun audience => ⟨audience, none⟩
  | .array [audience, priority] => do
    let audience ← audience? audience
    let priority ← priority? priority
    return ⟨audience, priority⟩
  | _ => none

/-- No role repeats, and the priority is from 0 to 1. -/
def obeys (a : Annotations) : Bool :=
  a.audience.Nodup ∧ a.priority.all fun p => !p.isNaN && !(p < 0) && !(1 < p)

end Annotations

def TextContent.ofMembers? (members : List (String × Json)) : Option TextContent := do
  let text ← Entries.text? members "text"
  let annotations ← Entries.optional? Annotations.ofJson? members "annotations"
  return ⟨text, annotations⟩

def ImageContent.ofMembers? (members : List (String × Json)) : Option ImageContent := do
  let data ← Entries.text? members "data"
  let mimeType ← Entries.text? members "mimeType"
  let annotations ← Entries.optional? Annotations.ofJson? members "annotations"
  return ⟨data, mimeType, annotations⟩

namespace ResourceContent

def ofMembers? (members : List (String × Json)) : Option ResourceContent := do
  let uri ← Entries.text? members "uri"
  let mimeType ← Entries.optional? Json.string? members "mimeType"
  let text ← Entries.optional? Json.string? members "text"
  let blob ← Entries.optional? Json.string? members "blob"
  let annotations ← Entries.optional? Annotations.ofJson? members "annotations"
  return ⟨uri, mimeType, text, blob, annotations⟩

/-- There is a URI and exactly one body, and the annotations obey their rules. -/
def obeys (c : ResourceContent) : Bool :=
  c.uri ≠ "" ∧ c.text.isSome ≠ c.blob.isSome ∧ c.annotations.all Annotations.obeys

end ResourceContent

namespace Content

/-- Why a value is refused as content, without the reason of a wrong shape or a broken rule. -/
inductive Refusal where
  | shape
  | missingTag
  | unknownTag (tag : String)
  | malformed (tag : String)
  | broken (tag : String)
  deriving DecidableEq

/-- The variant under a tag: the members have to have its shape, and obey its rules. -/
def answerAs {α : Type} (tag : String) (make : α → Content) (rules : α → Bool) :
    Option α → Except Refusal Content
  | none => .error (.malformed tag)
  | some c => if rules c then .ok (make c) else .error (.broken tag)

/-- The members under a tag. -/
def answerTagged (tag : String) (members : List (String × Json)) : Except Refusal Content :=
  match ContentType.ofTag? tag with
  | none => .error (.unknownTag tag)
  | some .text =>
    answerAs tag .text (fun c => c.annotations.all Annotations.obeys)
      (TextContent.ofMembers? members)
  | some .image =>
    answerAs tag .image (fun c => c.annotations.all Annotations.obeys)
      (ImageContent.ofMembers? members)
  | some .resource =>
    answerAs tag .resource ResourceContent.obeys (ResourceContent.ofMembers? members)

/-- What the members of an object are read as. -/
def answerMembers (members : List (String × Json)) : Except Refusal Content :=
  match members.lookup "type" with
  | some (.string tag) => answerTagged tag members
  | _ => .error .missingTag

/-- What a value is read as. -/
def answer : Json → Except Refusal Content
  | .object members => answerMembers members
  | _ => .error .shape

/-- The answer once the members of an object were read, if they could be. -/
def answerRead : Option (Dict Json) → Except Refusal Content
  | none => .error .shape
  | some object => answerMembers object.entries

end Content

/-- The refusal that an error stands for. The other errors are those of other messages. -/
def DecodeError.contentRefusal? : DecodeError → Option Content.Refusal
  | .json _ => some .shape
  | .missingDiscriminator field => if field = Content.typeField then some .missingTag else none
  | .unknownDiscriminator field tag =>
    if field = Content.typeField then some (.unknownTag tag) else none
  | .malformedVariant tag _ => some (.malformed tag)
  | .invalidVariant tag _ => some (.broken tag)
  | _ => none

/-! ## What is found -/

/-- A field that may be unset finds what stands under its name. -/
theorem Field.gather_optional_eq {α : Type} {c : Codec α} {read : Json → Option α} {name : String}
    {members : List (String × Json)}
    (hread : ∀ v, members.lookup name = some v → (c.decode.runValue v).found = read v) :
    ((Field.optional name c).gather .value fun n => (members.lookup n).map Doc.sourced) =
      Entries.optional? read members name := by
  rw [Field.gather_optional, Entries.optional?]
  cases h : members.lookup name with
  | none => rfl
  | some v =>
    cases v with
    | null => rfl
    | _ => simp only [hread _ h]

namespace Annotations

theorem found_audience (v : Json) :
    (Role.codec.list.decode.runValue v).found = audience? v := by
  refine (Decoder.found_list _ v).trans ?_
  cases v with
  | array items =>
    exact congrArg (items.mapM ·) (funext fun v => Decoder.found_word _ v)
  | _ => rfl

theorem found_priority (v : Json) :
    (Codec.float.option.decode.runValue v).found = priority? v := by
  refine (Decoder.found_option _ v).trans ?_
  cases v with
  | null => rfl
  | _ => exact congrArg (Option.map some) (Decoder.found_float _)

theorem found_object {members : List (String × Json)} (hkeys : (members.map (·.1)).Nodup) :
    (codec.decode.runValue (.object members)).found = ofJson? (.object members) := by
  refine (Record.found_members rfl (by decide) hkeys).trans ?_
  rw [ofJson?]
  have haudience : ((Field.listed "audience" Role.codec).gather .value fun n =>
      (members.lookup n).map Doc.sourced) =
        ((members.lookup "audience").map audience?).getD (some []) := by
    rw [Field.gather_lookup]
    cases h : members.lookup "audience" with
    | none => simp [Field.listed, h, Field.absent?]
    | some v => simpa [Field.listed, h] using found_audience v
  have hpriority : ((Field.optional "priority" .float).gather .value fun n =>
      (members.lookup n).map Doc.sourced) =
        ((members.lookup "priority").map priority?).getD (some none) := by
    rw [Field.gather_lookup]
    cases h : members.lookup "priority" with
    | none => simp [Field.optional, h, Field.absent?]
    | some v => simpa [Field.optional, h] using found_priority v
  simp only [record, Fields.gather, haudience, hpriority]
  cases ((members.lookup "audience").map audience?).getD (some []) with
  | none => rfl
  | some audience => cases ((members.lookup "priority").map priority?).getD (some none) <;> rfl

/-- An array of an audience and a priority. -/
theorem found_array (items : List Json) :
    (codec.decode.runValue (.array items)).found = ofJson? (.array items) := by
  have hvalue : Origin.value.enter = .ok .value := rfl
  refine (Record.found_array (r := record) hvalue (Doc.ofItems items)
    (Doc.sourced (.array items)).text).trans ?_
  have haudience : ∀ v, ((Field.listed "audience" Role.codec).codec.decode .value
      (Doc.sourced v)).found = audience? v := found_audience
  have hpriority : ∀ v, ((Field.optional "priority" .float).codec.decode .value
      (Doc.sourced v)).found = priority? v := found_priority
  match items with
  | [] => rfl
  | [audience] =>
    simp only [Doc.ofItems_eq, List.map_cons, List.map_nil, record, Fields.found_readItems_cons,
      haudience]
    cases h : audience? audience with
    | none => simp [ofJson?, h]
    | some readers =>
      simp only [ofJson?, h]
      rfl
  | audience :: priority :: rest =>
    simp only [Doc.ofItems_eq, List.map_cons, record, Fields.found_readItems_cons, haudience,
      hpriority]
    cases h : audience? audience with
    | none => cases rest <;> simp [ofJson?, h]
    | some readers =>
      cases h' : priority? priority with
      | none => cases rest <;> simp [ofJson?, h, h']
      | some p =>
        cases rest with
        | nil =>
          simp only [ofJson?, h, h']
          rfl
        | cons item rest => rfl

theorem found_eq {v : Json} (hv : v.Canonical) : (codec.decode.runValue v).found = ofJson? v := by
  cases v with
  | object members => exact found_object (Entries.nodup_keys_of_sorted hv.1)
  | array items => exact found_array items
  | _ => rfl

end Annotations

/-! ### The variants -/

section Members

variable {members : List (String × Json)} (hc : (Json.object members).Canonical)
include hc

theorem Annotations.gather_eq : ((Field.optional "annotations" Annotations.codec).gather .value
    fun n => (members.lookup n).map Doc.sourced) =
      Entries.optional? ofJson? members "annotations" :=
  Field.gather_optional_eq fun _ hv =>
    found_eq (Json.canonicalMembers_iff.mp hc.2 _ (Entries.mem_of_lookup hv))

theorem TextContent.found_eq :
    (codec.decode.runValue (.object members)).found = ofMembers? members := by
  refine (Record.found_members rfl (by decide) (Entries.nodup_keys_of_sorted hc.1)).trans ?_
  simp only [record, Fields.gather, Field.gather_text, Annotations.gather_eq hc, ofMembers?]
  cases Entries.text? members "text" with
  | none => rfl
  | some text => cases Entries.optional? Annotations.ofJson? members "annotations" <;> rfl

theorem ImageContent.found_eq :
    (codec.decode.runValue (.object members)).found = ofMembers? members := by
  refine (Record.found_members rfl (by decide) (Entries.nodup_keys_of_sorted hc.1)).trans ?_
  simp only [record, Fields.gather, Field.gather_text, Annotations.gather_eq hc, ofMembers?]
  cases Entries.text? members "data" with
  | none => rfl
  | some data =>
    cases Entries.text? members "mimeType" with
    | none => rfl
    | some mimeType => cases Entries.optional? Annotations.ofJson? members "annotations" <;> rfl

theorem ResourceContent.found_eq :
    (codec.decode.runValue (.object members)).found = ofMembers? members := by
  have htext : ∀ name, ((Field.optional name .string).gather .value fun n =>
      (members.lookup n).map Doc.sourced) = Entries.optional? Json.string? members name :=
    fun name => Field.gather_optional_eq fun v _ => Decoder.found_string v
  refine (Record.found_members rfl (by decide) (Entries.nodup_keys_of_sorted hc.1)).trans ?_
  simp only [record, Fields.gather, Field.gather_text, htext, Annotations.gather_eq hc, ofMembers?]
  rcases Entries.text? members "uri" with _ | uri
  · rfl
  rcases Entries.optional? Json.string? members "mimeType" with _ | mimeType
  · rfl
  rcases Entries.optional? Json.string? members "text" with _ | text
  · rfl
  rcases Entries.optional? Json.string? members "blob" with _ | blob
  · rfl
  cases Entries.optional? Annotations.ofJson? members "annotations" <;> rfl

end Members

/-! ### The rules -/

namespace Annotations

/-- No role is found twice when none repeats and none was seen before. -/
theorem repeatedRole_eq_none_iff {audience : List Role} : ∀ {seen : List Role},
    repeatedRole seen audience = none ↔ audience.Nodup ∧ ∀ role ∈ audience, role ∉ seen := by
  induction audience with
  | nil => simp [repeatedRole]
  | cons role rest ih =>
    intro seen
    rw [repeatedRole]
    by_cases hrole : role ∈ seen
    · simp [hrole]
    · rw [if_neg hrole, ih, List.nodup_cons, List.forall_mem_cons]
      simp only [List.mem_cons, not_or]
      constructor
      · rintro ⟨hrest, hseen⟩
        exact ⟨⟨fun h => (hseen role h).1 rfl, hrest⟩, hrole, fun r hr => (hseen r hr).2⟩
      · rintro ⟨⟨hnew, hrest⟩, -, hseen⟩
        exact ⟨hrest, fun r hr => ⟨fun h => hnew (h ▸ hr), hseen r hr⟩⟩

theorem obeys_iff (a : Annotations) : a.obeys = true ↔ Valid a := by
  have hpriority : checkPriority a.priority = .ok () ↔
      (a.priority.all fun p => !p.isNaN && !(p < 0) && !(1 < p)) = true := by
    cases a.priority with
    | none => exact ⟨fun _ => rfl, fun _ => rfl⟩
    | some p =>
      rw [checkPriority, checkRange_eq_ok_iff]
      simp [and_assoc]
  rw [valid_iff, hpriority, repeatedRole_eq_none_iff, obeys, decide_eq_true_iff]
  simp

theorem all_obeys_iff (annotations : Option Annotations) :
    annotations.all obeys = true ↔ check annotations = .ok () := by
  rw [check_eq_ok_iff]
  cases annotations with
  | none => exact ⟨fun _ => nofun, fun _ => rfl⟩
  | some a => simp [obeys_iff]

end Annotations

theorem ResourceContent.obeys_iff (c : ResourceContent) : c.obeys = true ↔ Valid c := by
  have hbody : checkBody c.text c.blob = .ok () ↔ c.text.isSome ≠ c.blob.isSome := by
    unfold checkBody
    cases c.text <;> cases c.blob <;> simp
  rw [valid_iff, hbody, ← Annotations.all_obeys_iff, obeys, decide_eq_true_iff]

/-! ## The outcome -/

namespace Content

/-- The members are read as the variant, and then its rules are looked at. -/
theorem refusal_readAs {α Step : Type} [Validated α Step] (codec : Codec α) (tag : String)
    (object : Dict Json) (make : α → Content) {rules : α → Bool}
    (hrules : ∀ c : α, rules c = true ↔ Valid c) :
    (make <$> (decodeVariant codec tag object).result).mapError DecodeError.contentRefusal? =
      (answerAs tag make rules
        (codec.decode.runValue (.object object.entries)).found).mapError some := by
  have hmalformed : ∀ e,
      (DecodeError.malformedVariant tag e).contentRefusal? = some (.malformed tag) := fun _ => rfl
  have hbroken : ∀ e,
      (DecodeError.invalidVariant tag e).contentRefusal? = some (.broken tag) := fun _ => rfl
  rw [Outcome.mapError_fmap, mapError_decodeVariant hmalformed hbroken hrules]
  cases (codec.decode.runValue (.object object.entries)).found with
  | none => rfl
  | some c => cases h : rules c <;> simp [answerAs, h]

/-- The variant that a tag names is read from the object. -/
theorem refusal_ofTag {type : ContentType} {object : Dict Json}
    (hc : (Json.object object.entries).Canonical) :
    (readAs object type).mapError DecodeError.contentRefusal? =
      (answerTagged type.tag object.entries).mapError some := by
  rw [answerTagged, ContentType.ofTag?_tag]
  cases type with
  | text =>
    refine (refusal_readAs _ "text" object .text fun c => Annotations.all_obeys_iff _).trans ?_
    rw [TextContent.found_eq hc]
    rfl
  | image =>
    refine (refusal_readAs _ "image" object .image fun c => Annotations.all_obeys_iff _).trans ?_
    rw [ImageContent.found_eq hc]
    rfl
  | resource =>
    refine (refusal_readAs _ "resource" object .resource ResourceContent.obeys_iff).trans ?_
    rw [ResourceContent.found_eq hc]
    rfl

/-- What follows the tag. -/
theorem result_fromValue {v : Json} {tag : String} {object : Dict Json}
    (h : requireTag typeField v = .ok (tag, object)) : (fromValue v).result =
      match ContentType.ofTag? tag with
      | none => .error (.unknownDiscriminator typeField tag)
      | some type => readAs object type := by
  unfold fromValue
  rw [Traced.result_bind, Traced.result_liftM, h]
  cases htype : ContentType.ofTag? tag with
  | none => simp only [Outcome.ok_bind, htype]; rfl
  | some type =>
    obtain rfl := ofTag?_eq_some htype
    simp only [Outcome.ok_bind, htype]
    cases type <;> exact (Traced.result_bind _ _).trans (Traced.result_map _ _)

/-- An object is read as its members say. -/
theorem refusal_of_read {v : Json} {object : Dict Json}
    (h : ((Decoder.dict .json).runValue v).result = .ok object)
    (hc : (Json.object object.entries).Canonical) :
    (fromValue v).result.mapError DecodeError.contentRefusal? =
      (answerMembers object.entries).mapError some := by
  have htag : requireTag typeField v =
      match object.entries.lookup "type" with
      | some (.string tag) => .ok (tag, object)
      | _ => .error (.missingDiscriminator typeField) := by
    unfold requireTag splitTag
    rw [h, Outcome.mapError_ok, Outcome.ok_bind]
    have hget : object.get? typeField = object.entries.lookup "type" := rfl
    rw [hget]
    cases object.entries.lookup "type" with
    | none => rfl
    | some tag => cases tag <;> rfl
  have hmissing : requireTag typeField v = .error (.missingDiscriminator typeField) →
      (fromValue v).result.mapError DecodeError.contentRefusal? = .error (some .missingTag) := by
    intro htag
    unfold fromValue
    rw [Traced.result_bind, Traced.result_liftM, htag]
    rfl
  unfold answerMembers
  cases hlookup : object.entries.lookup "type" with
  | none => exact hmissing (by rw [htag, hlookup])
  | some tag =>
    cases tag with
    | string tag =>
      rw [hlookup] at htag
      rw [result_fromValue htag]
      cases htype : ContentType.ofTag? tag with
      | none =>
        simp only [answerTagged, htype]
        rfl
      | some type =>
        obtain rfl := ofTag?_eq_some htype
        exact refusal_ofTag hc
    | _ => exact hmissing (by rw [htag, hlookup])

/-- What an object is split into is in order. -/
theorem canonical_of_read {v : Json} {object : Dict Json}
    (h : ((Decoder.dict .json).runValue v).result = .ok object) :
    (Json.object object.entries).Canonical := by
  refine ⟨object.sorted, Json.canonicalMembers_iff.mpr fun e he => ?_⟩
  cases v with
  | object members =>
    have hget : object.get? e.1 = some e.2 := Table.mem_entries_iff.mp he
    have hfound := Decoder.get?_of_dict h e.1
    rw [hget, Option.map_some, Option.map_eq_some_iff] at hfound
    obtain ⟨w, -, hw⟩ := hfound
    exact Doc.canonical_jsonWithin _ _ _ _ (Outcome.toOption_eq_some_iff.mp hw)
  | _ => cases h

/-- Content is refused for the reasons of content alone. -/
theorem isUnknownDiscriminator_iff {e : DecodeError} {refusal : Refusal}
    (h : e.contentRefusal? = some refusal) :
    e.isUnknownDiscriminator = true ↔ ∃ tag, refusal = .unknownTag tag := by
  cases e with
  | unknownDiscriminator field tag =>
    refine iff_of_true rfl ?_
    by_cases hfield : field = typeField
    · rw [DecodeError.contentRefusal?, if_pos hfield] at h
      exact ⟨tag, (Option.some.inj h).symm⟩
    · rw [DecodeError.contentRefusal?, if_neg hfield] at h
      cases h
  | missingDiscriminator field =>
    refine iff_of_false nofun ?_
    rintro ⟨tag, rfl⟩
    rw [DecodeError.contentRefusal?] at h
    split at h <;> cases h
  | json _ =>
    cases h
    exact iff_of_false nofun nofun
  | malformedVariant _ _ =>
    cases h
    exact iff_of_false nofun nofun
  | invalidVariant _ _ =>
    cases h
    exact iff_of_false nofun nofun
  | _ => cases h

theorem lookup_type_of_answer {members : List (String × Json)} {c : Content}
    (h : answerMembers members = .ok c) : members.lookup "type" = some (.string c.type.tag) := by
  have has : ∀ {α : Type} {make : α → Content} {rules : α → Bool} {found : Option α} {tag : String},
      answerAs tag make rules found = .ok c → ∃ a, c = make a := by
    intro α make rules found tag h
    cases found with
    | none => cases h
    | some a =>
      rw [answerAs] at h
      split at h
      · exact ⟨a, (Except.ok.inj h).symm⟩
      · cases h
  unfold answerMembers at h
  split at h
  · rename_i tag hlookup
    rw [hlookup]
    rw [answerTagged] at h
    cases htype : ContentType.ofTag? tag with
    | none =>
      rw [htype] at h
      cases h
    | some type =>
      rw [htype] at h
      obtain rfl := ofTag?_eq_some htype
      cases type <;> obtain ⟨a, rfl⟩ := has h <;> rfl
  · cases h

/-- Reading a value gives its answer, if no object in its members begins with the reserved name.
Otherwise the members are what they are read as, where an object of the reserved name stands for the
value in its text, and a value that cannot be read is refused for its shape. Either way an unknown
tag is the only reason that is told apart as one, and content goes by the tag that it was read
under. -/
theorem fromValue_outcome (v : Json) :
    (v.Canonical → (∀ members, v = .object members → ∀ e ∈ members, (Form.ofJson e.2).Bare) →
      (fromValue v).result.mapError DecodeError.contentRefusal? = (answer v).mapError some) ∧
    ((fromValue v).result.mapError DecodeError.contentRefusal? =
      (answerRead ((Decoder.dict .json).runValue v).found).mapError some) ∧
    (∀ e, (fromValue v).result = .error e → (e.isUnknownDiscriminator = true ↔
      ∃ tag, e.contentRefusal? = some (.unknownTag tag))) ∧
    ∀ members c, answer (.object members) = .ok c →
      members.lookup "type" = some (.string c.type.tag) := by
  have hread : (fromValue v).result.mapError DecodeError.contentRefusal? =
      (answerRead ((Decoder.dict .json).runValue v).found).mapError some := by
    rw [Traced.found]
    cases h : ((Decoder.dict .json).runValue v).result with
    | ok object => exact refusal_of_read h (canonical_of_read h)
    | error e =>
      have htag : requireTag typeField v = .error (.json e) := by
        unfold requireTag splitTag
        rw [h]
        rfl
      unfold fromValue
      rw [Traced.result_bind, Traced.result_liftM, htag]
      rfl
  refine ⟨fun hc hbare => ?bare, hread, fun e he => ?unknown,
    fun members c => lookup_type_of_answer⟩
  case bare =>
    cases v with
    | object members =>
      have hdict := Decoder.dict_json (d := ⟨members, hc.1⟩) fun e he =>
        (Json.ofDoc_eq_self_iff (Json.canonicalMembers_iff.mp hc.2 e he)).mpr
          ⟨hbare members rfl e he, trivial⟩
      exact refusal_of_read hdict hc
    | _ => exact hread
  case unknown =>
    rw [he, Outcome.mapError_error] at hread
    cases h : answerRead ((Decoder.dict .json).runValue v).found with
    | ok c =>
      rw [h] at hread
      cases hread
    | error refusal =>
      rw [h] at hread
      have hrefusal : e.contentRefusal? = some refusal := Except.error.inj hread
      rw [isUnknownDiscriminator_iff hrefusal, hrefusal]
      simp only [Option.some.injEq]

/-- A role repeats in the audience of a text, once as a word and once as an object. -/
theorem fromValue_outcome_repeated :
    let v : Json := .object [("annotations", .object [("audience",
      .array [.string "user", .object [("user", .null)]])]), ("text", .string "t"),
      ("type", .string "text")]
    v.Canonical ∧ (∀ members, v = .object members → ∀ e ∈ members, (Form.ofJson e.2).Bare) ∧
      (fromValue v).result.mapError DecodeError.contentRefusal? =
        .error (some (.broken "text")) := by
  intro v
  have hc : v.Canonical := by decide +kernel
  have hbare : ∀ members, v = .object members → ∀ e ∈ members, (Form.ofJson e.2).Bare := by
    intro members hmembers
    obtain rfl := Json.object.inj hmembers
    decide +kernel
  have hanswer : answer v = .error (.broken "text") := by rfl
  refine ⟨hc, hbare, ?_⟩
  rw [(fromValue_outcome v).1 hc hbare, hanswer]
  rfl

/-- A member that no variant has is refused when it begins with the reserved name. -/
theorem fromValue_reserved_refused :
    let v : Json := .object [("text", .string "t"), ("type", .string "text"),
      ("x", .object [(Doc.embeddedName, .number (.integer 5 (by decide))),
        ("a", .number (.integer 1 (by decide)))])]
    v.Canonical ∧ answer v = .ok (.text ⟨"t", none⟩) ∧
      (fromValue v).result.mapError DecodeError.contentRefusal? = .error (some .shape) := by
  intro v
  exact ⟨by decide +kernel, rfl, rfl⟩

end Content

end ContextProtocol
