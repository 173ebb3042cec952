import ContextProtocol.Proofs.Message.ErrorRegistry
import ContextProtocol.Proofs.Shape.OnValue

/-!
# Registering a kind

A registration is one insertion among the routes. It makes its code known, so under an unknown code
data that was dropped may be refused afterwards; under every other code, and under a code that was
known before, only data with the registered tag can tell the difference. The tag is the string in a
member of the data, but data is looked at the way values are read from memory: there an object that
begins with the reserved name stands for the value in its text, and that may be the tag as well.

* `ErrorRegistry.effectiveTag`: the tag of the data of a code.
* `ErrorRegistry.EmbedsTag`: data in which an object stands for the tag.

Results:
* `knowsCode_register`: a registration makes its own code known and no other.
* `readTag_of_splitTag`, `tag_of_readTag`: the tag that reading arrives at, and where it comes from.
* `decode_register_frame`: whatever a registration leaves alone.
* `embedded_tag_disturbed`: data without a tag that a registration does not leave alone.
-/
namespace ContextProtocol.ErrorRegistry

variable (r : ErrorRegistry)

/-- The tag of the data of a code: the string in its member `errorType`, or the fallback of the code
when there is no such member. Data that is no object has no tag, and neither has data in which that
member is no string. -/
def effectiveTag (code : Int32) : Json → Option String
  | .object members =>
    match (Table.ofList members).get? errorTypeField with
    | none => r.defaults.get? code
    | some v => v.string?
  | _ => none

/-- The member `errorType` of the data is an object that begins with the reserved name and stands
for the tag. -/
def EmbedsTag (tag : String) : Json → Prop
  | .object members => ∃ value rest, (Table.ofList members).get? errorTypeField =
      some (.object ((Doc.embeddedName, value) :: rest)) ∧
        (Decoder.json.runValue (.object ((Doc.embeddedName, value) :: rest))).result =
          .ok (.string tag)
  | _ => False

/-- The tag under which the data of a code is read. -/
def readTag (code : Int32) : Json → Option String
  | .object members =>
    match (Table.ofList members).get? errorTypeField with
    | none => r.defaults.get? code
    | some v => (Decoder.json.runValue v).found.bind Json.string?
  | _ => none

/-- Data is read under its own tag or under one that an object in it stands for. -/
theorem tag_of_readTag {code : Int32} {data : Json} {tag : String}
    (h : r.readTag code data = some tag) :
    r.effectiveTag code data = some tag ∨ EmbedsTag tag data := by
  cases data with
  | object members =>
    rw [readTag] at h
    rw [effectiveTag, EmbedsTag]
    cases hget : (Table.ofList members).get? errorTypeField with
    | none =>
      rw [hget] at h
      exact .inl h
    | some v =>
      rw [hget] at h
      by_cases hembedded : ∃ value rest, v = .object ((Doc.embeddedName, value) :: rest)
      · obtain ⟨value, rest, rfl⟩ := hembedded
        obtain ⟨w, hw, htag⟩ := Option.bind_eq_some_iff.mp h
        obtain rfl := Json.string?_eq_some_iff.mp htag
        exact .inr ⟨value, rest, rfl, Traced.found_eq_some_iff.mp hw⟩
      · have hself := Decoder.found_json_string fun value rest heq => hembedded ⟨value, rest, heq⟩
        exact .inl (hself.symm.trans h)
  | _ => cases h

/-- A code is known when one of its tags has a reader. -/
theorem knowsCode_iff {code : Int32} :
    r.knowsCode code = true ↔ ∃ tag reader, r.routes.get? (code, tag) = some reader := by
  constructor
  · intro h
    obtain ⟨key, hkey, hcode⟩ := List.any_eq_true.mp h
    obtain ⟨⟨⟨other, tag⟩, reader⟩, hentry, rfl⟩ := List.mem_map.mp hkey
    obtain rfl : other = code := of_decide_eq_true hcode
    exact ⟨tag, reader, Table.mem_entries_iff.mp hentry⟩
  · rintro ⟨tag, reader, h⟩
    exact knowsCode_of_get? h

/-- A registration makes its own code known and no other. -/
theorem knowsCode_register (code other : Int32) (tag : String) (reader : ErrorData.Reader) :
    (r.register code tag reader).knowsCode other = true ↔
      other = code ∨ r.knowsCode other = true := by
  rw [knowsCode_iff, knowsCode_iff]
  constructor
  · rintro ⟨tag', reader', h⟩
    by_cases hpair : (other, tag') = (code, tag)
    · exact .inl (congrArg Prod.fst hpair)
    · exact .inr ⟨tag', reader', (Table.get?_insert_of_ne _ hpair _).symm.trans h⟩
  · rintro (rfl | ⟨tag', reader', h⟩)
    · exact ⟨tag, reader, Table.get?_insert_self ..⟩
    by_cases hpair : (other, tag') = (code, tag)
    · exact ⟨tag', reader, hpair ▸ Table.get?_insert_self ..⟩
    · exact ⟨tag', reader', (Table.get?_insert_of_ne _ hpair _).trans h⟩

/-- The tag that is split off, or the fallback, is the one that data is read under. -/
theorem readTag_of_splitTag (code : Int32) {data : Json} {tag? : Option String}
    {object : Dict Json} (h : splitTag errorTypeField data = .ok (tag?, object)) :
    r.readTag code data = tag?.or (r.defaults.get? code) := by
  unfold splitTag at h
  obtain ⟨found, hfound, htag⟩ := Outcome.bind_eq_ok_iff.mp h
  rw [Outcome.mapError_eq_ok_iff] at hfound
  clear h
  cases data with
  | object members =>
    have hget := Decoder.get?_of_dict hfound errorTypeField
    cases hmember : (Table.ofList members).get? errorTypeField with
    | none =>
      rw [hmember] at hget
      have hnone : found.get? errorTypeField = none := Option.map_eq_none_iff.mp hget.symm
      rw [hnone] at htag
      cases htag
      simp only [readTag, hmember, Option.none_or]
    | some v =>
      rw [hmember] at hget
      obtain ⟨w, hw, hread⟩ := Option.map_eq_some_iff.mp hget.symm
      cases w with
      | string tag =>
        rw [hw] at htag
        cases htag
        simp only [readTag, hmember, ← hread, Option.bind_some, Json.string?, Option.some_or]
      | _ =>
        rw [hw] at htag
        cases htag
  | _ => cases hfound

/-- Data is read alike under a code that both registries know, if they fall back on the same tag and
have the same reader for the tag it is read under. -/
theorem decode_congr {r r' : ErrorRegistry} {code : Int32} {data : Json}
    (hknown : r'.knowsCode code = r.knowsCode code)
    (hdefault : r'.defaults.get? code = r.defaults.get? code)
    (hroute : ∀ tag, r.readTag code data = some tag →
      r'.routes.get? (code, tag) = r.routes.get? (code, tag)) :
    r'.decode code data = r.decode code data := by
  unfold decode
  rw [hknown, hdefault]
  refine if_congr Iff.rfl rfl (Traced.bind_congr fun found hfound => ?_)
  obtain ⟨tag?, object⟩ := found
  have htag := r.readTag_of_splitTag code hfound
  dsimp only
  cases hor : tag?.or (r.defaults.get? code) with
  | none => rfl
  | some tag =>
    dsimp only
    rw [hroute tag (htag.trans hor)]

/-- Whatever a registration leaves alone: data under every other code; under a code that was known
before, data whose tag is another one or that has none, unless an object in it stands for the
registered tag; and the other registrations, of which those for one pair replace one another and the
rest can be made in any order. -/
theorem decode_register_frame (code : Int32) (tag : String) (reader : ErrorData.Reader) :
    (∀ other data, other ≠ code →
      (r.register code tag reader).decode other data = r.decode other data) ∧
    (r.knowsCode code = true → ∀ data, r.effectiveTag code data ≠ some tag → ¬ EmbedsTag tag data →
      (r.register code tag reader).decode code data = r.decode code data) ∧
    (∀ code' tag' reader', (code', tag') ≠ (code, tag) →
      (r.register code tag reader).register code' tag' reader' =
        (r.register code' tag' reader').register code tag reader) ∧
    ∀ reader', (r.register code tag reader).register code tag reader' =
      r.register code tag reader' := by
  refine ⟨fun other data hother => ?_, fun hknown data htag hembedded => ?_, ?_, ?_⟩
  · refine decode_congr (Bool.eq_iff_iff.mpr ?_) rfl fun t _ => ?_
    · rw [knowsCode_register, or_iff_right hother]
    · exact Table.get?_insert_of_ne _ (fun h => hother (congrArg Prod.fst h)) _
  · refine decode_congr (Bool.eq_iff_iff.mpr ?_) rfl fun t ht => ?_
    · rw [knowsCode_register]
      exact iff_of_true (.inl rfl) hknown
    · refine Table.get?_insert_of_ne _ (fun h => ?_) _
      obtain rfl : t = tag := congrArg Prod.snd h
      exact (r.tag_of_readTag ht).elim htag hembedded
  · intro code' tag' reader' hpair
    unfold register
    rw [Table.insert_comm _ (Ne.symm hpair)]
  · intro reader'
    unfold register
    rw [Table.insert_insert]

/-- A kind of its own under the code of validation data: untagged data is still validation data, and
a tag that is no string is still refused. -/
theorem decode_register_frame_rateLimit :
    let r := new.register (-32602) "rateLimit" ErrorData.readExtension
    let untagged : Json := .object []
    let mistagged : Json := .object [("errorType", .bool true)]
    (-32603 : Int32) ≠ -32602 ∧ new.knowsCode (-32602) = true ∧
      new.effectiveTag (-32602) untagged = some "validation" ∧
      new.effectiveTag (-32602) mistagged = none ∧
      r.decode (-32603) untagged = new.decode (-32603) untagged ∧
      r.decode (-32602) untagged = new.decode (-32602) untagged ∧
      r.decode (-32602) mistagged = new.decode (-32602) mistagged ∧
      r.register (-32602) "quota" ErrorData.readExtension =
        (new.register (-32602) "quota" ErrorData.readExtension).register (-32602) "rateLimit"
          ErrorData.readExtension := by
  obtain ⟨others, known, commute, -⟩ :=
    decode_register_frame new (-32602) "rateLimit" ErrorData.readExtension
  have huntagged : new.effectiveTag (-32602) (.object []) = some "validation" := rfl
  have hmistagged : new.effectiveTag (-32602) (.object [("errorType", .bool true)]) = none := rfl
  have hplain : ∀ members : List (String × Json), (∀ value rest,
      (Table.ofList members).get? errorTypeField ≠
        some (.object ((Doc.embeddedName, value) :: rest))) →
      ¬ EmbedsTag "rateLimit" (.object members) :=
    fun members h ⟨value, rest, hget, _⟩ => h value rest hget
  refine ⟨by decide, rfl, huntagged, hmistagged, others _ _ (by decide),
    known rfl _ ?_ (hplain _ nofun), known rfl _ ?_ (hplain _ nofun), commute _ _ _ (by decide)⟩
  · rw [huntagged]
    decide
  · rw [hmistagged]
    decide

/-- The tag of this data is no string, and stands for the string that is registered. Before that the
data is refused and afterwards it is read. -/
theorem embedded_tag_disturbed :
    let r := new.register (-32602) "rateLimit" ErrorData.readExtension
    let data : Json :=
      .object [("errorType", .object [(Doc.embeddedName, .string "\"rateLimit\"")])]
    new.knowsCode (-32602) = true ∧ new.effectiveTag (-32602) data = none ∧
      (new.decode (-32602) data).result = .error (.unknownErrorType (-32602) "rateLimit") ∧
      ∃ found, (r.decode (-32602) data).result = .ok (some found) := by
  intro r data
  exact ⟨rfl, rfl, rfl, _, rfl⟩

end ContextProtocol.ErrorRegistry
