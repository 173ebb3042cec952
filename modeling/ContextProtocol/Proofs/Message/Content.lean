import ContextProtocol.Message.Content
import ContextProtocol.Proofs.Decimal.FloatOrder
import ContextProtocol.Proofs.Message.Tagged

/-!
# Content that reads what it writes

The three variants share member names and leave unset members out, and all of them go under the
tag `type`. Valid content is written, and what is read is valid, so reading brings every text into
one form.

Results:
* `Annotations.roundTrips`: annotations come back with the bits of their priority.
* `TextContent.taggable`, `ImageContent.taggable`, `ResourceContent.taggable`: the three variants.
* `Content.inMemory`: what valid content is in memory, and that it is read from there.
* `Content.roundTrips`: content inside other values.
-/
namespace ContextProtocol

/-! ## Numbers from 0 to 1 -/

theorem checkRange_unit_eq_ok_iff {field : String} {x : Float} :
    checkRange field x 0 1 = .ok () ↔ x.isNaN = false ∧ 0 ≤ x ∧ x ≤ 1 := by
  have hzero : (0 : Float).isNaN = false := by decide
  have hone : (1 : Float).isNaN = false := by decide +kernel
  rw [checkRange_eq_ok_iff]
  exact and_congr_right fun hnan =>
    and_congr (Decimal.not_lt_iff_le hnan hzero) (Decimal.not_lt_iff_le hone hnan)

/-- A number from 0 to 1 is no infinity and no NaN. -/
theorem isFinite_of_checkRange_unit {field : String} {x : Float}
    (h : checkRange field x 0 1 = .ok ()) : x.isFinite = true := by
  obtain ⟨hnan, hlow, hhigh⟩ := (checkRange_eq_ok_iff field x 0 1).mp h
  exact Decimal.isFinite_of_between hnan (by decide) hlow (by decide +kernel) hhigh

namespace Role

theorem roundTrips (role : Role) : codec.RoundTrips role := by
  have hname : (all.map fun r => (r.text, r)).find? (fun w => w.2 == role) =
      some (role.text, role) := by
    cases role <;> rfl
  exact Codec.RoundTrips.word hname (by cases role <;> rfl)

theorem shallow (role : Role) : (codec.encode role).Shallow 0 := by
  cases role <;> exact ⟨trivial, Nat.le_refl _⟩

end Role

/-! ## Annotations -/

namespace Annotations

variable {a : Annotations}

theorem valid_iff : Valid a ↔
    repeatedRole [] a.audience = none ∧ checkPriority a.priority = .ok () := by
  cases hrole : repeatedRole [] a.audience with
  | none => simp [Valid, validate, hrole]
  | some role => simp [Valid, validate, hrole]

theorem isFinite_priority (h : Valid a) {p : Float} (hp : a.priority = some p) :
    p.isFinite = true := by
  have hcheck := (valid_iff.mp h).2
  rw [hp] at hcheck
  exact isFinite_of_checkRange_unit hcheck

theorem roundTrips (h : Valid a) : codec.RoundTrips a := by
  refine Record.roundTrips (by decide) ⟨?_, ?_, trivial⟩
  · exact Field.holds_listed fun role _ => Role.roundTrips role
  · refine Field.holds_optional ?_
    intro p hp
    have hfinite := isFinite_priority h hp
    exact ⟨Codec.RoundTrips.float hfinite, Codec.present_float hfinite⟩

theorem shallow (a : Annotations) : (codec.encode a).Shallow 2 := by
  refine Record.shallow ⟨fun _ => ⟨by decide, ?_⟩, fun hw => ⟨by decide, ?_⟩, trivial⟩
  · refine Form.shallow_array ?_
    intro item hitem
    obtain ⟨role, -, rfl⟩ := List.mem_map.mp hitem
    exact Role.shallow role
  · exact Field.written_optional (fun p _ => ⟨trivial, Nat.zero_le _⟩) hw

theorem check_eq_ok_iff {annotations : Option Annotations} :
    check annotations = .ok () ↔ ∀ a, annotations = some a → Valid a := by
  cases annotations with
  | none => exact ⟨fun _ _ => nofun, fun _ => rfl⟩
  | some a =>
    rw [check, Outcome.mapError_eq_ok_iff]
    exact ⟨fun h b hb => by cases hb; exact h, fun h => h a rfl⟩

/-- Annotations that may be unset. -/
theorem holds {annotations : Option Annotations} (h : check annotations = .ok ()) :
    (Field.optional "annotations" codec).Holds annotations :=
  Field.holds_optional fun a ha =>
    ⟨roundTrips (check_eq_ok_iff.mp h a ha), Codec.present_of_object rfl⟩

theorem shallow_optional {annotations : Option Annotations}
    (hw : (Field.optional "annotations" codec).omitted annotations = false) :
    ((Field.optional "annotations" codec).codec.encode annotations).Shallow 2 :=
  Field.written_optional (fun a _ => shallow a) hw

end Annotations

/-! ## The variants -/

theorem TextContent.shallow (c : TextContent) : (codec.encode c).Shallow 3 :=
  Record.shallow ⟨fun _ => ⟨by decide, trivial, Nat.zero_le _⟩,
    fun hw => ⟨by decide, Annotations.shallow_optional hw⟩, trivial⟩

theorem TextContent.taggable {c : TextContent} (h : Valid c) :
    record.Taggable Content.typeField c where
  names := by decide
  hold := ⟨Field.holds_required (.string _), Annotations.holds h, trivial⟩
  raws := c.shallow.1.raws
  other := by decide
  exact := rfl

theorem ImageContent.shallow (c : ImageContent) : (codec.encode c).Shallow 3 :=
  Record.shallow ⟨fun _ => ⟨by decide, trivial, Nat.zero_le _⟩,
    fun _ => ⟨by decide, trivial, Nat.zero_le _⟩,
    fun hw => ⟨by decide, Annotations.shallow_optional hw⟩, trivial⟩

theorem ImageContent.taggable {c : ImageContent} (h : Valid c) :
    record.Taggable Content.typeField c where
  names := by decide
  hold := ⟨Field.holds_required (.string _), Field.holds_required (.string _),
    Annotations.holds h, trivial⟩
  raws := c.shallow.1.raws
  other := by decide
  exact := rfl

theorem ResourceContent.valid_iff {c : ResourceContent} : Valid c ↔
    c.uri ≠ "" ∧ checkBody c.text c.blob = .ok () ∧ Annotations.check c.annotations = .ok () := by
  rw [← checkNonEmpty_eq_ok_iff "uri", ← Outcome.check_bind_eq_ok_iff,
    ← Outcome.check_bind_eq_ok_iff]
  rfl

theorem ResourceContent.shallow (c : ResourceContent) : (codec.encode c).Shallow 3 :=
  Record.shallow ⟨fun _ => ⟨by decide, trivial, Nat.zero_le _⟩,
    fun hw => ⟨by decide, Field.shallow_optionalText hw⟩,
    fun hw => ⟨by decide, Field.shallow_optionalText hw⟩,
    fun hw => ⟨by decide, Field.shallow_optionalText hw⟩,
    fun hw => ⟨by decide, Annotations.shallow_optional hw⟩, trivial⟩

theorem ResourceContent.hold {c : ResourceContent} (h : Valid c) :
    record.fields.Hold (record.toRow c) :=
  ⟨Field.holds_required (.string _), Field.holds_optionalText _, Field.holds_optionalText _,
    Field.holds_optionalText _, Annotations.holds (valid_iff.mp h).2.2, trivial⟩

theorem ResourceContent.taggable {c : ResourceContent} (h : Valid c) :
    record.Taggable Content.typeField c where
  names := by decide
  hold := hold h
  raws := c.shallow.1.raws
  other := by decide
  exact := rfl

/-! ## Content -/

namespace Content

/-- The content is in memory as the object, and read from there. -/
structure InMemory (c : Content) (object : Dict Json) : Prop where
  tagged : taggedObject typeField c.type.tag c.body = .ok object
  writable : c.form.Writable
  shallow : c.form.Shallow 3
  toJson : c.form.toJson = .ok (.object object.entries)
  read : (fromValue (.object object.entries)).result = .ok c

/-- The object read as a variant. -/
def readAs (object : Dict Json) : ContentType → Except DecodeError Content
  | .text => .text <$> (decodeVariant TextContent.codec "text" object).result
  | .image => .image <$> (decodeVariant ImageContent.codec "image" object).result
  | .resource => .resource <$> (decodeVariant ResourceContent.codec "resource" object).result

theorem ofTag?_eq_some {tag : String} {type : ContentType}
    (h : ContentType.ofTag? tag = some type) : tag = type.tag := by
  have hfound : decide (type.tag = tag) = true :=
    List.find?_some (p := fun t : ContentType => decide (t.tag = tag)) h
  exact (of_decide_eq_true hfound).symm

/-- The tag decides which variant the object is read as. -/
theorem fromValue_eq_ok_iff {v : Json} {c : Content} : (fromValue v).result = .ok c ↔
    ∃ type object, requireTag typeField v = .ok (type.tag, object) ∧
      readAs object type = .ok c := by
  have hread : ∀ (type : ContentType) (object : Dict Json),
      (Traced.report (.codec ("decoding " ++ type.tag ++ " content")) >>= fun _ =>
        match type with
        | .text => .text <$> decodeVariant TextContent.codec type.tag object
        | .image => .image <$> decodeVariant ImageContent.codec type.tag object
        | .resource => .resource <$> decodeVariant ResourceContent.codec type.tag object).result =
      readAs object type := by
    intro type object
    cases type <;> exact (Traced.result_bind _ _).trans (Traced.result_map _ _)
  unfold fromValue
  rw [Traced.result_bind, Traced.result_liftM, Outcome.bind_eq_ok_iff]
  constructor
  · rintro ⟨⟨tag, object⟩, htag, h⟩
    dsimp only at h
    split at h
    · cases h
    · rename_i type htype
      obtain rfl := ofTag?_eq_some htype
      exact ⟨type, object, htag, (hread type object).symm.trans h⟩
  · rintro ⟨type, object, htag, h⟩
    refine ⟨_, htag, ?_⟩
    simp only [ContentType.ofTag?_tag]
    exact (hread type object).trans h

/-- A variant that may go under its tag is in memory as an object from which it is read. -/
theorem exists_inMemory_of {R Step : Type} [Validated R Step] {r : Record R} {v : R} {c : Content}
    (hbody : c.body = r.codec.encode v) (h : r.Taggable typeField v)
    (hs : (r.codec.encode v).Shallow 3) (hv : Valid v)
    (hread : ∀ object, (decodeVariant r.codec c.type.tag object).result = .ok v →
      readAs object c.type = .ok c) :
    ∃ object, c.InMemory object := by
  have htag : c.type.tag ≠ "" := by cases c.type <;> decide
  have hfield : typeField ≠ Doc.embeddedName := by decide
  obtain ⟨object, hobject⟩ := h.taggedObject_ok htag
  obtain ⟨members, hmembers, -⟩ := h.toJson
  have hf : (r.codec.encode v).Writable :=
    Form.writableMembers_iff.mpr h.hold.written.members
  have hdecode := h.decodeVariant hv hobject
  rw [← hbody] at hobject hmembers hf hs
  have hraws : c.body.raws = [] := hbody ▸ h.raws
  have hwritable : c.form.Writable := writable_taggedForm hf hraws hmembers _ _
  have hplain : c.form.Plain := plain_taggedForm hf hraws hmembers hfield hs.1
  have hdepth : c.form.depth ≤ 3 :=
    Nat.le_trans (depth_taggedForm_le hf hraws hmembers _ _) hs.2
  have hjson : c.form.toJson = .ok (.object object.entries) := toJson_taggedForm hf hraws hobject
  have hkept := Json.kept_of_bare (Form.canonical_toJson _ _ hjson)
    (Form.ofJson_eq_sorted hwritable hplain.raws hjson ▸ hplain.sorted.bare)
  exact ⟨object, hobject, hwritable, ⟨hplain, hdepth⟩, hjson, fromValue_eq_ok_iff.mpr
    ⟨c.type, object, requireTag_taggedObject hobject hkept, hread object hdecode⟩⟩

/-- Valid content is in memory as an object from which it is read. -/
theorem exists_inMemory {c : Content} (h : Valid c) : ∃ object, c.InMemory object := by
  cases c with
  | text c =>
    have hc : Valid c := h
    exact exists_inMemory_of rfl (TextContent.taggable hc) c.shallow hc fun _ hread =>
      congrArg (Content.text <$> ·) hread
  | image c =>
    have hc : Valid c := h
    exact exists_inMemory_of rfl (ImageContent.taggable hc) c.shallow hc fun _ hread =>
      congrArg (Content.image <$> ·) hread
  | resource c =>
    have hc : Valid c := h
    exact exists_inMemory_of rfl (ResourceContent.taggable hc) c.shallow hc fun _ hread =>
      congrArg (Content.resource <$> ·) hread

/-- The body of content is written as it is in memory. -/
theorem writable_body {c : Content} (h : Valid c) : c.body.Writable ∧ c.body.raws = [] := by
  cases c with
  | text c =>
    have hvalid : Valid c := h
    have hc := TextContent.taggable hvalid
    exact ⟨Form.writableMembers_iff.mpr hc.hold.written.members, hc.raws⟩
  | image c =>
    have hvalid : Valid c := h
    have hc := ImageContent.taggable hvalid
    exact ⟨Form.writableMembers_iff.mpr hc.hold.written.members, hc.raws⟩
  | resource c =>
    have hvalid : Valid c := h
    have hc := ResourceContent.taggable hvalid
    exact ⟨Form.writableMembers_iff.mpr hc.hold.written.members, hc.raws⟩

/-- Content inside other values makes the round trip. -/
theorem roundTrips {c : Content} (h : Valid c) : codec.RoundTrips c := by
  obtain ⟨object, hm⟩ := exists_inMemory h
  refine Codec.RoundTrips.refine hm.writable hm.shallow.1 hm.toJson ?_
  rw [Traced.result_mapError, hm.read]
  rfl

/-- What is read is valid. -/
theorem valid_of_fromValue {v : Json} {c : Content} (h : (fromValue v).result = .ok c) :
    Valid c := by
  obtain ⟨type, object, -, hread⟩ := fromValue_eq_ok_iff.mp h
  cases type with
  | text =>
    obtain ⟨w, hw, rfl⟩ := Outcome.fmap_eq_ok_iff.mp hread
    have hvalid : Valid w := valid_of_decodeVariant hw
    exact hvalid
  | image =>
    obtain ⟨w, hw, rfl⟩ := Outcome.fmap_eq_ok_iff.mp hread
    have hvalid : Valid w := valid_of_decodeVariant hw
    exact hvalid
  | resource =>
    obtain ⟨w, hw, rfl⟩ := Outcome.fmap_eq_ok_iff.mp hread
    have hvalid : Valid w := valid_of_decodeVariant hw
    exact hvalid

theorem decode_eq_ok_iff {bytes : ByteArray} {c : Content} : (decode bytes).result = .ok c ↔
    ∃ v, Json.parseBytes bytes = .ok v ∧ (fromValue v).result = .ok c := by
  unfold decode
  rw [Traced.result_bind, Traced.result_liftM, Outcome.bind_eq_ok_iff]
  simp only [Outcome.mapError_eq_ok_iff]

/-- Valid content is written as its form. -/
theorem encode_of_valid {c : Content} (h : Valid c) : c.encode = .ok c.form.text := by
  obtain ⟨object, hm⟩ := exists_inMemory h
  obtain ⟨hbody, hraws⟩ := writable_body h
  unfold encode
  rw [encodeTagged_eq hbody hraws hm.tagged]
  rfl

/-- What is written for valid content is read as that content. -/
theorem decode_of_encode {c : Content} (h : Valid c) :
    ∃ text, c.encode = .ok text ∧ (decode text.toUTF8).result = .ok c := by
  obtain ⟨object, hm⟩ := exists_inMemory h
  have hdepth : c.form.depth ≤ Origin.maxDepth := Nat.le_trans hm.shallow.2 (by decide)
  exact ⟨c.form.text, encode_of_valid h, decode_eq_ok_iff.mpr
    ⟨_, (Json.parseBytes_text hm.writable hm.shallow.1.bare hdepth).trans hm.toJson, hm.read⟩⟩

/-- Valid content survives writing and reading, and whatever is read is valid, so it survives as
well: one reading brings a text into the form that stays. -/
theorem decode_encode :
    (∀ c : Content, Valid c →
      ∃ text, c.encode = .ok text ∧ (decode text.toUTF8).result = .ok c) ∧
    ∀ (bytes : ByteArray) (c : Content), (decode bytes).result = .ok c →
      Valid c ∧ ∃ text, c.encode = .ok text ∧ (decode text.toUTF8).result = .ok c := by
  refine ⟨fun c h => decode_of_encode h, fun bytes c h => ?_⟩
  obtain ⟨v, -, hread⟩ := decode_eq_ok_iff.mp h
  have hvalid := valid_of_fromValue hread
  exact ⟨hvalid, decode_of_encode hvalid⟩

theorem decode_encode_greeting :
    let greeting : Content := .text ⟨"hello", some ⟨[.user], some 0.5⟩⟩
    Valid greeting ∧
      ∃ text, greeting.encode = .ok text ∧ (decode text.toUTF8).result = .ok greeting := by
  have hvalid : Valid (text ⟨"hello", some ⟨[.user], some 0.5⟩⟩) := by decide +kernel
  exact ⟨hvalid, decode_encode.1 _ hvalid⟩

end Content

end ContextProtocol
