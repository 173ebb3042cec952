import ContextProtocol.Proofs.Message.Tagged
import ContextProtocol.Proofs.Shape.OnValue

/-!
# Tags that are split off again

A body of any shape may be put under a tag. It is refused when the tag is empty, when it is no object
and when it has a member named like the tag, so no member of a body ever takes the place of the tag.
Otherwise the tag can be split off again, in memory and after the way through a text, and the members
of the body are left.

This holds of bodies that stand for themselves. Splitting reads the members as values, and an object
that begins with the reserved name is read as the value in the text of that member. Through a text
the members are read twice, and even so they never end up as such an object: the text under the
reserved name is longer than any string that is read from it.

* `SplitsInto`: the tag and the members that a value is split into.

Results:
* `encodeTagged_eq_error_iff`: what is refused in memory is refused on its way out.
* `splitsInto_object_iff`: when the object in memory is split into the tag and the body.
* `splitsInto_text_iff`: when the text is.
* `tags_split_off_again`: all of it, for every tag and every body.
-/
namespace ContextProtocol

/-- The value is split into the tag and an object, which without the tag has the members. -/
def SplitsInto (field tag : String) (members : List (String × Json)) (v : Json) : Prop :=
  ∃ object, splitTag field v = .ok (some tag, object) ∧ (object.erase field).entries = members

variable {field tag : String} {body : Form} {object : Dict Json} {members : List (String × Json)}

/-! ## Refusals -/

theorem encodeTagged_eq_error_iff {e : EncodeError} :
    encodeTagged field tag body = .error e ↔ taggedObject field tag body = .error e := by
  unfold encodeTagged
  rw [Outcome.bind_eq_error_iff]
  exact or_iff_left fun ⟨_, _, h⟩ => by cases h

theorem taggedObject_eq_unpopulated_iff :
    taggedObject field tag body = .error (.unpopulatedVariant field) ↔ tag = "" := by
  refine ⟨fun h => ?_, fun htag => htag ▸ rfl⟩
  have houtcome := tagging_taggedObject field tag body
  rw [h] at houtcome
  cases houtcome with
  | nameless htag => exact htag

theorem taggedObject_eq_json_iff (htag : tag ≠ "") :
    (∃ e, taggedObject field tag body = .error (.json e)) ↔
      ∀ members, body.toJson ≠ .ok (.object members) := by
  have houtcome := tagging_taggedObject field tag body
  generalize taggedObject field tag body = outcome at houtcome
  cases houtcome with
  | nameless h => exact absurd h htag
  | shapeless _ hbody => exact ⟨fun _ => hbody, fun _ => ⟨_, rfl⟩⟩
  | collides _ hbody _ => exact ⟨nofun, fun h => absurd hbody (h _)⟩
  | tagged _ hbody _ => exact ⟨nofun, fun h => absurd hbody (h _)⟩

theorem taggedObject_eq_mismatch_iff (htag : tag ≠ "") (hbody : body.toJson = .ok (.object members)) :
    taggedObject field tag body = .error (.discriminatorMismatch field tag) ↔
      field ∈ members.map (·.1) := by
  have houtcome := tagging_taggedObject field tag body
  generalize taggedObject field tag body = outcome at houtcome
  cases houtcome with
  | nameless h => exact absurd h htag
  | shapeless _ h => exact absurd hbody (h members)
  | collides _ h hfield =>
    cases h.symm.trans hbody
    exact ⟨fun _ => hfield, fun _ => rfl⟩
  | tagged _ h hfield =>
    cases h.symm.trans hbody
    exact ⟨nofun, fun h => absurd h hfield⟩

/-! ## Splitting -/

theorem splitTag_eq_some_iff {v : Json} : splitTag field v = .ok (some tag, object) ↔
    ((Decoder.dict .json).runValue v).result = .ok object ∧
      object.get? field = some (.string tag) := by
  unfold splitTag
  simp only [Outcome.bind_eq_ok_iff, Outcome.mapError_eq_ok_iff]
  constructor
  · rintro ⟨found, hread, h⟩
    split at h
    · cases h
    · rename_i htag
      cases h
      exact ⟨hread, htag⟩
    · cases h
  · rintro ⟨hread, htag⟩
    refine ⟨object, hread, ?_⟩
    rw [htag]
    rfl

/-- What a value is split into is read from what stands in the value under the same name. -/
theorem SplitsInto.reads {v : Json} (h : SplitsInto field tag members v) (hv : v.Canonical)
    {name : String} {u : Json} (hu : (name, u) ∈ (field, .string tag) :: members) :
    ∃ w, v.get? name = some w ∧ Json.ofDoc .value (Doc.ofJson w) = .ok u := by
  obtain ⟨object, hsplit, rfl⟩ := h
  obtain ⟨hread, htag⟩ := splitTag_eq_some_iff.mp hsplit
  have hget : object.get? name = some u := by
    rcases List.mem_cons.mp hu with heq | hmem
    · cases heq
      exact htag
    · exact Table.mem_entries_iff.mp (List.mem_filter.mp hmem).1
  cases v with
  | object entries =>
    have hfound := Decoder.get?_of_dict hread name
    have hself : Table.ofList entries = ⟨entries, hv.1⟩ :=
      Table.ext (Entries.ofList_of_sorted hv.1)
    rw [hself, hget, Option.map_some, Option.map_eq_some_iff] at hfound
    obtain ⟨w, hw, hvalue⟩ := hfound
    exact ⟨w, hw, Outcome.toOption_eq_some_iff.mp hvalue⟩
  | _ => cases hread

/-- The object in memory is split into the tag and the body just when nothing in the values of the
body begins with the reserved name. -/
theorem splitsInto_object_iff (hbody : body.toJson = .ok (.object members))
    (h : taggedObject field tag body = .ok object) :
    SplitsInto field tag members (.object object.entries) ↔
      ∀ m ∈ members, (Form.ofJson m.2).Bare := by
  have hvalues := Json.canonicalMembers_iff.mp (Form.canonical_toJson body _ hbody).2
  have hobject := Form.canonical_toJson _ _ (toJson_tagged hbody h)
  have hmem : ∀ e, e ∈ object.entries ↔ e = (field, .string tag) ∨ e ∈ members := by
    obtain ⟨-, hfield, rfl⟩ := (taggedObject_of_toJson hbody).mp h
    exact fun e => mem_taggedObject_iff hbody (Entries.lookup_eq_none_iff.mpr hfield)
  constructor
  · intro hsplit m hm
    obtain ⟨w, hw, hread⟩ := hsplit.reads hobject (List.mem_cons_of_mem _ hm)
    have hfound : object.get? m.1 = some m.2 := Table.mem_entries_iff.mp ((hmem m).mpr (.inr hm))
    obtain rfl : m.2 = w := Option.some.inj (hfound.symm.trans hw)
    rw [← Doc.ofForm_ofJson] at hread
    exact ((Json.ofDoc_eq_self_iff (hvalues m hm)).mp hread).1
  · intro hbare
    refine ⟨object, splitTag_taggedObject h fun e he => ?_, ?_⟩
    · rcases (hmem e).mp he with rfl | hm
      · rfl
      · exact (Json.ofDoc_eq_self_iff (hvalues e hm)).mpr ⟨hbare e hm, trivial⟩
    · exact Json.object.inj (Except.ok.inj ((erase_taggedObject h).symm.trans hbody))

/-! ## Texts -/

section Read

variable {level : Nat} {origin : Origin} {v : Json}
  (hread : Doc.json (Doc.embeddedWithin level) origin
    (Doc.ofJson (.object ((field, .string tag) :: members))) = .ok v)
  (h : SplitsInto field tag members v)
include hread h

/-- No tag is split off from behind the reserved name: there it stands for a value in which no string
is as long as the tag. -/
theorem SplitsInto.field_ne (hv : v.Canonical) : field ≠ Doc.embeddedName := by
  rintro rfl
  obtain ⟨t, ht, hvalue⟩ := Doc.json_embedded_eq_ok hread
  cases ht
  have hshort := Doc.longestText_embeddedWithin level tag v hvalue
  obtain ⟨w, hw, hback⟩ := h.reads hv List.mem_cons_self
  have hkept : tag.length ≤ (Doc.ofJson w).longestText := by
    rw [Json.ofDoc, Doc.jsonWithin_eq] at hback
    exact Doc.longestText_json (Doc.longestText_embeddedWithin _) _ _ _ hback
  cases v with
  | object entries =>
    have hinside := Doc.longestText_ofMembers_le_iff.mp (Nat.le_refl _) _ (Entries.mem_of_lookup hw)
    exact absurd (Nat.lt_of_le_of_lt (Nat.le_trans hkept hinside) hshort) (Nat.lt_irrefl _)
  | _ => cases hw

/-- The value of a member is read twice, from the text and then from memory, and comes back. -/
theorem SplitsInto.kept (hv : v.Canonical) (hfield : field ≠ Doc.embeddedName)
    (hnames : field ∉ members.map (·.1)) (hc : (Json.object members).Canonical) :
    ∃ inner, origin.enter = .ok inner ∧
      ∀ m ∈ members, (Form.ofJson m.2).Bare ∧ inner.Admits (Form.ofJson m.2).depth := by
  obtain ⟨inner, first, others, henter, -, hothers, rfl⟩ := Doc.json_object_eq_ok hfield hread
  refine ⟨inner, henter, fun m hm => ?_⟩
  obtain ⟨w, hw, hfirst⟩ := Doc.exists_of_jsonMembers members hothers m hm
  obtain ⟨w', hw', hsecond⟩ := h.reads hv (List.mem_cons_of_mem _ hm)
  have hkeys : (((field, first) :: others).map (·.1)).Nodup := by
    rw [List.map_cons, Doc.jsonMembers_names members hothers]
    exact List.nodup_cons.mpr ⟨hnames, Entries.nodup_keys_of_sorted hc.1⟩
  have hlookup : (Json.ofMembers ((field, first) :: others)).get? m.1 = some w :=
    Entries.lookup_of_mem (Entries.nodup_keys_of_sorted (Entries.sorted_ofList _))
      ((Entries.mem_ofList_iff hkeys).mpr (List.mem_cons_of_mem _ hw))
  -- so what the text is read as under this name is what memory is read from
  obtain rfl : w = w' := Option.some.inj (hlookup.symm.trans hw')
  rw [Json.ofDoc, Doc.jsonWithin_eq] at hsecond
  exact Doc.bare_of_json (Doc.longestText_embeddedWithin _) (Doc.longestText_embeddedWithin _) m.2
    (Json.canonicalMembers_iff.mp hc.2 m hm) hfirst hsecond

end Read

/-- The text is split into the tag and the body just when nothing in it begins with the reserved
name and it is not too deep. -/
theorem splitsInto_text_iff (hbody : body.toJson = .ok (.object members))
    (h : taggedObject field tag body = .ok object) :
    (∃ v, Json.parseBytes (Form.ofJson (.object ((field, .string tag) :: members))).text.toUTF8 =
        .ok v ∧ SplitsInto field tag members v) ↔
      (∀ m ∈ members, (Form.ofJson m.2).Bare) ∧ field ≠ Doc.embeddedName ∧
        (Form.ofJson (.object ((field, .string tag) :: members))).depth ≤ Origin.maxDepth := by
  have hwritable := Form.writable_ofJson (.object ((field, .string tag) :: members))
  constructor
  · rintro ⟨v, hparse, hsplit⟩
    have hread := (Decoder.runDocument_eq_ok_iff.mp hparse).1
    rw [Document.ofBytes_text hwritable] at hread
    have hdoc : Json.ofDoc (.text Origin.maxDepth)
        (Doc.ofForm (Form.ofJson (.object ((field, .string tag) :: members)))) = .ok v := hread
    rw [Doc.ofForm_ofJson, Json.ofDoc, Doc.jsonWithin_eq] at hdoc
    have hv : v.Canonical := Doc.canonical_jsonWithin _ _ _ _ hread
    have hfield := hsplit.field_ne hdoc hv
    obtain ⟨-, hnames, -⟩ := (taggedObject_of_toJson hbody).mp h
    obtain ⟨inner, henter, hmembers⟩ :=
      hsplit.kept hdoc hv hfield hnames (Form.canonical_toJson body _ hbody)
    refine ⟨fun m hm => (hmembers m hm).1, hfield, ?_⟩
    have hroom : inner.Admits (Form.depthMembers (Form.ofMembers members)) := by
      rw [Form.ofMembers_eq, Origin.admits_depthMembers_iff]
      intro m hm
      obtain ⟨e, he, rfl⟩ := List.mem_map.mp hm
      exact (hmembers e he).2
    have hdepth := (Origin.enter_admits henter).mpr hroom
    show max 0 (Form.depthMembers (Form.ofMembers members)) + 1 ≤ Origin.maxDepth
    rw [Nat.zero_max]
    exact hdepth
  · rintro ⟨hbare, hfield, hdepth⟩
    have hform : (Form.ofJson (.object ((field, .string tag) :: members))).Bare := by
      rw [Form.ofJson, Form.ofMembers, Form.ofMembers_eq]
      refine ⟨hfield, trivial, Form.bareMembers_iff.mpr fun m hm => ?_⟩
      obtain ⟨e, he, rfl⟩ := List.mem_map.mp hm
      exact hbare e he
    exact ⟨_, (Json.parseBytes_text hwritable hform hdepth).trans (toJson_tagged hbody h),
      (splitsInto_object_iff hbody h).mpr hbare⟩

/-! ## Every tag and every body -/

/-- A body goes under a tag when the tag is not empty, the body is an object and no member of it has
the name of the tag; it is refused for the first of these that fails, in memory and on its way out.
Then the tag is split off again, and what is left is the body: in memory when no object inside a
member begins with the reserved name, and after the way through a text when, besides, the tag does
not stand behind the reserved name and the text is not too deep. In all other cases it is not. -/
theorem tags_split_off_again (field tag : String) (body : Form) :
    (taggedObject field tag body = .error (.unpopulatedVariant field) ↔ tag = "") ∧
    (tag ≠ "" → ((∃ e, taggedObject field tag body = .error (.json e)) ↔
      ∀ members, body.toJson ≠ .ok (.object members))) ∧
    (tag ≠ "" → ∀ members, body.toJson = .ok (.object members) →
      (taggedObject field tag body = .error (.discriminatorMismatch field tag) ↔
        field ∈ members.map (·.1)) ∧
      (field ∉ members.map (·.1) → ∃ object form,
        taggedObject field tag body = .ok object ∧ encodeTagged field tag body = .ok form ∧
        (SplitsInto field tag members (.object object.entries) ↔
          ∀ m ∈ members, (Form.ofJson m.2).Bare) ∧
        ((∃ v, Json.parseBytes form.text.toUTF8 = .ok v ∧ SplitsInto field tag members v) ↔
          (∀ m ∈ members, (Form.ofJson m.2).Bare) ∧ field ≠ Doc.embeddedName ∧
            form.depth ≤ Origin.maxDepth))) ∧
    ∀ e, encodeTagged field tag body = .error e ↔ taggedObject field tag body = .error e := by
  refine ⟨taggedObject_eq_unpopulated_iff, taggedObject_eq_json_iff,
    fun htag members hbody => ⟨taggedObject_eq_mismatch_iff htag hbody, fun hfield => ?_⟩,
    fun e => encodeTagged_eq_error_iff⟩
  have hobject := (taggedObject_of_toJson hbody).mpr ⟨htag, hfield, rfl⟩
  exact ⟨_, _, hobject, encodeTagged_eq_ok hbody hobject, splitsInto_object_iff hbody hobject,
    splitsInto_text_iff hbody hobject⟩

/-- A body that repeats a name, has one before that of the tag, and holds the reserved name behind
another one. -/
theorem tags_split_off_again_repeated :
    let body : Form := .object [("z", .string "old"),
      ("a", .object [(Doc.embeddedName, .null), ("!", .bool true)]), ("z", .array [.null])]
    let members : List (String × Json) :=
      [("a", .object [("!", .bool true), (Doc.embeddedName, .null)]), ("z", .array [.null])]
    let form : Form := Form.ofJson (.object (("kind", .string "note") :: members))
    "note" ≠ "" ∧ body.toJson = .ok (.object members) ∧ "kind" ∉ members.map (·.1) ∧
      (∀ m ∈ members, (Form.ofJson m.2).Bare) ∧ "kind" ≠ Doc.embeddedName ∧
      form.depth ≤ Origin.maxDepth ∧ encodeTagged "kind" "note" body = .ok form ∧
      (∃ object, taggedObject "kind" "note" body = .ok object ∧
        SplitsInto "kind" "note" members (.object object.entries)) ∧
      ∃ v, Json.parseBytes form.text.toUTF8 = .ok v ∧ SplitsInto "kind" "note" members v := by
  intro body members form
  have htag : "note" ≠ "" := by decide
  have hbody : body.toJson = .ok (.object members) := rfl
  have hfield : "kind" ∉ members.map (·.1) := by decide
  have hbare : ∀ m ∈ members, (Form.ofJson m.2).Bare := by decide
  have hname : "kind" ≠ Doc.embeddedName := by decide
  have hdepth : form.depth ≤ Origin.maxDepth := by decide
  have hform : encodeTagged "kind" "note" body = .ok form := rfl
  obtain ⟨object, found, hobject, hfound, hmemory, htext⟩ :=
    ((tags_split_off_again "kind" "note" body).2.2.1 htag members hbody).2 hfield
  cases hfound.symm.trans hform
  exact ⟨htag, hbody, hfield, hbare, hname, hdepth, hform, ⟨object, hobject, hmemory.mpr hbare⟩,
    htext.mpr ⟨hbare, hname, hdepth⟩⟩

/-- None of the three conditions can be left out. -/
theorem tags_not_split_off :
    let inner : Json := .object [(Doc.embeddedName, .number (.integer 5 (by decide))),
      ("a", .number (.integer 1 (by decide)))]
    let deep : Json := (fun v => Json.array [v])^[127] .null
    (∃ object, taggedObject "type" "t" (Form.ofJson (.object [("x", inner)])) = .ok object ∧
      ¬ SplitsInto "type" "t" [("x", inner)] (.object object.entries)) ∧
    (∃ form, encodeTagged Doc.embeddedName "t" (.object []) = .ok form ∧
      ¬ ∃ v, Json.parseBytes form.text.toUTF8 = .ok v ∧ SplitsInto Doc.embeddedName "t" [] v) ∧
    ∃ form, encodeTagged "type" "t" (Form.ofJson (.object [("x", deep)])) = .ok form ∧
      ¬ ∃ v, Json.parseBytes form.text.toUTF8 = .ok v ∧ SplitsInto "type" "t" [("x", deep)] v := by
  intro inner deep
  have hinner : (Form.ofJson (.object [("x", inner)])).toJson = .ok (.object [("x", inner)]) :=
    Form.toJson_ofJson _ (by decide)
  have hdeep : (Form.ofJson (.object [("x", deep)])).toJson = .ok (.object [("x", deep)]) :=
    Form.toJson_ofJson _ (by decide +kernel)
  have hempty : (Form.object []).toJson = .ok (.object []) := rfl
  have hreserved : taggedObject "type" "t" (Form.ofJson (.object [("x", inner)])) = .ok _ :=
    (taggedObject_of_toJson hinner).mpr ⟨by decide, by decide, rfl⟩
  have hnamed : taggedObject Doc.embeddedName "t" (.object []) = .ok _ :=
    (taggedObject_of_toJson hempty).mpr ⟨by decide, by decide, rfl⟩
  have hnested : taggedObject "type" "t" (Form.ofJson (.object [("x", deep)])) = .ok _ :=
    (taggedObject_of_toJson hdeep).mpr ⟨by decide, by decide, rfl⟩
  refine ⟨⟨_, hreserved, fun hsplit => ?_⟩, ⟨_, encodeTagged_eq_ok hempty hnamed, fun hsplit => ?_⟩,
    _, encodeTagged_eq_ok hdeep hnested, fun hsplit => ?_⟩
  · have hbare := (splitsInto_object_iff hinner hreserved).mp hsplit
    exact absurd hbare (by decide)
  · have hname := ((splitsInto_text_iff hempty hnamed).mp hsplit).2.1
    exact hname rfl
  · have hdepth := ((splitsInto_text_iff hdeep hnested).mp hsplit).2.2
    exact absurd hdepth (by decide +kernel)

end ContextProtocol
