import ContextProtocol.Proofs.Message.Registration

/-!
# Fallbacks

Data without a tag is read under the **fallback** of its code. A registry keeps the fallbacks in a
table of their own, beside the routes that say who reads a tag, so a fallback could name a tag that
nobody reads. It does not: a fallback is taken only when its route is there, and no call takes a
route away. A later registration may put another reader in the place of the first, and then it is
that one that untagged data goes to.

* `ErrorRegistry.Call`, `ErrorRegistry.ofCalls`: the registries that can be made;
* `ErrorRegistry.Rooted`: every fallback has a route;
* `ErrorRegistry.FallsBack`: what untagged data is read as, with no case for an unknown tag.

Results:
* `Rooted.run`, `Rooted.calls`: one call keeps the registry rooted, so all calls do.
* `knowsCode_iff_errorTypes`: a code is known when it has a tag.
* `Rooted.fallsBack`: what a rooted registry makes of untagged data.
* `untagged_falls_back`: all of it, for every registry that can be made.
-/
namespace ContextProtocol.ErrorRegistry

/-! ## Calls -/

/-- A call that makes another registry of one. -/
inductive Call where
  | register (code : Int32) (tag : String) (reader : ErrorData.Reader)
  | withDefault (code : Int32) (tag : String)

/-- The registry after a call. -/
def Call.run (r : ErrorRegistry) : Call → ErrorRegistry
  | .register code tag reader => r.register code tag reader
  | .withDefault code tag => r.withDefault code tag

/-- The registry that calls make of the new one, one after the other. -/
def ofCalls (calls : List Call) : ErrorRegistry := calls.foldl Call.run .new

/-- Every fallback has a route. -/
def Rooted (r : ErrorRegistry) : Prop :=
  ∀ code tag, r.defaults.get? code = some tag → ∃ reader, r.routes.get? (code, tag) = some reader

namespace Rooted

variable {r : ErrorRegistry}

/-- A new route leaves every other one where it is. -/
theorem register (h : r.Rooted) (code : Int32) (tag : String) (reader : ErrorData.Reader) :
    (r.register code tag reader).Rooted := by
  intro code' tag' hdefault
  by_cases hpair : (code', tag') = (code, tag)
  · exact ⟨reader, hpair ▸ Table.get?_insert_self ..⟩
  · obtain ⟨old, hold⟩ := h code' tag' hdefault
    exact ⟨old, (Table.get?_insert_of_ne _ hpair _).trans hold⟩

/-- A fallback without a route is not taken. -/
theorem withDefault (h : r.Rooted) (code : Int32) (tag : String) :
    (r.withDefault code tag).Rooted := by
  unfold ErrorRegistry.withDefault
  split
  · rename_i hroute
    intro code' tag' hdefault
    by_cases hcode : code' = code
    · subst hcode
      have htag : tag = tag' := Option.some.inj ((Table.get?_insert_self ..).symm.trans hdefault)
      exact htag ▸ Option.isSome_iff_exists.mp hroute
    · exact h code' tag' ((Table.get?_insert_of_ne _ hcode _).symm.trans hdefault)
  · exact h

theorem run (h : r.Rooted) (call : Call) : (call.run r).Rooted := by
  cases call with
  | register code tag reader => exact h.register code tag reader
  | withDefault code tag => exact h.withDefault code tag

theorem calls (h : r.Rooted) (calls : List Call) : (calls.foldl Call.run r).Rooted := by
  induction calls generalizing r with
  | nil => exact h
  | cons call rest ih => exact ih (h.run call)

end Rooted

theorem rooted_empty : (mk .empty .empty).Rooted := nofun

/-- The new registry is made by calls as well. -/
theorem rooted_new : new.Rooted :=
  rooted_empty.calls
    [.register ErrorCode.invalidParams.code ValidationDetails.tag ErrorData.readValidation,
      .withDefault ErrorCode.invalidParams.code ValidationDetails.tag,
      .register ErrorCode.internalError.code ToolExecutionDetails.tag ErrorData.readToolExecution]

theorem rooted_ofCalls (calls : List Call) : (ofCalls calls).Rooted := rooted_new.calls calls

/-! ## Tags of a code -/

theorem mem_errorTypes_iff {r : ErrorRegistry} {code : Int32} {tag : String} :
    tag ∈ r.errorTypes code ↔ ∃ reader, r.routes.get? (code, tag) = some reader := by
  simp only [errorTypes, Table.keys, List.mem_map, List.mem_filter, decide_eq_true_eq]
  constructor
  · rintro ⟨⟨code', tag'⟩, ⟨⟨⟨key, reader⟩, hentry, rfl⟩, rfl⟩, rfl⟩
    exact ⟨reader, Table.mem_entries_iff.mp hentry⟩
  · rintro ⟨reader, h⟩
    exact ⟨(code, tag), ⟨⟨((code, tag), reader), Table.mem_entries_iff.mpr h, rfl⟩, rfl⟩, rfl⟩

theorem knowsCode_iff_errorTypes (r : ErrorRegistry) (code : Int32) :
    r.knowsCode code = true ↔ r.errorTypes code ≠ [] := by
  rw [knowsCode_iff]
  simp only [← mem_errorTypes_iff]
  exact ⟨fun ⟨tag, htag⟩ => List.ne_nil_of_mem htag, List.exists_mem_of_ne_nil _⟩

/-! ## Data without a tag -/

/-- What an object without a tag is read as: nothing when its code has no fallback, and otherwise
what the reader that stands under the fallback makes of it. -/
structure FallsBack (r : ErrorRegistry) (code : Int32) (object : Dict Json)
    (result : Except DecodeError (Option ErrorData)) : Prop where
  dropped : r.defaults.get? code = none → result = .ok none
  read : ∀ tag, r.defaults.get? code = some tag → ∃ reader,
    r.routes.get? (code, tag) = some reader ∧ result = some <$> (reader tag object).result

/-- The members of an object in memory, each read as the value that it stands for. -/
def readMembers (o : Dict Json) : Except ShapeError (Dict Json) :=
  ((Decoder.dict .json).runValue (.object o.entries)).result

/-- Values in which no object begins with the reserved name stand for themselves. -/
theorem readMembers_of_bare {o : Dict Json}
    (h : ∀ e ∈ o.entries, e.2.Canonical ∧ (Form.ofJson e.2).Bare) : readMembers o = .ok o :=
  Decoder.dict_json fun e he => (Json.ofDoc_eq_self_iff (h e he).1).mpr ⟨(h e he).2, trivial⟩

theorem splitTag_of_readMembers {o object : Dict Json} {field : String}
    (hread : readMembers o = .ok object) (htag : o.get? field = none) :
    splitTag field (.object o.entries) = .ok (none, object) := by
  have hself : Table.ofList o.entries = o := Table.ext (Entries.ofList_of_sorted o.sorted)
  have hget := Decoder.get?_of_dict hread field
  rw [hself, htag] at hget
  have hnone : object.get? field = none := Option.map_eq_none_iff.mp hget.symm
  unfold splitTag
  rw [← readMembers, hread, Outcome.mapError_ok, Outcome.ok_bind, hnone]
  rfl

theorem splitTag_of_readMembers_error {o : Dict Json} {field : String} {e : ShapeError}
    (hread : readMembers o = .error e) :
    splitTag field (.object o.entries) = .error (.json e) := by
  unfold splitTag
  rw [← readMembers, hread]
  rfl

theorem decode_of_unknown {r : ErrorRegistry} {code : Int32} (h : r.knowsCode code = false)
    (data : Json) : (r.decode code data).result = .ok none := by
  unfold decode
  rw [h]
  rfl

variable {r : ErrorRegistry} {code : Int32} {o : Dict Json}

/-- A rooted registry never finds that it has no reader for a fallback. -/
theorem Rooted.fallsBack (h : r.Rooted) {object : Dict Json} (hread : readMembers o = .ok object)
    (htag : o.get? errorTypeField = none) :
    r.FallsBack code object (r.decode code (.object o.entries)).result := by
  cases hknown : r.knowsCode code with
  | false =>
    -- a fallback would have a route, and that would make the code known
    refine ⟨fun _ => decode_of_unknown hknown _, fun tag hdefault => ?_⟩
    have hroute := (r.knowsCode_iff).mpr ⟨tag, h code tag hdefault⟩
    rw [hknown] at hroute
    cases hroute
  | true =>
    rw [decode_of_splitTag hknown (splitTag_of_readMembers hread htag), Option.none_or]
    constructor
    · intro hdefault
      rw [hdefault]
    · intro tag hdefault
      obtain ⟨reader, hroute⟩ := h code tag hdefault
      refine ⟨reader, hroute, ?_⟩
      simp only [hdefault, readTagged, hroute]

/-- Members that cannot be read are noticed under the codes that are known. -/
theorem decode_unreadable {e : ShapeError} (hread : readMembers o = .error e) :
    (r.decode code (.object o.entries)).result =
      if r.knowsCode code then .error (.json e) else .ok none := by
  cases hknown : r.knowsCode code with
  | false => exact decode_of_unknown hknown _
  | true => exact decode_of_splitTag_error hknown (splitTag_of_readMembers_error hread)

/-- In every registry that calls make of the new one, a fallback of a code is one of its tags, and
the code is known when it has a tag. So an object without a tag is dropped or goes to the reader
that stands under the fallback now. The reader is given the object itself when none of its values
has an object in it that begins with the reserved name, and otherwise the values that its members
are read as, if they can be. -/
theorem untagged_falls_back (calls : List Call) :
    (∀ code tag, (ofCalls calls).defaults.get? code = some tag →
      tag ∈ (ofCalls calls).errorTypes code) ∧
    (∀ code, (ofCalls calls).knowsCode code = true ↔ (ofCalls calls).errorTypes code ≠ []) ∧
    ∀ code (o : Dict Json), o.get? errorTypeField = none →
      ((∀ e ∈ o.entries, e.2.Canonical ∧ (Form.ofJson e.2).Bare) →
        (ofCalls calls).FallsBack code o
          ((ofCalls calls).decode code (.object o.entries)).result) ∧
      (∀ object, readMembers o = .ok object →
        (ofCalls calls).FallsBack code object
          ((ofCalls calls).decode code (.object o.entries)).result) ∧
      ∀ e, readMembers o = .error e →
        ((ofCalls calls).decode code (.object o.entries)).result =
          if (ofCalls calls).knowsCode code then .error (.json e) else .ok none := by
  have hrooted := rooted_ofCalls calls
  refine ⟨fun code tag hdefault => mem_errorTypes_iff.mpr (hrooted code tag hdefault),
    knowsCode_iff_errorTypes _, fun code o htag => ⟨fun hbare => ?_, fun object hread => ?_,
      fun e hread => decode_unreadable hread⟩⟩
  · exact hrooted.fallsBack (readMembers_of_bare hbare) htag
  · exact hrooted.fallsBack hread htag

/-- A fallback is asked for before its route is there, which does nothing, and again afterwards. The
reader that is put in the place of the first reads the data, and refuses it. -/
theorem untagged_falls_back_replaced :
    let r := ofCalls [.withDefault 7 "quota", .register 7 "quota" ErrorData.readExtension,
      .withDefault 7 "quota", .register 7 "quota" ErrorData.readValidation]
    let o : Dict Json := .ofList [("limit", .bool true)]
    (ofCalls [.withDefault 7 "quota"]).defaults.get? 7 = none ∧
      o.get? errorTypeField = none ∧ r.defaults.get? 7 = some "quota" ∧
      "quota" ∈ r.errorTypes 7 ∧ r.knowsCode 7 = true ∧
      (r.decode 7 (.object o.entries)).result =
        some <$> (ErrorData.readValidation "quota" o).result := by
  intro r o
  obtain ⟨htags, hknown, huntagged⟩ := untagged_falls_back
    [.withDefault 7 "quota", .register 7 "quota" ErrorData.readExtension,
      .withDefault 7 "quota", .register 7 "quota" ErrorData.readValidation]
  have hdefault : r.defaults.get? 7 = some "quota" := rfl
  have hroute : r.routes.get? (7, "quota") = some ErrorData.readValidation := rfl
  have hbare : ∀ e ∈ o.entries, e.2.Canonical ∧ (Form.ofJson e.2).Bare := by
    intro e he
    obtain rfl : e = ("limit", .bool true) := List.mem_singleton.mp he
    exact ⟨trivial, trivial⟩
  have hmem : "quota" ∈ r.errorTypes 7 := htags 7 "quota" hdefault
  obtain ⟨reader, hreader, hresult⟩ := ((huntagged 7 o rfl).1 hbare).read "quota" hdefault
  obtain rfl := Option.some.inj (hreader.symm.trans hroute)
  exact ⟨rfl, rfl, hdefault, hmem, (hknown 7).mpr (List.ne_nil_of_mem hmem), hresult⟩

/-- Data that holds an object with the reserved name first is refused, under a code that has no
fallback. -/
theorem untagged_refused_reserved :
    let o : Dict Json := .ofList [("x", .object
      [(Doc.embeddedName, .number (.integer 5 (by decide))),
        ("a", .number (.integer 1 (by decide)))])]
    (Json.object o.entries).Canonical ∧ o.get? errorTypeField = none ∧
      (ofCalls []).defaults.get? (-32603) = none ∧
      ((ofCalls []).decode (-32603) (.object o.entries)).result ≠ .ok none := by
  intro o
  exact ⟨by decide +kernel, rfl, rfl, nofun⟩

end ContextProtocol.ErrorRegistry
