import ContextProtocol.Proofs.Message.ErrorRegistry
import ContextProtocol.Proofs.Message.Params
import ContextProtocol.Proofs.Message.Tagged
import ContextProtocol.Proofs.Shape.ReadsOnly

/-!
# Undeclared members

A peer may send members that this library knows nothing of: a text with a stray blob, a prompt
request with a stray uri. They have no influence. An error and an envelope are read alike from any
two objects that agree on their own members, and the params of an envelope from any two that agree
on the fields of its record.

Content is read in two steps, and the first one takes all members, to find the tag. So a member that
is added to it has to be readable. Every value is, unless an object in it begins with the reserved
name: that one stands for the value in its text, which may be no JSON.

What is wrong with a shape may also be told with its place in the text, and a member that is added
moves the others. So two answers count as the same when they are the same value or errors of the
same kind (`SameAnswer`).

Results:
* `ErrorInfo.fromValueWith_agree`: the members of an error, under every registry.
* `Envelope.fromValue_agree`, `Envelope.fromValue_params`: the members of an envelope and of its
  params.
* `Content.fromValue_insert`, `Content.fromValue_insert_error`: one more member of content, whether
  it can be read or not.
* `undeclared_members_ignored`: one more member in any of these places.
-/
namespace ContextProtocol

/-! ## The same answer -/

/-- Errors of the same kind, with the same discriminator. What they say of a shape may differ. -/
inductive DecodeError.SameKind : DecodeError → DecodeError → Prop
  | json (e e' : ShapeError) : SameKind (.json e) (.json e')
  | malformedVariant (discriminator : String) (e e' : ShapeError) :
      SameKind (.malformedVariant discriminator e) (.malformedVariant discriminator e')
  | same (e : DecodeError) : SameKind e e

/-- The same value, or errors of the same kind. -/
def SameAnswer {α : Type} (x y : Traced DecodeError α) : Prop :=
  match x.result, y.result with
  | .ok a, .ok b => a = b
  | .error e, .error e' => e.SameKind e'
  | _, _ => False

theorem SameAnswer.of_eq {α : Type} {x y : Traced DecodeError α} (h : x = y) : SameAnswer x y := by
  subst h
  unfold SameAnswer
  cases x.result with
  | ok a => exact rfl
  | error e => exact .same e

/-- What is read is read in both. -/
theorem SameAnswer.found {α : Type} {x y : Traced DecodeError α} (h : SameAnswer x y) :
    x.found = y.found := by
  obtain ⟨events, result⟩ := x
  obtain ⟨events', result'⟩ := y
  cases result with
  | ok a =>
    cases result' with
    | ok b => exact congrArg some h
    | error e => exact h.elim
  | error e =>
    cases result' with
    | ok b => exact h.elim
    | error e' => rfl

/-- What does not have the shape of a variant in one does not have it in the other. -/
theorem SameAnswer.malformed {α : Type} {x y : Traced DecodeError α} (h : SameAnswer x y)
    {discriminator : String} {e : ShapeError}
    (hy : y.result = .error (.malformedVariant discriminator e)) :
    ∃ e', x.result = .error (.malformedVariant discriminator e') := by
  unfold SameAnswer at h
  rw [hy] at h
  cases hx : x.result with
  | ok a =>
    rw [hx] at h
    exact h.elim
  | error e' =>
    rw [hx] at h
    cases h with
    | malformedVariant _ e' => exact ⟨e', rfl⟩
    | same => exact ⟨e, rfl⟩

/-! ## Errors -/

/-- An error is read from its code, its message and its data. -/
theorem ErrorInfo.fromValueWith_agree (registry : ErrorRegistry) {d d' : Dict Json}
    (h : Table.AgreeOn ["code", "message", "data"] d d') :
    fromValueWith registry (.object d.entries) = fromValueWith registry (.object d'.entries) := by
  have hmembers := (Record.readsOnly (r := ErrorMembers.record) rfl).runValue h
  rw [fromValueWith, fromValueWith, hmembers]

/-! ## Envelopes -/

namespace EnvelopeMembers

/-- The first stage of an envelope reads two members. -/
theorem readsOnly : record.decode.ReadsOnly ["method", "params"] :=
  Record.readsOnly (r := record) rfl

/-- Params that are an object are kept as their text. -/
theorem storeAll_params (members : List (String × Json)) (method : Option String) :
    record.fields.storeAll false .value none (Doc.ofMembers [("params", .object members)])
        (method, none, ()) =
      pure (method, some (some (Json.object members).text), ()) := by
  have hraw : Decoder.raw .value (Doc.sourced (.object members)) =
      pure (Json.object members).text := by
    have hskip : (Doc.sourced (.object members)).value.skip = none := Doc.skip_ofJson _
    unfold Decoder.raw
    rw [hskip]
    rfl
  have hread : record.fields.storeAll false .value none
      (Doc.ofMembers [("params", .object members)]) (method, none, ()) =
        ((fun slots => (method, slots)) <$> (fun params => (some params, ())) <$>
          (some <$> Decoder.raw .value (Doc.sourced (.object members)))) >>= fun slots => do
            Doc.close none
            return slots := rfl
  rw [hread, hraw]
  rfl

/-- The method among the members of an envelope. -/
def readMethod (d : Dict Json) : Traced ShapeError String :=
  match d.get? "method" with
  | some method => Decoder.string.runValue method
  | none => .fail (.missingField "method")

/-- An envelope with an object for params gives its method and their text. -/
theorem runValue_params {d : Dict Json} {members : List (String × Json)}
    (h : d.get? "params" = some (.object members)) :
    record.decode.runValue (.object d.entries) =
      (fun method => ⟨method, some (Json.object members).text⟩) <$> readMethod d := by
  have hsame : ∀ t : Dict Json, d.get? "method" = t.get? "method" →
      t.get? "params" = some (.object members) →
      record.decode.runValue (.object d.entries) = record.decode.runValue (.object t.entries) := by
    intro t hmethod hparams
    refine readsOnly.runValue fun name hname => ?_
    rcases List.mem_pair.mp hname with rfl | rfl
    · exact hmethod
    · exact h.trans hparams.symm
  unfold readMethod
  -- without the members that are passed over, only two objects are left
  cases hmethod : d.get? "method" with
  | none =>
    rw [hsame ⟨[("params", .object members)], List.pairwise_singleton ..⟩ hmethod rfl]
    have hread : record.decode.runValue (.object [("params", .object members)]) = (do
        let slots ← record.fields.storeAll false .value none
          (Doc.ofMembers [("params", .object members)]) (none, none, ())
        return record.ofRow (← record.fields.finish slots) : Traced ShapeError EnvelopeMembers) :=
      rfl
    rw [hread, storeAll_params]
    rfl
  | some m =>
    have hsorted : Entries.Sorted [("method", m), ("params", .object members)] :=
      Entries.sorted_of_keys (show _ = [("method", ()), ("params", ())].map (·.1) from rfl)
        (by decide)
    rw [hsame ⟨_, hsorted⟩ hmethod rfl]
    cases m with
    | string method =>
      have hread : record.decode.runValue
          (.object [("method", .string method), ("params", .object members)]) = (do
            let slots ← record.fields.storeAll false .value none
              (Doc.ofMembers [("params", .object members)]) (some method, none, ())
            return record.ofRow (← record.fields.finish slots) :
              Traced ShapeError EnvelopeMembers) := rfl
      rw [hread, storeAll_params]
      rfl
    | _ => rfl

end EnvelopeMembers

namespace Envelope

variable {E Step : Type} [Envelope E Step] {d d' : Dict Json}

/-- An envelope is read from its method and its params. -/
theorem fromValue_agree (h : Table.AgreeOn ["method", "params"] d d') :
    (fromValue (.object d.entries) : Traced DecodeError E) = fromValue (.object d'.entries) := by
  rw [fromValue, fromValue, EnvelopeMembers.readsOnly.runValue h]

/-- An envelope with an object for params reads its method, and then their text. -/
theorem fromValue_of_params {members : List (String × Json)}
    (h : d.get? "params" = some (.object members)) :
    (fromValue (.object d.entries) : Traced DecodeError E) =
      (EnvelopeMembers.readMethod d).mapError DecodeError.json >>= fun method =>
        ofMembers ⟨method, some (Json.object members).text⟩ := by
  rw [fromValue, EnvelopeMembers.runValue_params h]
  obtain ⟨events, result⟩ := EnvelopeMembers.readMethod d
  cases result with
  | error e => rfl
  | ok method =>
    refine congrArg (fun events => Traced.mk (events ++ _) _) ?_
    exact List.append_nil events

/-- Params that are an object are read from the members that matter to their reader. -/
theorem fromValue_params {names : List String}
    (hparams : (params : Codec E).decode.ReadsOnly names) {t t' : Dict Json}
    (hmethod : d.get? "method" = d'.get? "method")
    (ht : d.get? "params" = some (.object t.entries))
    (ht' : d'.get? "params" = some (.object t'.entries)) (h : Table.AgreeOn names t t') :
    (fromValue (.object d.entries) : Traced DecodeError E) = fromValue (.object d'.entries) := by
  rw [fromValue_of_params ht, fromValue_of_params ht', EnvelopeMembers.readMethod,
    EnvelopeMembers.readMethod, hmethod]
  refine congrArg _ (funext fun method => ?_)
  simp only [ofMembers, Option.getD_some, hparams.runString h]

end Envelope

namespace EnvelopeKind

/-- The names of the fields of the params. -/
def paramNames : EnvelopeKind → List String
  | .opening => InitializeRequest.record.fields.names
  | .confirmation => InitializedNotification.record.fields.names
  | .completion => CompleteRequest.record.fields.names
  | .progress => ProgressNotification.record.fields.names
  | .logLevel => SetLevelRequest.record.fields.names
  | .logMessage => LoggingMessageNotification.record.fields.names
  | .prompt => GetPromptRequest.record.fields.names
  | .resource => ReadResourceRequest.record.fields.names
  | .sampling => CreateMessageRequest.record.fields.names
  | .toolCall => CallToolRequest.record.fields.names

/-- The params of every envelope are read from the members of their fields. -/
theorem params_readsOnly (k : EnvelopeKind) :
    (Envelope.params : Codec k.Carrier).decode.ReadsOnly k.paramNames := by
  cases k <;> exact Record.readsOnly rfl

end EnvelopeKind

/-! ## Content -/

section

variable {field name : String} {d : Dict Json} {v w : Json}

/-- The tag stays when another member is added, and the member is among those that are read. -/
theorem requireTag_insert (hread : (Decoder.json.runValue v).result = .ok w) (hname : name ≠ field)
    (hnew : d.get? name = none) : requireTag field (.object (d.insert name v).entries) =
      (requireTag field (.object d.entries)).map fun found => (found.1, found.2.insert name w) := by
  unfold requireTag splitTag
  rw [Decoder.dict_insert hread hnew]
  cases ((Decoder.dict .json).runValue (.object d.entries)).result with
  | error e => rfl
  | ok object =>
    have hget := object.get?_insert_of_ne hname.symm w
    simp only [Outcome.map_ok, Outcome.mapError_ok, Outcome.ok_bind, hget]
    cases object.get? field with
    | none => rfl
    | some tag => cases tag <;> rfl

/-- A member that is no field of the variant has no influence on it. -/
theorem decodeVariant_insert {α Step : Type} [Validated α Step] {codec : Codec α}
    {names : List String} (hcodec : codec.decode.ReadsOnly names) (hname : name ∉ names)
    (tag : String) (object : Dict Json) (w : Json) :
    decodeVariant codec tag (object.insert name w) = decodeVariant codec tag object := by
  unfold decodeVariant
  rw [hcodec.runValue (Table.agreeOn_insert hname object w)]

end

/-- The names of the fields of a variant. -/
def ContentType.fieldNames : ContentType → List String
  | .text => TextContent.record.fields.names
  | .image => ImageContent.record.fields.names
  | .resource => ResourceContent.record.fields.names

namespace Content

/-- The names that mean something in a value: that of the tag, and those of the fields of the
variant that the tag names. -/
def declared (v : Json) : List String :=
  typeField :: match requireTag typeField v with
    | .ok (tag, _) => ((ContentType.ofTag? tag).map ContentType.fieldNames).getD []
    | .error _ => []

variable {name : String} {d : Dict Json} {v w : Json}

/-- Content is read as it is without a member that means nothing, if that can be read. -/
theorem fromValue_insert (hname : name ∉ declared (.object d.entries)) (hnew : d.get? name = none)
    (hread : (Decoder.json.runValue v).result = .ok w) :
    fromValue (.object (d.insert name v).entries) = fromValue (.object d.entries) := by
  rw [declared, List.mem_cons, not_or] at hname
  unfold fromValue
  rw [requireTag_insert hread hname.1 hnew]
  cases htag : requireTag typeField (.object d.entries) with
  | error e => rfl
  | ok found =>
    obtain ⟨tag, object⟩ := found
    simp only [htag] at hname
    rw [Outcome.map_ok, Traced.ok_bind, Traced.ok_bind]
    cases htype : ContentType.ofTag? tag with
    | none => simp only [htype]
    | some type =>
      simp only [htype, Option.map_some, Option.getD_some] at hname ⊢
      cases type with
      | text =>
        dsimp only
        rw [decodeVariant_insert (Record.readsOnly rfl) hname.2]
      | image =>
        dsimp only
        rw [decodeVariant_insert (Record.readsOnly rfl) hname.2]
      | resource =>
        dsimp only
        rw [decodeVariant_insert (Record.readsOnly rfl) hname.2]

/-- A member that cannot be read is refused, whatever its name is. -/
theorem fromValue_insert_error {e : ShapeError}
    (hread : (Decoder.json.runValue v).result = .error e) :
    ∃ e', (fromValue (.object (d.insert name v).entries)).result = .error (.json e') := by
  obtain ⟨e', hdict⟩ := Decoder.dict_insert_error d name hread
  refine ⟨e', ?_⟩
  unfold fromValue requireTag splitTag
  rw [hdict]
  rfl

/-- A text is read, but not with a member that means nothing and begins with the reserved name. -/
theorem undeclared_member_refused :
    let d : Dict Json := .ofList [("text", .string "t"), ("type", .string "text")]
    let v : Json := .object [(Doc.embeddedName, .number (.integer 5 (by decide))),
      ("a", .number (.integer 1 (by decide)))]
    "x" ∉ declared (.object d.entries) ∧ d.get? "x" = none ∧
      (fromValue (.object d.entries)).result = .ok (.text ⟨"t", none⟩) ∧
        ∃ e, (fromValue (.object (d.insert "x" v).entries)).result = .error (.json e) := by
  intro d v
  have hread : (Decoder.json.runValue v).result =
      .error (.invalidType (.integer 5) "raw value") := rfl
  exact ⟨by decide +kernel, by decide +kernel, rfl, fromValue_insert_error hread⟩

end Content

/-! ## All of them -/

/-- One more member has no influence where it means nothing: not in content, if its value can be
read, not in an error, not in an envelope and not in params. The same value comes out, or an error
of the same kind. A member of content that cannot be read is refused for that. -/
theorem undeclared_members_ignored (d : Dict Json) (name : String) (v : Json) :
    (name ∉ Content.declared (.object d.entries) → d.get? name = none →
      (∀ w, (Decoder.json.runValue v).result = .ok w →
        SameAnswer (Content.fromValue (.object (d.insert name v).entries))
          (Content.fromValue (.object d.entries))) ∧
      ∀ e, (Decoder.json.runValue v).result = .error e →
        ∃ e', (Content.fromValue (.object (d.insert name v).entries)).result =
          .error (.json e')) ∧
    (name ∉ ["code", "message", "data"] → ∀ registry,
      SameAnswer (ErrorInfo.fromValueWith registry (.object (d.insert name v).entries))
        (ErrorInfo.fromValueWith registry (.object d.entries))) ∧
    ∀ k : EnvelopeKind,
      (name ∉ ["method", "params"] →
        SameAnswer
          (Envelope.fromValue (.object (d.insert name v).entries) : Traced DecodeError k.Carrier)
          (Envelope.fromValue (.object d.entries))) ∧
      ∀ envelope : Dict Json, envelope.get? "params" = some (.object d.entries) →
        name ∉ k.paramNames →
          let params : Json := .object (d.insert name v).entries
          SameAnswer
            (Envelope.fromValue (.object (envelope.insert "params" params).entries) :
              Traced DecodeError k.Carrier)
            (Envelope.fromValue (.object envelope.entries)) := by
  refine ⟨fun hname hnew => ⟨fun w hread => ?_, fun e hread => ?_⟩, fun hname registry => ?_,
    fun k => ⟨fun hname => ?_, fun envelope hparams hname => ?_⟩⟩
  · exact .of_eq (Content.fromValue_insert hname hnew hread)
  · exact Content.fromValue_insert_error hread
  · exact .of_eq (ErrorInfo.fromValueWith_agree registry (Table.agreeOn_insert hname d v))
  · exact .of_eq (Envelope.fromValue_agree (Table.agreeOn_insert hname d v))
  · refine .of_eq (Envelope.fromValue_params k.params_readsOnly ?_ (Table.get?_insert_self ..)
      hparams (Table.agreeOn_insert hname d v))
    exact envelope.get?_insert_of_ne (by decide) _

/-- A text with a stray blob, an error and a prompt request with a stray member, and a prompt
request with a stray uri in its params. What is no text is refused with the stray blob as well. -/
theorem undeclared_members_ignored_stray :
    let text : Dict Json := .ofList [("text", .string "t"), ("type", .string "text")]
    let error : Dict Json := .ofList [("code", .ofInt 5), ("message", .string "m")]
    let params : Dict Json := .ofList [("name", .string "p")]
    let envelope : Dict Json :=
      (Table.empty.insert "method" (.string "prompts/get")).insert "params" (.object params.entries)
    let refused : Dict Json := .ofList [("text", .bool true), ("type", .string "text")]
    let stray : Json := .string "s"
    (Content.fromValue (.object (text.insert "blob" stray).entries)).found =
        some (.text ⟨"t", none⟩) ∧
      (ErrorInfo.fromValueWith .new (.object (error.insert "details" stray).entries)).found =
        some ⟨5, "m", none⟩ ∧
      (Envelope.fromValue (.object (envelope.insert "id" stray).entries) :
        Traced DecodeError GetPromptRequest).found.map (·.name) = some "p" ∧
      (Envelope.fromValue
        (.object (envelope.insert "params" (.object (params.insert "uri" stray).entries)).entries) :
          Traced DecodeError GetPromptRequest).found.map (·.name) = some "p" ∧
      ∃ e, (Content.fromValue (.object (refused.insert "blob" stray).entries)).result =
        .error (.malformedVariant "text" e) := by
  intro text error params envelope refused stray
  have htext : (Content.fromValue (.object text.entries)).found = some (.text ⟨"t", none⟩) := rfl
  have hplain : (ErrorInfo.fromValueWith .new (.object error.entries)).found =
      some ⟨5, "m", none⟩ := rfl
  have hprompt : (Envelope.fromValue (.object envelope.entries) :
      Traced DecodeError GetPromptRequest).found.map (·.name) = some "p" := by decide +kernel
  have hcontent := ((undeclared_members_ignored text "blob" stray).1 (by decide +kernel)
    (by decide +kernel)).1 stray rfl
  have herror := (undeclared_members_ignored error "details" stray).2.1 (by decide) .new
  have hmember := ((undeclared_members_ignored envelope "id" stray).2.2 .prompt).1 (by decide)
  have hparams := ((undeclared_members_ignored params "uri" stray).2.2 .prompt).2 envelope
    (Table.get?_insert_self ..) (by decide +kernel)
  have hmalformed : (Content.fromValue (.object refused.entries)).result =
      .error (.malformedVariant "text" (.invalidType (.bool true) "a string")) := rfl
  have hrefused := ((undeclared_members_ignored refused "blob" stray).1 (by decide +kernel)
    (by decide +kernel)).1 stray rfl
  refine ⟨hcontent.found.trans htext, herror.found.trans hplain, ?_, ?_,
    hrefused.malformed hmalformed⟩
  · rw [hmember.found]
    exact hprompt
  · rw [hparams.found]
    exact hprompt

end ContextProtocol
