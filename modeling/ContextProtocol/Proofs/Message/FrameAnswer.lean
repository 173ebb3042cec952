import ContextProtocol.Proofs.Message.ErrorAnswer
import ContextProtocol.Proofs.Message.Frame
import ContextProtocol.Proofs.Shape.Agree

/-!
# What an object is read as

A frame has no tag: an object is tried as a request first and as a response after that. What comes of
it is said by the members alone. A member that a reading does not look at has no influence on it, and
a value that is `null` is as good as none; but one unfit identifier rules out both readings, and a
method that is no text turns what was meant as a request into a response.

* `Frame.ofMembers?`: the frame that an object stands for.

Results:
* `Request.found_spelled`, `Response.found_spelled`: what each of the readings finds.
* `Wire.decodeFrame_eq_ofMembers`: reading an object finds the frame that it stands for.
-/
namespace ContextProtocol

/-! ## The frame of an object -/

namespace Entries

/-- The value under a name, which `null` is not. -/
def value? (members : List (String × Json)) (name : String) : Option Json :=
  match members.lookup name with
  | some .null => none
  | found => found

/-- What a value under a name is read as, if there is one. -/
def read? {α : Type} (read : Json → Option α) (members : List (String × Json)) (name : String) :
    Option (Option α) :=
  match value? members name with
  | none => some none
  | some v => (read v).map some

end Entries

/-- An identifier is a text or an integer of 64 bits. -/
def Identifier.ofJson? : Json → Option Identifier
  | .string s => some (.string s)
  | v => v.int64?.map .number

/-- A request has two texts and an identifier, if it has one. Its params are any value. -/
def Request.ofMembers? (members : List (String × Json)) : Option Request := do
  let version ← Entries.text? members "jsonrpc"
  let method ← Entries.text? members "method"
  let id ← Entries.read? Identifier.ofJson? members "id"
  return ⟨version, method, Entries.value? members "params", id⟩

/-- A response has a text, an error and an identifier, if it has them. Its result is any value. -/
def Response.ofMembers? (members : List (String × Json)) : Option Response := do
  let version ← Entries.text? members "jsonrpc"
  let error ← Entries.read? (fun v => (ErrorInfo.fromValue v).result.toOption) members "error"
  let id ← Entries.read? Identifier.ofJson? members "id"
  return ⟨version, Entries.value? members "result", error, id⟩

/-- What can be a request is one, and is a response only otherwise. -/
def Frame.ofMembers? (members : List (String × Json)) : Option Frame :=
  ((Request.ofMembers? members).map .request).or ((Response.ofMembers? members).map .response)

/-! ## Spelled values -/

section

variable {d : Sourced Doc} {v : Json}

theorem Doc.Spells.null_iff (h : d.value.Spells v) : d.value = .null ↔ v = .null := by
  have hunit : (Decoder.wordPayload d.value).toOption = (Decoder.wordPayload (Doc.ofJson v)).toOption :=
    Decoder.Glances.wordPayload.found_eq .value .value h
  have hnull : Doc.ofJson v = .null ↔ v = .null := by
    cases v <;> first | exact iff_of_true rfl rfl | exact iff_of_false nofun nofun
  rw [← hnull, ← Decoder.Agrees.wordPayload_eq_ok_iff, ← Decoder.Agrees.wordPayload_eq_ok_iff,
    ← Outcome.toOption_eq_some_iff, ← Outcome.toOption_eq_some_iff, hunit]

theorem Decoder.found_string_of_spells (h : d.value.Spells v) :
    (Decoder.string .value d).found = v.string? :=
  (Glances.string.found_eq _ _ h).trans (found_string v)

theorem Decoder.found_int64_of_spells (h : d.value.Spells v) :
    (Decoder.int64 .value d).found = v.int64? := by
  refine Eq.trans ?_ (found_int64 v)
  refine (Traced.found_map _ _).trans (Eq.trans ?_ (Traced.found_map _ _).symm)
  exact congrArg _ ((Glances.integer ..).found_eq _ _ h)

/-- Of an identifier no more is looked at than its kind and what it spells. -/
theorem Decoder.found_identifier_of_spells (h : d.value.Spells v) (type : String) :
    ((Identifier.codec type).decode .value d).found = Identifier.ofJson? v := by
  have hverify : d.value.verify .value = .ok () := h.verify trivial
  refine (Traced.found_bind _ _).trans ?_
  rw [Traced.found_liftM, hverify, Outcome.toOption_ok, Option.bind_some, found_firstOf]
  have hnumber : ((Decoder.int64.map Identifier.number) .value d).found = _ :=
    (Traced.found_map _ _).trans (congrArg _ (found_int64_of_spells h))
  have hstring : ((Decoder.string.map Identifier.string) .value d).found = _ :=
    (Traced.found_map _ _).trans (congrArg _ (found_string_of_spells h))
  rw [List.findSome?_cons, List.findSome?_cons, List.findSome?_nil, hnumber, hstring]
  cases v with
  | string s => rfl
  | _ =>
    rw [Identifier.ofJson?]
    · cases Json.int64? _ <;> rfl
    · exact nofun

/-- A value is read as it is spelled, unless an object in it begins with the reserved name. -/
theorem Decoder.found_json_of_spells (h : d.value.Spells v)
    (hitself : d.value.Each Doc.StandsForItself) : (Decoder.json .value d).found = some v := by
  have hread : Json.ofDoc .value d.value = .ok v := Json.ofDoc_of_denotes (h.denotes hitself) trivial
  exact congrArg Except.toOption hread

/-- An error is read from the value that is spelled. -/
theorem ErrorInfo.found_of_spells (h : d.value.Spells v)
    (hitself : d.value.Each Doc.StandsForItself) :
    (ErrorInfo.codec.decode .value d).found = (fromValue v).result.toOption := by
  refine (Traced.found_bind _ _).trans ?_
  rw [Decoder.found_json_of_spells h hitself, Option.bind_some]
  show ((fromValue v).result.mapError DecodeError.toShape).toOption = _
  cases (fromValue v).result <;> rfl

end

/-! ## Spelled members -/

/-- What stands under each name spells the member with that name. -/
def Doc.FindsSpelled (find : String → Option (Sourced Doc)) (members : List (String × Json)) :
    Prop := ∀ name, Option.Rel (fun d v => d.value.Spells v) (find name) (members.lookup name)

section

variable {α : Type} {find : String → Option (Sourced Doc)} {members : List (String × Json)}

theorem Field.gather_text_of_spells (hfind : Doc.FindsSpelled find members) (name : String) :
    (Field.required name .string).gather .value find = Entries.text? members name := by
  unfold Field.gather Entries.text?
  have hname := hfind name
  dsimp only [Field.required]
  generalize find name = d? at hname ⊢
  generalize members.lookup name = v? at hname ⊢
  cases hname with
  | none => rfl
  | some h => exact Decoder.found_string_of_spells h

/-- A value that may be unset is read unless it is `null`. -/
theorem Field.gather_option_of_spells (hfind : Doc.FindsSpelled find members)
    (field : Field (Option α)) (c : Codec α) (read : Json → Option α) (hcodec : field.codec = c.option)
    (habsent : field.absent? = some none)
    (hread : ∀ d v, find field.name = some d → d.value.Spells v →
      (c.decode .value d).found = read v) :
    field.gather .value find = Entries.read? read members field.name := by
  unfold Field.gather Entries.read? Entries.value?
  have hname := hfind field.name
  rw [hcodec]
  generalize find field.name = d? at hname hread ⊢
  generalize members.lookup field.name = v? at hname ⊢
  cases hname with
  | none => exact habsent
  | @some d v h =>
    dsimp only
    by_cases hnull : v = .null
    · subst hnull
      have hdoc : d.value = .null := h.null_iff.mpr rfl
      have hnone : (Decoder.option c.decode .value d).found = some none := by
        unfold Decoder.option
        rw [hdoc]
        rfl
      exact hnone
    · have hdoc : d.value ≠ .null := mt h.null_iff.mp hnull
      have hcut : ∀ fault, d.value ≠ .cut .null fault := by
        intro fault heq
        rw [heq] at h
        exact h
      have hsome : (Decoder.option c.decode .value d).found = (read v).map some :=
        (Decoder.Agrees.found_option_some hdoc hcut).trans (congrArg _ (hread d v rfl h))
      refine hsome.trans ?_
      cases v with
      | null => exact absurd rfl hnull
      | _ => rfl

theorem Entries.read?_some (members : List (String × Json)) (name : String) :
    Entries.read? some members name = some (Entries.value? members name) := by
  unfold Entries.read?
  cases Entries.value? members name <;> rfl

/-- What is found when an object is tried as a request. -/
theorem Request.found_spelled (hfind : Doc.FindsSpelled find members)
    (hparams : ∀ d, find "params" = some d → d.value.Each Doc.StandsForItself) :
    (record.fields.gather .value find).map record.ofRow = ofMembers? members := by
  have hvalue := Field.gather_option_of_spells hfind (.optional "params" .json) .json some rfl
    rfl fun d v hd h => Decoder.found_json_of_spells h (hparams d hd)
  have hid := Field.gather_option_of_spells hfind (.optional "id" Identifier.requestCodec)
    Identifier.requestCodec _ rfl rfl fun d v _ h => Decoder.found_identifier_of_spells h _
  rw [ofMembers?]
  simp only [record, Fields.gather, Field.gather_text_of_spells hfind, hvalue, hid]
  cases Entries.text? members "jsonrpc" with
  | none => rfl
  | some version =>
    cases Entries.text? members "method" with
    | none => rfl
    | some method =>
      simp only [Field.optional, Entries.read?_some]
      cases Entries.read? Identifier.ofJson? members "id" <;> rfl

/-- What is found when an object is tried as a response. -/
theorem Response.found_spelled (hfind : Doc.FindsSpelled find members)
    (hresult : ∀ d, find "result" = some d → d.value.Each Doc.StandsForItself)
    (herror : ∀ d, find "error" = some d → d.value.Each Doc.StandsForItself) :
    (record.fields.gather .value find).map record.ofRow = ofMembers? members := by
  have hvalue := Field.gather_option_of_spells hfind (.optional "result" .json) .json some rfl
    rfl fun d v hd h => Decoder.found_json_of_spells h (hresult d hd)
  have hinfo := Field.gather_option_of_spells hfind (.optional "error" ErrorInfo.codec)
    ErrorInfo.codec _ rfl rfl fun d v hd h => ErrorInfo.found_of_spells h (herror d hd)
  have hid := Field.gather_option_of_spells hfind
    ⟨"id", .option Identifier.requestCodec, .optional none, fun _ => false⟩
    Identifier.requestCodec _ rfl rfl fun d v _ h => Decoder.found_identifier_of_spells h _
  rw [ofMembers?]
  simp only [record, Fields.gather, Field.gather_text_of_spells hfind, hvalue, hinfo, hid]
  cases Entries.text? members "jsonrpc" with
  | none => rfl
  | some version =>
    simp only [Field.optional, Entries.read?_some]
    cases Entries.read? (fun v => (ErrorInfo.fromValue v).result.toOption) members "error" with
    | none => rfl
    | some error => cases Entries.read? Identifier.ofJson? members "id" <;> rfl

end

/-! ## Whole frames -/

namespace Doc

theorem Spells.skip {source : List Symbol} {d : Doc} {v : Json} (h : d.Spells v)
    (hcited : d.Cited source) : d.skip = none := by
  have hsound : d.verify .value = .ok () := h.verify trivial
  exact skip_of_sound d hcited hsound

/-- The members that are spelled, one by one. -/
theorem SpellMembers.forall₂ {source : List Symbol} :
    ∀ {members : List (Token String × Sourced Doc)} {es : List (String × Json)},
      SpellMembers members es → CitedMembers source members →
        List.Forall₂ (fun m e => m.1.reading = .ok e.1 ∧
          m.2.value.Spells e.2 ∧ m.2.value.skip = none) members es
  | [], _, h, _ => by
    obtain rfl : _ = [] := h
    exact .nil
  | (_, ⟨_, _⟩) :: _, _, h, hcited => by
    obtain ⟨n, v, more, rfl, hname, hvalue, hrest⟩ := h
    obtain ⟨⟨-, hvalueCited, -⟩, hrestCited⟩ := hcited
    exact .cons ⟨hname, hvalue, hvalue.skip hvalueCited⟩ (SpellMembers.forall₂ hrest hrestCited)

/-- What is found under a name stands under it. -/
theorem holds_of_find? {members : List (Token String × Sourced Doc)} {stop : Option Fault}
    {name : String} {d : Sourced Doc} (h : find? name members = some d) :
    (Doc.object members stop).Holds name d := by
  induction members with
  | nil => cases h
  | cons m rest ih =>
    obtain ⟨token, first⟩ := m
    rw [find?] at h
    split at h
    · rename_i hname
      cases h
      exact ⟨token, List.mem_cons_self, read_of_reading (Outcome.toOption_eq_some_iff.mp hname)⟩
    · obtain ⟨token', hmem, hread⟩ := ih h
      exact ⟨token', List.mem_cons_of_mem _ hmem, hread⟩

/-- What is true of every object in a document is true of those in its members. -/
theorem Each.holds {P : List (Token String × Sourced Doc) → Prop} {doc : Doc} (h : doc.Each P)
    {name : String} {d : Sourced Doc} (hd : doc.Holds name d) : d.value.Each P := by
  have hitems : ∀ {items : List (Sourced Doc)}, EachItem P items → ∀ d ∈ items, d.value.Each P := by
    intro items
    induction items with
    | nil => exact fun _ => List.forall_mem_nil _
    | cons item rest ih => exact fun h => List.forall_mem_cons.mpr ⟨h.1, ih h.2⟩
  have hmembers : ∀ {members : List (Token String × Sourced Doc)}, EachMember P members →
      ∀ m ∈ members, m.2.value.Each P := by
    intro members
    induction members with
    | nil => exact fun _ => List.forall_mem_nil _
    | cons m rest ih => exact fun h => List.forall_mem_cons.mpr ⟨h.1, ih h.2⟩
  cases doc with
  | array items stop => exact hitems h d hd
  | object members stop =>
    obtain ⟨token, hmem, -⟩ := hd
    exact hmembers h.2 _ hmem
  | _ => cases hd

/-- A document that spells an object is read by name. -/
theorem Spells.members {source : List Symbol} {doc : Doc} {o : Dict Json}
    (h : doc.Spells (.object o.entries)) (hcited : doc.Cited source) :
    ∃ members, doc = .object members none ∧ ByName members ∧
      FindsSpelled (fun name => find? name members) o.entries := by
  cases doc with
  | object members stop =>
    obtain ⟨rfl, es, heq, hspell, hkeys⟩ := h
    have hentries : o.entries = Entries.ofList es := Json.object.inj heq
    have hmembers := hspell.forall₂ hcited
    have hnames := byName_of_rel (R := fun d v => d.value.Spells v ∧ d.value.skip = none)
      hmembers hkeys fun _ _ h => h.2
    refine ⟨members, rfl, hnames, fun name => ?_⟩
    rw [hentries, Entries.lookup_ofList hkeys]
    exact find?_rel (hmembers.imp fun _ _ hm => ⟨hm.1, hm.2.1⟩) name
  | number token =>
    obtain ⟨n, -, heq⟩ := h
    cases heq
  | string token =>
    obtain ⟨s, -, heq⟩ := h
    cases heq
  | array items stop =>
    obtain ⟨-, vs, heq, -⟩ := h
    cases heq
  | _ => cases h

end Doc

/-- What the two readings of an object find together. -/
theorem Frame.found_spelled {source : List Symbol} {d : Sourced Doc} {o : Dict Json}
    (hspells : d.value.Spells (.object o.entries)) (hcited : d.value.Cited source)
    (hitself : ∀ name ∈ ["params", "result", "error"], ∀ d', d.value.Holds name d' →
      d'.value.Each Doc.StandsForItself) :
    [Request.codec.decode.map Frame.request, Response.codec.decode.map .response].findSome?
      (fun variant => (variant .value d).found) = ofMembers? o.entries := by
  obtain ⟨members, hdoc, hnames, hfind⟩ := hspells.members hcited
  obtain ⟨doc, text⟩ := d
  obtain rfl : doc = .object members none := hdoc
  have hmember : ∀ name ∈ ["params", "result", "error"], ∀ d', Doc.find? name members = some d' →
      d'.value.Each Doc.StandsForItself :=
    fun name hname d' hd' => hitself name hname d' (Doc.holds_of_find? hd')
  have hrequest : ((Request.codec.decode.map Frame.request) .value
      ⟨.object members none, text⟩).found = (Request.ofMembers? o.entries).map .request := by
    refine (Traced.found_map _ _).trans (congrArg _ ?_)
    refine (Record.found_object rfl (by decide) hnames .value text).trans ?_
    exact Request.found_spelled hfind (hmember _ (by decide))
  have hresponse : ((Response.codec.decode.map Frame.response) .value
      ⟨.object members none, text⟩).found = (Response.ofMembers? o.entries).map .response := by
    refine (Traced.found_map _ _).trans (congrArg _ ?_)
    refine (Record.found_object rfl (by decide) hnames .value text).trans ?_
    exact Response.found_spelled hfind (hmember _ (by decide)) (hmember _ (by decide))
  rw [List.findSome?_cons, List.findSome?_cons, List.findSome?_nil, hrequest, hresponse, ofMembers?]
  cases (Request.ofMembers? o.entries).map Frame.request with
  | some frame => rfl
  | none => cases (Response.ofMembers? o.entries).map Frame.response <;> rfl

namespace Wire

/-- An object is read as the frame that its members make, and as none if they make none, unless an
object in its params, its result or its error begins with the reserved name. -/
theorem decodeFrame_eq_ofMembers (config : Config) (bytes : ByteArray) (o : Dict Json)
    (hsize : bytes.size ≤ config.maxMessageSize.toNat)
    (hspells : (Document.ofBytes bytes).root.value.Spells (.object o.entries))
    (htrailing : (Document.ofBytes bytes).trailing = none)
    (hdepth : (Document.ofBytes bytes).root.value.depth ≤ 127)
    (hitself : ∀ name ∈ ["params", "result", "error"], ∀ d,
      (Document.ofBytes bytes).root.value.Holds name d → d.value.Each Doc.StandsForItself) :
    (decodeFrame config bytes).result =
      match Frame.ofMembers? o.entries with
      | some frame => .ok frame
      | none => .error (.json (.noVariant "JsonRpcMessage")) := by
  have hverify : (Document.ofBytes bytes).root.value.verify (.text Origin.maxDepth) = .ok () :=
    hspells.verify hdepth
  have hroot : (Frame.codec.decode (.text Origin.maxDepth) (Document.ofBytes bytes).root).result =
      match Frame.ofMembers? o.entries with
      | some frame => .ok frame
      | none => .error (.noVariant "JsonRpcMessage") := by
    refine (Traced.result_bind _ _).trans ?_
    rw [Traced.result_liftM, hverify, Outcome.ok_bind, Decoder.result_firstOf,
      Frame.found_spelled hspells (Document.cited (Symbol.ofBytes bytes)).1 hitself]
    cases Frame.ofMembers? o.entries <;> rfl
  have hrun : (Frame.codec.decode.run bytes).result =
      match Frame.ofMembers? o.entries with
      | some frame => .ok frame
      | none => .error (.noVariant "JsonRpcMessage") := by
    refine (Traced.result_bind _ _).trans ?_
    rw [hroot]
    cases Frame.ofMembers? o.entries with
    | none => rfl
    | some frame =>
      simp only [htrailing]
      rfl
  unfold decodeFrame
  rw [Traced.result_bind, checkSize_eq_ok hsize, Outcome.ok_bind, Traced.result_mapError, hrun]
  cases Frame.ofMembers? o.entries <;> rfl

/-- The compact text of a value. -/
theorem document_text (v : Json) : Document.ofBytes v.text.toUTF8 = ⟨Doc.sourced v, none⟩ := by
  rw [Doc.sourced_eq]
  exact Document.ofBytes_text (Form.writable_ofJson v)

/-- A method that is no text makes a response of what was meant as a request. -/
theorem decodeFrame_eq_ofMembers_misnamed :
    let o : Dict Json := .ofList [("jsonrpc", .string "2.0"), ("method", .ofInt 7),
      ("id", .string "a"), ("result", .array [.bool true]), ("params", .null)]
    let bytes := (Json.object o.entries).text.toUTF8
    bytes.size ≤ Config.default.maxMessageSize.toNat ∧
      (Document.ofBytes bytes).root.value.Spells (.object o.entries) ∧
      (Document.ofBytes bytes).trailing = none ∧
      (Document.ofBytes bytes).root.value.depth ≤ 127 ∧
      (decodeFrame .default bytes).result =
        .ok (.response ⟨"2.0", some (.array [.bool true]), none, some (.string "a")⟩) := by
  intro o bytes
  have hdocument : Document.ofBytes bytes = ⟨Doc.sourced (.object o.entries), none⟩ :=
    document_text _
  have hsize : bytes.size ≤ Config.default.maxMessageSize.toNat := by decide +kernel
  have hspells : (Document.ofBytes bytes).root.value.Spells (.object o.entries) := by
    rw [hdocument]
    exact Doc.spells_ofJson _ (by decide +kernel)
  have hdepth : (Document.ofBytes bytes).root.value.depth ≤ 127 := by
    rw [hdocument]
    decide +kernel
  have hitself : (Document.ofBytes bytes).root.value.Each Doc.StandsForItself := by
    rw [hdocument]
    decide +kernel
  refine ⟨hsize, hspells, by rw [hdocument], hdepth, ?_⟩
  exact decodeFrame_eq_ofMembers .default bytes o hsize hspells (by rw [hdocument]) hdepth
    fun _ _ _ hd => hitself.holds hd

/-- A request whose params begin with the reserved name. -/
def reserved : Dict Json :=
  .ofList [("jsonrpc", .string "2.0"), ("method", .string "m"),
    ("params", .object [(Doc.embeddedName, .ofInt 5)])]

/-- Params that begin with the reserved name cannot be read, and a response is found in place of the
request. -/
theorem decodeFrame_ne_ofMembers_reserved :
    let bytes := ("\x7b\"jsonrpc\":\"2.0\",\"method\":\"m\",\"params\":" ++
      "\x7b\"$serde_json::private::RawValue\":5\x7d\x7d").toUTF8
    bytes.size ≤ Config.default.maxMessageSize.toNat ∧
      (Document.ofBytes bytes).root.value.Spells (.object reserved.entries) ∧
      (Document.ofBytes bytes).trailing = none ∧
      (Document.ofBytes bytes).root.value.depth ≤ 127 ∧
      Frame.ofMembers? reserved.entries = some (.request
        ⟨"2.0", "m", some (.object [(Doc.embeddedName, .ofInt 5)]), none⟩) ∧
      (decodeFrame .default bytes).result = .ok (.response ⟨"2.0", none, none, none⟩) := by
  intro bytes
  have hbytes : bytes = (Json.object reserved.entries).text.toUTF8 := by decide +kernel
  have hdocument : Document.ofBytes bytes = ⟨Doc.sourced (.object reserved.entries), none⟩ :=
    hbytes ▸ document_text _
  have hsize : bytes.size ≤ Config.default.maxMessageSize.toNat := by decide +kernel
  refine ⟨hsize, ?_, by rw [hdocument], ?_, rfl, ?_⟩
  · rw [hdocument]
    exact Doc.spells_ofJson _ (by decide +kernel)
  · rw [hdocument]
    decide +kernel
  · unfold decodeFrame
    rw [Traced.result_bind, checkSize_eq_ok hsize, Outcome.ok_bind, Decoder.run, hdocument]
    rfl

end Wire

end ContextProtocol
