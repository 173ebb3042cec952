import ContextProtocol.Proofs.Message.ErrorRegistry
import ContextProtocol.Proofs.Message.Frame

/-!
# Responses in frames

A frame is tried as a request first, and no response is one: it has no method. As a response it is
then read member by member. An optional member that is written as `null` is read as one that is not
there, so a result of `null` does not arrive.

Results:
* `Wire.decodeFrame_response`: a response is read as what its members are read as.
* `Response.success_arrives`: a successful response comes back, unless its result is `null`.
* `Response.failure_arrives`: a failed response comes back, unless its data is an extension.
* `ErrorInfo.errors_come_back`: what becomes of errors, on their own and in frames.
-/
namespace ContextProtocol

/-- An object without a method is no request. -/
theorem Request.decode_ne_ok {origin : Origin} {members : List (String × Form)}
    (h : ∀ m ∈ members, m.1 ≠ "method") (r : Request) :
    (codec.decode origin (Sourced.ofForm (.object members))).result ≠ .ok r := by
  intro hok
  obtain ⟨inner, ⟨version, method, params, id, ⟨⟩⟩, -, -, -, hmethod, -⟩ :=
    Record.from_of_decode hok
  rcases hmethod with ⟨d, hholds, -⟩ | habsent
  · obtain ⟨f, hf, -⟩ := Doc.holds_ofForm.mp hholds
    exact h _ hf rfl
  · cases habsent

/-- A response is no request, and what its members are read as is the response that arrives. -/
theorem Wire.decodeFrame_response {config : Config} {r r' : Response}
    (hf : (Response.codec.encode r).Writable) (hraws : (Response.codec.encode r).raws = [])
    (hdepth : (Frame.form (.response r)).depth ≤ Origin.maxDepth)
    (hsize : (encode (Frame.response r)).toUTF8.size ≤ config.maxMessageSize.toNat)
    (hread : (Response.codec.decode .value (Sourced.ofForm (Response.codec.encode r))).result =
      .ok r') :
    (decodeFrame config (encode (Frame.response r)).toUTF8).result = .ok (.response r') := by
  have hverify : (Sourced.ofForm (Response.codec.encode r)).value.verify (.text Origin.maxDepth) =
      .ok () := Doc.verify_ofForm _ hf hraws _ hdepth
  have hmethod : ∀ m ∈ Response.record.fields.encode (Response.record.toRow r), m.1 ≠ "method" := by
    intro m hm hname
    have hmem := (Fields.encode_sublist _ _).mem (List.mem_map_of_mem (f := (·.1)) hm)
    rw [hname] at hmem
    exact absurd hmem (by decide)
  refine decodeFrame_text hf hsize (Decoder.untagged_second hverify (fun frame h => ?_) ?_)
  · have hmap := (Traced.result_map (Request.codec.decode .value _) Frame.request).symm.trans h
    obtain ⟨request, hrequest, -⟩ := Outcome.fmap_eq_ok_iff.mp hmap
    exact Request.decode_ne_ok hmethod request hrequest
  · exact (Traced.result_map _ _).trans (congrArg (Frame.response <$> ·) hread)

namespace Response

/-- A result as it arrives: `null` is read as no result. -/
def arriving : Json → Option Json
  | .null => none
  | v => some v

theorem arriving_eq_self_iff {v : Json} : arriving v = some v ↔ v ≠ .null := by
  cases v <;> simp [arriving]

theorem option_json_reads {v : Json} (h : v.Recovered) :
    (Codec.json.option.decode .value (Sourced.ofForm (Form.ofJson v))).result = .ok (arriving v) := by
  by_cases hnull : v = .null
  · subst hnull
    rfl
  · rw [arriving_eq_self_iff.mpr hnull]
    exact ((Codec.RoundTrips.json h).option (Codec.present_json hnull)).reads .written .value trivial

/-- The members of a successful response. -/
def successMembers (id : RequestId) (v : Json) : List (String × Form) :=
  [("jsonrpc", .string frameVersion), ("result", .ofJson v), ("id", Identifier.requestCodec.encode id)]

theorem encode_success (id : RequestId) (v : Json) :
    codec.encode (.success id v) = .object (successMembers id v) := rfl

/-- The response that arrives in place of a success. -/
theorem decode_success {id : RequestId} {v : Json} (h : v.Recovered) :
    (codec.decode .value (Sourced.ofForm (codec.encode (.success id v)))).result =
      .ok ⟨frameVersion, arriving v, none, some id⟩ := by
  have hid := (Codec.RoundTrips.identifier "RequestId" id).option
    (Codec.present_identifier "RequestId" id)
  have hkeys : (successMembers id v).map (·.1) = ["jsonrpc", "result", "id"] := rfl
  rw [encode_success]
  have henter : Origin.enter .value = .ok .value := rfl
  refine Record.decode_of_takes (r := record) henter (by decide) (hkeys ▸ by decide)
    (fun m hm => .inl ?_) ?_
  · simp only [successMembers, List.mem_cons, List.not_mem_nil, or_false] at hm
    rcases hm with rfl | rfl | rfl
    · exact rfl
    · exact option_json_reads h
    · exact hid.reads .written .value trivial
  · rw [hkeys]
    exact ⟨.inl (by decide), .inl (by decide), .inr rfl, .inl (by decide), trivial⟩

theorem writable_success (id : RequestId) (v : Json) : (codec.encode (.success id v)).Writable :=
  ⟨trivial, Form.writable_ofJson v, (Codec.RoundTrips.identifier "RequestId" id).writable, trivial⟩

theorem raws_success (id : RequestId) (v : Json) : (codec.encode (.success id v)).raws = [] := by
  rw [encode_success]
  refine Form.rawsMembers_eq_nil.mpr fun m hm => ?_
  simp only [successMembers, List.mem_cons, List.not_mem_nil, or_false] at hm
  rcases hm with rfl | rfl | rfl
  · rfl
  · exact Form.raws_ofJson v
  · exact Codec.Rawless.identifier "RequestId" id

/-- A successful response arrives with its result, unless the result is `null`: then it arrives
without one. -/
theorem success_arrives (config : Config) (id : RequestId) (result : Json)
    (hresult : result.Recovered)
    (hdepth : (Frame.form (.response (.success id result))).depth ≤ Origin.maxDepth)
    (hsize : (Wire.encode (Frame.response (.success id result))).toUTF8.size ≤
      config.maxMessageSize.toNat) :
    (Wire.decodeFrame config (Wire.encode (Frame.response (.success id result))).toUTF8).result =
        .ok (.response ⟨frameVersion, arriving result, none, some id⟩) ∧
      ((Wire.decodeFrame config (Wire.encode (Frame.response (.success id result))).toUTF8).result =
        .ok (.response (.success id result)) ↔ result ≠ .null) := by
  have hread := Wire.decodeFrame_response (writable_success id result) (raws_success id result)
    hdepth hsize (decode_success hresult)
  refine ⟨hread, ?_⟩
  rw [hread, ← arriving_eq_self_iff]
  simp [success]

theorem success_arrives_text :
    let r : Response := .success (.string "7") (.string "done")
    (Json.string "done").Recovered ∧ (Frame.form (.response r)).depth ≤ Origin.maxDepth ∧
      (Wire.encode (Frame.response r)).toUTF8.size ≤ Config.default.maxMessageSize.toNat ∧
      (Wire.decodeFrame .default (Wire.encode (Frame.response r)).toUTF8).result =
        .ok (.response r) := by
  have hresult : (Json.string "done").Recovered :=
    Json.recovered_iff.mpr ⟨trivial, trivial, Nat.zero_le _⟩
  have hdepth : (Frame.form (.response (.success (.string "7") (.string "done")))).depth ≤
      Origin.maxDepth := by decide
  have hsize : (Wire.encode (Frame.response (.success (.string "7") (.string "done")))).toUTF8.size ≤
      Config.default.maxMessageSize.toNat := by decide +kernel
  exact ⟨hresult, hdepth, hsize, (success_arrives .default _ _ hresult hdepth hsize).2.mpr nofun⟩

/-- A success with the result `null` arrives as another response. -/
theorem null_result_lost :
    let r : Response := .success (.number 1) .null
    Json.null.Recovered ∧ (Frame.form (.response r)).depth ≤ Origin.maxDepth ∧
      (Wire.encode (Frame.response r)).toUTF8.size ≤ Config.default.maxMessageSize.toNat ∧
      (Wire.decodeFrame .default (Wire.encode (Frame.response r)).toUTF8).result ≠
        .ok (.response r) := by
  have hresult : Json.null.Recovered := Json.recovered_iff.mpr ⟨trivial, trivial, Nat.zero_le _⟩
  have hdepth : (Frame.form (.response (.success (.number 1) .null))).depth ≤ Origin.maxDepth := by
    decide
  have hsize : (Wire.encode (Frame.response (.success (.number 1) .null))).toUTF8.size ≤
      Config.default.maxMessageSize.toNat := by decide +kernel
  refine ⟨hresult, hdepth, hsize, ?_⟩
  rw [Wire.decodeFrame_response (writable_success _ _) (raws_success _ _) hdepth hsize
    (decode_success hresult)]
  simp [success, arriving]

end Response

/-! ## Failures -/

namespace ErrorInfo

variable {i : ErrorInfo}

/-- The data of the error is of a built-in kind, if there is any. -/
def NoExtension (i : ErrorInfo) : Prop := ∀ x, i.data ≠ some (.extension x)

theorem NoExtension.builtIn (h : i.NoExtension) {d : ErrorData} (hd : i.data = some d) :
    d.BuiltIn := by
  cases d with
  | extension x => exact absurd hd (h x)
  | _ => rfl

theorem NoExtension.recovered (h : i.NoExtension) : i.Recovered :=
  fun _ hd => (h.builtIn hd).recovered

theorem NoExtension.shallow (h : i.NoExtension) : i.form.Shallow 4 := by
  have hdata : ∀ d, i.data = some d → d.form.Shallow 3 := by
    intro d hd
    have hbuiltIn := h.builtIn hd
    obtain ⟨object, hm⟩ := ErrorData.exists_inMemory hbuiltIn.recovered.canonical
    exact ⟨plain_taggedForm hm.body_writable hm.body_raws hm.body_toJson
      ErrorData.errorTypeField_ne hbuiltIn.shallow.1, hbuiltIn.depth_le⟩
  have hnames : "code" ≠ Doc.embeddedName ∧ "message" ≠ Doc.embeddedName ∧
      "data" ≠ Doc.embeddedName := by decide
  refine ⟨Form.plainMembers_iff.mpr fun m hm => ?_,
    depth_form_le_iff.mpr fun d hd => (hdata d hd).2⟩
  rcases mem_form.mp hm with rfl | rfl | ⟨d, hd, rfl⟩
  · exact ⟨hnames.1, trivial⟩
  · exact ⟨hnames.2.1, trivial⟩
  · exact ⟨hnames.2.2, (hdata d hd).1⟩

/-- Without extensions, an error comes back from inside other values. -/
theorem roundTrips (hvalid : Valid i) (h : i.NoExtension) : codec.RoundTrips i := by
  have hi := h.recovered
  have hdepth : i.form.depth ≤ Origin.maxDepth := Nat.le_trans h.shallow.2 (by decide)
  obtain ⟨v, hv⟩ := Form.exists_toJson (raws_form hi.canonical)
  refine Codec.RoundTrips.refine (writable_form hi.canonical) h.shallow.1 hv ?_
  have hleads := leads_of_routed ErrorRegistry.routed_new hvalid hi.canonical fun x hx =>
    absurd hx (h x)
  have hread : (fromValue v).result = .ok i := fromValueWith_of_leads hleads hi hvalid hdepth hv
  rw [Traced.result_mapError, hread]
  rfl

end ErrorInfo

namespace Response

variable {i : ErrorInfo}

theorem roundTrips_failure (id : Option RequestId) (hvalid : Valid i) (h : i.NoExtension) :
    codec.RoundTrips (.failure id i) := by
  refine Record.roundTrips (by decide) ⟨?_, ?_, ?_, ?_, trivial⟩
  · exact Field.holds_required (.string _)
  · exact Field.holds_optional nofun
  · refine Field.holds_optional fun e he => ?_
    obtain rfl : i = e := Option.some.inj he
    exact ⟨ErrorInfo.roundTrips hvalid h, Codec.present_of_object rfl⟩
  · unfold Field.Holds
    cases id with
    | none => exact .unset _
    | some id => exact .option (.identifier _ id) (Codec.present_identifier _ id)

theorem shallow_failure (id : Option RequestId) (h : i.NoExtension) :
    (codec.encode (.failure id i)).Shallow 5 := by
  refine Record.shallow ⟨fun _ => ⟨by decide, trivial, Nat.zero_le _⟩, nofun,
    fun _ => ⟨by decide, ?_⟩, fun _ => ⟨by decide, ?_⟩, trivial⟩
  · exact h.shallow
  · cases id with
    | none => exact ⟨trivial, Nat.zero_le _⟩
    | some id => cases id <;> exact ⟨trivial, Nat.zero_le _⟩

/-- A failed response without an extension comes back from its text. -/
theorem failure_arrives {config : Config} (id : Option RequestId) (hvalid : Valid i)
    (h : i.NoExtension)
    (hsize : (Wire.encode (Frame.response (.failure id i))).toUTF8.size ≤
      config.maxMessageSize.toNat) :
    (Wire.decodeFrame config (Wire.encode (Frame.response (.failure id i))).toUTF8).result =
      .ok (.response (.failure id i)) := by
  have hround := roundTrips_failure id hvalid h
  have hshallow := shallow_failure id h
  exact Wire.decodeFrame_response hround.writable hshallow.1.raws
    (Nat.le_trans hshallow.2 (by decide)) hsize (hround.reads .written .value trivial)

end Response

/-! ## Errors on their own and in frames -/

namespace ErrorInfo

/-- Through a registry that is built from the new one by fallbacks and extensions: a constructed
error whose kind is registered comes back, unless it is an extension under a pair of a built-in kind;
whatever was read comes back; and without extensions, errors come back in frames too. -/
theorem errors_come_back {r : ErrorRegistry} (hr : r.Extended) :
    (∀ i : ErrorInfo, i.Constructed →
      (∀ x, i.data = some (.extension x) → r.routes.contains (i.code, x.errorType) = true) →
      i.form.depth ≤ Origin.maxDepth → i.Recovered →
        ∃ text, i.encode = .ok text ∧ ((decodeWith r text.toUTF8).result = .ok i ↔
          ∀ x, i.data = some (.extension x) → ¬ ErrorRegistry.Reserved i.code x.errorType)) ∧
    (∀ (bytes : ByteArray) (i : ErrorInfo), (decodeWith r bytes).result = .ok i →
      (∀ v, Json.parseBytes bytes = .ok v → v.Recovered) →
        ∃ text, i.encode = .ok text ∧ (decodeWith r text.toUTF8).result = .ok i) ∧
    ∀ (config : Config) (id : Option RequestId) (i : ErrorInfo), Valid i → i.NoExtension →
      (Wire.encode (Frame.response (.failure id i))).toUTF8.size ≤ config.maxMessageSize.toNat →
        (Wire.decodeFrame config (Wire.encode (Frame.response (.failure id i))).toUTF8).result =
          .ok (.response (.failure id i)) := by
  refine ⟨fun i hc hknown hdepth hi => ?_, fun bytes i hread hback => ?_,
    fun config id i hvalid h hsize => Response.failure_arrives id hvalid h hsize⟩
  · exact ⟨_, encode_eq hi.canonical, decodeWith_iff hr.routed hc.valid hi hdepth hknown⟩
  · obtain ⟨v, hv, hvalue⟩ := decodeWith_eq_ok_iff.mp hread
    exact decodeWith_again hr.routed (hback v hv) hvalue

/-- The fields of an extension. -/
def limits : Dict Json := .ofList [("limit", .ofInt 10)]

theorem recovered_limits : (Json.object limits.entries).Recovered :=
  Json.recovered_iff.mpr
    ⟨⟨List.pairwise_singleton .., trivial, trivial⟩, ⟨by decide, trivial, trivial⟩, by decide⟩

/-- A registry with one extension, which is also the fallback of its code. -/
def rates : ErrorRegistry :=
  (ErrorRegistry.new.register (-32000) "rate" ErrorData.readExtension).withDefault (-32000) "rate"

/-- An error of that kind. -/
def limited : ErrorInfo := ⟨-32000, "m", some (.extension ⟨"rate", limits, by decide, rfl⟩)⟩

/-- The error written without its tag. -/
def untagged : Form :=
  .object [("code", .integer (-32000)), ("message", .string "m"),
    ("data", .object [("limit", .integer 10)])]

/-- The error without its tag in memory. -/
def untaggedValue : Json :=
  .object [("code", .ofInt (-32000)), ("data", .object limits.entries), ("message", .string "m")]

theorem parse_untagged : Json.parseBytes untagged.text.toUTF8 = .ok untaggedValue := by
  have hbare : untagged.Bare :=
    ⟨by decide, trivial, trivial, ⟨by decide, trivial, trivial⟩, trivial⟩
  have hwritable : untagged.Writable :=
    ⟨by constructor <;> decide, trivial, ⟨by constructor <;> decide, trivial⟩, trivial⟩
  rw [Json.parseBytes_text hwritable hbare (by decide)]
  rfl

theorem recovered_untagged : untaggedValue.Recovered := by
  have hsorted : Entries.Sorted [("code", Json.ofInt (-32000)), ("data", .object limits.entries),
      ("message", .string "m")] := by
    unfold Entries.Sorted
    decide
  exact Json.recovered_iff.mpr ⟨⟨hsorted, trivial, recovered_limits.canonical, trivial, trivial⟩,
    ⟨by decide, trivial, recovered_limits.bare, trivial, trivial⟩, by decide⟩

theorem not_reserved_rate : ¬ ErrorRegistry.Reserved (-32000) "rate" := by
  unfold ErrorRegistry.Reserved
  decide

theorem errors_come_back_limited :
    let failed : ErrorInfo := ⟨-32602, "m", some (.validation ⟨[⟨"f", "e"⟩]⟩)⟩
    rates.Extended ∧ limited.Constructed ∧ limited.Recovered ∧
      (∃ text, limited.encode = .ok text ∧ (decodeWith rates text.toUTF8).result = .ok limited) ∧
      (decodeWith rates untagged.text.toUTF8).result = .ok limited ∧
      (∀ v, Json.parseBytes untagged.text.toUTF8 = .ok v → v.Recovered) ∧
      (∃ text, limited.encode = .ok text ∧ (decodeWith rates text.toUTF8).result = .ok limited) ∧
      (Wire.decodeFrame .default (Wire.encode (Frame.response (.failure none failed))).toUTF8).result =
        .ok (.response (.failure none failed)) := by
  intro failed
  have hr : rates.Extended := .withDefault _ _ (.register not_reserved_rate .new)
  have hnew : (new (-32000) "m" [.data (.extension ⟨"rate", limits, by decide, rfl⟩)]).result =
      .ok limited := rfl
  have hrecovered : limited.Recovered := fun d hd => by cases hd; exact recovered_limits
  have hknown : ∀ x, limited.data = some (.extension x) →
      rates.routes.contains (limited.code, x.errorType) = true := fun x hx => by cases hx; rfl
  have hpair : ∀ x, limited.data = some (.extension x) →
      ¬ ErrorRegistry.Reserved limited.code x.errorType := fun x hx => by
    cases hx
    exact not_reserved_rate
  obtain ⟨text, htext, hback⟩ :=
    (errors_come_back hr).1 limited (.new hnew) hknown (by decide) hrecovered
  have hread : (decodeWith rates untagged.text.toUTF8).result = .ok limited :=
    decodeWith_eq_ok_iff.mpr ⟨_, parse_untagged, rfl⟩
  have hvalue : ∀ v, Json.parseBytes untagged.text.toUTF8 = .ok v → v.Recovered := by
    intro v hv
    obtain rfl := Except.ok.inj (parse_untagged.symm.trans hv)
    exact recovered_untagged
  have hfailed : Valid failed := rfl
  exact ⟨hr, .new hnew, hrecovered, ⟨text, htext, hback.mpr hpair⟩, hread, hvalue,
    (errors_come_back hr).2.1 _ _ hread hvalue,
    (errors_come_back hr).2.2 .default none failed hfailed nofun (by decide +kernel)⟩

/-- An extension under the pair of the validation data is registered and does not come back. -/
theorem extension_lost :
    let i : ErrorInfo := ⟨-32602, "m", some (.extension ⟨"validation", limits, by decide, rfl⟩)⟩
    ErrorRegistry.new.Extended ∧ i.Constructed ∧ i.form.depth ≤ Origin.maxDepth ∧ i.Recovered ∧
      ErrorRegistry.new.routes.contains (i.code, "validation") = true ∧
        ∃ text, i.encode = .ok text ∧ (decodeWith .new text.toUTF8).result ≠ .ok i := by
  intro i
  have hnew : (new (-32602) "m"
      [.data (.extension ⟨"validation", limits, by decide, rfl⟩)]).result = .ok i := rfl
  have hrecovered : i.Recovered := fun d hd => by cases hd; exact recovered_limits
  have hdepth : i.form.depth ≤ Origin.maxDepth := by decide
  refine ⟨.new, .new hnew, hdepth, hrecovered, rfl, _, encode_eq hrecovered.canonical, ?_⟩
  have hknown : ∀ x, i.data = some (.extension x) →
      ErrorRegistry.new.routes.contains (i.code, x.errorType) = true :=
    fun x hx => by cases hx; rfl
  rw [Ne, decodeWith_iff ErrorRegistry.routed_new (valid_of_new hnew) hrecovered hdepth hknown]
  exact fun h => h _ rfl (.inl ⟨rfl, rfl⟩)

end ErrorInfo

end ContextProtocol
