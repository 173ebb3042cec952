import ContextProtocol.Message.Wire
import ContextProtocol.Proofs.Message.Envelope
import ContextProtocol.Proofs.Message.Payloads

/-!
# Envelopes in frames

An envelope goes into a frame as a value in memory, the frame goes through its text, and the params
are printed and read again when the envelope is taken out. On the way the members of the params are
brought into order and payloads are taken apart, so all that is left of a payload is the compact
text of its value.

Results:
* `Wire.decodeFrame_request`: a request or notification comes back from its text as itself.
* `Envelope.fromRequest_eq_ok`: the envelope that is taken out of a frame is one whose params read
  like the params of the frame.
* `EnvelopeKind.frame_round_trip`: both together, for every valid envelope, and the only reason for
  which there may be no frame.
-/
namespace ContextProtocol

/-! ## Frames -/

namespace Request

theorem rawless : codec.Rawless :=
  Record.rawless ⟨.string, .string, .option .json, .option (.identifier _), trivial⟩

/-- A request whose params are an object that comes back makes the round trip. -/
theorem roundTrips {r : Request}
    (h : ∀ v, r.params = some v → v.Recovered ∧ ∃ members, v = .object members) :
    codec.RoundTrips r := by
  refine Record.roundTrips (by decide) ⟨?_, ?_, ?_, ?_, trivial⟩
  · exact Field.holds_required (.string _)
  · exact Field.holds_required (.string _)
  · refine Field.holds_optional ?_
    intro v hv
    obtain ⟨hrecovered, members, rfl⟩ := h v hv
    exact ⟨.json hrecovered, Codec.present_of_object rfl⟩
  · exact Field.holds_optional fun id _ =>
      ⟨Codec.RoundTrips.identifier _ id, Codec.present_identifier _ id⟩

end Request

namespace Wire

theorem checkSize_eq_ok {config : Config} {bytes : ByteArray}
    (h : bytes.size ≤ config.maxMessageSize.toNat) : (checkSize config bytes).result = .ok () := by
  unfold checkSize
  dsimp only
  rw [if_neg (Nat.not_lt.mpr h)]
  rfl

/-- A text that is not too long is read as the frame in its document. -/
theorem decodeFrame_text {config : Config} {f : Form} {frame : Frame} (hf : f.Writable)
    (hsize : f.text.toUTF8.size ≤ config.maxMessageSize.toNat)
    (hread : (Frame.codec.decode (.text Origin.maxDepth) (Sourced.ofForm f)).result = .ok frame) :
    (decodeFrame config f.text.toUTF8).result = .ok frame := by
  have hframe : (Frame.codec.decode.run f.text.toUTF8).result = .ok frame := by
    refine Decoder.runDocument_eq_ok_iff.mpr ?_
    rw [Document.ofBytes_text hf]
    exact ⟨hread, rfl⟩
  unfold decodeFrame
  rw [Traced.result_bind, checkSize_eq_ok hsize, Outcome.ok_bind, Traced.result_mapError, hframe]
  rfl

/-- A request or notification comes back from its text as itself. -/
theorem decodeFrame_request {config : Config} {r : Request} (hround : Request.codec.RoundTrips r)
    (hdepth : (Frame.form (.request r)).depth ≤ Origin.maxDepth)
    (hsize : (encode (Frame.request r)).toUTF8.size ≤ config.maxMessageSize.toNat) :
    (decodeFrame config (encode (Frame.request r)).toUTF8).result = .ok (.request r) := by
  have hverify : (Sourced.ofForm (Request.codec.encode r)).value.verify (.text Origin.maxDepth) =
      .ok () := Doc.verify_ofForm _ hround.writable (Request.rawless r) _ hdepth
  have hread : (Request.codec.decode .value (Sourced.ofForm (Request.codec.encode r))).result =
      .ok r := hround.reads .written .value trivial
  refine decodeFrame_text hround.writable hsize (Decoder.untagged_first hverify ?_)
  exact (Traced.result_map _ _).trans (congrArg (Frame.request <$> ·) hread)

end Wire

/-! ## Out of a frame -/

namespace Envelope

variable {E Step : Type} [Envelope E Step] {e : E}

/-- The envelope that is taken out of a frame is one whose params read like the params of the
frame. -/
theorem fromRequest_eq_ok {r : Request} {v : Json} (hmethod : r.method = method E)
    (hparams : r.params = some v) (hobject : ∃ members, v = .object members)
    (halike : Alike ((params : Codec E).encode e).sorted (Form.ofJson v))
    (hround : (params : Codec E).RoundTrips e) (hvalid : Valid e)
    (hdepth : (Form.ofJson v).depth ≤ Origin.maxDepth) :
    (fromRequest r : Traced DecodeError E).result = .ok e := by
  obtain ⟨members, rfl⟩ := hobject
  have hsorted : Entries.Sorted
      [("method", Json.string (method E)), ("params", Json.object members)] := by
    refine List.pairwise_cons.mpr ⟨fun m hm => ?_, List.pairwise_singleton ..⟩
    obtain rfl := List.mem_singleton.mp hm
    show KeyOrder.lt "method" "params" = true
    decide
  have hmembers : (EnvelopeMembers.record.codec.decode.runValue (.object
      [("method", .string (method E)), ("params", .object members)])).result =
      .ok ⟨method E, some (Json.object members).text⟩ := by
    rw [Decoder.runValue, Doc.sourced_eq]
    exact EnvelopeMembers.decode_ofForm (Form.writable_ofJson _) (fun h => by cases h)
      (fun _ h => by cases h) rfl
  have hread : ((params : Codec E).decode.runString (Json.object members).text).result = .ok e := by
    have ho : Origin.Admits (.text Origin.maxDepth) ((params : Codec E).encode e).sorted.depth :=
      Nat.le_trans halike.depth hdepth
    refine Decoder.runDocument_eq_ok_iff.mpr ?_
    rw [Json.text, Document.ofString_text (Form.writable_ofJson _), ← halike.sourced]
    exact ⟨hround.reads .byName _ ho, rfl⟩
  unfold fromRequest fromValue
  rw [hmethod, hparams, Json.ofMembers]
  simp only [Option.toList_some, List.map_cons, List.map_nil]
  rw [Entries.ofList_of_sorted hsorted, Traced.result_bind, Traced.result_mapError]
  refine (congrArg (fun r => r.mapError DecodeError.json >>= _) hmembers).trans ?_
  exact ofMembers_eq_ok_iff.mpr ⟨rfl, hread, hvalid⟩

theorem toRequest_eq_ok_iff {id : RequestId} {r : Request} : toRequest e id = .ok r ↔
    ∃ v, ((params : Codec E).encode e).toJson = .ok v ∧ r = .new (method E) (some v) id := by
  unfold toRequest paramsValue
  rw [Outcome.bind_eq_ok_iff]
  constructor
  · rintro ⟨v, hv, h⟩
    exact ⟨v, Outcome.mapError_eq_ok_iff.mp hv, (Except.ok.inj h).symm⟩
  · rintro ⟨v, hv, rfl⟩
    exact ⟨v, Outcome.mapError_eq_ok_iff.mpr hv, rfl⟩

theorem toNotification_eq_ok_iff {r : Request} : toNotification e = .ok r ↔
    ∃ v, ((params : Codec E).encode e).toJson = .ok v ∧
      r = .notification (method E) (some v) := by
  unfold toNotification paramsValue
  rw [Outcome.bind_eq_ok_iff]
  constructor
  · rintro ⟨v, hv, h⟩
    exact ⟨v, Outcome.mapError_eq_ok_iff.mp hv, (Except.ok.inj h).symm⟩
  · rintro ⟨v, hv, rfl⟩
    exact ⟨v, Outcome.mapError_eq_ok_iff.mpr hv, rfl⟩

end Envelope

/-! ## All envelopes -/

namespace EnvelopeKind

open Envelope

variable (k : EnvelopeKind) (e : k.Carrier)

/-- In memory, params are an object. -/
theorem toJson_eq_object {v : Json} (h : ((params : Codec k.Carrier).encode e).toJson = .ok v) :
    ∃ members, v = .object members := by
  have hencode : ∃ members, (params : Codec k.Carrier).encode e = .object members := by
    cases k <;> exact ⟨_, rfl⟩
  obtain ⟨members, hmembers⟩ := hencode
  rw [hmembers, Form.toJson, Outcome.map_eq_ok_iff] at h
  obtain ⟨found, -, rfl⟩ := h
  exact ⟨_, rfl⟩

/-- There is no frame only if a payload cannot be read, so only for an opening. -/
theorem toJson_eq_error {err : ShapeError}
    (h : ((params : Codec k.Carrier).encode e).toJson = .error err) :
    k = .opening ∧ ∃ p ∈ k.payloads e, Json.parse p.text = .error err := by
  obtain ⟨t, ht, hparse⟩ := Form.toJson_eq_error _ err h
  rw [k.raws_encode e] at ht
  obtain ⟨p, hp, rfl⟩ := List.mem_map.mp ht
  refine ⟨?_, p, hp, hparse⟩
  cases k <;> first | rfl | exact absurd hp List.not_mem_nil

/-- In memory, every payload was read, and its compact text is a payload again. -/
theorem captured_compact {v : Json} (h : ((params : Codec k.Carrier).encode e).toJson = .ok v) :
    ∀ p ∈ k.payloads (k.compact e), p.Captured := by
  intro p hp
  rw [k.payloads_compact e] at hp
  obtain ⟨q, hq, rfl⟩ := List.mem_map.mp hp
  have hraw : q.text ∈ ((params : Codec k.Carrier).encode e).raws := by
    rw [k.raws_encode e]
    exact List.mem_map_of_mem hq
  obtain ⟨w, hw⟩ := Form.parse_of_toJson _ v h q.text hraw
  exact RawPayload.captured_compact hw

/-- If the frame nests at most 127 levels and is not too long, and the values in it come back from
their texts, then its text is read as itself, and the envelope is taken out of it with compact
payloads. -/
def Survives (config : Config) (r : Request) : Prop :=
  (Frame.form (.request r)).depth ≤ Origin.maxDepth →
  (Wire.encode (Frame.request r)).toUTF8.size ≤ config.maxMessageSize.toNat →
  (∀ v ∈ r.params.toList ++ k.values e, v.Recovered) →
    (Wire.decodeFrame config (Wire.encode (Frame.request r)).toUTF8).result = .ok (.request r) ∧
      (fromRequest r : Traced DecodeError k.Carrier).result = .ok (k.compact e)

theorem survives {config : Config} {r : Request} {v : Json} (hvalid : Valid e)
    (hpayloads : ∀ p ∈ k.payloads e, p.Captured)
    (hmethod : r.method = method k.Carrier) (hparams : r.params = some v)
    (hv : ((params : Codec k.Carrier).encode e).toJson = .ok v) : k.Survives e config r := by
  intro hdepth hsize hrecovered
  have hvalues : ∀ v ∈ k.values e, v.Recovered := fun w hw =>
    hrecovered w (List.mem_append_right _ hw)
  have hobject := k.toJson_eq_object e hv
  have hround := k.roundTrips e hvalid hvalues hpayloads
  have hcompact : (params : Codec k.Carrier).RoundTrips (k.compact e) :=
    k.roundTrips _ ((k.valid_compact e).mpr hvalid) (k.values_compact e ▸ hvalues)
      (k.captured_compact e hv)
  have hrequest : Request.codec.RoundTrips r := by
    refine Request.roundTrips ?_
    intro w hw
    have hmem : w ∈ r.params.toList := Option.mem_toList.mpr hw
    rw [hparams] at hw
    cases hw
    exact ⟨hrecovered _ (List.mem_append_left _ hmem), hobject⟩
  have hmember : ("params", Form.ofJson v) ∈ Request.record.fields.encode
      (Request.record.toRow r) := by
    obtain ⟨version, name, params, id⟩ := r
    cases hparams
    exact List.mem_cons_of_mem _ (List.mem_cons_of_mem _ List.mem_cons_self)
  have hinner : (Form.ofJson v).depth ≤ Origin.maxDepth :=
    Form.depthMembers_le_iff.mp (Nat.le_of_succ_le hdepth) _ hmember
  exact ⟨Wire.decodeFrame_request hrequest hdepth hsize,
    fromRequest_eq_ok hmethod hparams hobject (k.alike_compact e hround.writable hv) hcompact
      ((k.valid_compact e).mpr hvalid) hinner⟩

/-- Requests and notifications of a valid envelope come back from their texts, and the envelope out
of them with compact payloads. Only an opening with a payload that cannot be read has none. -/
theorem frame_round_trip (config : Config) (hvalid : Valid e)
    (hpayloads : ∀ p ∈ k.payloads e, p.Captured) :
    (∀ id r, toRequest e id = .ok r → r.id = some id ∧ k.Survives e config r) ∧
    (∀ r, toNotification e = .ok r → r.id = none ∧ k.Survives e config r) ∧
    ∀ err, ((∃ id, toRequest e id = .error err) ∨ toNotification e = .error err) →
      k = .opening ∧ ∃ p ∈ k.payloads e, ∃ err, Json.parse p.text = .error err := by
  refine ⟨fun id r h => ?_, fun r h => ?_, fun err h => ?_⟩
  · obtain ⟨v, hv, rfl⟩ := toRequest_eq_ok_iff.mp h
    exact ⟨rfl, k.survives e hvalid hpayloads rfl rfl hv⟩
  · obtain ⟨v, hv, rfl⟩ := toNotification_eq_ok_iff.mp h
    exact ⟨rfl, k.survives e hvalid hpayloads rfl rfl hv⟩
  · have herror : ∃ err, ((params : Codec k.Carrier).encode e).toJson = .error err := by
      cases hv : ((params : Codec k.Carrier).encode e).toJson with
      | error err => exact ⟨err, rfl⟩
      | ok v =>
        rcases h with ⟨id, h⟩ | h
        · rw [toRequest_eq_ok_iff.mpr ⟨v, hv, rfl⟩] at h
          cases h
        · rw [toNotification_eq_ok_iff.mpr ⟨v, hv, rfl⟩] at h
          cases h
    obtain ⟨err, hv⟩ := herror
    obtain ⟨hk, p, hp, hparse⟩ := k.toJson_eq_error e hv
    exact ⟨hk, p, hp, err, hparse⟩

/-- A payload loses its blank on the way through a frame. -/
theorem frame_round_trip_opening : ∃ r,
    toRequest (⟨"1", ⟨.ofList [("batch", ⟨"[1 ]"⟩)], none, none⟩, ⟨"a", "1"⟩⟩ : InitializeRequest)
      (.string "7") = .ok r ∧
    (Wire.decodeFrame .default (Wire.encode (Frame.request r)).toUTF8).result =
      .ok (.request r) ∧
    (fromRequest r : Traced DecodeError InitializeRequest).result =
      .ok ⟨"1", ⟨.ofList [("batch", ⟨"[1]"⟩)], none, none⟩, ⟨"a", "1"⟩⟩ := by
  have hjson : (InitializeRequest.record.codec.encode
      ⟨"1", ⟨.ofList [("batch", ⟨"[1 ]"⟩)], none, none⟩, ⟨"a", "1"⟩⟩).toJson =
      .ok (.object [("capabilities", .object [("experimental", .object
          [("batch", .array [.number (.integer 1 (by decide))])])]),
        ("clientInfo", .object [("name", .string "a"), ("version", .string "1")]),
        ("protocolVersion", .string "1")]) := by
    rfl
  have hrequest : toRequest (⟨"1", ⟨.ofList [("batch", ⟨"[1 ]"⟩)], none, none⟩,
      ⟨"a", "1"⟩⟩ : InitializeRequest) (.string "7") = .ok (.new "initialize" _ (.string "7")) :=
    toRequest_eq_ok_iff.mpr ⟨_, hjson, rfl⟩
  have hframe := frame_round_trip .opening
    ⟨"1", ⟨.ofList [("batch", ⟨"[1 ]"⟩)], none, none⟩, ⟨"a", "1"⟩⟩ .default rfl fun p hp => by
      obtain rfl : p = ⟨"[1 ]"⟩ := List.mem_singleton.mp hp
      rfl
  refine ⟨_, hrequest, (hframe.1 (.string "7") _ hrequest).2 (by decide) (by decide +kernel) ?_⟩
  intro w hw
  obtain rfl := List.mem_singleton.mp hw
  refine Json.parse_text (Form.canonical_toJson _ _ hjson) ?_ (by decide)
  simp [Form.ofJson, Form.ofMembers, Form.ofItems, Form.ofNumber, Form.Plain,
    Form.PlainMembers, Form.PlainItems, Doc.embeddedName]

end EnvelopeKind

end ContextProtocol
