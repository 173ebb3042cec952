import ContextProtocol.Proofs.Message.Params
import ContextProtocol.Proofs.Message.Stages

/-!
# Envelopes that read what they write

An envelope is read in two stages: the params are copied out as text and read again once the method
is known to be right. So it does not matter how deep an envelope nests, only how deep its params do.

Results:
* `EnvelopeMembers.decode_ofForm`: the first stage copies the text of the params.
* `Envelope.decode_encode_of`: an envelope whose params make the round trip comes back.
* `EnvelopeKind.encode_contents`: the contents of a valid envelope are written as it holds them.
* `EnvelopeKind.decode_encode_envelope`: every valid envelope is written and comes back.
-/
namespace ContextProtocol

namespace EnvelopeMembers

/-- The method of an envelope and the text of its params, unless these are `null`. -/
theorem decode_ofForm {f : Form} {name : String} {origin inner : Origin} (hf : f.Writable)
    (hnull : Doc.ofForm f ≠ .null) (hcut : ∀ fault, Doc.ofForm f ≠ .cut .null fault)
    (henter : origin.enter = .ok inner) :
    (record.codec.decode origin
      (Sourced.ofForm (.object [("method", .string name), ("params", f)]))).result =
      .ok ⟨name, some f.text⟩ := by
  have hparams : ((Field.optional "params" rawCodec).codec.decode inner
      (Sourced.ofForm f)).result = .ok (some f.text) :=
    Decoder.option_eq_some hnull hcut (Decoder.raw_ofForm hf inner)
  refine Record.decode_of_takes henter (by decide) (show ["method", "params"].Nodup by decide) ?_ ?_
  · intro m hm
    refine .inl ?_
    rcases List.mem_cons.mp hm with rfl | hm
    · exact rfl
    · rcases List.mem_cons.mp hm with rfl | hm
      · exact hparams
      · cases hm
  · exact ⟨.inl List.mem_cons_self, .inl (List.mem_cons_of_mem _ List.mem_cons_self), trivial⟩

end EnvelopeMembers

namespace Envelope

variable {E Step : Type} [Envelope E Step] {e : E}

/-- An envelope whose params make the round trip comes back from its text. -/
theorem decode_encode_of (hround : (params : Codec E).RoundTrips e) (hvalid : Valid e)
    (hpresent : (params : Codec E).Present e)
    (hdepth : ((params : Codec E).encode e).depth ≤ Origin.maxDepth) :
    (decode (encode e).toUTF8 : Traced DecodeError E).result = .ok e := by
  have hform : (form e).Writable := ⟨trivial, hround.writable, trivial⟩
  have hmembers : (EnvelopeMembers.record.codec.decode.run (encode e).toUTF8).result =
      .ok ⟨method E, some ((params : Codec E).encode e).text⟩ := by
    refine Decoder.runDocument_eq_ok_iff.mpr ?_
    rw [encode, Document.ofBytes_text hform]
    exact ⟨EnvelopeMembers.decode_ofForm hround.writable (hpresent .written).1
      (hpresent .written).2 rfl, rfl⟩
  unfold decode
  rw [Traced.result_bind, Traced.result_mapError]
  refine (congrArg (fun r => r.mapError DecodeError.json >>= _) hmembers).trans ?_
  exact ofMembers_eq_ok_iff.mpr ⟨rfl, hround.runString hdepth, hvalid⟩

end Envelope

namespace EnvelopeKind

open Envelope

/-- The params of an envelope are an object. -/
theorem present (k : EnvelopeKind) (e : k.Carrier) :
    (params : Codec k.Carrier).Present e := by
  cases k <;> exact Codec.present_of_object rfl

/-- The contents of a valid envelope are written on their own as the envelope holds them. -/
theorem encode_contents (k : EnvelopeKind) (e : k.Carrier) (hvalid : Valid e) :
    ∀ c ∈ k.contents e, c.encode = .ok c.form.text := by
  intro c hc
  cases k with
  | sampling =>
    obtain ⟨t, ht, rfl⟩ := List.mem_map.mp hc
    have hmessages := (Turn.checkAll_eq_ok_iff.mp (CreateMessageRequest.valid_iff.mp hvalid).1).2
    exact Content.encode_of_valid (hmessages t ht)
  | _ => exact absurd hc List.not_mem_nil

/-- Every valid envelope can be written and comes back from its text, with the texts of its
experimental payloads as they were. Its contents are written on their own with the text that the
envelope holds for them. Values of unknown shape have to come back from their own texts;
`Json.parse_text` is about those that do. -/
theorem decode_encode_envelope (k : EnvelopeKind) (e : k.Carrier) (hvalid : Valid e)
    (hdepth : ((params : Codec k.Carrier).encode e).depth ≤ Origin.maxDepth)
    (hvalues : ∀ v ∈ k.values e, v.Recovered) (hpayloads : ∀ p ∈ k.payloads e, p.Captured) :
    (∀ c ∈ k.contents e, c.encode = .ok c.form.text) ∧
      (decode (encode e).toUTF8 : Traced DecodeError k.Carrier).result = .ok e :=
  ⟨k.encode_contents e hvalid,
    decode_encode_of (k.roundTrips e hvalid hvalues hpayloads) hvalid (k.present e) hdepth⟩

theorem decode_encode_opening :
    let opening : Carrier .opening :=
      ⟨"2024-11-05", ⟨.ofList [("batch", ⟨"[1 ]"⟩)], none, none⟩, ⟨"client", "1"⟩⟩
    (decode (encode opening).toUTF8 : Traced DecodeError InitializeRequest).result =
      .ok opening := by
  have hpayloads : ∀ p ∈ [RawPayload.mk "[1 ]"], p.Captured := by
    intro p hp
    obtain rfl : p = ⟨"[1 ]"⟩ := List.mem_singleton.mp hp
    rfl
  exact (decode_encode_envelope .opening
    ⟨"2024-11-05", ⟨.ofList [("batch", ⟨"[1 ]"⟩)], none, none⟩, ⟨"client", "1"⟩⟩ rfl (by decide)
    (fun v hv => absurd hv List.not_mem_nil) hpayloads).2

end EnvelopeKind

end ContextProtocol
