import ContextProtocol.Proofs.Message.Params
import ContextProtocol.Proofs.Message.Stages
import ContextProtocol.Proofs.Shape.Members

/-!
# Which envelope a text is

An envelope goes by its method, and no two types of envelopes share one. The method is looked at
before anything in the params is, wherever the two stand in the text, so a text is an envelope of
one type at most, and a type refuses the envelopes of every other one for their method alone.

Results:
* `EnvelopeMembers.runDocument_eq_ok_iff`: which objects are read as an envelope, before its method
  is known.
* `Envelope.ofMembers_of_ne`, `Envelope.ofMembers_of_eq`: the second stage.
* `EnvelopeKind.method_injective`: the method tells the types apart.
* `EnvelopeKind.decode_by_method`: a text is an envelope of at most one type, and what each type
  makes of it.
-/
namespace ContextProtocol

namespace EnvelopeMembers

/-- What the params among the members are. Absent params and `null` are none; others are kept as
their text, whatever it says. -/
def ParamsAmong (members : List (Token String × Sourced Doc)) : Option String → Prop
  | none => Doc.under "params" members = [] ∨ ∃ text, Doc.under "params" members = [⟨.null, text⟩]
  | some t => ∃ d, Doc.under "params" members = [d] ∧ d.value ≠ .null ∧ d.value.skip = none ∧
      d.text.get = some t

/-- The members are a method and maybe params, in any order, each of them once, and others that are
passed over. -/
structure Among (members : List (Token String × Sourced Doc)) (e : EnvelopeMembers) : Prop where
  passable : Doc.Passable ["method", "params"] false members
  method : ∃ token text, Doc.under "method" members = [⟨.string token, text⟩] ∧
    token.reading = .ok e.method
  params : ParamsAmong members e.params

end EnvelopeMembers

/-- The document is one object with the members of an envelope. -/
def Document.IsEnvelope (document : Document) (e : EnvelopeMembers) : Prop :=
  document.trailing = none ∧ ∃ members, document.root.value = .object members none ∧
    e.Among members

namespace EnvelopeMembers

variable {origin : Origin} {members : List (Token String × Sourced Doc)}

theorem finds_method {method : String} :
    (Field.required "method" .string).Finds origin members method ↔
      ∃ token text, Doc.under "method" members = [⟨.string token, text⟩] ∧
        token.reading = .ok method := by
  constructor
  · rintro (⟨⟨doc, text⟩, hunder, h⟩ | ⟨-, h⟩)
    · cases doc with
      | string token =>
        have hread : token.read = .ok method := h
        exact ⟨token, text, hunder, Outcome.mapError_eq_ok_iff.mp hread⟩
      | _ => cases h
    · cases h
  · rintro ⟨token, text, hunder, hread⟩
    exact .inl ⟨_, hunder, Doc.read_of_reading hread⟩

theorem finds_params {params : Option String} :
    (Field.optional "params" rawCodec).Finds origin members params ↔
      ParamsAmong members params := by
  constructor
  · rintro (⟨⟨doc, text⟩, hunder, h⟩ | ⟨hunder, h⟩)
    · by_cases hnull : doc = .null
      · subst hnull
        cases h
        exact .inr ⟨text, hunder⟩
      · by_cases hcut : ∃ fault, doc = .cut .null fault
        · obtain ⟨fault, rfl⟩ := hcut
          cases h
        · have hread : (some <$> Decoder.raw origin ⟨doc, text⟩).result = .ok params := by
            rw [← Decoder.option_eq_map hnull fun fault heq => hcut ⟨fault, heq⟩]
            exact h
          obtain ⟨t, ht, rfl⟩ := Traced.map_eq_ok_iff.mp hread
          obtain ⟨hskip, htext⟩ := Decoder.raw_eq_ok ht
          exact ⟨_, hunder, hnull, hskip, htext⟩
    · cases h
      exact .inl hunder
  · cases params with
    | none =>
      rintro (hunder | ⟨text, hunder⟩)
      · exact .inr ⟨hunder, rfl⟩
      · exact .inl ⟨_, hunder, rfl⟩
    | some t =>
      rintro ⟨d, hunder, hnull, hskip, htext⟩
      have hraw : (Decoder.raw origin d).result = .ok t := Decoder.result_raw hskip htext
      refine .inl ⟨d, hunder, Decoder.option_eq_some hnull (fun fault heq => ?_) hraw⟩
      rw [heq] at hskip
      cases hskip

/-- An object is read as an envelope when it has the members of one. -/
theorem decode_object_eq_ok_iff {stop : Option Fault} {text : Thunk (Option String)}
    {e : EnvelopeMembers} :
    (record.decode (.text Origin.maxDepth) ⟨.object members stop, text⟩).result = .ok e ↔
      stop = none ∧ e.Among members := by
  have hnames : record.fields.names.Nodup := by decide
  rw [Record.decode_object_iff hnames]
  refine and_congr_right fun _ => ?_
  constructor
  · rintro ⟨hpass, inner, ⟨method, params, u⟩, henter, ⟨hmethod, hparams, -⟩, rfl⟩
    exact ⟨hpass, finds_method.mp hmethod, finds_params.mp hparams⟩
  · rintro ⟨hpass, hmethod, hparams⟩
    exact ⟨hpass, _, (e.method, e.params, ()), rfl,
      ⟨finds_method.mpr hmethod, finds_params.mpr hparams, trivial⟩, rfl⟩

/-- A text that is an object is read as an envelope when it is one. -/
theorem runDocument_eq_ok_iff {document : Document} {e : EnvelopeMembers} :
    (∃ members stop, document.root.value = .object members stop) ∧
        (record.decode.runDocument document).result = .ok e ↔ document.IsEnvelope e := by
  obtain ⟨⟨doc, text⟩, trailing⟩ := document
  rw [Decoder.runDocument_eq_ok_iff, Document.IsEnvelope]
  constructor
  · rintro ⟨⟨members, stop, rfl⟩, h, htrailing⟩
    obtain ⟨rfl, hamong⟩ := decode_object_eq_ok_iff.mp h
    exact ⟨htrailing, members, rfl, hamong⟩
  · rintro ⟨htrailing, members, rfl, hamong⟩
    exact ⟨⟨members, none, rfl⟩, decode_object_eq_ok_iff.mpr ⟨rfl, hamong⟩, htrailing⟩

end EnvelopeMembers

/-! ## The second stage -/

namespace Envelope

variable {E Step : Type} [Envelope E Step] {m : EnvelopeMembers} {bytes : ByteArray}

/-- What is read first is an envelope of some type. -/
theorem result_decode (h : (EnvelopeMembers.record.decode.run bytes).result = .ok m) :
    (decode bytes : Traced DecodeError E).result = (ofMembers m : Traced DecodeError E).result := by
  rw [decode, Traced.result_bind, Traced.result_mapError, h]
  rfl

theorem ofMembers_of_ne (h : m.method ≠ method E) : (ofMembers m : Traced DecodeError E).result =
    .error (.unexpectedMethod (method E) m.method) := by
  rw [ofMembers, if_pos h]
  rfl

/-- An envelope of the right method is only refused for its params, and under its method. -/
theorem ofMembers_of_eq (h : m.method = method E) :
    (∃ e, (ofMembers m : Traced DecodeError E).result = .ok e) ∨
      (∃ shape, (ofMembers m : Traced DecodeError E).result =
        .error (.malformedVariant m.method shape)) ∨
      ∃ rule, (ofMembers m : Traced DecodeError E).result =
        .error (.invalidVariant m.method rule) := by
  have hread : (ofMembers m : Traced DecodeError E).result =
      (((params : Codec E).decode.runString (m.params.getD "\x7b\x7d")).result.mapError
        (DecodeError.malformedVariant m.method)) >>= fun e =>
          (validate e).mapError (DecodeError.invalidVariant m.method) >>= fun _ => .ok e := by
    rw [ofMembers, if_neg (not_not.mpr h), h, Traced.result_bind, Traced.result_mapError]
    refine congrArg _ (funext fun e => ?_)
    rw [Traced.result_bind]
    rfl
  rw [hread]
  cases ((params : Codec E).decode.runString (m.params.getD "\x7b\x7d")).result with
  | error shape => exact .inr (.inl ⟨shape, rfl⟩)
  | ok e =>
    rw [Outcome.mapError_ok, Outcome.ok_bind]
    cases hrule : validate e with
    | error rule => exact .inr (.inr ⟨rule, by simp⟩)
    | ok u => exact .inl ⟨e, by simp⟩

end Envelope

/-! ## The types of envelopes -/

namespace EnvelopeKind

open Envelope

def all : List EnvelopeKind :=
  [.opening, .confirmation, .completion, .progress, .logLevel, .logMessage, .prompt, .resource,
    .sampling, .toolCall]

/-- The type of the envelopes with a method. -/
def ofMethod? (name : String) : Option EnvelopeKind :=
  all.find? fun k => method k.Carrier = name

theorem ofMethod?_method (k : EnvelopeKind) : ofMethod? (method k.Carrier) = some k := by
  cases k <;> rfl

/-- The method tells the types apart. -/
theorem method_injective {k k' : EnvelopeKind} (h : method k.Carrier = method k'.Carrier) :
    k = k' := by
  have hfound := ofMethod?_method k
  rw [h, ofMethod?_method] at hfound
  exact (Option.some.inj hfound).symm

/-- A text is an envelope of at most one type. -/
theorem eq_of_decode {bytes : ByteArray} {k k' : EnvelopeKind} {e : k.Carrier} {e' : k'.Carrier}
    (h : (decode bytes : Traced DecodeError k.Carrier).result = .ok e)
    (h' : (decode bytes : Traced DecodeError k'.Carrier).result = .ok e') : k = k' := by
  obtain ⟨m, hm, he⟩ := decode_eq_ok_iff.mp h
  obtain ⟨m', hm', he'⟩ := decode_eq_ok_iff.mp h'
  obtain rfl : m = m' := Except.ok.inj (hm.symm.trans hm')
  exact method_injective
    ((ofMembers_eq_ok_iff.mp he).1.symm.trans (ofMembers_eq_ok_iff.mp he').1)

/-- A text is an envelope of at most one type. A type refuses every envelope with another method for
the method alone, whatever its params are; one with its own method is refused at most for its params
or its rules, under the method, and absent or `null` params come to the same as `{}`. -/
theorem decode_by_method (bytes : ByteArray) :
    (∀ (k k' : EnvelopeKind) (e : k.Carrier) (e' : k'.Carrier),
      (decode bytes : Traced DecodeError k.Carrier).result = .ok e →
        (decode bytes : Traced DecodeError k'.Carrier).result = .ok e' → k = k') ∧
    ∀ name params, (Document.ofBytes bytes).IsEnvelope ⟨name, params⟩ → ∀ k : EnvelopeKind,
      (name ≠ method k.Carrier → (decode bytes : Traced DecodeError k.Carrier).result =
        .error (.unexpectedMethod (method k.Carrier) name)) ∧
      (name = method k.Carrier →
        ((∃ e, (decode bytes : Traced DecodeError k.Carrier).result = .ok e) ∨
          (∃ shape, (decode bytes : Traced DecodeError k.Carrier).result =
            .error (.malformedVariant name shape)) ∨
          ∃ rule, (decode bytes : Traced DecodeError k.Carrier).result =
            .error (.invalidVariant name rule)) ∧
        (params = none → ∀ bytes' : ByteArray,
          (Document.ofBytes bytes').IsEnvelope ⟨name, some "\x7b\x7d"⟩ →
            (decode bytes : Traced DecodeError k.Carrier).result =
              (decode bytes' : Traced DecodeError k.Carrier).result)) := by
  refine ⟨fun k k' e e' => eq_of_decode, fun name params henvelope k => ?_⟩
  have hread := (EnvelopeMembers.runDocument_eq_ok_iff.mpr henvelope).2
  rw [result_decode hread]
  refine ⟨fun hname => ofMembers_of_ne hname, fun hname => ⟨ofMembers_of_eq hname, ?_⟩⟩
  intro hparams bytes' henvelope'
  rw [result_decode (EnvelopeMembers.runDocument_eq_ok_iff.mpr henvelope').2, hparams]
  rfl

/-- What a text is found to be, if it is an object. -/
theorem isEnvelope_of_found {document : Document} {e : EnvelopeMembers}
    (hobject : (match document.root.value with | .object .. => true | _ => false) = true)
    (hfound : ((EnvelopeMembers.record.decode.runDocument document).found.map fun e =>
      (e.method, e.params)) = some (e.method, e.params)) : document.IsEnvelope e := by
  refine EnvelopeMembers.runDocument_eq_ok_iff.mp ⟨?_, ?_⟩
  · split at hobject
    · rename_i members stop heq
      exact ⟨members, stop, heq⟩
    · cases hobject
  · obtain ⟨e', he', heq⟩ := Option.map_eq_some_iff.mp hfound
    obtain rfl : e' = e := by
      cases e'
      cases e
      cases heq
      rfl
    exact Traced.found_eq_some_iff.mp he'

/-- Params that no value can hold come before a method that no type has, and are not looked at.
Params that are `null` come before a method, and `{}` after it. -/
theorem decode_by_method_early :
    let early : ByteArray := "\x7b\"params\":[1e999],\"x\":0,\"method\":\"ping\"\x7d".toUTF8
    let unset : ByteArray :=
      "\x7b\"params\":null,\"method\":\"notifications/initialized\"\x7d".toUTF8
    let empty : ByteArray :=
      "\x7b\"method\":\"notifications/initialized\",\"params\":\x7b\x7d\x7d".toUTF8
    (Document.ofBytes early).IsEnvelope ⟨"ping", some "[1e999]"⟩ ∧
      (Document.ofBytes unset).IsEnvelope ⟨"notifications/initialized", none⟩ ∧
      (Document.ofBytes empty).IsEnvelope ⟨"notifications/initialized", some "\x7b\x7d"⟩ ∧
      (decode early : Traced DecodeError (Carrier .toolCall)).result =
        .error (.unexpectedMethod "tools/call" "ping") ∧
      (decode unset : Traced DecodeError (Carrier .confirmation)).result =
        (decode empty : Traced DecodeError (Carrier .confirmation)).result ∧
      ∀ (k : EnvelopeKind) (e : k.Carrier),
        (decode empty : Traced DecodeError k.Carrier).result = .ok e → k = .confirmation := by
  intro early unset empty
  have hearly : (Document.ofBytes early).IsEnvelope ⟨"ping", some "[1e999]"⟩ :=
    isEnvelope_of_found (by decide +kernel) (by decide +kernel)
  have hunset : (Document.ofBytes unset).IsEnvelope ⟨"notifications/initialized", none⟩ :=
    isEnvelope_of_found (by decide +kernel) (by decide +kernel)
  have hempty : (Document.ofBytes empty).IsEnvelope
      ⟨"notifications/initialized", some "\x7b\x7d"⟩ :=
    isEnvelope_of_found (by decide +kernel) (by decide +kernel)
  have hread : (decode empty : Traced DecodeError (Carrier .confirmation)).found.isSome = true := by
    decide +kernel
  obtain ⟨e, he⟩ := Option.isSome_iff_exists.mp hread
  refine ⟨hearly, hunset, hempty, ?_, ?_, ?_⟩
  · exact ((decode_by_method early).2 _ _ hearly .toolCall).1 (by decide)
  · exact (((decode_by_method unset).2 _ _ hunset .confirmation).2 rfl).2 rfl empty hempty
  · exact fun k e' he' =>
      (decode_by_method empty).1 k .confirmation e' e he' (Traced.found_eq_some_iff.mp he)

end EnvelopeKind

end ContextProtocol
