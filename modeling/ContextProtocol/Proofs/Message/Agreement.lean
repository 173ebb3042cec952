import ContextProtocol.Proofs.Message.Envelope
import ContextProtocol.Proofs.Message.Payloads
import ContextProtocol.Proofs.Shape.Agree

/-!
# Envelopes from texts and from values

An envelope can be read from a text or from the value that the text writes. From a text, the params
are copied out as they stand and read again; from a value, their compact text is. Both find the same
envelope, except that its experimental payloads have the texts they were given in.

Results:
* `Decoder.Agrees.params`: the params of each type agree.
* `EnvelopeMembers.params_of_decode`: the params that are copied out write a value of their own.
* `EnvelopeKind.fromValue_iff_decode`: what is read from a value is what is read from its text, with
  compact payloads.
* `EnvelopeKind.decode_iff_fromValue`: so both ways accept the same envelopes.
-/
namespace ContextProtocol

variable {source : List Symbol}

namespace Decoder.Agrees

/-! ## Parts of params -/

theorem content : Content.codec.decode.Agrees source id := json.refine _

theorem turn (name : String) : (Turn.codec name).decode.Agrees source id :=
  Record.agrees_same rfl (show ["role", "content"].Nodup by decide) ⟨word _, content, trivial⟩

theorem marker (name : String) : (Marker.codec name).decode.Agrees source id :=
  Record.agrees_same rfl List.nodup_nil trivial

theorem listCapability (name : String) : (ListCapability.codec name).decode.Agrees source id :=
  Record.agrees_same rfl (show ["listChanged"].Nodup by decide) ⟨option_same bool, trivial⟩

theorem implementation : Implementation.record.codec.decode.Agrees source id :=
  Record.agrees_same rfl (by decide) ⟨string, string, trivial⟩

theorem reference : Reference.record.codec.decode.Agrees source id :=
  Record.agrees_same rfl (by decide) ⟨word _, option_same string, option_same string, trivial⟩

theorem argument : CompletionArgument.record.codec.decode.Agrees source id :=
  Record.agrees_same rfl (by decide) ⟨string, string, trivial⟩

theorem requestMeta : RequestMeta.record.codec.decode.Agrees source id :=
  Record.agrees_same rfl (by decide) ⟨option_same (identifier _), trivial⟩

theorem modelPreferences : ModelPreferences.record.codec.decode.Agrees source id := by
  have hint : ModelHint.record.codec.decode.Agrees source id :=
    Record.agrees_same rfl (by decide) ⟨option_same string, trivial⟩
  exact Record.agrees_same rfl (by decide)
    ⟨list_same hint, option_same float, option_same float, option_same float, trivial⟩

theorem payload : RawPayload.codec.decode.Agrees source RawPayload.compact :=
  raw.map_of fun t => by
    rw [RawPayload.compact, Json.compactText]
    cases Json.parse t <;> rfl

theorem clientCapabilities :
    ClientCapabilities.record.codec.decode.Agrees source ClientCapabilities.compact := by
  refine Record.agrees (Table.mapValues RawPayload.compact, id, id, ()) rfl (by decide)
    ⟨payload.dict, ?_, option_same (listCapability _), fun _ _ => rfl, option_same (marker _),
      fun _ _ => rfl, trivial⟩ fun row => rfl
  intro value hvalue
  cases hvalue
  rfl

/-! ## Params -/

theorem opening : InitializeRequest.record.codec.decode.Agrees source InitializeRequest.compact :=
  Record.agrees (id, ClientCapabilities.compact, id, ()) rfl (by decide)
    ⟨string, fun _ _ => rfl, clientCapabilities, nofun, implementation, fun _ _ => rfl, trivial⟩
    fun row => rfl

theorem sampling : CreateMessageRequest.record.codec.decode.Agrees source id :=
  Record.agrees_same rfl (by decide)
    ⟨list_same (turn _), option_same modelPreferences, option_same string, option_same (word _),
      option_same float, uint32, list_same string, option_same (dict_same json), trivial⟩

/-- The params of an opening get compact payloads in memory, and all others stay the same. -/
theorem params (k : EnvelopeKind) :
    (Envelope.params : Codec k.Carrier).decode.Agrees source k.compact := by
  cases k with
  | opening => exact opening
  | confirmation => exact Record.agrees_same rfl (by decide) ⟨dict_same json, trivial⟩
  | completion => exact Record.agrees_same rfl (by decide) ⟨reference, argument, trivial⟩
  | progress =>
    exact Record.agrees_same rfl (by decide)
      ⟨identifier _, float, option_same float, option_same string, trivial⟩
  | logLevel => exact Record.agrees_same rfl (by decide) ⟨word _, trivial⟩
  | logMessage =>
    exact Record.agrees_same rfl (by decide) ⟨word _, option_same string, json, trivial⟩
  | prompt => exact Record.agrees_same rfl (by decide) ⟨string, dict_same string, trivial⟩
  | resource => exact Record.agrees_same rfl (by decide) ⟨string, trivial⟩
  | sampling => exact sampling
  | toolCall =>
    exact Record.agrees_same rfl (by decide)
      ⟨string, option_same (dict_same json), option_same requestMeta, trivial⟩

end Decoder.Agrees

/-! ## Whole texts -/

namespace Decoder.Agrees

variable {α : Type} {d : Decoder α} {k : α → α} {v : Json}

theorem found_runDocument {document : Document} (h : document.trailing = none) :
    (d.runDocument document).found = (d (.text Origin.maxDepth) document.root).found := by
  rw [runDocument, Traced.found_bind]
  simp only [Traced.found_bind, h]
  cases (d (.text Origin.maxDepth) document.root).found <;> rfl

/-- What is found in a text and in the compact text of its value. -/
theorem runString {t : String} (h : d.Agrees (Symbol.ofString t) k)
    (ht : Document.Writes (Symbol.ofString t) v) :
    (d.runString v.text).found = (d.runString t).found.map k := by
  have hcompact : Document.ofString v.text = ⟨Doc.sourced v, none⟩ := by
    rw [Doc.sourced_eq]
    exact Document.ofString_text (Form.writable_ofJson v)
  have hfound : (d.runString t).found =
      (d (.text Origin.maxDepth) (Document.ofString t).root).found := found_runDocument ht.trailing
  have hfound' : (d.runString v.text).found = (d (.text Origin.maxDepth) (Doc.sourced v)).found := by
    rw [Decoder.runString, hcompact]
    exact found_runDocument rfl
  rw [hfound, hfound']
  exact h ht.root

/-- What is found in a text and in its value. -/
theorem runValue {bytes : ByteArray} (h : d.Agrees (Symbol.ofBytes bytes) k)
    (ht : Document.Writes (Symbol.ofBytes bytes) v) :
    (d.runValue v).found = (d.run bytes).found.map k := by
  have hroot : (Document.ofBytes bytes).root.Matches (Symbol.ofBytes bytes)
      (.text Origin.maxDepth) .value v := { ht.root with room' := trivial }
  have hfound : (d.run bytes).found = (d (.text Origin.maxDepth) (Document.ofBytes bytes).root).found :=
    found_runDocument ht.trailing
  rw [hfound]
  exact h hroot

end Decoder.Agrees

/-! ## Members of matching documents -/

namespace Sourced.Matches

variable {origin origin' : Origin} {d : Sourced Doc} {v : Json}

/-- What a matching document holds matches a value, too. -/
theorem holds (h : d.Matches source origin origin' v) {name : String} {d' : Sourced Doc}
    (hd : d.value.Holds name d') : ∃ inner inner' w, d'.Matches source inner inner' w := by
  have hmem : ∀ {α β : Type} {R : α → β → Prop} {xs : List α} {ys : List β},
      List.Forall₂ R xs ys → ∀ x ∈ xs, ∃ y, R x y := by
    intro α β R xs ys hall
    induction hall with
    | nil => exact List.forall_mem_nil _
    | cons hxy _ ih => exact List.forall_mem_cons.mpr ⟨⟨_, hxy⟩, ih⟩
  obtain ⟨doc, text⟩ := d
  cases doc with
  | array items stop =>
    obtain ⟨-, vs, inner, inner', -, -, -, hitems⟩ := h.items
    obtain ⟨w, hw⟩ := hmem hitems d' hd
    exact ⟨inner, inner', w, hw⟩
  | object members stop =>
    obtain ⟨-, es, inner, inner', -, -, -, -, hmembers⟩ := h.members
    obtain ⟨token, hd, -⟩ := hd
    obtain ⟨e, -, hw⟩ := hmem hmembers _ hd
    exact ⟨inner, inner', e.2, hw⟩
  | _ => cases hd

end Sourced.Matches

/-! ## Experimental payloads -/

/-- The payload is a part of the source, and a text of a value. -/
def RawPayload.Quoted (source : List Symbol) (p : RawPayload) : Prop :=
  Symbol.ofString p.text <:+: source ∧ ∃ w, Json.parse p.text = .ok w ∧ p.compact = .ofJson w

section Quoted

variable {origin origin' : Origin} {d : Sourced Doc} {v : Json}

theorem RawPayload.quoted_of_decode {p : RawPayload} (hmatch : d.Matches source origin origin' v)
    {at' : Origin} (h : (codec.decode at' d).result = .ok p) : p.Quoted source := by
  obtain ⟨t, ht, rfl⟩ := Traced.map_eq_ok_iff.mp h
  obtain ⟨t', htext, hwithin, hwrites⟩ := hmatch.reread
  have hraw : (Decoder.raw at' d).result = .ok t := ht
  obtain rfl : t' = t := Option.some.inj (htext.symm.trans (Decoder.raw_eq_ok hraw).2)
  refine ⟨hwithin, v, hwrites.parse, ?_⟩
  rw [compact, hwrites.parse]

theorem ClientCapabilities.quoted_of_decode {c : ClientCapabilities}
    (hmatch : d.Matches source origin origin' v) {at' : Origin}
    (h : (record.codec.decode at' d).result = .ok c) :
    ∀ e ∈ c.experimental.entries, e.2.Quoted source := by
  obtain ⟨inner, row, -, rfl, hfrom⟩ := Record.from_of_decode h
  obtain ⟨experimental, roots, sampling, _⟩ := row
  obtain ⟨⟨d', hd', hread⟩ | habsent, -⟩ := hfrom
  · intro e he
    obtain ⟨at'', d'', hd'', hpayload⟩ := Decoder.holds_of_dict hread he
    obtain ⟨_, _, _, hmatch'⟩ := hmatch.holds hd'
    obtain ⟨_, _, _, hmatch''⟩ := hmatch'.holds hd''
    exact RawPayload.quoted_of_decode hmatch'' hpayload
  · cases habsent
    exact List.forall_mem_nil _

theorem InitializeRequest.quoted_of_decode {r : InitializeRequest}
    (hmatch : d.Matches source origin origin' v) {at' : Origin}
    (h : (record.codec.decode at' d).result = .ok r) :
    ∀ e ∈ r.capabilities.experimental.entries, e.2.Quoted source := by
  obtain ⟨inner, row, -, rfl, hfrom⟩ := Record.from_of_decode h
  obtain ⟨version, capabilities, info, _⟩ := row
  obtain ⟨-, ⟨d', hd', hread⟩ | habsent, -⟩ := hfrom
  · obtain ⟨_, _, _, hmatch'⟩ := hmatch.holds hd'
    exact ClientCapabilities.quoted_of_decode hmatch' hread
  · cases habsent

end Quoted

/-! ## Envelopes -/

namespace EnvelopeMembers

/-- The members with the compact text of the params. -/
def compact (m : EnvelopeMembers) : EnvelopeMembers := ⟨m.method, m.params.map Json.compactText⟩

theorem agrees : record.decode.Agrees source compact :=
  Record.agrees (id, Option.map Json.compactText, ()) rfl (by decide)
    ⟨.string, fun _ _ => rfl, Decoder.Agrees.raw.option, fun value hvalue => by cases hvalue; rfl,
      trivial⟩ fun row => rfl

/-- The params that are copied out are a text of a value, if there are any. -/
theorem params_of_decode {origin origin' at' : Origin} {d : Sourced Doc} {v : Json}
    (hmatch : d.Matches source origin origin' v) {m : EnvelopeMembers}
    (h : (record.decode at' d).result = .ok m) {t : String} (ht : m.params = some t) :
    Symbol.ofString t <:+: source ∧ ∃ w, Document.Writes (Symbol.ofString t) w := by
  obtain ⟨inner, row, -, rfl, hfrom⟩ := Record.from_of_decode h
  obtain ⟨method, params, _⟩ := row
  obtain rfl : params = some t := ht
  obtain ⟨-, ⟨d', hd', hread⟩ | habsent, -⟩ := hfrom
  · obtain ⟨_, _, w, hmatch'⟩ := hmatch.holds hd'
    obtain ⟨t', htext, hwithin, hwrites⟩ := hmatch'.reread
    have hraw : (Decoder.raw inner d').result = .ok t := Decoder.result_of_option hread
    obtain rfl : t' = t := Option.some.inj (htext.symm.trans (Decoder.raw_eq_ok hraw).2)
    exact ⟨hwithin, w, hwrites⟩
  · cases habsent

end EnvelopeMembers

namespace Envelope

variable {E Step : Type} [Envelope E Step]

/-- Absent params are read from the text of an object without members. -/
theorem writes_empty : Document.Writes (Symbol.ofString "\x7b\x7d") (.object []) := by
  have hdoc : Document.ofString "\x7b\x7d" = ⟨Sourced.ofForm (.object []), none⟩ :=
    Document.ofString_text (f := .object []) trivial
  have hcited := Document.cited (Symbol.ofString "\x7b\x7d")
  have hrecovered : (Json.object []).Recovered := by decide +kernel
  refine ⟨⟨?_, hcited.1, hcited.2, hrecovered, ?_, hrecovered.depth⟩, ?_⟩
  · show (Document.ofString "\x7b\x7d").root.value.Denotes _
    rw [hdoc]
    exact ⟨rfl, [], rfl, rfl, List.nodup_nil, fun e he => by cases he⟩
  · show (Document.ofString "\x7b\x7d").root.value.depth ≤ _
    rw [hdoc]
    decide
  · show (Document.ofString "\x7b\x7d").trailing = none
    rw [hdoc]

/-- The params of the same envelope in compact text. -/
theorem ofMembers_compact {k : E → E} (hparams : ∀ source, (params : Codec E).decode.Agrees source k)
    (hvalid : ∀ e, Valid (k e) ↔ Valid e) {m : EnvelopeMembers}
    (htext : ∀ t, m.params = some t → ∃ w, Document.Writes (Symbol.ofString t) w) {e : E} :
    (ofMembers m.compact : Traced DecodeError E).result = .ok e ↔
      ∃ e₀, (ofMembers m : Traced DecodeError E).result = .ok e₀ ∧ k e₀ = e := by
  have hread : ((params : Codec E).decode.runString (m.compact.params.getD "\x7b\x7d")).found =
      ((params : Codec E).decode.runString (m.params.getD "\x7b\x7d")).found.map k := by
    obtain ⟨method, none | t⟩ := m
    · -- absent params have no text to be made compact, but the one they are read from is
      have htext : (Json.object []).text = "\x7b\x7d" := by decide
      have hfound := (hparams _).runString writes_empty
      rw [htext] at hfound
      exact hfound
    · obtain ⟨w, hwrites⟩ := htext t rfl
      have hcompact : Json.compactText t = w.text := by rw [Json.compactText, hwrites.parse]
      have hfound := (hparams _).runString hwrites
      rw [← hcompact] at hfound
      exact hfound
  simp only [ofMembers_eq_ok_iff]
  constructor
  · rintro ⟨hmethod, hfound, hrules⟩
    rw [← Traced.found_eq_some_iff, hread, Option.map_eq_some_iff] at hfound
    obtain ⟨e₀, hfound, rfl⟩ := hfound
    exact ⟨e₀, ⟨hmethod, Traced.found_eq_some_iff.mp hfound, (hvalid e₀).mp hrules⟩, rfl⟩
  · rintro ⟨e₀, ⟨hmethod, hfound, hrules⟩, rfl⟩
    refine ⟨hmethod, Traced.found_eq_some_iff.mp ?_, (hvalid e₀).mpr hrules⟩
    rw [hread, Traced.found_eq_some_iff.mpr hfound]
    rfl

end Envelope

namespace EnvelopeKind

open Envelope

variable {k : EnvelopeKind} {bytes : ByteArray} {v : Json}

/-- What is read from a value is what is read from a text of the value, with compact payloads. -/
theorem fromValue_iff_decode (hwrites : Document.Writes (Symbol.ofBytes bytes) v) {e : k.Carrier} :
    (fromValue v : Traced DecodeError k.Carrier).result = .ok e ↔
      ∃ e₀, (decode bytes : Traced DecodeError k.Carrier).result = .ok e₀ ∧ k.compact e₀ = e := by
  have hmembers := EnvelopeMembers.agrees.runValue hwrites
  have hcompact : ∀ {m}, (EnvelopeMembers.record.decode.run bytes).result = .ok m →
      ((ofMembers m.compact : Traced DecodeError k.Carrier).result = .ok e ↔
        ∃ e₀, (ofMembers m : Traced DecodeError k.Carrier).result = .ok e₀ ∧ k.compact e₀ = e) :=
    fun hm => ofMembers_compact (fun _ => Decoder.Agrees.params k) k.valid_compact
      fun t ht => (EnvelopeMembers.params_of_decode hwrites.root
        (Decoder.runDocument_eq_ok_iff.mp hm).1 ht).2
  simp only [Envelope.fromValue_eq_ok_iff, Envelope.decode_eq_ok_iff]
  constructor
  · rintro ⟨m', hm', h⟩
    rw [← Traced.found_eq_some_iff, hmembers, Option.map_eq_some_iff] at hm'
    obtain ⟨m, hm, rfl⟩ := hm'
    rw [Traced.found_eq_some_iff] at hm
    obtain ⟨e₀, he₀, rfl⟩ := (hcompact hm).mp h
    exact ⟨e₀, ⟨m, hm, he₀⟩, rfl⟩
  · rintro ⟨e₀, ⟨m, hm, he₀⟩, rfl⟩
    refine ⟨m.compact, Traced.found_eq_some_iff.mp ?_, (hcompact hm).mpr ⟨e₀, he₀, rfl⟩⟩
    rw [hmembers, Traced.found_eq_some_iff.mpr hm]
    rfl

/-- The experimental payloads of an envelope that was read from a text are parts of it. -/
theorem quoted_of_decode (hwrites : Document.Writes (Symbol.ofBytes bytes) v) {e : k.Carrier}
    (h : (decode bytes : Traced DecodeError k.Carrier).result = .ok e) :
    ∀ p ∈ k.payloads e, p.Quoted (Symbol.ofBytes bytes) := by
  cases k with
  | opening =>
    obtain ⟨m, hm, h⟩ := Envelope.decode_eq_ok_iff.mp h
    obtain ⟨-, hread, -⟩ := ofMembers_eq_ok_iff.mp h
    intro p hp
    obtain ⟨entry, hentry, rfl⟩ := List.mem_map.mp hp
    cases hparams : m.params with
    | none =>
      have hempty : (InitializeRequest.record.codec.decode.runString "\x7b\x7d").result =
          .error (.missingField "protocolVersion") := by cbv
      rw [hparams] at hread
      cases hempty.symm.trans hread
    | some t =>
      obtain ⟨hwithin, w, ht⟩ := EnvelopeMembers.params_of_decode hwrites.root
        (Decoder.runDocument_eq_ok_iff.mp hm).1 hparams
      rw [hparams] at hread
      obtain ⟨hpart, hvalue⟩ := InitializeRequest.quoted_of_decode ht.root
        (Decoder.runDocument_eq_ok_iff.mp hread).1 entry hentry
      exact ⟨hpart.trans hwithin, hvalue⟩
  | _ => exact List.forall_mem_nil _

/-- An envelope is read from a text just when it is read from the value that the text writes, unless
the text repeats a name in an object or has an object begin with the reserved one. The experimental
payloads of an opening are parts of the text, and in memory have the compact texts of their values;
in all other envelopes there is no difference. -/
theorem decode_iff_fromValue (k : EnvelopeKind) (bytes : ByteArray) (v : Json)
    (hv : Json.parseBytes bytes = .ok v)
    (hdistinct : (Document.ofBytes bytes).root.value.Each Doc.NamesDistinct)
    (hitself : (Document.ofBytes bytes).root.value.Each Doc.StandsForItself)
    (hrecovered : v.Recovered) :
    (k ≠ .opening → ∀ e : k.Carrier, (decode bytes : Traced DecodeError k.Carrier).result = .ok e ↔
      (fromValue v : Traced DecodeError k.Carrier).result = .ok e) ∧
    (∀ e : k.Carrier, (fromValue v : Traced DecodeError k.Carrier).result = .ok e ↔
      ∃ e₀, (decode bytes : Traced DecodeError k.Carrier).result = .ok e₀ ∧ k.compact e₀ = e) ∧
    ∀ e : k.Carrier, (decode bytes : Traced DecodeError k.Carrier).result = .ok e →
      ∀ p ∈ k.payloads e, p.Quoted (Symbol.ofBytes bytes) := by
  have hwrites := Document.Writes.of_parseBytes hv hdistinct hitself hrecovered
  refine ⟨fun hk e => ?_, fun e => fromValue_iff_decode hwrites, fun e => quoted_of_decode hwrites⟩
  have hsame : ∀ e : k.Carrier, k.compact e = e := fun e => by
    cases k with
    | opening => exact absurd rfl hk
    | _ => rfl
  rw [fromValue_iff_decode hwrites]
  simp only [hsame, exists_eq_right]

/-- The payload of an opening keeps its blank in one of the ways. -/
theorem decode_iff_fromValue_opening :
    let bytes := ("\x7b\"params\":\x7b\"protocolVersion\":\"1\",\"capabilities\":" ++
      "\x7b\"experimental\":\x7b\"\\u0078\":[true ]\x7d\x7d,\"clientInfo\":" ++
      "\x7b\"version\":\"1\",\"name\":\"c\"\x7d\x7d,\"method\":\"initialize\"\x7d").toUTF8
    let v := Json.object [("method", .string "initialize"), ("params", .object
      [("capabilities", .object [("experimental", .object [("x", .array [.bool true])])]),
        ("clientInfo", .object [("name", .string "c"), ("version", .string "1")]),
        ("protocolVersion", .string "1")])]
    Json.parseBytes bytes = .ok v ∧ ∃ e : InitializeRequest,
      (decode bytes : Traced DecodeError InitializeRequest).result = .ok e ∧
      (fromValue v : Traced DecodeError InitializeRequest).result = .ok e.compact ∧
      payloads .opening e = [⟨"[true ]"⟩] ∧ payloads .opening e.compact = [⟨"[true]"⟩] := by
  intro bytes v
  have hv : Json.parseBytes bytes = .ok v :=
    (Json.parseBytes_eq_ok_iff (by decide +kernel)).mpr (by decide +kernel)
  have hpayload : (decode bytes : Traced DecodeError InitializeRequest).result.toOption.map
      (payloads .opening) = some [⟨"[true ]"⟩] := by decide +kernel
  obtain ⟨e, he, hpayload⟩ := Option.map_eq_some_iff.mp hpayload
  have hdecode := Outcome.toOption_eq_some_iff.mp he
  refine ⟨hv, e, hdecode, ?_, hpayload, ?_⟩
  · exact ((decode_iff_fromValue .opening bytes v hv (by decide +kernel) (by decide +kernel)
      (by decide +kernel)).2.1 _).mpr ⟨e, hdecode, rfl⟩
  · refine (payloads_compact .opening e).trans ?_
    rw [hpayload]
    decide +kernel

/-- A params object that begins with the reserved name stands for another value when it is read as
a value, but not when it is copied out: here the value has the name of a prompt, and the text none. -/
theorem decode_ne_fromValue_reserved :
    let bytes := ("\x7b\"method\":\"prompts/get\",\"params\":\x7b\"$serde_json::private::RawValue\":" ++
      "\"\x7b\\\"name\\\":\\\"x\\\"\x7d\"\x7d\x7d").toUTF8
    let v := Json.object
      [("method", .string "prompts/get"), ("params", .object [("name", .string "x")])]
    Json.parseBytes bytes = .ok v ∧
      (Document.ofBytes bytes).root.value.Each Doc.NamesDistinct ∧ v.Recovered ∧
      (∃ e, (fromValue v : Traced DecodeError GetPromptRequest).result = .ok e) ∧
      ∀ e, (decode bytes : Traced DecodeError GetPromptRequest).result ≠ .ok e := by
  intro bytes v
  refine ⟨?_, by decide +kernel, by decide +kernel, ?_, ?_⟩
  · exact (Json.parseBytes_eq_ok_iff (by decide +kernel)).mpr (by decide +kernel)
  · have hread : (fromValue v : Traced DecodeError GetPromptRequest).result.toOption.isSome = true := by
      decide +kernel
    obtain ⟨e, he⟩ := Option.isSome_iff_exists.mp hread
    exact ⟨e, Outcome.toOption_eq_some_iff.mp he⟩
  · intro e he
    have hread : (decode bytes : Traced DecodeError GetPromptRequest).result.toOption.isNone = true := by
      decide +kernel
    rw [he] at hread
    cases hread

end EnvelopeKind

end ContextProtocol
