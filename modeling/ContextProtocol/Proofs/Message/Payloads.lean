import ContextProtocol.Proofs.Json.Alike
import ContextProtocol.Proofs.Message.Params
import ContextProtocol.Proofs.Shape.Rawless

/-!
# Payloads in params

Of the ten envelopes only the opening of a connection copies payloads into its params, namely its
experimental capabilities. In memory nothing is left of their texts, so an opening that went through
memory has the compact texts of the values instead.

Results:
* `EnvelopeKind.raws_encode`: what params copy are the experimental payloads.
* `EnvelopeKind.alike_compact`: the params in memory read like the params of the envelope with
  compact payloads.
-/
namespace ContextProtocol

namespace Fields

variable {columns : List Type} {fields : Fields columns}

/-- Two rows are written with the same names, and with payloads replaced their values are written
alike. -/
def Maps (g : String → Form) : {columns : List Type} → Fields columns → Row columns →
    Row columns → Prop
  | _, .nil, _, _ => True
  | _, .cons field rest, (v, row), (w, row') =>
    field.omitted v = field.omitted w ∧
      (field.codec.encode v).mapRaw g = field.codec.encode w ∧ Maps g rest row row'

theorem Maps.encode {g : String → Form} {row row' : Row columns} (h : Maps g fields row row') :
    Form.mapRawMembers g (fields.encode row) = fields.encode row' := by
  induction fields with
  | nil => rfl
  | cons field rest ih =>
    obtain ⟨v, row⟩ := row
    obtain ⟨w, row'⟩ := row'
    obtain ⟨homit, hfield, hrest⟩ := h
    rw [Fields.encode, Fields.encode, homit]
    split
    · exact ih hrest
    · rw [Form.mapRawMembers, hfield, ih hrest]

end Fields

theorem Content.rawless : codec.Rawless := by
  intro c
  have hbody : c.body.Shallow 3 := by
    cases c with
    | text c => exact c.shallow
    | image c => exact c.shallow
    | resource c => exact c.shallow
  have hmembers : ∃ members, c.body = .object members := by
    cases c <;> exact ⟨_, rfl⟩
  obtain ⟨members, hobject⟩ := hmembers
  have hsorted := hbody.1.sorted.raws
  rw [hobject] at hsorted
  have hform : codec.encode c =
      .object ((typeField, .string c.type.tag) :: Entries.ofList (Form.sortedMembers members)) := by
    show taggedForm typeField c.type.tag c.body = _
    rw [taggedForm, hobject]
    rfl
  rw [hform]
  exact hsorted

/-! ## The payloads of an opening -/

/-- The payload with the compact text of its value. -/
def RawPayload.compact (p : RawPayload) : RawPayload :=
  match Json.parse p.text with
  | .ok v => .ofJson v
  | .error _ => p

/-- A payload that stands for itself, in compact text. -/
def Form.compactPayload (t : String) : Form := .raw (RawPayload.compact ⟨t⟩).text

theorem RawPayload.captured_iff {p : RawPayload} : p.Captured ↔ IsPayload p.text := by
  unfold Captured ofText
  rw [Outcome.mapError_eq_ok_iff, Outcome.map_eq_ok_iff]
  constructor
  · rintro ⟨t, ht, rfl⟩
    exact ht
  · exact fun h => ⟨p.text, h, rfl⟩

/-- The payload of a value is captured: it is the text of the value. -/
theorem RawPayload.captured_ofJson (v : Json) : (ofJson v).Captured :=
  captured_iff.mpr (Form.isPayload_text (Form.writable_ofJson v))

theorem RawPayload.captured_compact {p : RawPayload} {v : Json} (h : Json.parse p.text = .ok v) :
    p.compact.Captured := by
  rw [compact, h]
  exact captured_ofJson v

namespace ClientCapabilities

variable (c : ClientCapabilities)

/-- The capabilities with compact payloads. -/
def compact : ClientCapabilities :=
  { c with experimental := c.experimental.mapValues RawPayload.compact }

theorem roots_rawless : (ListCapability.codec "RootsCapability").Rawless :=
  Record.rawless ⟨.option .bool, trivial⟩

theorem sampling_rawless : (Marker.codec "SamplingCapability").Rawless := fun _ => rfl

theorem raws_encode :
    (record.codec.encode c).raws = c.experimental.entries.map fun e => e.2.text := by
  have hpayloads : ∀ entries : List (String × RawPayload), Form.rawsMembers
      (entries.map fun e => (e.1, RawPayload.codec.encode e.2)) = entries.map fun e => e.2.text := by
    intro entries
    induction entries with
    | nil => rfl
    | cons e rest ih => exact congrArg (e.2.text :: ·) ih
  have hrest : Fields.Rawless (.cons (.optional "roots" (ListCapability.codec "RootsCapability"))
      (.cons (.optional "sampling" (Marker.codec "SamplingCapability")) .nil)) :=
    ⟨.option roots_rawless, .option sampling_rawless, trivial⟩
  refine (Fields.raws_cons_rawless _ hrest _ _).trans ?_
  split
  · rename_i hempty
    rw [List.isEmpty_iff.mp hempty]
    rfl
  · exact hpayloads _

theorem encode_compact :
    (record.codec.encode c).mapRaw Form.compactPayload = record.codec.encode c.compact := by
  have hdict : ∀ entries : List (String × RawPayload), Form.mapRawMembers Form.compactPayload
      (entries.map fun e => (e.1, RawPayload.codec.encode e.2)) =
        (Entries.mapValues RawPayload.compact entries).map
          fun e => (e.1, RawPayload.codec.encode e.2) := by
    intro entries
    induction entries with
    | nil => rfl
    | cons e rest ih => exact congrArg ((e.1, RawPayload.codec.encode e.2.compact) :: ·) ih
  refine congrArg Form.object (Fields.Maps.encode ⟨?_, ?_, rfl, ?_, rfl, ?_, trivial⟩)
  · exact (List.isEmpty_map ..).symm
  · exact congrArg Form.object (hdict _)
  · exact Form.mapRaw_of_raws _ _ (Codec.Rawless.option roots_rawless _)
  · exact Form.mapRaw_of_raws _ _ (Codec.Rawless.option sampling_rawless _)

end ClientCapabilities

namespace InitializeRequest

variable (r : InitializeRequest)

/-- The opening with compact payloads. -/
def compact : InitializeRequest := { r with capabilities := r.capabilities.compact }

theorem implementation_rawless : Implementation.record.codec.Rawless :=
  Record.rawless ⟨.string, .string, trivial⟩

theorem raws_encode : (record.codec.encode r).raws =
    r.capabilities.experimental.entries.map fun e => e.2.text := by
  have hrest : Fields.Rawless
      (.cons (.required "clientInfo" (Message.codec : Codec Implementation)) .nil) :=
    ⟨implementation_rawless, trivial⟩
  refine (Fields.raws_cons _ _ _ _).trans ((Fields.raws_cons_rawless _ hrest _ _).trans ?_)
  exact r.capabilities.raws_encode

theorem encode_compact :
    (record.codec.encode r).mapRaw Form.compactPayload = record.codec.encode r.compact :=
  congrArg Form.object (Fields.Maps.encode ⟨rfl, rfl, rfl, r.capabilities.encode_compact, rfl,
    Form.mapRaw_of_raws _ _ (implementation_rawless _), trivial⟩)

theorem valid_compact : Valid r.compact ↔ Valid r := by
  have hkeys : ExperimentalCapabilities.check r.compact.capabilities.experimental =
      ExperimentalCapabilities.check r.capabilities.experimental := by
    have hnames : Table.keys r.compact.capabilities.experimental =
        Table.keys r.capabilities.experimental := List.map_map ..
    rw [ExperimentalCapabilities.check, ExperimentalCapabilities.check, hnames]
  have hvalidate : validate r.compact = (do
      checkNonEmpty "protocolVersion" r.protocolVersion
      (ExperimentalCapabilities.check r.compact.capabilities.experimental).mapError
        (·.within "capabilities")
      (validate r.clientInfo).mapError (·.within "clientInfo")) := rfl
  rw [Valid, Valid, hvalidate, hkeys]
  exact Iff.rfl

end InitializeRequest

/-! ## The other envelopes -/

theorem Turn.rawless (name : String) : (codec name).Rawless :=
  Record.rawless ⟨.word _, Content.rawless, trivial⟩

theorem ModelPreferences.rawless : record.codec.Rawless :=
  Record.rawless ⟨.list (Record.rawless ⟨.option .string, trivial⟩), .option .float,
    .option .float, .option .float, trivial⟩

namespace EnvelopeKind

open Envelope

variable (k : EnvelopeKind) (e : k.Carrier)

/-- The envelope with compact payloads. -/
def compact : (k : EnvelopeKind) → k.Carrier → k.Carrier
  | .opening, r => r.compact
  | .confirmation, e | .completion, e | .progress, e | .logLevel, e | .logMessage, e
  | .prompt, e | .resource, e | .sampling, e | .toolCall, e => e

/-- Only an opening copies anything. -/
theorem rawless (hk : k ≠ .opening) : (params : Codec k.Carrier).Rawless := by
  cases k with
  | opening => exact absurd rfl hk
  | confirmation => exact Record.rawless ⟨.dict .json, trivial⟩
  | completion =>
    exact Record.rawless ⟨Record.rawless ⟨.word _, .option .string, .option .string, trivial⟩,
      Record.rawless ⟨.string, .string, trivial⟩, trivial⟩
  | progress =>
    exact Record.rawless ⟨.identifier _, .float, .option .float, .option .string, trivial⟩
  | logLevel => exact Record.rawless ⟨.word _, trivial⟩
  | logMessage => exact Record.rawless ⟨.word _, .option .string, .json, trivial⟩
  | prompt => exact Record.rawless ⟨.string, .dict .string, trivial⟩
  | resource => exact Record.rawless ⟨.string, trivial⟩
  | sampling =>
    exact Record.rawless ⟨.list (Turn.rawless _), .option ModelPreferences.rawless,
      .option .string, .option (.word _), .option .float, .uint32, .list .string,
      .option (.dict .json), trivial⟩
  | toolCall =>
    exact Record.rawless ⟨.string, .option (.dict .json),
      .option (Record.rawless ⟨.option (.identifier _), trivial⟩), trivial⟩

/-- What params copy are the experimental payloads. -/
theorem raws_encode :
    ((params : Codec k.Carrier).encode e).raws = (k.payloads e).map (·.text) := by
  by_cases hk : k = .opening
  · subst hk
    refine (InitializeRequest.raws_encode e).trans ?_
    rw [payloads, List.map_map]
    rfl
  · refine (k.rawless hk e).trans ?_
    cases k <;> first | rfl | exact absurd rfl hk

theorem encode_compact : ((params : Codec k.Carrier).encode e).mapRaw Form.compactPayload =
    (params : Codec k.Carrier).encode (k.compact e) := by
  by_cases hk : k = .opening
  · subst hk
    exact InitializeRequest.encode_compact e
  · rw [Form.mapRaw_of_raws _ _ (k.rawless hk e)]
    cases k <;> first | rfl | exact absurd rfl hk

/-- The rules do not look at payloads. -/
theorem valid_compact : Valid (k.compact e) ↔ Valid e := by
  by_cases hk : k = .opening
  · subst hk
    exact InitializeRequest.valid_compact e
  · cases k <;> first | exact Iff.rfl | exact absurd rfl hk

theorem values_compact : k.values (k.compact e) = k.values e := by
  cases k <;> rfl

theorem payloads_compact : k.payloads (k.compact e) = (k.payloads e).map RawPayload.compact := by
  by_cases hk : k = .opening
  · subst hk
    rw [payloads, payloads, List.map_map]
    exact List.map_map ..
  · cases k <;> first | rfl | exact absurd rfl hk

/-- In memory, params read like the params with compact payloads. -/
theorem alike_compact {v : Json} (hf : ((params : Codec k.Carrier).encode e).Writable)
    (h : ((params : Codec k.Carrier).encode e).toJson = .ok v) :
    Alike ((params : Codec k.Carrier).encode (k.compact e)).sorted (Form.ofJson v) := by
  rw [Form.ofJson_toJson _ hf v h, ← k.encode_compact e]
  refine Form.alike_mapRaw_sorted _ ?_
  intro t ht
  obtain ⟨w, hw⟩ := Form.parse_of_toJson _ v h t ht
  have hcompact : Form.compactPayload t = .raw w.text := by
    rw [Form.compactPayload, RawPayload.compact, hw]
    rfl
  rw [hcompact, Form.ofPayload_eq hw, Form.sorted_ofJson w (Json.canonical_parse hw)]
  exact Alike.payload w

end EnvelopeKind

end ContextProtocol
