import ContextProtocol.Proofs.Message.Envelope
import ContextProtocol.Proofs.Message.Payloads
import ContextProtocol.Proofs.Message.PlainTrip
import ContextProtocol.Proofs.Shape.Column

/-!
# Experimental payloads are kept as they are written

A payload of an experimental capability is copied twice on its way in, once with all the params of
an opening and once out of them, and put under its name in between. None of these steps takes it
apart, so it may nest deeper than any value and hold numbers that no value can hold.

Results:
* `Decoder.Passes`: what is read around a payload does not depend on it, and the payload arrives.
* `InitializeRequest.passes`, `InitializeResult.passes`: the law for both messages of the handshake.
* `Form.Shows`: what is written around a payload does not depend on it either.
* `ExperimentalPath.kept_verbatim`: a payload is read, written and read again as it stands.
-/
namespace ContextProtocol

/-! ## Reading -/

theorem RawPayload.decode_ofPayload {t : String} (h : IsPayload t) (origin : Origin) :
    (RawPayload.codec.decode origin (Spelled.ofPayload h).sourced).result = .ok ⟨t⟩ :=
  Traced.map_eq_ok_iff.mpr ⟨t, Spelled.raw_ofPayload h origin, rfl⟩

theorem RawPayload.captured_of_decode {v : Spelled} {origin : Origin} {p : RawPayload}
    (h : (RawPayload.codec.decode origin v.sourced).result = .ok p) : p.Captured := by
  obtain ⟨t, ht, rfl⟩ := Traced.map_eq_ok_iff.mp h
  have hcopied : (Decoder.raw origin v.sourced).result = .ok t := ht
  exact captured_iff.mpr (Spelled.isPayload_of_raw hcopied)

/-- The decoder does not look into a payload that stands somewhere in a text: what it reads has one
payload or the other, and a property that holds with one. -/
def Decoder.Passes {α : Type} (dec : Decoder α) (text : Spelled → Spelled)
    (set : α → String → α) (P : α → Prop) : Prop :=
  ∀ ⦃origin : Origin⦄ ⦃q : String⦄ (hq : IsPayload q) ⦃a : α⦄,
    (dec origin (text (.ofPayload hq)).sourced).result = .ok a → P a ∧
      ∀ p (hp : IsPayload p), (dec origin (text (.ofPayload hp)).sourced).result = .ok (set a p)

/-- The experimental capabilities as they were received: the name is one of theirs, and each payload
is one value. -/
structure ExperimentalCapabilities.Received (name : String) (d : ExperimentalCapabilities) :
    Prop where
  known : d.contains name = true
  captured : ∀ e ∈ d.entries, e.2.Captured

/-- A dictionary of payloads passes the last one under a name. -/
theorem ExperimentalCapabilities.passes {before after : List Spelled.Member}
    {entry : Spelled.Member} {name : String} (hname : entry.name.token.reading = .ok name)
    (hlast : ∀ m ∈ after, m.name.token.reading ≠ .ok name) :
    (Decoder.dict RawPayload.codec.decode).Passes (Spelled.Place.member before entry after).fill
      (fun d p => d.insert name ⟨p⟩) (Received name) := by
  intro origin q hq d h
  obtain ⟨inner, -, ⟨a, -, ha⟩, hall⟩ := Decoder.dict_fill hname hlast h
  refine ⟨⟨by rw [Table.contains, ha]; rfl, fun e he => ?_⟩, fun p hp =>
    hall _ _ (RawPayload.decode_ofPayload hp inner)⟩
  obtain ⟨inner, d', hd', hread⟩ := Decoder.holds_of_dict h he
  have hdoc : Doc.Holds (Spelled.object
      (before ++ entry.fill (.ofPayload hq) :: after)).doc e.1 d' := hd'
  rw [Spelled.doc_object] at hdoc
  obtain ⟨token, hmem, -⟩ := hdoc
  obtain ⟨m, -, hm⟩ := List.mem_map.mp hmem
  cases hm
  exact RawPayload.captured_of_decode hread

/-- A record passes what one of its fields passes. -/
theorem Record.passes {R α : Type} {r : Record R} {c : Column α r.columns}
    {text : Spelled → Spelled} {set : α → String → α} {P : α → Prop}
    (h : (c.field r.fields).codec.decode.Passes text set P) (hnames : r.fields.names.Nodup)
    {place : Spelled.Place} (hplace : place.HasField (c.field r.fields).name c.position)
    {set' : R → String → R} {P' : R → Prop}
    (hset : ∀ row p, r.ofRow (c.set (set (c.get row) p) row) = set' (r.ofRow row) p)
    (hP : ∀ row, P (c.get row) → P' (r.ofRow row)) :
    r.codec.decode.Passes (fun v => place.fill (text v)) set' P' := by
  intro origin q hq x hx
  obtain ⟨inner, row, henter, rfl, hvalue, hall⟩ := r.decode_fill hnames hplace hx
  obtain ⟨hrow, hpayloads⟩ := h hq hvalue
  refine ⟨hP row hrow, fun p hp => ?_⟩
  rw [← hset]
  exact hall _ _ (hpayloads p hp)

/-- Where the params of a handshake have an experimental payload: under the last member of its name,
in the experimental capabilities of the capabilities. Names may be escaped and members stand in any
order; the records may be written as arrays. -/
structure ExperimentalPath (name : String) where
  capabilities : Spelled.Place
  experimental : Spelled.Place
  before : List Spelled.Member
  entry : Spelled.Member
  after : List Spelled.Member
  capabilities_field : capabilities.HasField "capabilities" 1
  experimental_field : experimental.HasField "experimental" 0
  entry_name : entry.name.token.reading = .ok name
  entry_last : ∀ m ∈ after, m.name.token.reading ≠ .ok name

namespace ExperimentalPath

variable {name : String} (path : ExperimentalPath name)

/-- The capabilities with a value in place of the payload. -/
def fillCapabilities (v : Spelled) : Spelled :=
  path.experimental.fill ((Spelled.Place.member path.before path.entry path.after).fill v)

/-- The params with a value in place of the payload. -/
def fill (v : Spelled) : Spelled := path.capabilities.fill (path.fillCapabilities v)

/-- Params that can be copied can be copied with another payload. -/
theorem copyable_refill {v w : Spelled} (h : (path.fill v).Copyable) (hw : w.Copyable) :
    (path.fill w).Copyable := by
  have hcapabilities := Spelled.Place.copyable_of_fill h
  have hpayloads := Spelled.Place.copyable_of_fill hcapabilities
  exact Spelled.Place.copyable_refill h (Spelled.Place.copyable_refill hcapabilities
    (Spelled.Place.copyable_refill hpayloads hw))

end ExperimentalPath

namespace ClientCapabilities

/-- The capabilities with an experimental payload. -/
def withPayload (c : ClientCapabilities) (name p : String) : ClientCapabilities :=
  { c with experimental := c.experimental.insert name ⟨p⟩ }

theorem passes {name : String} (path : ExperimentalPath name) :
    record.codec.decode.Passes path.fillCapabilities (·.withPayload name)
      (·.experimental.Received name) :=
  Record.passes (r := record) (c := .head)
    (ExperimentalCapabilities.passes path.entry_name path.entry_last) (by decide)
    path.experimental_field (fun _ _ => rfl) fun _ h => h

end ClientCapabilities

namespace InitializeRequest

/-- The opening with an experimental payload. -/
def withPayload (r : InitializeRequest) (name p : String) : InitializeRequest :=
  { r with capabilities := r.capabilities.withPayload name p }

theorem passes {name : String} (path : ExperimentalPath name) :
    record.codec.decode.Passes path.fill (·.withPayload name)
      (·.capabilities.experimental.Received name) :=
  Record.passes (r := record) (c := .tail .head) (ClientCapabilities.passes path) (by decide)
    path.capabilities_field (fun _ _ => rfl) fun _ h => h

end InitializeRequest

namespace ServerCapabilities

/-- The capabilities with an experimental payload. -/
def withPayload (c : ServerCapabilities) (name p : String) : ServerCapabilities :=
  { c with experimental := c.experimental.insert name ⟨p⟩ }

theorem passes {name : String} (path : ExperimentalPath name) :
    record.codec.decode.Passes path.fillCapabilities (·.withPayload name)
      (·.experimental.Received name) :=
  Record.passes (r := record) (c := .head)
    (ExperimentalCapabilities.passes path.entry_name path.entry_last) (by decide)
    path.experimental_field (fun _ _ => rfl) fun _ h => h

end ServerCapabilities

namespace InitializeResult

/-- The answer with an experimental payload. -/
def withPayload (r : InitializeResult) (name p : String) : InitializeResult :=
  { r with capabilities := r.capabilities.withPayload name p }

theorem passes {name : String} (path : ExperimentalPath name) :
    record.codec.decode.Passes path.fill (·.withPayload name)
      (·.capabilities.experimental.Received name) :=
  Record.passes (r := record) (c := .tail .head) (ServerCapabilities.passes path) (by decide)
    path.capabilities_field (fun _ _ => rfl) fun _ h => h

end InitializeResult

/-! ## Writing -/

namespace Form

theorem exists_memberChars (before after : List (String × Form)) (name : String) :
    ∃ front back, ∀ f, memberChars (before ++ (name, f) :: after) =
      front ++ (quote name ++ ':' :: f.chars ++ back) := by
  induction before with
  | nil => exact ⟨[','], memberChars after, fun f => by simp [memberChars]⟩
  | cons m before ih =>
    obtain ⟨n, v⟩ := m
    obtain ⟨front, back, h⟩ := ih
    exact ⟨',' :: (quote n ++ ':' :: (v.chars ++ front)), back, fun f => by
      simp [memberChars, h f]⟩

/-- The member of an object stands between the same texts whatever its value is. -/
theorem exists_chars_object (before after : List (String × Form)) (name : String) :
    ∃ front back, ∀ f, (Form.object (before ++ (name, f) :: after)).chars =
      front ++ (quote name ++ ':' :: f.chars ++ back) := by
  cases before with
  | nil => exact ⟨['\x7b'], memberChars after, fun f => by simp [chars]⟩
  | cons m before =>
    obtain ⟨n, v⟩ := m
    obtain ⟨front, back, h⟩ := exists_memberChars before after name
    exact ⟨'\x7b' :: (quote n ++ ':' :: (v.chars ++ front)), back, fun f => by
      simp [chars, h f]⟩

/-- The form shows a part of it as it stands, between texts that do not depend on the part. -/
def Shows (part : String → List Char) (F : String → Form) : Prop :=
  ∃ front back, ∀ t, (F t).chars = front ++ (part t ++ back)

/-- A payload is shown under its name. -/
theorem shows_raw (before after : List (String × Form)) (name : String) :
    Shows (fun t => quote name ++ ':' :: t.toList)
      fun t => .object (before ++ (name, .raw t) :: after) := by
  obtain ⟨front, back, h⟩ := exists_chars_object before after name
  exact ⟨front, back, fun t => h (.raw t)⟩

/-- An object shows what one of its members shows. -/
theorem Shows.object {part : String → List Char} {F : String → Form} (h : Shows part F)
    (before after : List (String × Form)) (name : String) :
    Shows part fun t => .object (before ++ (name, F t) :: after) := by
  obtain ⟨front, back, hF⟩ := h
  obtain ⟨front', back', hobject⟩ := exists_chars_object before after name
  refine ⟨front' ++ (quote name ++ ':' :: front), back ++ back', fun t => ?_⟩
  rw [hobject, hF]
  simp

/-- What a form shows stands in its text. -/
theorem Shows.text {part : String → List Char} {F : String → Form} (h : Shows part F) :
    ∃ front back : String, ∀ t, (F t).text = front ++ String.ofList (part t) ++ back := by
  obtain ⟨front, back, hF⟩ := h
  exact ⟨.ofList front, .ofList back, fun t => by
    rw [Form.text, hF, String.ofList_append, String.ofList_append, String.append_assoc]⟩

end Form

/-- A dictionary shows the payload that is put under a name. -/
theorem ExperimentalCapabilities.shows (d : ExperimentalCapabilities) (name : String) :
    Form.Shows (fun t => Form.quote name ++ ':' :: t.toList)
      fun t => (Codec.dict RawPayload.codec).encode (d.insert name ⟨t⟩) := by
  obtain ⟨before, after, h⟩ := Entries.exists_insert_eq name d.entries
  obtain ⟨front, back, hF⟩ := Form.shows_raw
    (before.map fun e => (e.1, RawPayload.codec.encode e.2))
    (after.map fun e => (e.1, RawPayload.codec.encode e.2)) name
  refine ⟨front, back, fun t => (congrArg Form.chars ?_).trans (hF t)⟩
  refine congrArg Form.object ((congrArg (List.map _) (h ⟨t⟩)).trans ?_)
  rw [List.map_append, List.map_cons]
  rfl

/-- A dictionary with a payload in it is written. -/
theorem ExperimentalCapabilities.isEmpty_insert (d : ExperimentalCapabilities) (name : String)
    (p : RawPayload) : (d.insert name p).isEmpty = false := by
  obtain ⟨before, after, h⟩ := Entries.exists_insert_eq name d.entries
  refine (congrArg List.isEmpty (h p)).trans ?_
  simp

/-- Capabilities that begin with the experimental ones show the payload, too. -/
theorem Fields.shows_experimental {columns : List Type} (rest : Fields columns)
    (d : ExperimentalCapabilities) (row : Row columns) (name : String) :
    Form.Shows (fun t => Form.quote name ++ ':' :: t.toList) fun t =>
      .object (encode (.cons (.named "experimental" RawPayload.codec) rest)
        (d.insert name ⟨t⟩, row)) := by
  obtain ⟨front, back, h⟩ := (d.shows name).object [] (rest.encode row) "experimental"
  refine ⟨front, back, fun t => (congrArg Form.chars ?_).trans (h t)⟩
  exact congrArg Form.object (if_neg (Bool.eq_false_iff.mp (d.isEmpty_insert name ⟨t⟩)))

theorem ClientCapabilities.shows (c : ClientCapabilities) (name : String) :
    Form.Shows (fun t => Form.quote name ++ ':' :: t.toList)
      fun t => record.codec.encode (c.withPayload name t) :=
  Fields.shows_experimental (.cons (.optional "roots" (ListCapability.codec "RootsCapability"))
    (.cons (.optional "sampling" (Marker.codec "SamplingCapability")) .nil))
    c.experimental (c.roots, c.sampling, ()) name

theorem ServerCapabilities.shows (c : ServerCapabilities) (name : String) :
    Form.Shows (fun t => Form.quote name ++ ':' :: t.toList)
      fun t => record.codec.encode (c.withPayload name t) :=
  Fields.shows_experimental (.cons (.optional "logging" (Marker.codec "LoggingCapability"))
    (.cons (.optional "prompts" (ListCapability.codec "PromptsCapability"))
      (.cons (.optional "resources" ResourcesCapability.record.codec)
        (.cons (.optional "tools" (ListCapability.codec "ToolsCapability")) .nil))))
    c.experimental (c.logging, c.prompts, c.resources, c.tools, ()) name

theorem InitializeRequest.shows (r : InitializeRequest) (name : String) :
    Form.Shows (fun t => Form.quote name ++ ':' :: t.toList)
      fun t => Envelope.form (r.withPayload name t) :=
  ((r.capabilities.shows name).object [("protocolVersion", .string r.protocolVersion)]
    [("clientInfo", Implementation.record.codec.encode r.clientInfo)] "capabilities").object
      [("method", .string "initialize")] [] "params"

theorem InitializeResult.shows (r : InitializeResult) (name : String) :
    Form.Shows (fun t => Form.quote name ++ ':' :: t.toList)
      fun t => record.codec.encode (r.withPayload name t) :=
  (r.capabilities.shows name).object [("protocolVersion", .string r.protocolVersion)]
    (("serverInfo", Implementation.record.codec.encode r.serverInfo) ::
      Fields.encode (.cons (.optional "instructions" .string) .nil) (r.instructions, ()))
    "capabilities"

/-! ## The handshake -/

namespace ExperimentalCapabilities

/-- A payload under a known name breaks no rule. -/
theorem Received.check_insert {name : String} {d : ExperimentalCapabilities}
    (h : d.Received name) (p : RawPayload) : check (d.insert name p) = check d := by
  rw [check, check, Table.keys_insert h.known]

theorem Received.captured_insert {name p : String} {d : ExperimentalCapabilities}
    (h : d.Received name) (hp : IsPayload p) :
    ∀ e ∈ Table.entries (d.insert name ⟨p⟩), e.2.Captured := by
  intro e he
  rcases Entries.mem_insert he with rfl | he
  · exact RawPayload.captured_iff.mpr hp
  · exact h.captured e he

end ExperimentalCapabilities

namespace InitializeRequest

variable {name : String} {r : InitializeRequest}

theorem valid_withPayload (h : r.capabilities.experimental.Received name) (p : String) :
    Valid (r.withPayload name p) ↔ Valid r := by
  have hvalidate : validate (r.withPayload name p) = (do
      checkNonEmpty "protocolVersion" r.protocolVersion
      (ExperimentalCapabilities.check (r.capabilities.experimental.insert name ⟨p⟩)).mapError
        (·.within "capabilities")
      (validate r.clientInfo).mapError (·.within "clientInfo")) := rfl
  rw [Valid, Valid, hvalidate, h.check_insert]
  exact Iff.rfl

theorem neat (r : InitializeRequest) : (record.codec.encode r).Neat 3 :=
  Record.neat ⟨fun _ => Form.fits_text (by decide),
    fun _ => Form.fits_object rfl (by decide) r.capabilities.neat,
    fun _ => Form.fits_object rfl (by decide) (r.clientInfo.neat.mono (by decide)), trivial⟩

/-- An opening comes back with the payload in it. -/
theorem decode_encode_withPayload (h : r.capabilities.experimental.Received name) (hr : Valid r)
    {p : String} (hp : IsPayload p) :
    (Envelope.decode (Envelope.encode (r.withPayload name p)).toUTF8 :
      Traced DecodeError InitializeRequest).result = .ok (r.withPayload name p) := by
  have hvalid := (valid_withPayload h p).mpr hr
  refine Envelope.decode_encode_of (roundTrips (h.captured_insert hp)) hvalid
    (Codec.present_of_object rfl) (Nat.le_trans (neat _).2 (by decide))

/-- An opening is read again with another payload in its place. -/
theorem decode_fill (path : ExperimentalPath name) {around : Spelled.Item}
    {params : Spelled.Place} (hparams : params.HasField "params" 1) {q : String} (hq : IsPayload q)
    {bytes : ByteArray}
    (hbytes : Symbol.ofBytes bytes = (around.fill (params.fill (path.fill (.ofPayload hq)))).text)
    (hr : (Envelope.decode bytes : Traced DecodeError InitializeRequest).result = .ok r) :
    r.capabilities.experimental.Received name ∧ ∀ p (hp : IsPayload p) (bytes : ByteArray),
      Symbol.ofBytes bytes = (around.fill (params.fill (path.fill (.ofPayload hp)))).text →
        (Envelope.decode bytes : Traced DecodeError InitializeRequest).result =
          .ok (r.withPayload name p) := by
  obtain ⟨m, hm, hread⟩ := Envelope.decode_eq_ok_iff.mp hr
  rw [Spelled.run_eq_ok_iff hbytes] at hm
  obtain ⟨inner, row, -, rfl, hcopied, hall⟩ :=
    Record.decode_fill (r := EnvelopeMembers.record) (c := .tail .head) (by decide) hparams hm
  obtain ⟨method, text?, u⟩ := row
  have hoption : ∀ v, ((Decoder.option Decoder.raw) inner (path.fill v).sourced) =
      some <$> Decoder.raw inner (path.fill v).sourced := fun v =>
    have hpresent := path.capabilities.fill_present (path.fillCapabilities v)
    Decoder.option_eq_map hpresent.1 hpresent.2
  obtain ⟨text, htext, heq⟩ := Traced.map_eq_ok_iff.mp
    ((congrArg Traced.result (hoption (.ofPayload hq))).symm.trans hcopied)
  obtain rfl : some text = text? := heq
  obtain ⟨hmethod, hparamsRead, hvalid⟩ := Envelope.ofMembers_eq_ok_iff.mp hread
  have hsymbols := (Spelled.raw_eq_ok_iff.mp htext).2
  obtain ⟨hreceived, hpayloads⟩ :=
    passes path hq ((Spelled.runString_eq_ok_iff hsymbols).mp hparamsRead)
  refine ⟨hreceived, fun p hp bytes hbytes => ?_⟩
  -- the params are copied again, with the other payload in them
  obtain ⟨text', htext'⟩ := Spelled.copyable_iff.mp
    (path.copyable_refill (Spelled.copyable_iff.mpr ⟨text, htext⟩)
      (Spelled.copyable_iff.mpr ⟨p, Spelled.raw_ofPayload hp inner⟩))
  have hsymbols' := (Spelled.raw_eq_ok_iff.mp htext').2
  refine Envelope.decode_eq_ok_iff.mpr ⟨⟨method, some text'⟩, ?_, ?_⟩
  · refine (Spelled.run_eq_ok_iff hbytes).mpr (hall _ (some text') ?_)
    exact (congrArg Traced.result (hoption (.ofPayload hp))).trans
      (Traced.map_eq_ok_iff.mpr ⟨text', htext', rfl⟩)
  · exact Envelope.ofMembers_eq_ok_iff.mpr ⟨hmethod,
      (Spelled.runString_eq_ok_iff hsymbols').mpr (hpayloads p hp),
      (valid_withPayload hreceived p).mpr hvalid⟩

end InitializeRequest

namespace InitializeResult

variable {name : String} {r : InitializeResult}

theorem valid_withPayload (h : r.capabilities.experimental.Received name) (p : String) :
    Valid (r.withPayload name p) ↔ Valid r := by
  have hvalidate : validate (r.withPayload name p) = (do
      checkNonEmpty "protocolVersion" r.protocolVersion
      (ExperimentalCapabilities.check (r.capabilities.experimental.insert name ⟨p⟩)).mapError
        (·.within "capabilities")
      (validate r.serverInfo).mapError (·.within "serverInfo")) := rfl
  rw [Valid, Valid, hvalidate, h.check_insert]
  exact Iff.rfl

/-- An answer comes back with the payload in it. -/
theorem decode_encode_withPayload (h : r.capabilities.experimental.Received name) (hr : Valid r)
    {p : String} (hp : IsPayload p) :
    (Wire.decode (Wire.encode (r.withPayload name p)).toUTF8 :
      Traced DecodeError InitializeResult).result = .ok (r.withPayload name p) :=
  Wire.decode_eq_ok_iff.mpr ⟨(roundTrips (h.captured_insert hp)).run
    (Nat.le_trans (neat _).2 (by decide)), (valid_withPayload h p).mpr hr⟩

/-- An answer is read again with another payload in its place. -/
theorem decode_fill (path : ExperimentalPath name) {around : Spelled.Item} {q : String}
    (hq : IsPayload q) {bytes : ByteArray}
    (hbytes : Symbol.ofBytes bytes = (around.fill (path.fill (.ofPayload hq))).text)
    (hr : (Wire.decode bytes : Traced DecodeError InitializeResult).result = .ok r) :
    r.capabilities.experimental.Received name ∧ ∀ p (hp : IsPayload p) (bytes : ByteArray),
      Symbol.ofBytes bytes = (around.fill (path.fill (.ofPayload hp))).text →
        (Wire.decode bytes : Traced DecodeError InitializeResult).result =
          .ok (r.withPayload name p) := by
  obtain ⟨hread, hvalid⟩ := Wire.decode_eq_ok_iff.mp hr
  obtain ⟨hreceived, hpayloads⟩ := passes path hq ((Spelled.run_eq_ok_iff hbytes).mp hread)
  refine ⟨hreceived, fun p hp bytes hbytes => Wire.decode_eq_ok_iff.mpr ⟨?_, ?_⟩⟩
  · exact (Spelled.run_eq_ok_iff hbytes).mpr (hpayloads p hp)
  · exact (valid_withPayload hreceived p).mpr hvalid

end InitializeResult

/-- An experimental payload is kept as it is written. Where bytes are a message of the handshake with
some payload, the same bytes with any other payload in its place are that message with the other
payload; its text is written again unchanged, and the written message is read as the same one. -/
theorem ExperimentalPath.kept_verbatim {name : String} (path : ExperimentalPath name)
    (around : Spelled.Item) {p q : String} (hp : IsPayload p) (hq : IsPayload q) :
    (∀ (params : Spelled.Place) (bytes bytes' : ByteArray) (r : InitializeRequest),
      params.HasField "params" 1 →
      Symbol.ofBytes bytes = (around.fill (params.fill (path.fill (.ofPayload hq)))).text →
      (Envelope.decode bytes : Traced DecodeError InitializeRequest).result = .ok r →
      Symbol.ofBytes bytes' = (around.fill (params.fill (path.fill (.ofPayload hp)))).text →
      (Envelope.decode bytes' : Traced DecodeError InitializeRequest).result =
          .ok (r.withPayload name p) ∧
        (Table.get? (r.withPayload name p).capabilities.experimental name).map (·.text) = some p ∧
        (∃ front back, ∀ t, Envelope.encode (r.withPayload name t) =
          front ++ ((Form.string name).text ++ ":" ++ t) ++ back) ∧
        (Envelope.decode (Envelope.encode (r.withPayload name p)).toUTF8 :
          Traced DecodeError InitializeRequest).result = .ok (r.withPayload name p)) ∧
    ∀ (bytes bytes' : ByteArray) (r : InitializeResult),
      Symbol.ofBytes bytes = (around.fill (path.fill (.ofPayload hq))).text →
      (Wire.decode bytes : Traced DecodeError InitializeResult).result = .ok r →
      Symbol.ofBytes bytes' = (around.fill (path.fill (.ofPayload hp))).text →
      (Wire.decode bytes' : Traced DecodeError InitializeResult).result =
          .ok (r.withPayload name p) ∧
        (Table.get? (r.withPayload name p).capabilities.experimental name).map (·.text) = some p ∧
        (∃ front back, ∀ t, Wire.encode (r.withPayload name t) =
          front ++ ((Form.string name).text ++ ":" ++ t) ++ back) ∧
        (Wire.decode (Wire.encode (r.withPayload name p)).toUTF8 :
          Traced DecodeError InitializeResult).result = .ok (r.withPayload name p) := by
  have hpart : ∀ t : String, String.ofList (Form.quote name ++ ':' :: t.toList) =
      (Form.string name).text ++ ":" ++ t := by
    intro t
    have hcolon : String.ofList (':' :: t.toList) = ":" ++ t := by
      rw [← List.singleton_append, String.ofList_append, String.ofList_toList]
    rw [String.append_assoc, Form.text, Form.chars, String.ofList_append, hcolon]
  constructor
  · intro params bytes bytes' r hparams hbytes hr hbytes'
    obtain ⟨hreceived, hpayloads⟩ := InitializeRequest.decode_fill path hparams hq hbytes hr
    refine ⟨hpayloads p hp bytes' hbytes', ?_, ?_, ?_⟩
    · exact congrArg (Option.map _) (Table.get?_insert_self ..)
    · obtain ⟨front, back, h⟩ := (r.shows name).text
      exact ⟨front, back, fun t => (h t).trans (by rw [hpart])⟩
    · exact InitializeRequest.decode_encode_withPayload hreceived (Envelope.valid_of_decode hr) hp
  · intro bytes bytes' r hbytes hr hbytes'
    obtain ⟨hreceived, hpayloads⟩ := InitializeResult.decode_fill path hq hbytes hr
    refine ⟨hpayloads p hp bytes' hbytes', ?_, ?_, ?_⟩
    · exact congrArg (Option.map _) (Table.get?_insert_self ..)
    · obtain ⟨front, back, h⟩ := (r.shows name).text
      exact ⟨front, back, fun t => (h t).trans (by rw [hpart])⟩
    · exact InitializeResult.decode_encode_withPayload hreceived (Wire.valid_of_decode hr) hp

/-- A payload that no value can hold: a number in it is out of range, and a name comes twice. -/
def RawPayload.extreme : String := "\x7b\"b\": 1e999,\"a\":[],\"b\":2\x7d"

theorem RawPayload.isPayload_extreme : IsPayload extreme := by decide +kernel

theorem RawPayload.isPayload_null : IsPayload "null" := by decide +kernel

/-- Params of both messages in which the name `x` comes twice, with an escape the second time. -/
def ExperimentalPath.escaped : ExperimentalPath "x" where
  capabilities :=
    .member [.compact "protocolVersion" (.ofPayload (t := "\"2024-11-05\"") (by decide +kernel))]
      (.compact "capabilities" (.ofPayload RawPayload.isPayload_null))
      [.compact "clientInfo" (.ofPayload (t := "[\"a\",\"1\"]") (by decide +kernel)),
        .compact "serverInfo" (.ofPayload (t := "[\"b\",\"1\"]") (by decide +kernel))]
  experimental :=
    .member [] (.compact "experimental" (.ofPayload RawPayload.isPayload_null)) []
  before := [.compact "x" (.ofPayload (t := "1") (by decide +kernel))]
  entry := ⟨.none, ⟨Symbol.ofString "\\u0078\"", by decide +kernel⟩, .none,
    ⟨⟨[' ', '\n'], by simp [IsBlank]⟩, .ofPayload RawPayload.isPayload_null,
      ⟨['\t'], by simp [IsBlank]⟩⟩⟩
  after := []
  capabilities_field := congrArg Token.reading (Spelled.Name.token_ofString "capabilities")
  experimental_field := congrArg Token.reading (Spelled.Name.token_ofString "experimental")
  entry_name := Outcome.toOption_eq_some_iff.mp (by decide +kernel)
  entry_last := List.forall_mem_nil _

/-- The text of these params with a payload. -/
def ExperimentalPath.escapedText (p : String) : String :=
  "\x7b\"protocolVersion\":\"2024-11-05\",\"capabilities\":\x7b\"experimental\":\x7b\"x\":1," ++
    "\"\\u0078\": \n" ++ p ++ "\t\x7d\x7d,\"clientInfo\":[\"a\",\"1\"],\"serverInfo\":[\"b\",\"1\"]\x7d"

theorem ExperimentalPath.kept_verbatim_extreme :
    (∃ r : InitializeRequest,
      (Envelope.decode ("\x7b\"method\":\"initialize\",\"params\":" ++
        escapedText RawPayload.extreme ++ "\x7d").toUTF8 :
          Traced DecodeError InitializeRequest).result = .ok r ∧
        (Table.get? r.capabilities.experimental "x").map (·.text) = some RawPayload.extreme ∧
        (Envelope.decode (Envelope.encode r).toUTF8 :
          Traced DecodeError InitializeRequest).result = .ok r) ∧
    ∃ r : InitializeResult,
      (Wire.decode (escapedText RawPayload.extreme).toUTF8 :
          Traced DecodeError InitializeResult).result = .ok r ∧
        (Table.get? r.capabilities.experimental "x").map (·.text) = some RawPayload.extreme ∧
        (Wire.decode (Wire.encode r).toUTF8 :
          Traced DecodeError InitializeResult).result = .ok r := by
  have hkept := ExperimentalPath.kept_verbatim escaped
    ⟨.none, .ofPayload RawPayload.isPayload_null, .none⟩ RawPayload.isPayload_extreme
    RawPayload.isPayload_null
  constructor
  · have hopening : (Envelope.decode ("\x7b\"method\":\"initialize\",\"params\":" ++
        escapedText "null" ++ "\x7d").toUTF8 :
          Traced DecodeError InitializeRequest).result.toOption.isSome = true := by decide +kernel
    obtain ⟨r, hr⟩ := Option.isSome_iff_exists.mp hopening
    have h := hkept.1
      (.member [.compact "method" (.ofPayload (t := "\"initialize\"") (by decide +kernel))]
        (.compact "params" (.ofPayload RawPayload.isPayload_null)) [])
      ("\x7b\"method\":\"initialize\",\"params\":" ++ escapedText "null" ++ "\x7d").toUTF8
      ("\x7b\"method\":\"initialize\",\"params\":" ++
        escapedText RawPayload.extreme ++ "\x7d").toUTF8 r
      (congrArg Token.reading (Spelled.Name.token_ofString "params"))
      (by rw [Symbol.ofBytes_toUTF8]; decide +kernel) (Outcome.toOption_eq_some_iff.mp hr)
      (by rw [Symbol.ofBytes_toUTF8]; decide +kernel)
    exact ⟨_, h.1, h.2.1, h.2.2.2⟩
  · have hanswer : (Wire.decode (escapedText "null").toUTF8 :
        Traced DecodeError InitializeResult).result.toOption.isSome = true := by decide +kernel
    obtain ⟨r, hr⟩ := Option.isSome_iff_exists.mp hanswer
    have h := hkept.2 (escapedText "null").toUTF8 (escapedText RawPayload.extreme).toUTF8 r
      (by rw [Symbol.ofBytes_toUTF8]; decide +kernel) (Outcome.toOption_eq_some_iff.mp hr)
      (by rw [Symbol.ofBytes_toUTF8]; decide +kernel)
    exact ⟨_, h.1, h.2.1, h.2.2.2⟩

end ContextProtocol
