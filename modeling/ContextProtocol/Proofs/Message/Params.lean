import ContextProtocol.Message.Completion
import ContextProtocol.Message.Handshake
import ContextProtocol.Message.LogMessage
import ContextProtocol.Message.Prompt
import ContextProtocol.Message.Resource
import ContextProtocol.Message.Sampling
import ContextProtocol.Message.Tool
import ContextProtocol.Proofs.Message.Content
import ContextProtocol.Proofs.Validated

/-!
# Params that make the round trip

The rules of a valid envelope are what its params need to come back: they keep every float finite
and every content valid. Nothing is known of the values an envelope carries for others, so these
have to come back from their own texts, and its experimental payloads have to be texts of values.

Results:
* `ProgressNotification.checkProgress_eq_ok_iff`, `ProgressNotification.checkTotal_eq_ok_iff`,
  `ModelPreferences.checkUnit_eq_ok_iff`: what the rules of floats ask for.
* `InitializeRequest.roundTrips`, …, `CallToolRequest.roundTrips`: the params of the ten envelopes.
* `EnvelopeKind`: the ten types as one family, and `EnvelopeKind.roundTrips`, the law for all of
  them.
-/
namespace ContextProtocol

/-! ## Parts of params -/

namespace ReferenceKind

theorem roundTrips (kind : ReferenceKind) : codec.RoundTrips kind := by
  have hname : (all.map fun k => (k.text, k)).find? (fun w => w.2 == kind) =
      some (kind.text, kind) := by
    cases kind <;> rfl
  exact Codec.RoundTrips.word hname (by cases kind <;> rfl)

end ReferenceKind

namespace LoggingLevel

theorem roundTrips (level : LoggingLevel) : codec.RoundTrips level := by
  have hname : (all.map fun l => (l.text, l)).find? (fun w => w.2 == level) =
      some (level.text, level) := by
    cases level <;> rfl
  exact Codec.RoundTrips.word hname (by cases level <;> rfl)

end LoggingLevel

namespace IncludeContext

theorem roundTrips (context : IncludeContext) : codec.RoundTrips context := by
  have hname : (all.map fun c => (c.text, c)).find? (fun w => w.2 == context) =
      some (context.text, context) := by
    cases context <;> rfl
  exact Codec.RoundTrips.word hname (by cases context <;> rfl)

theorem present (context : IncludeContext) : codec.Present context := by
  cases context <;> exact Codec.present_of_string rfl

end IncludeContext

theorem Field.holds_optionalFloat {name : String} {x : Option Float}
    (h : ∀ y, x = some y → y.isFinite = true) : (optional name .float).Holds x :=
  holds_optional fun y hy => ⟨Codec.RoundTrips.float (h y hy), Codec.present_float (h y hy)⟩

theorem Field.holds_optionalBool {name : String} (b : Option Bool) :
    (optional name .bool).Holds b :=
  holds_optional fun c _ => ⟨Codec.RoundTrips.bool c, Codec.present_bool c⟩

/-- Values under names come back when each of them does. -/
theorem Codec.RoundTrips.jsonDict {d : Dict Json} (h : ∀ e ∈ d.entries, e.2.Recovered) :
    (Codec.dict .json).RoundTrips d :=
  .dict fun e he => .json (h e he)

/-- The text of the payload is the text of a value, as it was captured. -/
def RawPayload.Captured (p : RawPayload) : Prop := ofText p.text = .ok p

theorem RawPayload.roundTrips {p : RawPayload} (h : p.Captured) : codec.RoundTrips p := by
  have hpayload : IsPayload p.text := by
    obtain ⟨t, ht, hp⟩ := Outcome.map_eq_ok_iff.mp (Outcome.mapError_eq_ok_iff.mp h)
    have htext : t = p.text := congrArg text hp
    exact htext ▸ ht
  exact Codec.RoundTrips.wrap rfl (Codec.RoundTrips.raw hpayload)

theorem ListCapability.roundTrips (name : String) (c : ListCapability) :
    (codec name).RoundTrips c :=
  Record.roundTrips (show ["listChanged"].Nodup by decide)
    ⟨Field.holds_optionalBool c.listChanged, trivial⟩

theorem Marker.roundTrips (name : String) (m : Marker) : (codec name).RoundTrips m :=
  Record.roundTrips List.nodup_nil trivial

theorem ClientCapabilities.roundTrips {c : ClientCapabilities}
    (h : ∀ e ∈ c.experimental.entries, e.2.Captured) : record.codec.RoundTrips c := by
  refine Record.roundTrips (by decide) ⟨?_, ?_, ?_, trivial⟩
  · exact Field.holds_named fun e he => RawPayload.roundTrips (h e he)
  · exact Field.holds_optional fun r _ =>
      ⟨ListCapability.roundTrips _ r, Codec.present_of_object rfl⟩
  · exact Field.holds_optional fun m _ => ⟨Marker.roundTrips _ m, Codec.present_of_object rfl⟩

theorem Implementation.roundTrips (i : Implementation) : record.codec.RoundTrips i :=
  Record.roundTrips (by decide)
    ⟨Field.holds_required (.string _), Field.holds_required (.string _), trivial⟩

theorem Reference.roundTrips (r : Reference) : record.codec.RoundTrips r :=
  Record.roundTrips (by decide) ⟨Field.holds_required (ReferenceKind.roundTrips _),
    Field.holds_optionalText _, Field.holds_optionalText _, trivial⟩

theorem CompletionArgument.roundTrips (a : CompletionArgument) : record.codec.RoundTrips a :=
  Record.roundTrips (by decide)
    ⟨Field.holds_required (.string _), Field.holds_required (.string _), trivial⟩

theorem RequestMeta.roundTrips (m : RequestMeta) : record.codec.RoundTrips m :=
  Record.roundTrips (by decide) ⟨Field.holds_optional fun id _ =>
    ⟨Codec.RoundTrips.identifier _ id, Codec.present_identifier _ id⟩, trivial⟩

theorem Turn.roundTrips (name : String) {t : Turn} (h : Valid t.content) :
    (codec name).RoundTrips t :=
  Record.roundTrips (show ["role", "content"].Nodup by decide) ⟨Field.holds_required (Role.roundTrips _),
    Field.holds_required (Content.roundTrips h), trivial⟩

theorem Turn.checkAll_eq_ok_iff {messages : List Turn} :
    checkAll messages = .ok () ↔ messages ≠ [] ∧ ∀ t ∈ messages, Valid t.content := by
  unfold checkAll
  split
  · rename_i hempty
    exact ⟨nofun, fun h => absurd (List.isEmpty_iff.mp hempty) h.1⟩
  · rename_i hne
    have hne' : messages ≠ [] := fun h => hne (List.isEmpty_iff.mpr h)
    rw [checkEach_eq_ok_iff, and_iff_right hne']
    exact Iff.rfl

namespace ModelPreferences

theorem checkUnit_eq_ok_iff {field : String} {x : Option Float} : checkUnit field x = .ok () ↔
    ∀ y, x = some y → y.isNaN = false ∧ 0 ≤ y ∧ y ≤ 1 := by
  cases x with
  | none => exact ⟨fun _ _ h => absurd h nofun, fun _ => rfl⟩
  | some y =>
    rw [checkUnit, checkRange_unit_eq_ok_iff]
    exact ⟨fun h z hz => Option.some.inj hz ▸ h, fun h => h y rfl⟩

theorem isFinite_of_checkUnit {field : String} {x : Option Float}
    (h : checkUnit field x = .ok ()) : ∀ y, x = some y → y.isFinite = true := by
  rintro y rfl
  exact isFinite_of_checkRange_unit h

theorem valid_iff {p : ModelPreferences} : Valid p ↔
    checkUnit "costPriority" p.costPriority = .ok () ∧
      checkUnit "speedPriority" p.speedPriority = .ok () ∧
      checkUnit "intelligencePriority" p.intelligencePriority = .ok () := by
  rw [← Outcome.check_bind_eq_ok_iff, ← Outcome.check_bind_eq_ok_iff]
  rfl

theorem roundTrips {p : ModelPreferences} (h : Valid p) : record.codec.RoundTrips p := by
  obtain ⟨hcost, hspeed, hintelligence⟩ := valid_iff.mp h
  refine Record.roundTrips (by decide) ⟨?_, ?_, ?_, ?_, trivial⟩
  · exact Field.holds_listed fun hint _ =>
      Record.roundTrips (by decide) ⟨Field.holds_optionalText hint.name, trivial⟩
  · exact Field.holds_optionalFloat (isFinite_of_checkUnit hcost)
  · exact Field.holds_optionalFloat (isFinite_of_checkUnit hspeed)
  · exact Field.holds_optionalFloat (isFinite_of_checkUnit hintelligence)

end ModelPreferences

/-! ## The params of the ten envelopes -/

theorem InitializeRequest.roundTrips {r : InitializeRequest}
    (h : ∀ e ∈ r.capabilities.experimental.entries, e.2.Captured) :
    record.codec.RoundTrips r :=
  Record.roundTrips (by decide) ⟨Field.holds_required (.string _),
    Field.holds_required (ClientCapabilities.roundTrips h),
    Field.holds_required (Implementation.roundTrips _), trivial⟩

theorem InitializedNotification.roundTrips {n : InitializedNotification}
    (h : ∀ e ∈ n.metadata.entries, e.2.Recovered) : record.codec.RoundTrips n :=
  Record.roundTrips (by decide) ⟨Field.holds_named fun e he => .json (h e he), trivial⟩

theorem CompleteRequest.roundTrips (r : CompleteRequest) : record.codec.RoundTrips r :=
  Record.roundTrips (by decide) ⟨Field.holds_required (Reference.roundTrips _),
    Field.holds_required (CompletionArgument.roundTrips _), trivial⟩

namespace ProgressNotification
open Decimal (exact exact_zero lt_iff_exact le_iff_exact)

variable {n : ProgressNotification}

theorem valid_iff : Valid n ↔ checkProgress n.progress = .ok () ∧
    ∀ total, n.total = some total → checkTotal n.progress total = .ok () := by
  cases htotal : n.total with
  | none => simp [Valid, validate, htotal, Outcome.check_bind_eq_ok_iff]
  | some total => simp [Valid, validate, htotal, Outcome.check_bind_eq_ok_iff]

theorem checkProgress_eq_ok_iff {x : Float} :
    checkProgress x = .ok () ↔ x.isFinite = true ∧ 0 ≤ exact x := by
  unfold checkProgress
  by_cases hfinite : x.isFinite = true
  · have hzero : x < 0 ↔ exact x < 0 := by rw [lt_iff_exact hfinite (by decide), exact_zero]
    simp [hfinite, hzero]
  · simp [hfinite]

theorem checkTotal_eq_ok_iff {x total : Float} (hx : x.isFinite = true) :
    checkTotal x total = .ok () ↔
      total.isFinite = true ∧ 0 < exact total ∧ exact x ≤ exact total := by
  unfold checkTotal
  by_cases hfinite : total.isFinite = true
  · have hzero : total ≤ 0 ↔ exact total ≤ 0 := by
      rw [le_iff_exact hfinite (by decide), exact_zero]
    have horder : total < x ↔ exact total < exact x := lt_iff_exact hfinite hx
    by_cases hpos : exact total ≤ 0
    · simp [hfinite, hzero, hpos]
    · by_cases hle : exact total < exact x
      · simp [hfinite, hzero, horder, hpos, hle]
      · simp [hfinite, hzero, horder, not_le.mp hpos, hle, not_lt.mp hle]
  · simp [hfinite]

theorem roundTrips (h : Valid n) : record.codec.RoundTrips n := by
  obtain ⟨hprogress, htotal⟩ := valid_iff.mp h
  have hfinite := (checkProgress_eq_ok_iff.mp hprogress).1
  refine Record.roundTrips (by decide) ⟨?_, ?_, ?_, ?_, trivial⟩
  · exact Field.holds_required (Codec.RoundTrips.identifier _ _)
  · exact Field.holds_required (.float hfinite)
  · exact Field.holds_optionalFloat fun x hx =>
      ((checkTotal_eq_ok_iff hfinite).mp (htotal x hx)).1
  · exact Field.holds_optionalText _

end ProgressNotification

theorem SetLevelRequest.roundTrips (r : SetLevelRequest) : record.codec.RoundTrips r :=
  Record.roundTrips (by decide) ⟨Field.holds_required (LoggingLevel.roundTrips _), trivial⟩

theorem LoggingMessageNotification.roundTrips {n : LoggingMessageNotification}
    (h : n.data.Recovered) : record.codec.RoundTrips n :=
  Record.roundTrips (by decide) ⟨Field.holds_required (LoggingLevel.roundTrips _),
    Field.holds_optionalText _, Field.holds_defaulted (.json h), trivial⟩

theorem GetPromptRequest.roundTrips (r : GetPromptRequest) : record.codec.RoundTrips r :=
  Record.roundTrips (by decide)
    ⟨Field.holds_defaulted (.string _), Field.holds_named fun e _ => .string e.2, trivial⟩

theorem ReadResourceRequest.roundTrips (r : ReadResourceRequest) : record.codec.RoundTrips r :=
  Record.roundTrips (by decide) ⟨Field.holds_defaulted (.string _), trivial⟩

namespace CreateMessageRequest

variable {r : CreateMessageRequest}

theorem checkPreferences_eq_ok_iff {preferences : Option ModelPreferences} :
    checkPreferences preferences = .ok () ↔ ∀ p, preferences = some p → Valid p := by
  cases preferences with
  | none => exact ⟨fun _ _ h => absurd h nofun, fun _ => rfl⟩
  | some p =>
    rw [checkPreferences, Outcome.mapError_eq_ok_iff]
    exact ⟨fun h q hq => by cases hq; exact h, fun h => h p rfl⟩

theorem valid_iff : Valid r ↔ Turn.checkAll r.messages = .ok () ∧ r.maxTokens ≠ 0 ∧
    ModelPreferences.checkUnit "temperature" r.temperature = .ok () ∧
    checkPreferences r.modelPreferences = .ok () := by
  have hvalidate : validate r = (do
      Turn.checkAll r.messages
      if r.maxTokens = 0 then .error ⟨"maxTokens", "must be positive"⟩
      ModelPreferences.checkUnit "temperature" r.temperature
      checkPreferences r.modelPreferences) := rfl
  rw [Valid, hvalidate, Outcome.check_bind_eq_ok_iff]
  refine and_congr_right ?_
  intro _
  split
  · rename_i hzero
    exact ⟨nofun, fun h => absurd hzero h.1⟩
  · rename_i hzero
    rw [and_iff_right hzero]
    exact Outcome.check_bind_eq_ok_iff

theorem roundTrips (h : Valid r) (hm : ∀ d, r.metadata = some d → ∀ e ∈ d.entries, e.2.Recovered) :
    record.codec.RoundTrips r := by
  obtain ⟨hmessages, -, htemperature, hpreferences⟩ := valid_iff.mp h
  refine Record.roundTrips (by decide) ⟨?_, ?_, ?_, ?_, ?_, ?_, ?_, ?_, trivial⟩
  · exact Field.holds_defaulted (.list fun t ht =>
      Turn.roundTrips _ ((Turn.checkAll_eq_ok_iff.mp hmessages).2 t ht))
  · exact Field.holds_optional fun p hp =>
      ⟨ModelPreferences.roundTrips (checkPreferences_eq_ok_iff.mp hpreferences p hp),
        Codec.present_of_object rfl⟩
  · exact Field.holds_optionalText _
  · exact Field.holds_optional fun c _ => ⟨IncludeContext.roundTrips c, IncludeContext.present c⟩
  · exact Field.holds_optionalFloat (ModelPreferences.isFinite_of_checkUnit htemperature)
  · exact Field.holds_defaulted (.uint32 _)
  · exact Field.holds_listed fun s _ => .string s
  · exact Field.holds_optional fun d hd => ⟨.jsonDict (hm d hd), Codec.present_of_object rfl⟩

end CreateMessageRequest

theorem CallToolRequest.roundTrips {r : CallToolRequest}
    (h : ∀ d, r.arguments = some d → ∀ e ∈ d.entries, e.2.Recovered) :
    record.codec.RoundTrips r := by
  refine Record.roundTrips (by decide) ⟨?_, ?_, ?_, trivial⟩
  · exact Field.holds_defaulted (.string _)
  · exact Field.holds_optional fun d hd => ⟨.jsonDict (h d hd), Codec.present_of_object rfl⟩
  · exact Field.holds_optional fun m _ => ⟨RequestMeta.roundTrips m, Codec.present_of_object rfl⟩

/-! ## All envelopes -/

/-- The types of envelopes. -/
inductive EnvelopeKind where
  | opening
  | confirmation
  | completion
  | progress
  | logLevel
  | logMessage
  | prompt
  | resource
  | sampling
  | toolCall

namespace EnvelopeKind

/-- The envelopes of a type. -/
abbrev Carrier : EnvelopeKind → Type
  | .opening => InitializeRequest
  | .confirmation => InitializedNotification
  | .completion => CompleteRequest
  | .progress => ProgressNotification
  | .logLevel => SetLevelRequest
  | .logMessage => LoggingMessageNotification
  | .prompt => GetPromptRequest
  | .resource => ReadResourceRequest
  | .sampling => CreateMessageRequest
  | .toolCall => CallToolRequest

/-- The steps in the construction of an envelope. -/
abbrev Step : EnvelopeKind → Type
  | .opening => InitializeStep
  | .progress => ProgressStep
  | .logMessage => LoggingStep
  | .sampling => CreateMessageStep
  | .toolCall => CallToolStep
  | .confirmation | .completion | .logLevel | .prompt | .resource => Empty

instance envelope : (k : EnvelopeKind) → Envelope k.Carrier k.Step
  | .opening => inferInstanceAs (Envelope InitializeRequest InitializeStep)
  | .confirmation => inferInstanceAs (Envelope InitializedNotification Empty)
  | .completion => inferInstanceAs (Envelope CompleteRequest Empty)
  | .progress => inferInstanceAs (Envelope ProgressNotification ProgressStep)
  | .logLevel => inferInstanceAs (Envelope SetLevelRequest Empty)
  | .logMessage => inferInstanceAs (Envelope LoggingMessageNotification LoggingStep)
  | .prompt => inferInstanceAs (Envelope GetPromptRequest Empty)
  | .resource => inferInstanceAs (Envelope ReadResourceRequest Empty)
  | .sampling => inferInstanceAs (Envelope CreateMessageRequest CreateMessageStep)
  | .toolCall => inferInstanceAs (Envelope CallToolRequest CallToolStep)

/-- The values that an envelope carries without knowing their shape. -/
def values : (k : EnvelopeKind) → k.Carrier → List Json
  | .confirmation, n => n.metadata.entries.map (·.2)
  | .logMessage, n => [n.data]
  | .sampling, r => r.metadata.elim [] fun d => d.entries.map (·.2)
  | .toolCall, r => r.arguments.elim [] fun d => d.entries.map (·.2)
  | .opening, _ | .completion, _ | .progress, _ | .logLevel, _ | .prompt, _
  | .resource, _ => []

/-- The content of an envelope, which is the only thing in it that may refuse to be written. -/
def contents : (k : EnvelopeKind) → k.Carrier → List Content
  | .sampling, r => r.messages.map (·.content)
  | .opening, _ | .confirmation, _ | .completion, _ | .progress, _ | .logLevel, _
  | .logMessage, _ | .prompt, _ | .resource, _ | .toolCall, _ => []

/-- The experimental payloads of an envelope. -/
def payloads : (k : EnvelopeKind) → k.Carrier → List RawPayload
  | .opening, r => r.capabilities.experimental.entries.map (·.2)
  | .confirmation, _ | .completion, _ | .progress, _ | .logLevel, _ | .logMessage, _
  | .prompt, _ | .resource, _ | .sampling, _ | .toolCall, _ => []

/-- The params of a valid envelope make the round trip. -/
theorem roundTrips (k : EnvelopeKind) (e : k.Carrier) (h : Valid e)
    (hvalues : ∀ v ∈ k.values e, v.Recovered) (hpayloads : ∀ p ∈ k.payloads e, p.Captured) :
    (Envelope.params : Codec k.Carrier).RoundTrips e := by
  cases k with
  | opening =>
    exact InitializeRequest.roundTrips fun m hm => hpayloads _ (List.mem_map_of_mem hm)
  | confirmation =>
    exact InitializedNotification.roundTrips fun m hm => hvalues _ (List.mem_map_of_mem hm)
  | completion => exact CompleteRequest.roundTrips e
  | progress => exact ProgressNotification.roundTrips h
  | logLevel => exact SetLevelRequest.roundTrips e
  | logMessage =>
    exact LoggingMessageNotification.roundTrips (hvalues _ (List.mem_singleton_self _))
  | prompt => exact GetPromptRequest.roundTrips e
  | resource => exact ReadResourceRequest.roundTrips e
  | sampling =>
    refine CreateMessageRequest.roundTrips h fun d hd m hm => hvalues _ ?_
    simp only [values, hd, Option.elim_some]
    exact List.mem_map_of_mem hm
  | toolCall =>
    refine CallToolRequest.roundTrips fun d hd m hm => hvalues _ ?_
    simp only [values, hd, Option.elim_some]
    exact List.mem_map_of_mem hm

end EnvelopeKind

end ContextProtocol
