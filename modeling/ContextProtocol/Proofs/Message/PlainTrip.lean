import ContextProtocol.Proofs.Message.Constructible
import ContextProtocol.Proofs.Message.ErrorData
import ContextProtocol.Proofs.Shape.Sparse

/-!
# Plain messages that read what they write

A plain message is written as it is, without an envelope around it. Its rules are what it needs to
come back: they keep every priority finite and every content valid. Whatever is unset is left out, so
that the reader puts its stand-in back, and that makes the text sparse.

Results:
* `Annotations.neat`, `Content.neat`, …: what the parts of plain messages write.
* `Resource.roundTrips`, …, `InitializeResult.roundTrips`: the messages come back.
* `PlainKind.wire_decode_encode`: every valid plain message comes back from its text, and its text
  has no member for what is unset.
-/
namespace ContextProtocol

open Form

/-! ## What is written -/

theorem Role.neat (role : Role) : (codec.encode role).Neat 0 := ⟨by cases role <;> trivial,
  by cases role <;> exact Nat.le_refl 0⟩

theorem Annotations.neat {a : Annotations} (h : Valid a) : (codec.encode a).Neat 2 :=
  Record.neat ⟨Field.fits_listed fun role _ => Role.neat role,
    Field.fits_optionalFloat fun _ hp => isFinite_priority h hp, trivial⟩

/-- Annotations that may be unset. -/
theorem Annotations.fits {annotations : Option Annotations} (h : check annotations = .ok ())
    (hw : (Field.optional "annotations" codec).omitted annotations = false) :
    ((Field.optional "annotations" codec).codec.encode annotations).Fits 2 "annotations" :=
  Field.fits_optional (fun a ha => fits_object rfl (by decide) (neat (check_eq_ok_iff.mp h a ha))) hw

theorem TextContent.neat {c : TextContent} (h : Valid c) : (codec.encode c).Neat 3 :=
  Record.neat ⟨fun _ => fits_text (by decide), Annotations.fits h, trivial⟩

theorem ImageContent.neat {c : ImageContent} (h : Valid c) : (codec.encode c).Neat 3 :=
  Record.neat ⟨fun _ => fits_text (by decide), fun _ => fits_text (by decide), Annotations.fits h,
    trivial⟩

theorem ResourceContent.neat {c : ResourceContent} (h : Valid c) : (codec.encode c).Neat 3 :=
  Record.neat ⟨fun _ => fits_text (by decide), Field.fits_optionalText (by decide),
    Field.fits_optionalText (by decide), Field.fits_optionalText (by decide),
    Annotations.fits (valid_iff.mp h).2.2, trivial⟩

/-- A tag is no idle member, and the members behind it are in another order only. -/
theorem neat_taggedForm {n : Nat} {field tag : String} {members : List (String × Form)}
    (hfield : field ≠ "details") (h : (Form.object members).Neat (n + 1)) :
    (taggedForm field tag (.object members)).Neat (n + 1) := by
  refine neat_object fun m hm => ?_
  rcases List.mem_cons.mp hm with rfl | hm
  · exact fits_text hfield
  · exact h.sorted.fits_member hm

theorem Content.neat {c : Content} (h : Valid c) : c.form.Neat 3 := by
  have htag : typeField ≠ "details" := by decide
  cases c with
  | text c => exact neat_taggedForm htag (TextContent.neat h)
  | image c => exact neat_taggedForm htag (ImageContent.neat h)
  | resource c => exact neat_taggedForm htag (ResourceContent.neat h)

theorem Turn.neat (name : String) {t : Turn} (h : Valid t.content) :
    ((codec name).encode t).Neat 4 :=
  Record.neat ⟨fun _ => (fits_text (by decide)).mono (Nat.zero_le _),
    fun _ => fits_object rfl (by decide) (Content.neat h), trivial⟩

/-! ## Resources -/

namespace ResourceContent

theorem roundTrips {c : ResourceContent} (h : Valid c) : codec.RoundTrips c :=
  Record.roundTrips (by decide) (hold h)

end ResourceContent

namespace Resource

variable {r : Resource} (h : Valid r)
include h

theorem roundTrips : record.codec.RoundTrips r :=
  Record.roundTrips (by decide) ⟨Field.holds_required (.string _), Field.holds_required (.string _),
    Field.holds_optionalText _, Field.holds_optionalText _, Annotations.holds (valid_iff.mp h).2.2,
    trivial⟩

theorem neat : (record.codec.encode r).Neat 3 :=
  Record.neat ⟨fun _ => fits_text (by decide), fun _ => fits_text (by decide),
    Field.fits_optionalText (by decide), Field.fits_optionalText (by decide),
    Annotations.fits (valid_iff.mp h).2.2, trivial⟩

end Resource

namespace ResourceTemplate

variable {t : ResourceTemplate} (h : Valid t)
include h

theorem roundTrips : record.codec.RoundTrips t :=
  Record.roundTrips (by decide) ⟨Field.holds_required (.string _), Field.holds_required (.string _),
    Field.holds_optionalText _, Field.holds_optionalText _, Annotations.holds (valid_iff.mp h).2.2,
    trivial⟩

theorem neat : (record.codec.encode t).Neat 3 :=
  Record.neat ⟨fun _ => fits_text (by decide), fun _ => fits_text (by decide),
    Field.fits_optionalText (by decide), Field.fits_optionalText (by decide),
    Annotations.fits (valid_iff.mp h).2.2, trivial⟩

end ResourceTemplate

namespace ReadResourceResult

variable {r : ReadResourceResult} (h : Valid r)
include h

theorem valid_contents : ∀ c ∈ r.contents, Valid c := checkEach_eq_ok_iff.mp h

theorem roundTrips : record.codec.RoundTrips r :=
  Record.roundTrips (by decide)
    ⟨Field.holds_required (.list fun c hc => ResourceContent.roundTrips (valid_contents h c hc)),
      trivial⟩

theorem neat : (record.codec.encode r).Neat 5 :=
  Record.neat ⟨fun _ => fits_items (by decide) fun c hc => ResourceContent.neat (valid_contents h c hc),
    trivial⟩

end ReadResourceResult

/-! ## Pages -/

namespace Page

variable {α Step : Type} [Paged α] [Message α] [Validated α Step] {p : Page α}

omit [Message α] in
theorem valid_items (h : Valid p) : ∀ a ∈ p.items, Valid a := checkEach_eq_ok_iff.mp h

/-- A page comes back when its items do. -/
theorem roundTrips (h : Valid p) (hname : Paged.itemsName α ≠ "nextCursor")
    (hitems : ∀ a : α, Valid a → Message.codec.RoundTrips a) :
    (record : Record (Page α)).codec.RoundTrips p :=
  Record.roundTrips (List.nodup_cons.mpr ⟨fun hmem => hname (List.mem_singleton.mp hmem),
      List.nodup_singleton _⟩)
    ⟨Field.holds_required (.list fun a ha => hitems a (valid_items h a ha)),
      Field.holds_optionalText _, trivial⟩

theorem neat {n : Nat} (h : Valid p)
    (hname : Paged.itemsName α ∉ ["audience", "arguments", "hints"])
    (hitems : ∀ a : α, Valid a → (Message.codec.encode a).Neat n) :
    ((record : Record (Page α)).codec.encode p).Neat (n + 2) :=
  Record.neat ⟨fun _ => fits_items hname fun a ha => hitems a (valid_items h a ha),
    Field.fits_optionalText (by decide), trivial⟩

end Page

/-! ## Prompts -/

namespace PromptArgument

theorem roundTrips (a : PromptArgument) : record.codec.RoundTrips a :=
  Record.roundTrips (by decide) ⟨Field.holds_required (.string _), Field.holds_optionalText _,
    Field.holds_optionalBool _, trivial⟩

theorem neat (a : PromptArgument) : (record.codec.encode a).Neat 1 :=
  Record.neat ⟨fun _ => fits_text (by decide), Field.fits_optionalText (by decide),
    Field.fits_optionalBool (by decide), trivial⟩

end PromptArgument

namespace Prompt

theorem roundTrips (p : Prompt) : record.codec.RoundTrips p :=
  Record.roundTrips (by decide) ⟨Field.holds_required (.string _), Field.holds_optionalText _,
    Field.holds_listed fun a _ => a.roundTrips, trivial⟩

theorem neat (p : Prompt) : (record.codec.encode p).Neat 3 :=
  Record.neat ⟨fun _ => fits_text (by decide), Field.fits_optionalText (by decide),
    Field.fits_listed fun a _ => a.neat, trivial⟩

end Prompt

namespace GetPromptResult

variable {r : GetPromptResult} (h : Valid r)
include h

theorem valid_contents : ∀ t ∈ r.messages, Valid t.content := (Turn.checkAll_eq_ok_iff.mp h).2

theorem roundTrips : record.codec.RoundTrips r :=
  Record.roundTrips (by decide) ⟨Field.holds_optionalText _,
    Field.holds_required (.list fun t ht => Turn.roundTrips _ (valid_contents h t ht)), trivial⟩

theorem neat : (record.codec.encode r).Neat 6 :=
  Record.neat ⟨Field.fits_optionalText (by decide),
    fun _ => fits_items (by decide) fun t ht => Turn.neat _ (valid_contents h t ht), trivial⟩

end GetPromptResult

/-! ## Results of calls -/

namespace CallToolResult

variable {r : CallToolResult} (h : Valid r)
include h

theorem valid_contents : ∀ c ∈ r.content, Valid c := checkEach_eq_ok_iff.mp h

theorem roundTrips : record.codec.RoundTrips r :=
  Record.roundTrips (by decide)
    ⟨Field.holds_required (.list fun c hc => Content.roundTrips (valid_contents h c hc)),
      Field.holds_flag _, trivial⟩

theorem neat : (record.codec.encode r).Neat 5 :=
  Record.neat ⟨fun _ => fits_items (by decide) fun c hc => Content.neat (valid_contents h c hc),
    Field.fits_flag, trivial⟩

end CallToolResult

namespace CompletionValues

theorem roundTrips (c : CompletionValues) : record.codec.RoundTrips c :=
  Record.roundTrips (by decide) ⟨Field.holds_required (.list fun s _ => .string s),
    Field.holds_optional fun n _ => ⟨.uint64 n, Codec.present_uint64 n⟩,
    Field.holds_optionalBool _, trivial⟩

theorem neat (c : CompletionValues) : (record.codec.encode c).Neat 2 :=
  Record.neat ⟨fun _ => fits_items (by decide) fun s _ => ⟨trivial, Nat.le_refl 0⟩,
    Field.fits_optional fun n _ => ⟨rfl, trivial, Nat.zero_le _⟩,
    Field.fits_optionalBool (by decide), trivial⟩

end CompletionValues

namespace CompleteResult

theorem roundTrips (r : CompleteResult) : record.codec.RoundTrips r :=
  Record.roundTrips (by decide) ⟨Field.holds_required r.completion.roundTrips, trivial⟩

theorem neat (r : CompleteResult) : (record.codec.encode r).Neat 3 :=
  Record.neat ⟨fun _ => fits_object rfl (by decide) r.completion.neat, trivial⟩

end CompleteResult

theorem Reference.neat (r : Reference) : (record.codec.encode r).Neat 1 :=
  Record.neat ⟨fun _ => fits_text (by decide), Field.fits_optionalText (by decide),
    Field.fits_optionalText (by decide), trivial⟩

/-! ## Sampling -/

namespace StopReason

theorem roundTrips (reason : StopReason) : codec.RoundTrips reason := by
  have hname : (all.map fun r => (r.text, r)).find? (fun w => w.2 == reason) =
      some (reason.text, reason) := by
    cases reason <;> rfl
  exact Codec.RoundTrips.word hname (by cases reason <;> rfl)

theorem present (reason : StopReason) : codec.Present reason := by
  cases reason <;> exact Codec.present_of_string rfl

end StopReason

namespace CreateMessageResult

variable {r : CreateMessageResult} (h : Valid r)
include h

theorem valid_content : Valid r.content := by
  obtain ⟨u, -, h⟩ := Outcome.bind_eq_ok_iff.mp h
  exact Outcome.mapError_eq_ok_iff.mp h

theorem roundTrips : record.codec.RoundTrips r :=
  Record.roundTrips (by decide) ⟨Field.holds_required (Role.roundTrips _),
    Field.holds_required (Content.roundTrips (valid_content h)), Field.holds_required (.string _),
    Field.holds_optional fun reason _ => ⟨reason.roundTrips, reason.present⟩, trivial⟩

theorem neat : (record.codec.encode r).Neat 4 :=
  Record.neat ⟨fun _ => fits_text (by decide),
    fun _ => fits_object rfl (by decide) (Content.neat (valid_content h)),
    fun _ => fits_text (by decide), Field.fits_optional fun reason _ => fits_text (by decide),
    trivial⟩

end CreateMessageResult

theorem ModelHint.neat (hint : ModelHint) : (record.codec.encode hint).Neat 1 :=
  Record.neat ⟨Field.fits_optionalText (by decide), trivial⟩

theorem ModelPreferences.neat {p : ModelPreferences} (h : Valid p) :
    (record.codec.encode p).Neat 3 := by
  obtain ⟨hcost, hspeed, hintelligence⟩ := valid_iff.mp h
  exact Record.neat ⟨Field.fits_listed fun hint _ => hint.neat,
    Field.fits_optionalFloat (isFinite_of_checkUnit hcost),
    Field.fits_optionalFloat (isFinite_of_checkUnit hspeed),
    Field.fits_optionalFloat (isFinite_of_checkUnit hintelligence), trivial⟩

/-! ## The handshake -/

theorem Implementation.neat (i : Implementation) : (record.codec.encode i).Neat 1 :=
  Record.neat ⟨fun _ => fits_text (by decide), fun _ => fits_text (by decide), trivial⟩

theorem ListCapability.neat (name : String) (c : ListCapability) :
    ((codec name).encode c).Neat 1 :=
  Record.neat ⟨Field.fits_optionalBool (by decide), trivial⟩

theorem Marker.neat (name : String) (m : Marker) : ((codec name).encode m).Neat 1 :=
  Record.neat trivial

namespace ResourcesCapability

theorem roundTrips (c : ResourcesCapability) : record.codec.RoundTrips c :=
  Record.roundTrips (by decide)
    ⟨Field.holds_optionalBool _, Field.holds_optionalBool _, trivial⟩

theorem neat (c : ResourcesCapability) : (record.codec.encode c).Neat 1 :=
  Record.neat ⟨Field.fits_optionalBool (by decide), Field.fits_optionalBool (by decide), trivial⟩

end ResourcesCapability

/-- Experimental payloads are copied under their names. -/
theorem ExperimentalCapabilities.fits {d : ExperimentalCapabilities}
    (hw : (Field.named "experimental" RawPayload.codec).omitted d = false) :
    ((Field.named "experimental" RawPayload.codec).codec.encode d).Fits 1 "experimental" :=
  Field.fits_named (fun _ _ => ⟨rfl, trivial, Nat.le_refl 0⟩) hw

namespace ServerCapabilities

theorem roundTrips {c : ServerCapabilities} (h : ∀ e ∈ c.experimental.entries, e.2.Captured) :
    record.codec.RoundTrips c :=
  Record.roundTrips (by decide)
    ⟨Field.holds_named fun e he => RawPayload.roundTrips (h e he),
      Field.holds_optional fun m _ => ⟨Marker.roundTrips _ m, Codec.present_of_object rfl⟩,
      Field.holds_optional fun p _ => ⟨ListCapability.roundTrips _ p, Codec.present_of_object rfl⟩,
      Field.holds_optional fun r _ => ⟨r.roundTrips, Codec.present_of_object rfl⟩,
      Field.holds_optional fun t _ => ⟨ListCapability.roundTrips _ t, Codec.present_of_object rfl⟩,
      trivial⟩

theorem neat (c : ServerCapabilities) : (record.codec.encode c).Neat 2 :=
  Record.neat ⟨ExperimentalCapabilities.fits,
    Field.fits_optional fun m _ => fits_object rfl (by decide) (Marker.neat _ m),
    Field.fits_optional fun p _ => fits_object rfl (by decide) (ListCapability.neat _ p),
    Field.fits_optional fun r _ => fits_object rfl (by decide) r.neat,
    Field.fits_optional fun t _ => fits_object rfl (by decide) (ListCapability.neat _ t), trivial⟩

end ServerCapabilities

theorem ClientCapabilities.neat (c : ClientCapabilities) : (record.codec.encode c).Neat 2 :=
  Record.neat ⟨ExperimentalCapabilities.fits,
    Field.fits_optional fun r _ => fits_object rfl (by decide) (ListCapability.neat _ r),
    Field.fits_optional fun m _ => fits_object rfl (by decide) (Marker.neat _ m), trivial⟩

namespace InitializeResult

theorem roundTrips {r : InitializeResult}
    (h : ∀ e ∈ r.capabilities.experimental.entries, e.2.Captured) : record.codec.RoundTrips r :=
  Record.roundTrips (by decide) ⟨Field.holds_required (.string _),
    Field.holds_required (ServerCapabilities.roundTrips h),
    Field.holds_required (Implementation.roundTrips _), Field.holds_optionalText _, trivial⟩

theorem neat (r : InitializeResult) : (record.codec.encode r).Neat 3 :=
  Record.neat ⟨fun _ => fits_text (by decide),
    fun _ => fits_object rfl (by decide) r.capabilities.neat,
    fun _ => fits_object rfl (by decide) (r.serverInfo.neat.mono (by decide)),
    Field.fits_optionalText (by decide), trivial⟩

end InitializeResult

/-! ## Error data -/

theorem ValidationFailure.neat (f : ValidationFailure) : (record.codec.encode f).Neat 1 :=
  Record.neat ⟨fun _ => fits_text (by decide), fun _ => fits_text (by decide), trivial⟩

theorem ValidationDetails.neat (d : ValidationDetails) : (codec.encode d).Neat 3 :=
  Record.neat ⟨fun _ => fits_items (by decide) fun f _ => f.neat, trivial⟩

theorem ToolExecutionDetails.neat (d : ToolExecutionDetails) : (codec.encode d).Neat 1 := by
  refine Record.neat ⟨fun _ => fits_text (by decide), fun _ => fits_text (by decide),
    fun hw => ⟨?_, trivial, Nat.le_refl 0⟩, trivial⟩
  show ("details" == "details" && d.details.isEmpty) = false
  rw [Bool.and_eq_false_imp]
  exact fun _ => hw

/-! ## All plain messages -/

/-- The types of plain messages. -/
inductive PlainKind where
  | resourceContent
  | resource
  | resourceTemplate
  | readResourceResult
  | listResourcesResult
  | listResourceTemplatesResult
  | prompt
  | promptArgument
  | getPromptResult
  | listPromptsResult
  | callToolResult
  | completeResult
  | reference
  | createMessageResult
  | modelPreferences
  | annotations
  | implementation
  | serverCapabilities
  | clientCapabilities
  | initializeResult
  | validationDetails
  | toolExecutionDetails

namespace PlainKind

/-- The messages of a type. -/
abbrev Carrier : PlainKind → Type
  | .resourceContent => ResourceContent
  | .resource => Resource
  | .resourceTemplate => ResourceTemplate
  | .readResourceResult => ReadResourceResult
  | .listResourcesResult => Page Resource
  | .listResourceTemplatesResult => Page ResourceTemplate
  | .prompt => Prompt
  | .promptArgument => PromptArgument
  | .getPromptResult => GetPromptResult
  | .listPromptsResult => Page Prompt
  | .callToolResult => CallToolResult
  | .completeResult => CompleteResult
  | .reference => Reference
  | .createMessageResult => CreateMessageResult
  | .modelPreferences => ModelPreferences
  | .annotations => Annotations
  | .implementation => Implementation
  | .serverCapabilities => ServerCapabilities
  | .clientCapabilities => ClientCapabilities
  | .initializeResult => InitializeResult
  | .validationDetails => ValidationDetails
  | .toolExecutionDetails => ToolExecutionDetails

/-- The steps in the construction of a message. -/
abbrev Step : PlainKind → Type
  | .resourceContent => ResourceContentStep
  | .resource | .resourceTemplate => ResourceStep
  | .prompt => PromptStep
  | .promptArgument => PromptArgumentStep
  | .completeResult => CompleteStep
  | .modelPreferences => ModelPreferencesStep
  | .annotations => AnnotationsStep
  | .serverCapabilities => ServerCapabilityStep
  | .clientCapabilities => ClientCapabilityStep
  | .initializeResult => InitializeResultStep
  | .readResourceResult | .listResourcesResult | .listResourceTemplatesResult | .getPromptResult
  | .listPromptsResult | .callToolResult | .reference | .createMessageResult | .implementation
  | .validationDetails | .toolExecutionDetails => Empty

instance message : (k : PlainKind) → Message k.Carrier
  | .resourceContent => inferInstanceAs (Message ResourceContent)
  | .resource => inferInstanceAs (Message Resource)
  | .resourceTemplate => inferInstanceAs (Message ResourceTemplate)
  | .readResourceResult => inferInstanceAs (Message ReadResourceResult)
  | .listResourcesResult => inferInstanceAs (Message (Page Resource))
  | .listResourceTemplatesResult => inferInstanceAs (Message (Page ResourceTemplate))
  | .prompt => inferInstanceAs (Message Prompt)
  | .promptArgument => inferInstanceAs (Message PromptArgument)
  | .getPromptResult => inferInstanceAs (Message GetPromptResult)
  | .listPromptsResult => inferInstanceAs (Message (Page Prompt))
  | .callToolResult => inferInstanceAs (Message CallToolResult)
  | .completeResult => inferInstanceAs (Message CompleteResult)
  | .reference => inferInstanceAs (Message Reference)
  | .createMessageResult => inferInstanceAs (Message CreateMessageResult)
  | .modelPreferences => inferInstanceAs (Message ModelPreferences)
  | .annotations => inferInstanceAs (Message Annotations)
  | .implementation => inferInstanceAs (Message Implementation)
  | .serverCapabilities => inferInstanceAs (Message ServerCapabilities)
  | .clientCapabilities => inferInstanceAs (Message ClientCapabilities)
  | .initializeResult => inferInstanceAs (Message InitializeResult)
  | .validationDetails => inferInstanceAs (Message ValidationDetails)
  | .toolExecutionDetails => inferInstanceAs (Message ToolExecutionDetails)

instance validated : (k : PlainKind) → Validated k.Carrier k.Step
  | .resourceContent => inferInstanceAs (Validated ResourceContent ResourceContentStep)
  | .resource => inferInstanceAs (Validated Resource ResourceStep)
  | .resourceTemplate => inferInstanceAs (Validated ResourceTemplate ResourceStep)
  | .readResourceResult => inferInstanceAs (Validated ReadResourceResult Empty)
  | .listResourcesResult => inferInstanceAs (Validated (Page Resource) Empty)
  | .listResourceTemplatesResult => inferInstanceAs (Validated (Page ResourceTemplate) Empty)
  | .prompt => inferInstanceAs (Validated Prompt PromptStep)
  | .promptArgument => inferInstanceAs (Validated PromptArgument PromptArgumentStep)
  | .getPromptResult => inferInstanceAs (Validated GetPromptResult Empty)
  | .listPromptsResult => inferInstanceAs (Validated (Page Prompt) Empty)
  | .callToolResult => inferInstanceAs (Validated CallToolResult Empty)
  | .completeResult => inferInstanceAs (Validated CompleteResult CompleteStep)
  | .reference => inferInstanceAs (Validated Reference Empty)
  | .createMessageResult => inferInstanceAs (Validated CreateMessageResult Empty)
  | .modelPreferences => inferInstanceAs (Validated ModelPreferences ModelPreferencesStep)
  | .annotations => inferInstanceAs (Validated Annotations AnnotationsStep)
  | .implementation => inferInstanceAs (Validated Implementation Empty)
  | .serverCapabilities => inferInstanceAs (Validated ServerCapabilities ServerCapabilityStep)
  | .clientCapabilities => inferInstanceAs (Validated ClientCapabilities ClientCapabilityStep)
  | .initializeResult => inferInstanceAs (Validated InitializeResult InitializeResultStep)
  | .validationDetails => inferInstanceAs (Validated ValidationDetails Empty)
  | .toolExecutionDetails => inferInstanceAs (Validated ToolExecutionDetails Empty)

/-- The experimental payloads of a message. -/
def payloads : (k : PlainKind) → k.Carrier → List RawPayload
  | .serverCapabilities, c => c.experimental.entries.map (·.2)
  | .clientCapabilities, c => c.experimental.entries.map (·.2)
  | .initializeResult, r => r.capabilities.experimental.entries.map (·.2)
  | .resourceContent, _ | .resource, _ | .resourceTemplate, _ | .readResourceResult, _
  | .listResourcesResult, _ | .listResourceTemplatesResult, _ | .prompt, _ | .promptArgument, _
  | .getPromptResult, _ | .listPromptsResult, _ | .callToolResult, _ | .completeResult, _
  | .reference, _ | .createMessageResult, _ | .modelPreferences, _ | .annotations, _
  | .implementation, _ | .validationDetails, _ | .toolExecutionDetails, _ => []

/-- The fields of a message, in the order they are written in, and whether they are unset. A list, a
map, a mark or a text is unset when there is nothing in it; the other fields have to be there. -/
def fields : (k : PlainKind) → k.Carrier → List (String × Bool)
  | .resourceContent, c => [("uri", false), ("mimeType", c.mimeType.isNone),
      ("text", c.text.isNone), ("blob", c.blob.isNone), ("annotations", c.annotations.isNone)]
  | .resource, r => [("uri", false), ("name", false),
      ("description", r.details.description.isNone), ("mimeType", r.details.mimeType.isNone),
      ("annotations", r.details.annotations.isNone)]
  | .resourceTemplate, t => [("uriTemplate", false), ("name", false),
      ("description", t.details.description.isNone), ("mimeType", t.details.mimeType.isNone),
      ("annotations", t.details.annotations.isNone)]
  | .readResourceResult, _ => [("contents", false)]
  | .listResourcesResult, p => [("resources", false), ("nextCursor", p.nextCursor.isNone)]
  | .listResourceTemplatesResult, p =>
    [("resourceTemplates", false), ("nextCursor", p.nextCursor.isNone)]
  | .prompt, p => [("name", false), ("description", p.description.isNone),
      ("arguments", p.arguments.isEmpty)]
  | .promptArgument, a => [("name", false), ("description", a.description.isNone),
      ("required", a.required.isNone)]
  | .getPromptResult, r => [("description", r.description.isNone), ("messages", false)]
  | .listPromptsResult, p => [("prompts", false), ("nextCursor", p.nextCursor.isNone)]
  | .callToolResult, r => [("content", false), ("isError", !r.isError)]
  | .completeResult, _ => [("completion", false)]
  | .reference, r => [("type", false), ("name", r.name.isNone), ("uri", r.uri.isNone)]
  | .createMessageResult, r => [("role", false), ("content", false), ("model", false),
      ("stopReason", r.stopReason.isNone)]
  | .modelPreferences, p => [("hints", p.hints.isEmpty), ("costPriority", p.costPriority.isNone),
      ("speedPriority", p.speedPriority.isNone),
      ("intelligencePriority", p.intelligencePriority.isNone)]
  | .annotations, a => [("audience", a.audience.isEmpty), ("priority", a.priority.isNone)]
  | .implementation, _ => [("name", false), ("version", false)]
  | .serverCapabilities, c => [("experimental", c.experimental.isEmpty),
      ("logging", c.logging.isNone), ("prompts", c.prompts.isNone),
      ("resources", c.resources.isNone), ("tools", c.tools.isNone)]
  | .clientCapabilities, c => [("experimental", c.experimental.isEmpty), ("roots", c.roots.isNone),
      ("sampling", c.sampling.isNone)]
  | .initializeResult, r => [("protocolVersion", false), ("capabilities", false),
      ("serverInfo", false), ("instructions", r.instructions.isNone)]
  | .validationDetails, _ => [("validation", false)]
  | .toolExecutionDetails, d => [("toolName", false), ("errorKind", false),
      ("details", d.details.isEmpty)]

variable (k : PlainKind) (v : k.Carrier)

/-- Exactly the fields that are set are written, in their order. -/
theorem names_encode : ((Message.codec : Codec k.Carrier).encode v).members.map (·.1) =
    ((k.fields v).filter fun field => !field.2).map (·.1) := by
  cases k <;> exact Fields.map_fst_encode _ _

section Valid

variable (h : Valid v)
include h

theorem roundTrips (hpayloads : ∀ p ∈ k.payloads v, p.Captured) :
    (Message.codec : Codec k.Carrier).RoundTrips v := by
  cases k with
  | resourceContent => exact ResourceContent.roundTrips h
  | resource => exact Resource.roundTrips h
  | resourceTemplate => exact ResourceTemplate.roundTrips h
  | readResourceResult => exact ReadResourceResult.roundTrips h
  | listResourcesResult =>
    exact Page.roundTrips (α := Resource) h (by decide) fun r hr => Resource.roundTrips hr
  | listResourceTemplatesResult =>
    exact Page.roundTrips (α := ResourceTemplate) h (by decide) fun t ht => ResourceTemplate.roundTrips ht
  | prompt => exact Prompt.roundTrips v
  | promptArgument => exact PromptArgument.roundTrips v
  | getPromptResult => exact GetPromptResult.roundTrips h
  | listPromptsResult =>
    exact Page.roundTrips (α := Prompt) h (by decide) fun p _ => Prompt.roundTrips p
  | callToolResult => exact CallToolResult.roundTrips h
  | completeResult => exact CompleteResult.roundTrips v
  | reference => exact Reference.roundTrips v
  | createMessageResult => exact CreateMessageResult.roundTrips h
  | modelPreferences => exact ModelPreferences.roundTrips h
  | annotations => exact Annotations.roundTrips h
  | implementation => exact Implementation.roundTrips v
  | serverCapabilities =>
    exact ServerCapabilities.roundTrips fun e he => hpayloads _ (List.mem_map_of_mem he)
  | clientCapabilities =>
    exact ClientCapabilities.roundTrips fun e he => hpayloads _ (List.mem_map_of_mem he)
  | initializeResult =>
    exact InitializeResult.roundTrips fun e he => hpayloads _ (List.mem_map_of_mem he)
  | validationDetails => exact Record.roundTrips (by decide) v.taggable.hold
  | toolExecutionDetails => exact Record.roundTrips (by decide) v.taggable.hold

theorem neat : ((Message.codec : Codec k.Carrier).encode v).Neat 6 := by
  -- the deepest is a prompt: messages, message, content, annotations, audience
  cases k with
  | resourceContent => exact (ResourceContent.neat h).mono (by decide)
  | resource => exact (Resource.neat h).mono (by decide)
  | resourceTemplate => exact (ResourceTemplate.neat h).mono (by decide)
  | readResourceResult => exact (ReadResourceResult.neat h).mono (by decide)
  | listResourcesResult =>
    exact (Page.neat (α := Resource) h (by decide) fun r hr => Resource.neat hr).mono (by decide)
  | listResourceTemplatesResult =>
    exact (Page.neat (α := ResourceTemplate) h (by decide) fun t ht =>
      ResourceTemplate.neat ht).mono (by decide)
  | prompt => exact (Prompt.neat v).mono (by decide)
  | promptArgument => exact (PromptArgument.neat v).mono (by decide)
  | getPromptResult => exact GetPromptResult.neat h
  | listPromptsResult =>
    exact (Page.neat (α := Prompt) h (by decide) fun p _ => Prompt.neat p).mono (by decide)
  | callToolResult => exact (CallToolResult.neat h).mono (by decide)
  | completeResult => exact (CompleteResult.neat v).mono (by decide)
  | reference => exact (Reference.neat v).mono (by decide)
  | createMessageResult => exact (CreateMessageResult.neat h).mono (by decide)
  | modelPreferences => exact (ModelPreferences.neat h).mono (by decide)
  | annotations => exact (Annotations.neat h).mono (by decide)
  | implementation => exact (Implementation.neat v).mono (by decide)
  | serverCapabilities => exact (ServerCapabilities.neat v).mono (by decide)
  | clientCapabilities => exact (ClientCapabilities.neat v).mono (by decide)
  | initializeResult => exact (InitializeResult.neat v).mono (by decide)
  | validationDetails => exact (ValidationDetails.neat v).mono (by decide)
  | toolExecutionDetails => exact (ToolExecutionDetails.neat v).mono (by decide)

end Valid

/-- Every valid plain message comes back from its text, with the texts of its experimental payloads
as they were. Its members are the fields that are set, and no object inside it has a member for what
is unset either. -/
theorem wire_decode_encode (h : Valid v) (hpayloads : ∀ p ∈ k.payloads v, p.Captured) :
    (Wire.decode (Wire.encode v).toUTF8 : Traced DecodeError k.Carrier).result = .ok v ∧
      ((Message.codec : Codec k.Carrier).encode v).members.map (·.1) =
        ((k.fields v).filter fun field => !field.2).map (·.1) ∧
      ((Message.codec : Codec k.Carrier).encode v).Sparse := by
  have hneat := neat k v h
  have hdepth : ((Message.codec : Codec k.Carrier).encode v).depth ≤ Origin.maxDepth :=
    Nat.le_trans hneat.2 (by decide)
  exact ⟨Wire.decode_eq_ok_iff.mpr ⟨(roundTrips k v h hpayloads).run hdepth, h⟩, names_encode k v,
    hneat.1⟩

theorem wire_decode_encode_answer :
    let answer : Carrier .initializeResult :=
      ⟨"2024-11-05", ⟨.ofList [("batch", ⟨"[1 ]"⟩)], some ⟨⟩, some ⟨some true⟩, none, none⟩,
        ⟨"server", "1"⟩, none⟩
    Valid answer ∧ (∀ p ∈ payloads .initializeResult answer, p.Captured) ∧
      (Wire.decode (Wire.encode answer).toUTF8 :
        Traced DecodeError (Carrier .initializeResult)).result = .ok answer ∧
      ((Message.codec : Codec (Carrier .initializeResult)).encode answer).members.map (·.1) =
        ["protocolVersion", "capabilities", "serverInfo"] ∧
      ((Message.codec : Codec (Carrier .initializeResult)).encode answer).Sparse := by
  intro answer
  have hvalid : Valid answer := rfl
  have hpayloads : ∀ p ∈ payloads .initializeResult answer, p.Captured := by
    intro p hp
    obtain rfl : p = ⟨"[1 ]"⟩ := List.mem_singleton.mp hp
    rfl
  exact ⟨hvalid, hpayloads, wire_decode_encode .initializeResult answer hvalid hpayloads⟩

end PlainKind

end ContextProtocol
