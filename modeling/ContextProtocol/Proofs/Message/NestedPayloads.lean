import ContextProtocol.Message.Tool
import ContextProtocol.Proofs.Message.Constructible
import ContextProtocol.Proofs.Message.ContentAnswer

/-!
# Payloads inside lists

Eight messages hold a list: four pages, the contents of a resource, the content of a call's result,
and the messages of a prompt and of a sample. Each looks at the elements of its list one by one, and
an element looks at the annotations and the resources inside it, so what is refused deep inside is
seen with the whole path to it.

Results:
* `ListKind.located`: an element that is refused says in which field.
* `ListKind.validate_of_checkEach`: a message is refused when its list is.
* `ListKind.payloads_obey`: the payloads inside a valid element obey their rules.
* `ListKind.elements_checked`: all of it for the eight messages, built or decoded.
-/
namespace ContextProtocol

/-! ## Where elements are refused -/

theorem Annotations.located_check (annotations : Option Annotations) :
    Located (check annotations) := by
  cases annotations with
  | none => exact .ok
  | some a => exact .within (by decide)

theorem ResourceContent.located (c : ResourceContent) : Located (validate c) := by
  refine .bind (.nonEmpty (by decide)) (.bind ?_ (Annotations.located_check _))
  unfold checkBody
  split
  · exact .refused (by decide)
  · exact .refused (by decide)
  · exact .ok

theorem Content.located (c : Content) : Located (validate c) := by
  cases c with
  | text c => exact Annotations.located_check c.annotations
  | image c => exact Annotations.located_check c.annotations
  | resource c => exact c.located

theorem Resource.located (r : Resource) : Located (validate r) :=
  .bind (.nonEmpty (by decide)) (.bind (.nonEmpty (by decide)) (Annotations.located_check _))

theorem ResourceTemplate.located (t : ResourceTemplate) : Located (validate t) :=
  .bind (.nonEmpty (by decide)) (.bind (.nonEmpty (by decide)) (Annotations.located_check _))

theorem Prompt.located_checkArguments (arguments : List PromptArgument) :
    ∀ (i : Nat) (seen : List String), Located (checkArguments i seen arguments) := by
  induction arguments with
  | nil => exact fun _ _ => .ok
  | cons a rest ih =>
    intro i seen
    refine .bind (.within (by simp)) ?_
    split
    · exact .refused (by decide)
    · exact ih _ _

theorem Prompt.located (p : Prompt) : Located (validate p) :=
  .bind (.nonEmpty (by decide)) (located_checkArguments _ _ _)

theorem Tool.located (t : Tool) : Located (validate t) := by
  refine .bind (.nonEmpty (by decide)) ?_
  unfold checkSchema
  split
  · exact .refused (by decide)
  · cases t.inputSchema.shapeErrors with
    | nil => exact .ok
    | cons first rest =>
      show Located ((Except.error first).mapError (·.within "inputSchema"))
      exact .within (by decide)

/-! ## What is inside -/

/-- The resource that a content holds. -/
def Content.resources : Content → List ResourceContent
  | .resource c => [c]
  | .text _ | .image _ => []

theorem Annotations.all_obey {annotations : Option Annotations} (h : check annotations = .ok ()) :
    ∀ a ∈ annotations.toList, a.obeys = true := fun a ha =>
  (obeys_iff a).mpr (check_eq_ok_iff.mp h a (Option.mem_toList.mp ha))

theorem ResourceContent.annotations_obey {c : ResourceContent} (h : Valid c) :
    ∀ a ∈ c.annotations.toList, a.obeys = true :=
  Annotations.all_obey (valid_iff.mp h).2.2

theorem Content.annotations_obey {c : Content} (h : Valid c) :
    ∀ a ∈ c.annotations.toList, a.obeys = true := by
  cases c with
  | text c => exact Annotations.all_obey h
  | image c => exact Annotations.all_obey h
  | resource c => exact c.annotations_obey h

theorem Content.resources_obey {c : Content} (h : Valid c) : ∀ r ∈ c.resources, r.obeys = true := by
  cases c with
  | text c => exact List.forall_mem_nil _
  | image c => exact List.forall_mem_nil _
  | resource c => exact List.forall_mem_singleton.mpr ((ResourceContent.obeys_iff c).mpr h)

/-! ## Conversations -/

/-- A conversation is refused when the content of one of its messages is. -/
theorem Turn.checkAll_of_checkEach {turns : List Turn} {e : ConstructionError}
    (h : checkEach "messages" ".content" validate (turns.map Turn.content) = .error e) :
    checkAll turns = .error e := by
  rw [checkEach_map] at h
  cases turns with
  | nil => cases h
  | cons turn rest => exact h

/-! ## The eight messages -/

/-- The messages that hold a list. -/
inductive ListKind where
  | tools
  | prompts
  | resources
  | resourceTemplates
  | contents
  | callContent
  | promptMessages
  | samplingMessages

namespace ListKind

/-- The messages of a kind. -/
abbrev Carrier : ListKind → Type
  | .tools => Page Tool
  | .prompts => Page Prompt
  | .resources => Page Resource
  | .resourceTemplates => Page ResourceTemplate
  | .contents => ReadResourceResult
  | .callContent => CallToolResult
  | .promptMessages => GetPromptResult
  | .samplingMessages => CreateMessageRequest

/-- The steps in the construction of a message. -/
abbrev Step : ListKind → Type
  | .samplingMessages => CreateMessageStep
  | .tools | .prompts | .resources | .resourceTemplates | .contents | .callContent
  | .promptMessages => Empty

instance message : (k : ListKind) → Message k.Carrier
  | .tools => inferInstanceAs (Message (Page Tool))
  | .prompts => inferInstanceAs (Message (Page Prompt))
  | .resources => inferInstanceAs (Message (Page Resource))
  | .resourceTemplates => inferInstanceAs (Message (Page ResourceTemplate))
  | .contents => inferInstanceAs (Message ReadResourceResult)
  | .callContent => inferInstanceAs (Message CallToolResult)
  | .promptMessages => inferInstanceAs (Message GetPromptResult)
  | .samplingMessages => inferInstanceAs (Message CreateMessageRequest)

instance validated : (k : ListKind) → Validated k.Carrier k.Step
  | .tools => inferInstanceAs (Validated (Page Tool) Empty)
  | .prompts => inferInstanceAs (Validated (Page Prompt) Empty)
  | .resources => inferInstanceAs (Validated (Page Resource) Empty)
  | .resourceTemplates => inferInstanceAs (Validated (Page ResourceTemplate) Empty)
  | .contents => inferInstanceAs (Validated ReadResourceResult Empty)
  | .callContent => inferInstanceAs (Validated CallToolResult Empty)
  | .promptMessages => inferInstanceAs (Validated GetPromptResult Empty)
  | .samplingMessages => inferInstanceAs (Validated CreateMessageRequest CreateMessageStep)

/-- What the list holds. Of the messages of a conversation it is the content that is looked at. -/
abbrev Element : ListKind → Type
  | .tools => Tool
  | .prompts => Prompt
  | .resources => Resource
  | .resourceTemplates => ResourceTemplate
  | .contents => ResourceContent
  | .callContent | .promptMessages | .samplingMessages => Content

/-- The steps in the construction of an element. -/
abbrev ElementStep : ListKind → Type
  | .tools => ToolStep
  | .prompts => PromptStep
  | .resources | .resourceTemplates => ResourceStep
  | .contents => ResourceContentStep
  | .callContent | .promptMessages | .samplingMessages => Empty

instance element : (k : ListKind) → Validated k.Element k.ElementStep
  | .tools => inferInstanceAs (Validated Tool ToolStep)
  | .prompts => inferInstanceAs (Validated Prompt PromptStep)
  | .resources => inferInstanceAs (Validated Resource ResourceStep)
  | .resourceTemplates => inferInstanceAs (Validated ResourceTemplate ResourceStep)
  | .contents => inferInstanceAs (Validated ResourceContent ResourceContentStep)
  | .callContent | .promptMessages | .samplingMessages => inferInstanceAs (Validated Content Empty)

/-- The elements of the list. -/
def elements : (k : ListKind) → k.Carrier → List k.Element
  | .tools, p => p.items
  | .prompts, p => p.items
  | .resources, p => p.items
  | .resourceTemplates, p => p.items
  | .contents, r => r.contents
  | .callContent, r => r.content
  | .promptMessages, r => r.messages.map Turn.content
  | .samplingMessages, r => r.messages.map Turn.content

/-- The field with the list. -/
def list : ListKind → String
  | .tools => "tools"
  | .prompts => "prompts"
  | .resources => "resources"
  | .resourceTemplates => "resourceTemplates"
  | .contents => "contents"
  | .callContent => "content"
  | .promptMessages | .samplingMessages => "messages"

/-- Where in an item of the list the element is. -/
def suffix : ListKind → String
  | .promptMessages | .samplingMessages => ".content"
  | .tools | .prompts | .resources | .resourceTemplates | .contents | .callContent => ""

/-- The annotations inside an element. -/
def annotations : (k : ListKind) → k.Element → List Annotations
  | .tools, _ | .prompts, _ => []
  | .resources, r => r.details.annotations.toList
  | .resourceTemplates, t => t.details.annotations.toList
  | .contents, c => c.annotations.toList
  | .callContent, c | .promptMessages, c | .samplingMessages, c => c.annotations.toList

/-- The resource contents inside an element. -/
def resourceContents : (k : ListKind) → k.Element → List ResourceContent
  | .tools, _ | .prompts, _ | .resources, _ | .resourceTemplates, _ => []
  | .contents, c => [c]
  | .callContent, c | .promptMessages, c | .samplingMessages, c => c.resources

/-- What the constructors return. The pages have no constructor that takes a list; by default a page
is empty. -/
inductive Constructed : (k : ListKind) → k.Carrier → Prop where
  | noTools : Constructed .tools ⟨[], none⟩
  | noPrompts : Constructed .prompts ⟨[], none⟩
  | noResources : Constructed .resources ⟨[], none⟩
  | noResourceTemplates : Constructed .resourceTemplates ⟨[], none⟩
  | contents {contents : List ResourceContent} {r : ReadResourceResult}
    (h : (ReadResourceResult.new contents).result = .ok r) : Constructed .contents r
  | success {content : List Content} {r : CallToolResult}
    (h : (CallToolResult.success content).result = .ok r) : Constructed .callContent r
  | error {content : List Content} {r : CallToolResult}
    (h : (CallToolResult.error content).result = .ok r) : Constructed .callContent r
  | promptMessages {description : Option String} {messages : List Turn} {r : GetPromptResult}
    (h : (GetPromptResult.new description messages).result = .ok r) : Constructed .promptMessages r
  | samplingMessages {messages : List Turn} {maxTokens : UInt32} {steps : List CreateMessageStep}
    {r : CreateMessageRequest} (h : (CreateMessageRequest.new messages maxTokens steps).result = .ok r) :
    Constructed .samplingMessages r

variable {k : ListKind}

theorem Constructed.valid {v : k.Carrier} (h : k.Constructed v) : Valid v := by
  cases h with
  | noTools | noPrompts | noResources | noResourceTemplates => rfl
  | contents h => exact validate_of_build h
  | success h => exact validate_of_build h
  | error h => exact validate_of_build h
  | promptMessages h => exact validate_of_build h
  | samplingMessages h => exact validate_of_build h

/-- An element that is refused says in which field. -/
theorem located (a : k.Element) : Located (validate a) := by
  cases k with
  | tools => exact Tool.located a
  | prompts => exact Prompt.located a
  | resources => exact Resource.located a
  | resourceTemplates => exact ResourceTemplate.located a
  | contents => exact ResourceContent.located a
  | callContent => exact Content.located a
  | promptMessages => exact Content.located a
  | samplingMessages => exact Content.located a

/-- A message is refused when its list is, with the same error: the list is looked at first. -/
theorem validate_of_checkEach {v : k.Carrier} {e : ConstructionError}
    (h : checkEach k.list k.suffix validate (k.elements v) = .error e) : validate v = .error e := by
  cases k with
  | tools => exact h
  | prompts => exact h
  | resources => exact h
  | resourceTemplates => exact h
  | contents => exact h
  | callContent => exact h
  | promptMessages => exact Turn.checkAll_of_checkEach h
  | samplingMessages =>
    refine Outcome.bind_eq_error_iff.mpr (.inl ?_)
    exact Turn.checkAll_of_checkEach h

/-- The elements of a valid message are valid. -/
theorem valid_elements {v : k.Carrier} (h : Valid v) : ∀ a ∈ k.elements v, Valid a := by
  cases hlist : checkEach k.list k.suffix validate (k.elements v) with
  | ok u => exact checkEach_eq_ok_iff.mp hlist
  | error e =>
    have hrefused := validate_of_checkEach hlist
    rw [h] at hrefused
    cases hrefused

/-- The payloads inside a valid element obey their rules. -/
theorem payloads_obey {a : k.Element} (h : Valid a) : (∀ n ∈ k.annotations a, n.obeys = true) ∧
    ∀ c ∈ k.resourceContents a, c.obeys = true := by
  cases k with
  | tools => exact ⟨List.forall_mem_nil _, List.forall_mem_nil _⟩
  | prompts => exact ⟨List.forall_mem_nil _, List.forall_mem_nil _⟩
  | resources =>
    exact ⟨Annotations.all_obey (Resource.valid_iff.mp h).2.2, List.forall_mem_nil _⟩
  | resourceTemplates =>
    exact ⟨Annotations.all_obey (ResourceTemplate.valid_iff.mp h).2.2, List.forall_mem_nil _⟩
  | contents =>
    exact ⟨ResourceContent.annotations_obey h,
      List.forall_mem_singleton.mpr ((ResourceContent.obeys_iff a).mpr h)⟩
  | callContent => exact ⟨Content.annotations_obey h, Content.resources_obey h⟩
  | promptMessages => exact ⟨Content.annotations_obey h, Content.resources_obey h⟩
  | samplingMessages => exact ⟨Content.annotations_obey h, Content.resources_obey h⟩

/-- A message with an element that is not valid is refused with the error of the first one, seen
from its place in the list. In a valid message all payloads obey their rules, and what is built or
decoded is valid. -/
theorem elements_checked (k : ListKind) (v : k.Carrier) :
    ((∃ a ∈ k.elements v, ¬ Valid a) → ∃ before a after e,
      k.elements v = before ++ a :: after ∧ (∀ b ∈ before, Valid b) ∧ validate a = .error e ∧
        validate v = .error ⟨k.list ++ "[" ++ toString before.length ++ "]" ++ k.suffix ++ "." ++
          e.field, e.reason⟩) ∧
    (Valid v → ∀ a ∈ k.elements v, Valid a ∧ (∀ n ∈ k.annotations a, n.obeys = true) ∧
      ∀ c ∈ k.resourceContents a, c.obeys = true) ∧
    (k.Constructed v ∨
      (∃ bytes, (Wire.decode bytes : Traced DecodeError k.Carrier).result = .ok v) → Valid v) := by
  refine ⟨?_, fun h a ha => ?_, ?_⟩
  · rintro ⟨a, ha, hinvalid⟩
    cases hlist : checkEach k.list k.suffix validate (k.elements v) with
    | ok u => exact absurd (checkEach_eq_ok_iff.mp hlist a ha) hinvalid
    | error e =>
      obtain ⟨before, first, after, e', helements, hbefore, hfirst, rfl⟩ := checkEach_eq_error hlist
      refine ⟨before, first, after, e', helements, hbefore, hfirst, ?_⟩
      rw [validate_of_checkEach hlist, ConstructionError.within_eq (located first e' hfirst)]
  · have hvalid := valid_elements h a ha
    exact ⟨hvalid, payloads_obey hvalid⟩
  · rintro (h | ⟨bytes, h⟩)
    · exact h.valid
    · exact Wire.valid_of_decode h

/-- The second message repeats a role; without it the conversation is built. -/
theorem elements_checked_repeated :
    let greeting : Turn := ⟨.user, .text ⟨"hi", none⟩⟩
    let answer : Turn := ⟨.assistant, .text ⟨"ho", some ⟨[.user, .user], none⟩⟩⟩
    let request (messages : List Turn) : Carrier .samplingMessages :=
      ⟨messages, none, none, none, none, 5, [], none⟩
    validate (request [greeting, answer]) =
        .error ⟨"messages[1].content.annotations.audience", "lists user more than once"⟩ ∧
      (∃ before a after e, elements .samplingMessages (request [greeting, answer]) =
          before ++ a :: after ∧ (∀ b ∈ before, Valid b) ∧ validate a = .error e) ∧
      Valid (request [greeting]) := by
  intro greeting answer request
  obtain ⟨hrefused, -⟩ := elements_checked .samplingMessages (request [greeting, answer])
  have hinvalid : ∃ a ∈ elements .samplingMessages (request [greeting, answer]), ¬ Valid a :=
    ⟨answer.content, List.mem_cons_of_mem _ List.mem_cons_self, by decide⟩
  obtain ⟨before, a, after, e, helements, hbefore, hfirst, -⟩ := hrefused hinvalid
  have hnew : (CreateMessageRequest.new [greeting] 5 []).result = .ok (request [greeting]) := rfl
  refine ⟨by decide, ⟨before, a, after, e, helements, hbefore, hfirst⟩, ?_⟩
  exact (elements_checked .samplingMessages (request [greeting])).2.2 (.inl (.samplingMessages hnew))

end ListKind

end ContextProtocol
