import ContextProtocol.Proofs.Message.Params
import ContextProtocol.Proofs.Message.Stages

/-!
# Decoded values that can be built

A type is built in steps that check their own input, while a value off the wire is only looked at
as a whole. So the rules that stand in a step alone hold of what is built and need not hold of what
is decoded: a text that is set but empty passes through every reader.

Results:
* `Resource.exists_new_iff`, …, `InitializeResult.exists_new_iff`: what the constructor of a type
  returns are the valid values without such a text.
* `StepwiseType.constructible_iff_of_decode`: so a decoded value can be built if and only if it
  holds no such text.
* `StepwiseType.exists_not_constructible`: and there is one that cannot.
-/
namespace ContextProtocol

theorem not_blank_some {text : String} (h : text ≠ "") : "" ∉ (some text).toList :=
  fun hmem => h (List.mem_singleton.mp hmem).symm

theorem ne_blank_of_eq_some {text : Option String} (h : "" ∉ text.toList) {x : String}
    (hx : text = some x) : x ≠ "" := by
  rintro rfl
  exact h (hx ▸ List.mem_singleton_self _)

namespace ProgressNotification

/-- No step sets an empty message. -/
theorem message_of_apply (n : ProgressNotification) (s : ProgressStep) (m : ProgressNotification)
    (h : Validated.apply n s = .ok m) (hn : "" ∉ n.message.toList) : "" ∉ m.message.toList := by
  cases s with
  | total total =>
    obtain ⟨-, rfl⟩ := Outcome.check_bind_ok_iff.mp h
    exact hn
  | message text =>
    obtain ⟨htext, rfl⟩ := checkNonEmpty_bind_eq_ok_iff.mp h
    exact not_blank_some htext

theorem exists_new_iff {n : ProgressNotification} :
    (∃ token progress steps, (new token progress steps).result = .ok n) ↔
      Valid n ∧ "" ∉ n.message.toList := by
  constructor
  · rintro ⟨token, progress, steps, h⟩
    obtain ⟨u, -, hbuild⟩ := Outcome.bind_eq_ok_iff.mp ((Traced.result_bind _ _).symm.trans h)
    exact valid_and_of_build (fun n => "" ∉ n.message.toList) message_of_apply List.not_mem_nil
      hbuild
  · rintro ⟨hvalid, hmessage⟩
    obtain ⟨token, progress, total, message⟩ := n
    obtain ⟨hprogress, htotal⟩ := valid_iff.mp hvalid
    have hfirst : Reaches (⟨token, progress, none, none⟩ : ProgressNotification)
        ⟨token, progress, total, none⟩ :=
      Reaches.optional ProgressStep.total (ProgressNotification.mk token progress · none)
        fun x hx => Outcome.bind_eq_ok_iff.mpr ⟨(), htotal x hx, rfl⟩
    have hsecond : Reaches (⟨token, progress, total, none⟩ : ProgressNotification)
        ⟨token, progress, total, message⟩ :=
      Reaches.optional ProgressStep.message (ProgressNotification.mk token progress total)
        fun x hx => checkNonEmpty_bind_eq_ok_iff.mpr ⟨ne_blank_of_eq_some hmessage hx, rfl⟩
    obtain ⟨steps, hsteps⟩ := exists_build_iff.mpr ⟨hfirst.trans hsecond, hvalid⟩
    refine ⟨token, progress, steps, (Traced.result_bind _ _).trans ?_⟩
    exact Outcome.bind_eq_ok_iff.mpr ⟨(), hprogress, hsteps⟩

end ProgressNotification

namespace ResourceDetails

/-- The texts that only steps look at. -/
def stepTexts (d : ResourceDetails) : List String := d.description.toList ++ d.mimeType.toList

theorem stepTexts_of_apply {d d' : ResourceDetails} {s : ResourceStep} (h : d.apply s = .ok d')
    (hd : "" ∉ d.stepTexts) : "" ∉ d'.stepTexts := by
  unfold stepTexts at hd ⊢
  rw [List.mem_append, not_or] at hd ⊢
  cases s with
  | description text =>
    obtain ⟨htext, rfl⟩ := checkNonEmpty_bind_eq_ok_iff.mp h
    exact ⟨not_blank_some htext, hd.2⟩
  | mimeType type =>
    obtain ⟨htype, rfl⟩ := checkNonEmpty_bind_eq_ok_iff.mp h
    exact ⟨hd.1, not_blank_some htype⟩
  | annotations a =>
    obtain ⟨-, rfl⟩ := Outcome.check_bind_ok_iff.mp h
    exact hd

/-- Details are reached from nothing, in whatever they are the details of. -/
theorem reaches {R : Type} [Validated R ResourceStep] (make : ResourceDetails → R)
    (hmake : ∀ d s, Validated.apply (make d) s = (d.apply s >>= fun d' => .ok (make d')))
    {d : ResourceDetails} (htexts : "" ∉ d.stepTexts)
    (hannotations : Annotations.check d.annotations = .ok ()) :
    Reaches (make .none) (make d) := by
  obtain ⟨description, mimeType, annotations⟩ := d
  rw [stepTexts, List.mem_append, not_or] at htexts
  have hdescription : Reaches (make ⟨.none, .none, .none⟩) (make ⟨description, .none, .none⟩) := by
    refine Reaches.optional ResourceStep.description (make ⟨·, .none, .none⟩) ?_
    intro x hx
    rw [hmake]
    exact Outcome.bind_eq_ok_iff.mpr ⟨_, checkNonEmpty_bind_eq_ok_iff.mpr
      ⟨ne_blank_of_eq_some htexts.1 hx, rfl⟩, rfl⟩
  have hmimeType : Reaches (make ⟨description, .none, .none⟩)
      (make ⟨description, mimeType, .none⟩) := by
    refine Reaches.optional ResourceStep.mimeType (make ⟨description, ·, .none⟩) ?_
    intro x hx
    rw [hmake]
    exact Outcome.bind_eq_ok_iff.mpr ⟨_, checkNonEmpty_bind_eq_ok_iff.mpr
      ⟨ne_blank_of_eq_some htexts.2 hx, rfl⟩, rfl⟩
  have hlast : Reaches (make ⟨description, mimeType, .none⟩)
      (make ⟨description, mimeType, annotations⟩) := by
    refine Reaches.optional ResourceStep.annotations (make ⟨description, mimeType, ·⟩)
      fun x hx => ?_
    rw [hmake]
    have hcheck : Annotations.check (some x) = .ok () := hx ▸ hannotations
    exact Outcome.bind_eq_ok_iff.mpr ⟨_, Outcome.bind_eq_ok_iff.mpr ⟨(), hcheck, rfl⟩, rfl⟩
  exact (hdescription.trans hmimeType).trans hlast

end ResourceDetails

namespace Resource

theorem valid_iff {r : Resource} : Valid r ↔
    r.uri ≠ "" ∧ r.name ≠ "" ∧ Annotations.check r.details.annotations = .ok () := by
  rw [← checkNonEmpty_eq_ok_iff "uri", ← checkNonEmpty_eq_ok_iff "name",
    ← Outcome.check_bind_eq_ok_iff, ← Outcome.check_bind_eq_ok_iff]
  rfl

theorem exists_new_iff {r : Resource} :
    (∃ uri name steps, (new uri name steps).result = .ok r) ↔
      Valid r ∧ "" ∉ r.details.stepTexts := by
  constructor
  · rintro ⟨uri, name, steps, h⟩
    refine valid_and_of_build (fun r => "" ∉ r.details.stepTexts) ?_ List.not_mem_nil h
    intro a s b hstep ha
    obtain ⟨d, hd, hb⟩ := Outcome.bind_eq_ok_iff.mp hstep
    cases hb
    exact ResourceDetails.stepTexts_of_apply hd ha
  · rintro ⟨hvalid, htexts⟩
    have hreach : Reaches (⟨r.uri, r.name, .none⟩ : Resource) r :=
      ResourceDetails.reaches (Resource.mk r.uri r.name) (fun _ _ => rfl) htexts
        (valid_iff.mp hvalid).2.2
    obtain ⟨steps, hsteps⟩ := exists_build_iff.mpr ⟨hreach, hvalid⟩
    exact ⟨r.uri, r.name, steps, hsteps⟩

end Resource

namespace ResourceTemplate

theorem valid_iff {t : ResourceTemplate} : Valid t ↔
    t.name ≠ "" ∧ t.uriTemplate ≠ "" ∧ Annotations.check t.details.annotations = .ok () := by
  rw [← checkNonEmpty_eq_ok_iff "name", ← checkNonEmpty_eq_ok_iff "uriTemplate",
    ← Outcome.check_bind_eq_ok_iff, ← Outcome.check_bind_eq_ok_iff]
  rfl

theorem exists_new_iff {t : ResourceTemplate} :
    (∃ name uriTemplate steps, (new name uriTemplate steps).result = .ok t) ↔
      Valid t ∧ "" ∉ t.details.stepTexts := by
  constructor
  · rintro ⟨name, uriTemplate, steps, h⟩
    refine valid_and_of_build (fun t => "" ∉ t.details.stepTexts) ?_ List.not_mem_nil h
    intro a s b hstep ha
    obtain ⟨d, hd, hb⟩ := Outcome.bind_eq_ok_iff.mp hstep
    cases hb
    exact ResourceDetails.stepTexts_of_apply hd ha
  · rintro ⟨hvalid, htexts⟩
    have hreach : Reaches (⟨t.uriTemplate, t.name, .none⟩ : ResourceTemplate) t :=
      ResourceDetails.reaches (ResourceTemplate.mk t.uriTemplate t.name) (fun _ _ => rfl) htexts
        (valid_iff.mp hvalid).2.2
    obtain ⟨steps, hsteps⟩ := exists_build_iff.mpr ⟨hreach, hvalid⟩
    exact ⟨t.name, t.uriTemplate, steps, hsteps⟩

end ResourceTemplate

namespace ResourceContent

/-- No step sets an empty type. -/
theorem mimeType_of_apply (c : ResourceContent) (s : ResourceContentStep) (d : ResourceContent)
    (h : Validated.apply c s = .ok d) (hc : "" ∉ c.mimeType.toList) : "" ∉ d.mimeType.toList := by
  cases s with
  | text body =>
    replace h : (if c.blob.isSome then .error ⟨"text", "blob is already set"⟩
      else .ok { c with text := some body } : Except ConstructionError ResourceContent) = .ok d := h
    split at h
    · cases h
    · cases h
      exact hc
  | blob body =>
    replace h : (if c.text.isSome then .error ⟨"blob", "text is already set"⟩
      else .ok { c with blob := some body } : Except ConstructionError ResourceContent) = .ok d := h
    split at h
    · cases h
    · cases h
      exact hc
  | mimeType type =>
    obtain ⟨htype, rfl⟩ := checkNonEmpty_bind_eq_ok_iff.mp h
    exact not_blank_some htype
  | annotations a =>
    cases h
    exact hc

/-- A body is reached in one step, since there is only one. -/
theorem reaches_body {uri : String} {mimeType text blob : Option String}
    (h : checkBody text blob = .ok ()) :
    Reaches (⟨uri, mimeType, none, none, none⟩ : ResourceContent)
      ⟨uri, mimeType, text, blob, none⟩ := by
  cases text with
  | none =>
    cases blob with
    | none => cases h
    | some body => exact Reaches.step (s := ResourceContentStep.blob body) rfl
  | some body =>
    cases blob with
    | none => exact Reaches.step (s := ResourceContentStep.text body) rfl
    | some other => cases h

theorem exists_new_iff {c : ResourceContent} :
    (∃ uri steps, (new uri steps).result = .ok c) ↔ Valid c ∧ "" ∉ c.mimeType.toList := by
  constructor
  · rintro ⟨uri, steps, h⟩
    exact valid_and_of_build (fun c => "" ∉ c.mimeType.toList) mimeType_of_apply
      List.not_mem_nil h
  · rintro ⟨hvalid, htype⟩
    obtain ⟨uri, mimeType, text, blob, annotations⟩ := c
    have hfirst : Reaches (⟨uri, none, none, none, none⟩ : ResourceContent)
        ⟨uri, mimeType, none, none, none⟩ :=
      Reaches.optional ResourceContentStep.mimeType (ResourceContent.mk uri · none none none)
        fun x hx => checkNonEmpty_bind_eq_ok_iff.mpr ⟨ne_blank_of_eq_some htype hx, rfl⟩
    have hlast : Reaches (⟨uri, mimeType, text, blob, none⟩ : ResourceContent)
        ⟨uri, mimeType, text, blob, annotations⟩ :=
      Reaches.optional ResourceContentStep.annotations (ResourceContent.mk uri mimeType text blob)
        fun x _ => rfl
    have hbody : Reaches (⟨uri, mimeType, none, none, none⟩ : ResourceContent)
        ⟨uri, mimeType, text, blob, none⟩ := reaches_body (valid_iff.mp hvalid).2.1
    obtain ⟨steps, hsteps⟩ := exists_build_iff.mpr ⟨(hfirst.trans hbody).trans hlast, hvalid⟩
    exact ⟨uri, steps, hsteps⟩

end ResourceContent

namespace PromptArgument

/-- No step sets an empty description. -/
theorem description_of_apply (a : PromptArgument) (s : PromptArgumentStep) (b : PromptArgument)
    (h : Validated.apply a s = .ok b) (ha : "" ∉ a.description.toList) :
    "" ∉ b.description.toList := by
  cases s with
  | description text =>
    obtain ⟨htext, rfl⟩ := checkNonEmpty_bind_eq_ok_iff.mp h
    exact not_blank_some htext
  | required required =>
    cases h
    exact ha

theorem exists_new_iff {a : PromptArgument} :
    (∃ name steps, (new name steps).result = .ok a) ↔ Valid a ∧ "" ∉ a.description.toList := by
  constructor
  · rintro ⟨name, steps, h⟩
    exact valid_and_of_build (fun a => "" ∉ a.description.toList) description_of_apply
      List.not_mem_nil h
  · rintro ⟨hvalid, htext⟩
    obtain ⟨name, description, required⟩ := a
    have hfirst : Reaches (⟨name, none, none⟩ : PromptArgument) ⟨name, description, none⟩ :=
      Reaches.optional PromptArgumentStep.description (PromptArgument.mk name · none)
        fun x hx => checkNonEmpty_bind_eq_ok_iff.mpr ⟨ne_blank_of_eq_some htext hx, rfl⟩
    have hlast : Reaches (⟨name, description, none⟩ : PromptArgument)
        ⟨name, description, required⟩ :=
      Reaches.optional PromptArgumentStep.required (PromptArgument.mk name description)
        fun x _ => rfl
    obtain ⟨steps, hsteps⟩ := exists_build_iff.mpr ⟨hfirst.trans hlast, hvalid⟩
    exact ⟨name, steps, hsteps⟩

end PromptArgument

namespace Prompt

/-- No step sets an empty description. -/
theorem description_of_apply (p : Prompt) (s : PromptStep) (q : Prompt)
    (h : Validated.apply p s = .ok q) (hp : "" ∉ p.description.toList) :
    "" ∉ q.description.toList := by
  cases s with
  | description text =>
    obtain ⟨htext, rfl⟩ := checkNonEmpty_bind_eq_ok_iff.mp h
    exact not_blank_some htext
  | argument a =>
    replace h : (if p.arguments.any (·.name = a.name) then .error (duplicateArgument a.name)
      else .ok { p with arguments := p.arguments ++ [a] } : Except ConstructionError Prompt) =
        .ok q := h
    split at h
    · cases h
    · cases h
      exact hp

theorem valid_iff {p : Prompt} :
    Valid p ↔ p.name ≠ "" ∧ checkArguments 0 [] p.arguments = .ok () := by
  rw [← checkNonEmpty_eq_ok_iff "name", ← Outcome.check_bind_eq_ok_iff]
  rfl

/-- A valid argument is refused for its name alone, if that was seen. -/
theorem checkArguments_cons {i : Nat} {seen : List String} {a : PromptArgument}
    {rest : List PromptArgument} (h : Valid a) : checkArguments i seen (a :: rest) =
      if a.name ∈ seen then .error (duplicateArgument a.name)
      else checkArguments (i + 1) (a.name :: seen) rest := by
  have hrules : validate a = .ok () := h
  rw [checkArguments, hrules, Outcome.mapError_ok, Outcome.ok_bind]
  split
  · rfl
  · rfl

theorem checkArguments_cons_eq_ok_iff {i : Nat} {seen : List String} {a : PromptArgument}
    {rest : List PromptArgument} : checkArguments i seen (a :: rest) = .ok () ↔
      Valid a ∧ a.name ∉ seen ∧ checkArguments (i + 1) (a.name :: seen) rest = .ok () := by
  constructor
  · intro h
    have hvalid : Valid a := by
      rw [checkArguments, Outcome.bind_eq_ok_iff] at h
      obtain ⟨u, hrules, -⟩ := h
      exact Outcome.mapError_eq_ok_iff.mp hrules
    rw [checkArguments_cons hvalid] at h
    split at h
    · cases h
    · rename_i hnew
      exact ⟨hvalid, hnew, h⟩
  · rintro ⟨hvalid, hnew, hrest⟩
    rw [checkArguments_cons hvalid, if_neg hnew]
    exact hrest

/-- Arguments with new names are appended one by one. -/
theorem reaches_arguments {name : String} {description : Option String}
    {arguments : List PromptArgument} :
    ∀ {i : Nat} {seen : List String} {earlier : List PromptArgument},
      checkArguments i seen arguments = .ok () → (∀ a ∈ earlier, a.name ∈ seen) →
      Reaches (⟨name, description, earlier⟩ : Prompt)
        ⟨name, description, earlier ++ arguments⟩ := by
  induction arguments with
  | nil =>
    intro i seen earlier _ _
    rw [List.append_nil]
    exact Reaches.refl _
  | cons a rest ih =>
    intro i seen earlier h hseen
    obtain ⟨-, hnew, hrest⟩ := checkArguments_cons_eq_ok_iff.mp h
    have hstep : Validated.apply (⟨name, description, earlier⟩ : Prompt) (.argument a) =
        .ok ⟨name, description, earlier ++ [a]⟩ := by
      have hany : ¬ earlier.any (·.name = a.name) = true := by
        rw [List.any_eq_true]
        rintro ⟨b, hb, hname⟩
        exact hnew (of_decide_eq_true hname ▸ hseen b hb)
      exact if_neg hany
    have hmore : Reaches (⟨name, description, earlier ++ [a]⟩ : Prompt)
        ⟨name, description, (earlier ++ [a]) ++ rest⟩ := by
      refine ih hrest ?_
      intro b hb
      rcases List.mem_append.mp hb with hb | hb
      · exact List.mem_cons_of_mem _ (hseen b hb)
      · rw [List.mem_singleton.mp hb]
        exact List.mem_cons_self
    rw [List.append_assoc] at hmore
    exact (Reaches.step hstep).trans hmore

theorem exists_new_iff {p : Prompt} :
    (∃ name steps, (new name steps).result = .ok p) ↔ Valid p ∧ "" ∉ p.description.toList := by
  constructor
  · rintro ⟨name, steps, h⟩
    exact valid_and_of_build (fun p => "" ∉ p.description.toList) description_of_apply
      List.not_mem_nil h
  · rintro ⟨hvalid, htext⟩
    obtain ⟨name, description, arguments⟩ := p
    have hfirst : Reaches (⟨name, none, []⟩ : Prompt) ⟨name, description, []⟩ :=
      Reaches.optional PromptStep.description (Prompt.mk name · [])
        fun x hx => checkNonEmpty_bind_eq_ok_iff.mpr ⟨ne_blank_of_eq_some htext hx, rfl⟩
    have hlast : Reaches (⟨name, description, []⟩ : Prompt) ⟨name, description, arguments⟩ :=
      reaches_arguments (valid_iff.mp hvalid).2 fun a ha => absurd ha List.not_mem_nil
    obtain ⟨steps, hsteps⟩ := exists_build_iff.mpr ⟨hfirst.trans hlast, hvalid⟩
    exact ⟨name, steps, hsteps⟩

end Prompt

namespace InitializeResult

/-- No step sets empty instructions. -/
theorem instructions_of_apply (r : InitializeResult) (s : InitializeResultStep)
    (t : InitializeResult) (h : Validated.apply r s = .ok t) (hr : "" ∉ r.instructions.toList) :
    "" ∉ t.instructions.toList := by
  cases s with
  | protocolVersion version =>
    obtain ⟨-, rfl⟩ := checkNonEmpty_bind_eq_ok_iff.mp h
    exact hr
  | capabilities capabilities =>
    cases h
    exact hr
  | instructions text =>
    obtain ⟨htext, rfl⟩ := checkNonEmpty_bind_eq_ok_iff.mp h
    exact not_blank_some htext

theorem protocolVersion_of_valid {r : InitializeResult} (h : Valid r) : r.protocolVersion ≠ "" := by
  obtain ⟨u, hversion, -⟩ := Outcome.bind_eq_ok_iff.mp h
  exact (checkNonEmpty_eq_ok_iff _ _).mp hversion

theorem exists_new_iff {r : InitializeResult} :
    (∃ serverInfo steps, (new serverInfo steps).result = .ok r) ↔
      Valid r ∧ "" ∉ r.instructions.toList := by
  constructor
  · rintro ⟨serverInfo, steps, h⟩
    exact valid_and_of_build (fun r => "" ∉ r.instructions.toList) instructions_of_apply
      List.not_mem_nil h
  · rintro ⟨hvalid, htext⟩
    have hversion := protocolVersion_of_valid hvalid
    obtain ⟨version, capabilities, serverInfo, instructions⟩ := r
    have hfirst : Reaches (⟨latestProtocolVersion, .none, serverInfo, none⟩ : InitializeResult)
        ⟨version, .none, serverInfo, none⟩ :=
      Reaches.step (s := InitializeResultStep.protocolVersion version)
        (checkNonEmpty_bind_eq_ok_iff.mpr ⟨hversion, rfl⟩)
    have hsecond : Reaches (⟨version, .none, serverInfo, none⟩ : InitializeResult)
        ⟨version, capabilities, serverInfo, none⟩ :=
      Reaches.step (s := InitializeResultStep.capabilities capabilities) rfl
    have hlast : Reaches (⟨version, capabilities, serverInfo, none⟩ : InitializeResult)
        ⟨version, capabilities, serverInfo, instructions⟩ :=
      Reaches.optional InitializeResultStep.instructions
        (InitializeResult.mk version capabilities serverInfo)
        fun x hx => checkNonEmpty_bind_eq_ok_iff.mpr ⟨ne_blank_of_eq_some htext hx, rfl⟩
    obtain ⟨steps, hsteps⟩ := exists_build_iff.mpr ⟨(hfirst.trans hsecond).trans hlast, hvalid⟩
    exact ⟨serverInfo, steps, hsteps⟩

end InitializeResult

/-! ## Off the wire -/

/-- The types that check texts in their steps alone. -/
inductive StepwiseType where
  | progress
  | resource
  | template
  | contents
  | prompt
  | argument
  | answer

namespace StepwiseType

/-- The values of a type. -/
abbrev Carrier : StepwiseType → Type
  | .progress => ProgressNotification
  | .resource => Resource
  | .template => ResourceTemplate
  | .contents => ResourceContent
  | .prompt => Prompt
  | .argument => PromptArgument
  | .answer => InitializeResult

/-- Reads a value off the wire. -/
def decode : (t : StepwiseType) → ByteArray → Traced DecodeError t.Carrier
  | .progress => Envelope.decode
  | .resource | .template | .contents | .prompt | .argument | .answer => Wire.decode

/-- The constructor returns the value for some arguments and steps. -/
def Constructible : (t : StepwiseType) → t.Carrier → Prop
  | .progress, v => ∃ token progress steps,
      (ProgressNotification.new token progress steps).result = .ok v
  | .resource, v => ∃ uri name steps, (Resource.new uri name steps).result = .ok v
  | .template, v => ∃ name uriTemplate steps,
      (ResourceTemplate.new name uriTemplate steps).result = .ok v
  | .contents, v => ∃ uri steps, (ResourceContent.new uri steps).result = .ok v
  | .prompt, v => ∃ name steps, (Prompt.new name steps).result = .ok v
  | .argument, v => ∃ name steps, (PromptArgument.new name steps).result = .ok v
  | .answer, v => ∃ serverInfo steps, (InitializeResult.new serverInfo steps).result = .ok v

/-- The texts that are set in a value and checked in a step alone. -/
def stepTexts : (t : StepwiseType) → t.Carrier → List String
  | .progress, n => n.message.toList
  | .resource, r => r.details.stepTexts
  | .template, t => t.details.stepTexts
  | .contents, c => c.mimeType.toList
  | .prompt, p => p.description.toList
  | .argument, a => a.description.toList
  | .answer, r => r.instructions.toList

/-- A decoded value can be built if and only if no text of it that a step checks is empty. -/
theorem constructible_iff_of_decode (t : StepwiseType) (bytes : ByteArray) (v : t.Carrier)
    (h : (t.decode bytes).result = .ok v) : t.Constructible v ↔ "" ∉ t.stepTexts v := by
  cases t with
  | progress =>
    have hvalid : Valid v := Envelope.valid_of_decode h
    exact ProgressNotification.exists_new_iff.trans (and_iff_right hvalid)
  | resource =>
    have hvalid : Valid v := Wire.valid_of_decode h
    exact Resource.exists_new_iff.trans (and_iff_right hvalid)
  | template =>
    have hvalid : Valid v := Wire.valid_of_decode h
    exact ResourceTemplate.exists_new_iff.trans (and_iff_right hvalid)
  | contents =>
    have hvalid : Valid v := Wire.valid_of_decode h
    exact ResourceContent.exists_new_iff.trans (and_iff_right hvalid)
  | prompt =>
    have hvalid : Valid v := Wire.valid_of_decode h
    exact Prompt.exists_new_iff.trans (and_iff_right hvalid)
  | argument =>
    have hvalid : Valid v := Wire.valid_of_decode h
    exact PromptArgument.exists_new_iff.trans (and_iff_right hvalid)
  | answer =>
    have hvalid : Valid v := Wire.valid_of_decode h
    exact InitializeResult.exists_new_iff.trans (and_iff_right hvalid)

/-- A resource with a description can be built. -/
theorem constructible_iff_of_decode_described :
    ((StepwiseType.resource.decode
      "\x7b\"uri\":\"u\",\"name\":\"n\",\"description\":\"d\"\x7d".toUTF8).result =
        .ok (⟨"u", "n", ⟨some "d", none, none⟩⟩ : Resource)) ∧
      StepwiseType.resource.Constructible (⟨"u", "n", ⟨some "d", none, none⟩⟩ : Resource) := by
  have hdecode : (StepwiseType.resource.decode
      "\x7b\"uri\":\"u\",\"name\":\"n\",\"description\":\"d\"\x7d".toUTF8).result =
        .ok (⟨"u", "n", ⟨some "d", none, none⟩⟩ : Resource) := by cbv
  exact ⟨hdecode, (constructible_iff_of_decode .resource _ _ hdecode).mpr (by decide)⟩

/-- Not every decoded value can be built: a resource whose description is set but empty. -/
theorem exists_not_constructible :
    ¬ ∀ (t : StepwiseType) (bytes : ByteArray) (v : t.Carrier),
      (t.decode bytes).result = .ok v → t.Constructible v := by
  intro hall
  have hdecode : (StepwiseType.resource.decode
      "\x7b\"uri\":\"u\",\"name\":\"n\",\"description\":\"\"\x7d".toUTF8).result =
        .ok (⟨"u", "n", ⟨some "", none, none⟩⟩ : Resource) := by cbv
  have hbuilt := hall .resource _ _ hdecode
  exact (Resource.exists_new_iff.mp hbuilt).2 List.mem_cons_self

end StepwiseType

end ContextProtocol
