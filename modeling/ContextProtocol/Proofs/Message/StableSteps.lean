import ContextProtocol.Message.Completion
import ContextProtocol.Message.Tool
import ContextProtocol.Proofs.Message.Constructible
import ContextProtocol.Proofs.Message.ContentAnswer

/-!
# Types whose steps check all that the rules ask for

Where every step checks its own input against what is already there, the rules that are looked at in
the end have nothing left to find: a step that is accepted by a valid value leaves a valid value. So
a construction that starts with a valid value can only be refused by one of its steps, and it is by
the first. Types that leave a rule to the end, such as tools and wishes for a message, are not among
them.

Results:
* `Annotations.stable`, …, `ResourceTemplate.stable`: an accepted step keeps a valid value valid, by
  what the rules of the type ask for.
* `StableType.refused_by_step`: so a construction is refused by its first step that is refused, and
  never in the end.
-/
namespace ContextProtocol

/-! ## One type after the other -/

theorem Annotations.stable : Stable Annotations := by
  intro a s b h ha
  obtain ⟨hrole, hpriority⟩ := valid_iff.mp ha
  cases s with
  | audience role =>
    cases h
    split
    · exact ha
    · rename_i hnew
      rw [repeatedRole_eq_none_iff] at hrole
      refine valid_iff.mpr ⟨repeatedRole_eq_none_iff.mpr ⟨?_, by simp⟩, hpriority⟩
      rw [List.nodup_append]
      refine ⟨hrole.1, List.nodup_singleton role, ?_⟩
      intro r hr r' hr' heq
      rw [List.mem_singleton.mp hr'] at heq
      exact hnew (heq ▸ hr)
  | priority p =>
    obtain ⟨hp, rfl⟩ := Outcome.check_bind_ok_iff.mp h
    exact valid_iff.mpr ⟨hrole, hp⟩

theorem ModelPreferences.stable : Stable ModelPreferences := by
  intro a s b h ha
  obtain ⟨hcost, hspeed, hintelligence⟩ := valid_iff.mp ha
  cases s with
  | hint hint =>
    cases h
    exact ha
  | costPriority x =>
    obtain ⟨hx, rfl⟩ := Outcome.check_bind_ok_iff.mp h
    exact valid_iff.mpr ⟨hx, hspeed, hintelligence⟩
  | speedPriority x =>
    obtain ⟨hx, rfl⟩ := Outcome.check_bind_ok_iff.mp h
    exact valid_iff.mpr ⟨hcost, hx, hintelligence⟩
  | intelligencePriority x =>
    obtain ⟨hx, rfl⟩ := Outcome.check_bind_ok_iff.mp h
    exact valid_iff.mpr ⟨hcost, hspeed, hx⟩

theorem ExperimentalCapabilities.check_eq_ok_iff {d : ExperimentalCapabilities} :
    check d = .ok () ↔ "" ∉ d.keys := by
  unfold check
  split
  · rename_i hempty
    simp_all
  · rename_i hempty
    simp_all

/-- An added capability has a name. -/
theorem ExperimentalCapabilities.check_of_add {d d' : ExperimentalCapabilities} {name : String}
    {payload : Json} (h : d.add name payload = .ok d') (hd : check d = .ok ()) :
    check d' = .ok () := by
  obtain ⟨hname, rfl⟩ := checkNonEmpty_bind_eq_ok_iff.mp h
  rw [check_eq_ok_iff] at hd ⊢
  intro hmem
  obtain ⟨e, he, hkey⟩ := List.mem_map.mp hmem
  rcases Entries.mem_insert he with rfl | he
  · exact hname hkey
  · exact hd (List.mem_map.mpr ⟨e, he, hkey⟩)

theorem ServerCapabilities.stable : Stable ServerCapabilities := by
  intro c s d h hc
  cases s with
  | experimental name payload =>
    obtain ⟨added, hadd, h⟩ := Outcome.bind_eq_ok_iff.mp h
    cases h
    exact ExperimentalCapabilities.check_of_add hadd hc
  | logging | prompts p | resources r | tools t =>
    cases h
    exact hc

theorem ClientCapabilities.stable : Stable ClientCapabilities := by
  intro c s d h hc
  cases s with
  | experimental name payload =>
    obtain ⟨added, hadd, h⟩ := Outcome.bind_eq_ok_iff.mp h
    cases h
    exact ExperimentalCapabilities.check_of_add hadd hc
  | roots r | sampling =>
    cases h
    exact hc

theorem ProgressNotification.stable : Stable ProgressNotification := by
  intro n s m h hn
  obtain ⟨hprogress, htotal⟩ := valid_iff.mp hn
  cases s with
  | total total =>
    obtain ⟨hnew, rfl⟩ := Outcome.check_bind_ok_iff.mp h
    exact valid_iff.mpr ⟨hprogress, fun x hx => Option.some.inj hx ▸ hnew⟩
  | message text =>
    obtain ⟨-, rfl⟩ := Outcome.check_bind_ok_iff.mp h
    exact valid_iff.mpr ⟨hprogress, htotal⟩

theorem CompleteResult.valid_iff {r : CompleteResult} : Valid r ↔
    checkCount r.completion.values = .ok () ∧
      ∀ total, r.completion.total = some total → checkTotal total r.completion.values = .ok () := by
  cases htotal : r.completion.total with
  | none => simp [Valid, validate, htotal, Outcome.check_bind_eq_ok_iff]
  | some total => simp [Valid, validate, htotal, Outcome.check_bind_eq_ok_iff]

theorem CompleteResult.stable : Stable CompleteResult := by
  intro r s r' h hr
  obtain ⟨hcount, htotal⟩ := valid_iff.mp hr
  cases s with
  | total total =>
    obtain ⟨hnew, rfl⟩ := Outcome.check_bind_ok_iff.mp h
    exact valid_iff.mpr ⟨hcount, fun x hx => Option.some.inj hx ▸ hnew⟩
  | hasMore more =>
    cases h
    exact valid_iff.mpr ⟨hcount, htotal⟩

theorem LoggingMessageNotification.stable : Stable LoggingMessageNotification := by
  intro n s m h hn
  cases s with
  | logger name =>
    obtain ⟨hname, rfl⟩ := Outcome.check_bind_ok_iff.mp h
    obtain ⟨u, hdata, -⟩ := Outcome.bind_eq_ok_iff.mp hn
    exact Outcome.check_bind_eq_ok_iff.mpr ⟨hdata, hname⟩

theorem PromptArgument.stable : Stable PromptArgument := by
  intro a s b h ha
  cases s with
  | description text =>
    obtain ⟨-, rfl⟩ := Outcome.check_bind_ok_iff.mp h
    exact ha
  | required required =>
    cases h
    exact ha

theorem CallToolRequest.stable : Stable CallToolRequest := by
  intro r s r' h hr
  cases s with
  | arguments arguments | progressToken token =>
    cases h
    exact hr

theorem ResourceDetails.check_of_apply {d d' : ResourceDetails} {s : ResourceStep}
    (h : d.apply s = .ok d') (hd : Annotations.check d.annotations = .ok ()) :
    Annotations.check d'.annotations = .ok () := by
  cases s with
  | description text | mimeType type =>
    obtain ⟨-, rfl⟩ := Outcome.check_bind_ok_iff.mp h
    exact hd
  | annotations a =>
    obtain ⟨ha, rfl⟩ := Outcome.check_bind_ok_iff.mp h
    exact ha

theorem Resource.stable : Stable Resource := by
  intro r s r' h hr
  obtain ⟨d, hd, h⟩ := Outcome.bind_eq_ok_iff.mp h
  cases h
  obtain ⟨huri, hname, hannotations⟩ := valid_iff.mp hr
  exact valid_iff.mpr ⟨huri, hname, ResourceDetails.check_of_apply hd hannotations⟩

theorem ResourceTemplate.stable : Stable ResourceTemplate := by
  intro t s t' h ht
  obtain ⟨d, hd, h⟩ := Outcome.bind_eq_ok_iff.mp h
  cases h
  obtain ⟨hname, huri, hannotations⟩ := valid_iff.mp ht
  exact valid_iff.mpr ⟨hname, huri, ResourceDetails.check_of_apply hd hannotations⟩

/-! ## All of them -/

/-- The types whose steps check all that the rules ask for. -/
inductive StableType where
  | annotations
  | modelPreferences
  | serverCapabilities
  | clientCapabilities
  | progress
  | completeResult
  | logMessage
  | promptArgument
  | toolCall
  | resource
  | resourceTemplate

namespace StableType

/-- The values of a type. -/
abbrev Carrier : StableType → Type
  | .annotations => Annotations
  | .modelPreferences => ModelPreferences
  | .serverCapabilities => ServerCapabilities
  | .clientCapabilities => ClientCapabilities
  | .progress => ProgressNotification
  | .completeResult => CompleteResult
  | .logMessage => LoggingMessageNotification
  | .promptArgument => PromptArgument
  | .toolCall => CallToolRequest
  | .resource => Resource
  | .resourceTemplate => ResourceTemplate

/-- The steps in the construction of a value. -/
abbrev Step : StableType → Type
  | .annotations => AnnotationsStep
  | .modelPreferences => ModelPreferencesStep
  | .serverCapabilities => ServerCapabilityStep
  | .clientCapabilities => ClientCapabilityStep
  | .progress => ProgressStep
  | .completeResult => CompleteStep
  | .logMessage => LoggingStep
  | .promptArgument => PromptArgumentStep
  | .toolCall => CallToolStep
  | .resource | .resourceTemplate => ResourceStep

instance validated : (t : StableType) → Validated t.Carrier t.Step
  | .annotations => inferInstanceAs (Validated Annotations AnnotationsStep)
  | .modelPreferences => inferInstanceAs (Validated ModelPreferences ModelPreferencesStep)
  | .serverCapabilities => inferInstanceAs (Validated ServerCapabilities ServerCapabilityStep)
  | .clientCapabilities => inferInstanceAs (Validated ClientCapabilities ClientCapabilityStep)
  | .progress => inferInstanceAs (Validated ProgressNotification ProgressStep)
  | .completeResult => inferInstanceAs (Validated CompleteResult CompleteStep)
  | .logMessage => inferInstanceAs (Validated LoggingMessageNotification LoggingStep)
  | .promptArgument => inferInstanceAs (Validated PromptArgument PromptArgumentStep)
  | .toolCall => inferInstanceAs (Validated CallToolRequest CallToolStep)
  | .resource => inferInstanceAs (Validated Resource ResourceStep)
  | .resourceTemplate => inferInstanceAs (Validated ResourceTemplate ResourceStep)

theorem stable (t : StableType) : Stable t.Carrier := by
  cases t with
  | annotations => exact Annotations.stable
  | modelPreferences => exact ModelPreferences.stable
  | serverCapabilities => exact ServerCapabilities.stable
  | clientCapabilities => exact ClientCapabilities.stable
  | progress => exact ProgressNotification.stable
  | completeResult => exact CompleteResult.stable
  | logMessage => exact LoggingMessageNotification.stable
  | promptArgument => exact PromptArgument.stable
  | toolCall => exact CallToolRequest.stable
  | resource => exact Resource.stable
  | resourceTemplate => exact ResourceTemplate.stable

/-- An accepted step keeps a valid value valid. So a construction that starts with a valid value is
refused by the first step that is, with the error of that step, and otherwise it succeeds: the rules
find nothing at its end. -/
theorem refused_by_step (t : StableType) :
    (∀ (a : t.Carrier) (s : t.Step) (b : t.Carrier),
      Validated.apply a s = .ok b → Valid a → Valid b) ∧
    ∀ (a : t.Carrier) (steps : List t.Step), Valid a →
      (∀ b, (build a steps).result = .ok b ↔ applyAll a steps = .ok b) ∧
      ∀ e, ((build a steps).result = .error e ↔ ∃ before s after b,
          steps = before ++ s :: after ∧ applyAll a before = .ok b ∧
            Validated.apply b s = .error e) ∧
        ((build a steps).result = .error e →
          (build a steps).events = [.build ("step rejected: " ++ e.message)]) := by
  refine ⟨t.stable, fun a steps ha => ?_⟩
  rw [t.stable.build_eq ha]
  cases hsteps : applyAll a steps with
  | ok b =>
    refine ⟨fun c => Iff.rfl, fun e => ⟨⟨nofun, fun h => ?_⟩, nofun⟩⟩
    rw [applyAll_eq_error_iff.mpr h] at hsteps
    cases hsteps
  | error e' =>
    refine ⟨fun c => ⟨nofun, nofun⟩, fun e => ⟨?_, fun h => ?_⟩⟩
    · rw [← applyAll_eq_error_iff, hsteps]
      exact Iff.rfl
    · rw [← Except.error.inj h]
      rfl

/-- A total may be replaced as long as it counts the values that are there. -/
theorem refused_by_step_recounted :
    let start : CompleteResult := ⟨⟨["a", "b"], none, none⟩⟩
    let counted : CompleteResult := ⟨⟨["a", "b"], some 2, none⟩⟩
    let refusal : ConstructionError := ⟨"completion.total", "1 is less than the 2 values returned"⟩
    Valid counted ∧
      (build start [.total 2, .hasMore true]).result = .ok ⟨⟨["a", "b"], some 2, some true⟩⟩ ∧
      (build start [.total 2, .total 1, .total 0]).result = .error refusal ∧
      (build start [.total 2, .total 1, .total 0]).events =
        [.build ("step rejected: " ++ refusal.message)] := by
  intro start counted refusal
  have hstart : Valid start := by decide
  have hsteps := (refused_by_step .completeResult).2 start
  obtain ⟨hrefused, hevents⟩ := (hsteps [.total 2, .total 1, .total 0] hstart).2 refusal
  have herror : (build start [.total 2, .total 1, .total 0]).result = .error refusal :=
    hrefused.mpr ⟨[.total 2], .total 1, [.total 0], counted, rfl, rfl, by decide⟩
  refine ⟨?_, ?_, herror, hevents herror⟩
  · exact (refused_by_step .completeResult).1 start (.total 2) counted rfl hstart
  · exact ((hsteps [.total 2, .hasMore true] hstart).1 _).mpr rfl

end StableType
end ContextProtocol
