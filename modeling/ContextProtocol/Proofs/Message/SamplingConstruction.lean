import ContextProtocol.Proofs.Message.Params

/-!
# Wishes for a message are made of their last steps

No step of a wish for a message checks anything, and each takes the place of the earlier ones of its
kind. The rules look at the finished wish. So of every kind of step only the last one counts, for the
wish that is made and for whether it is made, and one that was replaced does no harm.

* `CreateMessageStep.last`: the last step of a kind.
* `CreateMessageRequest.made`: the wish, by the last step of each kind.

Results:
* `CreateMessageRequest.foldl_after`: the wish that all steps make together.
* `CreateMessageRequest.new_eq_build`: the steps make this wish, and then the rules are asked.
* `CreateMessageRequest.valid_made_iff`: what the rules ask for.
* `CreateMessageRequest.new_by_last_of_kind`: so wishes of the same last steps are the same, and a
  wish is made or not by its last steps alone.
-/
namespace ContextProtocol

/-! ## The last step of a kind -/

namespace CreateMessageStep

/-- The kinds of steps. -/
inductive Kind where
  | systemPrompt
  | temperature
  | stopSequences
  | modelPreferences
  | includeContext
  | metadata
  deriving DecidableEq

def kind : CreateMessageStep → Kind
  | .systemPrompt _ => .systemPrompt
  | .temperature _ => .temperature
  | .stopSequences _ => .stopSequences
  | .modelPreferences _ => .modelPreferences
  | .includeContext _ => .includeContext
  | .metadata _ => .metadata

/-- The last step of a kind, if there is one. -/
def last (k : Kind) (steps : List CreateMessageStep) : Option CreateMessageStep :=
  (steps.filter (·.kind = k)).getLast?

theorem last_concat (k : Kind) (steps : List CreateMessageStep) (s : CreateMessageStep) :
    last k (steps ++ [s]) = if s.kind = k then some s else last k steps := by
  unfold last
  by_cases h : s.kind = k <;> simp [h]

theorem last_append (k : Kind) (steps more : List CreateMessageStep) :
    last k (steps ++ more) = (last k more).or (last k steps) := by
  rw [last, List.filter_append, List.getLast?_append]
  rfl

/-- A step that is followed by one of its kind is not the last of any kind. -/
theorem last_cons_of_mem {s s' : CreateMessageStep} {steps : List CreateMessageStep}
    (hmem : s' ∈ steps) (hkind : s'.kind = s.kind) (k : Kind) :
    last k (s :: steps) = last k steps := by
  unfold last
  by_cases h : s.kind = k
  · have hne : steps.filter (·.kind = k) ≠ [] :=
      List.ne_nil_of_mem (List.mem_filter.mpr ⟨hmem, by simp [hkind, h]⟩)
    rw [List.filter_cons_of_pos (by simpa using h), List.getLast?_cons_of_ne_nil hne]
  · rw [List.filter_cons_of_neg (by simpa using h)]

/-! ### What a step of each kind gives -/

def systemPrompt? : CreateMessageStep → Option String
  | .systemPrompt prompt => some prompt
  | _ => none

def temperature? : CreateMessageStep → Option Float
  | .temperature t => some t
  | _ => none

def stopSequences? : CreateMessageStep → Option (List String)
  | .stopSequences stops => some stops
  | _ => none

def modelPreferences? : CreateMessageStep → Option ModelPreferences
  | .modelPreferences p => some p
  | _ => none

def includeContext? : CreateMessageStep → Option IncludeContext
  | .includeContext c => some c
  | _ => none

def metadata? : CreateMessageStep → Option (Dict Json)
  | .metadata m => some m
  | _ => none

theorem temperature?_eq_some_iff {s : CreateMessageStep} {t : Float} :
    s.temperature? = some t ↔ s = .temperature t := by
  cases s <;> simp [temperature?]

theorem modelPreferences?_eq_some_iff {s : CreateMessageStep} {p : ModelPreferences} :
    s.modelPreferences? = some p ↔ s = .modelPreferences p := by
  cases s <;> simp [modelPreferences?]

end CreateMessageStep

namespace CreateMessageRequest
open CreateMessageStep

variable {messages : List Turn} {maxTokens : UInt32} {steps : List CreateMessageStep}

/-! ## The wish that is made -/

/-- The wish after a step. -/
def after (r : CreateMessageRequest) : CreateMessageStep → CreateMessageRequest
  | .systemPrompt prompt => { r with systemPrompt := some prompt }
  | .temperature t => { r with temperature := some t }
  | .stopSequences stops => { r with stopSequences := stops }
  | .modelPreferences p => { r with modelPreferences := some p }
  | .includeContext c => { r with includeContext := some c }
  | .metadata m => { r with metadata := some m }

/-- No step is refused. -/
theorem apply_eq (r : CreateMessageRequest) (s : CreateMessageStep) :
    Validated.apply r s = .ok (r.after s) := by
  cases s <;> rfl

theorem applyAll_eq (r : CreateMessageRequest) (steps : List CreateMessageStep) :
    applyAll r steps = .ok (steps.foldl after r) := by
  have hstep : ∀ (r : CreateMessageRequest) s r',
      Validated.apply r s = .ok r' ↔ True ∧ r.after s = r' := by
    intro r s r'
    rw [apply_eq, Except.ok.injEq, true_and]
  exact (applyAll_eq_ok_iff hstep).mpr ⟨fun _ _ => trivial, rfl⟩

/-- The wish of the last step of each kind. -/
def made (messages : List Turn) (maxTokens : UInt32) (steps : List CreateMessageStep) :
    CreateMessageRequest where
  messages
  modelPreferences := (last .modelPreferences steps).bind modelPreferences?
  systemPrompt := (last .systemPrompt steps).bind systemPrompt?
  includeContext := (last .includeContext steps).bind includeContext?
  temperature := (last .temperature steps).bind temperature?
  maxTokens
  stopSequences := ((last .stopSequences steps).bind stopSequences?).getD []
  metadata := (last .metadata steps).bind metadata?

theorem foldl_after (messages : List Turn) (maxTokens : UInt32) (steps : List CreateMessageStep) :
    steps.foldl after ⟨messages, none, none, none, none, maxTokens, [], none⟩ =
      made messages maxTokens steps := by
  -- one more step takes the place of the last one of its kind
  induction steps using List.reverseRecOn with
  | nil => rfl
  | append_singleton steps s ih =>
    rw [List.foldl_concat, ih]
    unfold made
    simp only [last_concat]
    cases s <;> rfl

theorem made_congr {steps' : List CreateMessageStep} (h : ∀ k, last k steps' = last k steps) :
    made messages maxTokens steps' = made messages maxTokens steps := by
  unfold made
  simp only [h]

/-- The steps make the wish, and then the rules are asked. -/
theorem new_eq_build (messages : List Turn) (maxTokens : UInt32) (steps : List CreateMessageStep) :
    new messages maxTokens steps = build (made messages maxTokens steps) [] := by
  unfold new build
  rw [applyAll_eq, foldl_after]
  rfl

theorem new_eq_ok_iff {r : CreateMessageRequest} : (new messages maxTokens steps).result = .ok r ↔
    made messages maxTokens steps = r ∧ Valid r := by
  rw [new_eq_build, build_eq_ok_iff]
  exact and_congr_left' ⟨Except.ok.inj, congrArg _⟩

/-! ## The rules -/

theorem temperature_made_eq_some_iff {t : Float} :
    (made messages maxTokens steps).temperature = some t ↔
      last .temperature steps = some (.temperature t) := by
  rw [made, Option.bind_eq_some_iff]
  simp [temperature?_eq_some_iff]

theorem modelPreferences_made_eq_some_iff {p : ModelPreferences} :
    (made messages maxTokens steps).modelPreferences = some p ↔
      last .modelPreferences steps = some (.modelPreferences p) := by
  rw [made, Option.bind_eq_some_iff]
  simp [modelPreferences?_eq_some_iff]

/-- The rules look at the messages, at the bound, and at two of the last steps. -/
theorem valid_made_iff : Valid (made messages maxTokens steps) ↔
    messages ≠ [] ∧ (∀ m ∈ messages, Valid m.content) ∧ 0 < maxTokens ∧
      (∀ t, last .temperature steps = some (.temperature t) → t.isNaN = false ∧ 0 ≤ t ∧ t ≤ 1) ∧
      ∀ p, last .modelPreferences steps = some (.modelPreferences p) → Valid p := by
  rw [valid_iff, Turn.checkAll_eq_ok_iff, ModelPreferences.checkUnit_eq_ok_iff,
    checkPreferences_eq_ok_iff, and_assoc]
  simp only [temperature_made_eq_some_iff, modelPreferences_made_eq_some_iff,
    UInt32.pos_iff_ne_zero]
  exact Iff.rfl

/-- Of each kind of step only the last one counts: lists of steps with the same last steps come to
the same wish or the same refusal. The wish is made when there are messages, all of them valid, the
bound is positive, the last temperature is a number from 0 to 1 and the last preferences are valid.
So a step that is followed by another one of its kind may be left out, whatever it holds. -/
theorem new_by_last_of_kind (messages : List Turn) (maxTokens : UInt32)
    (steps : List CreateMessageStep) :
    (∀ steps', (∀ k, last k steps' = last k steps) →
      new messages maxTokens steps' = new messages maxTokens steps) ∧
    ((∃ r, (new messages maxTokens steps).result = .ok r) ↔
      messages ≠ [] ∧ (∀ m ∈ messages, Valid m.content) ∧ 0 < maxTokens ∧
        (∀ t, last .temperature steps = some (.temperature t) →
          t.isNaN = false ∧ 0 ≤ t ∧ t ≤ 1) ∧
        ∀ p, last .modelPreferences steps = some (.modelPreferences p) → Valid p) ∧
    ∀ before s after, steps = before ++ s :: after → (∃ s' ∈ after, s'.kind = s.kind) →
      new messages maxTokens steps = new messages maxTokens (before ++ after) := by
  have hsame : ∀ steps steps', (∀ k, last k steps' = last k steps) →
      new messages maxTokens steps' = new messages maxTokens steps := by
    intro steps steps' h
    rw [new_eq_build, new_eq_build, made_congr h]
  refine ⟨hsame steps, ?accepted, ?replaced⟩
  case accepted =>
    simp only [new_eq_ok_iff, exists_eq_left']
    exact valid_made_iff
  case replaced =>
    rintro before s after rfl ⟨s', hmem, hkind⟩
    refine hsame _ _ fun k => ?_
    rw [last_append, last_append, last_cons_of_mem hmem hkind]

/-- A temperature that is too high does no harm before another one, nor do preferences that are not
valid, and steps of different kinds may change places. -/
theorem new_by_last_of_kind_replaced :
    let greeting : Turn := ⟨.user, .text ⟨"hi", none⟩⟩
    let worthless : ModelPreferences := ⟨[], some 2, none, none⟩
    let cheap : ModelPreferences := ⟨[], some 1, none, none⟩
    let rest : List CreateMessageStep := [.modelPreferences worthless, .systemPrompt "s",
      .modelPreferences cheap, .temperature 0.5]
    let swapped : List CreateMessageStep := [.temperature 0.5, .modelPreferences cheap,
      .systemPrompt "s"]
    ¬ Valid worthless ∧ ¬ (1.5 : Float) ≤ 1 ∧
      (∃ r, (new [greeting] 5 rest).result = .ok r) ∧
      new [greeting] 5 (.temperature 1.5 :: rest) = new [greeting] 5 rest ∧
      new [greeting] 5 swapped = new [greeting] 5 rest := by
  intro greeting worthless cheap rest swapped
  obtain ⟨hsame, haccepted, -⟩ := new_by_last_of_kind [greeting] 5 rest
  have hreplaced := (new_by_last_of_kind [greeting] 5 (.temperature 1.5 :: rest)).2.2
  refine ⟨by decide +kernel, by decide +kernel, ?_, ?_, ?_⟩
  · refine haccepted.mpr ⟨by decide, by decide, by decide, ?_, ?_⟩
    · intro t ht
      cases ht
      decide +kernel
    · intro p hp
      cases hp
      decide +kernel
  · have hmem : .temperature 0.5 ∈ rest := .tail _ (.tail _ (.tail _ (.head _)))
    have h := hreplaced [] (.temperature 1.5) rest (List.nil_append _).symm
      ⟨_, hmem, by simp only [kind]⟩
    rwa [List.nil_append] at h
  · exact hsame swapped fun k => by cases k <;> simp [last, kind, swapped, rest]

end CreateMessageRequest

end ContextProtocol
