import ContextProtocol.Proofs.Message.PlainTrip

/-!
# The arguments of a prompt

No two arguments of a prompt share a name. Two checks see to that: a step compares the new argument
with those that are there, and the rules go through a finished list and keep the names they have
seen. Both stop at the **first repetition**, the first argument whose name stands before it, and
give the same refusal. The query for missing arguments relies on it: it looks at the arguments one
by one and would say a name twice that stands there twice.

* `Prompt.Obtained`: the prompts that construction and reading return;
* `Prompt.Lacks`: what is to be said about the arguments that were not supplied;
* `Prompt.FirstRepetition`: the first step that repeats a name;
* `Prompt.Accepted`: steps that a construction gets through.

Results:
* `checkArguments_eq_ok_iff`, `checkArguments_repeated`: what the rules ask for and where they stop.
* `arguments_of_applyAll`: what is left of accepted steps.
* `applyAll_eq_duplicate`: where the steps stop.
* `lacks_missingArguments`, `missingArguments_antitone`: the query on distinct names.
* `arguments_named_once`: all of it.
-/
namespace ContextProtocol

theorem PromptArgument.valid_iff {a : PromptArgument} : Valid a ↔ a.name ≠ "" :=
  checkNonEmpty_eq_ok_iff ..

/-- The argument that a step appends. -/
def PromptStep.argument? : PromptStep → Option PromptArgument
  | .description _ => none
  | .argument a => some a

namespace Prompt

/-- The names of the arguments, in the order they are declared in. -/
def argumentNames (p : Prompt) : List String := p.arguments.map (·.name)

/-- The arguments that steps append, in their order. -/
def appended (steps : List PromptStep) : List PromptArgument := steps.filterMap PromptStep.argument?

/-- The names of the arguments that steps append. -/
def appendedNames (steps : List PromptStep) : List String := (appended steps).map (·.name)

/-- The prompts that construction and reading return. -/
inductive Obtained (p : Prompt) : Prop where
  | new (name : String) (steps : List PromptStep) (h : (new name steps).result = .ok p)
  | decoded (bytes : ByteArray)
      (h : (Wire.decode bytes : Traced DecodeError Prompt).result = .ok p)
  | bounded (config : Config) (bytes : ByteArray)
      (h : (Wire.decodeWith config bytes : Traced DecodeError Prompt).result = .ok p)

/-- The names say which required arguments were not supplied: each once, in the order they are
declared in, and none if all were supplied. -/
structure Lacks (p : Prompt) (supplied : Dict String) (names : List String) : Prop where
  declared : names.Sublist p.argumentNames
  nodup : names.Nodup
  mem_iff : ∀ name, name ∈ names ↔
    ∃ a ∈ p.arguments, a.name = name ∧ a.required = some true ∧ name ∉ supplied.keys
  eq_nil_iff : names = [] ↔ ∀ a ∈ p.arguments, a.required = some true → a.name ∈ supplied.keys

/-- Behind the steps `before`, which append distinct names, a step appends the argument `a`, whose
name is one of them. -/
structure FirstRepetition (steps before : List PromptStep) (a : PromptArgument) : Prop where
  split : ∃ after, steps = before ++ .argument a :: after
  distinct : (appendedNames before).Nodup
  repeated : a.name ∈ appendedNames before

/-- The construction of a prompt of this name gets through the steps. -/
def Accepted (name : String) (steps : List PromptStep) : Prop :=
  ∃ p, applyAll (⟨name, none, []⟩ : Prompt) steps = .ok p

/-! ## Steps -/

theorem appended_append (steps more : List PromptStep) :
    appended (steps ++ more) = appended steps ++ appended more := List.filterMap_append

theorem appended_argument (a : PromptArgument) (steps : List PromptStep) :
    appended (.argument a :: steps) = a :: appended steps := rfl

theorem mem_appended_iff {a : PromptArgument} {steps : List PromptStep} :
    a ∈ appended steps ↔ .argument a ∈ steps := by
  rw [appended, List.mem_filterMap]
  constructor
  · rintro ⟨s, hs, ha⟩
    cases s with
    | description text => cases ha
    | argument b =>
      cases ha
      exact hs
  · exact fun h => ⟨_, h, rfl⟩

theorem appendedNames_append (steps more : List PromptStep) :
    appendedNames (steps ++ more) = appendedNames steps ++ appendedNames more := by
  rw [appendedNames, appended_append, List.map_append]
  rfl

theorem not_nodup_of_repeated {before after : List PromptStep} {a : PromptArgument}
    (h : a.name ∈ appendedNames before) :
    ¬ (appendedNames (before ++ .argument a :: after)).Nodup := by
  intro hdistinct
  rw [appendedNames_append] at hdistinct
  exact List.disjoint_of_nodup_append hdistinct h List.mem_cons_self

/-- Names repeat when there is a first repetition. -/
theorem not_nodup_iff {steps : List PromptStep} :
    ¬ (appendedNames steps).Nodup ↔ ∃ before a, FirstRepetition steps before a := by
  constructor
  · -- from the end: a repetition among the steps before the last is the first one still
    intro h
    induction steps using List.reverseRecOn with
    | nil => exact absurd List.nodup_nil h
    | append_singleton steps s ih =>
      by_cases hsteps : (appendedNames steps).Nodup
      · rw [appendedNames_append] at h
        cases s with
        | description text => exact absurd ((List.append_nil _).symm ▸ hsteps) h
        | argument a =>
          refine ⟨steps, a, ⟨[], rfl⟩, hsteps, ?_⟩
          by_contra hnew
          exact h (List.Nodup.append hsteps (List.nodup_singleton a.name)
            (List.disjoint_singleton.mpr hnew))
      · obtain ⟨before, a, ⟨after, rfl⟩, hdistinct, hrepeated⟩ := ih hsteps
        exact ⟨before, a, ⟨after ++ [s], by simp⟩, hdistinct, hrepeated⟩
  · rintro ⟨before, a, ⟨after, rfl⟩, -, hrepeated⟩
    exact not_nodup_of_repeated hrepeated

/-- There is one first repetition at most: a longer beginning would hold the shorter one's. -/
theorem FirstRepetition.unique {steps before before' : List PromptStep} {a a' : PromptArgument}
    (h : FirstRepetition steps before a) (h' : FirstRepetition steps before' a') :
    before = before' ∧ a = a' := by
  obtain ⟨⟨after, rfl⟩, hdistinct, hrepeated⟩ := h
  obtain ⟨⟨after', hsplit⟩, hdistinct', hrepeated'⟩ := h'
  rcases List.append_eq_append_iff.mp hsplit with ⟨more, rfl, hmore⟩ | ⟨more, rfl, hmore⟩
  · cases more with
    | nil =>
      cases hmore
      exact ⟨(List.append_nil _).symm, rfl⟩
    | cons s more =>
      cases hmore
      exact absurd hdistinct' (not_nodup_of_repeated hrepeated)
  · cases more with
    | nil =>
      cases hmore
      exact ⟨List.append_nil _, rfl⟩
    | cons s more =>
      cases hmore
      exact absurd hdistinct (not_nodup_of_repeated hrepeated')

/-- A step appends an argument unless its name is there. -/
theorem apply_argument (p : Prompt) (a : PromptArgument) :
    Validated.apply p (.argument a) =
      if a.name ∈ p.argumentNames then .error (duplicateArgument a.name)
      else .ok { p with arguments := p.arguments ++ [a] } := by
  refine if_congr ?_ rfl rfl
  simp only [List.any_eq_true, decide_eq_true_eq, argumentNames, List.mem_map]

/-- Accepted steps keep the name of the prompt, append their arguments, and leave distinct names
distinct. -/
theorem arguments_of_applyAll {p q : Prompt} {steps : List PromptStep}
    (h : applyAll p steps = .ok q) : q.name = p.name ∧
      q.arguments = p.arguments ++ appended steps ∧
        (p.argumentNames.Nodup → q.argumentNames.Nodup) := by
  induction steps generalizing p with
  | nil =>
    cases h
    exact ⟨rfl, (List.append_nil _).symm, id⟩
  | cons s steps ih =>
    rw [applyAll_cons, Outcome.bind_eq_ok_iff] at h
    obtain ⟨r, hr, hrest⟩ := h
    obtain ⟨hname, harguments, hdistinct⟩ := ih hrest
    cases s with
    | description text =>
      obtain ⟨-, rfl⟩ := checkNonEmpty_bind_eq_ok_iff.mp hr
      exact ⟨hname, harguments, hdistinct⟩
    | argument a =>
      rw [apply_argument] at hr
      split at hr
      · cases hr
      · rename_i hnew
        cases hr
        refine ⟨hname, ?_, fun hp => hdistinct ?_⟩
        · rw [harguments, appended_argument, List.append_assoc]
          rfl
        · rw [argumentNames, List.map_append]
          exact List.Nodup.append hp (List.nodup_singleton a.name)
            (List.disjoint_singleton.mpr hnew)

/-! ## The rules -/

/-- The rules ask for valid arguments with distinct names that were not seen before. -/
theorem checkArguments_eq_ok_iff {arguments : List PromptArgument} :
    ∀ {i : Nat} {seen : List String}, checkArguments i seen arguments = .ok () ↔
      (∀ a ∈ arguments, Valid a) ∧ (arguments.map (·.name)).Nodup ∧
        ∀ a ∈ arguments, a.name ∉ seen := by
  induction arguments with
  | nil => simp [checkArguments]
  | cons a rest ih =>
    intro i seen
    rw [checkArguments_cons_eq_ok_iff, ih, List.forall_mem_cons, List.map_cons, List.nodup_cons,
      List.forall_mem_cons]
    constructor
    · rintro ⟨hvalid, hnew, hrest, hdistinct, hseen⟩
      refine ⟨⟨hvalid, hrest⟩, ⟨fun hmem => ?_, hdistinct⟩, hnew, fun b hb hmem =>
        hseen b hb (List.mem_cons_of_mem _ hmem)⟩
      obtain ⟨b, hb, hname⟩ := List.mem_map.mp hmem
      exact hseen b hb (hname ▸ List.mem_cons_self)
    · rintro ⟨⟨hvalid, hrest⟩, ⟨hother, hdistinct⟩, hnew, hseen⟩
      refine ⟨hvalid, hnew, hrest, hdistinct, fun b hb hmem => ?_⟩
      rcases List.mem_cons.mp hmem with hname | hmem
      · exact hother (List.mem_map.mpr ⟨b, hb, hname⟩)
      · exact hseen b hb hmem

/-- Valid arguments are refused at the first name that stands before or was seen. -/
theorem checkArguments_repeated {before after : List PromptArgument} {a : PromptArgument}
    (hbefore : ∀ b ∈ before, Valid b) (ha : Valid a) (hdistinct : (before.map (·.name)).Nodup) :
    ∀ {i : Nat} {seen : List String}, (∀ b ∈ before, b.name ∉ seen) →
      (a.name ∈ before.map (·.name) ∨ a.name ∈ seen) →
        checkArguments i seen (before ++ a :: after) = .error (duplicateArgument a.name) := by
  induction before with
  | nil =>
    intro i seen _ hrepeated
    have hseen : a.name ∈ seen := hrepeated.resolve_left List.not_mem_nil
    rw [List.nil_append, checkArguments_cons ha, if_pos hseen]
  | cons b rest ih =>
    intro i seen hnew hrepeated
    obtain ⟨hb, hrest⟩ := List.forall_mem_cons.mp hbefore
    obtain ⟨hbnew, hrestnew⟩ := List.forall_mem_cons.mp hnew
    obtain ⟨hother, hdistinct⟩ := List.nodup_cons.mp hdistinct
    rw [List.cons_append, checkArguments_cons hb, if_neg hbnew]
    refine ih hrest hdistinct (fun c hc hmem => ?_) ?_
    · rcases List.mem_cons.mp hmem with hname | hmem
      · exact hother (List.mem_map.mpr ⟨c, hc, hname⟩)
      · exact hrestnew c hc hmem
    · rw [List.map_cons, List.mem_cons] at hrepeated
      rw [List.mem_cons]
      tauto

theorem valid_iff_arguments {p : Prompt} : Valid p ↔
    p.name ≠ "" ∧ (∀ a ∈ p.arguments, Valid a) ∧ p.argumentNames.Nodup := by
  rw [valid_iff, checkArguments_eq_ok_iff]
  simp only [List.not_mem_nil, not_false_eq_true, implies_true, and_true]
  rfl

theorem Obtained.valid {p : Prompt} (h : p.Obtained) : Valid p := by
  cases h with
  | new name steps h => exact validate_of_build h
  | decoded bytes h => exact Wire.valid_of_decode h
  | bounded config bytes h => exact Wire.valid_of_decodeWith h

/-! ## The query -/

theorem mem_missingArguments_iff {p : Prompt} {supplied : Dict String} {name : String} :
    name ∈ p.missingArguments supplied ↔
      ∃ a ∈ p.arguments, a.name = name ∧ a.required = some true ∧ name ∉ supplied.keys := by
  have hrequired : ∀ a : PromptArgument, a.isRequired = true ↔ a.required = some true := by
    rintro ⟨name, description, required⟩
    cases required with
    | none => exact ⟨nofun, nofun⟩
    | some required => exact Option.some_inj.symm
  simp only [missingArguments, List.mem_map, List.mem_filter, Bool.and_eq_true, hrequired,
    Bool.not_eq_true', Bool.eq_false_iff, ne_eq, Table.contains_iff_mem_keys]
  constructor
  · rintro ⟨a, ⟨ha, hneeded, hmissing⟩, rfl⟩
    exact ⟨a, ha, rfl, hneeded, hmissing⟩
  · rintro ⟨a, ha, rfl, hneeded, hmissing⟩
    exact ⟨a, ⟨ha, hneeded, hmissing⟩, rfl⟩

theorem missingArguments_sublist (p : Prompt) (supplied : Dict String) :
    (p.missingArguments supplied).Sublist p.argumentNames :=
  List.filter_sublist.map _

/-- The query goes through the arguments one by one, so it says no name twice where no two arguments
share one. -/
theorem lacks_missingArguments {p : Prompt} (h : p.argumentNames.Nodup) (supplied : Dict String) :
    p.Lacks supplied (p.missingArguments supplied) where
  declared := p.missingArguments_sublist supplied
  nodup := h.sublist (p.missingArguments_sublist supplied)
  mem_iff _ := mem_missingArguments_iff
  eq_nil_iff := by
    rw [List.eq_nil_iff_forall_not_mem]
    simp only [mem_missingArguments_iff]
    constructor
    · intro hnone a ha hneeded
      by_contra hmissing
      exact hnone a.name ⟨a, ha, rfl, hneeded, hmissing⟩
    · rintro hall _ ⟨a, ha, rfl, hneeded, hmissing⟩
      exact hmissing (hall a ha hneeded)

/-- What is missing when more is supplied was missing before. -/
theorem missingArguments_antitone (p : Prompt) {supplied more : Dict String}
    (h : ∀ name ∈ supplied.keys, name ∈ more.keys) :
    (p.missingArguments more).Sublist (p.missingArguments supplied) := by
  refine (List.monotone_filter_right _ fun a ha => ?_).map _
  simp only [Bool.and_eq_true, Bool.not_eq_true', Bool.eq_false_iff, ne_eq,
    Table.contains_iff_mem_keys] at ha ⊢
  exact ⟨ha.1, fun hmem => ha.2 (h _ hmem)⟩

/-! ## Refusals -/

variable {name : String} {steps : List PromptStep}

/-- The steps stop at a first repetition that they get to. -/
theorem applyAll_eq_duplicate {before : List PromptStep} {a : PromptArgument}
    (h : FirstRepetition steps before a) (haccepted : Accepted name before) :
    applyAll (⟨name, none, []⟩ : Prompt) steps = .error (duplicateArgument a.name) := by
  obtain ⟨⟨after, rfl⟩, -, hrepeated⟩ := h
  obtain ⟨p, hbefore⟩ := haccepted
  refine applyAll_eq_error_iff.mpr ⟨before, .argument a, after, p, rfl, hbefore, ?_⟩
  have hnames : p.argumentNames = appendedNames before :=
    congrArg (List.map PromptArgument.name) (arguments_of_applyAll hbefore).2.1
  rw [apply_argument, hnames, if_pos hrepeated]

/-- A refusal of a name that repeats is about a first repetition that the steps get to. -/
theorem exists_of_applyAll_eq_duplicate {name' : String}
    (h : applyAll (⟨name, none, []⟩ : Prompt) steps = .error (duplicateArgument name')) :
    ∃ before a, FirstRepetition steps before a ∧ Accepted name before := by
  obtain ⟨before, s, after, p, rfl, hbefore, hs⟩ := applyAll_eq_error_iff.mp h
  obtain ⟨-, harguments, hdistinct⟩ := arguments_of_applyAll hbefore
  have hnames : p.argumentNames = appendedNames before :=
    congrArg (List.map PromptArgument.name) harguments
  cases s with
  | description text =>
    -- an empty description is refused under another field
    rcases Outcome.bind_eq_error_iff.mp hs with hs | ⟨u, -, hs⟩
    · unfold checkNonEmpty at hs
      split at hs
      · have hfield : "description" = "arguments" :=
          congrArg ConstructionError.field (Except.error.inj hs)
        exact absurd hfield (by decide)
      · cases hs
    · cases hs
  | argument a =>
    rw [apply_argument] at hs
    split at hs
    · rename_i hrepeated
      exact ⟨before, a, ⟨⟨after, rfl⟩, hnames ▸ hdistinct List.nodup_nil, hnames ▸ hrepeated⟩,
        p, hbefore⟩
    · cases hs

/-- The rules refuse a finished prompt where its steps would have stopped. -/
theorem validate_eq_duplicate {before : List PromptStep} {a : PromptArgument} {p : Prompt}
    (h : FirstRepetition steps before a) (hvalid : ∀ b, .argument b ∈ steps → Valid b)
    (hname : p.name ≠ "") (harguments : p.arguments = appended steps) :
    validate p = .error (duplicateArgument a.name) := by
  obtain ⟨⟨after, rfl⟩, hdistinct, hrepeated⟩ := h
  have hrules : checkNonEmpty "name" p.name = .ok () := (checkNonEmpty_eq_ok_iff ..).mpr hname
  show (checkNonEmpty "name" p.name >>= fun _ => checkArguments 0 [] p.arguments) = _
  rw [hrules, Outcome.ok_bind, harguments, appended_append, appended_argument]
  refine checkArguments_repeated (fun b hb => hvalid b ?_) (hvalid a ?_) hdistinct
    (fun b _ => List.not_mem_nil) (.inl hrepeated)
  · exact List.mem_append_left _ (mem_appended_iff.mp hb)
  · exact List.mem_append_right _ List.mem_cons_self

/-- A construction refuses a name that repeats where its steps do: what they leave is valid. -/
theorem new_eq_duplicate_iff (hname : name ≠ "") (hvalid : ∀ b, .argument b ∈ steps → Valid b)
    {name' : String} : (new name steps).result = .error (duplicateArgument name') ↔
      applyAll (⟨name, none, []⟩ : Prompt) steps = .error (duplicateArgument name') := by
  rw [new, build_result]
  cases hsteps : applyAll (⟨name, none, []⟩ : Prompt) steps with
  | error e => rfl
  | ok p =>
    obtain ⟨hp, harguments, hdistinct⟩ := arguments_of_applyAll hsteps
    have hrules : validate p = .ok () := by
      refine valid_iff_arguments.mpr ⟨hp.symm ▸ hname, fun b hb => hvalid b ?_,
        hdistinct List.nodup_nil⟩
      rw [harguments] at hb
      exact mem_appended_iff.mp hb
    rw [Outcome.ok_bind, hrules]
    exact ⟨nofun, nofun⟩

/-- A message that was written is read back, whether it obeys the rules or not. -/
theorem run_encode (p : Prompt) :
    ((Message.codec : Codec Prompt).decode.run (Wire.encode p).toUTF8).result = .ok p :=
  p.roundTrips.run (Nat.le_trans p.neat.2 (by decide))

/-- The arguments of a prompt have names, no two the same one, so the query says of each required
argument that was not supplied that it is missing, once. Where arguments with names are given to a
construction, it refuses a name that repeats when one does and the steps before the first repetition
are accepted. The refusal is the one that the rules give for a prompt with all these arguments, and
such a prompt can be read. -/
theorem arguments_named_once :
    (∀ p : Prompt, p.Obtained →
      (∀ a ∈ p.arguments, a.name ≠ "") ∧ p.argumentNames.Nodup ∧
        ∀ supplied, p.Lacks supplied (p.missingArguments supplied) ∧
          ∀ more : Dict String, (∀ name ∈ supplied.keys, name ∈ more.keys) →
            (p.missingArguments more).Sublist (p.missingArguments supplied)) ∧
    ∀ (name : String) (steps : List PromptStep),
      name ≠ "" → (∀ a, .argument a ∈ steps → Valid a) →
        ((∃ repeated, (new name steps).result = .error (duplicateArgument repeated)) ↔
          ¬ (appendedNames steps).Nodup ∧
            ∀ before a, FirstRepetition steps before a → Accepted name before) ∧
        ∀ before a, FirstRepetition steps before a →
          (Accepted name before →
            (new name steps).result = .error (duplicateArgument a.name)) ∧
          ∀ q : Prompt, q.name ≠ "" → q.arguments = appended steps →
            validate q = .error (duplicateArgument a.name) ∧
            (∀ bytes, ((Message.codec : Codec Prompt).decode.run bytes).result = .ok q →
              (Wire.decode bytes : Traced DecodeError Prompt).result =
                .error (.invalid (duplicateArgument a.name))) ∧
            ((Message.codec : Codec Prompt).decode.run (Wire.encode q).toUTF8).result = .ok q := by
  constructor
  · intro p hp
    obtain ⟨-, hvalid, hdistinct⟩ := valid_iff_arguments.mp hp.valid
    exact ⟨fun a ha => PromptArgument.valid_iff.mp (hvalid a ha), hdistinct, fun supplied =>
      ⟨lacks_missingArguments hdistinct supplied, fun more => p.missingArguments_antitone⟩⟩
  · intro name steps hname hvalid
    simp only [new_eq_duplicate_iff hname hvalid]
    refine ⟨⟨?_, ?_⟩, fun before a hfirst => ⟨?_, fun q hq harguments => ?_⟩⟩
    · rintro ⟨repeated, h⟩
      obtain ⟨before, a, hfirst, haccepted⟩ := exists_of_applyAll_eq_duplicate h
      refine ⟨not_nodup_iff.mpr ⟨before, a, hfirst⟩, fun before' a' hfirst' => ?_⟩
      obtain ⟨rfl, rfl⟩ := hfirst.unique hfirst'
      exact haccepted
    · rintro ⟨hrepeat, haccepted⟩
      obtain ⟨before, a, hfirst⟩ := not_nodup_iff.mp hrepeat
      exact ⟨a.name, applyAll_eq_duplicate hfirst (haccepted before a hfirst)⟩
    · exact applyAll_eq_duplicate hfirst
    · have hrules := validate_eq_duplicate hfirst hvalid hq harguments
      exact ⟨hrules, fun bytes hread => Wire.decode_of_invalid hread hrules, q.run_encode⟩

/-- The topic is declared again behind another argument, which is refused before the empty
description is looked at. Of a prompt with the two arguments, the one that is required is missing
when only the other is supplied. -/
theorem arguments_named_once_topic :
    let topic : PromptArgument := ⟨"topic", none, some true⟩
    let tone : PromptArgument := ⟨"tone", none, none⟩
    let p : Prompt := ⟨"review", some "A review.", [topic, tone]⟩
    let before : List PromptStep := [.argument topic, .description "A review.", .argument tone]
    let steps := before ++ [.argument topic, .description ""]
    let supplied : Dict String := .ofList [("tone", "dry")]
    let q : Prompt := ⟨"review", none, [topic, tone, topic]⟩
    p.Obtained ∧ p.Lacks supplied ["topic"] ∧
      (∀ a, .argument a ∈ steps → Valid a) ∧ FirstRepetition steps before topic ∧
      (new "review" steps).result = .error (duplicateArgument "topic") ∧
      (Wire.decode (Wire.encode q).toUTF8 : Traced DecodeError Prompt).result =
        .error (.invalid (duplicateArgument "topic")) := by
  intro topic tone p before steps supplied q
  have hobtained : p.Obtained := .new "review" before rfl
  have hvalid : ∀ a, .argument a ∈ steps → Valid a := by
    intro a ha
    rcases mem_appended_iff.mpr ha with _ | ⟨_, _ | ⟨_, _ | ⟨_, ⟨⟩⟩⟩⟩ <;> rfl
  have hfirst : FirstRepetition steps before topic :=
    ⟨⟨[.description ""], rfl⟩, by decide, by decide⟩
  obtain ⟨hprompts, hsteps⟩ := arguments_named_once
  obtain ⟨hrefused, hrules⟩ := (hsteps "review" steps (by decide) hvalid).2 before topic hfirst
  obtain ⟨-, hread, hencoded⟩ := hrules q (by decide) rfl
  exact ⟨hobtained, ((hprompts p hobtained).2.2 supplied).1, hvalid, hfirst, hrefused ⟨p, rfl⟩,
    hread _ hencoded⟩

end Prompt
end ContextProtocol
