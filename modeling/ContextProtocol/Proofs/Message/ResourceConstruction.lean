import ContextProtocol.Proofs.Message.Constructible

/-!
# Resources are made of bodies of one kind

A body is refused once there is one of the other kind, so it is the first body that says which ones
may follow, and among these a later one takes the place of an earlier one. Annotations are looked at
when the resource is finished, so only the last ones count. What is carried along the steps is a
resource with at most one body, of which a step only looks at the kind.

Results:
* `ResourceContent.apply_ofBody`, `ResourceContent.applyAll_ofBody`: one step, and all of them, from
  a resource with at most one body.
* `ResourceContent.new_eq_ok_iff`: which steps make a resource, and which resource.
* `ResourceContent.new_with_one_kind`: the same read off the list of steps, and where a step is
  refused.
-/
namespace ContextProtocol

/-! ## Steps -/

/-- The two kinds of body. -/
inductive BodyKind where
  | text
  | blob
  deriving DecidableEq

namespace ResourceContentStep

/-- The body that the step gives, with its kind. -/
def body? : ResourceContentStep → Option (BodyKind × String)
  | .text body => some (.text, body)
  | .blob body => some (.blob, body)
  | .mimeType _ | .annotations _ => none

/-- The type that the step gives. -/
def mimeType? : ResourceContentStep → Option String
  | .mimeType type => some type
  | .text _ | .blob _ | .annotations _ => none

/-- The annotations that the step gives. -/
def annotations? : ResourceContentStep → Option Annotations
  | .annotations a => some a
  | .text _ | .blob _ | .mimeType _ => none

/-- Why the step is refused where the first body is of a kind. -/
def refusal? (first : Option BodyKind) : ResourceContentStep → Option ConstructionError
  | .text _ => if first = some .blob then some ⟨"text", "blob is already set"⟩ else none
  | .blob _ => if first = some .text then some ⟨"blob", "text is already set"⟩ else none
  | .mimeType type => if type = "" then some (.empty "mimeType") else none
  | .annotations _ => none

end ResourceContentStep

namespace ResourceContent
open ResourceContentStep

/-- The bodies that the steps give, with their kinds. -/
def bodies (steps : List ResourceContentStep) : List (BodyKind × String) := steps.filterMap body?

/-- The kind of the first body. -/
def firstKind (steps : List ResourceContentStep) : Option BodyKind := (bodies steps).head?.map (·.1)

/-- A resource with at most one body. -/
def ofBody (uri : String) (mimeType : Option String) (body : Option (BodyKind × String))
    (annotations : Option Annotations) : ResourceContent where
  uri
  mimeType
  text := body.bind fun b => match b.1 with | .text => some b.2 | .blob => none
  blob := body.bind fun b => match b.1 with | .text => none | .blob => some b.2
  annotations

variable {uri : String} {mimeType : Option String} {body : Option (BodyKind × String)}
  {annotations : Option Annotations}

/-- A step looks at the kind of the body that is there, and replaces what it gives. -/
theorem apply_ofBody (s : ResourceContentStep) :
    Validated.apply (ofBody uri mimeType body annotations) s =
      match s.refusal? (body.map (·.1)) with
      | some e => .error e
      | none => .ok (ofBody uri (s.mimeType?.or mimeType) (s.body?.or body)
          (s.annotations?.or annotations)) := by
  cases s with
  | text b => rcases body with _ | ⟨_ | _, b'⟩ <;> rfl
  | blob b => rcases body with _ | ⟨_ | _, b'⟩ <;> rfl
  | mimeType type =>
    by_cases htype : type = "" <;>
      simp [Validated.apply, refusal?, htype, checkNonEmpty, ofBody, body?,
        ResourceContentStep.mimeType?, ResourceContentStep.annotations?, pure, Except.pure]
  | annotations a => rfl

/-- A step is not refused for its own body, nor for one that comes later. -/
theorem refusal?_of_first (s : ResourceContentStep) (first later : Option BodyKind) :
    s.refusal? (first.or ((s.body?.map (·.1)).or later)) = s.refusal? first := by
  cases s with
  | text b => cases first <;> simp [refusal?, body?]
  | blob b => cases first <;> simp [refusal?, body?]
  | mimeType type => rfl
  | annotations a => rfl

theorem firstKind_cons (s : ResourceContentStep) (steps : List ResourceContentStep) :
    firstKind (s :: steps) = (s.body?.map (·.1)).or (firstKind steps) := by
  unfold firstKind bodies
  cases h : s.body? <;> simp [h]

/-- A step that is not refused leaves the kind of the first body as it is. -/
theorem kind_of_accepted {s : ResourceContentStep} (h : s.refusal? (body.map (·.1)) = none) :
    (s.body?.or body).map (·.1) = (body.map (·.1)).or (s.body?.map (·.1)) := by
  cases s with
  | text b =>
    rcases body with _ | ⟨_ | _, there⟩
    · rfl
    · rfl
    · cases h
  | blob b =>
    rcases body with _ | ⟨_ | _, there⟩
    · rfl
    · cases h
    · rfl
  | mimeType type | annotations a => exact (Option.or_none ..).symm

/-- The steps are refused at the first one with an empty type or with a body of another kind than
the first body. Otherwise the last body, the last type and the last annotations count. -/
theorem applyAll_ofBody (steps : List ResourceContentStep) :
    applyAll (ofBody uri mimeType body annotations) steps =
      match steps.findSome? (refusal? ((body.map (·.1)).or (firstKind steps))) with
      | some e => .error e
      | none => .ok (ofBody uri ((steps.filterMap mimeType?).getLast?.or mimeType)
          ((bodies steps).getLast?.or body)
          ((steps.filterMap annotations?).getLast?.or annotations)) := by
  -- the kind that decides is that of the body already there, or of the first one to come: each
  -- accepted step moves the one into the other
  induction steps generalizing mimeType body annotations with
  | nil => rfl
  | cons s steps ih =>
    rw [applyAll_cons, apply_ofBody, firstKind_cons, List.findSome?_cons, refusal?_of_first]
    cases hs : s.refusal? (body.map (·.1)) with
    | some e => rfl
    | none =>
      simp only [Outcome.ok_bind, ih, kind_of_accepted hs, Option.or_assoc, bodies,
        getLast?_filterMap_cons]

/-! ## The resource that is made -/

theorem refusal?_eq_none_iff {kind : BodyKind} {s : ResourceContentStep} :
    s.refusal? (some kind) = none ↔
      (∀ b, s.body? = some b → b.1 = kind) ∧ s ≠ .mimeType "" := by
  cases s <;> cases kind <;> simp [refusal?, body?]

/-- Where there is a body, no step is refused when all bodies are of its kind and no type is
empty. -/
theorem findSome?_refusal?_eq_none_iff {kind : BodyKind} {steps : List ResourceContentStep} :
    steps.findSome? (refusal? (some kind)) = none ↔
      (∀ b ∈ bodies steps, b.1 = kind) ∧ .mimeType "" ∉ steps := by
  rw [List.findSome?_eq_none_iff]
  simp only [refusal?_eq_none_iff, bodies, List.mem_filterMap]
  constructor
  · intro h
    exact ⟨fun b ⟨s, hs, hb⟩ => (h s hs).1 b hb, fun hs => (h _ hs).2 rfl⟩
  · rintro ⟨hbodies, htype⟩ s hs
    exact ⟨fun b hb => hbodies b ⟨s, hs, hb⟩, fun heq => htype (heq ▸ hs)⟩

/-- In a valid resource there is exactly one body. -/
theorem valid_ofBody_iff : Valid (ofBody uri mimeType body annotations) ↔
    uri ≠ "" ∧ body ≠ none ∧ Annotations.check annotations = .ok () := by
  rw [valid_iff]
  rcases body with _ | ⟨_ | _, b⟩ <;> simp [ofBody, checkBody]

theorem firstKind_eq_some {steps : List ResourceContentStep} (h : bodies steps ≠ []) :
    ∃ b ∈ bodies steps, firstKind steps = some b.1 := by
  obtain ⟨b, rest, hb⟩ := List.exists_cons_of_ne_nil h
  exact ⟨b, hb ▸ List.mem_cons_self, by rw [firstKind, hb]; rfl⟩

/-- The resource that the steps make. -/
def made (uri : String) (steps : List ResourceContentStep) : ResourceContent :=
  ofBody uri (steps.filterMap mimeType?).getLast? (bodies steps).getLast?
    (steps.filterMap annotations?).getLast?

theorem applyAll_eq (uri : String) (steps : List ResourceContentStep) :
    applyAll (⟨uri, none, none, none, none⟩ : ResourceContent) steps =
      match steps.findSome? (refusal? (firstKind steps)) with
      | some e => .error e
      | none => .ok (made uri steps) := by
  have h := @applyAll_ofBody uri none none none steps
  simp only [Option.map_none, Option.none_or, Option.or_none] at h
  exact h

theorem new_eq_ok_iff {steps : List ResourceContentStep} {c : ResourceContent} :
    (new uri steps).result = .ok c ↔
      steps.findSome? (refusal? (firstKind steps)) = none ∧ made uri steps = c ∧ Valid c := by
  rw [new, build_eq_ok_iff, applyAll_eq]
  cases steps.findSome? (refusal? (firstKind steps)) with
  | some e => simp
  | none => simp

theorem valid_made_iff {steps : List ResourceContentStep} : Valid (made uri steps) ↔
    uri ≠ "" ∧ bodies steps ≠ [] ∧
      ∀ a, (steps.filterMap annotations?).getLast? = some a → Valid a := by
  simp only [made, valid_ofBody_iff, Annotations.check_eq_ok_iff, ne_eq, List.getLast?_eq_none_iff]

/-- What it takes to make a resource, and what it holds. A resource is made when there is an
address, there are bodies and all of one kind, no type is empty, and the last annotations are valid.
It holds the last body, the last type and the last annotations. A step is refused when it is the
first with a body of another kind than the first body, or with an empty type. -/
theorem new_with_one_kind (uri : String) (steps : List ResourceContentStep) :
    ((∃ c, (new uri steps).result = .ok c) ↔
      uri ≠ "" ∧ bodies steps ≠ [] ∧ (∃ kind, ∀ b ∈ bodies steps, b.1 = kind) ∧
        (∀ type, .mimeType type ∈ steps → type ≠ "") ∧
        ∀ a, (steps.filterMap annotations?).getLast? = some a → Valid a) ∧
    (∀ c, (new uri steps).result = .ok c → ∃ body, (bodies steps).getLast? = some body ∧
      c.text.isSome ≠ c.blob.isSome ∧
      c = ofBody uri (steps.filterMap mimeType?).getLast? (some body)
        (steps.filterMap annotations?).getLast?) ∧
    ∀ e, (applyAll (⟨uri, none, none, none, none⟩ : ResourceContent) steps = .error e ↔
        steps.findSome? (refusal? (firstKind steps)) = some e) ∧
      (applyAll (⟨uri, none, none, none, none⟩ : ResourceContent) steps = .error e →
        (new uri steps).result = .error e) := by
  refine ⟨?accepted, fun c hc => ?held, fun e => ⟨?refused, fun h => ?_⟩⟩
  case accepted =>
    have hexists : (∃ c, (new uri steps).result = .ok c) ↔
        steps.findSome? (refusal? (firstKind steps)) = none ∧ Valid (made uri steps) := by
      simp only [new_eq_ok_iff]
      exact ⟨fun ⟨_, h, rfl, hvalid⟩ => ⟨h, hvalid⟩, fun ⟨h, hvalid⟩ => ⟨_, h, rfl, hvalid⟩⟩
    rw [hexists, valid_made_iff]
    by_cases hbodies : bodies steps = []
    · simp [hbodies]
    · obtain ⟨b, hb, hfirst⟩ := firstKind_eq_some hbodies
      have hkinds : (∃ kind, ∀ b ∈ bodies steps, b.1 = kind) ↔ ∀ c ∈ bodies steps, c.1 = b.1 :=
        ⟨fun ⟨kind, h⟩ c hc => (h c hc).trans (h b hb).symm, fun h => ⟨b.1, h⟩⟩
      have htypes : (∀ type, .mimeType type ∈ steps → type ≠ "") ↔ .mimeType "" ∉ steps :=
        ⟨fun h hmem => h _ hmem rfl, fun h type hmem heq => h (heq ▸ hmem)⟩
      rw [hfirst, findSome?_refusal?_eq_none_iff, hkinds, htypes]
      tauto
  case held =>
    obtain ⟨-, rfl, hvalid⟩ := new_eq_ok_iff.mp hc
    obtain ⟨body, hbody⟩ := Option.ne_none_iff_exists'.mp (valid_ofBody_iff.mp hvalid).2.1
    have hmade : made uri steps = ofBody uri (steps.filterMap mimeType?).getLast? (some body)
        (steps.filterMap annotations?).getLast? := by rw [made, hbody]
    refine ⟨body, hbody, ?_, hmade⟩
    rw [hmade]
    rcases body with ⟨_ | _, b⟩ <;> simp [ofBody]
  case refused =>
    rw [applyAll_eq]
    cases steps.findSome? (refusal? (firstKind steps)) <;> simp
  · rw [new, build_result, h]
    rfl

/-- A body may be replaced by one of its kind, and annotations that are not valid by valid ones. A
text after a blob is refused before the empty type that follows. -/
theorem new_with_one_kind_replaced :
    let repeated : Annotations := ⟨[.user, .user], none⟩
    let steps : List ResourceContentStep := [.annotations repeated, .text "a", .mimeType "t",
      .text "b", .annotations ⟨[.user], none⟩]
    let mixed : List ResourceContentStep := [.blob "a", .blob "b", .text "c", .mimeType ""]
    ¬ Valid repeated ∧
      (new "u" steps).result = .ok ⟨"u", some "t", some "b", none, some ⟨[.user], none⟩⟩ ∧
      (new "u" mixed).result = .error ⟨"text", "blob is already set"⟩ := by
  intro repeated steps mixed
  obtain ⟨haccepted, hheld, -⟩ := new_with_one_kind "u" steps
  obtain ⟨hrefused, herror⟩ := (new_with_one_kind "u" mixed).2.2 ⟨"text", "blob is already set"⟩
  have hexists : ∃ c, (new "u" steps).result = .ok c := by
    refine haccepted.mpr ⟨by decide, by decide, ⟨.text, by decide⟩, ?_, ?_⟩
    · intro type htype
      have : type = "t" := by simpa [steps] using htype
      simp [this]
    · rintro a ha
      cases ha
      decide
  obtain ⟨c, hc⟩ := hexists
  obtain ⟨body, hbody, -, rfl⟩ := hheld c hc
  cases hbody
  exact ⟨by decide, hc, herror (hrefused.mpr rfl)⟩

end ResourceContent
end ContextProtocol
