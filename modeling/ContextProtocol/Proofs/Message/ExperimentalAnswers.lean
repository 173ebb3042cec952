import ContextProtocol.Proofs.Message.Payloads
import ContextProtocol.Proofs.Message.PlainTrip

/-!
# What is answered about an experimental capability

An experimental capability is a name and a payload that only its users understand. A step writes the
payload down as a text, and what is asked for under a name is read off the text that stands there.
So what is answered depends on the **last step that names it**, and on nothing else: earlier steps
under the same name are forgotten, and the other steps, which say something else or name something
else, leave it as it was. The answer is the same from the message that is sent and received.

* `CapabilitySide`: the two sides of a connection, and the capabilities of each;
* `CapabilitySide.payloadsOf`: the payloads that steps give under a name, in their order;
* `CapabilitySide.answer`: what is read under a name.

Results:
* `experimental_of_apply`: what one step does to the payloads.
* `get?_of_applyAll`, `get?_of_new`: under a name stands the last payload that was given to it.
* `answer_of_new`: so the answer is what the text of this payload is read as.
* `decode_encode_of_new`: what was built comes back from its text, with all payloads.
* `answer_by_last_step`: all of it; a payload that its text gives back is itself the answer.
-/
namespace ContextProtocol

/-- The two sides of a connection. -/
inductive CapabilitySide where
  | server
  | client

namespace CapabilitySide

/-- What a side can do. -/
abbrev Carrier : CapabilitySide → Type
  | .server => ServerCapabilities
  | .client => ClientCapabilities

/-- The steps in the construction of the capabilities of a side. -/
abbrev Step : CapabilitySide → Type
  | .server => ServerCapabilityStep
  | .client => ClientCapabilityStep

instance message : (s : CapabilitySide) → Message s.Carrier
  | .server => inferInstanceAs (Message ServerCapabilities)
  | .client => inferInstanceAs (Message ClientCapabilities)

instance validated : (s : CapabilitySide) → Validated s.Carrier s.Step
  | .server => inferInstanceAs (Validated ServerCapabilities ServerCapabilityStep)
  | .client => inferInstanceAs (Validated ClientCapabilities ClientCapabilityStep)

/-- The capabilities of a side that has none. -/
def none : (s : CapabilitySide) → s.Carrier
  | .server => ServerCapabilities.none
  | .client => ClientCapabilities.none

/-- The construction of the capabilities of a side. -/
def new : (s : CapabilitySide) → List s.Step → Traced ConstructionError s.Carrier
  | .server => ServerCapabilities.new
  | .client => ClientCapabilities.new

/-- The experimental capabilities of a side. -/
def experimental : (s : CapabilitySide) → s.Carrier → ExperimentalCapabilities
  | .server, c => ServerCapabilities.experimental c
  | .client, c => ClientCapabilities.experimental c

/-- The name and the payload of an experimental capability that a step adds. -/
def payload? : (s : CapabilitySide) → s.Step → Option (String × Json)
  | .server, .experimental name v => some (name, v)
  | .client, .experimental name v => some (name, v)
  | .server, _ | .client, _ => .none

variable (s : CapabilitySide)

/-- The payload that a step gives to a name. -/
def payloadOf (name : String) (step : s.Step) : Option Json :=
  (s.payload? step).bind fun e => if e.1 = name then some e.2 else .none

/-- The payloads that steps give to a name, in their order. -/
def payloadsOf (name : String) (steps : List s.Step) : List Json :=
  steps.filterMap (s.payloadOf name)

/-- What is read under a name. -/
def answer {α : Type} (dec : Decoder α) (c : s.Carrier) (name : String) :
    Option (Except DecodeError α) :=
  (ExperimentalCapabilities.read dec (s.experimental c) name).map (·.result)

theorem new_eq (steps : List s.Step) : s.new steps = build s.none steps := by
  cases s with
  | server => rfl
  | client => rfl

variable {s : CapabilitySide} {c d : s.Carrier} {steps : List s.Step} {name : String}

/-- An accepted step writes its payload down under its name, and leaves all others as they are. -/
theorem experimental_of_apply {step : s.Step} (h : Validated.apply c step = .ok d) :
    s.experimental d = (s.payload? step).elim (s.experimental c)
      fun e => (s.experimental c).insert e.1 (.ofJson e.2) := by
  cases s with
  | server =>
    cases step with
    | experimental name v =>
      obtain ⟨added, hadd, hd⟩ := Outcome.bind_eq_ok_iff.mp h
      obtain ⟨-, rfl⟩ := checkNonEmpty_bind_eq_ok_iff.mp hadd
      cases hd
      rfl
    | logging | prompts p | resources r | tools t =>
      cases h
      rfl
  | client =>
    cases step with
    | experimental name v =>
      obtain ⟨added, hadd, hd⟩ := Outcome.bind_eq_ok_iff.mp h
      obtain ⟨-, rfl⟩ := checkNonEmpty_bind_eq_ok_iff.mp hadd
      cases hd
      rfl
    | roots r | sampling =>
      cases h
      rfl

theorem get?_of_apply {step : s.Step} (h : Validated.apply c step = .ok d) (name : String) :
    (s.experimental d).get? name =
      ((s.payloadOf name step).map RawPayload.ofJson).or ((s.experimental c).get? name) := by
  rw [experimental_of_apply h, payloadOf]
  cases hstep : s.payload? step with
  | none => rfl
  | some e =>
    by_cases hname : e.1 = name
    · simp [hname]
    · simp [hname, Table.get?_insert_of_ne _ (Ne.symm hname)]

/-- Under a name stands the last payload that the steps gave to it, or what stood there before. -/
theorem get?_of_applyAll (h : applyAll c steps = .ok d) (name : String) :
    (s.experimental d).get? name =
      ((s.payloadsOf name steps).getLast?.map RawPayload.ofJson).or
        ((s.experimental c).get? name) := by
  induction steps generalizing c with
  | nil =>
    cases h
    rfl
  | cons step steps ih =>
    rw [applyAll_cons, Outcome.bind_eq_ok_iff] at h
    obtain ⟨b, hb, hrest⟩ := h
    have hlast : (s.payloadsOf name (step :: steps)).getLast? =
        (s.payloadsOf name steps).getLast?.or (s.payloadOf name step) := by
      have hcons := getLast?_filterMap_cons (s.payloadOf name) step steps .none
      rwa [Option.or_none, Option.or_none] at hcons
    rw [ih hrest, get?_of_apply hb name, hlast, ← Option.or_assoc, ← Option.map_or]

theorem get?_of_new (h : (s.new steps).result = .ok c) (name : String) :
    (s.experimental c).get? name = (s.payloadsOf name steps).getLast?.map RawPayload.ofJson := by
  rw [new_eq, build_eq_ok_iff] at h
  rw [get?_of_applyAll h.1 name]
  cases s with
  | server => exact Option.or_none
  | client => exact Option.or_none

theorem payload_of_new (h : (s.new steps).result = .ok c) {p : RawPayload}
    (hp : (s.experimental c).get? name = some p) : ∃ v, p = .ofJson v := by
  rw [get?_of_new h, Option.map_eq_some_iff] at hp
  obtain ⟨v, -, rfl⟩ := hp
  exact ⟨v, rfl⟩

/-- What is read under a name is the text of the last payload that was given to it. -/
theorem answer_of_new (h : (s.new steps).result = .ok c) {α : Type} (dec : Decoder α)
    (name : String) :
    s.answer dec c name = (s.payloadsOf name steps).getLast?.map
      fun v => (dec.runString v.text).result.mapError .json := by
  rw [answer, ExperimentalCapabilities.read, get?_of_new h, Option.map_map, Option.map_map]
  rfl

/-- What was built comes back from its text: the payloads are texts of values. -/
theorem decode_encode_of_new (h : (s.new steps).result = .ok c) :
    (Wire.decode (Wire.encode c).toUTF8 : Traced DecodeError s.Carrier).result = .ok c := by
  have hcaptured : ∀ e ∈ (s.experimental c).entries, e.2.Captured := by
    intro e he
    obtain ⟨v, hv⟩ := payload_of_new h (Table.mem_entries_iff.mp he)
    exact hv ▸ RawPayload.captured_ofJson v
  have hvalid : Valid c := by
    rw [new_eq] at h
    exact validate_of_build h
  refine Wire.decode_eq_ok_iff.mpr ⟨?_, hvalid⟩
  cases s with
  | server =>
    exact (ServerCapabilities.roundTrips hcaptured).run
      (Nat.le_trans (ServerCapabilities.neat c).2 (by decide))
  | client =>
    exact (ClientCapabilities.roundTrips hcaptured).run
      (Nat.le_trans (ClientCapabilities.neat c).2 (by decide))

/-- Under a name that no step gave a payload to there is no answer. Otherwise the answer is read off
the text of the payload that the last of these steps gave, and is this payload if the text gives it
back: if there is room for it and no object in it begins with the reserved name. What comes back
from the text of the capabilities is what was built. And steps that end in the same payload for a
name come to the same answers under it, whatever else they say. -/
theorem answer_by_last_step (h : (s.new steps).result = .ok c) :
    (∀ name, s.payloadsOf name steps = [] → ∀ {α : Type} (dec : Decoder α),
      s.answer dec c name = .none) ∧
    (∀ name v, (s.payloadsOf name steps).getLast? = some v →
      (∀ {α : Type} (dec : Decoder α),
        s.answer dec c name = some ((dec.runString v.text).result.mapError .json)) ∧
      (s.answer .json c name = some (.ok v) ↔ v.Recovered) ∧
      (v.Canonical →
        (v.Recovered ↔ (Form.ofJson v).Bare ∧ (Form.ofJson v).depth ≤ Origin.maxDepth))) ∧
    (Wire.decode (Wire.encode c).toUTF8 : Traced DecodeError s.Carrier).result = .ok c ∧
    ∀ steps' c', (s.new steps').result = .ok c' → ∀ name,
      (s.payloadsOf name steps').getLast? = (s.payloadsOf name steps).getLast? →
        ∀ {α : Type} (dec : Decoder α), s.answer dec c' name = s.answer dec c name := by
  refine ⟨fun name hnone α dec => ?_, fun name v hlast => ⟨fun dec => ?_, ?_, fun hv => ?_⟩,
    decode_encode_of_new h, fun steps' c' h' name hsame α dec => ?_⟩
  · rw [answer_of_new h, hnone]
    rfl
  · rw [answer_of_new h, hlast]
    rfl
  · rw [answer_of_new h, hlast, Option.map_some, Option.some_inj, Outcome.mapError_eq_ok_iff]
    exact Iff.rfl
  · rw [Json.recovered_iff, and_iff_right hv]
  · rw [answer_of_new h, answer_of_new h', hsame]

/-- A payload is replaced, between steps that say something else. What is read is the second one,
as from capabilities that were never given the first. -/
theorem answer_by_last_step_replaced :
    let first : Json := .object [("a", .number (.integer 1 (by decide)))]
    let second : Json := .array [.object [("b", .null)], .bool true]
    let steps : List ServerCapabilityStep := [.experimental "batch" first, .logging,
      .experimental "trace" (.string "on"), .experimental "batch" second, .tools ⟨some true⟩]
    ∃ c d, (new .server steps).result = .ok c ∧
      (new .server [.experimental "batch" second]).result = .ok d ∧
      second.Canonical ∧ (Form.ofJson second).Bare ∧
      (Form.ofJson second).depth ≤ Origin.maxDepth ∧
      answer .server .json c "batch" = some (.ok second) ∧
      answer .server .json d "batch" = some (.ok second) ∧
      answer .server .json c "progress" = .none ∧
      (Wire.decode (Wire.encode c).toUTF8 : Traced DecodeError ServerCapabilities).result =
        .ok c := by
  intro first second steps
  have hc : (new .server steps).result = .ok ⟨.ofList [("batch", .ofJson second),
      ("trace", .ofJson (.string "on"))], some ⟨⟩, .none, .none, some ⟨some true⟩⟩ := by cbv
  have hd : (new .server [.experimental "batch" second]).result =
      .ok ⟨.ofList [("batch", .ofJson second)], .none, .none, .none, .none⟩ := by rfl
  have hcanonical : second.Canonical := by decide +kernel
  have hbare : (Form.ofJson second).Bare := by decide +kernel
  have hdepth : (Form.ofJson second).depth ≤ Origin.maxDepth := by decide +kernel
  obtain ⟨habsent, hlast, hdecode, hsame⟩ := answer_by_last_step hc
  obtain ⟨-, hanswer, hrecovered⟩ := hlast "batch" second rfl
  have hread := hanswer.mpr ((hrecovered hcanonical).mpr ⟨hbare, hdepth⟩)
  exact ⟨_, _, hc, hd, hcanonical, hbare, hdepth, hread,
    (hsame _ _ hd "batch" rfl .json).trans hread, habsent "progress" rfl .json, hdecode⟩

end CapabilitySide
end ContextProtocol
