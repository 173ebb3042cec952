import ContextProtocol.Message.Envelope
import ContextProtocol.Message.Wire
import ContextProtocol.Proofs.Outcome

/-!
# Reading in stages

A message is read first and held against its rules afterwards, so what comes out is what was read,
and valid. An envelope has two stages: its members are read from the text or the value, and its
params from the text of a member, once the method is known to be right.

Results:
* `Traced.checked_eq_ok_iff`: a reading that ends with the rules.
* `Wire.decode_eq_ok_iff`, `Wire.decode_of_invalid`, `Wire.decode_of_valid`: the entry points, and
  what they do with what breaks the rules and where everything that is read is valid.
* `Envelope.ofMembers_eq_ok_iff`: the second stage of an envelope.
* `Envelope.decode_eq_ok_iff`, `Envelope.fromValue_eq_ok_iff`: both stages, from a text or a value.
* `Envelope.Decoded.valid`: whichever decoder an envelope comes from, it is valid.
-/
namespace ContextProtocol

/-- A reading that ends with the rules gives what was read, if that is valid. -/
theorem Traced.checked_eq_ok_iff {ε α Step : Type} [Validated α Step] {read : Traced ε α}
    {f : ConstructionError → ε} {v : α} :
    (do
      let a ← read
      (validate a).mapError f
      return a : Traced ε α).result = .ok v ↔ read.result = .ok v ∧ Valid v := by
  rw [result_bind, Outcome.bind_eq_ok_iff]
  constructor
  · rintro ⟨a, hread, h⟩
    rw [result_bind, Outcome.bind_eq_ok_iff] at h
    obtain ⟨u, hvalid, h⟩ := h
    cases h
    exact ⟨hread, Outcome.mapError_eq_ok_iff.mp hvalid⟩
  · rintro ⟨hread, hvalid⟩
    refine ⟨v, hread, ?_⟩
    rw [result_bind, Outcome.bind_eq_ok_iff]
    exact ⟨(), Outcome.mapError_eq_ok_iff.mpr hvalid, rfl⟩

namespace Wire

variable {α Step : Type} [Message α] [Validated α Step] {bytes : ByteArray} {v : α}

/-- What is decoded was read and obeys the rules. -/
theorem decode_eq_ok_iff : (decode bytes : Traced DecodeError α).result = .ok v ↔
    ((Message.codec : Codec α).decode.run bytes).result = .ok v ∧ Valid v := by
  rw [decode, Traced.checked_eq_ok_iff, Traced.result_mapError, Outcome.mapError_eq_ok_iff]

theorem valid_of_decode (h : (decode bytes : Traced DecodeError α).result = .ok v) : Valid v :=
  (decode_eq_ok_iff.mp h).2

theorem valid_of_decodeWith {config : Config}
    (h : (decodeWith config bytes : Traced DecodeError α).result = .ok v) : Valid v := by
  obtain ⟨u, -, hread⟩ := Traced.bind_eq_ok_iff.mp h
  exact valid_of_decode hread

/-- What is read and breaks the rules is refused for the reason that the rules give. -/
theorem decode_of_invalid {e : ConstructionError}
    (hread : ((Message.codec : Codec α).decode.run bytes).result = .ok v)
    (hrules : validate v = .error e) :
    (decode bytes : Traced DecodeError α).result = .error (.invalid e) := by
  rw [decode, Traced.result_bind, Traced.result_mapError, hread, Outcome.mapError_ok,
    Outcome.ok_bind, Traced.result_bind, Traced.result_liftM, hrules]
  rfl

/-- Where everything that is read is valid, the rules never refuse. -/
theorem decode_of_valid
    (h : ∀ v, ((Message.codec : Codec α).decode.run bytes).result = .ok v → Valid v) :
    (decode bytes : Traced DecodeError α).result =
      ((Message.codec : Codec α).decode.run bytes).result.mapError .json := by
  rw [decode, Traced.result_bind, Traced.result_mapError]
  cases hread : ((Message.codec : Codec α).decode.run bytes).result with
  | error e => rfl
  | ok v =>
    have hrules : validate v = .ok () := h v hread
    rw [Outcome.mapError_ok, Outcome.ok_bind, Traced.result_bind, Traced.result_liftM, hrules]
    rfl

end Wire

namespace Envelope

variable {E Step : Type} [Envelope E Step] {e : E}

/-- The params of an envelope of the right method are read and its rules checked. -/
theorem ofMembers_eq_ok_iff {m : EnvelopeMembers} :
    (ofMembers m : Traced DecodeError E).result = .ok e ↔ m.method = method E ∧
      ((params : Codec E).decode.runString (m.params.getD "\x7b\x7d")).result = .ok e ∧
        Valid e := by
  unfold ofMembers
  by_cases hmethod : m.method = method E
  · simp only [hmethod, ne_eq, not_true_eq_false, if_false, true_and]
    rw [Traced.checked_eq_ok_iff, Traced.result_mapError, Outcome.mapError_eq_ok_iff]
  · simp [hmethod]

theorem decode_eq_ok_iff {bytes : ByteArray} :
    (decode bytes : Traced DecodeError E).result = .ok e ↔
      ∃ m, (EnvelopeMembers.record.decode.run bytes).result = .ok m ∧
        (ofMembers m : Traced DecodeError E).result = .ok e := by
  unfold decode
  rw [Traced.bind_eq_ok_iff, Traced.result_mapError]
  simp only [Outcome.mapError_eq_ok_iff]

theorem fromValue_eq_ok_iff {v : Json} : (fromValue v : Traced DecodeError E).result = .ok e ↔
    ∃ m, (EnvelopeMembers.record.decode.runValue v).result = .ok m ∧
      (ofMembers m : Traced DecodeError E).result = .ok e := by
  unfold fromValue
  rw [Traced.bind_eq_ok_iff, Traced.result_mapError]
  simp only [Outcome.mapError_eq_ok_iff]

theorem valid_of_decode {bytes : ByteArray}
    (h : (decode bytes : Traced DecodeError E).result = .ok e) : Valid e := by
  obtain ⟨m, -, hread⟩ := decode_eq_ok_iff.mp h
  exact (ofMembers_eq_ok_iff.mp hread).2.2

theorem valid_of_fromValue {v : Json}
    (h : (fromValue v : Traced DecodeError E).result = .ok e) : Valid e := by
  obtain ⟨m, -, hread⟩ := fromValue_eq_ok_iff.mp h
  exact (ofMembers_eq_ok_iff.mp hread).2.2

/-- The envelopes that decoders return: from texts, values and frames, and at the entry points. -/
inductive Decoded (e : E) : Prop where
  | ofBytes (bytes : ByteArray) (h : (decode bytes : Traced DecodeError E).result = .ok e)
  | ofValue (v : Json) (h : (fromValue v : Traced DecodeError E).result = .ok e)
  | ofRequest (r : Request) (h : (fromRequest r : Traced DecodeError E).result = .ok e)
  | wire (bytes : ByteArray) (h : (Wire.decode bytes : Traced DecodeError E).result = .ok e)
  | bounded (config : Config) (bytes : ByteArray)
      (h : (Wire.decodeWith config bytes : Traced DecodeError E).result = .ok e)

theorem Decoded.valid (h : Decoded e) : Valid e := by
  cases h with
  | ofBytes bytes h => exact valid_of_decode h
  | ofValue v h => exact valid_of_fromValue h
  | ofRequest r h => exact valid_of_fromValue h
  | wire bytes h => exact Wire.valid_of_decode h
  | bounded config bytes h => exact Wire.valid_of_decodeWith h

end Envelope

end ContextProtocol
