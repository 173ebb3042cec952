import ContextProtocol.Proofs.Message.ErrorRegistry
import ContextProtocol.Proofs.Message.Params
import ContextProtocol.Proofs.Message.Stages

/-!
# Two ways to read a message

Content, errors and envelopes have readers of their own, which name what is wrong with a tag, a
method or a rule. At the entry points the same messages are read in two steps: as the codec of the
type, where the error of the own reader becomes the words of a shape error, and then by the rules.
The own reader has checked the rules before, so the second check finds nothing.

Results:
* `Decoder.run_refine_eq_ok_iff`: a refined decoder succeeds on a text when the decoder does and
  what it read is accepted, whatever follows the value in the text.
* `MessageKind.wire_decode`: both ways accept the same texts with the same results, and at the entry
  points every failure is one of the shape.
-/
namespace ContextProtocol

/-! ## Refined decoders -/

namespace Decoder

variable {α β : Type} {d : Decoder α} {f : α → Traced ShapeError β}

/-- A refined decoder first reads the whole text. What follows the value is looked at last, but it
is looked at. -/
theorem run_refine_eq_ok_iff {bytes : ByteArray} {b : β} :
    ((d.refine f).run bytes).result = .ok b ↔
      ∃ a, (d.run bytes).result = .ok a ∧ (f a).result = .ok b := by
  have hrefine : ∀ origin doc, ((d.refine f) origin doc).result = .ok b ↔
      ∃ a, (d origin doc).result = .ok a ∧ (f a).result = .ok b := fun origin doc => by
    rw [refine, Traced.bind_eq_ok_iff]
  simp only [run, runDocument_eq_ok_iff, hrefine]
  constructor
  · rintro ⟨⟨a, hread, hf⟩, htrailing⟩
    exact ⟨a, ⟨hread, htrailing⟩, hf⟩
  · rintro ⟨a, ⟨hread, htrailing⟩, hf⟩
    exact ⟨⟨a, hread, hf⟩, htrailing⟩

end Decoder

/-- What is read is valid, by any registry. -/
theorem ErrorInfo.valid_of_decodeWith {r : ErrorRegistry} {bytes : ByteArray} {i : ErrorInfo}
    (h : (decodeWith r bytes).result = .ok i) : Valid i := by
  obtain ⟨v, -, hread⟩ := decodeWith_eq_ok_iff.mp h
  obtain ⟨m, -, -, -, -, hvalid⟩ := fromValueWith_eq_ok_iff.mp hread
  exact hvalid

/-! ## All messages with a reader of their own -/

/-- The types that have a reader of their own. -/
inductive MessageKind where
  | content
  | error
  | envelope (kind : EnvelopeKind)

namespace MessageKind

/-- The messages of a type. -/
abbrev Carrier : MessageKind → Type
  | .content => Content
  | .error => ErrorInfo
  | .envelope kind => kind.Carrier

/-- The steps in the construction of a message. -/
abbrev Step : MessageKind → Type
  | .content => Empty
  | .error => ErrorInfoStep
  | .envelope kind => kind.Step

instance message : (k : MessageKind) → Message k.Carrier
  | .content => inferInstanceAs (Message Content)
  | .error => inferInstanceAs (Message ErrorInfo)
  | .envelope kind => inferInstanceAs (Message kind.Carrier)

instance validated : (k : MessageKind) → Validated k.Carrier k.Step
  | .content => inferInstanceAs (Validated Content Empty)
  | .error => inferInstanceAs (Validated ErrorInfo ErrorInfoStep)
  | .envelope kind => inferInstanceAs (Validated kind.Carrier kind.Step)

/-- The reader of the type. -/
def decode : (k : MessageKind) → ByteArray → Traced DecodeError k.Carrier
  | .content, bytes => Content.decode bytes
  | .error, bytes => ErrorInfo.decode bytes
  | .envelope _, bytes => Envelope.decode bytes

/-- The reader of the type only returns valid messages. -/
theorem valid_of_decode {k : MessageKind} {bytes : ByteArray} {v : k.Carrier}
    (h : (k.decode bytes).result = .ok v) : Valid v := by
  cases k with
  | content =>
    obtain ⟨_, -, hread⟩ := Content.decode_eq_ok_iff.mp h
    have hvalid : Valid (α := Content) v := Content.valid_of_fromValue hread
    exact hvalid
  | error =>
    have hvalid : Valid (α := ErrorInfo) v := ErrorInfo.valid_of_decodeWith h
    exact hvalid
  | envelope kind =>
    have hvalid : Valid (α := kind.Carrier) v := Envelope.valid_of_decode h
    exact hvalid

/-- The codec of the type and its reader accept the same texts. -/
theorem run_codec_eq_ok_iff {k : MessageKind} {bytes : ByteArray} {v : k.Carrier} :
    ((Message.codec : Codec k.Carrier).decode.run bytes).result = .ok v ↔
      (k.decode bytes).result = .ok v := by
  cases k with
  | content =>
    refine Decoder.run_refine_eq_ok_iff.trans (Iff.trans ?_ Content.decode_eq_ok_iff.symm)
    simp only [Traced.result_mapError, Outcome.mapError_eq_ok_iff]
    exact Iff.rfl
  | error =>
    refine Decoder.run_refine_eq_ok_iff.trans
      (Iff.trans ?_ ErrorInfo.decodeWith_eq_ok_iff.symm)
    simp only [Traced.result_mapError, Outcome.mapError_eq_ok_iff]
    exact Iff.rfl
  | envelope kind =>
    refine Decoder.run_refine_eq_ok_iff.trans (Iff.trans ?_ Envelope.decode_eq_ok_iff.symm)
    simp only [Traced.result_mapError, Outcome.mapError_eq_ok_iff]

/-- A text is read at the entry points just when the reader of its type accepts it, with the same
result. Every failure there is one of the shape: the rules were checked before. -/
theorem wire_decode (k : MessageKind) (bytes : ByteArray) :
    (∀ v, (Wire.decode bytes : Traced DecodeError k.Carrier).result = .ok v ↔
      (k.decode bytes).result = .ok v) ∧
    ∀ e, (Wire.decode bytes : Traced DecodeError k.Carrier).result = .error e →
      ∃ shape, e = .json shape := by
  have hvalid : ∀ v : k.Carrier,
      ((Message.codec : Codec k.Carrier).decode.run bytes).result = .ok v → Valid v :=
    fun v hv => valid_of_decode (run_codec_eq_ok_iff.mp hv)
  rw [Wire.decode_of_valid hvalid]
  refine ⟨fun v => Outcome.mapError_eq_ok_iff.trans run_codec_eq_ok_iff, fun e he => ?_⟩
  cases hread : ((Message.codec : Codec k.Carrier).decode.run bytes).result with
  | ok v =>
    rw [hread] at he
    cases he
  | error shape =>
    rw [hread] at he
    exact ⟨shape, (Except.error.inj he).symm⟩

end MessageKind

end ContextProtocol
