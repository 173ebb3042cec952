import ContextProtocol.Message.Identifier
import ContextProtocol.Proofs.Json.Value

/-!
# Codecs that copy nothing

Most of what is written is taken apart again. The exceptions are payloads, which are copied as they
are, so where none is copied the text is all there is to know.

Results:
* `Codec.Rawless`: a codec that copies nothing, lifted through the containers.
* `Fields.Rawless.raws`, `Record.rawless`: a record copies nothing when no field does.
-/
namespace ContextProtocol

/-- What is written holds no payload. -/
def Codec.Rawless {α : Type} (c : Codec α) : Prop := ∀ v, (c.encode v).raws = []

namespace Codec.Rawless

variable {α : Type} {c : Codec α}

theorem string : Codec.string.Rawless := fun _ => rfl

theorem bool : Codec.bool.Rawless := fun _ => rfl

theorem float : Codec.float.Rawless := fun _ => rfl

theorem int32 : Codec.int32.Rawless := fun _ => rfl

theorem uint32 : Codec.uint32.Rawless := fun _ => rfl

theorem uint64 : Codec.uint64.Rawless := fun _ => rfl

theorem json : Codec.json.Rawless := Form.raws_ofJson

theorem word [BEq α] (words : List (String × α)) : (Codec.word words).Rawless := fun _ => rfl

theorem identifier (type : String) : (Identifier.codec type).Rawless := by
  intro id
  cases id <;> rfl

theorem option (h : c.Rawless) : c.option.Rawless
  | none => rfl
  | some v => h v

theorem list (h : c.Rawless) : c.list.Rawless := by
  intro vs
  refine Form.rawsItems_eq_nil.mpr ?_
  intro item hitem
  obtain ⟨v, -, rfl⟩ := List.mem_map.mp hitem
  exact h v

theorem entries (h : c.Rawless) : c.entries.Rawless := by
  intro es
  refine Form.rawsMembers_eq_nil.mpr ?_
  intro m hm
  obtain ⟨e, -, rfl⟩ := List.mem_map.mp hm
  exact h e.2

theorem dict (h : c.Rawless) : c.dict.Rawless := fun d => entries h d.entries

end Codec.Rawless

namespace Fields

/-- No field copies anything. -/
def Rawless : {columns : List Type} → Fields columns → Prop
  | _, .nil => True
  | _, .cons field rest => field.codec.Rawless ∧ Rawless rest

variable {columns : List Type} {fields : Fields columns}

theorem Rawless.raws (h : fields.Rawless) (row : Row columns) :
    Form.rawsMembers (fields.encode row) = [] := by
  induction fields with
  | nil => rfl
  | cons field rest ih =>
    obtain ⟨value, row⟩ := row
    obtain ⟨hfield, hrest⟩ := h
    rw [encode]
    split
    · exact ih hrest row
    · exact List.append_eq_nil_iff.mpr ⟨hfield value, ih hrest row⟩

theorem raws_cons {α : Type} (field : Field α) (rest : Fields columns) (value : α)
    (row : Row columns) : Form.rawsMembers ((cons field rest).encode (value, row)) =
      (if field.omitted value then [] else (field.codec.encode value).raws) ++
        Form.rawsMembers (rest.encode row) := by
  rw [encode]
  split
  · rfl
  · rw [Form.rawsMembers]

/-- Only the first field may copy anything. -/
theorem raws_cons_rawless {α : Type} (field : Field α) {rest : Fields columns} (h : rest.Rawless)
    (value : α) (row : Row columns) : Form.rawsMembers ((cons field rest).encode (value, row)) =
      if field.omitted value then [] else (field.codec.encode value).raws := by
  rw [raws_cons, h.raws, List.append_nil]

end Fields

theorem Record.rawless {R : Type} {r : Record R} (h : r.fields.Rawless) : r.codec.Rawless :=
  fun v => h.raws (r.toRow v)

end ContextProtocol
