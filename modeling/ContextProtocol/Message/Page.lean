import ContextProtocol.Shape.Record
import ContextProtocol.Validated

/-!
# Pages of lists

A server lists its tools, prompts and resources page by page; a page names the cursor of the next
one unless it is the last.

* `Paged`: the types whose values come in pages;
* `Page`: a page, which is written, read and checked item by item.
-/
namespace ContextProtocol

/-- Some items of a list, and where it goes on. -/
structure Page (α : Type) where
  items : List α
  nextCursor : Option String

/-- A type whose values come in pages. -/
class Paged (α : Type) where
  /-- The record type of a page. -/
  pageName : String
  /-- The member with the items. -/
  itemsName : String

namespace Page

variable {α : Type}

instance [BEq α] : BEq (Page α) where
  beq a b := a.items == b.items && a.nextCursor == b.nextCursor

def record [Paged α] [Message α] : Record (Page α) where
  name := Paged.pageName α
  columns := [List α, Option String]
  fields :=
    .cons (.required (Paged.itemsName α) Message.codec) <|
    .cons (.optional "nextCursor" .string) .nil
  exact := false
  ofRow := fun (items, nextCursor, ()) => ⟨items, nextCursor⟩
  toRow p := (p.items, p.nextCursor, ())
  ofRow_toRow _ := rfl

instance [Paged α] [Message α] : Message (Page α) := ⟨record.codec⟩

instance {Step : Type} [Paged α] [Validated α Step] : Validated (Page α) Empty where
  apply _ step := nomatch step
  validate p := checkEach (Paged.itemsName α) "" validate p.items

end Page

end ContextProtocol
