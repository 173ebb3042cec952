/-!
# Characters of a byte text

A byte text is read as a list of **symbols**: its characters, and in between the bytes that no
character is made of. The grammar of JSON is ASCII, so only the inside of strings can hold such
stray bytes without breaking it.

* `Symbol.ofBytes`: the symbols of a byte text;
* `Symbol.text?`: the text of symbols, if all of them are characters;
* `text?_ofString`: the symbols of a text give that text back.
-/
namespace ContextProtocol

/-- A character, or a byte that belongs to none. -/
inductive Symbol where
  | char (c : Char)
  | stray
  deriving DecidableEq, Repr

namespace Symbol

/-- The symbols of the bytes from `i` on, after those already found, last one first. -/
def collect (bytes : ByteArray) (i : Nat) (found : List Symbol) : List Symbol :=
  if _ : i < bytes.size then
    match bytes.utf8DecodeChar? i with
    | some c => collect bytes (i + c.utf8Size) (.char c :: found)
    | none => collect bytes (i + 1) (.stray :: found)
  else found.reverse
termination_by bytes.size - i
decreasing_by
  · have := c.utf8Size_pos
    omega
  · omega

/-- The symbols of a byte text. -/
def ofBytes (bytes : ByteArray) : List Symbol := collect bytes 0 []

/-- The symbols of a text. -/
def ofString (text : String) : List Symbol := text.toList.map .char

/-- The characters, if no byte strays. -/
def chars? : List Symbol → Option (List Char)
  | [] => some []
  | .char c :: rest => (chars? rest).map (c :: ·)
  | .stray :: _ => none

/-- The text, if no byte strays. -/
def text? (symbols : List Symbol) : Option String := (chars? symbols).map String.ofList

/-- The number of bytes of a symbol. -/
def size : Symbol → Nat
  | .char c => c.utf8Size
  | .stray => 1

theorem chars?_map_char (cs : List Char) : chars? (cs.map .char) = some cs := by
  induction cs with
  | nil => rfl
  | cons c cs ih => simp [chars?, ih]

theorem text?_ofString (text : String) : text? (ofString text) = some text := by
  simp [text?, ofString, chars?_map_char]

end Symbol

end ContextProtocol
