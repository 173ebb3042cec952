import ContextProtocol.Text.Extending

/-!
# Quoting and blanks

Messages show a text between double quotes, on one line and with every character recognisable:
quotes, backslashes and the usual controls are escaped, and a character that has no printed form,
may show nothing or is drawn onto its neighbour is written by its number.

Settings are read without the blank characters at their ends, those with the Unicode property
`White_Space`.

* `isIgnorable`: the characters of Unicode 17 that may show nothing;
* `quoted`: a text between double quotes;
* `trim`: a text without blanks at its ends;
* `trim_eq_nil_iff`: a text is trimmed to nothing exactly when it is blank throughout.
-/
namespace ContextProtocol.Text

/-! ## Quoted texts -/

/-- The characters with the property `Default_Ignorable_Code_Point`, as ranges that are ascending
and apart. Most are format characters or not assigned; the fillers of Hangul syllables are letters
and blank all the same. -/
def ignorableRanges : Array (Nat × Nat) := #[
  (0xAD, 0xAD), (0x34F, 0x34F), (0x61C, 0x61C), (0x115F, 0x1160), (0x17B4, 0x17B5),
  (0x180B, 0x180F), (0x200B, 0x200F), (0x202A, 0x202E), (0x2060, 0x206F), (0x3164, 0x3164),
  (0xFE00, 0xFE0F), (0xFEFF, 0xFEFF), (0xFFA0, 0xFFA0), (0xFFF0, 0xFFF8), (0x1BCA0, 0x1BCA3),
  (0x1D173, 0x1D17A), (0xE0000, 0xE0FFF)]

/-- Whether a display that does not know the character leaves it out. -/
def isIgnorable (c : Char) : Bool := 0x7F ≤ c.toNat && inRanges ignorableRanges c.toNat

/-- One character of a quoted text. -/
def quoteChar (c : Char) : List Char :=
  match c with
  | '"' => ['\\', '"']
  | '\\' => ['\\', '\\']
  | '\n' => ['\\', 'n']
  | '\r' => ['\\', 'r']
  | '\t' => ['\\', 't']
  | '\x00' => ['\\', '0']
  | c =>
    if isUnprintable c || isExtending c || isIgnorable c then
      '\\' :: 'u' :: '\x7b' :: Nat.toDigits 16 c.toNat ++ ['\x7d']
    else [c]

/-- A text between double quotes. -/
def quoted (text : String) : String :=
  String.ofList ('"' :: text.toList.flatMap quoteChar ++ ['"'])

/-! ## Blanks -/

/-- The twenty-five white space characters. -/
def isBlank (c : Char) : Bool :=
  let n := c.toNat
  (9 ≤ n && n ≤ 13) || n == 0x20 || n == 0x85 || n == 0xA0 || n == 0x1680 ||
    (0x2000 ≤ n && n ≤ 0x200A) || n == 0x2028 || n == 0x2029 || n == 0x202F || n == 0x205F ||
    n == 0x3000

/-- The text between its first and its last character that is not blank. -/
def trim (text : List Char) : List Char :=
  ((text.dropWhile isBlank).reverse.dropWhile isBlank).reverse

theorem dropWhile_isBlank_eq_nil (text : List Char) :
    text.dropWhile isBlank = [] ↔ ∀ c ∈ text, isBlank c := by
  induction text with
  | nil => simp
  | cons c rest ih => by_cases h : isBlank c <;> simp [List.dropWhile, h, ih]

theorem trim_eq_nil_iff (text : List Char) : trim text = [] ↔ ∀ c ∈ text, isBlank c := by
  rw [← dropWhile_isBlank_eq_nil text]
  unfold trim
  rw [List.reverse_eq_nil_iff, dropWhile_isBlank_eq_nil]
  have hhead := List.head?_dropWhile_not isBlank text
  cases h : text.dropWhile isBlank with
  | nil => simp
  | cons c rest =>
    rw [h] at hhead
    simp only [List.head?_cons] at hhead
    simp [hhead]

end ContextProtocol.Text
