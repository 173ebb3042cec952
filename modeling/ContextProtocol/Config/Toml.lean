import ContextProtocol.Json.Literal

/-!
# Flat TOML documents

A configuration file is a TOML document with nothing but entries at its top level whose values are
integers or texts. The other parts of the format, tables, arrays, floats and dates, have no place in
one, so a document that uses them is refused like one that breaks the grammar.

* `Toml.integer`: decimal with a sign, or with `0x`, `0o` or `0b`; digits may be grouped by single
  underscores;
* `Toml.basic`, `Toml.literal`: texts with and without escapes, on one line;
* `Toml.basicBlock`, `Toml.literalBlock`: texts over several lines;
* `Toml.entries?`: the entries of a document in their order.
-/
namespace ContextProtocol.Toml

/-- The value of an entry. -/
inductive Scalar where
  | integer (value : Int)
  | string (value : String)
  deriving DecidableEq

/-- The text with every line ended by a line feed alone. -/
def unifyLines : List Char → List Char
  | '\r' :: '\n' :: rest => '\n' :: unifyLines rest
  | c :: rest => c :: unifyLines rest
  | [] => []

/-- Spaces and tabs. -/
def isSpace (c : Char) : Bool := c = ' ' || c = '\t'

def skipSpaces (text : List Char) : List Char := text.dropWhile isSpace

/-- The characters that stand for themselves in a comment and in a text. -/
def isVisible (c : Char) : Bool := c = '\t' || (0x20 ≤ c.toNat && c.toNat ≠ 0x7F)

/-- The rest after the end of the line: spaces, a comment, and a line feed unless the text ends. -/
def lineEnd (text : List Char) : Option (List Char) :=
  let rest :=
    match skipSpaces text with
    | '#' :: rest => rest.dropWhile isVisible
    | rest => rest
  match rest with
  | [] => some []
  | '\n' :: rest => some rest
  | _ => none

/-- Puts a character before what was read. -/
def push (c : Char) (found : Option (List Char × List Char)) : Option (List Char × List Char) :=
  found.map fun (s, rest) => (c :: s, rest)

/-- The number that digits write. -/
def ofDigits (base : Nat) (digits : List Char) : Nat :=
  digits.foldl (fun n c => base * n + (hexDigit? c).getD 0) 0

/-- The digits at the start of a text; a single underscore may stand between two of them. -/
def digitRun (isDigit : Char → Bool) : List Char → Option (List Char × List Char)
  | '_' :: c :: rest => if isDigit c then push c (digitRun isDigit rest) else none
  | c :: rest => if isDigit c then push c (digitRun isDigit rest) else some ([], c :: rest)
  | [] => some ([], [])

/-- A digit and the digits after it. -/
def digits (isDigit : Char → Bool) : List Char → Option (List Char × List Char)
  | c :: rest => if isDigit c then push c (digitRun isDigit rest) else none
  | [] => none

/-- An integer of 64 bits. -/
def inRange (i : Int) : Option Int :=
  if -0x8000000000000000 ≤ i ∧ i < 0x8000000000000000 then some i else none

/-- The digits of a number with its base written before it. -/
def based (base : Nat) (text : List Char) : Option (Int × List Char) := do
  let (ds, rest) ← digits (fun c => (hexDigit? c).any (· < base)) text
  return (← inRange (ofDigits base ds), rest)

/-- A decimal number after its sign; a zero stands alone. -/
def decimal (negative : Bool) : List Char → Option (Int × List Char)
  | '0' :: rest => some (0, rest)
  | text => do
    let (ds, rest) ← digits Char.isDigit text
    let magnitude : Int := ofDigits 10 ds
    return (← inRange (if negative then -magnitude else magnitude), rest)

def integer : List Char → Option (Int × List Char)
  | '0' :: 'x' :: rest => based 16 rest
  | '0' :: 'o' :: rest => based 8 rest
  | '0' :: 'b' :: rest => based 2 rest
  | '+' :: rest => decimal false rest
  | '-' :: rest => decimal true rest
  | text => decimal false text

/-- The character that an escape of one letter stands for. -/
def unescape : Char → Option Char
  | 'b' => some '\x08'
  | 't' => some '\t'
  | 'n' => some '\n'
  | 'f' => some '\x0c'
  | 'r' => some '\r'
  | '"' => some '"'
  | '\\' => some '\\'
  | _ => none

/-- The character that hexadecimal digits write; surrogates are none. -/
def codePoint (ds : List Char) : Option Char := do
  let n := (← ds.mapM hexDigit?).foldl (fun n d => 16 * n + d) 0
  if n.isValidChar then some (.ofNat n) else none

/-- What stands after a backslash. -/
def escaped : List Char → Option (Char × List Char)
  | 'u' :: rest =>
    if rest.length < 4 then none else (codePoint (rest.take 4)).map fun c => (c, rest.drop 4)
  | 'U' :: rest =>
    if rest.length < 8 then none else (codePoint (rest.take 8)).map fun c => (c, rest.drop 8)
  | c :: rest => (unescape c).map fun c => (c, rest)
  | [] => none

/-- A text with escapes, after its opening quote. -/
def basic (text : List Char) : Option (List Char × List Char) :=
  match text with
  | [] => none
  | '"' :: rest => some ([], rest)
  | '\\' :: rest =>
    match escaped rest with
    | none => none
    | some (c, rest') => if rest'.length < rest.length then push c (basic rest') else none
  | c :: rest => if isVisible c then push c (basic rest) else none
termination_by text.length
decreasing_by all_goals simp_all; try omega

/-- A text without escapes, after its opening quote. -/
def literal : List Char → Option (List Char × List Char)
  | [] => none
  | '\'' :: rest => some ([], rest)
  | c :: rest => if isVisible c then push c (literal rest) else none

/-- What follows three quotes inside a text over several lines: up to two more quotes, which belong
to the text. -/
def closing (quote : Char) : List Char → List Char × List Char
  | a :: b :: rest =>
    if a ≠ quote then ([], a :: b :: rest)
    else if b ≠ quote then ([a], b :: rest)
    else ([a, b], rest)
  | [a] => if a = quote then ([a], []) else ([], [a])
  | [] => ([], [])

/-- The text after a line end that was escaped: the rest of the line has to be empty, and all blanks
up to the next character that is none are skipped. -/
def joinLines (text : List Char) : Option (List Char) :=
  match skipSpaces text with
  | '\n' :: rest => some (rest.dropWhile fun c => isSpace c || c = '\n')
  | _ => none

/-- A text with escapes over several lines. -/
def basicBlock (text : List Char) : Option (List Char × List Char) :=
  match text with
  | [] => none
  | '"' :: '"' :: '"' :: rest => some (closing '"' rest)
  | '\\' :: rest =>
    match joinLines rest with
    | some rest' => if rest'.length < rest.length then basicBlock rest' else none
    | none =>
      match escaped rest with
      | none => none
      | some (c, rest') => if rest'.length < rest.length then push c (basicBlock rest') else none
  | c :: rest => if isVisible c || c = '\n' then push c (basicBlock rest) else none
termination_by text.length
decreasing_by all_goals simp_all; try omega

/-- A text without escapes over several lines. -/
def literalBlock : List Char → Option (List Char × List Char)
  | [] => none
  | '\'' :: '\'' :: '\'' :: rest => some (closing '\'' rest)
  | c :: rest => if isVisible c || c = '\n' then push c (literalBlock rest) else none

/-- A line end right after the opening quotes is no part of the text. -/
def dropFirstLine : List Char → List Char
  | '\n' :: rest => rest
  | text => text

/-- The value of an entry. -/
def scalar (text : List Char) : Option (Scalar × List Char) :=
  let string (found : Option (List Char × List Char)) : Option (Scalar × List Char) :=
    found.map fun (s, rest) => (.string (.ofList s), rest)
  match text with
  | '"' :: '"' :: '"' :: rest => string (basicBlock (dropFirstLine rest))
  | '\'' :: '\'' :: '\'' :: rest => string (literalBlock (dropFirstLine rest))
  | '"' :: rest => string (basic rest)
  | '\'' :: rest => string (literal rest)
  | text => (integer text).map fun (i, rest) => (.integer i, rest)

/-- The characters of a name without quotes. -/
def isBare (c : Char) : Bool := c.isAlphanum || c = '_' || c = '-'

/-- The name of an entry. -/
def name : List Char → Option (List Char × List Char)
  | '"' :: rest => basic rest
  | '\'' :: rest => literal rest
  | text =>
    let found := text.takeWhile isBare
    if found.isEmpty then none else some (found, text.dropWhile isBare)

/-- One entry with its line. -/
def entry (text : List Char) : Option ((String × Scalar) × List Char) := do
  let (n, rest) ← name text
  match skipSpaces rest with
  | '=' :: rest =>
    let (value, rest) ← scalar (skipSpaces rest)
    return ((.ofList n, value), ← lineEnd rest)
  | _ => none

/-- The entries of a text, line by line. -/
def lines (text : List Char) : Option (List (String × Scalar)) :=
  match skipSpaces text with
  | [] => some []
  | c :: rest =>
    if c = '\n' || c = '#' then do
      let rest ← lineEnd (c :: rest)
      if rest.length < text.length then lines rest else none
    else do
      let (e, rest) ← entry (c :: rest)
      if rest.length < text.length then (lines rest).map (e :: ·) else none
termination_by text.length

/-- The entries of a document, which may begin with a byte order mark. -/
def entries? (document : String) : Option (List (String × Scalar)) :=
  match document.toList with
  | '\uFEFF' :: rest => lines (unifyLines rest)
  | text => lines (unifyLines text)

end ContextProtocol.Toml
