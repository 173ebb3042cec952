import ContextProtocol.Json.Document
import ContextProtocol.Json.Symbol

/-!
# Number and string literals

* `Numeral`: the parts of a number as they are written, and the number they stand for. A whole
  number that fits is an integer, `-0` and everything else a float; a float that would be infinite
  is out of range;
* `scanNumber`: reads the longest number at the start of a text;
* `Piece`: what stands between the quotes of a string. A `\u` escape gives a unit of UTF-16, so a
  string has a meaning only if its surrogates come in pairs (`Piece.assemble`);
* `scanString`: reads up to the closing quote.
-/
namespace ContextProtocol

/-- The parts of a written number. -/
structure Numeral where
  negative : Bool
  whole : List Char
  fraction : Option (List Char)
  exponent : Option Int

namespace Numeral

/-- The number that decimal digits write. -/
def ofDigits (digits : List Char) : Nat :=
  digits.foldl (fun n c => 10 * n + (c.toNat - '0'.toNat)) 0

/-- The nearest float, if it is finite. -/
def float (n : Numeral) : Except Fault Number :=
  let fraction := n.fraction.getD []
  let x := Decimal.ofScientific n.negative (ofDigits (n.whole ++ fraction))
    (n.exponent.getD 0 - fraction.length)
  match Number.ofFloat? x with
  | some number => .ok number
  | none => .error .numberOutOfRange

/-- The number a numeral stands for. -/
def number (n : Numeral) : Except Fault Number :=
  if n.fraction.isSome || n.exponent.isSome then n.float
  else
    let magnitude := ofDigits n.whole
    if n.negative && magnitude == 0 then n.float
    else
      let i : Int := if n.negative then -magnitude else magnitude
      if h : -0x8000000000000000 ≤ i ∧ i < 0x10000000000000000 then .ok (.integer i h)
      else n.float

def token (n : Numeral) : Token Number := ⟨n.number, none⟩

end Numeral

/-- A value and what follows it; nothing follows a value that breaks the grammar. -/
structure Scanned (α : Type) where
  value : α
  rest : Option (List Symbol)

/-- The digits at the start of a text, and the rest. -/
def takeDigits : List Symbol → List Char × List Symbol
  | .char c :: rest =>
    if c.isDigit then
      let (digits, rest) := takeDigits rest
      (c :: digits, rest)
    else ([], .char c :: rest)
  | rest => ([], rest)

/-- A number that is cut off, or goes on with something else, where a digit has to stand. -/
def digitMissing (rest : List Symbol) : Scanned (Token Number) :=
  ⟨.broken (if rest.isEmpty then .endOfValue else .invalidNumber) .invalidNumber, none⟩

/-- The exponent, if there is one. -/
def scanExponent (negative : Bool) (whole : List Char) (fraction : Option (List Char))
    (text : List Symbol) : Scanned (Token Number) :=
  let finish (exponentNegative : Bool) (text : List Symbol) : Scanned (Token Number) :=
    let (digits, rest) := takeDigits text
    if digits.isEmpty then digitMissing rest
    else
      let magnitude : Int := Numeral.ofDigits digits
      let exponent := if exponentNegative then -magnitude else magnitude
      ⟨Numeral.token ⟨negative, whole, fraction, some exponent⟩, some rest⟩
  match text with
  | .char c :: rest =>
    if c = 'e' ∨ c = 'E' then
      match rest with
      | .char '+' :: rest => finish false rest
      | .char '-' :: rest => finish true rest
      | rest => finish false rest
    else ⟨Numeral.token ⟨negative, whole, fraction, none⟩, some text⟩
  | _ => ⟨Numeral.token ⟨negative, whole, fraction, none⟩, some text⟩

/-- The fraction, if there is one, and what follows. -/
def scanFraction (negative : Bool) (whole : List Char) (text : List Symbol) :
    Scanned (Token Number) :=
  match text with
  | .char '.' :: rest =>
    let (digits, rest) := takeDigits rest
    if digits.isEmpty then digitMissing rest else scanExponent negative whole (some digits) rest
  | text => scanExponent negative whole none text

/-- A number after its sign. A zero at its start stands alone before the point. -/
def scanNumber (negative : Bool) (text : List Symbol) : Scanned (Token Number) :=
  match takeDigits text with
  | ([], rest) => digitMissing rest
  | (['0'], rest) => scanFraction negative ['0'] rest
  | ('0' :: _, _) => ⟨.broken .invalidNumber .invalidNumber, none⟩
  | (digits, rest) => scanFraction negative digits rest

/-- A part of a string literal. -/
inductive Piece where
  | char (c : Char)
  | stray
  /-- A unit of UTF-16, written by its number. -/
  | unit (code : Nat)
  deriving DecidableEq, Repr

namespace Piece

def isHighSurrogate (code : Nat) : Bool := 0xD800 ≤ code && code < 0xDC00

def isLowSurrogate (code : Nat) : Bool := 0xDC00 ≤ code && code < 0xE000

/-- The character of a pair of surrogates. -/
def pair (high low : Nat) : Char := .ofNat (0x10000 + (high - 0xD800) * 0x400 + (low - 0xDC00))

/-- The text of the pieces after those already `found`, last one first. A surrogate without its
partner is refused where it stands; stray bytes are noticed at the end, and the fault that `stop`
names, if the literal has no closing quote, is met there too. -/
def assemble (stop : Option Fault) (found : List Char) (clean : Bool) :
    List Piece → Except Fault String
  | [] =>
    match stop with
    | some fault => .error fault
    | none => if clean then .ok (.ofList found.reverse) else .error .invalidCodePoint
  | .char c :: rest => assemble stop (c :: found) clean rest
  | .stray :: rest => assemble stop found false rest
  | .unit code :: rest =>
    if isLowSurrogate code then .error .loneSurrogate
    else if isHighSurrogate code then
      match rest with
      | .unit low :: rest =>
        if isLowSurrogate low then assemble stop (pair code low :: found) clean rest
        else .error .loneSurrogate
      | [] => .error (stop.getD .unfinishedSurrogate)
      | _ => .error .unfinishedSurrogate
    else assemble stop (.ofNat code :: found) clean rest

end Piece

/-- Where the reading of a string stands. -/
inductive StringState where
  | plain
  /-- After a backslash. -/
  | escape
  /-- Inside a `\u` escape: the digits still to come after the next one, and the number so far. -/
  | hex (more : Nat) (code : Nat)

/-- The character that an escape of one letter stands for. -/
def unescape : Char → Option Char
  | '"' => some '"'
  | '\\' => some '\\'
  | '/' => some '/'
  | 'b' => some '\x08'
  | 'f' => some '\x0c'
  | 'n' => some '\n'
  | 'r' => some '\r'
  | 't' => some '\t'
  | _ => none

def hexDigit? (c : Char) : Option Nat :=
  if '0' ≤ c ∧ c ≤ '9' then some (c.toNat - '0'.toNat)
  else if 'a' ≤ c ∧ c ≤ 'f' then some (c.toNat - 'a'.toNat + 10)
  else if 'A' ≤ c ∧ c ≤ 'F' then some (c.toNat - 'A'.toNat + 10)
  else none

/-- Whether fewer than four bytes are left. -/
def shortOfFourBytes (text : List Symbol) : Bool :=
  ((text.take 4).foldl (fun n s => n + s.size) 0) < 4

/-- Reads the pieces up to the closing quote, after those already `found`, last one first. -/
def scanPieces : StringState → List Piece → List Symbol →
    List Piece × Option Fault × List Symbol
  | _, found, [] => (found.reverse, some .endOfString, [])
  | .plain, found, .stray :: rest => scanPieces .plain (.stray :: found) rest
  | .plain, found, .char c :: rest =>
    if c = '"' then (found.reverse, none, rest)
    else if c = '\\' then scanPieces .escape found rest
    else if c.toNat < 0x20 then (found.reverse, some .controlCharacter, [])
    else scanPieces .plain (.char c :: found) rest
  | .escape, found, .stray :: _ => (found.reverse, some .invalidEscape, [])
  | .escape, found, .char c :: rest =>
    if c = 'u' then
      if shortOfFourBytes rest then (found.reverse, some .endOfString, [])
      else scanPieces (.hex 3 0) found rest
    else
      match unescape c with
      | some d => scanPieces .plain (.char d :: found) rest
      | none => (found.reverse, some .invalidEscape, [])
  | .hex _ _, found, .stray :: _ => (found.reverse, some .invalidEscape, [])
  | .hex more code, found, .char c :: rest =>
    match hexDigit? c with
    | none => (found.reverse, some .invalidEscape, [])
    | some d =>
      match more with
      | 0 => scanPieces .plain (.unit (16 * code + d) :: found) rest
      | more + 1 => scanPieces (.hex more (16 * code + d)) found rest

/-- A string after its opening quote. -/
def scanString (text : List Symbol) : Scanned (Token String) :=
  let (pieces, stop, rest) := scanPieces .plain [] text
  ⟨⟨Piece.assemble stop [] true pieces, stop⟩, if stop.isSome then none else some rest⟩

end ContextProtocol
