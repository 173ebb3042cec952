import ContextProtocol.Json.Form
import ContextProtocol.Json.Literal

/-!
# Texts read back from their quotes

A quoted text escapes quotes, backslashes and controls. The reader turns each escape back into one
**piece**, a character or a unit of UTF-16, and the pieces of the written characters come together
as the text. None of the units is a surrogate, since only controls are written by their number.

Results:
* `scanPieces_escape`: one written character is read as one piece.
* `scanString_quote`: a text between quotes is read back, whatever follows.
-/
namespace ContextProtocol

/-- The controls that have an escape of their own. -/
def shortControls : List Char := ['\x08', '\t', '\n', '\x0c', '\r']

/-- What a written character is read as. -/
def Piece.ofChar (c : Char) : Piece :=
  if c.toNat < 0x20 ∧ c ∉ shortControls then .unit c.toNat else .char c

theorem hexDigit?_digitChar : ∀ n < 16, hexDigit? (Nat.digitChar n) = some n := by decide

/-- The four digits of a control give its number. -/
theorem scanPieces_unit {n : Nat} (hn : n < 0x20) (found : List Piece) (rest : List Symbol) :
    scanPieces .escape found
      (.char 'u' :: .char '0' :: .char '0' :: .char (Nat.digitChar (n / 16)) ::
        .char (Nat.digitChar (n % 16)) :: rest) =
      scanPieces .plain (.unit n :: found) rest := by
  have hlow := hexDigit?_digitChar (n % 16) (by omega)
  have hhigh := hexDigit?_digitChar (n / 16) (by omega)
  have hzero : hexDigit? '0' = some 0 := by decide
  have hlong : shortOfFourBytes (.char '0' :: .char '0' :: .char (Nat.digitChar (n / 16)) ::
      .char (Nat.digitChar (n % 16)) :: rest) = false := by
    have h1 := (Nat.digitChar (n / 16)).utf8Size_pos
    have h2 := (Nat.digitChar (n % 16)).utf8Size_pos
    have h3 := ('0' : Char).utf8Size_pos
    refine decide_eq_false ?_
    simp only [List.take_succ_cons, List.take_zero, List.foldl_cons, List.foldl_nil, Symbol.size]
    omega
  have hvalue : 16 * (16 * (16 * (16 * 0 + 0) + 0) + n / 16) + n % 16 = n := by omega
  simp only [scanPieces, if_true, hlong, hzero, hhigh, hlow, hvalue, Bool.false_eq_true, if_false]

/-- One written character is one piece. -/
theorem scanPieces_escape (c : Char) (found : List Piece) (rest : List Symbol) :
    scanPieces .plain found ((Form.escape c).map .char ++ rest) =
      scanPieces .plain (Piece.ofChar c :: found) rest := by
  unfold Form.escape
  split
  case h_8 hquote hslash hb ht hn hf hr =>
    split
    · rename_i hlow
      have hlong : c ∉ shortControls := by
        simp only [shortControls, List.mem_cons, List.not_mem_nil, or_false, not_or]
        exact ⟨hb, ht, hn, hf, hr⟩
      rw [Piece.ofChar, if_pos ⟨hlow, hlong⟩, ← scanPieces_unit hlow]
      simp [scanPieces]
    · rename_i hhigh
      rw [Piece.ofChar, if_neg fun h => hhigh h.1]
      simp only [List.map_cons, List.map_nil, List.singleton_append, scanPieces]
      rw [if_neg hquote, if_neg hslash, if_neg hhigh]
  all_goals simp [scanPieces, unescape, Piece.ofChar, shortControls]

theorem scanPieces_escapes (cs : List Char) : ∀ (found : List Piece) (rest : List Symbol),
    scanPieces .plain found ((cs.flatMap Form.escape).map .char ++ .char '"' :: rest) =
      (found.reverse ++ cs.map Piece.ofChar, none, rest) := by
  induction cs with
  | nil => intro found rest; simp [scanPieces]
  | cons c cs ih =>
    intro found rest
    rw [List.flatMap_cons, List.map_append, List.append_assoc, scanPieces_escape, ih]
    simp

/-- The piece of a character stands for that character. -/
theorem assemble_ofChar (stop : Option Fault) (found : List Char) (clean : Bool) (c : Char)
    (rest : List Piece) :
    Piece.assemble stop found clean (Piece.ofChar c :: rest) =
      Piece.assemble stop (c :: found) clean rest := by
  unfold Piece.ofChar
  split
  · rename_i h
    have hlow : Piece.isLowSurrogate c.toNat = false := by
      simp only [Piece.isLowSurrogate, Bool.and_eq_false_iff, decide_eq_false_iff_not]
      omega
    have hhigh : Piece.isHighSurrogate c.toNat = false := by
      simp only [Piece.isHighSurrogate, Bool.and_eq_false_iff, decide_eq_false_iff_not]
      omega
    rw [Piece.assemble.eq_def]
    simp only [hlow, hhigh, Bool.false_eq_true, if_false, Char.ofNat_toNat]
  · rw [Piece.assemble]

theorem assemble_ofChars (cs : List Char) : ∀ found : List Char,
    Piece.assemble none found true (cs.map Piece.ofChar) =
      .ok (String.ofList (found.reverse ++ cs)) := by
  induction cs with
  | nil => intro found; simp [Piece.assemble]
  | cons c cs ih =>
    intro found
    rw [List.map_cons, assemble_ofChar, ih]
    simp

/-- The symbols of a quoted text after its opening quote. -/
def afterQuote (s : String) (rest : List Symbol) : List Symbol :=
  (s.toList.flatMap Form.escape).map .char ++ .char '"' :: rest

theorem quote_symbols (s : String) (rest : List Symbol) :
    (Form.quote s).map .char ++ rest = .char '"' :: afterQuote s rest := by
  simp [Form.quote, afterQuote]

/-- A quoted text is read back. -/
theorem scanString_quote (s : String) (rest : List Symbol) :
    scanString (afterQuote s rest) = ⟨.sound s, some rest⟩ := by
  unfold scanString afterQuote
  rw [scanPieces_escapes]
  simp [assemble_ofChars, Token.sound]

end ContextProtocol
