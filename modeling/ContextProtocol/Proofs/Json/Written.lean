import ContextProtocol.Proofs.Json.FloatText
import ContextProtocol.Proofs.Json.Payload
import ContextProtocol.Proofs.Json.Quote
import ContextProtocol.Proofs.Json.Utf8

/-!
# Forms read back

What a reader finds in the text of a form is known beforehand: the document of the form, with the
text of every part beside it. Integers and floats are read as what they were, strings lose their
escapes, and a payload that was copied in is read as if it stood alone.

Results:
* `value_chars`: the text of a form is read as its document, whatever follows it.
* `ofString_text`, `ofBytes_text`: a whole text is read so, and nothing follows it.
* `skip_ofForm`: a form has no faults to whoever skips it.
* `isPayload_text`: the text of a form may be copied as a payload.
* `ofBytes_asWritten`: a float that is not finite is read as the `null` that is written for it.
-/
namespace ContextProtocol

namespace Doc

/-- The document of a number; there is none for infinities and NaN. -/
def ofNumber? : Option Number → Doc
  | none => .null
  | some n => .number (.sound n)

mutual

/-- The document that the text of a form is read as. -/
def ofForm : Form → Doc
  | .null => .null
  | .bool b => .bool b
  | .integer i => ofNumber? (Number.ofInt? i)
  | .float x => ofNumber? (Number.ofFloat? x)
  | .string s => .string (.sound s)
  | .array items => .array (ofFormItems items) none
  | .object members => .object (ofFormMembers members) none
  | .raw text => (Document.ofString text).root.value

def ofFormItems : List Form → List (Sourced Doc)
  | [] => []
  | item :: rest => ⟨ofForm item, Thunk.mk fun _ => some item.text⟩ :: ofFormItems rest

def ofFormMembers : List (String × Form) → List (Token String × Sourced Doc)
  | [] => []
  | (name, value) :: rest =>
    (.sound name, ⟨ofForm value, Thunk.mk fun _ => some value.text⟩) :: ofFormMembers rest

end

theorem ofForm_integer {i : Int} (hi : -0x8000000000000000 ≤ i ∧ i < 0x10000000000000000) :
    ofForm (.integer i) = .number (.sound (.integer i hi)) := by
  rw [ofForm, Number.ofInt?, dif_pos hi]
  rfl

theorem ofForm_float {x : Float} (hx : x.isFinite = true) :
    ofForm (.float x) = .number (.sound (.float x hx)) := by
  rw [ofForm, Number.ofFloat?, dif_pos hx]
  rfl

end Doc

/-- The document of a form, with its text. -/
def Sourced.ofForm (f : Form) : Sourced Doc := ⟨Doc.ofForm f, Thunk.mk fun _ => some f.text⟩

namespace Form

mutual

/-- Every number has a place in JSON, and what is copied is a payload. -/
def Writable : Form → Prop
  | .integer i => -0x8000000000000000 ≤ i ∧ i < 0x10000000000000000
  | .float x => x.isFinite = true
  | .array items => WritableItems items
  | .object members => WritableMembers members
  | .raw text => IsPayload text
  | _ => True

def WritableItems : List Form → Prop
  | [] => True
  | item :: rest => Writable item ∧ WritableItems rest

def WritableMembers : List (String × Form) → Prop
  | [] => True
  | (_, value) :: rest => Writable value ∧ WritableMembers rest

end

/-- The items of an array from one on, and the end of the array. -/
def itemsChars : List Form → List Char
  | [] => [']']
  | item :: rest => item.chars ++ restChars rest

/-- The members of an object from the quote of a name on, and the end of the object. -/
def membersChars : List (String × Form) → List Char
  | [] => ['\x7d']
  | (name, value) :: rest => quote name ++ ':' :: value.chars ++ memberChars rest

end Form

namespace Form

theorem writableItems_iff {items : List Form} :
    WritableItems items ↔ ∀ item ∈ items, item.Writable := by
  induction items with
  | nil => simp [WritableItems]
  | cons item rest ih => rw [WritableItems, ih, List.forall_mem_cons]

theorem writableMembers_iff {members : List (String × Form)} :
    WritableMembers members ↔ ∀ m ∈ members, m.2.Writable := by
  induction members with
  | nil => simp [WritableMembers]
  | cons m rest ih =>
    obtain ⟨name, f⟩ := m
    rw [WritableMembers, ih, List.forall_mem_cons]

end Form

namespace Doc

theorem ofFormItems_eq (items : List Form) : ofFormItems items = items.map Sourced.ofForm := by
  induction items with
  | nil => rfl
  | cons item rest ih => rw [ofFormItems, ih]; rfl

theorem ofFormMembers_eq (members : List (String × Form)) :
    ofFormMembers members = members.map fun m => (.sound m.1, Sourced.ofForm m.2) := by
  induction members with
  | nil => rfl
  | cons m rest ih =>
    obtain ⟨name, f⟩ := m
    rw [ofFormMembers, ih]
    rfl

end Doc

/-! ## How values begin and end -/

theorem startsValue_of_isDigit {c : Char} (h : c.isDigit = true) : StartsValue c := by
  refine ⟨?_, ?_⟩
  · rintro (rfl | rfl | rfl | rfl) <;> exact absurd h (by decide)
  · rintro rfl
    exact absurd h (by decide)

theorem endsNumber_comma (rest : List Symbol) : EndsNumber (.char ',' :: rest) := by
  intro c tail h
  cases h
  decide

theorem endsNumber_bracket (rest : List Symbol) : EndsNumber (.char ']' :: rest) := by
  intro c tail h
  cases h
  decide

theorem endsNumber_brace (rest : List Symbol) : EndsNumber (.char '\x7d' :: rest) := by
  intro c tail h
  cases h
  decide

namespace Decimal

theorem digits_cons (n : Nat) : ∃ c cs, digits n = c :: cs ∧ c.isDigit = true := by
  cases h : digits n with
  | nil => exact absurd h (digits_ne_nil n)
  | cons c cs => exact ⟨c, cs, rfl, digits_isDigit n c (by rw [h]; exact List.mem_cons_self)⟩

theorem wireDigits_cons (d : Decimal) : ∃ c cs, wireDigits d = c :: cs ∧ c.isDigit = true := by
  obtain ⟨c, cs, hdigits, hc⟩ := digits_cons d.coefficient
  unfold wireDigits
  split
  · unfold positional
    simp only [hdigits]
    split
    · exact ⟨c, _, rfl, hc⟩
    · split
      · rename_i hpos
        obtain ⟨n, hn⟩ : ∃ n, (d.exponent + ((c :: cs).length : Int)).toNat = n + 1 :=
          ⟨_, (Nat.sub_add_cancel (by omega : 1 ≤ _)).symm⟩
        rw [hn]
        exact ⟨c, _, rfl, hc⟩
      · exact ⟨'0', _, rfl, by decide⟩
  · unfold scientific
    rw [hdigits]
    simp only
    split
    · rename_i heq; cases heq
    · rename_i heq; cases heq; exact ⟨c, _, rfl, hc⟩
    · rename_i heq; cases heq; exact ⟨c, _, rfl, hc⟩

end Decimal

/-- The text of a form begins like a value. -/
theorem Form.chars_cons {f : Form} (hf : f.Writable) :
    ∃ c cs, f.chars = c :: cs ∧ StartsValue c := by
  cases f with
  | null => exact ⟨_, _, rfl, by decide⟩
  | bool b => cases b <;> exact ⟨_, _, rfl, by decide⟩
  | integer i =>
    rw [chars, integerChars]
    split
    · exact ⟨_, _, rfl, by decide⟩
    · obtain ⟨c, cs, h, hc⟩ := Decimal.digits_cons i.natAbs
      exact ⟨c, cs, h, startsValue_of_isDigit hc⟩
  | float x =>
    have hx : x.isFinite = true := hf
    rw [chars, floatChars, if_pos hx, Decimal.write_wire]
    split
    · exact ⟨_, _, rfl, by decide⟩
    · obtain ⟨c, cs, h, hc⟩ := Decimal.wireDigits_cons
        (Decimal.shortest .even (Decimal.magnitudeBits x))
      exact ⟨c, cs, h, startsValue_of_isDigit hc⟩
  | string s => exact ⟨_, _, rfl, by decide⟩
  | array items => cases items <;> exact ⟨_, _, rfl, by decide⟩
  | object members => cases members <;> exact ⟨_, _, rfl, by decide⟩
  | raw text =>
    have htext : IsPayload text := hf
    exact htext.facts.starts

/-! ## Reading -/

namespace Scan

theorem skipBlanks_chars {f : Form} (hf : f.Writable) (rest : List Symbol) :
    skipBlanks (f.chars.map .char ++ rest) = f.chars.map .char ++ rest := by
  obtain ⟨c, cs, h, hc⟩ := Form.chars_cons hf
  rw [h]
  exact skipBlanks_of_not_isBlank hc.1 _

theorem between_chars (cs : List Char) (rest : List Symbol) :
    between (cs.map .char ++ rest) rest = some (String.ofList cs) := by
  unfold between
  rw [List.length_append, Nat.add_sub_cancel, List.take_left, Symbol.text?,
    Symbol.chars?_map_char]
  rfl

/-- A value that is read as its document is cited as its form. -/
theorem cite_chars {f : Form} (hf : f.Writable) {fuel : Nat} {rest : List Symbol}
    (h : value fuel (f.chars.map .char ++ rest) = ⟨Doc.ofForm f, some rest⟩) :
    cite (skipBlanks (f.chars.map .char ++ rest))
      (value fuel (skipBlanks (f.chars.map .char ++ rest))) = ⟨Sourced.ofForm f, some rest⟩ := by
  rw [skipBlanks_chars hf, h]
  simp only [cite, Option.getD_some, between_chars]
  rfl

theorem value_minus (fuel : Nat) (rest : List Symbol) :
    value (fuel + 1) (.char '-' :: rest) = number true rest := by
  rw [value]
  rfl

theorem value_digit (fuel : Nat) {c : Char} (hc : c.isDigit = true) (rest : List Symbol) :
    value (fuel + 1) (.char c :: rest) = number false (.char c :: rest) := by
  have hne : ∀ d : Char, d.isDigit = false → c ≠ d := by
    rintro d hd rfl
    rw [hc] at hd
    cases hd
  rw [value, if_neg (hne 'n' (by decide)), if_neg (hne 't' (by decide)),
    if_neg (hne 'f' (by decide)), if_neg (hne '"' (by decide)), if_neg (hne '-' (by decide)),
    if_pos hc]

/-- A number is read from its sign and its digits. -/
theorem value_signed (fuel : Nat) {negative : Bool} {ds : List Char} {rest : List Symbol} {n : Number}
    (hds : ∃ c cs, ds = c :: cs ∧ c.isDigit = true)
    (h : scanNumber negative (ds.map .char ++ rest) = ⟨.sound n, some rest⟩) :
    value (fuel + 1) ((if negative = true then '-' :: ds else ds).map .char ++ rest) =
      ⟨.number (.sound n), some rest⟩ := by
  cases negative with
  | true =>
    rw [if_pos rfl, List.map_cons, List.cons_append, value_minus, number, h]
  | false =>
    obtain ⟨c, cs, rfl, hc⟩ := hds
    rw [if_neg Bool.false_ne_true, List.map_cons, List.cons_append, value_digit _ hc]
    rw [List.map_cons, List.cons_append] at h
    rw [number, h]

theorem value_integer (fuel : Nat) {i : Int}
    (hi : -0x8000000000000000 ≤ i ∧ i < 0x10000000000000000) {rest : List Symbol}
    (hrest : EndsNumber rest) :
    value (fuel + 1) ((Form.integer i).chars.map .char ++ rest) =
      ⟨Doc.ofForm (.integer i), some rest⟩ := by
  have hchars : (Form.integer i).chars =
      if decide (i < 0) = true then '-' :: Decimal.digits i.natAbs else Decimal.digits i.natAbs := by
    simp only [Form.chars, Form.integerChars, decide_eq_true_eq]
  rw [Doc.ofForm_integer hi, hchars]
  exact value_signed fuel (Decimal.digits_cons _) (scanNumber_integer hi hrest)

theorem value_float (fuel : Nat) {x : Float} (hx : x.isFinite = true) {rest : List Symbol}
    (hrest : EndsNumber rest) :
    value (fuel + 1) ((Form.float x).chars.map .char ++ rest) =
      ⟨Doc.ofForm (.float x), some rest⟩ := by
  rw [Doc.ofForm_float hx, Form.chars, Form.floatChars, if_pos hx, Decimal.write_wire]
  exact value_signed fuel (Decimal.wireDigits_cons _) (Decimal.scanNumber_wireDigits hx hrest)

theorem value_string (fuel : Nat) (s : String) (rest : List Symbol) :
    value (fuel + 1) ((Form.string s).chars.map .char ++ rest) =
      ⟨Doc.ofForm (.string s), some rest⟩ := by
  rw [Form.chars, quote_symbols, value]
  simp only [Char.reduceEq, if_false, if_true, string, scanString_quote]
  rfl

theorem skipBlanks_symbol (c : Char) (hc : ¬ IsBlank c) (rest : List Symbol) :
    skipBlanks (.char c :: rest) = .char c :: rest := skipBlanks_of_not_isBlank hc rest

theorem itemsChars_cons {items : List Form} (hne : items ≠ [])
    (hitems : Form.WritableItems items) (rest : List Symbol) :
    ∃ c tail, (Form.itemsChars items).map .char ++ rest = .char c :: tail ∧ StartsValue c := by
  cases items with
  | nil => exact absurd rfl hne
  | cons item more =>
    obtain ⟨c, cs, hchars, hc⟩ := Form.chars_cons hitems.1
    rw [Form.itemsChars, hchars]
    exact ⟨c, _, rfl, hc⟩

/-- The last item, and the end of the array. -/
theorem items_last {item : Form} (hitem : item.Writable) {fuel : Nat} {rest : List Symbol}
    (h : value fuel (item.chars.map .char ++ .char ']' :: rest) =
      ⟨Doc.ofForm item, some (.char ']' :: rest)⟩) :
    items (fuel + 1) ((Form.itemsChars [item]).map .char ++ rest) =
      (Doc.ofFormItems [item], none, some rest) := by
  have htext : (Form.itemsChars [item]).map Symbol.char ++ rest =
      item.chars.map .char ++ .char ']' :: rest := by
    simp [Form.itemsChars, Form.restChars]
  rw [htext, items]
  simp only [cite_chars hitem h, skipBlanks_symbol ']' (by decide)]
  rfl

/-- An item, and the items after it. -/
theorem items_more {item : Form} {more : List Form} (hne : more ≠ [])
    (hitems : Form.WritableItems (item :: more)) {fuel : Nat} {rest : List Symbol}
    (h : value fuel (item.chars.map .char ++ .char ',' ::
        ((Form.itemsChars more).map .char ++ rest)) =
      ⟨Doc.ofForm item, some (.char ',' :: ((Form.itemsChars more).map .char ++ rest))⟩)
    (hmore : items fuel ((Form.itemsChars more).map .char ++ rest) =
      (Doc.ofFormItems more, none, some rest)) :
    items (fuel + 1) ((Form.itemsChars (item :: more)).map .char ++ rest) =
      (Doc.ofFormItems (item :: more), none, some rest) := by
  have htext : (Form.itemsChars (item :: more)).map Symbol.char ++ rest =
      item.chars.map .char ++ .char ',' :: ((Form.itemsChars more).map .char ++ rest) := by
    cases more with
    | nil => exact absurd rfl hne
    | cons next more => simp [Form.itemsChars, Form.restChars]
  obtain ⟨c, tail, hcons, hc⟩ := itemsChars_cons hne hitems.2 rest
  have hopen : ∀ w, Symbol.char c :: tail = .char ']' :: w → False := fun w hw =>
    hc.2 (Symbol.char.inj (List.cons.inj hw).1)
  rw [htext, items]
  simp only [cite_chars hitems.1 h, skipBlanks_symbol ',' (by decide)]
  rw [hcons] at hmore ⊢
  simp only [skipBlanks_of_not_isBlank hc.1, hmore]
  rfl

/-- The symbols of members behind the quote of the first name. -/
def memberSymbols : List (String × Form) → List Symbol → List Symbol
  | [], rest => rest
  | (name, v) :: more, rest =>
    afterQuote name (.char ':' :: (v.chars.map .char ++ ((Form.memberChars more).map .char ++ rest)))

theorem membersChars_symbols {members : List (String × Form)} (hne : members ≠ [])
    (rest : List Symbol) :
    (Form.membersChars members).map .char ++ rest = .char '"' :: memberSymbols members rest := by
  cases members with
  | nil => exact absurd rfl hne
  | cons member more =>
    obtain ⟨name, v⟩ := member
    rw [Form.membersChars, memberSymbols, ← quote_symbols]
    simp

/-- The last member, and the end of the object. -/
theorem members_last {name : String} {v : Form} (hv : v.Writable) {fuel : Nat}
    {rest : List Symbol}
    (h : value fuel (v.chars.map .char ++ .char '\x7d' :: rest) =
      ⟨Doc.ofForm v, some (.char '\x7d' :: rest)⟩) :
    members (fuel + 1) (memberSymbols [(name, v)] rest) =
      (Doc.ofFormMembers [(name, v)], none, some rest) := by
  have hend : (Form.memberChars []).map Symbol.char ++ rest = .char '\x7d' :: rest := rfl
  rw [memberSymbols, members, hend]
  simp only [scanString_quote, skipBlanks_symbol ':' (by decide), cite_chars hv h,
    skipBlanks_symbol '\x7d' (by decide)]
  rfl

/-- A member, and the members after it. -/
theorem members_more {name : String} {v : Form} (hv : v.Writable) {more : List (String × Form)}
    (hne : more ≠ []) {fuel : Nat} {rest : List Symbol}
    (h : value fuel (v.chars.map .char ++ .char ',' :: .char '"' :: memberSymbols more rest) =
      ⟨Doc.ofForm v, some (.char ',' :: .char '"' :: memberSymbols more rest)⟩)
    (hmore : members fuel (memberSymbols more rest) = (Doc.ofFormMembers more, none, some rest)) :
    members (fuel + 1) (memberSymbols ((name, v) :: more) rest) =
      (Doc.ofFormMembers ((name, v) :: more), none, some rest) := by
  have htext : (Form.memberChars more).map Symbol.char ++ rest =
      .char ',' :: .char '"' :: memberSymbols more rest := by
    rw [← membersChars_symbols hne]
    cases more with
    | nil => exact absurd rfl hne
    | cons next more => simp [Form.memberChars, Form.membersChars]
  rw [memberSymbols, members, htext]
  simp only [scanString_quote, skipBlanks_symbol ':' (by decide), cite_chars hv h,
    skipBlanks_symbol ',' (by decide), skipBlanks_symbol '"' (by decide), hmore]
  rfl

/-- An array whose items are read as their documents. -/
theorem value_array {items : List Form} (hne : items ≠ []) (hitems : Form.WritableItems items)
    {fuel : Nat} {rest : List Symbol}
    (h : Scan.items fuel ((Form.itemsChars items).map .char ++ rest) =
      (Doc.ofFormItems items, none, some rest)) :
    value (fuel + 1) ((Form.array items).chars.map .char ++ rest) =
      ⟨Doc.ofForm (.array items), some rest⟩ := by
  have htext : (Form.array items).chars.map Symbol.char ++ rest =
      .char '[' :: ((Form.itemsChars items).map .char ++ rest) := by
    cases items with
    | nil => exact absurd rfl hne
    | cons item more => rfl
  obtain ⟨c, tail, hcons, hc⟩ := itemsChars_cons hne hitems rest
  have hopen : ∀ w, Symbol.char c :: tail = .char ']' :: w → False := fun w hw =>
    hc.2 (Symbol.char.inj (List.cons.inj hw).1)
  rw [hcons] at h htext
  rw [htext, value]
  simp only [Char.reduceEq, Char.reduceIsDigit, Bool.false_eq_true, if_false, if_true,
    skipBlanks_of_not_isBlank hc.1, h]
  rfl

/-- An object whose members are read as their documents. -/
theorem value_object {members : List (String × Form)} (hne : members ≠ []) {fuel : Nat}
    {rest : List Symbol}
    (h : Scan.members fuel (memberSymbols members rest) =
      (Doc.ofFormMembers members, none, some rest)) :
    value (fuel + 1) ((Form.object members).chars.map .char ++ rest) =
      ⟨Doc.ofForm (.object members), some rest⟩ := by
  have htext : (Form.object members).chars.map Symbol.char ++ rest =
      .char '\x7b' :: .char '"' :: memberSymbols members rest := by
    rw [← membersChars_symbols hne]
    cases members with
    | nil => exact absurd rfl hne
    | cons member more => rfl
  rw [htext, value]
  simp only [Char.reduceEq, Char.reduceIsDigit, Bool.false_eq_true, if_false, if_true,
    skipBlanks_symbol '"' (by decide), h]
  rfl

mutual

/-- The text of a form is read as its document, whatever follows it. -/
theorem value_chars : ∀ (f : Form), f.Writable → ∀ (fuel : Nat) (rest : List Symbol),
    f.chars.length ≤ fuel → EndsNumber rest →
    value fuel (f.chars.map .char ++ rest) = ⟨Doc.ofForm f, some rest⟩
  | .null, _, fuel + 1, rest, _, _ => rfl
  | .bool true, _, fuel + 1, rest, _, _ => rfl
  | .bool false, _, fuel + 1, rest, _, _ => rfl
  | .integer _, hf, fuel + 1, rest, _, hrest => value_integer fuel hf hrest
  | .float _, hf, fuel + 1, rest, _, hrest => value_float fuel hf hrest
  | .string s, _, fuel + 1, rest, _, _ => value_string fuel s rest
  | .array [], _, fuel + 1, rest, _, _ => rfl
  | .array (item :: more), hf, fuel + 1, rest, hfuel, _ =>
    value_array (List.cons_ne_nil _ _) hf
      (items_chars (item :: more) (List.cons_ne_nil _ _) hf fuel rest
        (Nat.le_of_succ_le_succ hfuel))
  | .object [], _, fuel + 1, rest, _, _ => rfl
  | .object ((name, v) :: more), hf, fuel + 1, rest, hfuel, _ =>
    value_object (List.cons_ne_nil _ _)
      (members_chars ((name, v) :: more) (List.cons_ne_nil _ _) hf fuel rest
        (Nat.le_of_succ_le_succ hfuel))
  | .raw text, hf, fuel, rest, hfuel, hrest => IsPayload.value (t := text) hf hfuel hrest
  | f, hf, 0, rest, hfuel, _ => by
    obtain ⟨c, cs, hchars, -⟩ := Form.chars_cons hf
    rw [hchars] at hfuel
    exact absurd hfuel (Nat.not_succ_le_zero _)

theorem items_chars : ∀ (items : List Form), items ≠ [] → Form.WritableItems items →
    ∀ (fuel : Nat) (rest : List Symbol), (Form.itemsChars items).length ≤ fuel →
    Scan.items fuel ((Form.itemsChars items).map .char ++ rest) =
      (Doc.ofFormItems items, none, some rest)
  | [], hne, _, _, _, _ => absurd rfl hne
  | [item], _, hitems, fuel, rest, hfuel => by
    rw [Form.itemsChars, List.length_append] at hfuel
    simp only [Form.restChars, List.length_singleton] at hfuel
    obtain ⟨fuel, rfl⟩ : ∃ n, fuel = n + 1 := ⟨fuel - 1, by omega⟩
    exact items_last hitems.1
      (value_chars item hitems.1 fuel _ (by omega) (endsNumber_bracket _))
  | item :: next :: more, _, hitems, fuel, rest, hfuel => by
    have hlength : (Form.itemsChars (item :: next :: more)).length =
        item.chars.length + (1 + (Form.itemsChars (next :: more)).length) := by
      simp only [Form.itemsChars, Form.restChars, List.length_append, List.length_cons]
      omega
    rw [hlength] at hfuel
    obtain ⟨fuel, rfl⟩ : ∃ n, fuel = n + 1 := ⟨fuel - 1, by omega⟩
    exact items_more (List.cons_ne_nil _ _) hitems
      (value_chars item hitems.1 fuel _ (by omega) (endsNumber_comma _))
      (items_chars (next :: more) (List.cons_ne_nil _ _) hitems.2 fuel rest (by omega))

theorem members_chars : ∀ (members : List (String × Form)), members ≠ [] →
    Form.WritableMembers members → ∀ (fuel : Nat) (rest : List Symbol),
    (Form.membersChars members).length ≤ fuel →
    Scan.members fuel (memberSymbols members rest) = (Doc.ofFormMembers members, none, some rest)
  | [], hne, _, _, _, _ => absurd rfl hne
  | [(name, v)], _, hmembers, fuel, rest, hfuel => by
    simp only [Form.membersChars, Form.memberChars, List.length_append, List.length_cons,
      List.length_nil] at hfuel
    obtain ⟨fuel, rfl⟩ : ∃ n, fuel = n + 1 := ⟨fuel - 1, by omega⟩
    exact members_last hmembers.1
      (value_chars v hmembers.1 fuel _ (by omega) (endsNumber_brace _))
  | (name, v) :: next :: more, _, hmembers, fuel, rest, hfuel => by
    have hlength : (Form.membersChars ((name, v) :: next :: more)).length =
        (Form.quote name).length + (1 + (v.chars.length +
          (1 + (Form.membersChars (next :: more)).length))) := by
      obtain ⟨name', v'⟩ := next
      simp only [Form.membersChars, Form.memberChars, List.length_append, List.length_cons]
      omega
    rw [hlength] at hfuel
    obtain ⟨fuel, rfl⟩ : ∃ n, fuel = n + 1 := ⟨fuel - 1, by omega⟩
    exact members_more hmembers.1 (List.cons_ne_nil _ _)
      (value_chars v hmembers.1 fuel _ (by omega) (endsNumber_comma _))
      (members_chars (next :: more) (List.cons_ne_nil _ _) hmembers.2 fuel rest (by omega))

end

end Scan

namespace Document

/-- A whole text is read as the document of its form, and nothing follows it. -/
theorem ofString_text {f : Form} (hf : f.Writable) :
    Document.ofString f.text = ⟨Sourced.ofForm f, none⟩ := by
  have hsymbols : Symbol.ofString f.text = f.chars.map .char ++ [] := by
    rw [Symbol.ofString, Form.text, String.toList_ofList, List.append_nil]
  have hlength : f.chars.length ≤ 2 * (f.chars.map Symbol.char ++ []).length + 2 := by
    rw [List.length_append, List.length_map]
    omega
  have hvalue := Scan.value_chars f hf _ _ hlength endsNumber_nil
  rw [Document.ofString, Document.ofSymbols, hsymbols]
  simp only [Scan.cite_chars hf hvalue]
  rfl

theorem ofBytes_text {f : Form} (hf : f.Writable) :
    Document.ofBytes f.text.toUTF8 = ⟨Sourced.ofForm f, none⟩ := by
  rw [Document.ofBytes, Symbol.ofBytes_toUTF8]
  exact ofString_text hf

end Document

namespace Doc

mutual

/-- A form has no faults to whoever skips it. -/
theorem skip_ofForm : ∀ (f : Form), f.Writable → (ofForm f).skip = none
  | .null, _ => rfl
  | .bool _, _ => rfl
  | .integer _, hf => by
    rw [ofForm_integer hf]
    rfl
  | .float _, hf => by
    rw [ofForm_float hf]
    rfl
  | .string _, _ => rfl
  | .array items, hf => skipItems_ofFormItems items hf
  | .object members, hf => skipMembers_ofFormMembers members hf
  | .raw text, hf => (IsPayload.facts (t := text) hf).skip

theorem skipItems_ofFormItems : ∀ (items : List Form), Form.WritableItems items →
    skipItems none (ofFormItems items) = none
  | [], _ => rfl
  | item :: rest, h => by
    rw [ofFormItems, skipItems, skip_ofForm item h.1, skipItems_ofFormItems rest h.2]
    rfl

theorem skipMembers_ofFormMembers : ∀ (members : List (String × Form)),
    Form.WritableMembers members → skipMembers none (ofFormMembers members) = none
  | [], _ => rfl
  | (name, v) :: rest, h => by
    rw [ofFormMembers, skipMembers, skip_ofForm v h.1, skipMembers_ofFormMembers rest h.2]
    rfl

end

end Doc

/-- The text of what is written is copied as it stands. -/
theorem Decoder.raw_ofForm {f : Form} (hf : f.Writable) (origin : Origin) :
    (Decoder.raw origin (Sourced.ofForm f)).result = .ok f.text := by
  have hskip : (Sourced.ofForm f).value.skip = none := Doc.skip_ofForm f hf
  simp only [Decoder.raw, hskip]
  rfl

/-- The text of what is written is a payload. -/
theorem Form.isPayload_text {f : Form} (hf : f.Writable) : IsPayload f.text := by
  refine Decoder.runDocument_eq_ok_iff.mpr ?_
  rw [Document.ofString_text hf]
  exact ⟨Decoder.raw_ofForm hf _, rfl⟩

/-! ## Floats without a number -/

namespace Form

mutual

/-- The form with `null` in the place of every float that is not finite. -/
def asWritten : Form → Form
  | .float x => if x.isFinite then .float x else .null
  | .array items => .array (asWrittenItems items)
  | .object members => .object (asWrittenMembers members)
  | f => f

def asWrittenItems : List Form → List Form
  | [] => []
  | item :: rest => asWritten item :: asWrittenItems rest

def asWrittenMembers : List (String × Form) → List (String × Form)
  | [] => []
  | (name, value) :: rest => (name, asWritten value) :: asWrittenMembers rest

end

mutual

theorem asWritten_of_writable : ∀ f : Form, f.Writable → f.asWritten = f
  | .null, _ | .bool _, _ | .integer _, _ | .string _, _ | .raw _, _ => rfl
  | .float _, hf => if_pos hf
  | .array items, hf => congrArg array (asWrittenItems_of_writable items hf)
  | .object members, hf => congrArg object (asWrittenMembers_of_writable members hf)

theorem asWrittenItems_of_writable : ∀ items : List Form, WritableItems items →
    asWrittenItems items = items
  | [], _ => rfl
  | item :: rest, h => by
    rw [asWrittenItems, asWritten_of_writable item h.1, asWrittenItems_of_writable rest h.2]

theorem asWrittenMembers_of_writable : ∀ members : List (String × Form), WritableMembers members →
    asWrittenMembers members = members
  | [], _ => rfl
  | (name, f) :: rest, h => by
    rw [asWrittenMembers, asWritten_of_writable f h.1, asWrittenMembers_of_writable rest h.2]

end

theorem writable_asWritten_object {members : List (String × Form)} :
    (object members).asWritten.Writable ↔ ∀ m ∈ members, m.2.asWritten.Writable := by
  show WritableMembers (asWrittenMembers members) ↔ _
  induction members with
  | nil => exact iff_of_true trivial nofun
  | cons m rest ih =>
    obtain ⟨name, f⟩ := m
    rw [asWrittenMembers, WritableMembers, ih, List.forall_mem_cons]

mutual

/-- The text does not tell them apart. -/
theorem chars_asWritten : ∀ f : Form, f.asWritten.chars = f.chars
  | .null | .bool _ | .integer _ | .string _ | .raw _ => rfl
  | .float x => by
    rw [asWritten, apply_ite chars, chars, chars, floatChars]
    split <;> rfl
  | .array [] | .object [] => rfl
  | .array (item :: rest) => by
    rw [asWritten, asWrittenItems, chars, chars, chars_asWritten item, restChars_asWritten rest]
  | .object ((name, value) :: rest) => by
    rw [asWritten, asWrittenMembers, chars, chars, chars_asWritten value,
      memberChars_asWritten rest]

theorem restChars_asWritten : ∀ items : List Form,
    restChars (asWrittenItems items) = restChars items
  | [] => rfl
  | item :: rest => by
    rw [asWrittenItems, restChars, restChars, chars_asWritten item, restChars_asWritten rest]

theorem memberChars_asWritten : ∀ members : List (String × Form),
    memberChars (asWrittenMembers members) = memberChars members
  | [] => rfl
  | (name, value) :: rest => by
    rw [asWrittenMembers, memberChars, memberChars, chars_asWritten value,
      memberChars_asWritten rest]

end

theorem text_asWritten (f : Form) : f.asWritten.text = f.text :=
  congrArg String.ofList (chars_asWritten f)

end Form

mutual

theorem Doc.ofForm_asWritten : ∀ f : Form, ofForm f.asWritten = ofForm f
  | .null | .bool _ | .integer _ | .string _ | .raw _ => rfl
  | .float x => by
    rw [Form.asWritten]
    split
    · rfl
    · rename_i h
      rw [ofForm, ofForm, Number.ofFloat?, dif_neg h]
      rfl
  | .array items => congrArg (array · none) (ofFormItems_asWritten items)
  | .object members => congrArg (object · none) (ofFormMembers_asWritten members)

theorem Doc.ofFormItems_asWritten : ∀ items : List Form,
    ofFormItems (Form.asWrittenItems items) = ofFormItems items
  | [] => rfl
  | item :: rest => by
    rw [Form.asWrittenItems, ofFormItems, ofFormItems, ofForm_asWritten item,
      ofFormItems_asWritten rest, Form.text_asWritten]

theorem Doc.ofFormMembers_asWritten : ∀ members : List (String × Form),
    ofFormMembers (Form.asWrittenMembers members) = ofFormMembers members
  | [] => rfl
  | (name, value) :: rest => by
    rw [Form.asWrittenMembers, ofFormMembers, ofFormMembers, ofForm_asWritten value,
      ofFormMembers_asWritten rest, Form.text_asWritten]

end

/-- A whole text is read as the document of its form, whose floats that are not finite are
`null`. -/
theorem Document.ofBytes_asWritten {f : Form} (hf : f.asWritten.Writable) :
    Document.ofBytes f.text.toUTF8 = ⟨Sourced.ofForm f, none⟩ := by
  have hdoc : Sourced.ofForm f.asWritten = Sourced.ofForm f := by
    rw [Sourced.ofForm, Sourced.ofForm, Doc.ofForm_asWritten, Form.text_asWritten]
  rw [← Form.text_asWritten, Document.ofBytes_text hf, hdoc]

end ContextProtocol
