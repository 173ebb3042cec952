import ContextProtocol.Proofs.Json.Citation

/-!
# Spelled values

What a message says at some place of its text cannot be read off its document, which keeps no blanks
and no escapes. A **spelled value** is a text that is one value. Arrays and objects are spelled by
their parts, with blanks wherever the grammar has room for them, so a text can be given with a hole
in it and the hole be filled with one value or another.

Results:
* `Spelled.items_closing`, `Spelled.members_closing`: the parts of a container are read one by one.
* `Spelled.doc_array`, `Spelled.doc_object`: so its document has the documents of its parts.
* `Spelled.Item.document`: a whole text has the document of the value in it.
* `Spelled.Place.exists_around`: a filled place has the same text around every value.
-/
namespace ContextProtocol

/-- Blanks between the parts of a text. -/
structure Gap where
  chars : List Char
  blank : ∀ c ∈ chars, IsBlank c

namespace Gap

def none : Gap := ⟨[], List.forall_mem_nil _⟩

def symbols (g : Gap) : List Symbol := g.chars.map .char

theorem blanks (g : Gap) : Blanks g.symbols := by
  intro s hs
  obtain ⟨c, hc, rfl⟩ := List.mem_map.mp hs
  exact ⟨c, g.blank c hc, rfl⟩

end Gap

/-- A reader of items does not mind blanks in front of them. -/
theorem Scan.items_skipBlanks (fuel : Nat) (text : List Symbol) :
    items fuel (skipBlanks text) = items fuel text := by
  cases fuel with
  | zero => rfl
  | succ fuel => rw [items, items, skipBlanks_skipBlanks]

/-- A text that is one value and begins with it. -/
structure Spelled where
  symbols : List Symbol
  begins : Scan.skipBlanks symbols = symbols
  ends : (Scan.value (2 * symbols.length + 2) symbols).rest = some []

namespace Spelled

/-! ## Values -/

/-- What the value is read as. -/
def doc (v : Spelled) : Doc := (Scan.value (2 * v.symbols.length + 2) v.symbols).value

/-- What the value is read as, with its text. -/
def sourced (v : Spelled) : Sourced Doc := ⟨v.doc, Thunk.mk fun _ => Symbol.text? v.symbols⟩

variable (v : Spelled) {fuel : Nat} {rest : List Symbol}

theorem value_eq : Scan.value (2 * v.symbols.length + 2) v.symbols = ⟨v.doc, some []⟩ := by
  rw [← v.ends]
  rfl

theorem symbols_ne_nil : v.symbols ≠ [] := by
  intro hnil
  have h := v.ends
  rw [hnil] at h
  cases h

/-- The value begins like a value. -/
theorem exists_start : ∃ c tail, v.symbols = .char c :: tail ∧ StartsValue c := by
  have hbegins := v.begins
  have hvalue := v.value_eq
  have hends := v.ends
  cases hsymbols : v.symbols with
  | nil => exact absurd hsymbols v.symbols_ne_nil
  | cons s tail =>
    rw [hsymbols] at hbegins hvalue hends
    cases s with
    | stray => cases hends
    | char c => exact ⟨c, tail, rfl, startsValue_of_value hbegins hvalue⟩

theorem skipBlanks_append : Scan.skipBlanks (v.symbols ++ rest) = v.symbols ++ rest :=
  Scan.skipBlanks_start v.symbols_ne_nil (by rw [List.append_nil, v.begins]) rest

/-- The value is read from every text that begins with it. -/
theorem value_append (hfuel : v.symbols.length ≤ fuel) (hrest : EndsNumber rest) :
    Scan.value fuel (v.symbols ++ rest) = ⟨v.doc, some rest⟩ :=
  Scan.value_append v.value_eq hfuel fun _ => hrest

theorem cite_append (hfuel : v.symbols.length ≤ fuel) (hrest : EndsNumber rest) :
    Scan.cite (v.symbols ++ rest) (Scan.value fuel (v.symbols ++ rest)) =
      ⟨v.sourced, some rest⟩ := by
  have htext : Scan.between (v.symbols ++ rest) rest = Symbol.text? v.symbols := by
    simp [Scan.between]
  rw [v.value_append hfuel hrest]
  simp only [Scan.cite, Option.getD_some, htext]
  rfl

/-- A payload is spelled by its text. -/
def ofPayload {t : String} (h : IsPayload t) : Spelled where
  symbols := Symbol.ofString t
  begins := by
    obtain ⟨c, cs, htext, hstart⟩ := h.facts.starts
    rw [Symbol.ofString, htext]
    exact Scan.skipBlanks_of_not_isBlank hstart.1 _
  ends := by
    have hlength : (Symbol.ofString t).length = t.toList.length := List.length_map ..
    rw [hlength, h.facts.value]

/-! ## Items -/

/-- A value with blanks around it. -/
structure Item where
  before : Gap
  value : Spelled
  after : Gap

namespace Item

def text (i : Item) : List Symbol := i.before.symbols ++ (i.value.symbols ++ i.after.symbols)

/-- The item with another value between the same blanks. -/
def fill (i : Item) (v : Spelled) : Item := { i with value := v }

variable (i : Item)

theorem length_text : i.value.symbols.length ≤ i.text.length := by
  simp only [text, List.length_append]
  omega

theorem skipBlanks_text (rest : List Symbol) :
    Scan.skipBlanks (i.text ++ rest) = i.value.symbols ++ (i.after.symbols ++ rest) := by
  rw [text, List.append_assoc, List.append_assoc, Scan.skipBlanks_blanks i.before.blanks,
    skipBlanks_append]

theorem cite_text (hfuel : i.text.length ≤ fuel) (hrest : EndsNumber rest) :
    Scan.cite (Scan.skipBlanks (i.text ++ rest))
      (Scan.value fuel (Scan.skipBlanks (i.text ++ rest))) =
        ⟨i.value.sourced, some (i.after.symbols ++ rest)⟩ := by
  rw [skipBlanks_text]
  exact i.value.cite_append (Nat.le_trans i.length_text hfuel)
    (Scan.endsNumber_blanks i.after.blanks hrest)

/-- A text that holds a value and blanks has the document of the value. -/
theorem document : Document.ofSymbols i.text = ⟨i.value.sourced, none⟩ := by
  have hcite := i.cite_text (Nat.le_of_lt (by omega : i.text.length < 2 * i.text.length + 2))
    endsNumber_nil
  have hafter := Scan.skipBlanks_blanks i.after.blanks []
  simp only [List.append_nil] at hcite hafter
  simp only [Document.ofSymbols, hcite, hafter]
  rfl

end Item

/-- The document of a text that is one value. -/
theorem document (v : Spelled) : Document.ofSymbols v.symbols = ⟨v.sourced, none⟩ := by
  have h := (Item.mk .none v .none).document
  rwa [Item.text, Gap.none, Gap.symbols, List.map_nil, List.nil_append, List.append_nil] at h

/-! ## Members -/

/-- The name of a member, behind its opening quote. -/
structure Name where
  symbols : List Symbol
  ends : (scanString symbols).rest = some []

namespace Name

/-- What the name is read as. -/
def token (n : Name) : Token String := (scanString n.symbols).value

theorem scanString_append (n : Name) (rest : List Symbol) :
    scanString (n.symbols ++ rest) = ⟨n.token, some rest⟩ := by
  have h : scanString n.symbols = ⟨n.token, some []⟩ := by
    rw [← n.ends]
    rfl
  exact (ContextProtocol.scanString_append h).2 rest

end Name

/-- A name as it is written. -/
def Name.ofString (name : String) : Name where
  symbols := afterQuote name []
  ends := by rw [scanString_quote]

theorem Name.token_ofString (name : String) : (Name.ofString name).token = .sound name :=
  congrArg Scanned.value (scanString_quote name [])

/-- A member of an object. -/
structure Member where
  before : Gap
  name : Name
  beforeColon : Gap
  item : Item

namespace Member

/-- A member without blanks. -/
def compact (name : String) (v : Spelled) : Member :=
  ⟨.none, .ofString name, .none, ⟨.none, v, .none⟩⟩

/-- The member behind the opening quote of its name. -/
def body (m : Member) : List Symbol :=
  m.name.symbols ++ (m.beforeColon.symbols ++ .char ':' :: m.item.text)

def text (m : Member) : List Symbol := m.before.symbols ++ .char '"' :: m.body

/-- The member with another value. -/
def fill (m : Member) (v : Spelled) : Member := { m with item := m.item.fill v }

/-- What the member is read as. -/
def entry (m : Member) : Token String × Sourced Doc := (m.name.token, m.item.value.sourced)

variable (m : Member)

theorem length_body : m.item.text.length + 1 ≤ m.body.length := by
  simp only [body, List.length_append, List.length_cons]
  omega

theorem skipBlanks_text (rest : List Symbol) :
    Scan.skipBlanks (m.text ++ rest) = .char '"' :: (m.body ++ rest) := by
  rw [text, List.append_assoc, Scan.skipBlanks_blanks m.before.blanks]
  exact Scan.skipBlanks_of_not_isBlank (by decide) _

/-- The name, the colon and the value are found one after the other. -/
theorem reads (hfuel : m.body.length ≤ fuel + 1) (hrest : EndsNumber rest) :
    ∃ afterName colon, scanString (m.body ++ rest) = ⟨m.name.token, some afterName⟩ ∧
      Scan.skipBlanks afterName = .char ':' :: colon ∧
      Scan.cite (Scan.skipBlanks colon) (Scan.value fuel (Scan.skipBlanks colon)) =
        ⟨m.item.value.sourced, some (m.item.after.symbols ++ rest)⟩ := by
  have hbody : m.body ++ rest =
      m.name.symbols ++ (m.beforeColon.symbols ++ .char ':' :: (m.item.text ++ rest)) := by
    simp [body]
  refine ⟨_, m.item.text ++ rest, hbody ▸ m.name.scanString_append _, ?_, ?_⟩
  · rw [Scan.skipBlanks_blanks m.beforeColon.blanks]
    exact Scan.skipBlanks_of_not_isBlank (by decide) _
  · exact m.item.cite_text (Nat.le_of_succ_le_succ (Nat.le_trans m.length_body hfuel)) hrest

/-- The last member is read to the end of its object. -/
theorem members_last (hfuel : m.body.length ≤ fuel + 1) (rest : List Symbol) :
    Scan.members (fuel + 1) (m.body ++ .char '\x7d' :: rest) = ([m.entry], none, some rest) := by
  obtain ⟨afterName, colon, hname, hcolon, hitem⟩ := m.reads hfuel (endsNumber_brace rest)
  have hend : Scan.skipBlanks (m.item.after.symbols ++ .char '\x7d' :: rest) =
      .char '\x7d' :: rest := by
    rw [Scan.skipBlanks_blanks m.item.after.blanks]
    exact Scan.skipBlanks_of_not_isBlank (by decide) _
  simp only [Scan.members, hname, hcolon, hitem, hend]
  rfl

/-- Another member is read up to the one behind its comma. -/
theorem members_next (hfuel : m.body.length ≤ fuel + 1) (next : Member) (rest : List Symbol)
    {found : List (Token String × Sourced Doc)} {stop : Option Fault} {left : Option (List Symbol)}
    (hnext : Scan.members fuel (next.body ++ rest) = (found, stop, left)) :
    Scan.members (fuel + 1) (m.body ++ .char ',' :: (next.text ++ rest)) =
      (m.entry :: found, stop, left) := by
  obtain ⟨afterName, colon, hname, hcolon, hitem⟩ :=
    m.reads hfuel (endsNumber_comma (next.text ++ rest))
  have hcomma : Scan.skipBlanks (m.item.after.symbols ++ .char ',' :: (next.text ++ rest)) =
      .char ',' :: (next.text ++ rest) := by
    rw [Scan.skipBlanks_blanks m.item.after.blanks]
    exact Scan.skipBlanks_of_not_isBlank (by decide) _
  simp only [Scan.members, hname, hcolon, hitem, hcomma, next.skipBlanks_text rest, hnext]
  rfl

end Member

namespace Item

variable (i : Item)

/-- The last item is read to the end of its array. -/
theorem items_last (hfuel : i.text.length ≤ fuel) (rest : List Symbol) :
    Scan.items (fuel + 1) (i.text ++ .char ']' :: rest) = ([i.value.sourced], none, some rest) := by
  have hend : Scan.skipBlanks (i.after.symbols ++ .char ']' :: rest) = .char ']' :: rest := by
    rw [Scan.skipBlanks_blanks i.after.blanks]
    exact Scan.skipBlanks_of_not_isBlank (by decide) _
  simp only [Scan.items, i.cite_text hfuel (endsNumber_bracket rest), hend]

/-- Another item is read up to the one behind its comma. -/
theorem items_next (hfuel : i.text.length ≤ fuel) (next : Item) (rest : List Symbol)
    {found : List (Sourced Doc)} {stop : Option Fault} {left : Option (List Symbol)}
    (hnext : Scan.items fuel (next.text ++ rest) = (found, stop, left)) :
    Scan.items (fuel + 1) (i.text ++ .char ',' :: (next.text ++ rest)) =
      (i.value.sourced :: found, stop, left) := by
  have hcomma : Scan.skipBlanks (i.after.symbols ++ .char ',' :: (next.text ++ rest)) =
      .char ',' :: (next.text ++ rest) := by
    rw [Scan.skipBlanks_blanks i.after.blanks]
    exact Scan.skipBlanks_of_not_isBlank (by decide) _
  -- behind the comma stands a value, not the end of the array
  obtain ⟨c, tail, hvalue, hstart⟩ := next.value.exists_start
  have hbegin : Scan.skipBlanks (next.text ++ rest) =
      .char c :: (tail ++ (next.after.symbols ++ rest)) := by
    rw [next.skipBlanks_text, hvalue]
    rfl
  have hskip : Scan.items fuel (.char c :: (tail ++ (next.after.symbols ++ rest))) =
      (found, stop, left) := by
    rw [← hbegin, Scan.items_skipBlanks, hnext]
  simp only [Scan.items, i.cite_text hfuel (endsNumber_comma _), hcomma, hbegin]
  split
  · rename_i heq
    exact absurd (Symbol.char.inj (List.cons.inj heq).1) hstart.2
  · rw [hskip]

end Item

/-! ## Containers -/

/-- The parts after the first, and the end of the container. -/
def closing (last : Char) : List (List Symbol) → List Symbol
  | [] => [.char last]
  | part :: rest => .char ',' :: (part ++ closing last rest)

/-- The parts of a container between its brackets, with commas between them. -/
def enclosed (first last : Char) : List (List Symbol) → List Symbol
  | [] => [.char first, .char last]
  | part :: rest => .char first :: (part ++ closing last rest)

/-- The members of an object are found in their order. -/
theorem members_closing (members : List Member) : ∀ (m : Member) (fuel : Nat) (rest : List Symbol),
    (m.body ++ closing '\x7d' (members.map Member.text)).length ≤ fuel →
    Scan.members fuel (m.body ++ (closing '\x7d' (members.map Member.text) ++ rest)) =
      ((m :: members).map Member.entry, none, some rest) := by
  induction members with
  | nil =>
    intro m fuel rest hfuel
    rw [List.length_append] at hfuel
    obtain ⟨fuel, rfl⟩ : ∃ n, fuel = n + 1 := ⟨fuel - 1, by simp [closing] at hfuel; omega⟩
    exact m.members_last (by omega) rest
  | cons next members ih =>
    intro m fuel rest hfuel
    simp only [List.map_cons, closing, List.length_append, List.length_cons, Member.text] at hfuel
    obtain ⟨fuel, rfl⟩ : ∃ n, fuel = n + 1 := ⟨fuel - 1, by omega⟩
    have hmore := ih next fuel rest (by rw [List.length_append]; omega)
    have hread := m.members_next (by omega) next _ hmore
    simpa [closing] using hread

/-- The items of an array are found in their order. -/
theorem items_closing (items : List Item) : ∀ (i : Item) (fuel : Nat) (rest : List Symbol),
    (i.text ++ closing ']' (items.map Item.text)).length ≤ fuel →
    Scan.items fuel (i.text ++ (closing ']' (items.map Item.text) ++ rest)) =
      ((i :: items).map (·.value.sourced), none, some rest) := by
  induction items with
  | nil =>
    intro i fuel rest hfuel
    rw [List.length_append] at hfuel
    obtain ⟨fuel, rfl⟩ : ∃ n, fuel = n + 1 := ⟨fuel - 1, by simp [closing] at hfuel; omega⟩
    exact i.items_last (by simp [closing] at hfuel; omega) rest
  | cons next items ih =>
    intro i fuel rest hfuel
    simp only [List.map_cons, closing, List.length_append, List.length_cons] at hfuel
    obtain ⟨fuel, rfl⟩ : ∃ n, fuel = n + 1 := ⟨fuel - 1, by omega⟩
    have hmore := ih next fuel rest (by rw [List.length_append]; omega)
    have hread := i.items_next (by omega) next _ hmore
    simpa [closing] using hread

/-- A container begins with its bracket. -/
theorem skipBlanks_enclosed {first : Char} (hfirst : ¬ IsBlank first) (last : Char)
    (parts : List (List Symbol)) :
    Scan.skipBlanks (enclosed first last parts) = enclosed first last parts := by
  cases parts with
  | nil => exact Scan.skipBlanks_of_not_isBlank hfirst _
  | cons part parts => exact Scan.skipBlanks_of_not_isBlank hfirst _

theorem value_object (members : List Member) {fuel : Nat}
    (hfuel : (enclosed '\x7b' '\x7d' (members.map Member.text)).length ≤ fuel) :
    Scan.value fuel (enclosed '\x7b' '\x7d' (members.map Member.text)) =
      ⟨.object (members.map Member.entry) none, some []⟩ := by
  cases members with
  | nil =>
    obtain ⟨fuel, rfl⟩ : ∃ n, fuel = n + 1 := ⟨fuel - 1, by simp [enclosed] at hfuel; omega⟩
    rfl
  | cons m members =>
    simp only [List.map_cons, enclosed, List.length_cons, List.length_append] at hfuel
    obtain ⟨fuel, rfl⟩ : ∃ n, fuel = n + 1 := ⟨fuel - 1, by omega⟩
    have hread := members_closing members m fuel []
      (by simp only [Member.text, List.length_append, List.length_cons] at hfuel ⊢; omega)
    have hopen := m.skipBlanks_text (closing '\x7d' (members.map Member.text))
    rw [List.append_nil] at hread
    rw [List.map_cons, enclosed]
    show Scan.object fuel _ = _
    rw [Scan.object, hopen]
    simp only [hread]

theorem value_array (items : List Item) {fuel : Nat}
    (hfuel : (enclosed '[' ']' (items.map Item.text)).length ≤ fuel) :
    Scan.value fuel (enclosed '[' ']' (items.map Item.text)) =
      ⟨.array (items.map (·.value.sourced)) none, some []⟩ := by
  cases items with
  | nil =>
    obtain ⟨fuel, rfl⟩ : ∃ n, fuel = n + 1 := ⟨fuel - 1, by simp [enclosed] at hfuel; omega⟩
    rfl
  | cons i items =>
    simp only [List.map_cons, enclosed, List.length_cons, List.length_append] at hfuel
    obtain ⟨fuel, rfl⟩ : ∃ n, fuel = n + 1 := ⟨fuel - 1, by omega⟩
    have hread := items_closing items i fuel [] (by rw [List.length_append]; omega)
    obtain ⟨c, tail, hvalue, hstart⟩ := i.value.exists_start
    have hopen : Scan.skipBlanks (i.text ++ closing ']' (items.map Item.text)) =
        .char c :: (tail ++ (i.after.symbols ++ closing ']' (items.map Item.text))) := by
      rw [i.skipBlanks_text, hvalue]
      rfl
    rw [List.append_nil, ← Scan.items_skipBlanks, hopen] at hread
    rw [List.map_cons, enclosed]
    show Scan.array fuel _ = _
    rw [Scan.array, hopen]
    split
    · rename_i heq
      cases heq
    · rename_i heq
      exact absurd (Symbol.char.inj (List.cons.inj heq).1) hstart.2
    · rw [hread]

/-- An object by its members. -/
def object (members : List Member) : Spelled where
  symbols := enclosed '\x7b' '\x7d' (members.map Member.text)
  begins := skipBlanks_enclosed (by decide) _ _
  ends := by rw [value_object members (by omega)]

/-- An array by its items. -/
def array (items : List Item) : Spelled where
  symbols := enclosed '[' ']' (items.map Item.text)
  begins := skipBlanks_enclosed (by decide) _ _
  ends := by rw [value_array items (by omega)]

@[simp] theorem doc_object (members : List Member) :
    (object members).doc = .object (members.map Member.entry) none :=
  congrArg Scanned.value (value_object members (Nat.le_trans (Nat.le_mul_of_pos_left _ (by decide))
    (Nat.le_add_right _ 2)))

@[simp] theorem doc_array (items : List Item) :
    (array items).doc = .array (items.map (·.value.sourced)) none :=
  congrArg Scanned.value (value_array items (Nat.le_trans (Nat.le_mul_of_pos_left _ (by decide))
    (Nat.le_add_right _ 2)))

/-! ## Places -/

/-- A place for a value in a container. The value that stands there is put aside. -/
inductive Place where
  | member (before : List Member) (place : Member) (after : List Member)
  | item (before : List Item) (place : Item) (after : List Item)

namespace Place

/-- The container with a value in the place. -/
def fill : Place → Spelled → Spelled
  | .member before place after, v => object (before ++ place.fill v :: after)
  | .item before place after, v => array (before ++ place.fill v :: after)

theorem doc_fill_member (before after : List Member) (place : Member) (v : Spelled) :
    ((Place.member before place after).fill v).doc =
      .object (before.map Member.entry ++ (place.name.token, v.sourced) :: after.map Member.entry)
        none := by
  rw [fill, doc_object, List.map_append, List.map_cons]
  rfl

theorem doc_fill_item (before after : List Item) (place : Item) (v : Spelled) :
    ((Place.item before place after).fill v).doc =
      .array (before.map (·.value.sourced) ++ v.sourced :: after.map (·.value.sourced)) none := by
  rw [fill, doc_array, List.map_append, List.map_cons]
  rfl

/-- A field of a record stands here, in an object under its name and in an array where it comes. -/
def HasField (name : String) (position : Nat) : Place → Prop
  | .member _ place _ => place.name.token.reading = .ok name
  | .item before _ _ => before.length = position

end Place

/-- The parts around one of them do not depend on it. -/
theorem exists_closing_around (last : Char) (before after : List (List Symbol)) :
    ∃ front back, ∀ part, closing last (before ++ part :: after) = front ++ (part ++ back) := by
  induction before with
  | nil => exact ⟨[.char ','], closing last after, fun part => rfl⟩
  | cons first before ih =>
    obtain ⟨front, back, h⟩ := ih
    exact ⟨.char ',' :: (first ++ front), back, fun part => by simp [closing, h part]⟩

theorem exists_enclosed_around (first last : Char) (before after : List (List Symbol)) :
    ∃ front back, ∀ part, enclosed first last (before ++ part :: after) = front ++ (part ++ back) := by
  cases before with
  | nil => exact ⟨[.char first], closing last after, fun part => rfl⟩
  | cons part before =>
    obtain ⟨front, back, h⟩ := exists_closing_around last before after
    exact ⟨.char first :: (part ++ front), back, fun part => by simp [enclosed, h part]⟩

/-- A filled place has the same text around every value. -/
theorem Place.exists_around (p : Place) :
    ∃ front back, ∀ v, (p.fill v).symbols = front ++ (v.symbols ++ back) := by
  cases p with
  | member before place after =>
    obtain ⟨front, back, h⟩ := exists_enclosed_around '\x7b' '\x7d' (before.map Member.text)
      (after.map Member.text)
    refine ⟨front ++ (place.before.symbols ++ .char '"' :: (place.name.symbols ++
      (place.beforeColon.symbols ++ .char ':' :: place.item.before.symbols))),
      place.item.after.symbols ++ back, fun v => ?_⟩
    simp [fill, object, h, Member.text, Member.body, Member.fill, Item.fill, Item.text]
  | item before place after =>
    obtain ⟨front, back, h⟩ := exists_enclosed_around '[' ']' (before.map Item.text)
      (after.map Item.text)
    refine ⟨front ++ place.before.symbols, place.after.symbols ++ back, fun v => ?_⟩
    simp [fill, array, h, Item.fill, Item.text]

theorem Place.fill_present (p : Place) (v : Spelled) :
    (p.fill v).doc ≠ .null ∧ ∀ fault, (p.fill v).doc ≠ .cut .null fault := by
  cases p with
  | member before place after =>
    rw [Place.doc_fill_member]
    exact ⟨Doc.noConfusion, fun _ => Doc.noConfusion⟩
  | item before place after =>
    rw [Place.doc_fill_item]
    exact ⟨Doc.noConfusion, fun _ => Doc.noConfusion⟩

/-! ## Whole texts -/

/-- A decoder on bytes that spell a value reads the value. -/
theorem run_eq_ok_iff {α : Type} {dec : Decoder α} {bytes : ByteArray} {i : Item}
    (hbytes : Symbol.ofBytes bytes = i.text) {a : α} :
    (dec.run bytes).result = .ok a ↔
      (dec (.text Origin.maxDepth) i.value.sourced).result = .ok a := by
  rw [Decoder.run, Document.ofBytes, hbytes, i.document, Decoder.runDocument_eq_ok_iff]
  exact and_iff_left rfl

/-- The same for a text. -/
theorem runString_eq_ok_iff {α : Type} {dec : Decoder α} {t : String} {v : Spelled}
    (htext : v.symbols = Symbol.ofString t) {a : α} :
    (dec.runString t).result = .ok a ↔
      (dec (.text Origin.maxDepth) v.sourced).result = .ok a := by
  rw [Decoder.runString, Document.ofString, ← htext, v.document, Decoder.runDocument_eq_ok_iff]
  exact and_iff_left rfl

/-! ## Copies -/

/-- A value is copied when it can be passed over and no byte strays in it. -/
theorem raw_eq_ok_iff {v : Spelled} {origin : Origin} {t : String} :
    (Decoder.raw origin v.sourced).result = .ok t ↔
      v.doc.skip = none ∧ v.symbols = Symbol.ofString t := by
  constructor
  · intro h
    obtain ⟨hskip, htext⟩ := Decoder.raw_eq_ok h
    exact ⟨hskip, Symbol.text?_eq_some htext⟩
  · rintro ⟨hskip, hsymbols⟩
    refine Decoder.result_raw hskip ?_
    show Symbol.text? v.symbols = some t
    rw [hsymbols, Symbol.text?_ofString]

/-- The copy is a payload. -/
theorem isPayload_of_raw {v : Spelled} {origin : Origin} {t : String}
    (h : (Decoder.raw origin v.sourced).result = .ok t) : IsPayload t := by
  obtain ⟨hskip, hsymbols⟩ := raw_eq_ok_iff.mp h
  refine (Scan.payload_of_value ?_ ?_ hskip).2
  · rw [← hsymbols, v.begins]
  · rw [← hsymbols, v.value_eq]

/-- A payload is copied as it stands. -/
theorem raw_ofPayload {t : String} (h : IsPayload t) (origin : Origin) :
    (Decoder.raw origin (ofPayload h).sourced).result = .ok t := by
  have hdoc : (ofPayload h).doc = (Document.ofString t).root.value := by
    have hlength : (Symbol.ofString t).length = t.toList.length := List.length_map ..
    rw [doc, ofPayload, hlength, h.facts.value]
  exact raw_eq_ok_iff.mpr ⟨(congrArg Doc.skip hdoc).trans h.facts.skip, rfl⟩

/-- The value can be copied. -/
structure Copyable (v : Spelled) : Prop where
  skip : v.doc.skip = none
  clean : Symbol.Clean v.symbols

theorem copyable_iff {v : Spelled} {origin : Origin} :
    v.Copyable ↔ ∃ t, (Decoder.raw origin v.sourced).result = .ok t := by
  simp only [raw_eq_ok_iff]
  constructor
  · rintro ⟨hskip, hclean⟩
    obtain ⟨t, ht⟩ := hclean.exists_text
    exact ⟨t, hskip, ht.symm⟩
  · rintro ⟨t, hskip, hsymbols⟩
    exact ⟨hskip, hsymbols ▸ Symbol.clean_chars t.toList⟩

end Spelled

namespace Doc

theorem skipItems_append (stop : Option Fault) (front back : List (Sourced Doc)) :
    skipItems stop (front ++ back) = (skipItems none front).or (skipItems stop back) := by
  induction front with
  | nil => rfl
  | cons item front ih => rw [List.cons_append, skipItems, skipItems, ih, Option.or_assoc]

theorem skipMembers_append (stop : Option Fault) (front back : List (Token String × Sourced Doc)) :
    skipMembers stop (front ++ back) = (skipMembers none front).or (skipMembers stop back) := by
  induction front with
  | nil => rfl
  | cons m front ih =>
    rw [List.cons_append, skipMembers, skipMembers, ih, Option.or_assoc, Option.or_assoc]

end Doc

namespace Spelled.Place

/-- What stands around a place can be passed over or not, whatever stands in it. -/
theorem exists_skip_fill_iff (p : Place) :
    ∃ around : Prop, ∀ v, (p.fill v).doc.skip = none ↔ around ∧ v.doc.skip = none := by
  cases p with
  | member before place after =>
    refine ⟨Doc.skipMembers none (before.map Member.entry) = none ∧
      place.name.token.skipping = none ∧ Doc.skipMembers none (after.map Member.entry) = none,
      fun v => ?_⟩
    rw [doc_fill_member, Doc.skip, Doc.skipMembers_append]
    simp only [Doc.skipMembers, Option.or_eq_none_iff, sourced]
    tauto
  | item before place after =>
    refine ⟨Doc.skipItems none (before.map (·.value.sourced)) = none ∧
      Doc.skipItems none (after.map (·.value.sourced)) = none, fun v => ?_⟩
    rw [doc_fill_item, Doc.skip, Doc.skipItems_append]
    simp only [Doc.skipItems, Option.or_eq_none_iff, sourced]
    tauto

variable {p : Place} {v w : Spelled}

/-- What stands in a container that can be copied can be copied. -/
theorem copyable_of_fill (h : (p.fill v).Copyable) : v.Copyable := by
  obtain ⟨around, hskip⟩ := p.exists_skip_fill_iff
  obtain ⟨front, back, hsymbols⟩ := p.exists_around
  have hclean := h.clean
  rw [hsymbols, Symbol.clean_append, Symbol.clean_append] at hclean
  exact ⟨((hskip v).mp h.skip).2, hclean.2.1⟩

/-- The container can be copied, too, with something else in it that can. -/
theorem copyable_refill (h : (p.fill v).Copyable) (hw : w.Copyable) : (p.fill w).Copyable := by
  obtain ⟨around, hskip⟩ := p.exists_skip_fill_iff
  obtain ⟨front, back, hsymbols⟩ := p.exists_around
  have hclean := h.clean
  rw [hsymbols, Symbol.clean_append, Symbol.clean_append] at hclean
  refine ⟨(hskip w).mpr ⟨((hskip v).mp h.skip).1, hw.skip⟩, ?_⟩
  rw [hsymbols, Symbol.clean_append, Symbol.clean_append]
  exact ⟨hclean.1, hw.clean, hclean.2.2⟩

end Spelled.Place

end ContextProtocol
