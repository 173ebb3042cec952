import ContextProtocol.Proofs.Json.Reading

/-!
# Values that come back from their texts

An object that begins with the reserved name stands for the value in the text of that member, so a
reader may follow texts inside texts. It cannot do so for ever: a string is shorter than the text it
was read from. So no text stands for an object that holds the text itself, and a value comes back
from its own text only if none of its objects begins with the reserved name.

Results:
* `Scan.longestText_value`: a string in a document is shorter than the text of the document.
* `Doc.longestText_json`: reading makes no string longer.
* `Doc.bare_of_json`: a value that two readings lead back to stands for itself.
* `Json.recovered_iff`: which values come back from their own texts.
* `Json.Recovered.member`, `Json.recovered_of_members`: an object comes back when its values do and
  the reserved name is not its first.
-/
namespace ContextProtocol

/-! ## Strings are shorter than texts -/

theorem scanPieces_length (u : List Symbol) : ∀ (state : StringState) (found : List Piece),
    (scanPieces state found u).1.length ≤ found.length + u.length := by
  induction u with
  | nil =>
    intro state found
    cases state <;> simp [scanPieces]
  | cons s u ih =>
    intro state found
    have hnext : ∀ state' (p : Piece),
        (scanPieces state' (p :: found) u).1.length ≤ found.length + (u.length + 1) := by
      intro state' p
      have := ih state' (p :: found)
      rw [List.length_cons] at this
      omega
    have hskip : ∀ state',
        (scanPieces state' found u).1.length ≤ found.length + (u.length + 1) := fun state' =>
      Nat.le_succ_of_le (ih state' found)
    have hstop : found.reverse.length ≤ found.length + (u.length + 1) := by
      rw [List.length_reverse]
      exact Nat.le_add_right _ _
    rw [List.length_cons]
    cases s with
    | stray =>
      cases state with
      | plain => exact hnext _ _
      | escape => exact hstop
      | hex more code => exact hstop
    | char c =>
      cases state with
      | plain =>
        rw [scanPieces]
        split
        · exact hstop
        · split
          · exact hskip _
          · split
            · exact hstop
            · exact hnext _ _
      | escape =>
        rw [scanPieces]
        split
        · split
          · exact hstop
          · exact hskip _
        · split
          · exact hnext _ _
          · exact hstop
      | hex more code =>
        rw [scanPieces]
        split
        · exact hstop
        · split
          · exact hnext _ _
          · exact hskip _

/-- A piece gives at most one character. -/
theorem Piece.length_assemble {stop : Option Fault} {found : List Char} {clean : Bool}
    {pieces : List Piece} {s : String} (h : assemble stop found clean pieces = .ok s) :
    s.length ≤ found.length + pieces.length := by
  fun_induction assemble stop found clean pieces with
  | case2 found =>
    cases h
    simp
  | case4 found clean c rest ih =>
    have := ih h
    rw [List.length_cons] at this ⊢
    omega
  | case5 found clean rest ih =>
    have := ih h
    rw [List.length_cons]
    omega
  | case7 =>
    -- both halves of a surrogate pair
    rename_i ih
    have := ih h
    simp only [List.length_cons] at this ⊢
    omega
  | case11 =>
    rename_i ih
    have := ih h
    simp only [List.length_cons] at this ⊢
    omega
  | _ => cases h

theorem scanString_length {u : List Symbol} {s : String}
    (h : (scanString u).value.read = .ok s) : s.length ≤ u.length := by
  obtain ⟨⟨pieces, stop, rest⟩, hs⟩ : ∃ x, scanPieces .plain [] u = x := ⟨_, rfl⟩
  have hpieces := scanPieces_length u .plain []
  simp only [scanString, hs, Token.read, Outcome.mapError_eq_ok_iff] at h
  have hassemble := Piece.length_assemble h
  rw [hs] at hpieces
  simp only [List.length_nil] at hassemble hpieces
  omega

namespace Doc

theorem longestText_string {token : Token String} {n : Nat}
    (h : ∀ s, token.read = .ok s → s.length ≤ n) : longestText (.string token) ≤ n := by
  obtain ⟨reading, skipping⟩ := token
  cases reading with
  | error fault => exact Nat.zero_le _
  | ok s => exact h s rfl

theorem longestTextItems_le_iff {items : List (Sourced Doc)} {n : Nat} :
    longestTextItems items ≤ n ↔ ∀ item ∈ items, item.value.longestText ≤ n := by
  induction items with
  | nil => simp [longestTextItems]
  | cons item rest ih =>
    obtain ⟨d, text⟩ := item
    rw [longestTextItems, Nat.max_le, ih, List.forall_mem_cons]

theorem longestTextMembers_le_iff {members : List (Token String × Sourced Doc)} {n : Nat} :
    longestTextMembers members ≤ n ↔ ∀ m ∈ members, m.2.value.longestText ≤ n := by
  induction members with
  | nil => simp [longestTextMembers]
  | cons m rest ih =>
    obtain ⟨name, d, text⟩ := m
    rw [longestTextMembers, Nat.max_le, ih, List.forall_mem_cons]

end Doc

namespace Scan

/-- With so much fuel, strings are shorter than the text they are read from. -/
def ValueTexts (fuel : Nat) : Prop :=
  ∀ u, (value fuel u).value.longestText ≤ u.length - 1

def ItemsTexts (fuel : Nat) : Prop :=
  ∀ u found stop r, items fuel u = (found, stop, r) → Doc.longestTextItems found ≤ u.length - 1

def MembersTexts (fuel : Nat) : Prop :=
  ∀ u found stop r, members fuel u = (found, stop, r) →
    Doc.longestTextMembers found ≤ u.length - 1

/-- A value behind blanks, and how much is left behind it. -/
theorem cite_texts {fuel : Nat} (hvalue : ValueTexts fuel) {u : List Symbol} {item : Sourced Doc}
    {rest : Option (List Symbol)}
    (h : cite (skipBlanks u) (value fuel (skipBlanks u)) = ⟨item, rest⟩) :
    item.value.longestText ≤ u.length - 1 ∧ ∀ r, rest = some r → r.length ≤ u.length := by
  have hblanks := length_skipBlanks u
  have htexts := hvalue (skipBlanks u)
  obtain ⟨⟨d, r⟩, hd⟩ : ∃ x, value fuel (skipBlanks u) = x := ⟨_, rfl⟩
  rw [hd] at h htexts
  cases h
  refine ⟨Nat.le_trans htexts (by omega), ?_⟩
  rintro r rfl
  have := ((scan_local fuel).1 _ _ _ hd).1
  omega

theorem items_texts_succ {fuel : Nat} (hvalue : ValueTexts fuel) (hitems : ItemsTexts fuel) :
    ItemsTexts (fuel + 1) := by
  intro u found stop r h
  obtain ⟨⟨item, rest⟩, hitem⟩ :
      ∃ x, cite (skipBlanks u) (value fuel (skipBlanks u)) = x := ⟨_, rfl⟩
  obtain ⟨htext, hrest⟩ := cite_texts hvalue hitem
  have hone : Doc.longestTextItems [item] ≤ u.length - 1 :=
    Doc.longestTextItems_le_iff.mpr fun x hx => List.mem_singleton.mp hx ▸ htext
  simp only [items, hitem] at h
  cases rest with
  | none =>
    cases h
    exact hone
  | some rest =>
    have hlength := hrest rest rfl
    have hblanks := length_skipBlanks rest
    simp only at h
    split at h
    · cases h
      exact hone
    · cases h
      exact hone
    · rename_i tail hs
      rw [hs, List.length_cons] at hblanks
      split at h
      · cases h
        exact hone
      · obtain ⟨⟨found', stop', rest'⟩, hmore⟩ : ∃ x, items fuel (skipBlanks tail) = x := ⟨_, rfl⟩
        rw [hmore] at h
        cases h
        have hothers := Doc.longestTextItems_le_iff.mp (hitems _ _ _ _ hmore)
        have hblanks' := length_skipBlanks tail
        refine Doc.longestTextItems_le_iff.mpr (List.forall_mem_cons.mpr ⟨htext, ?_⟩)
        exact fun x hx => Nat.le_trans (hothers x hx) (by omega)
    · cases h
      exact hone

theorem members_texts_succ {fuel : Nat} (hvalue : ValueTexts fuel)
    (hmembers : MembersTexts fuel) : MembersTexts (fuel + 1) := by
  intro u found stop r h
  have hopen : ∀ name fault, Doc.longestTextMembers [openMember name fault] ≤ u.length - 1 :=
    fun _ _ => Nat.zero_le _
  obtain ⟨⟨name, afterName⟩, hname⟩ : ∃ x, scanString u = x := ⟨_, rfl⟩
  simp only [members, hname] at h
  cases afterName with
  | none =>
    cases h
    exact hopen _ _
  | some afterName =>
  have hafter := (scanString_append hname).1
  have hblanks := length_skipBlanks afterName
  simp only at h
  split at h
  · cases h
    exact hopen _ _
  · rename_i colon hcolon
    rw [hcolon, List.length_cons] at hblanks
    obtain ⟨⟨item, rest⟩, hitem⟩ :
        ∃ x, cite (skipBlanks colon) (value fuel (skipBlanks colon)) = x := ⟨_, rfl⟩
    obtain ⟨htext, hrest⟩ := cite_texts hvalue hitem
    have htext' : item.value.longestText ≤ u.length - 1 := Nat.le_trans htext (by omega)
    have hone : Doc.longestTextMembers [(name, item)] ≤ u.length - 1 :=
      Doc.longestTextMembers_le_iff.mpr fun m hm => List.mem_singleton.mp hm ▸ htext'
    have hlast : ∀ fault, Doc.longestTextMembers [(name, item), nameless fault] ≤ u.length - 1 :=
      fun fault => Doc.longestTextMembers_le_iff.mpr <|
        List.forall_mem_cons.mpr ⟨htext', Doc.longestTextMembers_le_iff.mp (hopen _ fault)⟩
    rw [hitem] at h
    cases rest with
    | none =>
      cases h
      exact hone
    | some rest =>
    have hlength := hrest rest rfl
    have hblanks' := length_skipBlanks rest
    simp only at h
    split at h
    · cases h
      exact hone
    · cases h
      exact hone
    · rename_i tail hs
      rw [hs, List.length_cons] at hblanks'
      have hblanks'' := length_skipBlanks tail
      split at h
      · cases h
        exact hlast _
      · rename_i next hnext
        rw [hnext, List.length_cons] at hblanks''
        obtain ⟨⟨found', stop', rest'⟩, hmore⟩ : ∃ x, members fuel next = x := ⟨_, rfl⟩
        rw [hmore] at h
        cases h
        have hothers := Doc.longestTextMembers_le_iff.mp (hmembers _ _ _ _ hmore)
        refine Doc.longestTextMembers_le_iff.mpr (List.forall_mem_cons.mpr ⟨htext', ?_⟩)
        exact fun m hm => Nat.le_trans (hothers m hm) (by omega)
      · cases h
        exact hone
      · cases h
        exact hlast _
    · cases h
      exact hone
  · cases h
    exact hopen _ _

theorem literal_texts {d : Doc} (hd : d = .null ∨ ∃ b, d = .bool b) {letters : List Char}
    {u : List Symbol} : (literal d letters u).value.longestText = 0 := by
  induction letters generalizing u with
  | nil =>
    rcases hd with rfl | ⟨b, rfl⟩
    · rfl
    · rfl
  | cons c letters ih =>
    cases u with
    | nil => rfl
    | cons s u =>
      rw [literal]
      split
      · exact ih
      · rfl

theorem value_texts_succ {fuel : Nat} (hitems : ItemsTexts fuel) (hmembers : MembersTexts fuel) :
    ValueTexts (fuel + 1) := by
  intro u
  cases u with
  | nil => exact Nat.zero_le _
  | cons s u =>
  cases s with
  | stray => exact Nat.zero_le _
  | char c =>
  have hblanks := length_skipBlanks u
  rw [List.length_cons, Nat.add_sub_cancel]
  cases opening c with
  | literal d letters heq hd =>
    rw [heq, literal_texts hd]
    exact Nat.zero_le _
  | string heq =>
    rw [heq]
    exact Doc.longestText_string fun s hs => scanString_length hs
  | minus heq =>
    rw [heq]
    exact Nat.zero_le _
  | digit heq =>
    rw [heq]
    exact Nat.zero_le _
  | array heq =>
    rw [heq]
    unfold array
    split
    · exact Nat.zero_le _
    · exact Nat.zero_le _
    · obtain ⟨⟨found, stop, rest⟩, hmore⟩ : ∃ x, items fuel (skipBlanks u) = x := ⟨_, rfl⟩
      rw [hmore]
      exact Nat.le_trans (hitems _ _ _ _ hmore) (by omega)
  | object heq =>
    rw [heq]
    unfold object
    split
    · exact Nat.zero_le _
    · exact Nat.zero_le _
    · rename_i rest hs
      rw [hs, List.length_cons] at hblanks
      obtain ⟨⟨found, stop, rest'⟩, hmore⟩ : ∃ x, members fuel rest = x := ⟨_, rfl⟩
      rw [hmore]
      exact Nat.le_trans (hmembers _ _ _ _ hmore) (by omega)
    · exact Nat.zero_le _
  | nothing heq =>
    rw [heq]
    exact Nat.zero_le _

theorem scan_texts (fuel : Nat) : ValueTexts fuel ∧ ItemsTexts fuel ∧ MembersTexts fuel := by
  induction fuel with
  | zero =>
    refine ⟨fun u => ?_, fun u found stop r h => ?_, fun u found stop r h => ?_⟩
    · rw [value]
      exact Nat.zero_le _
    · rw [items] at h
      cases h
      exact Nat.zero_le _
    · rw [members] at h
      cases h
      exact Nat.zero_le _
  | succ fuel ih =>
    obtain ⟨hvalue, hitems, hmembers⟩ := ih
    exact ⟨value_texts_succ hitems hmembers, items_texts_succ hvalue hitems,
      members_texts_succ hvalue hmembers⟩

/-- A string in a document is shorter than the text of the document. -/
theorem longestText_value (fuel : Nat) (u : List Symbol) :
    (value fuel u).value.longestText ≤ u.length - 1 :=
  (scan_texts fuel).1 u

end Scan

/-! ## Reading makes no string longer -/

namespace Doc

theorem longestText_ofMembers_le_iff {members : List (String × Json)} {n : Nat} :
    longestTextMembers (ofMembers members) ≤ n ↔ ∀ m ∈ members, (ofJson m.2).longestText ≤ n := by
  induction members with
  | nil => simp [ofMembers, longestTextMembers]
  | cons m rest ih =>
    obtain ⟨name, v⟩ := m
    rw [ofMembers, longestTextMembers, Nat.max_le, ih, List.forall_mem_cons]

variable {embedded : String → Except ShapeError Json}

mutual

/-- Reading makes no string longer, if the texts that stand for values hold shorter ones. -/
theorem longestText_json (he : ∀ t w, embedded t = .ok w → (ofJson w).longestText < t.length) :
    ∀ (d : Doc) (origin : Origin) (v : Json), json embedded origin d = .ok v →
      (ofJson v).longestText ≤ d.longestText
  | .null, _, _, h => by cases h; exact Nat.zero_le _
  | .bool _, _, _, h => by cases h; exact Nat.zero_le _
  | .number _, _, _, h => by
    rw [json, Outcome.map_eq_ok_iff] at h
    obtain ⟨n, -, rfl⟩ := h
    exact Nat.zero_le _
  | .string ⟨reading, _⟩, _, _, h => by
    rw [json, Outcome.map_eq_ok_iff] at h
    obtain ⟨s, hs, rfl⟩ := h
    rw [Token.read, Outcome.mapError_eq_ok_iff] at hs
    cases hs
    exact Nat.le_refl _
  | .array items stop, origin, v, h => by
    rw [json, Outcome.bind_eq_ok_iff] at h
    obtain ⟨inner, -, h⟩ := h
    obtain ⟨found, hitems, h⟩ := Outcome.bind_eq_ok_iff.mp h
    cases h
    exact longestText_jsonItems he items inner stop found hitems
  | .object [] stop, origin, v, h => by
    rw [json, Outcome.bind_eq_ok_iff] at h
    obtain ⟨inner, -, h⟩ := h
    obtain ⟨u, -, h⟩ := Outcome.bind_eq_ok_iff.mp h
    cases h
    exact Nat.zero_le _
  | .object ((name, ⟨value, text⟩) :: rest) stop, origin, v, h => by
    rw [json, Outcome.bind_eq_ok_iff] at h
    obtain ⟨inner, -, h⟩ := h
    obtain ⟨name, -, h⟩ := Outcome.bind_eq_ok_iff.mp h
    split at h
    · split at h
      · rename_i token _
        obtain ⟨t, ht, h⟩ := Outcome.bind_eq_ok_iff.mp h
        obtain ⟨found, hfound, h⟩ := Outcome.bind_eq_ok_iff.mp h
        obtain ⟨u, -, h⟩ := Outcome.bind_eq_ok_iff.mp h
        cases h
        obtain ⟨reading, skipping⟩ := token
        rw [Token.read, Outcome.mapError_eq_ok_iff] at ht
        cases ht
        rw [longestText, longestTextMembers]
        exact Nat.le_trans (Nat.le_of_lt (he t v hfound)) (Nat.le_max_left _ _)
      · cases h
    · obtain ⟨first, hfirst, h⟩ := Outcome.bind_eq_ok_iff.mp h
      obtain ⟨others, hothers, h⟩ := Outcome.bind_eq_ok_iff.mp h
      cases h
      have hvalue := longestText_json he value inner first hfirst
      have hrest := longestText_jsonMembers he rest inner stop others hothers
      rw [longestText, longestTextMembers]
      refine longestText_ofMembers_le_iff.mpr fun m hm => ?_
      rcases List.mem_cons.mp (Entries.mem_ofList hm) with rfl | hm
      · exact Nat.le_trans hvalue (Nat.le_max_left _ _)
      · exact Nat.le_trans (longestText_ofMembers_le_iff.mp hrest m hm) (Nat.le_max_right _ _)
  | .cut _ _, _, _, h => by cases h
  | .absent _, _, _, h => by cases h

theorem longestText_jsonItems
    (he : ∀ t w, embedded t = .ok w → (ofJson w).longestText < t.length) :
    ∀ (items : List (Sourced Doc)) (origin : Origin) (stop : Option Fault) (found : List Json),
      jsonItems embedded origin stop items = .ok found →
        longestTextItems (ofItems found) ≤ longestTextItems items
  | [], _, _, _, h => by
    rw [jsonItems, Outcome.map_eq_ok_iff] at h
    obtain ⟨u, -, rfl⟩ := h
    exact Nat.zero_le _
  | ⟨item, text⟩ :: rest, origin, stop, found, h => by
    rw [jsonItems, Outcome.bind_eq_ok_iff] at h
    obtain ⟨first, hfirst, h⟩ := h
    obtain ⟨others, hothers, h⟩ := Outcome.bind_eq_ok_iff.mp h
    cases h
    have hitem := longestText_json he item origin first hfirst
    have hrest := longestText_jsonItems he rest origin stop others hothers
    simp only [ofItems, longestTextItems]
    omega

theorem longestText_jsonMembers
    (he : ∀ t w, embedded t = .ok w → (ofJson w).longestText < t.length) :
    ∀ (members : List (Token String × Sourced Doc)) (origin : Origin) (stop : Option Fault)
      (found : List (String × Json)), jsonMembers embedded origin stop members = .ok found →
        longestTextMembers (ofMembers found) ≤ longestTextMembers members
  | [], _, _, _, h => by
    rw [jsonMembers, Outcome.map_eq_ok_iff] at h
    obtain ⟨u, -, rfl⟩ := h
    exact Nat.zero_le _
  | (name, ⟨value, text⟩) :: rest, origin, stop, found, h => by
    rw [jsonMembers, Outcome.bind_eq_ok_iff] at h
    obtain ⟨name, -, h⟩ := h
    obtain ⟨first, hfirst, h⟩ := Outcome.bind_eq_ok_iff.mp h
    obtain ⟨others, hothers, h⟩ := Outcome.bind_eq_ok_iff.mp h
    cases h
    have hvalue := longestText_json he value origin first hfirst
    have hrest := longestText_jsonMembers he rest origin stop others hothers
    simp only [ofMembers, longestTextMembers]
    omega

end

/-- The reader of the texts that stand for values. -/
def embeddedWithin : Nat → String → Except ShapeError Json
  | 0, _ => .error (.fault .tooDeep)
  | level + 1, text =>
    let document := Document.ofString text
    let found := do
      let found ← jsonWithin level (.text Origin.maxDepth) document.root.value
      close document.trailing
      return found
    found.mapError fun e => .payload e.message

theorem jsonWithin_eq (level : Nat) : jsonWithin level = json (embeddedWithin level) := by
  cases level <;> rfl

/-- A text that stands for a value is longer than the strings in the value. -/
theorem longestText_embeddedWithin (level : Nat) : ∀ (t : String) (w : Json),
    embeddedWithin level t = .ok w → (ofJson w).longestText < t.length := by
  induction level with
  | zero => exact fun t w h => by cases h
  | succ level ih =>
    intro t w h
    rw [embeddedWithin, Outcome.mapError_eq_ok_iff] at h
    obtain ⟨found, hfound, h⟩ := Outcome.bind_eq_ok_iff.mp h
    obtain ⟨u, -, h⟩ := Outcome.bind_eq_ok_iff.mp h
    cases h
    rw [jsonWithin_eq] at hfound
    have hread := longestText_json ih _ _ _ hfound
    -- there is no value in the empty text
    have hne : t.toList ≠ [] := by
      intro hnil
      have hempty : t = "" := String.toList_eq_nil_iff.mp hnil
      subst hempty
      cases hfound
    have hroot := Scan.longestText_value (2 * (Symbol.ofString t).length + 2)
      (Scan.skipBlanks (Symbol.ofString t))
    have hblanks := Scan.length_skipBlanks (Symbol.ofString t)
    have hlength : (Symbol.ofString t).length = t.length := by
      rw [Symbol.ofString, List.length_map, String.length_toList]
    have hpos : 0 < t.length := by
      rw [← String.length_toList]
      exact List.length_pos_iff.mpr hne
    have hdoc : (Document.ofString t).root.value.longestText ≤ t.length - 1 :=
      Nat.le_trans hroot (by omega)
    omega

/-! ## What comes back begins no object with the reserved name -/

theorem jsonMembers_names : ∀ (members : List (String × Json)) {origin : Origin}
    {found : List (String × Json)}, jsonMembers embedded origin none (ofMembers members) = .ok found →
      found.map (·.1) = members.map (·.1)
  | [], _, _, h => by
    cases h
    rfl
  | (name, v) :: rest, origin, found, h => by
    have hread : (Token.sound name).read = .ok name := rfl
    rw [ofMembers, jsonMembers, hread, Outcome.ok_bind, Outcome.bind_eq_ok_iff] at h
    obtain ⟨first, -, h⟩ := h
    obtain ⟨others, hothers, h⟩ := Outcome.bind_eq_ok_iff.mp h
    cases h
    rw [List.map_cons, List.map_cons, jsonMembers_names rest hothers]

/-- Each member is read under its name. -/
theorem exists_of_jsonMembers : ∀ (members : List (String × Json)) {origin : Origin}
    {found : List (String × Json)}, jsonMembers embedded origin none (ofMembers members) = .ok found →
      ∀ m ∈ members, ∃ w, (m.1, w) ∈ found ∧ json embedded origin (ofJson m.2) = .ok w
  | [], _, _, _ => List.forall_mem_nil _
  | (name, v) :: rest, origin, found, h => by
    have hread : (Token.sound name).read = .ok name := rfl
    rw [ofMembers, jsonMembers, hread, Outcome.ok_bind, Outcome.bind_eq_ok_iff] at h
    obtain ⟨first, hfirst, h⟩ := h
    obtain ⟨others, hothers, h⟩ := Outcome.bind_eq_ok_iff.mp h
    cases h
    refine List.forall_mem_cons.mpr ⟨⟨first, List.mem_cons_self, hfirst⟩, fun m hm => ?_⟩
    obtain ⟨w, hw, hvalue⟩ := exists_of_jsonMembers rest hothers m hm
    exact ⟨w, List.mem_cons_of_mem _ hw, hvalue⟩

theorem sorted_of_jsonMembers {name : String} {v w : Json} {members found : List (String × Json)}
    {origin : Origin} (hsorted : Entries.Sorted ((name, v) :: members))
    (h : jsonMembers embedded origin none (ofMembers members) = .ok found) :
    Entries.Sorted ((name, w) :: found) :=
  Entries.sorted_of_keys (by rw [List.map_cons, List.map_cons, jsonMembers_names members h]) hsorted

/-- An object that begins with another name is read as an object. -/
theorem json_object_eq_ok {name : String} {v : Json} {rest : List (String × Json)}
    {origin : Origin} {w : Json} (hname : name ≠ embeddedName)
    (h : json embedded origin (ofJson (.object ((name, v) :: rest))) = .ok w) :
    ∃ inner first others, origin.enter = .ok inner ∧ json embedded inner (ofJson v) = .ok first ∧
      jsonMembers embedded inner none (ofMembers rest) = .ok others ∧
      w = .ofMembers ((name, first) :: others) := by
  have hread : (Token.sound name).read = .ok name := rfl
  rw [ofJson, ofMembers, json, Outcome.bind_eq_ok_iff] at h
  obtain ⟨inner, henter, h⟩ := h
  rw [hread, Outcome.ok_bind, if_neg hname] at h
  obtain ⟨first, hfirst, h⟩ := Outcome.bind_eq_ok_iff.mp h
  obtain ⟨others, hothers, h⟩ := Outcome.bind_eq_ok_iff.mp h
  cases h
  exact ⟨inner, first, others, henter, hfirst, hothers, rfl⟩

/-- An object that begins with the reserved name is read as the value in a text of its own. -/
theorem json_embedded_eq_ok {v : Json} {rest : List (String × Json)} {origin : Origin} {w : Json}
    (h : json embedded origin (ofJson (.object ((embeddedName, v) :: rest))) = .ok w) :
    ∃ t, v = .string t ∧ embedded t = .ok w := by
  have hread : (Token.sound embeddedName).read = .ok embeddedName := rfl
  rw [ofJson, ofMembers, json, Outcome.bind_eq_ok_iff] at h
  obtain ⟨inner, -, h⟩ := h
  rw [hread, Outcome.ok_bind, if_pos rfl] at h
  cases v with
  | string t =>
    obtain ⟨t', ht, h⟩ := Outcome.bind_eq_ok_iff.mp h
    obtain ⟨found, hfound, h⟩ := Outcome.bind_eq_ok_iff.mp h
    obtain ⟨u, -, hsame⟩ := Outcome.bind_eq_ok_iff.mp h
    obtain rfl : t = t' := Except.ok.inj ht
    obtain rfl : found = w := Except.ok.inj hsame
    exact ⟨t, rfl, hfound⟩
  | _ => cases h

variable {again : String → Except ShapeError Json}

mutual

/-- What a value is read as may be read again. If that leads back to the value, it begins no object
with the reserved name, and there was room for it. -/
theorem bare_of_json (he : ∀ t w, embedded t = .ok w → (ofJson w).longestText < t.length)
    (ha : ∀ t w, again t = .ok w → (ofJson w).longestText < t.length) :
    ∀ (v : Json), v.Canonical → ∀ {origin origin' : Origin} {w : Json},
    json embedded origin (ofJson v) = .ok w → json again origin' (ofJson w) = .ok v →
      (Form.ofJson v).Bare ∧ origin.Admits (Form.ofJson v).depth
  | .null, _, origin, _, _, _, _ | .bool _, _, origin, _, _, _, _
  | .number (.integer _ _), _, origin, _, _, _, _ | .number (.float _ _), _, origin, _, _, _, _
  | .string _, _, origin, _, _, _, _ => ⟨trivial, origin.admits_zero⟩
  | .array items, hc, origin, origin', w, h, h' => by
    rw [ofJson, json, Outcome.bind_eq_ok_iff] at h
    obtain ⟨inner, henter, h⟩ := h
    obtain ⟨found, hitems, h⟩ := Outcome.bind_eq_ok_iff.mp h
    cases h
    rw [ofJson, json, Outcome.bind_eq_ok_iff] at h'
    obtain ⟨inner', -, h'⟩ := h'
    obtain ⟨back, hitems', h'⟩ := Outcome.bind_eq_ok_iff.mp h'
    cases h'
    obtain ⟨hbare, hroom⟩ := bare_of_jsonItems he ha items hc hitems hitems'
    exact ⟨hbare, (Origin.enter_admits henter).mpr hroom⟩
  | .object [], _, origin, _, _, h, _ => by
    rw [ofJson, ofMembers, json, Outcome.bind_eq_ok_iff] at h
    obtain ⟨inner, henter, -⟩ := h
    exact ⟨trivial, (Origin.enter_admits henter).mpr inner.admits_zero⟩
  | .object ((name, u) :: rest), hc, origin, origin', w, h, h' => by
    by_cases hname : name = embeddedName
    · -- the text under the reserved name would have to be longer than itself
      subst hname
      obtain ⟨t, rfl, hw⟩ := json_embedded_eq_ok h
      have hshort := he t w hw
      have hback := longestText_json ha (ofJson w) origin' _ h'
      rw [ofJson, ofMembers, longestText, longestTextMembers] at hback
      have hlong : t.length ≤ (ofJson w).longestText :=
        Nat.le_trans (Nat.le_max_left _ _) hback
      exact absurd hshort (Nat.not_lt.mpr hlong)
    · obtain ⟨inner, first, others, henter, hfirst, hothers, rfl⟩ := json_object_eq_ok hname h
      have hsorted := sorted_of_jsonMembers (w := first) hc.1 hothers
      rw [Json.ofMembers, Entries.ofList_of_sorted hsorted] at h'
      obtain ⟨inner', first', others', -, hfirst', hothers', hsame⟩ := json_object_eq_ok hname h'
      rw [Json.ofMembers, Entries.ofList_of_sorted (sorted_of_jsonMembers hsorted hothers')] at hsame
      cases hsame
      obtain ⟨hvalue, hroom⟩ := bare_of_json he ha u hc.2.1 hfirst hfirst'
      obtain ⟨hrest, hroom'⟩ := bare_of_jsonMembers he ha rest hc.2.2 hothers hothers'
      exact ⟨⟨hname, hvalue, hrest⟩,
        (Origin.enter_admits henter).mpr (Origin.admits_max.mpr ⟨hroom, hroom'⟩)⟩

theorem bare_of_jsonItems (he : ∀ t w, embedded t = .ok w → (ofJson w).longestText < t.length)
    (ha : ∀ t w, again t = .ok w → (ofJson w).longestText < t.length) :
    ∀ (items : List Json), Json.CanonicalItems items →
    ∀ {origin origin' : Origin} {found : List Json},
    jsonItems embedded origin none (ofItems items) = .ok found →
    jsonItems again origin' none (ofItems found) = .ok items →
      Form.BareItems (Form.ofItems items) ∧ origin.Admits (Form.depthItems (Form.ofItems items))
  | [], _, origin, _, _, _, _ => ⟨trivial, origin.admits_zero⟩
  | item :: rest, hc, origin, origin', found, h, h' => by
    rw [ofItems, jsonItems, Outcome.bind_eq_ok_iff] at h
    obtain ⟨first, hfirst, h⟩ := h
    obtain ⟨others, hothers, h⟩ := Outcome.bind_eq_ok_iff.mp h
    cases h
    rw [ofItems, jsonItems, Outcome.bind_eq_ok_iff] at h'
    obtain ⟨first', hfirst', h'⟩ := h'
    obtain ⟨others', hothers', h'⟩ := Outcome.bind_eq_ok_iff.mp h'
    cases h'
    obtain ⟨hitem, hroom⟩ := bare_of_json he ha item hc.1 hfirst hfirst'
    obtain ⟨hrest, hroom'⟩ := bare_of_jsonItems he ha rest hc.2 hothers hothers'
    exact ⟨⟨hitem, hrest⟩, Origin.admits_max.mpr ⟨hroom, hroom'⟩⟩

theorem bare_of_jsonMembers (he : ∀ t w, embedded t = .ok w → (ofJson w).longestText < t.length)
    (ha : ∀ t w, again t = .ok w → (ofJson w).longestText < t.length) :
    ∀ (members : List (String × Json)), Json.CanonicalMembers members →
    ∀ {origin origin' : Origin} {found : List (String × Json)},
    jsonMembers embedded origin none (ofMembers members) = .ok found →
    jsonMembers again origin' none (ofMembers found) = .ok members →
      Form.BareMembers (Form.ofMembers members) ∧
        origin.Admits (Form.depthMembers (Form.ofMembers members))
  | [], _, origin, _, _, _, _ => ⟨trivial, origin.admits_zero⟩
  | (name, v) :: rest, hc, origin, origin', found, h, h' => by
    have hread : (Token.sound name).read = .ok name := rfl
    rw [ofMembers, jsonMembers, hread, Outcome.ok_bind, Outcome.bind_eq_ok_iff] at h
    obtain ⟨first, hfirst, h⟩ := h
    obtain ⟨others, hothers, h⟩ := Outcome.bind_eq_ok_iff.mp h
    cases h
    rw [ofMembers, jsonMembers, hread, Outcome.ok_bind, Outcome.bind_eq_ok_iff] at h'
    obtain ⟨first', hfirst', h'⟩ := h'
    obtain ⟨others', hothers', h'⟩ := Outcome.bind_eq_ok_iff.mp h'
    cases h'
    obtain ⟨hvalue, hroom⟩ := bare_of_json he ha v hc.1 hfirst hfirst'
    obtain ⟨hrest, hroom'⟩ := bare_of_jsonMembers he ha rest hc.2 hothers hothers'
    exact ⟨⟨hvalue, hrest⟩, Origin.admits_max.mpr ⟨hroom, hroom'⟩⟩

end

end Doc

namespace Json

/-- A value comes back just when no object in it begins with the reserved name and there is room
for it. -/
theorem ofDoc_eq_self_iff {v : Json} (hv : v.Canonical) {origin : Origin} :
    Json.ofDoc origin (Doc.ofForm (Form.ofJson v)) = .ok v ↔
      (Form.ofJson v).Bare ∧ origin.Admits (Form.ofJson v).depth := by
  constructor
  · intro h
    rw [Doc.ofForm_ofJson, ofDoc, Doc.jsonWithin_eq] at h
    have hembedded := Doc.longestText_embeddedWithin ((Doc.ofJson v).longestText + 1)
    exact Doc.bare_of_json hembedded hembedded v hv h h
  · rintro ⟨hbare, hroom⟩
    rw [ofDoc_ofForm (Form.writable_ofJson v) hbare hroom, Form.toJson_ofJson v hv]

/-- The values that come back from their own texts. -/
theorem recovered_iff {v : Json} : v.Recovered ↔
    v.Canonical ∧ (Form.ofJson v).Bare ∧ (Form.ofJson v).depth ≤ Origin.maxDepth := by
  constructor
  · intro h
    have hread : Json.ofDoc (.text Origin.maxDepth) (Doc.ofForm (Form.ofJson v)) = .ok v := by
      have hrun := (Decoder.runDocument_eq_ok_iff.mp h).1
      rwa [Json.text, Document.ofString_text (Form.writable_ofJson v)] at hrun
    exact ⟨h.canonical, (ofDoc_eq_self_iff h.canonical).mp hread⟩
  · rintro ⟨hv, hbare, hdepth⟩
    have hread : Json.ofDoc (.text Origin.maxDepth) (Doc.ofForm (Form.ofJson v)) = .ok v :=
      (ofDoc_eq_self_iff hv).mpr ⟨hbare, hdepth⟩
    refine Decoder.runDocument_eq_ok_iff.mpr ?_
    rw [Json.text, Document.ofString_text (Form.writable_ofJson v)]
    exact ⟨hread, rfl⟩

namespace Recovered

theorem bare {v : Json} (h : v.Recovered) : (Form.ofJson v).Bare := (recovered_iff.mp h).2.1

theorem depth {v : Json} (h : v.Recovered) : (Form.ofJson v).depth ≤ Origin.maxDepth :=
  (recovered_iff.mp h).2.2

/-- The values in an object that comes back come back. -/
theorem member {members : List (String × Json)} (h : (Json.object members).Recovered)
    {m : String × Json} (hm : m ∈ members) : m.2.Recovered := by
  obtain ⟨hc, hbare, hdepth⟩ := recovered_iff.mp h
  have hmem : (m.1, Form.ofJson m.2) ∈ Form.ofMembers members := by
    rw [Form.ofMembers_eq]
    exact List.mem_map_of_mem (f := fun e => (e.1, Form.ofJson e.2)) hm
  refine recovered_iff.mpr ⟨canonicalMembers_iff.mp hc.2 m hm, ?_, ?_⟩
  · exact (Form.bare_object_iff.mp hbare).2 _ hmem
  · exact Form.depthMembers_le_iff.mp (Nat.le_of_succ_le hdepth) _ hmem

theorem item {items : List Json} (h : (Json.array items).Recovered) {v : Json} (hv : v ∈ items) :
    v.Recovered := by
  obtain ⟨hc, hbare, hdepth⟩ := recovered_iff.mp h
  have hmem : Form.ofJson v ∈ Form.ofItems items := by
    rw [Form.ofItems_eq]
    exact List.mem_map_of_mem hv
  refine recovered_iff.mpr ⟨canonicalItems_iff.mp hc v hv, ?_, ?_⟩
  · exact Form.bareItems_iff.mp hbare _ hmem
  · exact Form.depthItems_le_iff.mp (Nat.le_of_succ_le hdepth) _ hmem

/-- The reserved name is among the members of an object that comes back only behind another one. -/
theorem lt_embeddedName {members : List (String × Json)} (h : (Json.object members).Recovered)
    {v : Json} (hv : (Doc.embeddedName, v) ∈ members) :
    ∃ m ∈ members, KeyOrder.lt m.1 Doc.embeddedName = true := by
  have hhead := (Form.bare_object_iff.mp h.bare).1
  rw [Form.ofMembers_eq] at hhead
  cases members with
  | nil => cases hv
  | cons m rest =>
    have hm : m.1 ≠ Doc.embeddedName := hhead _ rfl
    have hrest : (Doc.embeddedName, v) ∈ rest := by
      rcases List.mem_cons.mp hv with rfl | hrest
      · exact absurd rfl hm
      · exact hrest
    exact ⟨m, List.mem_cons_self, (List.pairwise_cons.mp h.canonical.1).1 _ hrest⟩

end Recovered

/-- An object comes back when its values do, nothing in it is too deep, and the reserved name is not
its first. -/
theorem recovered_of_members {members : List (String × Json)} (hsorted : Entries.Sorted members)
    (hvalues : ∀ m ∈ members, m.2.Recovered)
    (hfirst : ∀ v, (Doc.embeddedName, v) ∈ members →
      ∃ m ∈ members, KeyOrder.lt m.1 Doc.embeddedName = true)
    (hdepth : (Form.ofJson (.object members)).depth ≤ Origin.maxDepth) :
    (Json.object members).Recovered := by
  refine recovered_iff.mpr ⟨⟨hsorted, canonicalMembers_iff.mpr fun m hm =>
    (hvalues m hm).canonical⟩, Form.bare_object_iff.mpr ⟨?_, ?_⟩, hdepth⟩
  · rw [Form.ofMembers_eq]
    intro m hm hname
    cases members with
    | nil => cases hm
    | cons first rest =>
      obtain rfl : (first.1, Form.ofJson first.2) = m := Option.some.inj hm
      have hmem : (Doc.embeddedName, first.2) ∈ first :: rest := hname ▸ List.mem_cons_self
      obtain ⟨e, he, hlt⟩ := hfirst _ hmem
      have hlt' : KeyOrder.lt e.1 first.1 = true := hname ▸ hlt
      rcases List.mem_cons.mp he with rfl | he
      · rw [KeyOrder.irrefl] at hlt'
        cases hlt'
      · have hback := KeyOrder.trans hlt' ((List.pairwise_cons.mp hsorted).1 e he)
        rw [KeyOrder.irrefl] at hback
        cases hback
  · rw [Form.ofMembers_eq]
    intro m hm
    obtain ⟨e, he, rfl⟩ := List.mem_map.mp hm
    exact (hvalues e he).bare

/-- What is written for a part of an object is not deeper than the object. -/
theorem depth_object_mono {members others : List (String × Json)} (h : ∀ m ∈ members, m ∈ others) :
    (Form.ofJson (.object members)).depth ≤ (Form.ofJson (.object others)).depth := by
  refine Nat.succ_le_succ (Form.depthMembers_le_iff.mpr fun m hm => ?_)
  rw [Form.ofMembers_eq] at hm
  obtain ⟨e, he, rfl⟩ := List.mem_map.mp hm
  refine Form.depthMembers_le_iff.mp (Nat.le_refl _) (e.1, Form.ofJson e.2) ?_
  rw [Form.ofMembers_eq]
  exact List.mem_map_of_mem (f := fun e => (e.1, Form.ofJson e.2)) (h e he)

/-- An object that comes back does so without a member behind the reserved name. -/
theorem Recovered.erase {object : Dict Json} (h : (Json.object object.entries).Recovered)
    {name : String} (hname : KeyOrder.lt Doc.embeddedName name = true) :
    (Json.object (object.erase name).entries).Recovered := by
  have hmem : ∀ m, m ∈ (object.erase name).entries ↔ m ∈ object.entries ∧ m.1 ≠ name := by
    intro m
    rw [Table.erase, List.mem_filter, decide_eq_true_iff]
  refine recovered_of_members (object.erase name).sorted
    (fun m hm => h.member ((hmem m).mp hm).1) (fun v hv => ?_) ?_
  · obtain ⟨m, hm, hlt⟩ := h.lt_embeddedName ((hmem _).mp hv).1
    refine ⟨m, (hmem m).mpr ⟨hm, ?_⟩, hlt⟩
    rintro rfl
    have hback := KeyOrder.trans hlt hname
    rw [KeyOrder.irrefl] at hback
    cases hback
  · exact Nat.le_trans (depth_object_mono fun m hm => ((hmem m).mp hm).1) h.depth

/-! ## Deciding what comes back -/

instance {κ α : Type} [KeyOrder κ] (entries : List (κ × α)) : Decidable (Entries.Sorted entries) :=
  inferInstanceAs (Decidable (entries.Pairwise fun a b => KeyOrder.lt a.1 b.1))

mutual

instance decidableCanonical : (v : Json) → Decidable v.Canonical
  | .array items => decidableCanonicalItems items
  | .object members =>
    @instDecidableAnd _ _ (inferInstanceAs (Decidable (Entries.Sorted members)))
      (decidableCanonicalMembers members)
  | .null | .bool _ | .number _ | .string _ => isTrue trivial

instance decidableCanonicalItems : (items : List Json) → Decidable (CanonicalItems items)
  | [] => isTrue trivial
  | item :: rest => @instDecidableAnd _ _ (decidableCanonical item) (decidableCanonicalItems rest)

instance decidableCanonicalMembers :
    (members : List (String × Json)) → Decidable (CanonicalMembers members)
  | [] => isTrue trivial
  | (_, value) :: rest =>
    @instDecidableAnd _ _ (decidableCanonical value) (decidableCanonicalMembers rest)

end

end Json

namespace Form

mutual

instance decidableBare : (f : Form) → Decidable f.Bare
  | .array items => decidableBareItems items
  | .object [] => isTrue trivial
  | .object ((name, value) :: rest) =>
    @instDecidableAnd _ _ (inferInstanceAs (Decidable (name ≠ Doc.embeddedName)))
      (@instDecidableAnd _ _ (decidableBare value) (decidableBareMembers rest))
  | .raw _ => isFalse id
  | .null | .bool _ | .integer _ | .float _ | .string _ => isTrue trivial

instance decidableBareItems : (items : List Form) → Decidable (BareItems items)
  | [] => isTrue trivial
  | item :: rest => @instDecidableAnd _ _ (decidableBare item) (decidableBareItems rest)

instance decidableBareMembers : (members : List (String × Form)) → Decidable (BareMembers members)
  | [] => isTrue trivial
  | (_, value) :: rest => @instDecidableAnd _ _ (decidableBare value) (decidableBareMembers rest)

end

end Form

namespace Json

instance (v : Json) : Decidable v.Recovered := decidable_of_iff _ recovered_iff.symm

/-- Values are told apart by their texts. -/
theorem text_injective {v w : Json} (hv : v.Canonical) (hw : w.Canonical)
    (h : v.text = w.text) : v = w := by
  have hform : Form.ofJson v = Form.ofJson w := Form.text_injective (Form.writable_ofJson v)
    (Form.writable_ofJson w) (Form.raws_ofJson v) (Form.raws_ofJson w) h
  have hjson := congrArg Form.toJson hform
  rw [Form.toJson_ofJson v hv, Form.toJson_ofJson w hw] at hjson
  exact Except.ok.inj hjson

/-- What a byte text is read as shows in the text that is written for it. -/
theorem parseBytes_eq_ok_iff {bytes : ByteArray} {v : Json} (hv : v.Canonical) :
    parseBytes bytes = .ok v ↔ (parseBytes bytes).toOption.map text = some v.text := by
  rw [← Outcome.toOption_eq_some_iff, Option.map_eq_some_iff]
  refine ⟨fun h => ⟨v, h, rfl⟩, fun ⟨w, hw, htext⟩ => ?_⟩
  have hread := Outcome.toOption_eq_some_iff.mp hw
  have hcanonical : w.Canonical :=
    Doc.canonical_jsonWithin _ _ _ _ (Decoder.runDocument_eq_ok_iff.mp hread).1
  rwa [← text_injective hcanonical hv htext]

end Json

end ContextProtocol
