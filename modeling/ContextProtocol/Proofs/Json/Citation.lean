import ContextProtocol.Proofs.Json.Excerpt

/-!
# Documents that cite their source

A document keeps, beside every value in it, the text the value was read from. What makes these texts
worth anything is an invariant of the reader: the text of every value that can be taken apart is part
of the source and, read on its own, gives the same document again.

Results:
* `Scan.value_cited`: every document that is read cites its source.
* `Doc.skip_of_sound`: what can be taken apart can be skipped, too.
* `Document.cited`: the same for a whole text.
-/
namespace ContextProtocol

/-- A token that can be read is passed over without a fault. -/
def Token.Honest {α : Type} (token : Token α) : Prop :=
  ∀ a, token.reading = .ok a → token.skipping = none

/-- The text of the value, if it can be taken apart, is part of the source and a text of that
value. -/
def Sourced.Cites (source : List Symbol) (d : Sourced Doc) : Prop :=
  Scan.Sound d.value → ∃ t, d.text.get = some t ∧ Symbol.ofString t <:+: source ∧ IsPayload t ∧
    (Document.ofString t).root.value = d.value

namespace Doc

mutual

/-- Every value inside cites the source, and the tokens are honest. -/
def Cited (source : List Symbol) : Doc → Prop
  | .number token => token.Honest
  | .string token => token.Honest
  | .array items _ => CitedItems source items
  | .object members _ => CitedMembers source members
  | .null | .bool _ | .cut .. | .absent _ => True

def CitedItems (source : List Symbol) : List (Sourced Doc) → Prop
  | [] => True
  | ⟨item, text⟩ :: rest =>
    (Cited source item ∧ Sourced.Cites source ⟨item, text⟩) ∧ CitedItems source rest

def CitedMembers (source : List Symbol) : List (Token String × Sourced Doc) → Prop
  | [] => True
  | (name, ⟨value, text⟩) :: rest =>
    (name.Honest ∧ Cited source value ∧ Sourced.Cites source ⟨value, text⟩) ∧
      CitedMembers source rest

end

variable {source : List Symbol}

theorem citedItems_iff {items : List (Sourced Doc)} : CitedItems source items ↔
    ∀ item ∈ items, item.value.Cited source ∧ item.Cites source := by
  induction items with
  | nil => simp [CitedItems]
  | cons item rest ih => rw [CitedItems, ih, List.forall_mem_cons]

theorem citedMembers_iff {members : List (Token String × Sourced Doc)} :
    CitedMembers source members ↔
      ∀ m ∈ members, m.1.Honest ∧ m.2.value.Cited source ∧ m.2.Cites source := by
  induction members with
  | nil => simp [CitedMembers]
  | cons m rest ih => rw [CitedMembers, ih, List.forall_mem_cons]

theorem close_eq_ok {stop : Option Fault} (h : close stop = .ok ()) : stop = none :=
  Decoder.close_eq_ok_iff.mp h

theorem skip_of_token {α : Type} {token : Token α} (hcited : token.Honest)
    (h : token.read.map (fun _ => ()) = .ok ()) : token.skipping = none := by
  obtain ⟨a, ha, -⟩ := Outcome.map_eq_ok_iff.mp h
  exact hcited a (Outcome.mapError_eq_ok_iff.mp ha)

mutual

/-- What can be taken apart can be skipped, too. -/
theorem skip_of_sound : ∀ d : Doc, d.Cited source → Scan.Sound d → d.skip = none
  | .null, _, _ => rfl
  | .bool _, _, _ => rfl
  | .number _, hcited, h => skip_of_token hcited h
  | .string _, hcited, h => skip_of_token hcited h
  | .array items stop, hcited, h => skipItems_of_sound items stop hcited h
  | .object members stop, hcited, h => skipMembers_of_sound members stop hcited h
  | .cut .., _, h => nomatch h
  | .absent _, _, h => nomatch h

theorem skipItems_of_sound : ∀ (items : List (Sourced Doc)) (stop : Option Fault),
    CitedItems source items → verifyItems .value stop items = .ok () →
      skipItems stop items = none
  | [], _, _, h => close_eq_ok h
  | ⟨item, _⟩ :: rest, stop, hcited, h => by
    obtain ⟨hitem, hrest⟩ := Scan.verifyItems_cons.mp h
    rw [skipItems, skip_of_sound item hcited.1.1 hitem, skipItems_of_sound rest stop hcited.2 hrest]
    rfl

theorem skipMembers_of_sound : ∀ (members : List (Token String × Sourced Doc))
    (stop : Option Fault), CitedMembers source members →
      verifyMembers .value stop members = .ok () → skipMembers stop members = none
  | [], _, _, h => close_eq_ok h
  | (name, ⟨value, _⟩) :: rest, stop, hcited, h => by
    obtain ⟨⟨s, hname⟩, hvalue, hrest⟩ := Scan.verifyMembers_cons.mp h
    rw [skipMembers, hcited.1.1 s hname, skip_of_sound value hcited.1.2.1 hvalue,
      skipMembers_of_sound rest stop hcited.2 hrest]
    rfl

end

end Doc

/-! ## Tokens -/

theorem honest_broken {α : Type} (reading skipping : Fault) :
    (Token.broken reading skipping : Token α).Honest := nofun

theorem honest_number (n : Numeral) : n.token.Honest := fun _ _ => rfl

theorem scanMagnitude_honest (negative : Bool) (whole : List Char) (fraction : Option (List Char))
    (exponentNegative : Bool) (u : List Symbol) :
    (scanMagnitude negative whole fraction exponentNegative u).value.Honest := by
  unfold scanMagnitude
  simp only
  split
  · exact honest_broken _ _
  · exact honest_number _

theorem scanExponent_honest (negative : Bool) (whole : List Char) (fraction : Option (List Char))
    (u : List Symbol) : (scanExponent negative whole fraction u).value.Honest := by
  unfold scanExponent
  split
  · split
    · split
      · exact scanMagnitude_honest negative whole fraction false _
      · exact scanMagnitude_honest negative whole fraction true _
      · exact scanMagnitude_honest negative whole fraction false _
    · exact honest_number _
  · exact honest_number _

theorem scanFraction_honest (negative : Bool) (whole : List Char) (u : List Symbol) :
    (scanFraction negative whole u).value.Honest := by
  unfold scanFraction
  split
  · simp only
    split
    · exact honest_broken _ _
    · exact scanExponent_honest _ _ _ _
  · exact scanExponent_honest _ _ _ _

theorem scanNumber_honest (negative : Bool) (u : List Symbol) :
    (scanNumber negative u).value.Honest := by
  unfold scanNumber
  split
  · exact honest_broken _ _
  · exact scanFraction_honest _ _ _
  · exact honest_broken _ _
  · exact scanFraction_honest _ _ _

theorem Piece.stop_of_assemble {stop : Option Fault} {found : List Char} {clean : Bool}
    {pieces : List Piece} {s : String} (h : assemble stop found clean pieces = .ok s) :
    stop = none := by
  fun_induction assemble stop found clean pieces <;> simp_all

theorem scanString_honest (u : List Symbol) : (scanString u).value.Honest := by
  intro s h
  exact Piece.stop_of_assemble h

namespace Scan

variable {source : List Symbol}

/-- With so much fuel, the values that are read from the rest of the source cite it. -/
def ValueCited (source : List Symbol) (fuel : Nat) : Prop :=
  ∀ w, w <:+ source → (value fuel w).value.Cited source

def ItemsCited (source : List Symbol) (fuel : Nat) : Prop :=
  ∀ w, w <:+ source → ∀ found stop r, items fuel w = (found, stop, r) →
    ∀ item ∈ found, item.value.Cited source ∧ item.Cites source

def MembersCited (source : List Symbol) (fuel : Nat) : Prop :=
  ∀ w, w <:+ source → ∀ found stop r, members fuel w = (found, stop, r) →
    ∀ m ∈ found, m.1.Honest ∧ m.2.value.Cited source ∧ m.2.Cites source

theorem skipBlanks_suffix (w : List Symbol) : skipBlanks w <:+ w := by
  obtain ⟨b, -, hw⟩ := exists_blanks w
  exact ⟨b, hw.symm⟩

theorem between_ofString (t : String) (rest : List Symbol) :
    between (Symbol.ofString t ++ rest) rest = some t :=
  (between_chars t.toList rest).trans (congrArg some String.ofList_toList)

/-- A text without blanks around it that is read to its end is a payload. -/
theorem payload_of_value {t : String} {d : Doc}
    (hbegin : skipBlanks (Symbol.ofString t) = Symbol.ofString t)
    (hread : value (2 * (Symbol.ofString t).length + 2) (Symbol.ofString t) = ⟨d, some []⟩)
    (hskip : d.skip = none) : (Document.ofString t).root.value = d ∧ IsPayload t := by
  have hroot : Document.ofString t =
      ⟨⟨d, Thunk.mk fun _ => between (Symbol.ofString t) []⟩, none⟩ := by
    simp only [Document.ofString, Document.ofSymbols, hbegin, hread, cite]
    rfl
  have hbetween := between_ofString t []
  rw [List.append_nil] at hbetween
  refine ⟨by rw [hroot], Decoder.runDocument_eq_ok_iff.mpr ?_⟩
  rw [hroot]
  exact ⟨Decoder.result_raw hskip hbetween, rfl⟩

/-- A value that is read behind blanks cites the source, and what is left is its rest. -/
theorem cite_cited {fuel : Nat} (hvalue : ValueCited source fuel) {w : List Symbol}
    (hw : w <:+ source) {item : Sourced Doc} {rest : Option (List Symbol)}
    (h : cite (skipBlanks w) (value fuel (skipBlanks w)) = ⟨item, rest⟩) :
    (item.value.Cited source ∧ item.Cites source) ∧ ∀ r, rest = some r → r <:+ w := by
  have hstart := skipBlanks_suffix w
  have hcited := hvalue _ (hstart.trans hw)
  obtain ⟨⟨d, r⟩, hd⟩ : ∃ x, value fuel (skipBlanks w) = x := ⟨_, rfl⟩
  rw [hd] at h hcited
  cases h
  cases r with
  | none =>
    refine ⟨⟨hcited, fun hsound => ?_⟩, nofun⟩
    exact absurd (Doc.skip_of_sound d hcited hsound) (skip_ne_none hd)
  | some r =>
    obtain ⟨u, hu, halone, hclean⟩ := value_excerpt hd
    refine ⟨⟨hcited, fun hsound => ?_⟩, fun _ hr => ?_⟩
    · obtain ⟨t, rfl⟩ := (hclean hsound).exists_text
      have hread := halone _ (Nat.le_refl _)
      have hne : Symbol.ofString t ≠ [] := by
        intro hnil
        rw [hnil] at hread
        cases hread
      have hbegin : skipBlanks (Symbol.ofString t) = Symbol.ofString t := by
        simpa using skipBlanks_start hne (hu ▸ skipBlanks_skipBlanks w) []
      obtain ⟨hroot, hpayload⟩ := payload_of_value hbegin (halone _ (by omega))
        (Doc.skip_of_sound d hcited hsound)
      have hprefix : Symbol.ofString t <:+: skipBlanks w := by
        rw [hu]
        exact (List.prefix_append _ _).isInfix
      refine ⟨t, ?_, hprefix.trans (hstart.trans hw).isInfix, hpayload, hroot⟩
      show between (skipBlanks w) r = some t
      rw [hu, between_ofString]
    · cases hr
      exact (hu ▸ List.suffix_append u r).trans hstart

theorem items_cited_succ {fuel : Nat} (hvalue : ValueCited source fuel)
    (hitems : ItemsCited source fuel) : ItemsCited source (fuel + 1) := by
  intro w hw found stop r h
  obtain ⟨⟨item, rest⟩, hitem⟩ :
      ∃ x, cite (skipBlanks w) (value fuel (skipBlanks w)) = x := ⟨_, rfl⟩
  obtain ⟨hcited, hrest⟩ := cite_cited hvalue hw hitem
  simp only [items, hitem] at h
  cases rest with
  | none =>
    cases h
    exact List.forall_mem_singleton.mpr hcited
  | some rest =>
    simp only at h
    split at h
    · cases h
      exact List.forall_mem_singleton.mpr hcited
    · cases h
      exact List.forall_mem_singleton.mpr hcited
    · rename_i tail hs
      split at h
      · cases h
        exact List.forall_mem_singleton.mpr hcited
      · obtain ⟨⟨found', stop', rest'⟩, hmore⟩ : ∃ x, items fuel (skipBlanks tail) = x := ⟨_, rfl⟩
        rw [hmore] at h
        cases h
        have htail : tail <:+ rest := (List.suffix_cons _ _).trans (hs ▸ skipBlanks_suffix rest)
        have hnext := (skipBlanks_suffix tail).trans (htail.trans ((hrest rest rfl).trans hw))
        exact List.forall_mem_cons.mpr ⟨hcited, hitems _ hnext _ _ _ hmore⟩
    · cases h
      exact List.forall_mem_singleton.mpr hcited

theorem members_cited_succ {fuel : Nat} (hvalue : ValueCited source fuel)
    (hmembers : MembersCited source fuel) : MembersCited source (fuel + 1) := by
  intro w hw found stop r h
  have hopen : ∀ (name : Token String) (fault : Fault), name.Honest →
      ∀ m ∈ [openMember name fault], m.1.Honest ∧ m.2.value.Cited source ∧ m.2.Cites source :=
    fun name fault hname => List.forall_mem_singleton.mpr ⟨hname, trivial, nofun⟩
  have hhonest := scanString_honest w
  obtain ⟨⟨name, afterName⟩, hname⟩ : ∃ x, scanString w = x := ⟨_, rfl⟩
  rw [hname] at hhonest
  simp only [members, hname] at h
  cases afterName with
  | none =>
    cases h
    exact hopen _ _ hhonest
  | some afterName =>
  obtain ⟨n, rfl, -⟩ := scanString_excerpt hname
  simp only at h
  split at h
  · cases h
    exact hopen _ _ hhonest
  · rename_i colon hcolon
    have hafter : colon <:+ source := (List.suffix_cons _ _).trans
      ((hcolon ▸ skipBlanks_suffix afterName).trans ((List.suffix_append n afterName).trans hw))
    obtain ⟨⟨item, rest⟩, hitem⟩ :
        ∃ x, cite (skipBlanks colon) (value fuel (skipBlanks colon)) = x := ⟨_, rfl⟩
    obtain ⟨hcited, hrest⟩ := cite_cited hvalue hafter hitem
    have hone : ∀ m ∈ [(name, item)],
        m.1.Honest ∧ m.2.value.Cited source ∧ m.2.Cites source :=
      List.forall_mem_singleton.mpr ⟨hhonest, hcited⟩
    have hlast : ∀ fault, ∀ m ∈ [(name, item), nameless fault],
        m.1.Honest ∧ m.2.value.Cited source ∧ m.2.Cites source := fun fault =>
      List.forall_mem_cons.mpr ⟨⟨hhonest, hcited⟩, hopen _ fault (honest_broken _ _)⟩
    rw [hitem] at h
    cases rest with
    | none =>
      cases h
      exact hone
    | some rest =>
    simp only at h
    split at h
    · cases h
      exact hone
    · cases h
      exact hone
    · rename_i tail hs
      split at h
      · cases h
        exact hlast _
      · rename_i next hnext
        obtain ⟨⟨found', stop', rest'⟩, hmore⟩ : ∃ x, members fuel next = x := ⟨_, rfl⟩
        rw [hmore] at h
        cases h
        have htail : tail <:+ rest := (List.suffix_cons _ _).trans (hs ▸ skipBlanks_suffix rest)
        have hnext' : next <:+ tail :=
          (List.suffix_cons _ _).trans (hnext ▸ skipBlanks_suffix tail)
        have hnext'' := hnext'.trans (htail.trans ((hrest rest rfl).trans hafter))
        exact List.forall_mem_cons.mpr ⟨⟨hhonest, hcited⟩, hmembers _ hnext'' _ _ _ hmore⟩
      · cases h
        exact hone
      · cases h
        exact hlast _
    · cases h
      exact hone
  · cases h
    exact hopen _ _ hhonest

theorem literal_cited {d : Doc} (hd : d = .null ∨ ∃ b, d = .bool b) {letters : List Char}
    {u : List Symbol} : (literal d letters u).value.Cited source := by
  induction letters generalizing u with
  | nil => rcases hd with rfl | ⟨b, rfl⟩ <;> trivial
  | cons c letters ih =>
    cases u with
    | nil => trivial
    | cons s u =>
      rw [literal]
      split
      · exact ih
      · trivial

theorem value_cited_succ {fuel : Nat} (hitems : ItemsCited source fuel)
    (hmembers : MembersCited source fuel) : ValueCited source (fuel + 1) := by
  intro w hw
  cases w with
  | nil => trivial
  | cons s w =>
  cases s with
  | stray => trivial
  | char c =>
  have hw' : w <:+ source := (List.suffix_cons _ _).trans hw
  cases opening c with
  | literal d letters heq hd =>
    rw [heq]
    exact literal_cited hd
  | string heq =>
    rw [heq]
    exact scanString_honest w
  | minus heq =>
    rw [heq]
    exact scanNumber_honest true w
  | digit heq =>
    rw [heq]
    exact scanNumber_honest false _
  | array heq =>
    rw [heq]
    unfold array
    split
    · trivial
    · trivial
    · obtain ⟨⟨found, stop, rest⟩, hmore⟩ : ∃ x, items fuel (skipBlanks w) = x := ⟨_, rfl⟩
      rw [hmore]
      exact Doc.citedItems_iff.mpr (hitems _ ((skipBlanks_suffix w).trans hw') _ _ _ hmore)
  | object heq =>
    rw [heq]
    unfold object
    split
    · trivial
    · trivial
    · rename_i rest hs
      have hrest : rest <:+ source :=
        (List.suffix_cons _ _).trans ((hs ▸ skipBlanks_suffix w).trans hw')
      obtain ⟨⟨found, stop, rest'⟩, hmore⟩ : ∃ x, members fuel rest = x := ⟨_, rfl⟩
      rw [hmore]
      exact Doc.citedMembers_iff.mpr (hmembers _ hrest _ _ _ hmore)
    · exact ⟨⟨honest_broken _ _, trivial, nofun⟩, trivial⟩
  | nothing heq =>
    rw [heq]
    trivial

theorem scan_cited (fuel : Nat) :
    ValueCited source fuel ∧ ItemsCited source fuel ∧ MembersCited source fuel := by
  induction fuel with
  | zero =>
    refine ⟨fun w _ => ?_, fun w _ found stop r h => ?_, fun w _ found stop r h => ?_⟩
    · rw [value]
      trivial
    · rw [items] at h
      cases h
      exact List.forall_mem_nil _
    · rw [members] at h
      cases h
      exact List.forall_mem_nil _
  | succ fuel ih =>
    obtain ⟨hvalue, hitems, hmembers⟩ := ih
    exact ⟨value_cited_succ hitems hmembers, items_cited_succ hvalue hitems,
      members_cited_succ hvalue hmembers⟩

/-- Every document that is read from the rest of a source cites it. -/
theorem value_cited (fuel : Nat) : ValueCited source fuel := (scan_cited fuel).1

end Scan

/-- The document of a whole text cites the text. -/
theorem Document.cited (source : List Symbol) :
    (ofSymbols source).root.value.Cited source ∧ (ofSymbols source).root.Cites source :=
  (Scan.cite_cited (Scan.value_cited _) (List.suffix_refl source) rfl).1

end ContextProtocol
