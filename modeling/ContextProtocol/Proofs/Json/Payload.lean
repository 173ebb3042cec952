import ContextProtocol.Shape.Decoder
import ContextProtocol.Proofs.Json.Locality
import ContextProtocol.Proofs.Outcome

/-!
# Payloads that are copied

A text is a **payload** when it is one JSON value with nothing around it, so that whoever keeps it
as a text keeps it whole. A payload may hold numbers that are out of range or lone surrogates, and
it may nest deeper than any value that is taken apart.

Results:
* `skip_ne_none`: a value whose reading did not end leaves a fault to whoever skips it.
* `IsPayload.value`: a payload is read whole, whatever text it is copied into.
-/
namespace ContextProtocol

/-! ## Readings that do not end -/

/-- A number that did not end cannot be skipped. -/
def FaultyNumber (scanned : Scanned (Token Number)) : Prop :=
  scanned.rest = none → scanned.value.skipping ≠ none

theorem digitMissing_faulty (rest : List Symbol) : FaultyNumber (digitMissing rest) := by
  intro _ h
  cases h

theorem scanMagnitude_faulty (negative : Bool) (whole : List Char) (fraction : Option (List Char))
    (exponentNegative : Bool) (u : List Symbol) :
    FaultyNumber (scanMagnitude negative whole fraction exponentNegative u) := by
  unfold scanMagnitude
  simp only
  split
  · exact digitMissing_faulty _
  · intro h
    cases h

theorem scanExponent_faulty (negative : Bool) (whole : List Char) (fraction : Option (List Char))
    (u : List Symbol) : FaultyNumber (scanExponent negative whole fraction u) := by
  unfold scanExponent
  split
  · rename_i c rest
    split
    · split
      · exact scanMagnitude_faulty negative whole fraction false _
      · exact scanMagnitude_faulty negative whole fraction true _
      · exact scanMagnitude_faulty negative whole fraction false _
    · intro h
      cases h
  · intro h
    cases h

theorem scanFraction_faulty (negative : Bool) (whole : List Char) (u : List Symbol) :
    FaultyNumber (scanFraction negative whole u) := by
  unfold scanFraction
  split
  · simp only
    split
    · exact digitMissing_faulty _
    · exact scanExponent_faulty _ _ _ _
  · exact scanExponent_faulty _ _ _ _

theorem scanNumber_faulty (negative : Bool) (u : List Symbol) :
    FaultyNumber (scanNumber negative u) := by
  unfold scanNumber
  split
  · exact digitMissing_faulty _
  · exact scanFraction_faulty _ _ _
  · intro _ h
    cases h
  · exact scanFraction_faulty _ _ _

theorem scanString_faulty {u : List Symbol} (h : (scanString u).rest = none) :
    (scanString u).value.skipping ≠ none := by
  unfold scanString at *
  simp only at h ⊢
  cases hstop : (scanPieces .plain [] u).2.1 with
  | none => rw [hstop] at h; cases h
  | some fault => exact Option.some_ne_none _

namespace Scan

theorem literal_faulty {d : Doc} {letters : List Char} {u : List Symbol}
    (h : (literal d letters u).rest = none) : (literal d letters u).value.skip ≠ none := by
  induction letters generalizing u with
  | nil => cases h
  | cons c letters ih =>
    cases u with
    | nil => exact Option.some_ne_none _
    | cons s u =>
      rw [literal] at h ⊢
      by_cases hs : s = .char c
      · rw [if_pos hs] at h ⊢
        exact ih h
      · rw [if_neg hs]
        exact Option.some_ne_none _

/-- With so much fuel, a value that did not end cannot be skipped. -/
def ValueFaulty (fuel : Nat) : Prop :=
  ∀ u d, value fuel u = ⟨d, none⟩ → d.skip ≠ none

def ItemsFaulty (fuel : Nat) : Prop :=
  ∀ u found stop, items fuel u = (found, stop, none) → Doc.skipItems stop found ≠ none

def MembersFaulty (fuel : Nat) : Prop :=
  ∀ u found stop, members fuel u = (found, stop, none) → Doc.skipMembers stop found ≠ none

/-- A list whose first item cannot be skipped cannot be skipped, nor one whose rest cannot. -/
theorem skipItems_ne_none {stop : Option Fault} {item : Sourced Doc} {rest : List (Sourced Doc)}
    (h : item.value.skip ≠ none ∨ Doc.skipItems stop rest ≠ none) :
    Doc.skipItems stop (item :: rest) ≠ none := by
  obtain ⟨d, text⟩ := item
  rw [Doc.skipItems, ne_eq, Option.or_eq_none_iff]
  intro hnone
  exact h.elim (fun hitem => hitem hnone.1) fun hrest => hrest hnone.2

theorem skipMembers_ne_none {stop : Option Fault} {name : Token String} {item : Sourced Doc}
    {rest : List (Token String × Sourced Doc)}
    (h : name.skipping ≠ none ∨ item.value.skip ≠ none ∨ Doc.skipMembers stop rest ≠ none) :
    Doc.skipMembers stop ((name, item) :: rest) ≠ none := by
  obtain ⟨d, text⟩ := item
  rw [Doc.skipMembers, ne_eq, Option.or_eq_none_iff, Option.or_eq_none_iff]
  intro hnone
  rcases h with hname | hitem | hrest
  · exact hname hnone.1
  · exact hitem hnone.2.1
  · exact hrest hnone.2.2

theorem cite_faulty {fuel : Nat} (hvalue : ValueFaulty fuel) {start : List Symbol}
    {item : Sourced Doc} (h : cite start (value fuel start) = ⟨item, none⟩) :
    item.value.skip ≠ none := by
  obtain ⟨⟨d, rest⟩, hd⟩ : ∃ x, value fuel start = x := ⟨_, rfl⟩
  rw [hd] at h
  cases h
  exact hvalue _ _ hd

theorem items_faulty_succ {fuel : Nat} (hvalue : ValueFaulty fuel) (hitems : ItemsFaulty fuel) :
    ItemsFaulty (fuel + 1) := by
  intro u found stop h
  obtain ⟨⟨item, rest⟩, hitem⟩ :
      ∃ x, cite (skipBlanks u) (value fuel (skipBlanks u)) = x := ⟨_, rfl⟩
  simp only [items, hitem] at h
  cases rest with
  | none =>
    cases h
    exact skipItems_ne_none (.inl (cite_faulty hvalue hitem))
  | some rest =>
    simp only at h
    split at h
    · cases h
      exact skipItems_ne_none (.inr (Option.some_ne_none _))
    · cases h
    · split at h
      · cases h
        exact skipItems_ne_none (.inr (Option.some_ne_none _))
      · rename_i tail _ _ _
        obtain ⟨⟨found', stop', rest'⟩, hmore⟩ : ∃ x, items fuel (skipBlanks tail) = x := ⟨_, rfl⟩
        rw [hmore] at h
        cases h
        exact skipItems_ne_none (.inr (hitems _ _ _ hmore))
    · cases h
      exact skipItems_ne_none (.inr (Option.some_ne_none _))

theorem members_faulty_succ {fuel : Nat} (hvalue : ValueFaulty fuel)
    (hmembers : MembersFaulty fuel) : MembersFaulty (fuel + 1) := by
  intro u found stop h
  have hopen : ∀ name fault, Doc.skipMembers none [openMember name fault] ≠ none := fun _ _ =>
    skipMembers_ne_none (.inr (.inl (Option.some_ne_none _)))
  obtain ⟨⟨name, afterName⟩, hname⟩ : ∃ x, scanString u = x := ⟨_, rfl⟩
  simp only [members, hname] at h
  cases afterName with
  | none =>
    cases h
    exact hopen _ _
  | some afterName =>
  simp only at h
  split at h
  · cases h
    exact hopen _ _
  · rename_i colon _
    obtain ⟨⟨item, rest⟩, hitem⟩ :
        ∃ x, cite (skipBlanks colon) (value fuel (skipBlanks colon)) = x := ⟨_, rfl⟩
    rw [hitem] at h
    cases rest with
    | none =>
      cases h
      exact skipMembers_ne_none (.inr (.inl (cite_faulty hvalue hitem)))
    | some rest =>
    -- what stands behind the member is no member, or it is read on
    have hlast : ∀ fault, Doc.skipMembers none [(name, item), nameless fault] ≠ none := fun _ =>
      skipMembers_ne_none (.inr (.inr (skipMembers_ne_none (.inl (Option.some_ne_none _)))))
    have hstop : ∀ fault, Doc.skipMembers (some fault) [(name, item)] ≠ none := fun _ =>
      skipMembers_ne_none (.inr (.inr (Option.some_ne_none _)))
    simp only at h
    split at h
    · cases h
      exact hstop _
    · cases h
    · split at h
      · cases h
        exact hlast _
      · rename_i next _
        obtain ⟨⟨found', stop', rest'⟩, hmore⟩ : ∃ x, members fuel next = x := ⟨_, rfl⟩
        rw [hmore] at h
        cases h
        exact skipMembers_ne_none (.inr (.inr (hmembers _ _ _ hmore)))
      · cases h
        exact hstop _
      · cases h
        exact hlast _
    · cases h
      exact hstop _
  · cases h
    exact hopen _ _

theorem value_faulty_succ {fuel : Nat} (hitems : ItemsFaulty fuel)
    (hmembers : MembersFaulty fuel) : ValueFaulty (fuel + 1) := by
  intro u d h
  have habsent : ∀ fault, (Doc.absent fault).skip ≠ none := fun _ => Option.some_ne_none _
  cases u with
  | nil => cases h; exact habsent _
  | cons s u =>
  cases s with
  | stray => cases h; exact habsent _
  | char c =>
  cases opening c with
  | literal d letters heq =>
    rw [heq] at h
    have := literal_faulty (congrArg Scanned.rest h)
    rwa [h] at this
  | string heq =>
    rw [heq, string, Scanned.mk.injEq] at h
    rw [← h.1]
    exact scanString_faulty h.2
  | minus heq =>
    rw [heq, number, Scanned.mk.injEq] at h
    rw [← h.1]
    exact scanNumber_faulty _ _ h.2
  | digit heq =>
    rw [heq, number, Scanned.mk.injEq] at h
    rw [← h.1]
    exact scanNumber_faulty _ _ h.2
  | array heq =>
    rw [heq] at h
    unfold array at h
    split at h
    · cases h
      exact Option.some_ne_none _
    · cases h
    · obtain ⟨⟨found, stop, rest⟩, hmore⟩ : ∃ x, items fuel (skipBlanks u) = x := ⟨_, rfl⟩
      rw [hmore] at h
      cases h
      exact hitems _ _ _ hmore
  | object heq =>
    rw [heq] at h
    unfold object at h
    split at h
    · cases h
      exact Option.some_ne_none _
    · cases h
    · rename_i rest _
      obtain ⟨⟨found, stop, rest'⟩, hmore⟩ : ∃ x, members fuel rest = x := ⟨_, rfl⟩
      rw [hmore] at h
      cases h
      exact hmembers _ _ _ hmore
    · cases h
      exact Option.some_ne_none Fault.keyNotString
  | nothing heq =>
    rw [heq] at h
    cases h
    exact habsent _

theorem scan_faulty (fuel : Nat) : ValueFaulty fuel ∧ ItemsFaulty fuel ∧ MembersFaulty fuel := by
  induction fuel with
  | zero =>
    refine ⟨fun u d h => ?_, fun u found stop h => ?_, fun u found stop h => ?_⟩
    · rw [value] at h; cases h; exact Option.some_ne_none _
    · rw [items] at h; cases h; exact Option.some_ne_none _
    · rw [members] at h; cases h; exact Option.some_ne_none _
  | succ fuel ih =>
    obtain ⟨hvalue, hitems, hmembers⟩ := ih
    exact ⟨value_faulty_succ hitems hmembers, items_faulty_succ hvalue hitems,
      members_faulty_succ hvalue hmembers⟩

/-- A value whose reading did not end leaves a fault to whoever skips it. -/
theorem skip_ne_none {fuel : Nat} {u : List Symbol} {d : Doc} (h : value fuel u = ⟨d, none⟩) :
    d.skip ≠ none :=
  (scan_faulty fuel).1 u d h

end Scan

/-! ## Payloads -/

namespace Symbol

theorem chars?_eq_some {symbols : List Symbol} {cs : List Char} (h : chars? symbols = some cs) :
    symbols = cs.map .char := by
  induction symbols generalizing cs with
  | nil => cases h; rfl
  | cons s rest ih =>
    cases s with
    | stray => cases h
    | char c =>
      rw [chars?, Option.map_eq_some_iff] at h
      obtain ⟨tail, htail, rfl⟩ := h
      rw [ih htail]
      rfl

theorem text?_eq_some {symbols : List Symbol} {text : String} (h : text? symbols = some text) :
    symbols = ofString text := by
  rw [text?, Option.map_eq_some_iff] at h
  obtain ⟨cs, hcs, rfl⟩ := h
  rw [chars?_eq_some hcs, ofString, String.toList_ofList]

end Symbol

/-- What separates the parts of a text. -/
def IsBlank (c : Char) : Prop := c = ' ' ∨ c = '\n' ∨ c = '\t' ∨ c = '\r'

instance (c : Char) : Decidable (IsBlank c) := inferInstanceAs (Decidable (_ ∨ _ ∨ _ ∨ _))

theorem Scan.skipBlanks_of_not_isBlank {c : Char} (h : ¬ IsBlank c) (rest : List Symbol) :
    skipBlanks (.char c :: rest) = .char c :: rest := by
  rw [skipBlanks]
  exact if_neg h

theorem Scan.not_isBlank_of_skipBlanks {c : Char} {rest : List Symbol}
    (h : skipBlanks (.char c :: rest) = .char c :: rest) : ¬ IsBlank c := by
  intro hc
  have hskip : skipBlanks (.char c :: rest) = skipBlanks rest := by
    rw [skipBlanks]
    exact if_pos hc
  have hlen := length_skipBlanks rest
  rw [← hskip, h, List.length_cons] at hlen
  omega

namespace Decoder

theorem raw_eq_ok {origin : Origin} {d : Sourced Doc} {t : String}
    (h : (raw origin d).result = .ok t) : d.value.skip = none ∧ d.text.get = some t := by
  unfold raw at h
  split at h
  · cases h
  · rename_i hskip
    split at h
    · rename_i text htext
      cases h
      exact ⟨hskip, htext⟩
    · cases h

/-- A value that can be passed over is copied as it stands. -/
theorem result_raw {origin : Origin} {d : Sourced Doc} {t : String} (hskip : d.value.skip = none)
    (htext : d.text.get = some t) : (raw origin d).result = .ok t := by
  unfold raw
  rw [hskip, htext]
  rfl

/-- What is not `null` is read as itself where `null` would be read as nothing. -/
theorem option_eq_map {α : Type} {d : Decoder α} {origin : Origin} {doc : Sourced Doc}
    (hnull : doc.value ≠ .null) (hcut : ∀ fault, doc.value ≠ .cut .null fault) :
    option d origin doc = some <$> d origin doc := by
  unfold option
  split
  · rename_i heq
    exact absurd heq hnull
  · rename_i fault heq
    exact absurd heq (hcut fault)
  · rfl

theorem close_eq_ok_iff {stop : Option Fault} : Doc.close stop = .ok () ↔ stop = none := by
  cases stop with
  | none => simp [Doc.close]
  | some fault => simp [Doc.close]

/-- A decoder succeeds on a text when it succeeds on the value and nothing follows the value. -/
theorem runDocument_eq_ok_iff {α : Type} {d : Decoder α} {document : Document} {a : α} :
    (d.runDocument document).result = .ok a ↔
      (d (.text Origin.maxDepth) document.root).result = .ok a ∧ document.trailing = none := by
  unfold runDocument
  rw [Traced.bind_eq_ok_iff]
  constructor
  · rintro ⟨b, hb, h⟩
    rw [Traced.bind_eq_ok_iff] at h
    obtain ⟨u, hclose, h⟩ := h
    cases h
    exact ⟨hb, close_eq_ok_iff.mp hclose⟩
  · rintro ⟨ha, htrailing⟩
    refine ⟨a, ha, ?_⟩
    rw [htrailing]
    rfl

end Decoder

/-- A text that is one JSON value with nothing around it. -/
def IsPayload (t : String) : Prop := (Decoder.raw.runString t).result = .ok t

instance (t : String) : Decidable (IsPayload t) :=
  decidable_of_iff _ Outcome.toOption_eq_some_iff

/-- The start of a value: no blank, and not the end of a list. -/
def StartsValue (c : Char) : Prop := ¬ IsBlank c ∧ c ≠ ']'

instance (c : Char) : Decidable (StartsValue c) := inferInstanceAs (Decidable (_ ∧ _))

/-- What the reader finds in a payload. -/
structure PayloadFacts (t : String) : Prop where
  skip : (Document.ofString t).root.value.skip = none
  starts : ∃ c cs, t.toList = c :: cs ∧ StartsValue c
  value : Scan.value (2 * t.toList.length + 2) (Symbol.ofString t) =
    ⟨(Document.ofString t).root.value, some []⟩

theorem startsValue_of_value {fuel : Nat} {c : Char} {rest r : List Symbol} {d : Doc}
    (hskip : Scan.skipBlanks (.char c :: rest) = .char c :: rest)
    (h : Scan.value fuel (.char c :: rest) = ⟨d, some r⟩) : StartsValue c := by
  refine ⟨Scan.not_isBlank_of_skipBlanks hskip, ?_⟩
  rintro rfl
  cases fuel with
  | zero => rw [Scan.value] at h; cases h
  | succ fuel => rw [Scan.value] at h; cases h

theorem IsPayload.facts {t : String} (h : IsPayload t) : PayloadFacts t := by
  obtain ⟨hskip, htext⟩ := Decoder.raw_eq_ok (Decoder.runDocument_eq_ok_iff.mp h).1
  have hlength : (Symbol.ofString t).length = t.toList.length := List.length_map ..
  obtain ⟨⟨d, rest⟩, hd⟩ : ∃ x, Scan.value (2 * t.toList.length + 2)
      (Scan.skipBlanks (Symbol.ofString t)) = x := ⟨_, rfl⟩
  have hroot : (Document.ofString t).root =
      ⟨d, Thunk.mk fun _ => Scan.between (Scan.skipBlanks (Symbol.ofString t)) (rest.getD [])⟩ := by
    simp only [Document.ofString, Document.ofSymbols, hlength, hd, Scan.cite]
  have hvalue : (Document.ofString t).root.value = d := by rw [hroot]
  have hskip' := hskip
  rw [hroot] at hskip' htext
  cases rest with
  | none => exact absurd hskip' (Scan.skip_ne_none hd)
  | some rest =>
    -- what was read is as long as the text, so there is nothing around it
    have htake : (Scan.skipBlanks (Symbol.ofString t)).take
        ((Scan.skipBlanks (Symbol.ofString t)).length - rest.length) = Symbol.ofString t :=
      Symbol.text?_eq_some htext
    have hshort := Scan.length_skipBlanks (Symbol.ofString t)
    have hread := ((Scan.scan_local _).1 _ _ _ hd).1
    have htakeLength := congrArg List.length htake
    rw [List.length_take] at htakeLength
    have hnil : rest = [] := List.length_eq_zero_iff.mp (by omega)
    rw [hnil, List.length_nil, Nat.sub_zero, List.take_length] at htake
    rw [hnil, htake] at hd
    refine ⟨hskip, ?_, by rw [hd, hvalue]⟩
    cases hcs : t.toList with
    | nil =>
      rw [htake, Symbol.ofString, hcs] at hread
      exact absurd hread (Nat.not_lt_zero _)
    | cons c cs =>
      rw [Symbol.ofString, hcs, List.map_cons] at htake hd
      exact ⟨c, cs, rfl, startsValue_of_value htake hd⟩

/-- A payload is read whole, whatever text it is copied into. -/
theorem IsPayload.value {t : String} (h : IsPayload t) {fuel : Nat} (hfuel : t.toList.length ≤ fuel)
    {rest : List Symbol} (hrest : EndsNumber rest) :
    Scan.value fuel (Symbol.ofString t ++ rest) =
      ⟨(Document.ofString t).root.value, some rest⟩ :=
  Scan.value_append h.facts.value (by rw [Symbol.ofString, List.length_map]; exact hfuel)
    fun _ => hrest

end ContextProtocol
