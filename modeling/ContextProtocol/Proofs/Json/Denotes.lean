import ContextProtocol.Message.Schema
import ContextProtocol.Proofs.Json.Citation

/-!
# The value that a document denotes

Whoever takes a document apart as a value forgets how the value was written: white space, escapes,
the order of the members and the spelling of numbers are gone. `Spells` is this relation for
documents in which every name stands once, and `Denotes` asks in addition that no object stands for
another value. Both are defined on documents alone, without origins or the texts that stand for
values.

Results:
* `Doc.Spells.denotes`: what a document spells is what it denotes, unless one of its objects begins
  with the reserved name.
* `Doc.Spells.verify`: a document that spells a value can be taken apart wherever there is room.
* `Doc.denotes_of_json`: a document that is read as a value denotes it, unless one of its objects
  repeats a name or begins with the reserved one.
* `Doc.Denotes.json`: what a document denotes is read from it wherever there is room.
-/
namespace ContextProtocol

namespace Doc

/-! ## Documents -/

mutual

/-- The members of every object obey a rule. -/
def Each (P : List (Token String × Sourced Doc) → Prop) : Doc → Prop
  | .array items _ => EachItem P items
  | .object members _ => P members ∧ EachMember P members
  | .null | .bool _ | .number _ | .string _ | .cut .. | .absent _ => True

def EachItem (P : List (Token String × Sourced Doc) → Prop) : List (Sourced Doc) → Prop
  | [] => True
  | ⟨item, _⟩ :: rest => Each P item ∧ EachItem P rest

def EachMember (P : List (Token String × Sourced Doc) → Prop) :
    List (Token String × Sourced Doc) → Prop
  | [] => True
  | (_, ⟨value, _⟩) :: rest => Each P value ∧ EachMember P rest

end

/-- No name stands twice, however it is escaped. -/
def NamesDistinct (members : List (Token String × Sourced Doc)) : Prop :=
  (members.map fun m => m.1.reading).Nodup

/-- The first name is not the reserved one, so the object does not stand for another value. -/
def StandsForItself (members : List (Token String × Sourced Doc)) : Prop :=
  ∀ m ∈ members.head?, m.1.reading ≠ .ok embeddedName

instance : DecidablePred NamesDistinct := fun members =>
  inferInstanceAs (Decidable (members.map fun m => m.1.reading).Nodup)

instance : DecidablePred StandsForItself := fun members =>
  inferInstanceAs (Decidable (∀ m ∈ members.head?, m.1.reading ≠ .ok embeddedName))

section

variable (P : List (Token String × Sourced Doc) → Prop) [DecidablePred P]

mutual

instance decidableEach : (d : Doc) → Decidable (d.Each P)
  | .array items _ => decidableEachItem items
  | .object members _ =>
    @instDecidableAnd _ _ (inferInstanceAs (Decidable (P members))) (decidableEachMember members)
  | .null | .bool _ | .number _ | .string _ | .cut .. | .absent _ => isTrue trivial

instance decidableEachItem : (items : List (Sourced Doc)) → Decidable (EachItem P items)
  | [] => isTrue trivial
  | ⟨item, _⟩ :: rest => @instDecidableAnd _ _ (decidableEach item) (decidableEachItem rest)

instance decidableEachMember :
    (members : List (Token String × Sourced Doc)) → Decidable (EachMember P members)
  | [] => isTrue trivial
  | (_, ⟨value, _⟩) :: rest =>
    @instDecidableAnd _ _ (decidableEach value) (decidableEachMember rest)

end

end

theorem depthMembers_le_iff {members : List (Token String × Sourced Doc)} {n : Nat} :
    depthMembers members ≤ n ↔ ∀ m ∈ members, m.2.value.depth ≤ n := by
  induction members with
  | nil => simp [depthMembers]
  | cons m rest ih => rw [depthMembers, Nat.max_le, ih, List.forall_mem_cons]

/-! ## Values -/

mutual

/-- The document writes the value letter by letter: no name stands twice in it, and an object that
stands for another value is taken as the object it is. -/
def Spells : Doc → Json → Prop
  | .null, v => v = .null
  | .bool b, v => v = .bool b
  | .number token, v => ∃ n, token.reading = .ok n ∧ v = .number n
  | .string token, v => ∃ s, token.reading = .ok s ∧ v = .string s
  | .array items stop, v => stop = none ∧ ∃ vs, v = .array vs ∧ SpellItems items vs
  | .object members stop, v => stop = none ∧ ∃ es, v = .ofMembers es ∧ SpellMembers members es ∧
      (es.map (·.1)).Nodup
  | .cut .., _ | .absent _, _ => False

def SpellItems : List (Sourced Doc) → List Json → Prop
  | [], vs => vs = []
  | ⟨item, _⟩ :: rest, vs => ∃ v more, vs = v :: more ∧ Spells item v ∧ SpellItems rest more

def SpellMembers : List (Token String × Sourced Doc) → List (String × Json) → Prop
  | [], es => es = []
  | (name, ⟨value, _⟩) :: rest, es => ∃ n v more, es = (n, v) :: more ∧ name.reading = .ok n ∧
      Spells value v ∧ SpellMembers rest more

end

mutual

/-- The document writes the value: no name stands twice in it, and no object stands for another
value. -/
def Denotes : Doc → Json → Prop
  | .null, v => v = .null
  | .bool b, v => v = .bool b
  | .number token, v => ∃ n, token.reading = .ok n ∧ v = .number n
  | .string token, v => ∃ s, token.reading = .ok s ∧ v = .string s
  | .array items stop, v => stop = none ∧ ∃ vs, v = .array vs ∧ DenoteItems items vs
  | .object members stop, v => stop = none ∧ ∃ es, v = .ofMembers es ∧ DenoteMembers members es ∧
      (es.map (·.1)).Nodup ∧ ∀ e ∈ es.head?, e.1 ≠ embeddedName
  | .cut .., _ | .absent _, _ => False

def DenoteItems : List (Sourced Doc) → List Json → Prop
  | [], vs => vs = []
  | ⟨item, _⟩ :: rest, vs => ∃ v more, vs = v :: more ∧ Denotes item v ∧ DenoteItems rest more

def DenoteMembers : List (Token String × Sourced Doc) → List (String × Json) → Prop
  | [], es => es = []
  | (name, ⟨value, _⟩) :: rest, es => ∃ n v more, es = (n, v) :: more ∧ name.reading = .ok n ∧
      Denotes value v ∧ DenoteMembers rest more

end

theorem DenoteMembers.names : ∀ {members : List (Token String × Sourced Doc)}
    {es : List (String × Json)}, DenoteMembers members es →
      members.map (fun m => m.1.reading) = es.map fun e => .ok e.1
  | [], _, h => by
    rw [show _ = [] from h]
    rfl
  | (name, ⟨value, text⟩) :: rest, _, h => by
    obtain ⟨n, v, more, rfl, hname, -, hrest⟩ := h
    rw [List.map_cons, List.map_cons, DenoteMembers.names hrest, hname]

variable {embedded : String → Except ShapeError Json}

theorem read_token {α β : Type} {token : Token α} {f : α → β} {b : β}
    (h : token.read.map f = .ok b) : ∃ a, token.reading = .ok a ∧ b = f a := by
  obtain ⟨a, ha, rfl⟩ := Outcome.map_eq_ok_iff.mp h
  exact ⟨a, Outcome.mapError_eq_ok_iff.mp ha, rfl⟩

theorem read_of_reading {α : Type} {token : Token α} {a : α} (h : token.reading = .ok a) :
    token.read = .ok a := Outcome.mapError_eq_ok_iff.mpr h

/-! ### Spelling and denoting -/

mutual

/-- The document of a value in memory spells the value. -/
theorem spells_ofJson : ∀ v : Json, v.Canonical → (ofJson v).Spells v
  | .null, _ | .bool _, _ => rfl
  | .number n, _ => ⟨n, rfl, rfl⟩
  | .string s, _ => ⟨s, rfl, rfl⟩
  | .array items, h => ⟨rfl, items, rfl, spellItems_ofItems items h⟩
  | .object members, h => ⟨rfl, members, (congrArg Json.object (Entries.ofList_of_sorted h.1)).symm,
      spellMembers_ofMembers members h.2, Entries.nodup_keys_of_sorted h.1⟩

theorem spellItems_ofItems : ∀ items : List Json, Json.CanonicalItems items →
    SpellItems (ofItems items) items
  | [], _ => rfl
  | v :: rest, h => ⟨v, rest, rfl, spells_ofJson v h.1, spellItems_ofItems rest h.2⟩

theorem spellMembers_ofMembers : ∀ members : List (String × Json), Json.CanonicalMembers members →
    SpellMembers (ofMembers members) members
  | [], _ => rfl
  | (name, v) :: rest, h =>
    ⟨name, v, rest, rfl, rfl, spells_ofJson v h.1, spellMembers_ofMembers rest h.2⟩

end

mutual

/-- What a document denotes is what it spells. -/
theorem Denotes.spells : ∀ {d : Doc} {v : Json}, d.Denotes v → d.Spells v
  | .null, _, h | .bool _, _, h | .number _, _, h | .string _, _, h => h
  | .array _ _, _, h => by
    obtain ⟨hstop, vs, rfl, hitems⟩ := h
    exact ⟨hstop, vs, rfl, DenoteItems.spells hitems⟩
  | .object _ _, _, h => by
    obtain ⟨hstop, es, rfl, hmembers, hkeys, -⟩ := h
    exact ⟨hstop, es, rfl, DenoteMembers.spells hmembers, hkeys⟩

theorem DenoteItems.spells : ∀ {items : List (Sourced Doc)} {vs : List Json},
    DenoteItems items vs → SpellItems items vs
  | [], _, h => h
  | ⟨_, _⟩ :: _, _, h => by
    obtain ⟨v, more, rfl, hitem, hrest⟩ := h
    exact ⟨v, more, rfl, hitem.spells, DenoteItems.spells hrest⟩

theorem DenoteMembers.spells : ∀ {members : List (Token String × Sourced Doc)}
    {es : List (String × Json)}, DenoteMembers members es → SpellMembers members es
  | [], _, h => h
  | (_, ⟨_, _⟩) :: _, _, h => by
    obtain ⟨n, v, more, rfl, hname, hvalue, hrest⟩ := h
    exact ⟨n, v, more, rfl, hname, hvalue.spells, DenoteMembers.spells hrest⟩

end

mutual

/-- What a document spells is what it denotes, unless one of its objects begins with the reserved
name. -/
theorem Spells.denotes : ∀ {d : Doc} {v : Json}, d.Spells v → d.Each StandsForItself → d.Denotes v
  | .null, _, h, _ | .bool _, _, h, _ | .number _, _, h, _ | .string _, _, h, _ => h
  | .array _ _, _, h, hitself => by
    obtain ⟨hstop, vs, rfl, hitems⟩ := h
    exact ⟨hstop, vs, rfl, SpellItems.denote hitems hitself⟩
  | .object [] _, _, h, _ => by
    obtain ⟨hstop, es, rfl, hmembers, hkeys⟩ := h
    obtain rfl : es = [] := hmembers
    exact ⟨hstop, [], rfl, rfl, hkeys, nofun⟩
  | .object ((name, ⟨value, text⟩) :: rest) _, _, h, hitself => by
    obtain ⟨hstop, es, rfl, hmembers, hkeys⟩ := h
    have hdenote := SpellMembers.denote hmembers hitself.2
    obtain ⟨n, v, more, rfl, hname, -⟩ := hmembers
    refine ⟨hstop, _, rfl, hdenote, hkeys, fun e he => ?_⟩
    obtain rfl : (n, v) = e := Option.some.inj he
    rintro rfl
    exact hitself.1 _ rfl hname

theorem SpellItems.denote : ∀ {items : List (Sourced Doc)} {vs : List Json},
    SpellItems items vs → EachItem StandsForItself items → DenoteItems items vs
  | [], _, h, _ => h
  | ⟨_, _⟩ :: _, _, h, hitself => by
    obtain ⟨v, more, rfl, hitem, hrest⟩ := h
    exact ⟨v, more, rfl, hitem.denotes hitself.1, SpellItems.denote hrest hitself.2⟩

theorem SpellMembers.denote : ∀ {members : List (Token String × Sourced Doc)}
    {es : List (String × Json)}, SpellMembers members es → EachMember StandsForItself members →
      DenoteMembers members es
  | [], _, h, _ => h
  | (_, ⟨_, _⟩) :: _, _, h, hitself => by
    obtain ⟨n, v, more, rfl, hname, hvalue, hrest⟩ := h
    exact ⟨n, v, more, rfl, hname, hvalue.denotes hitself.1, SpellMembers.denote hrest hitself.2⟩

end

mutual

/-- A document that spells a value can be taken apart wherever there is room. -/
theorem Spells.verify : ∀ {d : Doc} {v : Json}, d.Spells v → ∀ {origin : Origin},
    origin.Admits d.depth → d.verify origin = .ok ()
  | .null, _, _, _, _ => rfl
  | .bool _, _, _, _, _ => rfl
  | .number _, _, h, _, _ => by
    obtain ⟨n, hn, -⟩ := h
    exact congrArg (Except.map fun _ => ()) (read_of_reading hn)
  | .string _, _, h, _, _ => by
    obtain ⟨s, hs, -⟩ := h
    exact congrArg (Except.map fun _ => ()) (read_of_reading hs)
  | .array items stop, _, h, origin, ho => by
    obtain ⟨rfl, vs, -, hitems⟩ := h
    obtain ⟨inner, henter, hinner⟩ := Origin.Admits.enter ho
    rw [Doc.verify, henter]
    exact SpellItems.verify hitems hinner
  | .object members stop, _, h, origin, ho => by
    obtain ⟨rfl, es, -, hes, -⟩ := h
    obtain ⟨inner, henter, hinner⟩ := Origin.Admits.enter ho
    rw [Doc.verify, henter]
    exact SpellMembers.verify hes hinner
  | .cut .., _, h, _, _ => nomatch h
  | .absent _, _, h, _, _ => nomatch h

theorem SpellItems.verify : ∀ {items : List (Sourced Doc)} {vs : List Json},
    SpellItems items vs → ∀ {origin : Origin}, origin.Admits (depthItems items) →
      verifyItems origin none items = .ok ()
  | [], _, _, _, _ => rfl
  | ⟨item, text⟩ :: rest, _, h, origin, ho => by
    obtain ⟨v, more, -, hitem, hrest⟩ := h
    obtain ⟨hitemRoom, hrestRoom⟩ := Origin.admits_max.mp ho
    exact Scan.verifyItems_cons.mpr
      ⟨Spells.verify hitem hitemRoom, SpellItems.verify hrest hrestRoom⟩

theorem SpellMembers.verify : ∀ {members : List (Token String × Sourced Doc)}
    {es : List (String × Json)}, SpellMembers members es → ∀ {origin : Origin},
      origin.Admits (depthMembers members) → verifyMembers origin none members = .ok ()
  | [], _, _, _, _ => rfl
  | (name, ⟨value, text⟩) :: rest, _, h, origin, ho => by
    obtain ⟨n, v, more, -, hname, hvalue, hrest⟩ := h
    obtain ⟨hvalueRoom, hrestRoom⟩ := Origin.admits_max.mp ho
    exact Scan.verifyMembers_cons.mpr ⟨⟨n, hname⟩, Spells.verify hvalue hvalueRoom,
      SpellMembers.verify hrest hrestRoom⟩

end

/-- What denotes a value can be taken apart wherever there is room. -/
theorem Denotes.verify {d : Doc} {v : Json} (h : d.Denotes v) {origin : Origin}
    (ho : origin.Admits d.depth) : d.verify origin = .ok () := h.spells.verify ho

/-! ### From reading to denoting -/

mutual

/-- A document that is read as a value denotes it, unless one of its objects repeats a name or
begins with the reserved one; and there was room for it. -/
theorem denotes_of_json : ∀ (d : Doc) (origin : Origin) (v : Json),
    json embedded origin d = .ok v → d.Each NamesDistinct → d.Each StandsForItself →
      d.Denotes v ∧ origin.Admits d.depth
  | .null, origin, _, h, _, _ => by
    cases h
    exact ⟨rfl, origin.admits_zero⟩
  | .bool _, origin, _, h, _, _ => by
    cases h
    exact ⟨rfl, origin.admits_zero⟩
  | .number _, origin, _, h, _, _ => ⟨read_token h, origin.admits_zero⟩
  | .string _, origin, _, h, _, _ => ⟨read_token h, origin.admits_zero⟩
  | .array items stop, origin, v, h, hdistinct, hitself => by
    rw [json, Outcome.bind_eq_ok_iff] at h
    obtain ⟨inner, henter, h⟩ := h
    obtain ⟨vs, hitems, h⟩ := Outcome.bind_eq_ok_iff.mp h
    cases h
    obtain ⟨hstop, hdenote, hroom⟩ := denotes_of_jsonItems items inner stop vs hitems hdistinct hitself
    exact ⟨⟨hstop, vs, rfl, hdenote⟩, (Origin.enter_admits henter).mpr hroom⟩
  | .object [] stop, origin, v, h, _, _ => by
    rw [json, Outcome.bind_eq_ok_iff] at h
    obtain ⟨inner, henter, h⟩ := h
    obtain ⟨u, hclose, h⟩ := Outcome.bind_eq_ok_iff.mp h
    cases h
    exact ⟨⟨close_eq_ok hclose, [], rfl, rfl, List.nodup_nil, nofun⟩,
      (Origin.enter_admits henter).mpr inner.admits_zero⟩
  | .object ((name, ⟨value, text⟩) :: rest) stop, origin, v, h, hdistinct, hitself => by
    obtain ⟨hnames, hvalueDistinct, hrestDistinct⟩ := hdistinct
    obtain ⟨hfirst, hvalueItself, hrestItself⟩ := hitself
    rw [json, Outcome.bind_eq_ok_iff] at h
    obtain ⟨inner, henter, h⟩ := h
    obtain ⟨n, hname, h⟩ := Outcome.bind_eq_ok_iff.mp h
    have hname' : name.reading = .ok n := Outcome.mapError_eq_ok_iff.mp hname
    have hn : n ≠ embeddedName := by
      rintro rfl
      exact hfirst _ rfl hname'
    rw [if_neg hn] at h
    obtain ⟨w, hw, h⟩ := Outcome.bind_eq_ok_iff.mp h
    obtain ⟨es, hes, h⟩ := Outcome.bind_eq_ok_iff.mp h
    cases h
    obtain ⟨hvalue, hvalueRoom⟩ :=
      denotes_of_json value inner w hw hvalueDistinct hvalueItself
    obtain ⟨hstop, hrest, hrestRoom⟩ :=
      denotes_of_jsonMembers rest inner stop es hes hrestDistinct hrestItself
    have hmembers : DenoteMembers ((name, ⟨value, text⟩) :: rest) ((n, w) :: es) :=
      ⟨n, w, es, rfl, hname', hvalue, hrest⟩
    refine ⟨⟨hstop, _, rfl, hmembers, ?_, ?_⟩, ?_⟩
    · refine List.Nodup.of_map (Except.ok (ε := Fault)) ?_
      rw [List.map_map]
      unfold NamesDistinct at hnames
      rwa [hmembers.names] at hnames
    · intro e he
      obtain rfl : (n, w) = e := Option.some.inj he
      exact hn
    · exact (Origin.enter_admits henter).mpr (Origin.admits_max.mpr ⟨hvalueRoom, hrestRoom⟩)
  | .cut .., _, _, h, _, _ => nomatch h
  | .absent _, _, _, h, _, _ => nomatch h

theorem denotes_of_jsonItems : ∀ (items : List (Sourced Doc)) (origin : Origin)
    (stop : Option Fault) (vs : List Json), jsonItems embedded origin stop items = .ok vs →
      EachItem NamesDistinct items → EachItem StandsForItself items →
        stop = none ∧ DenoteItems items vs ∧ origin.Admits (depthItems items)
  | [], origin, stop, vs, h, _, _ => by
    rw [jsonItems, Outcome.map_eq_ok_iff] at h
    obtain ⟨u, hclose, rfl⟩ := h
    exact ⟨close_eq_ok hclose, rfl, origin.admits_zero⟩
  | ⟨item, text⟩ :: rest, origin, stop, vs, h, hdistinct, hitself => by
    rw [jsonItems, Outcome.bind_eq_ok_iff] at h
    obtain ⟨w, hw, h⟩ := h
    obtain ⟨ws, hws, h⟩ := Outcome.bind_eq_ok_iff.mp h
    cases h
    obtain ⟨hitem, hitemRoom⟩ := denotes_of_json item origin w hw hdistinct.1 hitself.1
    obtain ⟨hstop, hrest, hrestRoom⟩ :=
      denotes_of_jsonItems rest origin stop ws hws hdistinct.2 hitself.2
    exact ⟨hstop, ⟨w, ws, rfl, hitem, hrest⟩, Origin.admits_max.mpr ⟨hitemRoom, hrestRoom⟩⟩

theorem denotes_of_jsonMembers : ∀ (members : List (Token String × Sourced Doc)) (origin : Origin)
    (stop : Option Fault) (es : List (String × Json)),
      jsonMembers embedded origin stop members = .ok es →
      EachMember NamesDistinct members → EachMember StandsForItself members →
        stop = none ∧ DenoteMembers members es ∧ origin.Admits (depthMembers members)
  | [], origin, stop, es, h, _, _ => by
    rw [jsonMembers, Outcome.map_eq_ok_iff] at h
    obtain ⟨u, hclose, rfl⟩ := h
    exact ⟨close_eq_ok hclose, rfl, origin.admits_zero⟩
  | (name, ⟨value, text⟩) :: rest, origin, stop, es, h, hdistinct, hitself => by
    rw [jsonMembers, Outcome.bind_eq_ok_iff] at h
    obtain ⟨n, hname, h⟩ := h
    obtain ⟨w, hw, h⟩ := Outcome.bind_eq_ok_iff.mp h
    obtain ⟨ws, hws, h⟩ := Outcome.bind_eq_ok_iff.mp h
    cases h
    obtain ⟨hvalue, hvalueRoom⟩ := denotes_of_json value origin w hw hdistinct.1 hitself.1
    obtain ⟨hstop, hrest, hrestRoom⟩ :=
      denotes_of_jsonMembers rest origin stop ws hws hdistinct.2 hitself.2
    exact ⟨hstop, ⟨n, w, ws, rfl, Outcome.mapError_eq_ok_iff.mp hname, hvalue, hrest⟩,
      Origin.admits_max.mpr ⟨hvalueRoom, hrestRoom⟩⟩

end

/-! ### From denoting to reading -/

mutual

/-- What a document denotes is read from it wherever there is room, without a look at texts that
stand for values. -/
theorem Denotes.json : ∀ {d : Doc} {v : Json}, d.Denotes v → ∀ {origin : Origin},
    origin.Admits d.depth → d.json embedded origin = .ok v
  | .null, _, h, _, _ => congrArg Except.ok (show Json.null = _ from h.symm)
  | .bool b, _, h, _, _ => congrArg Except.ok (show Json.bool b = _ from h.symm)
  | .number _, _, h, _, _ => by
    obtain ⟨n, hn, rfl⟩ := h
    exact congrArg (Except.map Json.number) (read_of_reading hn)
  | .string _, _, h, _, _ => by
    obtain ⟨s, hs, rfl⟩ := h
    exact congrArg (Except.map Json.string) (read_of_reading hs)
  | .array items stop, _, h, origin, ho => by
    obtain ⟨rfl, vs, rfl, hitems⟩ := h
    obtain ⟨inner, henter, hinner⟩ := Origin.Admits.enter ho
    rw [Doc.json, henter, Outcome.ok_bind, DenoteItems.json hitems hinner]
    rfl
  | .object [] stop, _, h, origin, ho => by
    obtain ⟨rfl, es, rfl, hes, -⟩ := h
    obtain rfl : es = [] := hes
    obtain ⟨inner, henter, -⟩ := Origin.Admits.enter ho
    rw [Doc.json, henter]
    rfl
  | .object ((name, ⟨value, text⟩) :: rest) stop, _, h, origin, ho => by
    obtain ⟨rfl, es, rfl, ⟨n, v, more, rfl, hname, hvalue, hrest⟩, -, hfirst⟩ := h
    obtain ⟨inner, henter, hinner⟩ := Origin.Admits.enter ho
    obtain ⟨hvalueRoom, hrestRoom⟩ := Origin.admits_max.mp hinner
    rw [Doc.json, henter, Outcome.ok_bind, read_of_reading hname, Outcome.ok_bind,
      if_neg (hfirst _ rfl), Denotes.json hvalue hvalueRoom, Outcome.ok_bind,
      DenoteMembers.json hrest hrestRoom]
    rfl
  | .cut .., _, h, _, _ => nomatch h
  | .absent _, _, h, _, _ => nomatch h

theorem DenoteItems.json : ∀ {items : List (Sourced Doc)} {vs : List Json},
    DenoteItems items vs → ∀ {origin : Origin}, origin.Admits (depthItems items) →
      jsonItems embedded origin none items = .ok vs
  | [], _, h, _, _ => congrArg Except.ok (show [] = _ from h.symm)
  | ⟨item, text⟩ :: rest, _, h, origin, ho => by
    obtain ⟨v, more, rfl, hitem, hrest⟩ := h
    obtain ⟨hitemRoom, hrestRoom⟩ := Origin.admits_max.mp ho
    rw [jsonItems, Denotes.json hitem hitemRoom, Outcome.ok_bind,
      DenoteItems.json hrest hrestRoom]
    rfl

theorem DenoteMembers.json : ∀ {members : List (Token String × Sourced Doc)}
    {es : List (String × Json)}, DenoteMembers members es → ∀ {origin : Origin},
      origin.Admits (depthMembers members) → jsonMembers embedded origin none members = .ok es
  | [], _, h, _, _ => congrArg Except.ok (show [] = _ from h.symm)
  | (name, ⟨value, text⟩) :: rest, _, h, origin, ho => by
    obtain ⟨n, v, more, rfl, hname, hvalue, hrest⟩ := h
    obtain ⟨hvalueRoom, hrestRoom⟩ := Origin.admits_max.mp ho
    rw [jsonMembers, read_of_reading hname, Outcome.ok_bind, Denotes.json hvalue hvalueRoom,
      Outcome.ok_bind, DenoteMembers.json hrest hrestRoom]
    rfl

end

mutual

/-- A value nests as deep as what denotes it. -/
theorem Denotes.depth_le : ∀ {d : Doc} {v : Json}, d.Denotes v → d.depth ≤ (Form.ofJson v).depth
  | .null, _, _ | .bool _, _, _ | .number _, _, _ | .string _, _, _ => Nat.zero_le _
  | .array items stop, _, h => by
    obtain ⟨rfl, vs, rfl, hitems⟩ := h
    exact Nat.succ_le_succ (DenoteItems.depth_le hitems)
  | .object members stop, _, h => by
    obtain ⟨rfl, es, rfl, hes, hkeys, -⟩ := h
    refine Nat.succ_le_succ (depthMembers_le_iff.mpr fun m hm => ?_)
    obtain ⟨e, he, hdepth⟩ := DenoteMembers.depth_le hes m hm
    refine Nat.le_trans hdepth
      (Form.depthMembers_le_iff.mp (Nat.le_refl _) (e.1, Form.ofJson e.2) ?_)
    rw [Form.ofMembers_eq]
    exact List.mem_map_of_mem (f := fun e => (e.1, Form.ofJson e.2))
      ((Entries.mem_ofList_iff hkeys).mpr he)
  | .cut .., _, h => nomatch h
  | .absent _, _, h => nomatch h

theorem DenoteItems.depth_le : ∀ {items : List (Sourced Doc)} {vs : List Json},
    DenoteItems items vs → depthItems items ≤ Form.depthItems (Form.ofItems vs)
  | [], _, _ => Nat.zero_le _
  | ⟨item, text⟩ :: rest, _, h => by
    obtain ⟨v, more, rfl, hitem, hrest⟩ := h
    exact Nat.max_le.mpr ⟨Nat.le_trans (Denotes.depth_le hitem) (Nat.le_max_left ..),
      Nat.le_trans (DenoteItems.depth_le hrest) (Nat.le_max_right ..)⟩

theorem DenoteMembers.depth_le : ∀ {members : List (Token String × Sourced Doc)}
    {es : List (String × Json)}, DenoteMembers members es → ∀ m ∈ members, ∃ e ∈ es,
      m.2.value.depth ≤ (Form.ofJson e.2).depth
  | [], _, _, _, hm => nomatch hm
  | (name, ⟨value, text⟩) :: rest, _, h, m, hm => by
    obtain ⟨n, v, more, rfl, -, hvalue, hrest⟩ := h
    rcases List.mem_cons.mp hm with rfl | hm
    · exact ⟨(n, v), List.mem_cons_self, Denotes.depth_le hvalue⟩
    · obtain ⟨e, he, hdepth⟩ := DenoteMembers.depth_le hrest m hm
      exact ⟨e, List.mem_cons_of_mem _ he, hdepth⟩

end

theorem Denotes.sound {d : Doc} {v : Json} (h : d.Denotes v) : Scan.Sound d :=
  show d.verify .value = .ok () from Denotes.verify h trivial

end Doc

namespace Json

/-- A document that is read as a value denotes it, unless one of its objects repeats a name or
begins with the reserved one. -/
theorem denotes_of_ofDoc {d : Doc} {origin : Origin} {v : Json} (h : ofDoc origin d = .ok v)
    (hdistinct : d.Each Doc.NamesDistinct) (hitself : d.Each Doc.StandsForItself) :
    d.Denotes v ∧ origin.Admits d.depth := by
  rw [ofDoc, Doc.jsonWithin_eq] at h
  exact Doc.denotes_of_json d origin v h hdistinct hitself

/-- What a document denotes is read from it wherever there is room. -/
theorem ofDoc_of_denotes {d : Doc} {v : Json} (h : d.Denotes v) {origin : Origin}
    (ho : origin.Admits d.depth) : ofDoc origin d = .ok v := by
  rw [ofDoc, Doc.jsonWithin_eq]
  exact h.json ho

end Json

end ContextProtocol
