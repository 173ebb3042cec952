import ContextProtocol.Message.Identifier
import ContextProtocol.Proofs.Json.Matches
import ContextProtocol.Proofs.Shape.Gather
import ContextProtocol.Proofs.Shape.Inversion

/-!
# Decoders that read texts and values alike

A decoder **agrees** with itself when it finds the same in a text and in the value that the text
writes. The only decoder that does not is the one that copies texts: from the value it gets the
compact text. So what is found in the value is what is found in the text after some change, which is
the identity almost everywhere, and the change is carried through the containers.

Results:
* `Glances.found_eq`: what is found without a look into containers is said by the value.
* `Agrees.list`, `Agrees.dict`, `Agrees.option`: the law is lifted through the containers. In a
  dictionary the order of the members does not matter, since no name stands twice.
* `Agrees.string`, `Agrees.word`, `Agrees.json`, …: the plain decoders find the same.
* `Agrees.raw`: a copied text becomes the compact text of its value.
* `Record.agrees`: a record agrees when its fields do, written as an object or as an array.
-/
namespace ContextProtocol

/-- The compact text of the value that a text writes. -/
def Json.compactText (t : String) : String :=
  match parse t with
  | .ok v => v.text
  | .error _ => t

/-! ## Decoders -/

namespace Decoder

variable {α β : Type} {source : List Symbol}

/-! ### Glances -/

/-- What the function finds depends on the kind of a document, and on numbers and texts. -/
structure GlancesWith (f : Doc → Except ShapeError α) : Prop where
  number : ∀ (token : Token Number) (n : Number), token.reading = .ok n →
    (f (.number (.sound n))).toOption = (f (.number token)).toOption
  string : ∀ (token : Token String) (s : String), token.reading = .ok s →
    (f (.string (.sound s))).toOption = (f (.string token)).toOption
  array : ∀ found items, (f (.array found none)).toOption = (f (.array items none)).toOption
  object : ∀ found members,
    (f (.object found none)).toOption = (f (.object members none)).toOption

/-- The decoder looks at the kind of a document, and into numbers and texts, wherever it stands. -/
def Glances (d : Decoder α) : Prop := ∃ f, d = ofDoc (fun _ => f) ∧ GlancesWith f

namespace Glances

/-- What a glance finds is said by the value that is spelled. -/
theorem found_eq {d : Decoder α} (h : d.Glances) (origin origin' : Origin) {doc : Sourced Doc}
    {v : Json} (hspells : doc.value.Spells v) :
    (d origin doc).found = (d origin' (Doc.sourced v)).found := by
  obtain ⟨f, rfl, hf⟩ := h
  obtain ⟨doc, text⟩ := doc
  cases doc with
  | null =>
    obtain rfl : v = .null := hspells
    rfl
  | bool b =>
    obtain rfl : v = .bool b := hspells
    rfl
  | number token =>
    obtain ⟨n, hn, rfl⟩ := hspells
    exact (hf.number token n hn).symm
  | string token =>
    obtain ⟨s, hs, rfl⟩ := hspells
    exact (hf.string token s hs).symm
  | array items stop =>
    obtain ⟨rfl, vs, rfl, -⟩ := hspells
    exact hf.array items _
  | object members stop =>
    obtain ⟨rfl, es, rfl, -⟩ := hspells
    exact hf.object members _
  | cut _ _ => cases hspells
  | absent _ => cases hspells

theorem string : Decoder.string.Glances :=
  ⟨_, rfl, fun _ _ _ => rfl, fun _ _ hs => (congrArg Except.toOption (Doc.read_of_reading hs)).symm,
    fun _ _ => rfl, fun _ _ => rfl⟩

theorem bool : Decoder.bool.Glances :=
  ⟨_, rfl, fun _ _ _ => rfl, fun _ _ _ => rfl, fun _ _ => rfl, fun _ _ => rfl⟩

theorem float : Decoder.float.Glances := by
  refine ⟨_, rfl, fun token n hn => ?_, fun _ _ _ => rfl, fun _ _ => rfl, fun _ _ => rfl⟩
  simp only [Doc.read_of_reading hn]
  rfl

theorem integer (type : String) (low high : Int) : (Decoder.integer type low high).Glances := by
  refine ⟨_, rfl, fun token n hn => ?_, fun _ _ _ => rfl, fun _ _ => rfl, fun _ _ => rfl⟩
  simp only [Doc.read_of_reading hn]
  rfl

theorem wordPayload : (ofDoc fun _ => Decoder.wordPayload).Glances :=
  ⟨_, rfl, fun _ _ _ => rfl, fun _ _ _ => rfl, fun _ _ => rfl, fun _ _ => rfl⟩

end Glances

/-! ### Variants -/

/-- The first variant that finds something decides, and without one nothing is found. -/
theorem result_firstOf (type : String) (origin : Origin) (doc : Sourced Doc)
    (variants : List (Decoder α)) : (firstOf type origin doc variants).result =
      match variants.findSome? fun d => (d origin doc).found with
      | some a => .ok a
      | none => .error (.noVariant type) := by
  induction variants with
  | nil => rfl
  | cons d rest ih =>
    rw [firstOf, List.findSome?_cons, Traced.found]
    cases hd : (d origin doc).result with
    | ok a => simp [hd]
    | error e => exact ih

theorem found_firstOf (type : String) (origin : Origin) (doc : Sourced Doc)
    (variants : List (Decoder α)) :
    (firstOf type origin doc variants).found = variants.findSome? fun d => (d origin doc).found := by
  rw [Traced.found, result_firstOf]
  cases variants.findSome? fun d => (d origin doc).found <;> rfl

/-! ### Agreement -/

/-- What is found in the value of a document is what is found in the document, changed by `k`. -/
def Agrees (source : List Symbol) (d : Decoder α) (k : α → α) : Prop :=
  ∀ ⦃origin origin' : Origin⦄ ⦃doc : Sourced Doc⦄ ⦃v : Json⦄,
    doc.Matches source origin origin' v →
      (d origin' (Doc.sourced v)).found = (d origin doc).found.map k

namespace Agrees

theorem congr {d : Decoder α} {k k' : α → α} (h : d.Agrees source k) (hk : k = k') :
    d.Agrees source k' := hk ▸ h

/-- A decoder that finds the same in both documents. -/
theorem same {d : Decoder α} (h : ∀ ⦃origin origin' : Origin⦄ ⦃doc : Sourced Doc⦄ ⦃v : Json⦄,
    doc.Matches source origin origin' v → (d origin' (Doc.sourced v)).found = (d origin doc).found) :
    d.Agrees source id := fun _ _ _ _ hmatch => (h hmatch).trans (congrFun Option.map_id_fun _).symm

theorem found_eq {d : Decoder α} (h : d.Agrees source id) {origin origin' : Origin}
    {doc : Sourced Doc} {v : Json} (hmatch : doc.Matches source origin origin' v) :
    (d origin' (Doc.sourced v)).found = (d origin doc).found :=
  (h hmatch).trans (congrFun Option.map_id_fun _)

/-! ### Plain values -/

theorem glance {d : Decoder α} (h : d.Glances) : d.Agrees source id :=
  same fun _ _ _ _ hmatch => (h.found_eq _ _ hmatch.denotes.spells).symm

theorem string : Decoder.string.Agrees source id := glance .string

theorem bool : Decoder.bool.Agrees source id := glance .bool

theorem float : Decoder.float.Agrees source id := glance .float

theorem integer (type : String) (low high : Int) :
    (Decoder.integer type low high).Agrees source id := glance (.integer ..)

theorem map_of {d : Decoder α} {k : α → α} (h : d.Agrees source k) {f : α → β} {k' : β → β}
    (hk : ∀ a, f (k a) = k' (f a)) : (d.map f).Agrees source k' :=
  fun origin origin' doc v hmatch => by
    rw [Decoder.map, Traced.found_map, h hmatch, Option.map_map]
    refine Eq.trans ?_ (congrArg (Option.map k') (Traced.found_map _ _)).symm
    rw [Option.map_map]
    exact congrArg (Option.map · _) (funext hk)

theorem map {d : Decoder α} (h : d.Agrees source id) (f : α → β) :
    (d.map f).Agrees source id := h.map_of fun _ => rfl

theorem int64 : Decoder.int64.Agrees source id := (integer ..).map _

theorem uint32 : Decoder.uint32.Agrees source id := (integer ..).map _

/-- Any value is read as itself. -/
theorem json : Decoder.json.Agrees source id := same fun origin origin' doc v h => by
  have hvalue : Json.ofDoc origin' (Doc.sourced v).value = .ok v := h.json'
  exact congrArg Except.toOption (hvalue.trans h.json.symm)

theorem refine {d : Decoder α} (h : d.Agrees source id) (f : α → Traced ShapeError β) :
    (d.refine f).Agrees source id := same fun origin origin' doc v hmatch => by
  rw [Decoder.refine, Decoder.refine, Traced.found_bind, Traced.found_bind, h.found_eq hmatch]

/-- The variants are tried in the same order. -/
theorem firstOf {variants : List (Decoder α)} (h : ∀ d ∈ variants, d.Agrees source id)
    (type : String) {origin origin' : Origin} {doc : Sourced Doc} {v : Json}
    (hmatch : doc.Matches source origin origin' v) :
    (Decoder.firstOf type origin' (Doc.sourced v) variants).found =
      (Decoder.firstOf type origin doc variants).found := by
  rw [found_firstOf, found_firstOf]
  induction variants with
  | nil => rfl
  | cons d rest ih =>
    obtain ⟨hd, hrest⟩ := List.forall_mem_cons.mp h
    rw [List.findSome?_cons, List.findSome?_cons, hd.found_eq hmatch, ih hrest]

theorem untagged (type : String) {variants : List (Decoder α)}
    (h : ∀ d ∈ variants, d.Agrees source id) :
    (Decoder.untagged type variants).Agrees source id := same fun origin origin' doc v hmatch => by
  have hverify : doc.value.verify origin = .ok () := hmatch.denotes.verify hmatch.room
  have hverify' : (Doc.sourced v).value.verify origin' = .ok () := hmatch.verify'
  have hvalue : doc.Matches source .value .value v := { hmatch with room := trivial, room' := trivial }
  rw [Decoder.untagged, Decoder.untagged, Traced.found_bind, Traced.found_bind, Traced.found_liftM,
    Traced.found_liftM, hverify, hverify']
  exact firstOf h type hvalue

theorem identifier (type : String) : (Identifier.codec type).decode.Agrees source id := by
  refine untagged type ?_
  simp only [List.forall_mem_cons]
  exact ⟨int64.map _, string.map _, List.forall_mem_nil _⟩

/-! ### Words -/

/-- The only member of an object is the word with its payload. -/
theorem found_word_single (words : List (String × α)) {origin inner : Origin}
    (henter : origin.enter = .ok inner) {name : Token String} {n : String}
    (hname : name.reading = .ok n) (payload : Sourced Doc) (text : Thunk (Option String)) :
    (Decoder.word words origin ⟨.object [(name, payload)] none, text⟩).found =
      (lookupWord words n).toOption.bind fun a =>
        (wordPayload payload.value).toOption.map fun _ => a := by
  have htail : ∀ {x : Except ShapeError α}, x = (do
        let value ← lookupWord words n
        wordPayload payload.value
        return value) →
      x.toOption = (lookupWord words n).toOption.bind fun a =>
        (wordPayload payload.value).toOption.map fun _ => a := by
    rintro x rfl
    cases lookupWord words n with
    | error e => rfl
    | ok a => cases wordPayload payload.value <;> rfl
  refine htail ?_
  cases origin with
  | value =>
    simp only [Decoder.word, ofDoc, Traced.result_ofExcept]
    rw [Doc.read_of_reading hname]
    rfl
  | text room =>
    simp only [Decoder.word, ofDoc, Traced.result_ofExcept]
    rw [henter, Outcome.ok_bind, Doc.read_of_reading hname, Outcome.ok_bind]

/-- An object that has not just one member is no word. -/
theorem found_word_other (words : List (String × α)) {origin inner : Origin}
    (henter : origin.enter = .ok inner) {members : List (Token String × Sourced Doc)}
    (h : members.length ≠ 1) (text : Thunk (Option String)) :
    (Decoder.word words origin ⟨.object members none, text⟩).found = none := by
  cases members with
  | nil =>
    cases origin with
    | value => rfl
    | text room =>
      simp only [Traced.found, Decoder.word, ofDoc, Traced.result_ofExcept]
      rw [henter]
      rfl
  | cons m rest =>
    obtain ⟨name, payload⟩ := m
    cases rest with
    | nil => exact absurd rfl h
    | cons m' rest =>
      cases origin with
      | value => rfl
      | text room =>
        simp only [Traced.found, Decoder.word, ofDoc, Traced.result_ofExcept]
        rw [henter, Outcome.ok_bind]
        cases name.read with
        | error e => rfl
        | ok n =>
          cases hword : lookupWord words n with
          | error e => simp [hword]
          | ok a => cases wordPayload payload.value <;> simp [hword]

theorem wordPayload_agrees : (ofDoc fun _ => wordPayload).Agrees source id := glance .wordPayload

/-- A word stands for itself or is the only name of an object. -/
theorem word (words : List (String × α)) : (Decoder.word words).Agrees source id :=
  same fun origin origin' doc v h => by
    obtain ⟨doc, text⟩ := doc
    have hdenotes := h.denotes
    cases doc with
    | null =>
      obtain rfl : v = .null := hdenotes
      cases origin <;> cases origin' <;> rfl
    | bool b =>
      obtain rfl : v = .bool b := hdenotes
      cases origin <;> cases origin' <;> rfl
    | number token =>
      obtain ⟨n, hn, rfl⟩ := hdenotes
      cases origin <;> cases origin' <;> rfl
    | string token =>
      obtain ⟨s, hs, rfl⟩ := hdenotes
      have hread : ∀ (origin : Origin) (text : Thunk (Option String)) (token : Token String),
          token.reading = .ok s →
          (Decoder.word words origin ⟨.string token, text⟩).found =
            (lookupWord words s).toOption := by
        intro origin text token hs
        cases origin <;> simp only [Traced.found, Decoder.word, ofDoc, Traced.result_ofExcept,
          Doc.read_of_reading hs, Outcome.ok_bind]
      exact (hread _ _ (.sound s) rfl).trans (hread _ _ token hs).symm
    | array items stop =>
      obtain ⟨-, vs, rfl, -⟩ := hdenotes
      cases origin <;> cases origin' <;> rfl
    | object members stop =>
      obtain ⟨rfl, es, inner, inner', rfl, hkeys, henter, henter', hmembers⟩ := h.members
      have hlength : (Doc.ofMembers (Entries.ofList es)).length = members.length := by
        rw [Doc.ofMembers_eq, List.length_map, (Entries.perm_ofList hkeys).length_eq,
          hmembers.length_eq]
      by_cases hone : members.length = 1
      · obtain ⟨⟨name, payload⟩, rfl⟩ := List.length_eq_one_iff.mp hone
        obtain ⟨e, more, ⟨hname, hpayload⟩, hmore, rfl⟩ := List.forall₂_cons_left_iff.mp hmembers
        obtain rfl := List.forall₂_nil_left_iff.mp hmore
        obtain ⟨n, w⟩ := e
        have hunit : (wordPayload (Doc.ofJson w)).toOption = (wordPayload payload.value).toOption :=
          wordPayload_agrees.found_eq hpayload
        rw [found_word_single words henter hname payload text, ← hunit]
        exact found_word_single words henter' rfl (Doc.sourced w) _
      · rw [found_word_other words henter hone]
        exact found_word_other words henter' (hlength ▸ hone) _
    | cut _ _ => cases hdenotes
    | absent _ => cases hdenotes

/-! ### Copied texts -/

/-- A copied text becomes the compact text of its value. -/
theorem raw : Decoder.raw.Agrees source Json.compactText :=
  fun origin origin' doc v h => by
    obtain ⟨t, htext, -, hreread⟩ := h.reread
    have hparse := hreread.parse
    have hfound : (Decoder.raw origin doc).found = some t := by
      simp only [Decoder.raw, h.skip, htext]
      rfl
    have hfound' : (Decoder.raw origin' (Doc.sourced v)).found = some v.text := by
      have hskip : (Doc.sourced v).value.skip = none := Doc.skip_ofJson v
      simp only [Decoder.raw, hskip]
      rfl
    rw [hfound, hfound', Option.map_some, Json.compactText, hparse]

/-! ### Containers -/

theorem wordPayload_eq_ok_iff {doc : Doc} : wordPayload doc = .ok () ↔ doc = .null := by
  cases doc <;> simp [wordPayload]

theorem null_iff {origin origin' : Origin} {doc : Sourced Doc} {v : Json}
    (h : doc.Matches source origin origin' v) : (Doc.sourced v).value = .null ↔ doc.value = .null := by
  have hunit : (wordPayload (Doc.sourced v).value).toOption = (wordPayload doc.value).toOption :=
    wordPayload_agrees.found_eq h
  rw [← wordPayload_eq_ok_iff, ← wordPayload_eq_ok_iff, ← Outcome.toOption_eq_some_iff,
    ← Outcome.toOption_eq_some_iff, hunit]

theorem found_option_some {d : Decoder α} {origin : Origin} {doc : Sourced Doc}
    (hnull : doc.value ≠ .null) (hcut : ∀ fault, doc.value ≠ .cut .null fault) :
    (Decoder.option d origin doc).found = (d origin doc).found.map some :=
  (congrArg Traced.found (option_eq_map hnull hcut)).trans (Traced.found_map _ _)

theorem option {d : Decoder α} {k : α → α} (h : d.Agrees source k) :
    (Decoder.option d).Agrees source (Option.map k) := fun origin origin' doc v hmatch => by
  by_cases hnull : doc.value = .null
  · have hnull' := (null_iff hmatch).mpr hnull
    simp only [Decoder.option, hnull, hnull']
    rfl
  · have hcut : ∀ fault, doc.value ≠ .cut .null fault := by
      intro fault heq
      have hdenotes := hmatch.denotes
      rw [heq] at hdenotes
      exact hdenotes
    have hcut' : ∀ fault, (Doc.sourced v).value ≠ .cut .null fault := by
      cases v <;> exact nofun
    rw [found_option_some hnull hcut, found_option_some (mt (null_iff hmatch).mp hnull) hcut',
      h hmatch, Option.map_map, Option.map_map]
    rfl

theorem items {d : Decoder α} {k : α → α} (h : d.Agrees source k) {origin origin' : Origin}
    {found : List (Sourced Doc)} {vs : List Json}
    (hitems : List.Forall₂ (Sourced.Matches source origin origin') found vs) :
    (Decoder.items d origin' none (vs.map Doc.sourced)).found =
      (Decoder.items d origin none found).found.map (List.map k) := by
  induction hitems with
  | nil => rfl
  | @cons item v rest vs hitem _ ih =>
    rw [List.map_cons, Decoder.items, Decoder.items, Traced.found_bind, Traced.found_bind, h hitem]
    simp only [Traced.found_bind, ih, Traced.found_pure]
    cases (d origin item).found with
    | none => rfl
    | some a => cases (Decoder.items d origin none rest).found <;> rfl

/-- A decoder that reads nothing but containers. -/
theorem container {d : Decoder α} {k : α → α}
    (hleaf : ∀ origin doc, doc.value.Leaf → (d origin doc).found = none)
    (harray : ∀ {origin origin' inner inner' : Origin} {items : List (Sourced Doc)}
      {vs : List Json} {text : Thunk (Option String)}, origin.enter = .ok inner →
      origin'.enter = .ok inner' → List.Forall₂ (Sourced.Matches source inner inner') items vs →
      (d origin' (Doc.sourced (.array vs))).found =
        (d origin ⟨.array items none, text⟩).found.map k)
    (hobject : ∀ {origin origin' inner inner' : Origin}
      {members : List (Token String × Sourced Doc)} {es : List (String × Json)}
      {text : Thunk (Option String)}, origin.enter = .ok inner → origin'.enter = .ok inner' →
      (es.map (·.1)).Nodup → List.Forall₂ (fun m e => m.1.reading = .ok e.1 ∧
        Sourced.Matches source inner inner' m.2 e.2) members es →
      (d origin' (Doc.sourced (.ofMembers es))).found =
        (d origin ⟨.object members none, text⟩).found.map k) :
    d.Agrees source k := fun origin origin' doc v hmatch => by
  obtain ⟨doc, text⟩ := doc
  have hnone : Doc.Leaf doc →
      (d origin' (Doc.sourced v)).found = (d origin ⟨doc, text⟩).found.map k := by
    intro hdoc
    rw [hleaf origin ⟨doc, text⟩ hdoc, hleaf origin' (Doc.sourced v) (hmatch.leaf hdoc)]
    rfl
  cases doc with
  | array items stop =>
    obtain ⟨rfl, vs, inner, inner', rfl, henter, henter', hitems⟩ := hmatch.items
    exact harray henter henter' hitems
  | object members stop =>
    obtain ⟨rfl, es, inner, inner', rfl, hkeys, henter, henter', hmembers⟩ := hmatch.members
    exact hobject henter henter' hkeys hmembers
  | _ => exact hnone trivial

theorem list {d : Decoder α} {k : α → α} (h : d.Agrees source k) :
    (Decoder.list d).Agrees source (List.map k) := by
  have hread : ∀ {origin inner : Origin} (items : List (Sourced Doc))
      (text : Thunk (Option String)), origin.enter = .ok inner →
      (Decoder.list d origin ⟨.array items none, text⟩).found =
        (Decoder.items d inner none items).found := by
    intro origin inner items text henter
    simp only [Decoder.list, henter]
    exact Traced.found_bind _ _
  refine container (fun origin doc hdoc => ?_) ?_ (fun _ _ _ _ => rfl)
  · unfold Decoder.list
    split
    · rename_i heq
      rw [heq] at hdoc
      cases hdoc
    · rfl
  · intro origin origin' inner inner' items vs text henter henter' hitems
    rw [hread items text henter, ← Agrees.items h hitems, ← Doc.ofItems_eq]
    exact hread _ _ henter'

/-! ### Dictionaries -/

/-- The members are found one by one. -/
theorem found_members {d : Decoder α} {origin : Origin}
    {members : List (Token String × Sourced Doc)} {l : List (String × Option α)}
    (h : List.Forall₂ (fun m x => m.1.reading = .ok x.1 ∧ (d origin m.2).found = x.2) members l) :
    (Decoder.members d origin none members).found = Entries.sequence l := by
  induction h with
  | nil => rfl
  | @cons m x members l hm _ ih =>
    obtain ⟨token, doc⟩ := m
    obtain ⟨n, value⟩ := x
    obtain ⟨hname, hvalue⟩ := hm
    simp only [Decoder.members, Traced.found_bind, Traced.found_liftM, ih, Traced.found_pure]
    rw [Doc.read_of_reading hname, hvalue, Entries.sequence]
    cases value with
    | none => rfl
    | some a => cases Entries.sequence l <;> rfl

/-- What is found under the names of matching objects. -/
theorem exists_found {d : Decoder α} {k : α → α} (h : d.Agrees source k) {origin origin' : Origin}
    {members : List (Token String × Sourced Doc)} {es : List (String × Json)}
    (hmembers : List.Forall₂ (fun m e => m.1.reading = .ok e.1 ∧
      Sourced.Matches source origin origin' m.2 e.2) members es) :
    ∃ l : List (String × Option α),
      List.Forall₂ (fun m x => m.1.reading = .ok x.1 ∧ (d origin m.2).found = x.2) members l ∧
      Entries.mapValues (Option.map k) l =
        Entries.mapValues (fun v => (d origin' (Doc.sourced v)).found) es := by
  induction hmembers with
  | nil => exact ⟨[], .nil, rfl⟩
  | @cons m e members es hm _ ih =>
    obtain ⟨l, hl, heq⟩ := ih
    refine ⟨(e.1, (d origin m.2).found) :: l, .cons ⟨hm.1, rfl⟩ hl, ?_⟩
    have hfirst : (d origin m.2).found.map k = (d origin' (Doc.sourced e.2)).found := (h hm.2).symm
    exact congrArg₂ List.cons (congrArg (e.1, ·) hfirst) heq

/-- No name stands twice, so the order of the members makes no difference. -/
theorem dict {d : Decoder α} {k : α → α} (h : d.Agrees source k) :
    (Decoder.dict d).Agrees source (Table.mapValues k) := by
  have hread : ∀ {origin inner : Origin} (members : List (Token String × Sourced Doc))
      (text : Thunk (Option String)), origin.enter = .ok inner →
      (Decoder.dict d origin ⟨.object members none, text⟩).found =
        (Decoder.members d inner none members).found.map Table.ofList := by
    intro origin inner members text henter
    refine (Traced.found_map _ _).trans (congrArg _ ?_)
    simp only [Decoder.entries, henter]
    exact Traced.found_bind _ _
  refine container (fun origin doc hdoc => ?_) (fun _ _ _ => rfl) ?_
  · refine (Traced.found_map _ _).trans ?_
    unfold Decoder.entries
    split
    · rename_i heq
      rw [heq] at hdoc
      cases hdoc
    · rfl
  · intro origin origin' inner inner' members es text henter henter' hkeys hmembers
    obtain ⟨l, hl, heq⟩ := exists_found h hmembers
    -- the members of the value are found one by one in the order of their names
    have hvalue : (Decoder.members d inner' none (Doc.ofMembers (Entries.ofList es))).found =
        Entries.sequence (Entries.ofList (Entries.mapValues (Option.map k) l)) := by
      rw [heq, Entries.ofList_map, Doc.ofMembers_eq]
      refine found_members (List.forall₂_map_left_iff.mpr (List.forall₂_map_right_iff.mpr ?_))
      exact List.forall₂_same.mpr fun e _ => ⟨rfl, rfl⟩
    have hkeys' : ((Entries.mapValues (Option.map k) l).map (·.1)).Nodup := by
      have hnames : (Entries.mapValues (fun v => (d inner' (Doc.sourced v)).found) es).map (·.1) =
          es.map (·.1) := List.map_map ..
      rw [heq, hnames]
      exact hkeys
    have hordered := Entries.sequence_ofList hkeys'
    rw [Entries.sequence_mapValues, ← hvalue, Option.map_map] at hordered
    refine (hread _ _ henter').trans (Eq.trans ?_ (congrArg (Option.map _) (hread _ _ henter)).symm)
    rw [found_members hl]
    refine Option.map_injective (f := Table.entries) (fun _ _ => Table.ext) ?_
    rw [Option.map_map, Option.map_map, Option.map_map]
    refine hordered.trans (congrArg (Option.map · _) (funext fun found => ?_))
    exact Entries.ofList_map k found

/-! ### Containers of what is found the same -/

theorem option_same {d : Decoder α} (h : d.Agrees source id) :
    (Decoder.option d).Agrees source id := h.option.congr Option.map_id_fun

theorem list_same {d : Decoder α} (h : d.Agrees source id) :
    (Decoder.list d).Agrees source id := h.list.congr List.map_id_fun

theorem dict_same {d : Decoder α} (h : d.Agrees source id) :
    (Decoder.dict d).Agrees source id :=
  h.dict.congr (funext fun t => Table.ext (List.map_id t.entries))

end Agrees

end Decoder

/-! ## Records -/

/-- A change of the value in each column. -/
def Row.Change : List Type → Type
  | [] => Unit
  | α :: columns => (α → α) × Change columns

/-- The row with the values changed. -/
def Row.change : {columns : List Type} → Row.Change columns → Row columns → Row columns
  | [], _, row => row
  | _ :: _, (k, ks), (value, row) => (k value, change ks row)

/-- The change that changes nothing. -/
def Row.still : (columns : List Type) → Row.Change columns
  | [] => ()
  | _ :: columns => (id, still columns)

theorem Row.change_still : ∀ {columns : List Type} (row : Row columns),
    Row.change (Row.still columns) row = row
  | [], _ => rfl
  | _ :: _, (value, row) => congrArg (value, ·) (change_still row)

namespace Fields

variable {source : List Symbol} {columns : List Type} {fields : Fields columns}
  {ks : Row.Change columns} {origin origin' : Origin}

/-- Every field agrees up to a change, which leaves its stand-in alone. -/
def Agree (source : List Symbol) : {columns : List Type} → Fields columns → Row.Change columns → Prop
  | _, .nil, _ => True
  | _, .cons field rest, (k, ks) => field.codec.decode.Agrees source k ∧
      (∀ value, field.absent? = some value → k value = value) ∧ Agree source rest ks

/-- Fields that are found by name. -/
theorem Agree.gather (h : fields.Agree source ks) {find find' : String → Option (Sourced Doc)}
    (hfind : ∀ name, Option.Rel (fun d d' => ∃ v, d.Matches source origin origin' v ∧
      d' = Doc.sourced v) (find name) (find' name)) :
    fields.gather origin' find' = (fields.gather origin find).map (Row.change ks) := by
  induction fields with
  | nil => rfl
  | cons field rest ih =>
    obtain ⟨k, ks⟩ := ks
    obtain ⟨hfield, habsent, hrest⟩ := h
    have hvalue : field.gather origin' find' = (field.gather origin find).map k := by
      unfold Field.gather
      have hname := hfind field.name
      cases hf : find field.name with
      | none =>
        rw [hf] at hname
        generalize find' field.name = found' at hname
        cases hname
        cases hstandIn : field.absent? with
        | none => rfl
        | some value => exact congrArg some (habsent value hstandIn).symm
      | some d =>
        rw [hf] at hname
        generalize find' field.name = found' at hname
        cases hname with
        | some hmatch =>
          obtain ⟨v, hmatch, rfl⟩ := hmatch
          exact hfield hmatch
    rw [Fields.gather, Fields.gather, hvalue, ih hrest]
    cases field.gather origin find with
    | none => rfl
    | some value => cases rest.gather origin find <;> rfl

theorem found_readItems_cons {α : Type} (field : Field α) (rest : Fields columns)
    (tooShort : Nat → ShapeError) (position : Nat) (item : Sourced Doc)
    (items : List (Sourced Doc)) :
    (readItems origin none tooShort position (.cons field rest) (item :: items)).found =
      (field.codec.decode origin item).found.bind fun value =>
        (readItems origin none tooShort (position + 1) rest items).found.map fun x =>
          (((value, x.1), x.2) : Row (α :: columns) × List (Sourced Doc)) := by
  rw [readItems]
  simp only [Traced.found_bind]
  refine congrArg _ (funext fun value => ?_)
  cases (readItems origin none tooShort (position + 1) rest items).found <;> rfl

theorem found_readItems_nil {α : Type} (field : Field α) (rest : Fields columns)
    (tooShort : Nat → ShapeError) (position : Nat) :
    (readItems origin none tooShort position (.cons field rest) []).found =
      field.absentItem?.bind fun value =>
        (readItems origin none tooShort (position + 1) rest []).found.map fun x =>
          (((value, x.1), x.2) : Row (α :: columns) × List (Sourced Doc)) := by
  rw [readItems]
  cases field.absentItem? with
  | none => rfl
  | some value =>
    simp only [Traced.found_bind]
    cases (readItems origin none tooShort (position + 1) rest []).found <;> rfl

/-- Fields that are found by their place. What is left over is as long. -/
theorem Agree.readItems (h : fields.Agree source ks) {tooShort : Nat → ShapeError}
    {items : List (Sourced Doc)} {vs : List Json}
    (hitems : List.Forall₂ (Sourced.Matches source origin origin') items vs) (position : Nat) :
    (fields.readItems origin' none tooShort position (vs.map Doc.sourced)).found.map
        (fun x => (x.1, x.2.length)) =
      (fields.readItems origin none tooShort position items).found.map
        fun x => (Row.change ks x.1, x.2.length) := by
  induction fields generalizing items vs position with
  | nil =>
    simp only [Fields.readItems, Traced.found_pure, Option.map_some, List.length_map,
      hitems.length_eq]
    rfl
  | @cons α columns field rest ih =>
    obtain ⟨k, ks⟩ := ks
    obtain ⟨hfield, habsent, hrest⟩ := h
    -- one value in front of the others, on both sides
    have hcons : ∀ {x x' : Option (Row columns × List (Sourced Doc))} (value : α),
        x'.map (fun x => (x.1, x.2.length)) = x.map (fun x => (Row.change ks x.1, x.2.length)) →
        (x'.map fun x => (((k value, x.1) : Row (α :: columns)), x.2.length)) =
          x.map fun x => (((k value, Row.change ks x.1) : Row (α :: columns)), x.2.length) := by
      intro x x' value hx
      have hrow := congrArg
        (Option.map fun y : Row columns × Nat => (((k value, y.1) : Row (α :: columns)), y.2)) hx
      rwa [Option.map_map, Option.map_map] at hrow
    cases hitems with
    | nil =>
      rw [List.map_nil, found_readItems_nil, found_readItems_nil]
      cases hstandIn : field.absentItem? with
      | none => rfl
      | some value =>
        have hvalue : k value = value := habsent value (Field.absent_of_absentItem hstandIn)
        have hrow := hcons value (ih hrest .nil (position + 1))
        rw [hvalue] at hrow
        rw [Option.bind_some, Option.bind_some, Option.map_map, Option.map_map]
        refine hrow.trans (congrArg (Option.map · _) (funext fun x => ?_))
        exact congrArg (fun a => (((a, Row.change ks x.1) : Row (α :: columns)), x.2.length))
          hvalue.symm
    | @cons item v items vs hitem hrestItems =>
      rw [List.map_cons, found_readItems_cons, found_readItems_cons, hfield hitem]
      cases (field.codec.decode origin item).found with
      | none => rfl
      | some value =>
        rw [Option.map_some, Option.bind_some, Option.bind_some, Option.map_map, Option.map_map]
        exact hcons value (ih hrest hrestItems (position + 1))

/-- Every field finds the same. -/
def Same (source : List Symbol) : {columns : List Type} → Fields columns → Prop
  | _, .nil => True
  | _, .cons field rest => field.codec.decode.Agrees source id ∧ Same source rest

theorem Same.agree (h : fields.Same source) : fields.Agree source (Row.still columns) := by
  induction fields with
  | nil => trivial
  | cons field rest ih => exact ⟨h.1, fun _ _ => rfl, ih h.2⟩

end Fields

namespace Record

variable {R : Type} {r : Record R} {source : List Symbol}

/-- What a record finds in an array: its fields, when nothing is left over. -/
theorem found_array {origin inner : Origin} (henter : origin.enter = .ok inner)
    (items : List (Sourced Doc)) (text : Thunk (Option String)) :
    (r.decode origin ⟨.array items none, text⟩).found =
      ((r.fields.readItems inner none r.tooShort 0 items).found.map
        fun x => (x.1, x.2.length)).bind fun x => if x.2 = 0 then some (r.ofRow x.1) else none := by
  unfold decode
  simp only [henter, Traced.found_bind, Traced.found_liftM, Outcome.toOption_ok, Option.bind_some]
  cases (r.fields.readItems inner none r.tooShort 0 items).found with
  | none => rfl
  | some x =>
    obtain ⟨row, left⟩ := x
    cases left with
    | nil => rfl
    | cons d left => cases origin <;> rfl

/-- A record agrees when its fields do, written as an object or as an array. -/
theorem agrees {k : R → R} (ks : Row.Change r.columns) (hexact : r.exact = false)
    (hnames : r.fields.names.Nodup) (h : r.fields.Agree source ks)
    (hk : ∀ row, r.ofRow (Row.change ks row) = k (r.ofRow row)) :
    r.codec.decode.Agrees source k := by
  refine Decoder.Agrees.container (fun origin doc hdoc => ?_) ?_ ?_
  · show (r.decode origin doc).found = none
    unfold decode
    split
    · rename_i heq
      rw [heq] at hdoc
      cases hdoc
    · rename_i heq
      rw [heq] at hdoc
      cases hdoc
    · rfl
  · intro origin origin' inner inner' items vs text henter henter' hitems
    refine (found_array henter' (Doc.ofItems vs) (Doc.sourced (.array vs)).text).trans ?_
    refine Eq.trans ?_ (congrArg (Option.map k) (found_array henter items text)).symm
    rw [Doc.ofItems_eq, h.readItems hitems 0]
    cases (r.fields.readItems inner none r.tooShort 0 items).found with
    | none => rfl
    | some x =>
      simp only [Option.map_some, Option.bind_some, hk]
      split <;> rfl
  · intro origin origin' inner inner' members es text henter henter' hkeys hmembers
    have hordered : ((Entries.ofList es).map (·.1)).Nodup :=
      Entries.nodup_keys_of_sorted (Entries.sorted_ofList es)
    have hfind : ∀ name, Option.Rel (fun d d' => ∃ v, d.Matches source inner inner' v ∧
        d' = Doc.sourced v) (Doc.find? name members)
          (Doc.find? name (Doc.ofMembers (Entries.ofList es))) := by
      intro name
      rw [Doc.find?_ofMembers, Entries.lookup_ofList hkeys]
      have hmatch := Doc.find?_rel hmembers name
      generalize Doc.find? name members = x at hmatch ⊢
      generalize es.lookup name = y at hmatch ⊢
      cases hmatch with
      | some hmatch => exact .some ⟨_, hmatch, rfl⟩
      | none => exact .none
    have hrow := h.gather hfind
    refine (found_object hexact hnames (Doc.byName_ofMembers hordered) origin'
      (Doc.sourced (.ofMembers es)).text).trans ?_
    refine Eq.trans ?_ (congrArg (Option.map k)
      (found_object hexact hnames (Doc.byName_of_rel hmembers hkeys fun _ _ h => h.skip) origin text)).symm
    rw [henter, henter', Outcome.toOption_ok, Outcome.toOption_ok, Option.bind_some,
      Option.bind_some, hrow, Option.map_map, Option.map_map]
    exact congrArg (Option.map · _) (funext hk)

/-- A record of which all fields find the same finds the same. -/
theorem agrees_same (hexact : r.exact = false) (hnames : r.fields.names.Nodup)
    (h : r.fields.Same source) : r.codec.decode.Agrees source id :=
  agrees _ hexact hnames h.agree fun row => congrArg r.ofRow (Row.change_still row)

end Record

end ContextProtocol
