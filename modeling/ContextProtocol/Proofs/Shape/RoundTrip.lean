import ContextProtocol.Proofs.Json.Reading
import ContextProtocol.Message.Identifier

/-!
# Codecs that read what they write

A codec **reads** a form as a value when its decoder finds the value in the document of the form,
from a text with enough room as well as from memory. Messages are written with their members in the
order of the description and kept in memory with their members in the order of their names, so a
value makes the **round trip** when both arrangements of its form are read as the value. Some values
are read as others, such as a float without a number: they **arrive** as those.

Results:
* `RoundTrips.list`, `RoundTrips.dict`, `RoundTrips.option`: the law is lifted through the
  containers, and only the values that are there have to obey it.
* `Arrives.entries`, `Arrives.option`, `Arrives.optionalFloat`: the same for values that arrive as
  others.
* `RoundTrips.json`, `RoundTrips.raw`, `RoundTrips.word`, …: the law for the plain codecs.
* `RoundTrips.run`, `RoundTrips.runString`, `RoundTrips.runValue`: from a whole text, or from memory,
  back to the value.
-/
namespace ContextProtocol

/-- The order of the members of a form. -/
inductive Arrangement where
  /-- The order they are written in. -/
  | written
  /-- The order of their names. -/
  | byName

namespace Form

/-- The form with its members in an order. -/
def arrange : Arrangement → Form → Form
  | .written, f => f
  | .byName, f => f.sorted

theorem arrange_array (a : Arrangement) (items : List Form) :
    (Form.array items).arrange a = .array (items.map (arrange a)) := by
  cases a with
  | written => exact congrArg Form.array (List.map_id items).symm
  | byName => exact congrArg Form.array (sortedItems_eq items)

/-- Members that are in order stay where they are. -/
theorem arrange_object {members : List (String × Form)} (h : Entries.Sorted members)
    (a : Arrangement) :
    (Form.object members).arrange a = .object (Entries.mapValues (arrange a) members) := by
  cases a with
  | written => exact congrArg Form.object (List.map_id members).symm
  | byName =>
    have hsorted : Entries.ofList (sortedMembers members) = Entries.mapValues sorted members := by
      rw [sortedMembers_eq, Entries.ofList_map, Entries.ofList_of_sorted h]
    exact congrArg Form.object hsorted

end Form

namespace Codec

variable {α β : Type}

/-- The form is read as the value wherever there is room for it. -/
def Reads (c : Codec α) (f : Form) (v : α) : Prop :=
  ∀ origin : Origin, origin.Admits f.depth →
    (c.decode origin (Sourced.ofForm f)).result = .ok v

/-- What is written for the value is read as the value, with its members in any order. -/
structure RoundTrips (c : Codec α) (v : α) : Prop where
  writable : (c.encode v).Writable
  reads : ∀ a : Arrangement, c.Reads ((c.encode v).arrange a) v

/-- What is written for the value is read as another one, with its members in any order. -/
structure Arrives (c : Codec α) (v w : α) : Prop where
  writable : (c.encode v).asWritten.Writable
  reads : ∀ a : Arrangement, c.Reads ((c.encode v).arrange a) w

theorem RoundTrips.arrives {c : Codec α} {v : α} (h : c.RoundTrips v) : c.Arrives v v where
  writable := (Form.asWritten_of_writable _ h.writable).symm ▸ h.writable
  reads := h.reads

end Codec

namespace Decoder

variable {α : Type}

/-- Items are read one by one. -/
theorem items_ofForm {d : Decoder α} {g : α → Form} {origin : Origin} {vs : List α}
    (h : ∀ v ∈ vs, (d origin (Sourced.ofForm (g v))).result = .ok v) :
    (items d origin none (Doc.ofFormItems (vs.map g))).result = .ok vs := by
  induction vs with
  | nil => rfl
  | cons v vs ih =>
    have hrest := ih fun w hw => h w (List.mem_cons_of_mem _ hw)
    rw [Doc.ofFormItems_eq] at hrest ⊢
    rw [List.map_cons, List.map_cons, items, Traced.result_bind, h v List.mem_cons_self,
      Outcome.ok_bind, Traced.result_bind, hrest]
    rfl

/-- Members are read one by one. -/
theorem members_ofForm {d : Decoder α} {g : α → Form} {k : α → α} {origin : Origin}
    {es : List (String × α)}
    (h : ∀ e ∈ es, (d origin (Sourced.ofForm (g e.2))).result = .ok (k e.2)) :
    (members d origin none (Doc.ofFormMembers (Entries.mapValues g es))).result =
      .ok (Entries.mapValues k es) := by
  induction es with
  | nil => rfl
  | cons e es ih =>
    obtain ⟨name, v⟩ := e
    have hrest := ih fun w hw => h w (List.mem_cons_of_mem _ hw)
    have hfirst : (d origin (Sourced.ofForm (g v))).result = .ok (k v) :=
      h (name, v) List.mem_cons_self
    rw [Doc.ofFormMembers_eq] at hrest ⊢
    rw [Entries.mapValues, List.map_cons, List.map_cons, members, Traced.result_bind]
    have hread : (liftM (Token.sound name).read : Traced ShapeError String).result = .ok name := rfl
    rw [hread, Outcome.ok_bind, Traced.result_bind, hfirst, Outcome.ok_bind, Traced.result_bind]
    unfold Entries.mapValues at hrest
    rw [hrest]
    rfl

/-- A value that is there is read as such where it may be unset. -/
theorem option_eq_some {d : Decoder α} {origin : Origin} {doc : Sourced Doc} {v : α}
    (hnull : doc.value ≠ .null) (hcut : ∀ fault, doc.value ≠ .cut .null fault)
    (h : (d origin doc).result = .ok v) : (option d origin doc).result = .ok (some v) := by
  rw [option_eq_map hnull hcut, Traced.result_map, h]
  rfl

/-- The first variant is tried first. -/
theorem untagged_first {type : String} {d : Decoder α} {variants : List (Decoder α)}
    {origin : Origin} {doc : Sourced Doc} {v : α} (hverify : doc.value.verify origin = .ok ())
    (h : (d .value doc).result = .ok v) :
    (untagged type (d :: variants) origin doc).result = .ok v := by
  refine (Traced.result_bind _ _).trans ?_
  rw [Traced.result_liftM, hverify, Outcome.ok_bind]
  simp only [firstOf, h]

/-- The second variant is tried when the first one finds nothing. -/
theorem untagged_second {type : String} {d d' : Decoder α} {variants : List (Decoder α)}
    {origin : Origin} {doc : Sourced Doc} {v : α} (hverify : doc.value.verify origin = .ok ())
    (hfirst : ∀ w, (d .value doc).result ≠ .ok w) (h : (d' .value doc).result = .ok v) :
    (untagged type (d :: d' :: variants) origin doc).result = .ok v := by
  refine (Traced.result_bind _ _).trans ?_
  rw [Traced.result_liftM, hverify, Outcome.ok_bind]
  cases hd : (d .value doc).result with
  | ok w => exact absurd hd (hfirst w)
  | error e => simp only [firstOf, hd, h]

end Decoder

namespace Codec

variable {α β : Type}

/-- What is written for the value is no `null`. -/
def Present (c : Codec α) (v : α) : Prop :=
  ∀ a : Arrangement, Doc.ofForm ((c.encode v).arrange a) ≠ .null ∧
    ∀ fault, Doc.ofForm ((c.encode v).arrange a) ≠ .cut .null fault

/-- Values under names that are in order are read one by one. -/
theorem reads_entries {c : Codec α} {k : α → α} {es : List (String × α)}
    (hsorted : Entries.Sorted es) (a : Arrangement)
    (h : ∀ e ∈ es, c.Reads ((c.encode e.2).arrange a) (k e.2)) :
    c.entries.Reads ((c.entries.encode es).arrange a) (Entries.mapValues k es) := by
  intro origin ho
  have hkeys : ∀ {β : Type} (f : α → β), Entries.Sorted (Entries.mapValues f es) := fun f =>
    List.pairwise_map.mpr hsorted
  have hform : (c.entries.encode es).arrange a =
      .object (Entries.mapValues (fun v => (c.encode v).arrange a) es) :=
    (Form.arrange_object (hkeys c.encode) a).trans
      (congrArg Form.object (Entries.mapValues_mapValues ..))
  rw [hform] at ho ⊢
  obtain ⟨inner, henter, hinner⟩ := Origin.Admits.enter ho
  have hmembers : ∀ e ∈ es,
      (c.decode inner (Sourced.ofForm ((c.encode e.2).arrange a))).result = .ok (k e.2) := by
    intro e he
    refine h e he inner (hinner.mono ?_)
    exact Form.depthMembers_le_iff.mp (Nat.le_refl _) (e.1, (c.encode e.2).arrange a)
      (List.mem_map_of_mem (f := fun e => (e.1, (c.encode e.2).arrange a)) he)
  have hread : (c.entries.decode origin (Sourced.ofForm (.object
      (Entries.mapValues (fun v => (c.encode v).arrange a) es)))).result =
      Entries.ofList <$> (origin.enter >>= fun inner => (Decoder.members c.decode inner none
        (Doc.ofFormMembers (Entries.mapValues (fun v => (c.encode v).arrange a) es))).result) := by
    refine (Traced.result_map _ _).trans (congrArg _ ?_)
    exact Traced.result_bind _ _
  rw [hread, henter, Outcome.ok_bind, Decoder.members_ofForm hmembers]
  exact congrArg Except.ok (Entries.ofList_of_sorted (hkeys k))

namespace RoundTrips

/-! ## Containers -/

theorem list {c : Codec α} {vs : List α} (h : ∀ v ∈ vs, c.RoundTrips v) :
    c.list.RoundTrips vs where
  writable := Form.writableItems_iff.mpr fun item hitem => by
    obtain ⟨v, hv, rfl⟩ := List.mem_map.mp hitem
    exact (h v hv).writable
  reads a origin ho := by
    have hform : (c.list.encode vs).arrange a =
        .array (vs.map fun v => (c.encode v).arrange a) := by
      rw [Codec.list, Form.arrange_array, List.map_map]
      rfl
    rw [hform] at ho ⊢
    obtain ⟨inner, henter, hinner⟩ := Origin.Admits.enter ho
    have hitems : ∀ v ∈ vs, (c.decode inner (Sourced.ofForm ((c.encode v).arrange a))).result =
        .ok v := fun v hv =>
      (h v hv).reads a inner (hinner.mono
        (Form.depthItems_le_iff.mp (Nat.le_refl _) _ (List.mem_map_of_mem hv)))
    have hread : (c.list.decode origin (Sourced.ofForm
        (.array (vs.map fun v => (c.encode v).arrange a)))).result =
        (origin.enter >>= fun inner => (Decoder.items c.decode inner none (Doc.ofFormItems
          (vs.map fun v => (c.encode v).arrange a))).result) := Traced.result_bind _ _
    rw [hread, henter]
    exact Decoder.items_ofForm hitems

/-- Values under names that are in order. -/
theorem entries {c : Codec α} {es : List (String × α)} (hsorted : Entries.Sorted es)
    (h : ∀ e ∈ es, c.RoundTrips e.2) : c.entries.RoundTrips es where
  writable := Form.writableMembers_iff.mpr fun m hm => by
    obtain ⟨e, he, rfl⟩ := List.mem_map.mp hm
    exact (h e he).writable
  reads a := by
    have hreads := reads_entries (k := id) hsorted a fun e he => (h e he).reads a
    rwa [show Entries.mapValues id es = es from List.map_id es] at hreads

theorem dict {c : Codec α} {d : Dict α} (h : ∀ e ∈ d.entries, c.RoundTrips e.2) :
    c.dict.RoundTrips d where
  writable := (entries d.sorted h).writable
  reads a origin ho := by
    have hread := (entries d.sorted h).reads a origin ho
    obtain ⟨found, hfound, heq⟩ := Traced.map_eq_ok_iff.mp hread
    exact Traced.map_eq_ok_iff.mpr ⟨found, hfound, Table.ext heq⟩

/-- A value that may be unset, and is not set. -/
theorem unset (c : Codec α) : c.option.RoundTrips none where
  writable := trivial
  reads a origin _ := by cases a <;> rfl

/-- A value that may be unset, and is set. -/
theorem option {c : Codec α} {v : α} (h : c.RoundTrips v) (hpresent : c.Present v) :
    c.option.RoundTrips (some v) where
  writable := h.writable
  reads a origin ho :=
    Decoder.option_eq_some (hpresent a).1 (hpresent a).2 (h.reads a origin ho)

/-- A type that wraps another one. -/
theorem wrap {c : Codec α} {make : α → β} {get : β → α} {v : β} (hv : make (get v) = v)
    (h : c.RoundTrips (get v)) : (c.wrap make get).RoundTrips v where
  writable := h.writable
  reads a origin ho := by
    refine (Traced.result_map _ _).trans ?_
    exact (congrArg (make <$> ·) (h.reads a origin ho)).trans (congrArg Except.ok hv)

/-! ## Plain values -/

theorem string (s : String) : Codec.string.RoundTrips s where
  writable := trivial
  reads a _ _ := by cases a <;> rfl

theorem bool (b : Bool) : Codec.bool.RoundTrips b where
  writable := trivial
  reads a _ _ := by cases a <;> rfl

theorem float {x : Float} (hx : x.isFinite = true) : Codec.float.RoundTrips x where
  writable := hx
  reads a origin _ := by
    have hdoc : Sourced.ofForm ((Codec.float.encode x).arrange a) =
        ⟨.number (.sound (.float x hx)), Thunk.mk fun _ => some (Form.float x).text⟩ := by
      rw [← Doc.ofForm_float hx]
      cases a <;> rfl
    rw [hdoc]
    rfl

/-- An integer in its range is read as itself. -/
theorem integer {type : String} {low high i : Int} (hi : low ≤ i ∧ i ≤ high)
    (hrange : -0x8000000000000000 ≤ i ∧ i < 0x10000000000000000) (a : Arrangement)
    (origin : Origin) :
    (Decoder.integer type low high origin (Sourced.ofForm ((Form.integer i).arrange a))).result =
      .ok i := by
  have hdoc : Sourced.ofForm ((Form.integer i).arrange a) =
      ⟨.number (.sound (.integer i hrange)), Thunk.mk fun _ => some (Form.integer i).text⟩ := by
    rw [← Doc.ofForm_integer hrange]
    cases a <;> rfl
  have hread : (Decoder.integer type low high origin
      ⟨.number (.sound (.integer i hrange)), Thunk.mk fun _ => some (Form.integer i).text⟩).result =
      if low ≤ i ∧ i ≤ high then .ok i else .error (.invalidValue (.integer i) type) := rfl
  rw [hdoc, hread, if_pos hi]

theorem int32 (i : Int32) : Codec.int32.RoundTrips i where
  writable := by
    have := i.le_toInt
    have := i.toInt_lt
    exact ⟨by omega, by omega⟩
  reads a origin _ := by
    have hlow := i.le_toInt
    have hhigh := i.toInt_lt
    refine (Traced.result_map _ _).trans ?_
    refine (congrArg (Int32.ofInt <$> ·) (integer (i := i.toInt) ⟨by omega, by omega⟩
      ⟨by omega, by omega⟩ a origin)).trans ?_
    exact congrArg Except.ok (Int32.ofInt_toInt i)

theorem int64 (i : Int64) : Codec.int64.RoundTrips i where
  writable := by
    have := i.le_toInt
    have := i.toInt_lt
    exact ⟨by omega, by omega⟩
  reads a origin _ := by
    have hlow := i.le_toInt
    have hhigh := i.toInt_lt
    refine (Traced.result_map _ _).trans ?_
    refine (congrArg (Int64.ofInt <$> ·) (integer (i := i.toInt) ⟨by omega, by omega⟩
      ⟨by omega, by omega⟩ a origin)).trans ?_
    exact congrArg Except.ok (Int64.ofInt_toInt i)

theorem uint32 (n : UInt32) : Codec.uint32.RoundTrips n where
  writable := by
    have := n.toNat_lt
    exact ⟨by omega, by omega⟩
  reads a origin _ := by
    have hhigh := n.toNat_lt
    refine (Traced.result_map _ _).trans ?_
    refine (congrArg ((fun i : Int => UInt32.ofNat i.toNat) <$> ·)
      (integer (i := n.toNat) ⟨by omega, by omega⟩ ⟨by omega, by omega⟩ a origin)).trans ?_
    exact congrArg Except.ok UInt32.ofNat_toNat

theorem uint64 (n : UInt64) : Codec.uint64.RoundTrips n where
  writable := by
    have := n.toNat_lt
    exact ⟨by omega, by omega⟩
  reads a origin _ := by
    have hhigh := n.toNat_lt
    refine (Traced.result_map _ _).trans ?_
    refine (congrArg ((fun i : Int => UInt64.ofNat i.toNat) <$> ·)
      (integer (i := n.toNat) ⟨by omega, by omega⟩ ⟨by omega, by omega⟩ a origin)).trans ?_
    exact congrArg Except.ok UInt64.ofNat_toNat

/-- A value keeps its form in any arrangement. -/
theorem json_of_reads {v : Json} (hv : v.Canonical)
    (h : ∀ origin : Origin, origin.Admits (Form.ofJson v).depth →
      Json.ofDoc origin (Doc.ofForm (Form.ofJson v)) = .ok v) : Codec.json.RoundTrips v where
  writable := Form.writable_ofJson v
  reads a origin ho := by
    have hform : (Codec.json.encode v).arrange a = Form.ofJson v := by
      cases a with
      | written => rfl
      | byName => exact Form.sorted_ofJson v hv
    rw [hform] at ho ⊢
    exact h origin ho

/-- A value that comes back from its own text. -/
theorem json {v : Json} (h : v.Recovered) : Codec.json.RoundTrips v :=
  json_of_reads h.canonical fun _ => h.ofDoc

/-- A value without an object that begins with the reserved name, however deep it is. -/
theorem jsonBare {v : Json} (hv : v.Canonical) (h : (Form.ofJson v).Bare) :
    Codec.json.RoundTrips v :=
  json_of_reads hv fun _ ho =>
    (Json.ofDoc_ofForm (Form.writable_ofJson v) h ho).trans (Form.toJson_ofJson v hv)

/-- A payload is copied out as it was copied in. -/
theorem raw {t : String} (h : IsPayload t) : Codec.RoundTrips ⟨Form.raw, Decoder.raw⟩ t where
  writable := h
  reads a origin _ := by
    have hform : (Form.raw t).arrange a = .raw t := by cases a <;> rfl
    have htext : (Form.raw t).text = t := String.ofList_toList
    simp only [hform, Decoder.raw, Sourced.ofForm, Doc.ofForm, h.facts.skip, htext]
    rfl

/-- A word that its name leads back to. -/
theorem word [BEq α] {words : List (String × α)} {v : α} {name : String}
    (hname : words.find? (fun w => w.2 == v) = some (name, v))
    (hlookup : words.lookup name = some v) : (Codec.word words).RoundTrips v where
  writable := trivial
  reads a origin _ := by
    have hform : ((Codec.word words).encode v).arrange a = .string name := by
      have hencode : (Codec.word words).encode v = .string name :=
        congrArg (fun found : Option (String × α) => Form.string ((found.map Prod.fst).getD ""))
          hname
      rw [hencode]
      cases a <;> rfl
    rw [hform]
    cases origin <;> simp [Codec.word, Decoder.word, Decoder.ofDoc, Sourced.ofForm, Doc.ofForm,
      Token.read, Token.sound, Decoder.lookupWord, hlookup]

/-- An identifier keeps its kind. -/
theorem identifier (type : String) (id : Identifier) :
    (Identifier.codec type).RoundTrips id := by
  cases id with
  | string s =>
    refine ⟨trivial, fun a origin _ => ?_⟩
    cases a <;> rfl
  | number n =>
    have hint : (Codec.int64.encode n).Writable := (int64 n).writable
    refine ⟨hint, fun a origin _ => ?_⟩
    have hform : Form.arrange a ((Identifier.codec type).encode (.number n)) =
        (Codec.int64.encode n).arrange a := rfl
    have hread : (Decoder.int64 .value (Sourced.ofForm ((Codec.int64.encode n).arrange a))).result =
        .ok n := (int64 n).reads a .value trivial
    have hverify : (Sourced.ofForm ((Codec.int64.encode n).arrange a)).value.verify origin =
        .ok () := by
      have hdoc : (Sourced.ofForm ((Codec.int64.encode n).arrange a)).value =
          .number (.sound (.integer n.toInt hint)) := by
        rw [← Doc.ofForm_integer hint]
        cases a <;> rfl
      rw [hdoc]
      rfl
    rw [hform]
    refine Decoder.untagged_first hverify ?_
    exact (Traced.result_map _ _).trans (congrArg (Identifier.number <$> ·) hread)

/-- A type that is read as a value first and then taken out of it. -/
theorem refine {encode : α → Form} {f : Json → Traced ShapeError α} {v : α} {j : Json}
    (hwritable : (encode v).Writable) (hplain : (encode v).Plain) (hjson : (encode v).toJson = .ok j)
    (hread : (f j).result = .ok v) : Codec.RoundTrips ⟨encode, Decoder.json.refine f⟩ v where
  writable := hwritable
  reads a origin ho := by
    have hdoc : Json.ofDoc origin (Doc.ofForm ((encode v).arrange a)) = .ok j := by
      cases a with
      | written => exact (Json.ofDoc_ofForm hwritable hplain.bare ho).trans hjson
      | byName =>
        have hsorted : (encode v).arrange .byName = Form.ofJson j :=
          (Form.ofJson_eq_sorted hwritable hplain.raws hjson).symm
        have hplain' : ((encode v).arrange .byName).Plain := hplain.sorted
        have ho' : origin.Admits ((encode v).arrange .byName).depth := ho
        rw [hsorted] at hplain' ho' ⊢
        exact Json.ofDoc_plain (Form.canonical_toJson _ _ hjson) hplain' ho'
    refine (Traced.result_bind _ _).trans ?_
    have hdecode : (Decoder.json origin (Sourced.ofForm ((encode v).arrange a))).result = .ok j :=
      hdoc
    exact (congrArg (· >>= fun j => (f j).result) hdecode).trans hread

end RoundTrips

/-! ## What is no null -/

theorem present_of_object {c : Codec α} {v : α} {members : List (String × Form)}
    (h : c.encode v = .object members) : c.Present v := by
  intro a
  rw [h]
  cases a <;> exact ⟨nofun, nofun⟩

theorem present_of_string {c : Codec α} {v : α} {s : String} (h : c.encode v = .string s) :
    c.Present v := by
  intro a
  rw [h]
  cases a <;> exact ⟨nofun, nofun⟩

theorem present_bool (b : Bool) : Codec.bool.Present b := by
  intro a
  cases a <;> exact ⟨nofun, nofun⟩

theorem present_float {x : Float} (hx : x.isFinite = true) : Codec.float.Present x := by
  intro a
  have hdoc : Doc.ofForm ((Codec.float.encode x).arrange a) = .number (.sound (.float x hx)) := by
    rw [← Doc.ofForm_float hx]
    cases a <;> rfl
  rw [hdoc]
  exact ⟨nofun, nofun⟩

/-- What is written as an integer is no `null`. -/
theorem present_of_integer {c : Codec α} {v : α} {i : Int} (h : c.encode v = .integer i)
    (hi : (Form.integer i).Writable) : c.Present v := by
  intro a
  have hdoc : Doc.ofForm ((c.encode v).arrange a) = .number (.sound (.integer i hi)) := by
    rw [h, ← Doc.ofForm_integer hi]
    cases a <;> rfl
  rw [hdoc]
  exact ⟨nofun, nofun⟩

theorem present_uint64 (n : UInt64) : Codec.uint64.Present n :=
  present_of_integer rfl (RoundTrips.uint64 n).writable

/-- Every value but `null` is written as something else. -/
theorem present_json {v : Json} (h : v ≠ .null) : Codec.json.Present v := by
  intro a
  cases v with
  | null => exact absurd rfl h
  | number n =>
    have hdoc : Doc.ofForm ((Codec.json.encode (.number n)).arrange a) = .number (.sound n) := by
      have hform : (Codec.json.encode (.number n)).arrange a = Form.ofJson (.number n) := by
        cases n <;> cases a <;> rfl
      rw [hform, Doc.ofForm_ofJson]
      rfl
    rw [hdoc]
    exact ⟨nofun, nofun⟩
  | _ => cases a <;> exact ⟨nofun, nofun⟩

theorem present_identifier (type : String) (id : Identifier) :
    (Identifier.codec type).Present id := by
  intro a
  cases id with
  | string s => cases a <;> exact ⟨nofun, nofun⟩
  | number n => exact present_of_integer rfl (RoundTrips.int64 n).writable a

/-! ## Values that arrive as others -/

namespace Arrives

/-- Values under names that are in order arrive one by one. -/
theorem entries {c : Codec α} {k : α → α} {es : List (String × α)} (hsorted : Entries.Sorted es)
    (h : ∀ e ∈ es, c.Arrives e.2 (k e.2)) : c.entries.Arrives es (Entries.mapValues k es) where
  writable := Form.writable_asWritten_object.mpr fun m hm => by
    obtain ⟨e, he, rfl⟩ := List.mem_map.mp hm
    exact (h e he).writable
  reads a := reads_entries hsorted a fun e he => (h e he).reads a

theorem option {c : Codec α} {v w : α} (h : c.Arrives v w) (hpresent : c.Present v) :
    c.option.Arrives (some v) (some w) where
  writable := h.writable
  reads a origin ho :=
    Decoder.option_eq_some (hpresent a).1 (hpresent a).2 (h.reads a origin ho)

/-- A float that may be unset is unset on arrival when it is not finite. -/
theorem optionalFloat (x : Option Float) :
    Codec.float.option.Arrives x (x.filter Float.isFinite) := by
  cases x with
  | none => exact (RoundTrips.unset Codec.float).arrives
  | some x =>
    by_cases hx : x.isFinite = true
    · rw [Option.filter_some_pos hx]
      exact ((RoundTrips.float hx).option (present_float hx)).arrives
    · rw [Option.filter_some_neg (Bool.eq_false_iff.mpr hx)]
      have hnull : Form.asWritten (.float x) = .null := if_neg hx
      have hdoc : Doc.ofForm (.float x) = .null := by rw [← Doc.ofForm_asWritten, hnull, Doc.ofForm]
      refine ⟨hnull ▸ trivial, fun a origin _ => ?_⟩
      have hform : (Codec.float.option.encode (some x)).arrange a = .float x := by cases a <;> rfl
      rw [hform, Sourced.ofForm, hdoc]
      rfl

end Arrives

/-! ## Whole texts -/

/-- From the bytes of the text of a value to the value that arrives. -/
theorem Arrives.run {c : Codec α} {v w : α} (h : c.Arrives v w)
    (hdepth : (c.encode v).depth ≤ Origin.maxDepth) :
    (c.decode.run (c.encode v).text.toUTF8).result = .ok w := by
  have ho : Origin.Admits (.text Origin.maxDepth) (c.encode v).depth := hdepth
  refine Decoder.runDocument_eq_ok_iff.mpr ?_
  rw [Document.ofBytes_asWritten h.writable]
  exact ⟨h.reads .written _ ho, rfl⟩

namespace RoundTrips

/-- From the text of a value back to the value. -/
theorem runString {c : Codec α} {v : α} (h : c.RoundTrips v)
    (hdepth : (c.encode v).depth ≤ Origin.maxDepth) :
    (c.decode.runString (c.encode v).text).result = .ok v := by
  have ho : Origin.Admits (.text Origin.maxDepth) (c.encode v).depth := hdepth
  refine Decoder.runDocument_eq_ok_iff.mpr ?_
  rw [Document.ofString_text h.writable]
  exact ⟨h.reads .written _ ho, rfl⟩

/-- From the bytes of the text of a value back to the value. -/
theorem run {c : Codec α} {v : α} (h : c.RoundTrips v)
    (hdepth : (c.encode v).depth ≤ Origin.maxDepth) :
    (c.decode.run (c.encode v).text.toUTF8).result = .ok v := h.arrives.run hdepth

/-- From the value in memory back to the value, however deep it is. -/
theorem runValue {c : Codec α} {v : α} (h : c.RoundTrips v) (hraws : (c.encode v).raws = [])
    {j : Json} (hj : (c.encode v).toJson = .ok j) : (c.decode.runValue j).result = .ok v := by
  rw [Decoder.runValue, Doc.sourced_eq, Form.ofJson_eq_sorted h.writable hraws hj]
  exact h.reads .byName .value trivial

end RoundTrips

end Codec

end ContextProtocol
