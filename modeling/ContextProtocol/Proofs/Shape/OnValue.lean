import ContextProtocol.Proofs.Json.Recovered
import ContextProtocol.Proofs.Shape.Agree

/-!
# Decoders on values

In a value nothing is cut off and nothing is nested too deep, so what a decoder finds there is said
by the value alone: a text in a string, the fields of a record under their names.

Results:
* `Decoder.found_string`, `Decoder.found_integer`, `Decoder.found_float`, `Decoder.found_word`,
  `Decoder.found_json`: the plain decoders; `Decoder.found_json_string`: when a value is read as a
  string.
* `Decoder.found_list`: the items of an array are read one by one.
* `Decoder.get?_of_dict`: what is found in a dictionary is what is read under the name.
* `Record.found_members`: a record in an object is looked up name by name.
* `Field.gather_required`, `Field.gather_optional`: what is found under the name of a field.
-/
namespace ContextProtocol

namespace Json

/-- The text of a string. -/
def string? : Json → Option String
  | .string s => some s
  | _ => none

theorem string?_eq_some_iff {v : Json} {s : String} : v.string? = some s ↔ v = .string s := by
  cases v <;> simp [string?]

/-- The integer of a value, if it is one of 32 bits; `1.0` is none. -/
def int32? : Json → Option Int32
  | .number (.integer i _) =>
    if -0x80000000 ≤ i ∧ i ≤ 0x7FFFFFFF then some (.ofInt i) else none
  | _ => none

/-- The integer of a value, if it is one of 64 bits. -/
def int64? : Json → Option Int64
  | .number (.integer i _) =>
    if -0x8000000000000000 ≤ i ∧ i ≤ 0x7FFFFFFFFFFFFFFF then some (.ofInt i) else none
  | _ => none

/-- The number of a value; an integer is rounded to the nearest float. -/
def float? : Json → Option Float
  | .number (.integer i _) => some (Decimal.ofInt i)
  | .number (.float x _) => some x
  | _ => none

/-- A word of a list, also as an object with `null` under it. -/
def word? {α : Type} (words : List (String × α)) : Json → Option α
  | .string text => words.lookup text
  | .object [(name, .null)] => words.lookup name
  | _ => none

end Json

namespace Decoder

variable {α : Type}

theorem found_string (v : Json) : (Decoder.string.runValue v).found = v.string? := by
  cases v <;> rfl

theorem found_integer (type : String) (low high : Int) (v : Json) :
    ((Decoder.integer type low high).runValue v).found =
      match v with
      | .number (.integer i _) => if low ≤ i ∧ i ≤ high then some i else none
      | _ => none := by
  cases v with
  | number n =>
    cases n with
    | integer i inRange =>
      show Except.toOption (if low ≤ i ∧ i ≤ high then .ok i
        else Except.error (ShapeError.invalidValue (.integer i) type)) = _
      dsimp only
      split <;> rfl
    | float x finite => rfl
  | _ => rfl

theorem found_int32 (v : Json) : (Decoder.int32.runValue v).found = v.int32? := by
  refine (Traced.found_map _ _).trans ?_
  refine (congrArg _ (found_integer "i32" _ _ v)).trans ?_
  cases v with
  | number n =>
    cases n with
    | integer i inRange =>
      dsimp only [Json.int32?]
      split <;> rfl
    | float x finite => rfl
  | _ => rfl

theorem found_int64 (v : Json) : (Decoder.int64.runValue v).found = v.int64? := by
  refine (Traced.found_map _ _).trans ?_
  refine (congrArg _ (found_integer "i64" _ _ v)).trans ?_
  cases v with
  | number n =>
    cases n with
    | integer i inRange =>
      dsimp only [Json.int64?]
      split <;> rfl
    | float x finite => rfl
  | _ => rfl

theorem found_float (v : Json) : (Decoder.float.runValue v).found = v.float? := by
  cases v with
  | number n => cases n <;> rfl
  | _ => rfl

theorem found_word (words : List (String × α)) (v : Json) :
    ((Decoder.word words).runValue v).found = v.word? words := by
  have hlookup : ∀ text, (lookupWord words text).toOption = words.lookup text := by
    intro text
    unfold lookupWord
    cases words.lookup text <;> rfl
  cases v with
  | string text => exact hlookup text
  | object members =>
    match members with
    | [] => rfl
    | [(name, payload)] =>
      have hread : ((Decoder.word words).runValue (.object [(name, payload)])).found =
          (words.lookup name).bind fun value =>
            (wordPayload (Doc.sourced payload).value).toOption.map fun _ => value := by
        rw [← hlookup]
        show ((lookupWord words name) >>= fun value =>
          wordPayload (Doc.sourced payload).value >>= fun _ => .ok value).toOption = _
        rw [Outcome.toOption_bind]
        refine congrArg _ (funext fun value => ?_)
        rw [Outcome.toOption_bind]
        cases (wordPayload (Doc.sourced payload).value).toOption <;> rfl
      rw [hread]
      cases payload with
      | null =>
        rw [Json.word?]
        cases words.lookup name <;> rfl
      | _ => cases words.lookup name <;> rfl
    | (_, payload) :: (_, _) :: _ => cases payload <;> rfl
  | _ => rfl

/-- `null` is no value. -/
theorem found_option (d : Decoder α) (v : Json) : (d.option.runValue v).found =
    match v with
    | .null => some none
    | v => (d.runValue v).found.map some := by
  cases v with
  | null => rfl
  | _ => exact Traced.found_map _ _

/-- A value that does not begin objects with the reserved name is read as itself. -/
theorem found_json {v : Json} (hv : v.Canonical) (hbare : (Form.ofJson v).Bare) :
    (Decoder.json.runValue v).found = some v := by
  have hread : Json.ofDoc .value (Doc.ofForm (Form.ofJson v)) = .ok v :=
    (Json.ofDoc_eq_self_iff hv).mpr ⟨hbare, trivial⟩
  rw [Doc.ofForm_ofJson] at hread
  exact congrArg Except.toOption hread

/-- A value that does not begin with the reserved name itself is read as a string only if it is that
string. -/
theorem found_json_string {v : Json}
    (h : ∀ value rest, v ≠ .object ((Doc.embeddedName, value) :: rest)) :
    (Decoder.json.runValue v).found.bind Json.string? = v.string? := by
  cases v with
  | array items =>
    refine Option.bind_eq_none_iff.mpr fun w hw => ?_
    have hread : Json.ofDoc .value (Doc.ofJson (.array items)) = .ok w :=
      Traced.found_eq_some_iff.mp hw
    rw [Json.ofDoc, Doc.jsonWithin_eq, Doc.ofJson, Doc.json, Outcome.bind_eq_ok_iff] at hread
    obtain ⟨inner, -, hread⟩ := hread
    obtain ⟨found, -, hfound⟩ := Outcome.bind_eq_ok_iff.mp hread
    cases hfound
    rfl
  | object members =>
    cases members with
    | nil => rfl
    | cons m rest =>
      obtain ⟨name, value⟩ := m
      have hname : name ≠ Doc.embeddedName := fun heq => h value rest (heq ▸ rfl)
      refine Option.bind_eq_none_iff.mpr fun w hw => ?_
      have hread : Json.ofDoc .value (Doc.ofJson (.object ((name, value) :: rest))) = .ok w :=
        Traced.found_eq_some_iff.mp hw
      rw [Json.ofDoc, Doc.jsonWithin_eq] at hread
      obtain ⟨_, _, _, -, -, -, rfl⟩ := Doc.json_object_eq_ok hname hread
      rfl
  | _ => rfl

/-- The items of an array are read one by one. -/
theorem found_items (d : Decoder α) (items : List Json) :
    (Decoder.items d .value none (Doc.ofItems items)).found =
      items.mapM fun v => (d.runValue v).found := by
  induction items with
  | nil => rfl
  | cons v rest ih =>
    rw [Doc.ofItems, Decoder.items, Traced.found_bind, List.mapM_cons]
    simp only [Traced.found_bind, ih]
    rfl

theorem found_list (d : Decoder α) (v : Json) : ((Decoder.list d).runValue v).found =
    match v with
    | .array items => items.mapM fun v => (d.runValue v).found
    | _ => none := by
  cases v with
  | array items => exact (Traced.found_bind _ _).trans (found_items d items)
  | _ => rfl

/-- The members of an object are read one by one. -/
theorem found_dict (d : Decoder α) (members : List (String × Json)) :
    ((Decoder.dict d).runValue (.object members)).found =
      (Entries.sequence (Entries.mapValues (fun v => (d.runValue v).found) members)).map
        Table.ofList := by
  have hread : (Decoder.members d .value none (Doc.ofMembers members)).found =
      Entries.sequence (Entries.mapValues (fun v => (d.runValue v).found) members) := by
    rw [Doc.ofMembers_eq]
    refine Agrees.found_members (List.forall₂_map_left_iff.mpr (List.forall₂_map_right_iff.mpr ?_))
    exact List.forall₂_same.mpr fun e _ => ⟨rfl, rfl⟩
  rw [← hread]
  exact (Traced.found_map _ _).trans (congrArg _ (Traced.found_bind _ _))

/-- What is found in a dictionary is what is read under the name, also when a name repeats. -/
theorem get?_of_dict {d : Decoder α} {members : List (String × Json)} {found : Dict α}
    (h : ((Decoder.dict d).runValue (.object members)).result = .ok found) (name : String) :
    ((Table.ofList members).get? name).map (fun v => (d.runValue v).found) =
      (found.get? name).map some := by
  have hfound := Traced.found_eq_some_iff.mpr h
  rw [found_dict, Option.map_eq_some_iff] at hfound
  obtain ⟨entries, hentries, rfl⟩ := hfound
  have hordered := congrArg Entries.ofList (Entries.sequence_eq_some_iff.mp hentries)
  rw [Entries.ofList_map, Entries.ofList_map] at hordered
  have hlookup := congrArg (List.lookup name) hordered
  rw [Entries.lookup_mapValues, Entries.lookup_mapValues] at hlookup
  exact hlookup

end Decoder

/-- What a record finds in an object in memory. -/
theorem Record.found_members {R : Type} {r : Record R} (hexact : r.exact = false)
    (hnames : r.fields.names.Nodup) {members : List (String × Json)}
    (hkeys : (members.map (·.1)).Nodup) : (r.decode.runValue (.object members)).found =
      (r.fields.gather .value fun name => (members.lookup name).map Doc.sourced).map r.ofRow := by
  refine (found_object hexact hnames (Doc.byName_ofMembers hkeys) .value
    (Doc.sourced (.object members)).text).trans ?_
  simp only [Doc.find?_ofMembers]
  rfl

namespace Field

variable {α : Type} (members : List (String × Json))

/-- What a field finds in an object in memory. -/
theorem gather_lookup (field : Field α) :
    (field.gather .value fun name => (members.lookup name).map Doc.sourced) =
      match members.lookup field.name with
      | some v => (field.codec.decode.runValue v).found
      | none => field.absent? := by
  unfold gather
  dsimp only
  cases members.lookup field.name <;> rfl

theorem gather_required (name : String) (c : Codec α) :
    ((required name c).gather .value fun n => (members.lookup n).map Doc.sourced) =
      (members.lookup name).bind fun v => (c.decode.runValue v).found := by
  rw [gather_lookup]
  show (match members.lookup name with
    | some v => (c.decode.runValue v).found
    | none => none) = _
  cases members.lookup name <;> rfl

/-- `null` is as good as no member. -/
theorem gather_optional (name : String) (c : Codec α) :
    ((optional name c).gather .value fun n => (members.lookup n).map Doc.sourced) =
      match members.lookup name with
      | none | some .null => some none
      | some v => (c.decode.runValue v).found.map some := by
  rw [gather_lookup]
  show (match members.lookup name with
    | some v => (c.option.decode.runValue v).found
    | none => some none) = _
  cases members.lookup name with
  | none => rfl
  | some v =>
    cases v with
    | null => rfl
    | _ => exact Traced.found_map _ _

end Field

end ContextProtocol
