import ContextProtocol.Proofs.Json.Denotes
import Mathlib.Data.List.Forall2

/-!
# A text and its value, side by side

A message can be read from a text or from the value that the text writes. The two documents differ
in the order of the members, in the spelling of numbers and names and in the texts they cite, and
the two readers may have different room. `Sourced.Matches` relates what stands at the same place of
both, and descends with the readers.

Results:
* `Sourced.Matches.items`, `Sourced.Matches.members`: the parts of matching containers match.
* `Sourced.Matches.reread`: the text that is cited is a text of the same value.
-/
namespace ContextProtocol

/-- Neither an array nor an object. -/
def Doc.Leaf : Doc → Prop
  | .array .. | .object .. => False
  | .null | .bool _ | .number _ | .string _ | .cut .. | .absent _ => True

/-- A document of a source and the value it denotes, with room for both where they are read. -/
structure Sourced.Matches (source : List Symbol) (origin origin' : Origin) (d : Sourced Doc)
    (v : Json) : Prop where
  denotes : d.value.Denotes v
  cited : d.value.Cited source
  cites : d.Cites source
  recovered : v.Recovered
  room : origin.Admits d.value.depth
  room' : origin'.Admits (Form.ofJson v).depth

/-- The source is a text of the value, with nothing behind it. -/
structure Document.Writes (source : List Symbol) (v : Json) : Prop where
  root : (ofSymbols source).root.Matches source (.text Origin.maxDepth) (.text Origin.maxDepth) v
  trailing : (ofSymbols source).trailing = none

namespace Sourced.Matches

variable {source : List Symbol} {origin origin' : Origin} {d : Sourced Doc} {v : Json}

theorem skip (h : d.Matches source origin origin' v) : d.value.skip = none :=
  Doc.skip_of_sound d.value h.cited h.denotes.sound

/-- The value reads the same document from its own text. -/
theorem json (h : d.Matches source origin origin' v) : Json.ofDoc origin d.value = .ok v :=
  Json.ofDoc_of_denotes h.denotes h.room

theorem json' (h : d.Matches source origin origin' v) : Json.ofDoc origin' (Doc.ofJson v) = .ok v :=
  Doc.ofForm_ofJson v ▸ h.recovered.ofDoc h.room'

theorem verify' (h : d.Matches source origin origin' v) :
    (Doc.ofJson v).verify origin' = .ok () := by
  have hroom : origin'.Admits (Form.ofJson v).depth := h.room'
  rw [← Doc.ofForm_ofJson]
  exact Doc.verify_ofForm _ (Form.writable_ofJson v) (Form.raws_ofJson v) _ hroom

/-- The text that is cited is a text of the same value. -/
theorem reread (h : d.Matches source origin origin' v) : ∃ t, d.text.get = some t ∧
    Symbol.ofString t <:+: source ∧ Document.Writes (Symbol.ofString t) v := by
  obtain ⟨t, htext, hwithin, hpayload, hvalue⟩ := h.cites h.denotes.sound
  have hcited := Document.cited (Symbol.ofString t)
  have hdepth : d.value.depth ≤ Origin.maxDepth :=
    Nat.le_trans h.denotes.depth_le h.recovered.depth
  exact ⟨t, htext, hwithin, ⟨hvalue ▸ h.denotes, hcited.1, hcited.2, h.recovered, hvalue ▸ hdepth,
    h.recovered.depth⟩, (Decoder.runDocument_eq_ok_iff.mp hpayload).2⟩

/-- What is no container is the document of no container. -/
theorem leaf (h : d.Matches source origin origin' v) (hleaf : d.value.Leaf) :
    (Doc.ofJson v).Leaf := by
  obtain ⟨doc, text⟩ := d
  have hdenotes := h.denotes
  cases doc with
  | null =>
    obtain rfl : v = .null := hdenotes
    trivial
  | bool b =>
    obtain rfl : v = .bool b := hdenotes
    trivial
  | number token =>
    obtain ⟨n, -, rfl⟩ := hdenotes
    trivial
  | string token =>
    obtain ⟨s, -, rfl⟩ := hdenotes
    trivial
  | array items stop => cases hleaf
  | object members stop => cases hleaf
  | cut _ _ => cases hdenotes
  | absent _ => cases hdenotes

/-! ## Containers -/

theorem items_of {inner inner' : Origin} {items : List (Sourced Doc)} {vs : List Json}
    (hdenote : Doc.DenoteItems items vs) (hcited : Doc.CitedItems source items)
    (hrecovered : ∀ v ∈ vs, v.Recovered) (hroom : inner.Admits (Doc.depthItems items))
    (hroom' : inner'.Admits (Form.depthItems (Form.ofItems vs))) :
    List.Forall₂ (Matches source inner inner') items vs := by
  induction items generalizing vs with
  | nil =>
    obtain rfl : vs = [] := hdenote
    exact .nil
  | cons item rest ih =>
    obtain ⟨v, more, rfl, hitem, hrest⟩ := hdenote
    obtain ⟨⟨hitemCited, hitemCites⟩, hrestCited⟩ := hcited
    obtain ⟨hv, hmore⟩ := List.forall_mem_cons.mp hrecovered
    obtain ⟨hitemRoom, hrestRoom⟩ := Origin.admits_max.mp hroom
    obtain ⟨hvRoom, hmoreRoom⟩ := Origin.admits_max.mp hroom'
    exact .cons ⟨hitem, hitemCited, hitemCites, hv, hitemRoom, hvRoom⟩
      (ih hrest hrestCited hmore hrestRoom hmoreRoom)

/-- The items of matching arrays match. -/
theorem items {items : List (Sourced Doc)} {stop : Option Fault} {text : Thunk (Option String)}
    (h : Matches source origin origin' ⟨.array items stop, text⟩ v) :
    stop = none ∧ ∃ vs inner inner', v = .array vs ∧ origin.enter = .ok inner ∧
      origin'.enter = .ok inner' ∧ List.Forall₂ (Matches source inner inner') items vs := by
  obtain ⟨rfl, vs, rfl, hdenote⟩ := h.denotes
  obtain ⟨inner, henter, hroom⟩ := h.room.enter
  obtain ⟨inner', henter', hroom'⟩ := h.room'.enter
  exact ⟨rfl, vs, inner, inner', rfl, henter, henter',
    items_of hdenote h.cited (fun v hv => h.recovered.item hv) hroom hroom'⟩

theorem members_of {inner inner' : Origin} {members : List (Token String × Sourced Doc)}
    {es : List (String × Json)} (hdenote : Doc.DenoteMembers members es)
    (hcited : Doc.CitedMembers source members) (hrecovered : ∀ e ∈ es, e.2.Recovered)
    (hroom : inner.Admits (Doc.depthMembers members))
    (hroom' : ∀ e ∈ es, inner'.Admits (Form.ofJson e.2).depth) :
    List.Forall₂ (fun m e => m.1.reading = .ok e.1 ∧ Matches source inner inner' m.2 e.2)
      members es := by
  induction members generalizing es with
  | nil =>
    obtain rfl : es = [] := hdenote
    exact .nil
  | cons m rest ih =>
    obtain ⟨n, v, more, rfl, hname, hvalue, hrest⟩ := hdenote
    obtain ⟨⟨-, hvalueCited, hvalueCites⟩, hrestCited⟩ := hcited
    obtain ⟨hv, hmore⟩ := List.forall_mem_cons.mp hrecovered
    obtain ⟨hvalueRoom, hrestRoom⟩ := Origin.admits_max.mp hroom
    obtain ⟨hvRoom, hmoreRoom⟩ := List.forall_mem_cons.mp hroom'
    exact .cons ⟨hname, hvalue, hvalueCited, hvalueCites, hv, hvalueRoom, hvRoom⟩
      (ih hrest hrestCited hmore hrestRoom hmoreRoom)

/-- The members of matching objects match, though the value has them in the order of their names. -/
theorem members {members : List (Token String × Sourced Doc)} {stop : Option Fault}
    {text : Thunk (Option String)}
    (h : Matches source origin origin' ⟨.object members stop, text⟩ v) :
    stop = none ∧ ∃ es inner inner', v = .ofMembers es ∧ (es.map (·.1)).Nodup ∧
      origin.enter = .ok inner ∧ origin'.enter = .ok inner' ∧
      List.Forall₂ (fun m e => m.1.reading = .ok e.1 ∧ Matches source inner inner' m.2 e.2)
        members es := by
  obtain ⟨rfl, es, rfl, hdenote, hkeys, -⟩ := h.denotes
  obtain ⟨inner, henter, hroom⟩ := h.room.enter
  obtain ⟨inner', henter', hroom'⟩ := h.room'.enter
  refine ⟨rfl, es, inner, inner', rfl, hkeys, henter, henter', members_of hdenote h.cited ?_ hroom ?_⟩
  · exact fun e he => h.recovered.member ((Entries.mem_ofList_iff hkeys).mpr he)
  · intro e he
    refine hroom'.mono (Form.depthMembers_le_iff.mp (Nat.le_refl _) (e.1, Form.ofJson e.2) ?_)
    rw [Form.ofMembers_eq]
    exact List.mem_map_of_mem (f := fun e => (e.1, Form.ofJson e.2))
      ((Entries.mem_ofList_iff hkeys).mpr he)

end Sourced.Matches

namespace Document.Writes

variable {v : Json}

/-- A text that is read as a value is a text of the value, unless one of its objects repeats a name
or begins with the reserved one. -/
theorem of_parseBytes {bytes : ByteArray} (h : Json.parseBytes bytes = .ok v)
    (hdistinct : (ofBytes bytes).root.value.Each Doc.NamesDistinct)
    (hitself : (ofBytes bytes).root.value.Each Doc.StandsForItself) (hv : v.Recovered) :
    Writes (Symbol.ofBytes bytes) v := by
  obtain ⟨hread, htrailing⟩ := Decoder.runDocument_eq_ok_iff.mp h
  obtain ⟨hdenotes, hroom⟩ := Json.denotes_of_ofDoc hread hdistinct hitself
  have hcited := Document.cited (Symbol.ofBytes bytes)
  exact ⟨⟨hdenotes, hcited.1, hcited.2, hv, hroom, hv.depth⟩, htrailing⟩

theorem parse {t : String} (h : Writes (Symbol.ofString t) v) : Json.parse t = .ok v :=
  Decoder.runDocument_eq_ok_iff.mpr ⟨h.root.json, h.trailing⟩

end Document.Writes

end ContextProtocol
