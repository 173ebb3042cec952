import ContextProtocol.Proofs.Json.Reading

/-!
# Forms that read alike

Two forms are alike when they have the same text and are read as the same document: no reader can
tell the value of a payload from its compact text. Bringing members into order keeps forms alike, so
payloads may be replaced by their values wherever they stand.

Results:
* `Alike.payload`: the compact text of a value as a payload is like the value.
* `alike_mapRaw_sorted`: forms whose payloads are replaced by forms that are alike are alike.
-/
namespace ContextProtocol

/-- The forms have the same text and are read as the same document, and the first one is no
deeper. -/
structure Alike (f g : Form) : Prop where
  doc : Doc.ofForm f = Doc.ofForm g
  chars : f.chars = g.chars
  depth : f.depth ≤ g.depth

namespace Alike

theorem refl (f : Form) : Alike f f := ⟨rfl, rfl, Nat.le_refl _⟩

theorem sourced {f g : Form} (h : Alike f g) : Sourced.ofForm f = Sourced.ofForm g := by
  have htext : f.text = g.text := congrArg String.ofList h.chars
  rw [Sourced.ofForm, Sourced.ofForm, h.doc, htext]

variable {α : Type} {a b : α → Form}

/-- Items that are alike one by one make arrays that are alike. -/
theorem array {items : List α} (h : ∀ x ∈ items, Alike (a x) (b x)) :
    Alike (.array (items.map a)) (.array (items.map b)) := by
  have hitems : ∀ x ∈ items, Sourced.ofForm (a x) = Sourced.ofForm (b x) :=
    fun x hx => (h x hx).sourced
  have hrest : Form.restChars (items.map a) = Form.restChars (items.map b) := by
    induction items with
    | nil => rfl
    | cons x rest ih =>
      rw [List.forall_mem_cons] at h hitems
      rw [List.map_cons, List.map_cons, Form.restChars, Form.restChars, h.1.chars, ih h.2 hitems.2]
  refine ⟨?_, ?_, ?_⟩
  · rw [Doc.ofForm, Doc.ofForm, Doc.ofFormItems_eq, Doc.ofFormItems_eq, List.map_map, List.map_map]
    exact congrArg (Doc.array · none) (List.map_congr_left hitems)
  · cases items with
    | nil => rfl
    | cons x rest => exact congrArg (fun cs => '[' :: cs.tail) hrest
  · refine Nat.succ_le_succ (Form.depthItems_le_iff.mpr fun f hf => ?_)
    obtain ⟨x, hx, rfl⟩ := List.mem_map.mp hf
    refine Nat.le_trans (h x hx).depth ?_
    exact Form.depthItems_le_iff.mp (Nat.le_refl _) _ (List.mem_map_of_mem hx)

/-- Values that are alike one by one make objects that are alike. -/
theorem object {members : List (String × α)} (h : ∀ m ∈ members, Alike (a m.2) (b m.2)) :
    Alike (.object (Entries.mapValues a members)) (.object (Entries.mapValues b members)) := by
  have hmembers : ∀ m ∈ members, Sourced.ofForm (a m.2) = Sourced.ofForm (b m.2) :=
    fun m hm => (h m hm).sourced
  have hrest : Form.memberChars (Entries.mapValues a members) =
      Form.memberChars (Entries.mapValues b members) := by
    induction members with
    | nil => rfl
    | cons m rest ih =>
      rw [List.forall_mem_cons] at h hmembers
      have hchars := h.1.chars
      have hrest := ih h.2 hmembers.2
      unfold Entries.mapValues at hrest ⊢
      rw [List.map_cons, List.map_cons, Form.memberChars, Form.memberChars, hchars, hrest]
  refine ⟨?_, ?_, ?_⟩
  · rw [Doc.ofForm, Doc.ofForm, Doc.ofFormMembers_eq, Doc.ofFormMembers_eq, Entries.mapValues,
      Entries.mapValues, List.map_map, List.map_map]
    refine congrArg (Doc.object · none) (List.map_congr_left fun m hm => ?_)
    exact congrArg (Prod.mk (Token.sound m.1)) (hmembers m hm)
  · cases members with
    | nil => rfl
    | cons m rest => exact congrArg (fun cs => '\x7b' :: cs.tail) hrest
  · refine Nat.succ_le_succ (Form.depthMembers_le_iff.mpr fun f hf => ?_)
    obtain ⟨m, hm, rfl⟩ := List.mem_map.mp hf
    refine Nat.le_trans (h m hm).depth ?_
    exact Form.depthMembers_le_iff.mp (Nat.le_refl _) (m.1, b m.2)
      (List.mem_map_of_mem (f := fun m => (m.1, b m.2)) hm)

/-- The compact text of a value, copied as a payload, is like the value. -/
theorem payload (v : Json) : Alike (.raw v.text) (Form.ofJson v) := by
  refine ⟨?_, String.toList_ofList, Nat.zero_le _⟩
  rw [Doc.ofForm, Json.text, Document.ofString_text (Form.writable_ofJson v)]
  rfl

end Alike

/-! ## Payloads in the place of payloads -/

namespace Form

variable {g g' : String → Form}

mutual

/-- Forms whose payloads are replaced by forms that are alike are alike. -/
theorem alike_mapRaw_sorted : ∀ f : Form, (∀ t ∈ f.raws, Alike (g t).sorted (g' t).sorted) →
    Alike (f.mapRaw g).sorted (f.mapRaw g').sorted
  | .null, _ | .bool _, _ | .integer _, _ | .float _, _ | .string _, _ => .refl _
  | .array items, h => by
    have hitems := Alike.array (alike_mapRawItems_sorted items h)
    rw [mapRaw, mapRaw, sorted, sorted, mapRawItems_eq, mapRawItems_eq, sortedItems_eq,
      sortedItems_eq, List.map_map, List.map_map]
    exact hitems
  | .object members, h => by
    have hmembers : ∀ m ∈ Entries.ofList members,
        Alike (m.2.mapRaw g).sorted (m.2.mapRaw g').sorted := fun m hm =>
      alike_mapRawMembers_sorted members h m (Entries.mem_ofList hm)
    have hobject := Alike.object (a := fun f => (mapRaw g f).sorted)
      (b := fun f => (mapRaw g' f).sorted) hmembers
    rw [← Entries.ofList_map, ← Entries.ofList_map] at hobject
    rw [mapRaw, mapRaw, sorted, sorted, mapRawMembers_eq, mapRawMembers_eq, sortedMembers_eq,
      sortedMembers_eq, Entries.mapValues_mapValues, Entries.mapValues_mapValues]
    exact hobject
  | .raw t, h => h t (List.mem_singleton_self t)

theorem alike_mapRawItems_sorted : ∀ items : List Form,
    (∀ t ∈ rawsItems items, Alike (g t).sorted (g' t).sorted) →
    ∀ f ∈ items, Alike (f.mapRaw g).sorted (f.mapRaw g').sorted
  | [], _, f, hf => absurd hf List.not_mem_nil
  | item :: rest, h, f, hf => by
    rcases List.mem_cons.mp hf with heq | hf
    · rw [heq]
      exact alike_mapRaw_sorted item fun t ht => h t (List.mem_append_left _ ht)
    · exact alike_mapRawItems_sorted rest (fun t ht => h t (List.mem_append_right _ ht)) f hf

theorem alike_mapRawMembers_sorted : ∀ members : List (String × Form),
    (∀ t ∈ rawsMembers members, Alike (g t).sorted (g' t).sorted) →
    ∀ m ∈ members, Alike (m.2.mapRaw g).sorted (m.2.mapRaw g').sorted
  | [], _, m, hm => absurd hm List.not_mem_nil
  | (name, f) :: rest, h, m, hm => by
    rcases List.mem_cons.mp hm with heq | hm
    · rw [heq]
      exact alike_mapRaw_sorted f fun t ht => h t (List.mem_append_left _ ht)
    · exact alike_mapRawMembers_sorted rest (fun t ht => h t (List.mem_append_right _ ht)) m hm

end

end Form

end ContextProtocol
