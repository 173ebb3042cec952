import ContextProtocol.Proofs.Shape.RecordTrip

/-!
# Sparse forms

What is unset is left out. A member would be **idle** that says no more than its absence does: one
with `null`, or one of the lists, maps, marks and texts that are left out when there is nothing in
them. A form is sparse when no object in it has an idle member.

Results:
* `Form.Sparse.sorted`: order does not matter.
* `Record.neat`: a record is sparse when what its fields write is, and no deeper than one level more.
* `Form.fits_text`, `Field.fits_optional`, `Field.fits_listed`, …: what each kind of field writes.
-/
namespace ContextProtocol

namespace Form

/-- The member says what its absence says: `null` under any name, and nothing under the name of a
field that is left out then. A float that is not finite is written as `null`. -/
def Idle (name : String) : Form → Bool
  | .null => true
  | .float x => !x.isFinite
  | .array [] => name == "audience" || name == "arguments" || name == "hints"
  | .object [] => name == "experimental"
  | .bool false => name == "isError"
  | .string s => name == "details" && s.isEmpty
  | _ => false

mutual

/-- No object inside has an idle member. -/
def Sparse : Form → Prop
  | .array items => SparseItems items
  | .object members => SparseMembers members
  | _ => True

def SparseItems : List Form → Prop
  | [] => True
  | item :: rest => Sparse item ∧ SparseItems rest

def SparseMembers : List (String × Form) → Prop
  | [] => True
  | (name, value) :: rest => (value.Idle name = false ∧ Sparse value) ∧ SparseMembers rest

end

theorem sparseItems_iff {items : List Form} : SparseItems items ↔ ∀ item ∈ items, item.Sparse := by
  induction items with
  | nil => exact iff_of_true trivial (List.forall_mem_nil _)
  | cons item rest ih => rw [SparseItems, ih, List.forall_mem_cons]

theorem sparseMembers_iff {members : List (String × Form)} :
    SparseMembers members ↔ ∀ m ∈ members, m.2.Idle m.1 = false ∧ m.2.Sparse := by
  induction members with
  | nil => exact iff_of_true trivial (List.forall_mem_nil _)
  | cons m rest ih => rw [SparseMembers, ih, List.forall_mem_cons]

/-- In another order, a member is as idle as before. -/
theorem idle_sorted (name : String) (f : Form) : f.sorted.Idle name = f.Idle name := by
  cases f with
  | array items => cases items <;> rfl
  | object members =>
    cases members with
    | nil => rfl
    | cons m rest =>
      have hne : Entries.ofList (sortedMembers (m :: rest)) ≠ [] := by
        rw [sortedMembers_eq]
        exact Entries.ofList_ne_nil (List.cons_ne_nil _ _)
      obtain ⟨m', rest', hcons⟩ := List.exists_cons_of_ne_nil hne
      rw [sorted, hcons]
      rfl
  | _ => rfl

mutual

theorem Sparse.sorted : ∀ {f : Form}, f.Sparse → f.sorted.Sparse
  | .array items, h => show SparseItems (sortedItems items) from SparseItems.sorted h
  | .object members, h => by
    have hsorted : SparseMembers (sortedMembers members) := SparseMembers.sorted h
    have hmembers := sparseMembers_iff.mp hsorted
    exact sparseMembers_iff.mpr fun m hm => hmembers m (Entries.mem_ofList hm)
  | .null, _ | .bool _, _ | .integer _, _ | .float _, _ | .string _, _ | .raw _, _ => trivial

theorem SparseItems.sorted : ∀ {items : List Form}, SparseItems items →
    SparseItems (sortedItems items)
  | [], _ => trivial
  | _ :: _, h => ⟨h.1.sorted, SparseItems.sorted h.2⟩

theorem SparseMembers.sorted : ∀ {members : List (String × Form)}, SparseMembers members →
    SparseMembers (sortedMembers members)
  | [], _ => trivial
  | (name, f) :: _, h => ⟨⟨(idle_sorted name f).trans h.1.1, h.1.2.sorted⟩, SparseMembers.sorted h.2⟩

end

/-- The form is sparse and nests at most so many levels. -/
def Neat (n : Nat) (f : Form) : Prop := f.Sparse ∧ f.depth ≤ n

/-- The form may be written under the name. -/
def Fits (n : Nat) (name : String) (f : Form) : Prop := f.Idle name = false ∧ f.Neat n

theorem Neat.mono {m n : Nat} {f : Form} (h : f.Neat m) (hmn : m ≤ n) : f.Neat n :=
  ⟨h.1, Nat.le_trans h.2 hmn⟩

theorem Fits.mono {m n : Nat} {name : String} {f : Form} (h : f.Fits m name) (hmn : m ≤ n) :
    f.Fits n name :=
  ⟨h.1, h.2.mono hmn⟩

theorem neat_object {n : Nat} {members : List (String × Form)}
    (h : ∀ m ∈ members, m.2.Fits n m.1) : (Form.object members).Neat (n + 1) :=
  ⟨sparseMembers_iff.mpr fun m hm => ⟨(h m hm).1, (h m hm).2.1⟩,
    Nat.succ_le_succ (depthMembers_le_iff.mpr fun m hm => (h m hm).2.2)⟩

/-- What stands in an object fits. -/
theorem Neat.fits_member {n : Nat} {members : List (String × Form)}
    (h : (Form.object members).Neat (n + 1)) {m : String × Form} (hm : m ∈ members) :
    m.2.Fits n m.1 := by
  obtain ⟨hidle, hsparse⟩ := sparseMembers_iff.mp h.1 m hm
  exact ⟨hidle, hsparse, depthMembers_le_iff.mp (Nat.le_of_succ_le_succ h.2) m hm⟩

theorem neat_array {n : Nat} {items : List Form} (h : ∀ item ∈ items, item.Neat n) :
    (Form.array items).Neat (n + 1) :=
  ⟨sparseItems_iff.mpr fun item hitem => (h item hitem).1,
    Nat.succ_le_succ (depthItems_le_iff.mpr fun item hitem => (h item hitem).2)⟩

theorem Neat.sorted {n : Nat} {f : Form} (h : f.Neat n) : f.sorted.Neat n :=
  ⟨h.1.sorted, Nat.le_trans (depth_sorted_le f) h.2⟩

/-- A text may stand under most names, whatever it is. -/
theorem fits_text {n : Nat} {name s : String} (h : name ≠ "details") :
    (Form.string s).Fits n name := by
  refine ⟨?_, trivial, Nat.zero_le _⟩
  show (name == "details" && s.isEmpty) = false
  rw [beq_eq_false_iff_ne.mpr h]
  rfl

/-- A list may stand under most names, whatever is in it. -/
theorem fits_items {α : Type} {n : Nat} {name : String} {c : Codec α} {vs : List α}
    (hname : name ∉ ["audience", "arguments", "hints"]) (h : ∀ v ∈ vs, (c.encode v).Neat n) :
    (c.list.encode vs).Fits (n + 1) name := by
  refine ⟨?_, neat_array fun item hitem => ?_⟩
  · cases vs with
    | nil => simpa [Codec.list, Idle, not_or, and_assoc] using hname
    | cons v rest => rfl
  · obtain ⟨v, hv, rfl⟩ := List.mem_map.mp hitem
    exact h v hv

/-- So may an object. -/
theorem fits_object {n : Nat} {name : String} {f : Form} {members : List (String × Form)}
    (hf : f = .object members) (hname : name ≠ "experimental") (h : f.Neat n) : f.Fits n name := by
  refine ⟨?_, h⟩
  subst hf
  cases members with
  | nil => exact beq_eq_false_iff_ne.mpr hname
  | cons m rest => rfl

end Form

open Form in
/-- A record is neat when whatever its fields write fits. -/
theorem Record.neat {R : Type} {r : Record R} {v : R} {n : Nat}
    (h : r.fields.Written (fun name f => f.Fits n name) (r.toRow v)) :
    (r.codec.encode v).Neat (n + 1) :=
  neat_object h.members

namespace Fields

/-- The names of the fields of a row, and whether they are left out. -/
def marks : {columns : List Type} → Fields columns → Row columns → List (String × Bool)
  | _, .nil, _ => []
  | _, .cons field rest, (value, row) => (field.name, field.omitted value) :: marks rest row

/-- The members of a row are the fields that are not left out. -/
theorem map_fst_encode {columns : List Type} (fields : Fields columns) (row : Row columns) :
    (fields.encode row).map (·.1) =
      ((fields.marks row).filter fun field => !field.2).map (·.1) := by
  induction fields with
  | nil => rfl
  | cons field rest ih =>
    obtain ⟨value, row⟩ := row
    rw [encode, marks]
    cases homit : field.omitted value with
    | true => simpa [homit] using ih row
    | false => simpa [homit] using ih row

end Fields

namespace Field

variable {α : Type} {n : Nat} {name : String}

/-- A value that may be unset is written only when it is set. -/
theorem fits_optional {c : Codec α} {v : Option α}
    (h : ∀ x, v = some x → (c.encode x).Fits n name)
    (hw : (optional name c).omitted v = false) :
    ((optional name c).codec.encode v).Fits n name :=
  written_optional (P := fun f => f.Fits n name) h hw

theorem fits_optionalText {s : Option String} (hname : name ≠ "details")
    (hw : (optional name .string).omitted s = false) :
    ((optional name .string).codec.encode s).Fits n name :=
  fits_optional (fun _ _ => Form.fits_text hname) hw

theorem fits_optionalFloat {x : Option Float} (h : ∀ y, x = some y → y.isFinite = true)
    (hw : (optional name .float).omitted x = false) :
    ((optional name .float).codec.encode x).Fits n name :=
  fits_optional (fun y hy => ⟨(congrArg not (h y hy)).trans rfl, trivial, Nat.zero_le _⟩) hw

theorem fits_optionalBool {b : Option Bool} (hname : name ≠ "isError")
    (hw : (optional name .bool).omitted b = false) :
    ((optional name .bool).codec.encode b).Fits n name := by
  refine fits_optional (fun c _ => ⟨?_, trivial, Nat.zero_le _⟩) hw
  cases c with
  | true => rfl
  | false => exact beq_eq_false_iff_ne.mpr hname

/-- A list that is written has items. -/
theorem fits_listed {c : Codec α} {vs : List α} (h : ∀ v ∈ vs, (c.encode v).Neat n)
    (hw : (listed name c).omitted vs = false) :
    ((listed name c).codec.encode vs).Fits (n + 1) name := by
  refine ⟨?_, Form.neat_array fun item hitem => ?_⟩
  · cases vs with
    | nil => cases hw
    | cons v rest => rfl
  · obtain ⟨v, hv, rfl⟩ := List.mem_map.mp hitem
    exact h v hv

/-- There is something in a map that is written. -/
theorem fits_named {c : Codec α} {d : Dict α} (h : ∀ v name', (c.encode v).Fits n name')
    (hw : (named name c).omitted d = false) :
    ((named name c).codec.encode d).Fits (n + 1) name := by
  refine ⟨?_, Form.neat_object fun m hm => ?_⟩
  · obtain ⟨entries, sorted⟩ := d
    cases entries with
    | nil => cases hw
    | cons e rest => rfl
  · obtain ⟨e, he, rfl⟩ := List.mem_map.mp hm
    exact h e.2 e.1

/-- A mark that is written is set. -/
theorem fits_flag {b : Bool} (hw : (flag name).omitted b = false) :
    ((flag name).codec.encode b).Fits n name := by
  cases b with
  | false => cases hw
  | true => exact ⟨rfl, trivial, Nat.zero_le _⟩

end Field

end ContextProtocol
