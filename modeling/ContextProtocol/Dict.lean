/-!
# Values under keys

Objects, property lists, capability tables and registries keep their values under distinct keys, in
the order of the keys. Names are ordered by code point, which is also the order of their UTF-8
bytes.

* `KeyOrder`: a strict total order on keys;
* `Entries`: operations on association lists that keep the order (`sorted_insert`);
* `Table`: such a list with the order in its type, and `Dict`, a table under names;
* `lookup_insert_self`, `lookup_insert_of_ne`: an insertion is seen under its own key only.
-/
namespace ContextProtocol

/-- A strict total order. -/
class KeyOrder (κ : Type) where
  lt : κ → κ → Bool
  trans : ∀ {a b c : κ}, lt a b → lt b c → lt a c
  total : ∀ {a b : κ}, a ≠ b → lt a b = false → lt b a
  irrefl : ∀ a : κ, lt a a = false

theorem string_lt_of_not_lt {a b : String} (hne : a ≠ b) (h : ¬ a < b) : b < a := by
  rcases String.le_total a b with h' | h'
  · exact absurd (String.not_le.1 fun h'' => hne (String.le_antisymm h' h'')) h
  · exact String.not_le.1 fun h'' => hne (String.le_antisymm h'' h')

instance : KeyOrder String where
  lt a b := decide (a < b)
  trans h h' := by simpa using String.lt_trans (by simpa using h) (by simpa using h')
  total hne h := by simpa using string_lt_of_not_lt hne (by simpa using h)
  irrefl a := by simp

instance : KeyOrder Int32 where
  lt a b := decide (a.toInt < b.toInt)
  trans h h' := by simp at *; omega
  total hne h := by
    have := fun h => hne (Int32.toInt_inj.1 h)
    simp at *
    omega
  irrefl a := by simp

/-- Pairs are ordered by their first component and then by their second. -/
instance {κ κ' : Type} [DecidableEq κ] [KeyOrder κ] [KeyOrder κ'] : KeyOrder (κ × κ') where
  lt a b := KeyOrder.lt a.1 b.1 || (a.1 == b.1 && KeyOrder.lt a.2 b.2)
  trans := by
    rintro ⟨a, a'⟩ ⟨b, b'⟩ ⟨c, c'⟩ h h'
    simp only [Bool.or_eq_true, Bool.and_eq_true, beq_iff_eq] at *
    rcases h with h | ⟨rfl, h⟩ <;> rcases h' with h' | ⟨rfl, h'⟩
    · exact .inl (KeyOrder.trans h h')
    · exact .inl h
    · exact .inl h'
    · exact .inr ⟨rfl, KeyOrder.trans h h'⟩
  total := by
    rintro ⟨a, a'⟩ ⟨b, b'⟩ hne h
    simp only [Bool.or_eq_false_iff, Bool.or_eq_true, Bool.and_eq_true, beq_iff_eq] at *
    by_cases hab : a = b
    · subst hab
      have : a' ≠ b' := fun h => hne (by rw [h])
      exact .inr ⟨rfl, KeyOrder.total this (by simpa using h.2)⟩
    · exact .inl (KeyOrder.total hab h.1)
  irrefl a := by simp [KeyOrder.irrefl]

namespace Entries

variable {κ α : Type} [DecidableEq κ] [KeyOrder κ]

/-- The keys ascend strictly. -/
def Sorted (entries : List (κ × α)) : Prop := entries.Pairwise fun a b => KeyOrder.lt a.1 b.1

/-- Puts a value under a key, in the place of the value it replaces. -/
def insert (key : κ) (value : α) : List (κ × α) → List (κ × α)
  | [] => [(key, value)]
  | (k, v) :: rest =>
    if key = k then (key, value) :: rest
    else if KeyOrder.lt key k then (key, value) :: (k, v) :: rest
    else (k, v) :: insert key value rest

/-- The entries in the order of the keys; of two under one key the later one stays. -/
def ofList (entries : List (κ × α)) : List (κ × α) :=
  entries.foldl (fun acc e => insert e.1 e.2 acc) []

theorem mem_insert {key : κ} {value : α} {entries : List (κ × α)} {e : κ × α}
    (h : e ∈ insert key value entries) : e = (key, value) ∨ e ∈ entries := by
  induction entries with
  | nil => simpa [insert] using h
  | cons d rest ih =>
    obtain ⟨k, v⟩ := d
    simp only [insert] at h
    split at h
    · simp only [List.mem_cons] at h ⊢
      rcases h with h | h <;> simp [h]
    · split at h
      · simpa using h
      · simp only [List.mem_cons] at h ⊢
        rcases h with h | h
        · simp [h]
        · rcases ih h with h | h <;> simp [h]

theorem sorted_insert {key : κ} {value : α} {entries : List (κ × α)}
    (h : Sorted entries) : Sorted (insert key value entries) := by
  induction entries with
  | nil => simp [insert, Sorted]
  | cons d rest ih =>
    obtain ⟨k, v⟩ := d
    simp only [Sorted, List.pairwise_cons] at h
    simp only [insert]
    split
    · rename_i hk
      subst hk
      simpa [Sorted] using h
    · rename_i hne
      split
      · rename_i hlt
        simp only [Sorted, List.pairwise_cons, List.mem_cons]
        refine ⟨?_, h.1, h.2⟩
        rintro e (rfl | he)
        · exact hlt
        · exact KeyOrder.trans hlt (h.1 e he)
      · rename_i hge
        simp only [Sorted, List.pairwise_cons]
        refine ⟨?_, ih h.2⟩
        intro e he
        rcases mem_insert he with rfl | he
        · exact KeyOrder.total hne (by simpa using hge)
        · exact h.1 e he

theorem sorted_ofList (entries : List (κ × α)) : Sorted (ofList entries) := by
  unfold ofList
  suffices ∀ acc, Sorted acc →
      Sorted (entries.foldl (fun acc e => insert e.1 e.2 acc) acc) from this [] List.Pairwise.nil
  induction entries with
  | nil => intro acc h; exact h
  | cons e rest ih => intro acc h; exact ih _ (sorted_insert h)

@[simp] theorem lookup_insert_self (key : κ) (value : α) (entries : List (κ × α)) :
    (insert key value entries).lookup key = some value := by
  induction entries with
  | nil => simp [insert]
  | cons d rest ih =>
    obtain ⟨k, v⟩ := d
    simp only [insert]
    split
    · simp
    · rename_i hne
      split
      · simp
      · have : (key == k) = false := by simpa using hne
        simpa [List.lookup_cons, this] using ih

theorem lookup_insert_of_ne {key other : κ} (h : other ≠ key) (value : α)
    (entries : List (κ × α)) :
    (insert key value entries).lookup other = entries.lookup other := by
  have hb : (other == key) = false := by simpa using h
  induction entries with
  | nil => simp [insert, List.lookup_cons, hb]
  | cons d rest ih =>
    obtain ⟨k, v⟩ := d
    simp only [insert]
    split
    · rename_i hk
      subst hk
      simp [List.lookup_cons, hb]
    · split
      · simp [List.lookup_cons, hb]
      · simp [List.lookup_cons, ih]

end Entries

/-- Values under distinct keys, in the order of the keys. -/
structure Table (κ α : Type) [DecidableEq κ] [KeyOrder κ] where
  entries : List (κ × α)
  sorted : Entries.Sorted entries

/-- Values under names. -/
abbrev Dict (α : Type) := Table String α

namespace Table

variable {κ α : Type} [DecidableEq κ] [KeyOrder κ]

def empty : Table κ α := ⟨[], List.Pairwise.nil⟩

instance : Inhabited (Table κ α) := ⟨empty⟩

instance [BEq α] : BEq (Table κ α) := ⟨fun a b => a.entries == b.entries⟩

/-- Puts a value under a key, replacing the one that is there. -/
def insert (t : Table κ α) (key : κ) (value : α) : Table κ α :=
  ⟨Entries.insert key value t.entries, Entries.sorted_insert t.sorted⟩

/-- The later of two entries under one key stays. -/
def ofList (entries : List (κ × α)) : Table κ α :=
  ⟨Entries.ofList entries, Entries.sorted_ofList entries⟩

def get? (t : Table κ α) (key : κ) : Option α := t.entries.lookup key

def contains (t : Table κ α) (key : κ) : Bool := (t.get? key).isSome

def isEmpty (t : Table κ α) : Bool := t.entries.isEmpty

/-- The keys, ascending. -/
def keys (t : Table κ α) : List κ := t.entries.map (·.1)

/-- The table without the value under a key. -/
def erase (t : Table κ α) (key : κ) : Table κ α :=
  ⟨t.entries.filter fun e => e.1 ≠ key, t.sorted.filter _⟩

@[ext] theorem ext {a b : Table κ α} (h : a.entries = b.entries) : a = b := by
  cases a; cases b; simpa using h

@[simp] theorem get?_insert_self (t : Table κ α) (key : κ) (value : α) :
    (t.insert key value).get? key = some value := Entries.lookup_insert_self ..

theorem get?_insert_of_ne (t : Table κ α) {key other : κ} (h : other ≠ key) (value : α) :
    (t.insert key value).get? other = t.get? other := Entries.lookup_insert_of_ne h ..

end Table

end ContextProtocol
