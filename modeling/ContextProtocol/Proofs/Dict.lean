import ContextProtocol.Dict

/-!
# Entries in order

Bringing entries into the order of their keys looks at the keys alone. Entries that are in order
stay as they are, and entries with distinct keys are neither lost nor changed.

Results:
* `ofList_of_sorted`: entries in order stay as they are.
* `ofList_map`: a change of the values commutes with bringing the entries into order.
* `mem_ofList`, `mem_ofList_iff`: no entry appears, and with distinct keys none is lost.
* `lookup_ofList_eq_last`: under a key stands the last value that was put there.
* `lookup_of_mem`: with distinct keys, every entry is found under its key.
* `sequence_ofList`: entries with distinct keys are found in any order.
* `eq_of_sorted`: lists in order with the same entries are the same.
* `Table.eq_of_get?`: a table is what is found in it. Insertions under different keys commute
  (`Table.insert_comm`), and of two under one key the later one stays (`Table.insert_insert`).
-/
namespace ContextProtocol

namespace Entries

variable {κ α β : Type} [DecidableEq κ] [KeyOrder κ]

/-- The values replaced one by one, under the same keys. -/
def mapValues (f : α → β) (entries : List (κ × α)) : List (κ × β) :=
  entries.map fun e => (e.1, f e.2)

omit [DecidableEq κ] [KeyOrder κ] in
theorem mapValues_mapValues {γ : Type} (f : β → γ) (g : α → β) (entries : List (κ × α)) :
    mapValues f (mapValues g entries) = mapValues (fun x => f (g x)) entries :=
  List.map_map ..

omit [DecidableEq κ] [KeyOrder κ] in
theorem mapValues_eq_self_iff {f : α → α} {entries : List (κ × α)} :
    mapValues f entries = entries ↔ ∀ e ∈ entries, f e.2 = e.2 := by
  induction entries with
  | nil => exact iff_of_true rfl nofun
  | cons e rest ih =>
    unfold mapValues at *
    rw [List.map_cons, List.cons.injEq, ih, List.forall_mem_cons]
    simp [Prod.ext_iff]

theorem insert_mapValues (f : α → β) (key : κ) (value : α) (entries : List (κ × α)) :
    insert key (f value) (mapValues f entries) = mapValues f (insert key value entries) := by
  induction entries with
  | nil => rfl
  | cons e rest ih =>
    obtain ⟨k, v⟩ := e
    unfold mapValues at *
    rw [List.map_cons, insert, insert]
    by_cases hk : key = k
    · rw [if_pos hk, if_pos hk]
      rfl
    · rw [if_neg hk, if_neg hk]
      cases hlt : KeyOrder.lt key k with
      | true => rfl
      | false =>
        rw [if_neg Bool.false_ne_true, if_neg Bool.false_ne_true, List.map_cons, ih]

omit [KeyOrder κ] in
theorem lookup_mapValues (f : α → β) (entries : List (κ × α)) (key : κ) :
    (mapValues f entries).lookup key = (entries.lookup key).map f := by
  induction entries with
  | nil => rfl
  | cons e rest ih =>
    unfold mapValues at *
    rw [List.map_cons, List.lookup_cons, List.lookup_cons, ih]
    cases key == e.1 <;> rfl

/-- Bringing entries into order looks at the keys alone. -/
theorem ofList_map (f : α → β) (entries : List (κ × α)) :
    ofList (mapValues f entries) = mapValues f (ofList entries) := by
  have hfold : ∀ acc : List (κ × α),
      (mapValues f entries).foldl (fun acc e => insert e.1 e.2 acc) (mapValues f acc) =
        mapValues f (entries.foldl (fun acc e => insert e.1 e.2 acc) acc) := by
    induction entries with
    | nil => intro acc; rfl
    | cons e rest ih =>
      intro acc
      have hinsert : insert e.1 (f e.2) (mapValues f acc) = mapValues f (insert e.1 e.2 acc) :=
        insert_mapValues f e.1 e.2 acc
      have := ih (insert e.1 e.2 acc)
      rw [← hinsert] at this
      exact this
  exact hfold []

/-- An entry behind all others is appended. -/
theorem insert_of_last {key : κ} {value : α} {entries : List (κ × α)}
    (h : ∀ e ∈ entries, KeyOrder.lt e.1 key = true) :
    insert key value entries = entries ++ [(key, value)] := by
  induction entries with
  | nil => rfl
  | cons e rest ih =>
    obtain ⟨k, v⟩ := e
    have hk : KeyOrder.lt k key = true := h (k, v) List.mem_cons_self
    have hne : key ≠ k := by
      rintro rfl
      rw [KeyOrder.irrefl] at hk
      cases hk
    have hge : ¬ KeyOrder.lt key k = true := by
      intro hlt
      have := KeyOrder.trans hk hlt
      rw [KeyOrder.irrefl] at this
      cases this
    rw [insert, if_neg hne, if_neg hge, ih fun e he => h e (List.mem_cons_of_mem _ he)]
    rfl

/-- Where a value is put depends on its key alone. -/
theorem exists_insert_eq (key : κ) (entries : List (κ × α)) :
    ∃ before after, ∀ value, insert key value entries = before ++ (key, value) :: after := by
  induction entries with
  | nil => exact ⟨[], [], fun value => rfl⟩
  | cons e rest ih =>
    obtain ⟨k, v⟩ := e
    by_cases hkey : key = k
    · exact ⟨[], rest, fun value => if_pos hkey⟩
    · by_cases hlt : KeyOrder.lt key k = true
      · exact ⟨[], (k, v) :: rest, fun value => (if_neg hkey).trans (if_pos hlt)⟩
      · obtain ⟨before, after, h⟩ := ih
        refine ⟨(k, v) :: before, after, fun value => ?_⟩
        exact (if_neg hkey).trans ((if_neg hlt).trans (congrArg ((k, v) :: ·) (h value)))

/-- Entries in order stay as they are. -/
theorem ofList_of_sorted {entries : List (κ × α)} (h : Sorted entries) :
    ofList entries = entries := by
  have hfold : ∀ acc : List (κ × α), Sorted (acc ++ entries) →
      entries.foldl (fun acc e => insert e.1 e.2 acc) acc = acc ++ entries := by
    clear h
    induction entries with
    | nil => intro acc _; exact (List.append_nil acc).symm
    | cons e rest ih =>
      intro acc hacc
      have hlast : ∀ d ∈ acc, KeyOrder.lt d.1 e.1 = true := fun d hd =>
        (List.pairwise_append.mp hacc).2.2 d hd e List.mem_cons_self
      have happ : insert e.1 e.2 acc = acc ++ [e] := insert_of_last hlast
      rw [List.foldl_cons, happ, ih (acc ++ [e]) (by rw [List.append_assoc]; exact hacc),
        List.append_assoc]
      rfl
  exact hfold [] h

theorem mem_insert_of_ne {key : κ} {value : α} {entries : List (κ × α)} {e : κ × α}
    (h : e ∈ entries) (hne : e.1 ≠ key) : e ∈ insert key value entries := by
  induction entries with
  | nil => cases h
  | cons d rest ih =>
    obtain ⟨k, v⟩ := d
    rw [insert]
    split
    · rename_i hk
      rcases List.mem_cons.mp h with rfl | h
      · exact absurd hk.symm hne
      · exact List.mem_cons_of_mem _ h
    · split
      · exact List.mem_cons_of_mem _ h
      · rcases List.mem_cons.mp h with rfl | h
        · exact List.mem_cons_self
        · exact List.mem_cons_of_mem _ (ih h)

theorem mem_insert_self (key : κ) (value : α) (entries : List (κ × α)) :
    (key, value) ∈ insert key value entries := by
  induction entries with
  | nil => exact List.mem_cons_self
  | cons d rest ih =>
    obtain ⟨k, v⟩ := d
    rw [insert]
    split
    · exact List.mem_cons_self
    · split
      · exact List.mem_cons_self
      · exact List.mem_cons_of_mem _ ih

theorem ofList_ne_nil {entries : List (κ × α)} (h : entries ≠ []) : ofList entries ≠ [] := by
  obtain ⟨first, last, rfl⟩ := (List.eq_nil_or_concat entries).resolve_left h
  rw [ofList, List.concat_eq_append, List.foldl_append]
  exact List.ne_nil_of_mem (mem_insert_self ..)

/-- No entry appears. -/
theorem mem_ofList {entries : List (κ × α)} {e : κ × α} (h : e ∈ ofList entries) :
    e ∈ entries := by
  have hfold : ∀ acc : List (κ × α),
      e ∈ entries.foldl (fun acc e => insert e.1 e.2 acc) acc → e ∈ acc ∨ e ∈ entries := by
    clear h
    induction entries with
    | nil => intro acc h; exact .inl h
    | cons d rest ih =>
      intro acc h
      rcases ih _ h with h | h
      · rcases mem_insert h with rfl | h
        · exact .inr List.mem_cons_self
        · exact .inl h
      · exact .inr (List.mem_cons_of_mem _ h)
  exact (hfold [] h).elim (fun h => nomatch h) id

/-- With distinct keys, no entry is lost. -/
theorem mem_ofList_iff {entries : List (κ × α)} (hkeys : (entries.map (·.1)).Nodup) {e : κ × α} :
    e ∈ ofList entries ↔ e ∈ entries := by
  refine ⟨mem_ofList, fun h => ?_⟩
  have hfold : ∀ acc : List (κ × α), (e ∈ acc ∧ e.1 ∉ entries.map (·.1)) ∨ e ∈ entries →
      e ∈ entries.foldl (fun acc e => insert e.1 e.2 acc) acc := by
    clear h
    induction entries with
    | nil =>
      intro acc h
      rcases h with ⟨h, -⟩ | h
      · exact h
      · cases h
    | cons d rest ih =>
      intro acc h
      rw [List.map_cons, List.nodup_cons] at hkeys
      refine ih hkeys.2 _ ?_
      rcases h with ⟨hacc, hnew⟩ | h
      · rw [List.map_cons, List.mem_cons, not_or] at hnew
        exact .inl ⟨mem_insert_of_ne hacc hnew.1, hnew.2⟩
      · rcases List.mem_cons.mp h with rfl | h
        · exact .inl ⟨mem_insert_self .., hkeys.1⟩
        · exact .inr h
  exact hfold [] (.inr h)

omit [DecidableEq κ] in
theorem nodup_keys_of_sorted {entries : List (κ × α)} (h : Sorted entries) :
    (entries.map (·.1)).Nodup := by
  rw [List.nodup_iff_pairwise_ne, List.pairwise_map]
  refine List.Pairwise.imp (fun {a b} hab heq => ?_) h
  rw [heq, KeyOrder.irrefl] at hab
  cases hab

omit [DecidableEq κ] in
/-- The order looks at the keys alone. -/
theorem sorted_of_keys {entries : List (κ × α)} {others : List (κ × β)}
    (hkeys : entries.map (·.1) = others.map (·.1)) (h : Sorted others) : Sorted entries := by
  have hmap : List.Pairwise (fun a b => KeyOrder.lt a b = true) (entries.map (·.1)) := by
    rw [hkeys]
    exact List.pairwise_map.mpr h
  exact List.pairwise_map.mp hmap

/-- With distinct keys, the value under the key of an entry is the value of that entry. -/
theorem lookup_of_mem {κ α : Type} [DecidableEq κ] {entries : List (κ × α)}
    (hkeys : (entries.map (·.1)).Nodup) {key : κ} {value : α} (h : (key, value) ∈ entries) :
    entries.lookup key = some value := by
  induction entries with
  | nil => cases h
  | cons d rest ih =>
    obtain ⟨k, v⟩ := d
    rw [List.map_cons, List.nodup_cons] at hkeys
    rcases List.mem_cons.mp h with heq | hrest
    · cases heq
      exact List.lookup_cons_self
    · have hne : key ≠ k := by
        rintro rfl
        exact hkeys.1 (List.mem_map_of_mem (f := (·.1)) hrest)
      have hb : (key == k) = false := beq_eq_false_iff_ne.mpr hne
      rw [List.lookup_cons, hb]
      exact ih hkeys.2 hrest

theorem mem_of_lookup {κ α : Type} [DecidableEq κ] {entries : List (κ × α)} {key : κ} {value : α}
    (h : entries.lookup key = some value) : (key, value) ∈ entries := by
  induction entries with
  | nil => cases h
  | cons d rest ih =>
    obtain ⟨k, v⟩ := d
    rw [List.lookup_cons] at h
    by_cases hk : key = k
    · rw [beq_iff_eq.mpr hk] at h
      cases h
      exact hk ▸ List.mem_cons_self
    · rw [beq_eq_false_iff_ne.mpr hk] at h
      exact List.mem_cons_of_mem _ (ih h)

omit [DecidableEq κ] in
theorem Sorted.lt_of_mem {e d : κ × α} {entries : List (κ × α)} (h : Sorted (e :: entries))
    (hd : d ∈ entries) : KeyOrder.lt e.1 d.1 = true :=
  (List.pairwise_cons.mp h).1 d hd

omit [DecidableEq κ] in
/-- Lists in order with the same entries are the same. -/
theorem eq_of_sorted {entries others : List (κ × α)} (h : Sorted entries) (h' : Sorted others)
    (hmem : ∀ e, e ∈ entries ↔ e ∈ others) : entries = others := by
  induction entries generalizing others with
  | nil =>
    cases others with
    | nil => rfl
    | cons d rest => exact absurd ((hmem d).mpr List.mem_cons_self) List.not_mem_nil
  | cons e rest ih =>
    cases others with
    | nil => exact absurd ((hmem e).mp List.mem_cons_self) List.not_mem_nil
    | cons d others =>
      have hirrefl : ∀ {a b : κ × α}, KeyOrder.lt a.1 b.1 = true → ¬ KeyOrder.lt b.1 a.1 = true := by
        intro a b hab hba
        have := KeyOrder.trans hab hba
        rw [KeyOrder.irrefl] at this
        cases this
      -- the first entries are the least ones on both sides
      obtain rfl : e = d := by
        rcases List.mem_cons.mp ((hmem e).mp List.mem_cons_self) with heq | he
        · exact heq
        · rcases List.mem_cons.mp ((hmem d).mpr List.mem_cons_self) with heq | hd
          · exact heq.symm
          · exact absurd (h.lt_of_mem hd) (hirrefl (h'.lt_of_mem he))
      refine congrArg (e :: ·) (ih (List.pairwise_cons.mp h).2 (List.pairwise_cons.mp h').2 ?_)
      intro x
      constructor
      · intro hx
        rcases List.mem_cons.mp ((hmem x).mp (List.mem_cons_of_mem _ hx)) with rfl | hx'
        · exact absurd (h.lt_of_mem hx) (hirrefl (h.lt_of_mem hx))
        · exact hx'
      · intro hx
        rcases List.mem_cons.mp ((hmem x).mpr (List.mem_cons_of_mem _ hx)) with rfl | hx'
        · exact absurd (h'.lt_of_mem hx) (hirrefl (h'.lt_of_mem hx))
        · exact hx'

/-- A key under which nothing stands is not among the keys. -/
theorem lookup_eq_none_iff {κ α : Type} [DecidableEq κ] {entries : List (κ × α)} {key : κ} :
    entries.lookup key = none ↔ key ∉ entries.map (·.1) := by
  rw [List.lookup_eq_none_iff, List.mem_map, not_exists]
  constructor
  · rintro h e ⟨he, rfl⟩
    exact absurd (h e he) (by simp)
  · intro h e he
    rw [bne_iff_ne]
    rintro rfl
    exact h e ⟨he, rfl⟩

/-! ### Found entries -/

/-- The entries of which all values were found. -/
def sequence : List (κ × Option α) → Option (List (κ × α))
  | [] => some []
  | (key, value) :: rest => value.bind fun v => (sequence rest).map fun found => (key, v) :: found

omit [DecidableEq κ] [KeyOrder κ] in
theorem sequence_eq_some_iff {l : List (κ × Option α)} {found : List (κ × α)} :
    sequence l = some found ↔ l = mapValues some found := by
  induction l generalizing found with
  | nil => cases found <;> simp [sequence, mapValues]
  | cons e rest ih =>
    obtain ⟨key, value⟩ := e
    cases value with
    | none => cases found <;> simp [sequence, mapValues]
    | some v =>
      cases found with
      | nil => simp [sequence, mapValues]
      | cons f found =>
        have hrest : sequence rest = some found ↔ rest = mapValues some found := ih
        unfold mapValues at hrest
        simp only [sequence, mapValues, Option.bind_some, Option.map_eq_some_iff, List.map_cons,
          List.cons.injEq, Prod.ext_iff, Option.some.injEq, ← hrest]
        constructor
        · rintro ⟨more, hmore, ⟨rfl, rfl⟩, rfl⟩
          exact ⟨⟨rfl, rfl⟩, hmore⟩
        · rintro ⟨⟨rfl, rfl⟩, hmore⟩
          exact ⟨found, hmore, ⟨rfl, rfl⟩, rfl⟩

omit [DecidableEq κ] [KeyOrder κ] in
theorem sequence_eq_none_iff {l : List (κ × Option α)} :
    sequence l = none ↔ ∃ key, (key, none) ∈ l := by
  induction l with
  | nil => simp [sequence]
  | cons e rest ih =>
    obtain ⟨key, value⟩ := e
    cases value with
    | none => simp [sequence]
    | some v => simp [sequence, ih]

omit [DecidableEq κ] [KeyOrder κ] in
theorem sequence_mapValues (f : α → β) (l : List (κ × Option α)) :
    sequence (mapValues (Option.map f) l) = (sequence l).map (mapValues f) := by
  induction l with
  | nil => rfl
  | cons e rest ih =>
    obtain ⟨key, value⟩ := e
    unfold mapValues at *
    rw [List.map_cons, sequence, sequence, ih]
    cases value with
    | none => rfl
    | some v => cases sequence rest <;> rfl

/-- With distinct keys, it makes no difference whether the entries are brought into order before or
after their values are found. -/
theorem sequence_ofList {l : List (κ × Option α)}
    (hkeys : (l.map (·.1)).Nodup) :
    (sequence (ofList l)).map ofList = (sequence l).map ofList := by
  cases hl : sequence l with
  | none =>
    obtain ⟨key, hmem⟩ := sequence_eq_none_iff.mp hl
    rw [sequence_eq_none_iff.mpr ⟨key, (mem_ofList_iff hkeys).mpr hmem⟩]
  | some found =>
    have hordered : sequence (ofList l) = some (ofList found) := by
      rw [sequence_eq_some_iff, sequence_eq_some_iff.mp hl, ofList_map]
    rw [hordered, Option.map_some, Option.map_some, ofList_of_sorted (sorted_ofList found)]

/-- With distinct keys, entries are only rearranged. -/
theorem perm_ofList {entries : List (κ × α)}
    (hkeys : (entries.map (·.1)).Nodup) : (ofList entries).Perm entries := by
  have hnodup : ∀ {l : List (κ × α)}, (l.map (·.1)).Nodup → l.Nodup := fun h =>
    List.Pairwise.of_map (·.1) (fun _ _ hne heq => hne (congrArg (·.1) heq)) h
  have hordered := hnodup (nodup_keys_of_sorted (sorted_ofList entries))
  exact (List.perm_ext_iff_of_nodup hordered (hnodup hkeys)).mpr fun _ => mem_ofList_iff hkeys

/-- The value under a key is the last one that was put there. -/
theorem lookup_ofList_eq_last (entries : List (κ × α)) (key : κ) :
    (ofList entries).lookup key =
      (entries.filterMap fun e => if e.1 = key then some e.2 else none).getLast? := by
  have hfold : ∀ acc : List (κ × α),
      (entries.foldl (fun acc e => insert e.1 e.2 acc) acc).lookup key =
        (entries.filterMap fun e => if e.1 = key then some e.2 else none).getLast?.or
          (acc.lookup key) := by
    induction entries with
    | nil => intro acc; rfl
    | cons e rest ih =>
      intro acc
      rw [List.foldl_cons, ih]
      by_cases hkey : e.1 = key
      · subst hkey
        simp [List.getLast?_cons]
      · rw [lookup_insert_of_ne (Ne.symm hkey)]
        simp [hkey]
  rw [ofList, hfold, List.lookup_nil, Option.or_none]

theorem lookup_ofList {entries : List (κ × α)}
    (hkeys : (entries.map (·.1)).Nodup) (key : κ) :
    (ofList entries).lookup key = entries.lookup key := by
  have hordered : ((ofList entries).map (·.1)).Nodup := nodup_keys_of_sorted (sorted_ofList entries)
  cases h : entries.lookup key with
  | some value => exact lookup_of_mem hordered ((mem_ofList_iff hkeys).mpr (mem_of_lookup h))
  | none =>
    rw [lookup_eq_none_iff] at h ⊢
    intro hmem
    obtain ⟨e, he, rfl⟩ := List.mem_map.mp hmem
    exact h (List.mem_map_of_mem ((mem_ofList_iff hkeys).mp he))

end Entries

namespace Table

variable {κ α β : Type} [DecidableEq κ] [KeyOrder κ]

/-- The values of a table replaced one by one. -/
def mapValues (f : α → β) (t : Table κ α) : Table κ β :=
  ⟨Entries.mapValues f t.entries, List.pairwise_map.mpr t.sorted⟩

theorem mem_entries_iff {t : Table κ α} {key : κ} {value : α} :
    (key, value) ∈ t.entries ↔ t.get? key = some value :=
  ⟨Entries.lookup_of_mem (Entries.nodup_keys_of_sorted t.sorted), Entries.mem_of_lookup⟩

theorem contains_iff_mem_keys {t : Table κ α} {key : κ} :
    t.contains key = true ↔ key ∈ t.keys := by
  rw [contains, Option.isSome_iff_ne_none, get?, ne_eq, Entries.lookup_eq_none_iff, Classical.not_not]
  rfl

/-- A table is what is found in it. -/
theorem eq_of_get? {a b : Table κ α} (h : ∀ key, a.get? key = b.get? key) : a = b := by
  have hmem : ∀ {t : Table κ α} (e : κ × α), e ∈ t.entries ↔ t.get? e.1 = some e.2 :=
    fun _ => mem_entries_iff
  refine Table.ext (Entries.eq_of_sorted a.sorted b.sorted fun e => ?_)
  rw [hmem, hmem, h]

/-- Insertions under different keys commute. -/
theorem insert_comm (t : Table κ α) {key key' : κ} (h : key ≠ key') (value value' : α) :
    (t.insert key value).insert key' value' = (t.insert key' value').insert key value := by
  refine eq_of_get? fun other => ?_
  by_cases hkey : other = key
  · subst hkey
    rw [get?_insert_of_ne _ h, get?_insert_self, get?_insert_self]
  by_cases hkey' : other = key'
  · subst hkey'
    rw [get?_insert_self, get?_insert_of_ne _ hkey, get?_insert_self]
  · rw [get?_insert_of_ne _ hkey', get?_insert_of_ne _ hkey, get?_insert_of_ne _ hkey,
      get?_insert_of_ne _ hkey']

/-- Of two insertions under one key the later one stays. -/
theorem insert_insert (t : Table κ α) (key : κ) (value value' : α) :
    (t.insert key value).insert key value' = t.insert key value' := by
  refine eq_of_get? fun other => ?_
  by_cases hkey : other = key
  · subst hkey
    rw [get?_insert_self, get?_insert_self]
  · rw [get?_insert_of_ne _ hkey, get?_insert_of_ne _ hkey, get?_insert_of_ne _ hkey]

theorem insert_eq_self {t : Table κ α} {key : κ} {value : α} (h : t.get? key = some value) :
    t.insert key value = t := by
  refine eq_of_get? fun other => ?_
  by_cases hkey : other = key
  · subst hkey
    rw [get?_insert_self, h]
  · rw [get?_insert_of_ne _ hkey]

/-- A new value under a key that is there changes no key. -/
theorem keys_insert {t : Table κ α} {key : κ} (h : t.contains key = true) (value : α) :
    (t.insert key value).keys = t.keys := by
  obtain ⟨old, hold⟩ := Option.isSome_iff_exists.mp h
  obtain ⟨before, after, hinsert⟩ := Entries.exists_insert_eq key t.entries
  have hkeys : ∀ v, (t.insert key v).keys = before.map (·.1) ++ key :: after.map (·.1) := by
    intro v
    refine (congrArg (List.map (·.1)) (hinsert v)).trans ?_
    rw [List.map_append, List.map_cons]
  rw [hkeys, ← hkeys old, insert_eq_self hold]

/-- Entries are inserted one after the other. -/
theorem ofList_append (entries later : List (κ × α)) :
    ofList (entries ++ later) = later.foldl (fun t e => t.insert e.1 e.2) (ofList entries) := by
  have hfold : ∀ (later : List (κ × α)) (t : Table κ α),
      (later.foldl (fun t e => t.insert e.1 e.2) t).entries =
        later.foldl (fun acc e => Entries.insert e.1 e.2 acc) t.entries := by
    intro later
    induction later with
    | nil => exact fun t => rfl
    | cons e later ih => exact fun t => ih (t.insert e.1 e.2)
  refine Table.ext ?_
  rw [hfold]
  exact List.foldl_append ..

/-- Behind the last entry under a key, entries under other keys do not matter to it. -/
theorem ofList_of_last {key : κ} {value : α} {entries later : List (κ × α)}
    (h : ∀ e ∈ later, e.1 ≠ key) :
    ofList (entries ++ (key, value) :: later) = (ofList (entries ++ later)).insert key value := by
  rw [ofList_append, ofList_append, List.foldl_cons]
  generalize ofList entries = t
  induction later generalizing t with
  | nil => rfl
  | cons e later ih =>
    obtain ⟨hne, hrest⟩ := List.forall_mem_cons.mp h
    rw [List.foldl_cons, List.foldl_cons, ← ih hrest, insert_comm t (Ne.symm hne)]

end Table

end ContextProtocol
