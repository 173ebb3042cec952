import ContextProtocol.Json.Scanner
import ContextProtocol.Proofs.Json.Numeral

/-!
# Values are read locally

A value that was read from the start of a text is read from every longer text that begins with the
same symbols, and what follows is left over. Only a number at the very end can tell the difference,
so what follows must not go on with it. This is why a payload that was cut out of one text can be
copied into another one.

Results:
* `scanPieces_append`, `scanNumber_append`: strings and numbers are read locally.
* `value_append`: values are read locally, with any fuel that covers the symbols read.
* `skip_ne_none`: a value whose reading did not end leaves a fault to whoever skips it.
-/
namespace ContextProtocol

/-! ## Strings and numbers -/

theorem shortOfFourBytes_append {u : List Symbol} (h : shortOfFourBytes u = false)
    (v : List Symbol) : shortOfFourBytes (u ++ v) = false := by
  have hfold : ∀ (l : List Symbol) (n : Nat), n ≤ l.foldl (fun n s => n + s.size) n := by
    intro l
    induction l with
    | nil => intro n; exact Nat.le_refl n
    | cons s l ih => intro n; exact Nat.le_trans (Nat.le_add_right _ _) (ih _)
  unfold shortOfFourBytes at *
  rw [decide_eq_false_iff_not] at *
  rw [List.take_append, List.foldl_append]
  have := hfold (v.take (4 - u.length)) ((u.take 4).foldl (fun n s => n + s.size) 0)
  omega

/-- A string that was closed is read locally. -/
theorem scanPieces_append {state : StringState} {found : List Piece} {u : List Symbol}
    {pieces : List Piece} {r : List Symbol}
    (h : scanPieces state found u = (pieces, none, r)) :
    r.length < u.length ∧ ∀ v, scanPieces state found (u ++ v) = (pieces, none, r ++ v) := by
  induction u generalizing state found with
  | nil => simp [scanPieces] at h
  | cons s u ih =>
    cases s with
    | stray =>
      cases state with
      | plain =>
        simp only [scanPieces] at h
        obtain ⟨hlen, happ⟩ := ih h
        exact ⟨Nat.lt_succ_of_lt hlen, fun v => happ v⟩
      | escape => simp [scanPieces] at h
      | hex more code => simp [scanPieces] at h
    | char c =>
      cases state with
      | plain =>
        simp only [List.cons_append, scanPieces] at h ⊢
        by_cases hq : c = '"'
        · rw [if_pos hq] at h
          cases h
          exact ⟨Nat.lt_succ_self _, fun v => by rw [if_pos hq]⟩
        · rw [if_neg hq] at h
          by_cases hb : c = '\\'
          · rw [if_pos hb] at h
            obtain ⟨hlen, happ⟩ := ih h
            exact ⟨Nat.lt_succ_of_lt hlen, fun v => by rw [if_neg hq, if_pos hb, happ]⟩
          · rw [if_neg hb] at h
            by_cases hc : c.toNat < 0x20
            · rw [if_pos hc] at h
              cases h
            · rw [if_neg hc] at h
              obtain ⟨hlen, happ⟩ := ih h
              exact ⟨Nat.lt_succ_of_lt hlen,
                fun v => by rw [if_neg hq, if_neg hb, if_neg hc, happ]⟩
      | escape =>
        simp only [List.cons_append, scanPieces] at h ⊢
        by_cases hu : c = 'u'
        · rw [if_pos hu] at h
          cases hs : shortOfFourBytes u with
          | true => rw [hs] at h; cases h
          | false =>
            rw [hs] at h
            obtain ⟨hlen, happ⟩ := ih h
            refine ⟨Nat.lt_succ_of_lt hlen, fun v => ?_⟩
            rw [if_pos hu, shortOfFourBytes_append hs]
            exact happ v
        · rw [if_neg hu] at h
          cases hd : unescape c with
          | none => rw [hd] at h; cases h
          | some d =>
            rw [hd] at h
            obtain ⟨hlen, happ⟩ := ih h
            refine ⟨Nat.lt_succ_of_lt hlen, fun v => ?_⟩
            rw [if_neg hu]
            exact happ v
      | hex more code =>
        simp only [List.cons_append, scanPieces] at h ⊢
        cases hd : hexDigit? c with
        | none => rw [hd] at h; cases h
        | some d =>
          rw [hd] at h
          cases more with
          | zero =>
            obtain ⟨hlen, happ⟩ := ih h
            exact ⟨Nat.lt_succ_of_lt hlen, fun v => happ v⟩
          | succ more =>
            obtain ⟨hlen, happ⟩ := ih h
            exact ⟨Nat.lt_succ_of_lt hlen, fun v => happ v⟩

theorem scanString_append {u : List Symbol} {token : Token String} {r : List Symbol}
    (h : scanString u = ⟨token, some r⟩) :
    r.length < u.length ∧ ∀ v, scanString (u ++ v) = ⟨token, some (r ++ v)⟩ := by
  obtain ⟨⟨pieces, stop, rest⟩, hs⟩ : ∃ x, scanPieces .plain [] u = x := ⟨_, rfl⟩
  simp only [scanString, hs, Scanned.mk.injEq] at h
  obtain ⟨htoken, hrest⟩ := h
  cases stop with
  | some fault => cases hrest
  | none =>
    cases hrest
    obtain ⟨hlen, happ⟩ := scanPieces_append hs
    refine ⟨hlen, fun v => ?_⟩
    simp only [scanString, happ, htoken]
    rfl

theorem takeDigits_local {u : List Symbol} {ds : List Char} {r : List Symbol}
    (h : takeDigits u = (ds, r)) :
    r.length + ds.length = u.length ∧ ∀ v,
      (r = [] → ∀ c tail, v = .char c :: tail → c.isDigit = false) →
      takeDigits (u ++ v) = (ds, r ++ v) := by
  induction u generalizing ds with
  | nil =>
    cases h
    exact ⟨rfl, fun v hv => takeDigits_append (List.forall_mem_nil _) (hv rfl)⟩
  | cons s u ih =>
    cases s with
    | stray => cases h; exact ⟨rfl, fun v _ => rfl⟩
    | char c =>
      simp only [List.cons_append, takeDigits] at h ⊢
      cases hc : c.isDigit with
      | false =>
        rw [hc] at h
        cases h
        exact ⟨rfl, fun v _ => rfl⟩
      | true =>
        rw [hc] at h
        cases h
        obtain ⟨hlen, happ⟩ := ih rfl
        refine ⟨by simp only [List.length_cons]; omega, fun v hv => ?_⟩
        simp only [happ v hv, if_true]

/-- The digits of an exponent behind its sign. -/
def scanMagnitude (negative : Bool) (whole : List Char) (fraction : Option (List Char))
    (exponentNegative : Bool) (text : List Symbol) : Scanned (Token Number) :=
  let (digits, rest) := takeDigits text
  if digits.isEmpty then digitMissing rest
  else
    let magnitude : Int := Numeral.ofDigits digits
    let exponent := if exponentNegative then -magnitude else magnitude
    ⟨Numeral.token ⟨negative, whole, fraction, some exponent⟩, some rest⟩

theorem scanExponent_unsigned (negative : Bool) (whole : List Char) (fraction : Option (List Char))
    {c : Char} (hc : c = 'e' ∨ c = 'E') {rest : List Symbol}
    (hplus : ∀ tail, rest ≠ .char '+' :: tail) (hminus : ∀ tail, rest ≠ .char '-' :: tail) :
    scanExponent negative whole fraction (.char c :: rest) =
      scanMagnitude negative whole fraction false rest := by
  cases rest with
  | nil => simp only [scanExponent, scanMagnitude, hc, if_true]
  | cons s tail =>
    cases s with
    | stray => simp only [scanExponent, scanMagnitude, hc, if_true]
    | char d =>
      simp [scanExponent, scanMagnitude, hc]

theorem scanExponent_sign (negative : Bool) (whole : List Char) (fraction : Option (List Char))
    {c : Char} (hc : c = 'e' ∨ c = 'E') (exponentNegative : Bool) (tail : List Symbol) :
    scanExponent negative whole fraction
      (.char c :: .char (if exponentNegative then '-' else '+') :: tail) =
      scanMagnitude negative whole fraction exponentNegative tail := by
  unfold scanExponent
  cases exponentNegative <;> simp only [hc, if_true] <;> rfl

/-- Reading may go on with what follows only at the end of a text. -/
def Scanned.Local {α : Type} (scan : List Symbol → Scanned α) (u : List Symbol) : Prop :=
  ∀ value r, scan u = ⟨value, some r⟩ → r.length ≤ u.length ∧
    ∀ v, (r = [] → EndsNumber v) → scan (u ++ v) = ⟨value, some (r ++ v)⟩

theorem scanMagnitude_local (negative : Bool) (whole : List Char) (fraction : Option (List Char))
    (exponentNegative : Bool) (u : List Symbol) :
    Scanned.Local (scanMagnitude negative whole fraction exponentNegative) u := by
  intro value r h
  obtain ⟨⟨ds, rest⟩, hd⟩ : ∃ x, takeDigits u = x := ⟨_, rfl⟩
  obtain ⟨hlen, happ⟩ := takeDigits_local hd
  simp only [scanMagnitude, hd] at h
  by_cases hnil : ds.isEmpty = true
  · rw [if_pos hnil] at h
    cases h
  · rw [if_neg hnil] at h
    cases h
    refine ⟨by omega, fun v hv => ?_⟩
    simp only [scanMagnitude, happ v fun hr => (hv hr).not_digit, if_neg hnil]

theorem scanExponent_local (negative : Bool) (whole : List Char) (fraction : Option (List Char))
    (u : List Symbol) : Scanned.Local (scanExponent negative whole fraction) u := by
  intro value r h
  cases u with
  | nil =>
    cases h
    exact ⟨Nat.le_refl _, fun v hv => scanExponent_end _ _ _ (hv rfl)⟩
  | cons s u =>
    cases s with
    | stray => cases h; exact ⟨Nat.le_refl _, fun v _ => rfl⟩
    | char c =>
      by_cases hc : c = 'e' ∨ c = 'E'
      · by_cases hsign : ∃ (sign : Bool) (tail : List Symbol),
          u = .char (if sign then '-' else '+') :: tail
        · obtain ⟨sign, tail, rfl⟩ := hsign
          rw [scanExponent_sign _ _ _ hc] at h
          obtain ⟨hlen, happ⟩ := scanMagnitude_local _ _ _ _ _ _ _ h
          refine ⟨by simp only [List.length_cons]; omega, fun v hv => ?_⟩
          rw [List.cons_append, List.cons_append, scanExponent_sign _ _ _ hc]
          exact happ v hv
        · have hplus : ∀ tail, u ≠ .char '+' :: tail := fun tail hu => hsign ⟨false, tail, hu⟩
          have hminus : ∀ tail, u ≠ .char '-' :: tail := fun tail hu => hsign ⟨true, tail, hu⟩
          rw [scanExponent_unsigned _ _ _ hc hplus hminus] at h
          obtain ⟨hlen, happ⟩ := scanMagnitude_local _ _ _ _ _ _ _ h
          refine ⟨by simp only [List.length_cons]; omega, fun v hv => ?_⟩
          cases u with
          | nil => cases h
          | cons s u =>
            rw [List.cons_append, scanExponent_unsigned _ _ _ hc]
            · exact happ v hv
            · intro tail htail
              exact hplus u (by rw [(List.cons.inj htail).1])
            · intro tail htail
              exact hminus u (by rw [(List.cons.inj htail).1])
      · unfold scanExponent at h
        simp only [hc, if_false] at h
        cases h
        refine ⟨Nat.le_refl _, fun v _ => ?_⟩
        unfold scanExponent
        simp only [List.cons_append, hc, if_false]

theorem scanFraction_local (negative : Bool) (whole : List Char) (u : List Symbol) :
    Scanned.Local (scanFraction negative whole) u := by
  intro value r h
  by_cases hpoint : ∃ tail, u = .char '.' :: tail
  · obtain ⟨tail, rfl⟩ := hpoint
    obtain ⟨⟨ds, rest⟩, hd⟩ : ∃ x, takeDigits tail = x := ⟨_, rfl⟩
    obtain ⟨hlen, happ⟩ := takeDigits_local hd
    simp only [scanFraction, hd] at h
    by_cases hnil : ds.isEmpty = true
    · rw [if_pos hnil] at h
      cases h
    · rw [if_neg hnil] at h
      obtain ⟨hlen', happ'⟩ := scanExponent_local _ _ _ _ _ _ h
      refine ⟨by simp only [List.length_cons]; omega, fun v hv => ?_⟩
      have hend : rest = [] → r = [] := fun hr => by
        rw [hr] at hlen'
        exact List.length_eq_zero_iff.mp (Nat.le_zero.mp hlen')
      simp only [scanFraction, List.cons_append, happ v fun hr => (hv (hend hr)).not_digit,
        if_neg hnil]
      exact happ' v hv
  · have hother : ∀ w, (∀ tail, w ≠ .char '.' :: tail) →
        scanFraction negative whole w = scanExponent negative whole none w := by
      intro w hw
      unfold scanFraction
      split
      · rename_i tail
        exact absurd rfl (hw tail)
      · rfl
    rw [hother u fun tail hu => hpoint ⟨tail, hu⟩] at h
    obtain ⟨hlen, happ⟩ := scanExponent_local _ _ _ _ _ _ h
    refine ⟨hlen, fun v hv => ?_⟩
    rw [hother, happ v hv]
    intro tail htail
    cases u with
    | nil =>
      cases h
      exact (hv rfl '.' tail htail).2.1 rfl
    | cons s u => exact hpoint ⟨u, by rw [(List.cons.inj htail).1]⟩

/-- A number is read locally, and at least one digit is read. -/
theorem scanNumber_append {negative : Bool} {u : List Symbol} {token : Token Number}
    {r : List Symbol} (h : scanNumber negative u = ⟨token, some r⟩) :
    r.length < u.length ∧ ∀ v, (r = [] → EndsNumber v) →
      scanNumber negative (u ++ v) = ⟨token, some (r ++ v)⟩ := by
  obtain ⟨⟨ds, rest⟩, hd⟩ : ∃ x, takeDigits u = x := ⟨_, rfl⟩
  obtain ⟨hlen, happ⟩ := takeDigits_local hd
  have hscan : ∀ w rest', takeDigits w = (ds, rest') → scanNumber negative u = ⟨token, some r⟩ →
      ds ≠ [] ∧ scanNumber negative w = scanFraction negative ds rest' := by
    intro w rest' hw hu
    unfold scanNumber at hu ⊢
    rw [hd] at hu
    rw [hw]
    split at hu
    · cases hu
    · rename_i heq; cases heq; exact ⟨by simp, rfl⟩
    · cases hu
    · rename_i hne hzero hlead heq
      cases heq
      refine ⟨hne, ?_⟩
      split
      · rename_i heq; cases heq; exact (hne rfl).elim
      · rename_i heq; cases heq; rfl
      · rename_i heq; cases heq; exact (hlead _ rfl).elim
      · rename_i heq; cases heq; rfl
  obtain ⟨hne, hu⟩ := hscan u rest hd h
  rw [hu] at h
  obtain ⟨hlen', happ'⟩ := scanFraction_local _ _ _ _ _ h
  have hpos := List.length_pos_iff.mpr hne
  refine ⟨by omega, fun v hv => ?_⟩
  have hend : rest = [] → r = [] := fun hr => by
    rw [hr] at hlen'
    exact List.length_eq_zero_iff.mp (Nat.le_zero.mp hlen')
  rw [(hscan (u ++ v) _ (happ v fun hr => (hv (hend hr)).not_digit) (hu.trans h)).2]
  exact happ' v hv

/-! ## Values -/

namespace Scan

theorem skipBlanks_append {u : List Symbol} (h : skipBlanks u ≠ []) (v : List Symbol) :
    skipBlanks (u ++ v) = skipBlanks u ++ v := by
  induction u with
  | nil => exact absurd rfl h
  | cons s u ih =>
    cases s with
    | stray => rfl
    | char c =>
      rw [List.cons_append]
      rw [skipBlanks] at h ⊢
      by_cases hc : c = ' ' ∨ c = '\n' ∨ c = '\t' ∨ c = '\r'
      · rw [if_pos hc] at h
        rw [if_pos hc, skipBlanks, if_pos hc]
        exact ih h
      · rw [if_neg hc, skipBlanks, if_neg hc]
        rfl

theorem length_skipBlanks (u : List Symbol) : (skipBlanks u).length ≤ u.length := by
  induction u with
  | nil => exact Nat.le_refl _
  | cons s u ih =>
    cases s with
    | stray => exact Nat.le_refl _
    | char c =>
      rw [skipBlanks]
      split
      · exact Nat.le_succ_of_le ih
      · exact Nat.le_refl _

theorem between_append {start rest : List Symbol} (h : rest.length ≤ start.length)
    (v : List Symbol) : between (start ++ v) (rest ++ v) = between start rest := by
  unfold between
  have hlen : (start ++ v).length - (rest ++ v).length = start.length - rest.length := by
    rw [List.length_append, List.length_append]
    omega
  rw [hlen, List.take_append_of_le_length (Nat.sub_le _ _)]

theorem literal_append {d : Doc} {letters : List Char} {u : List Symbol} {value : Doc}
    {r : List Symbol} (h : literal d letters u = ⟨value, some r⟩) :
    r.length ≤ u.length ∧ ∀ v, literal d letters (u ++ v) = ⟨value, some (r ++ v)⟩ := by
  induction letters generalizing u with
  | nil => cases h; exact ⟨Nat.le_refl _, fun v => rfl⟩
  | cons c letters ih =>
    cases u with
    | nil => cases h
    | cons s u =>
      rw [literal] at h
      by_cases hs : s = .char c
      · rw [if_pos hs] at h
        obtain ⟨hlen, happ⟩ := ih h
        refine ⟨Nat.le_succ_of_le hlen, fun v => ?_⟩
        rw [List.cons_append, literal, if_pos hs]
        exact happ v
      · rw [if_neg hs] at h
        cases h

/-! ### What a value begins with -/

/-- The rest of an array, after its bracket. -/
def array (fuel : Nat) (text : List Symbol) : Scanned Doc :=
  match skipBlanks text with
  | [] => ⟨.array [] (some .endOfList), none⟩
  | .char ']' :: rest => ⟨.array [] none, some rest⟩
  | rest =>
    let (found, stop, rest) := items fuel rest
    ⟨.array found stop, rest⟩

/-- The rest of an object, after its brace. -/
def object (fuel : Nat) (text : List Symbol) : Scanned Doc :=
  match skipBlanks text with
  | [] => ⟨.object [] (some .endOfObject), none⟩
  | .char '\x7d' :: rest => ⟨.object [] none, some rest⟩
  | .char '"' :: rest =>
    let (found, stop, rest) := members fuel rest
    ⟨.object found stop, rest⟩
  | _ => ⟨.object [nameless .keyNotString] none, none⟩

/-- What a value that begins with `c` is read as. -/
inductive Opening (c : Char) : Prop where
  | literal (d : Doc) (letters : List Char)
    (heq : ∀ fuel rest, value (fuel + 1) (.char c :: rest) = Scan.literal d letters rest)
    (hd : d = .null ∨ ∃ b, d = .bool b)
  | string (heq : ∀ fuel rest, value (fuel + 1) (.char c :: rest) = Scan.string rest)
  | minus (heq : ∀ fuel rest, value (fuel + 1) (.char c :: rest) = number true rest)
  | digit (heq : ∀ fuel rest, value (fuel + 1) (.char c :: rest) = number false (.char c :: rest))
  | array (heq : ∀ fuel rest, value (fuel + 1) (.char c :: rest) = Scan.array fuel rest)
  | object (heq : ∀ fuel rest, value (fuel + 1) (.char c :: rest) = Scan.object fuel rest)
  | nothing
    (heq : ∀ fuel rest, value (fuel + 1) (.char c :: rest) = ⟨.absent .expectedValue, none⟩)

/-- The first character alone decides how a value is read. -/
theorem opening (c : Char) : Opening c := by
  by_cases hnull : c = 'n'
  · exact .literal .null ['u', 'l', 'l'] (fun _ _ => by rw [value, if_pos hnull]) (.inl rfl)
  by_cases htrue : c = 't'
  · exact .literal (.bool true) ['r', 'u', 'e'] (fun _ _ => by
      rw [value, if_neg hnull, if_pos htrue]) (.inr ⟨true, rfl⟩)
  by_cases hfalse : c = 'f'
  · exact .literal (.bool false) ['a', 'l', 's', 'e'] (fun _ _ => by
      rw [value, if_neg hnull, if_neg htrue, if_pos hfalse]) (.inr ⟨false, rfl⟩)
  by_cases hquote : c = '"'
  · exact .string fun _ _ => by
      rw [value, if_neg hnull, if_neg htrue, if_neg hfalse, if_pos hquote]
  by_cases hminus : c = '-'
  · exact .minus fun _ _ => by
      rw [value, if_neg hnull, if_neg htrue, if_neg hfalse, if_neg hquote, if_pos hminus]
  by_cases hdigit : c.isDigit = true
  · exact .digit fun _ _ => by
      rw [value, if_neg hnull, if_neg htrue, if_neg hfalse, if_neg hquote, if_neg hminus,
        if_pos hdigit]
  by_cases hlist : c = '['
  · refine .array fun _ _ => ?_
    rw [value, if_neg hnull, if_neg htrue, if_neg hfalse, if_neg hquote, if_neg hminus,
      if_neg hdigit, if_pos hlist]
    rfl
  by_cases hobject : c = '\x7b'
  · refine .object fun _ _ => ?_
    rw [value, if_neg hnull, if_neg htrue, if_neg hfalse, if_neg hquote, if_neg hminus,
      if_neg hdigit, if_neg hlist, if_pos hobject]
    rfl
  exact .nothing fun _ _ => by
    rw [value, if_neg hnull, if_neg htrue, if_neg hfalse, if_neg hquote, if_neg hminus,
      if_neg hdigit, if_neg hlist, if_neg hobject]

/-! ### Locality -/

theorem string_append {u : List Symbol} {d : Doc} {r : List Symbol}
    (h : string u = ⟨d, some r⟩) :
    r.length < u.length ∧ ∀ v, string (u ++ v) = ⟨d, some (r ++ v)⟩ := by
  obtain ⟨⟨token, rest⟩, hs⟩ : ∃ x, scanString u = x := ⟨_, rfl⟩
  simp only [string, hs, Scanned.mk.injEq] at h
  obtain ⟨hd, rfl⟩ := h
  obtain ⟨hlen, happ⟩ := scanString_append hs
  refine ⟨hlen, fun v => ?_⟩
  simp only [string, happ, hd]

theorem number_append {negative : Bool} {u : List Symbol} {d : Doc} {r : List Symbol}
    (h : number negative u = ⟨d, some r⟩) : r.length < u.length ∧
    ∀ v, (r = [] → EndsNumber v) → number negative (u ++ v) = ⟨d, some (r ++ v)⟩ := by
  obtain ⟨⟨token, rest⟩, hs⟩ : ∃ x, scanNumber negative u = x := ⟨_, rfl⟩
  simp only [number, hs, Scanned.mk.injEq] at h
  obtain ⟨hd, rfl⟩ := h
  obtain ⟨hlen, happ⟩ := scanNumber_append hs
  refine ⟨hlen, fun v hv => ?_⟩
  simp only [number, happ v hv, hd]

/-- Values are read locally with so much fuel, and again with any fuel that covers what is read. -/
def ValueLocal (fuel : Nat) : Prop :=
  ∀ u d r, value fuel u = ⟨d, some r⟩ → r.length < u.length ∧
    ∀ fuel' v, u.length ≤ fuel' + r.length → (r = [] → EndsNumber v) →
      value fuel' (u ++ v) = ⟨d, some (r ++ v)⟩

/-- Items are read locally up to the end of their array. -/
def ItemsLocal (fuel : Nat) : Prop :=
  ∀ u found stop r, items fuel u = (found, stop, some r) → r.length < u.length ∧
    ∀ fuel' v, u.length ≤ fuel' + r.length → items fuel' (u ++ v) = (found, stop, some (r ++ v))

/-- Members are read locally up to the end of their object. -/
def MembersLocal (fuel : Nat) : Prop :=
  ∀ u found stop r, members fuel u = (found, stop, some r) → r.length < u.length ∧
    ∀ fuel' v, u.length ≤ fuel' + r.length → members fuel' (u ++ v) = (found, stop, some (r ++ v))

/-- A value with its text is read locally too, behind blanks. -/
theorem cite_append {fuel : Nat} (hvalue : ValueLocal fuel) {u : List Symbol} {item : Sourced Doc}
    {r : List Symbol} (h : cite (skipBlanks u) (value fuel (skipBlanks u)) = ⟨item, some r⟩) :
    r.length < u.length ∧ ∀ fuel' v, u.length ≤ fuel' + r.length → (r = [] → EndsNumber v) →
      cite (skipBlanks (u ++ v)) (value fuel' (skipBlanks (u ++ v))) = ⟨item, some (r ++ v)⟩ := by
  obtain ⟨⟨d, rest⟩, hd⟩ : ∃ x, value fuel (skipBlanks u) = x := ⟨_, rfl⟩
  simp only [cite, hd, Scanned.mk.injEq] at h
  obtain ⟨hitem, rfl⟩ := h
  obtain ⟨hlen, happ⟩ := hvalue _ _ _ hd
  have hblanks := length_skipBlanks u
  have hne : skipBlanks u ≠ [] := by
    intro hnil
    rw [hnil] at hlen
    exact Nat.not_lt_zero _ hlen
  refine ⟨by omega, fun fuel' v hfuel hv => ?_⟩
  rw [skipBlanks_append hne, happ fuel' v (by omega) hv, ← hitem]
  simp only [cite, Option.getD_some, between_append (Nat.le_of_lt hlen)]

theorem items_local_succ {fuel : Nat} (hvalue : ValueLocal fuel) (hitems : ItemsLocal fuel) :
    ItemsLocal (fuel + 1) := by
  intro u found stop r h
  obtain ⟨⟨item, rest⟩, hitem⟩ :
      ∃ x, cite (skipBlanks u) (value fuel (skipBlanks u)) = x := ⟨_, rfl⟩
  simp only [items, hitem] at h
  cases rest with
  | none => cases h
  | some rest =>
    obtain ⟨hlen, happ⟩ := cite_append hvalue hitem
    have hblanks := length_skipBlanks rest
    simp only at h
    cases hs : skipBlanks rest with
    | nil => rw [hs] at h; cases h
    | cons s tail =>
      have hne : skipBlanks rest ≠ [] := by rw [hs]; exact List.cons_ne_nil _ _
      have hrest : rest ≠ [] := fun hnil => hne (by rw [hnil]; rfl)
      rw [hs] at h hblanks
      simp only [List.length_cons] at hblanks
      have hstep : ∀ fuel' v, u.length ≤ fuel' + rest.length →
          cite (skipBlanks (u ++ v)) (value fuel' (skipBlanks (u ++ v))) = ⟨item, some (rest ++ v)⟩ ∧
          skipBlanks (rest ++ v) = s :: (tail ++ v) := by
        intro fuel' v hfuel
        rw [happ fuel' v hfuel fun hnil => absurd hnil hrest, skipBlanks_append hne, hs]
        exact ⟨rfl, rfl⟩
      by_cases hend : s = .char ']'
      · subst hend
        cases h
        refine ⟨by omega, fun fuel' v hfuel => ?_⟩
        obtain ⟨fuel', rfl⟩ : ∃ n, fuel' = n + 1 := ⟨fuel' - 1, by omega⟩
        obtain ⟨hcite, hskip⟩ := hstep fuel' v (by omega)
        simp only [items, hcite, hskip]
      · by_cases hcomma : s = .char ','
        · subst hcomma
          simp only at h
          obtain ⟨⟨found', stop', rest'⟩, hmore⟩ : ∃ x, items fuel (skipBlanks tail) = x := ⟨_, rfl⟩
          have htail := length_skipBlanks tail
          split at h
          · cases h
          · rename_i hnot
            rw [hmore] at h
            cases h
            obtain ⟨hlen', happ'⟩ := hitems _ _ _ _ hmore
            have hne' : skipBlanks tail ≠ [] := fun hnil => by
              rw [hnil] at hlen'
              exact Nat.not_lt_zero _ hlen'
            refine ⟨by omega, fun fuel' v hfuel => ?_⟩
            obtain ⟨fuel', rfl⟩ : ∃ n, fuel' = n + 1 := ⟨fuel' - 1, by omega⟩
            obtain ⟨hcite, hskip⟩ := hstep fuel' v (by omega)
            simp only [items, hcite, hskip, skipBlanks_append hne']
            split
            · rename_i heq
              cases hcase : skipBlanks tail with
              | nil => exact absurd hcase hne'
              | cons t ts =>
                rw [hcase] at heq
                cases heq
                exact (hnot _ hcase).elim
            · rw [happ' fuel' v (by omega)]
        · split at h <;> simp_all

theorem skipBlanks_ne_nil {w : List Symbol} {s : Symbol} {tail : List Symbol}
    (h : skipBlanks w = s :: tail) : w ≠ [] := by
  intro hnil
  rw [hnil] at h
  cases h

theorem members_local_succ {fuel : Nat} (hvalue : ValueLocal fuel)
    (hmembers : MembersLocal fuel) : MembersLocal (fuel + 1) := by
  intro u found stop r h
  obtain ⟨⟨name, afterName⟩, hname⟩ : ∃ x, scanString u = x := ⟨_, rfl⟩
  simp only [members, hname] at h
  cases afterName with
  | none => cases h
  | some afterName =>
  obtain ⟨hnameLen, hnameApp⟩ := scanString_append hname
  simp only at h
  have hblanks := length_skipBlanks afterName
  split at h
  · cases h
  · rename_i colon hcolon
    rw [hcolon, List.length_cons] at hblanks
    obtain ⟨⟨item, rest⟩, hitem⟩ :
        ∃ x, cite (skipBlanks colon) (value fuel (skipBlanks colon)) = x := ⟨_, rfl⟩
    rw [hitem] at h
    cases rest with
    | none => cases h
    | some rest =>
    obtain ⟨hlen, happ⟩ := cite_append hvalue hitem
    have hblanks' := length_skipBlanks rest
    simp only at h
    -- the name and the value of the member, read from the longer text
    have hstep : ∀ fuel' v s tail, u.length ≤ fuel' + rest.length →
        skipBlanks rest = s :: tail →
        scanString (u ++ v) = ⟨name, some (afterName ++ v)⟩ ∧
        skipBlanks (afterName ++ v) = .char ':' :: (colon ++ v) ∧
        cite (skipBlanks (colon ++ v)) (value fuel' (skipBlanks (colon ++ v))) =
          ⟨item, some (rest ++ v)⟩ ∧
        skipBlanks (rest ++ v) = s :: (tail ++ v) := by
      intro fuel' v s tail hfuel hs
      refine ⟨hnameApp v, ?_, happ fuel' v (by omega) fun hnil => ?_, ?_⟩
      · rw [skipBlanks_append (by rw [hcolon]; exact List.cons_ne_nil _ _), hcolon]
        rfl
      · exact absurd hnil (skipBlanks_ne_nil hs)
      · rw [skipBlanks_append (by rw [hs]; exact List.cons_ne_nil _ _), hs]
        rfl
    split at h
    · cases h
    · rename_i tail hs
      cases h
      rw [hs, List.length_cons] at hblanks'
      refine ⟨by omega, fun fuel' v hfuel => ?_⟩
      obtain ⟨fuel', rfl⟩ : ∃ n, fuel' = n + 1 := ⟨fuel' - 1, by omega⟩
      obtain ⟨hn, hc, hi, hr⟩ := hstep fuel' v _ _ (by omega) hs
      simp only [members, hn, hc, hi, hr]
    · rename_i tail hs
      rw [hs, List.length_cons] at hblanks'
      have hblanks'' := length_skipBlanks tail
      split at h
      · cases h
      · rename_i next hnext
        obtain ⟨⟨found', stop', rest'⟩, hmore⟩ : ∃ x, members fuel next = x := ⟨_, rfl⟩
        rw [hmore] at h
        cases h
        obtain ⟨hlen', happ'⟩ := hmembers _ _ _ _ hmore
        rw [hnext, List.length_cons] at hblanks''
        refine ⟨by omega, fun fuel' v hfuel => ?_⟩
        obtain ⟨fuel', rfl⟩ : ∃ n, fuel' = n + 1 := ⟨fuel' - 1, by omega⟩
        obtain ⟨hn, hc, hi, hr⟩ := hstep fuel' v _ _ (by omega) hs
        have ht : skipBlanks (tail ++ v) = .char '"' :: (next ++ v) := by
          rw [skipBlanks_append (by rw [hnext]; exact List.cons_ne_nil _ _), hnext]
          rfl
        simp only [members, hn, hc, hi, hr, ht, happ' fuel' v (by omega)]
      · cases h
      · cases h
    · cases h
  · cases h

theorem array_local {fuel : Nat} (hitems : ItemsLocal fuel) {u : List Symbol} {d : Doc}
    {r : List Symbol} (h : array fuel u = ⟨d, some r⟩) : r.length ≤ u.length ∧
    ∀ fuel' v, u.length ≤ fuel' + r.length → array fuel' (u ++ v) = ⟨d, some (r ++ v)⟩ := by
  unfold array at h ⊢
  have hblanks := length_skipBlanks u
  cases hs : skipBlanks u with
  | nil => rw [hs] at h; cases h
  | cons s tail =>
    have happ : ∀ v, skipBlanks (u ++ v) = s :: (tail ++ v) := by
      intro v
      rw [skipBlanks_append (by rw [hs]; exact List.cons_ne_nil _ _), hs]
      rfl
    rw [hs] at h
    rw [hs, List.length_cons] at hblanks
    by_cases hend : s = .char ']'
    · subst hend
      cases h
      exact ⟨by omega, fun fuel' v _ => by simp only [happ]⟩
    · obtain ⟨⟨found, stop, rest⟩, hmore⟩ : ∃ x, items fuel (s :: tail) = x := ⟨_, rfl⟩
      split at h
      · rename_i heq; cases heq
      · rename_i heq; cases heq; exact absurd rfl hend
      · rw [hmore] at h
        cases h
        obtain ⟨hlen', happ'⟩ := hitems _ _ _ _ hmore
        rw [List.length_cons] at hlen'
        refine ⟨by omega, fun fuel' v hfuel => ?_⟩
        rw [happ]
        split
        · rename_i heq; cases heq
        · rename_i heq; cases heq; exact absurd rfl hend
        · have := happ' fuel' v (by rw [List.length_cons]; omega)
          rw [List.cons_append] at this
          rw [this]

theorem object_local {fuel : Nat} (hmembers : MembersLocal fuel) {u : List Symbol} {d : Doc}
    {r : List Symbol} (h : object fuel u = ⟨d, some r⟩) : r.length ≤ u.length ∧
    ∀ fuel' v, u.length ≤ fuel' + r.length → object fuel' (u ++ v) = ⟨d, some (r ++ v)⟩ := by
  unfold object at h ⊢
  have hblanks := length_skipBlanks u
  split at h
  · cases h
  · rename_i tail hs
    cases h
    rw [hs, List.length_cons] at hblanks
    refine ⟨by omega, fun fuel' v _ => ?_⟩
    rw [skipBlanks_append (by rw [hs]; exact List.cons_ne_nil _ _), hs]
    rfl
  · rename_i tail hs
    obtain ⟨⟨found, stop, rest⟩, hmore⟩ : ∃ x, members fuel tail = x := ⟨_, rfl⟩
    rw [hmore] at h
    cases h
    obtain ⟨hlen', happ'⟩ := hmembers _ _ _ _ hmore
    rw [hs, List.length_cons] at hblanks
    refine ⟨by omega, fun fuel' v hfuel => ?_⟩
    rw [skipBlanks_append (by rw [hs]; exact List.cons_ne_nil _ _), hs, List.cons_append]
    simp only [happ' fuel' v (by omega)]
  · cases h

theorem value_local_succ {fuel : Nat} (hitems : ItemsLocal fuel) (hmembers : MembersLocal fuel) :
    ValueLocal (fuel + 1) := by
  intro u d r h
  cases u with
  | nil => cases h
  | cons s u =>
  cases s with
  | stray => cases h
  | char c =>
  -- with any fuel at all, the first character decides alike
  suffices hsuff : r.length ≤ u.length ∧ ∀ fuel' v, u.length ≤ fuel' + r.length →
      (r = [] → EndsNumber v) →
      value (fuel' + 1) (.char c :: (u ++ v)) = ⟨d, some (r ++ v)⟩ by
    obtain ⟨hlen, happ⟩ := hsuff
    refine ⟨Nat.lt_succ_of_le hlen, fun fuel' v hfuel hv => ?_⟩
    rw [List.length_cons] at hfuel
    obtain ⟨fuel', rfl⟩ : ∃ n, fuel' = n + 1 := ⟨fuel' - 1, by omega⟩
    exact happ fuel' v (by omega) hv
  cases opening c with
  | literal d letters heq =>
    rw [heq] at h
    obtain ⟨hlen, happ⟩ := literal_append h
    exact ⟨hlen, fun fuel' v _ _ => (heq _ _).trans (happ v)⟩
  | string heq =>
    rw [heq] at h
    obtain ⟨hlen, happ⟩ := string_append h
    exact ⟨Nat.le_of_lt hlen, fun fuel' v _ _ => (heq _ _).trans (happ v)⟩
  | minus heq =>
    rw [heq] at h
    obtain ⟨hlen, happ⟩ := number_append h
    exact ⟨Nat.le_of_lt hlen, fun fuel' v _ hv => (heq _ _).trans (happ v hv)⟩
  | digit heq =>
    rw [heq] at h
    obtain ⟨hlen, happ⟩ := number_append h
    exact ⟨Nat.le_of_lt_succ hlen, fun fuel' v _ hv => (heq _ _).trans (happ v hv)⟩
  | array heq =>
    rw [heq] at h
    obtain ⟨hlen, happ⟩ := array_local hitems h
    exact ⟨hlen, fun fuel' v hfuel _ => (heq _ _).trans (happ fuel' v hfuel)⟩
  | object heq =>
    rw [heq] at h
    obtain ⟨hlen, happ⟩ := object_local hmembers h
    exact ⟨hlen, fun fuel' v hfuel _ => (heq _ _).trans (happ fuel' v hfuel)⟩
  | nothing heq =>
    rw [heq] at h
    cases h

theorem scan_local (fuel : Nat) : ValueLocal fuel ∧ ItemsLocal fuel ∧ MembersLocal fuel := by
  induction fuel with
  | zero =>
    refine ⟨fun u d r h => ?_, fun u found stop r h => ?_, fun u found stop r h => ?_⟩
    · rw [value] at h; cases h
    · rw [items] at h; cases h
    · rw [members] at h; cases h
  | succ fuel ih =>
    obtain ⟨hvalue, hitems, hmembers⟩ := ih
    exact ⟨value_local_succ hitems hmembers, items_local_succ hvalue hitems,
      members_local_succ hvalue hmembers⟩

/-- A value is read locally, with any fuel that covers the symbols read. -/
theorem value_append {fuel : Nat} {u : List Symbol} {d : Doc} {r : List Symbol}
    (h : value fuel u = ⟨d, some r⟩) {fuel' : Nat} (hfuel : u.length ≤ fuel' + r.length)
    {v : List Symbol} (hv : r = [] → EndsNumber v) :
    value fuel' (u ++ v) = ⟨d, some (r ++ v)⟩ :=
  ((scan_local fuel).1 u d r h).2 fuel' v hfuel hv

end Scan

end ContextProtocol
