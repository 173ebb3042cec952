import ContextProtocol.Proofs.Json.Recovered

/-!
# Values can be cut out

Locality says that a value that was read from a text is read from every longer text. Here is the
converse: whatever was read from the start of a text is read from exactly the symbols that were
consumed, with nothing left over. So the text that a document cites for a value is a text of that
value, and reading it again finds the same document.

Results:
* `scanString_excerpt`, `scanNumber_excerpt`: strings and numbers can be cut out.
* `Scan.value_excerpt`: values can be cut out, and no byte strays in what is cut out if the value
  can be taken apart.
-/
namespace ContextProtocol

namespace Symbol

theorem char_ne_stray (c : Char) : char c ≠ stray := by
  intro h
  cases h

/-- No byte strays among the symbols. -/
def Clean (u : List Symbol) : Prop := ∀ s ∈ u, s ≠ .stray

@[simp] theorem clean_nil : Clean [] := List.forall_mem_nil _

@[simp] theorem clean_cons {s : Symbol} {u : List Symbol} :
    Clean (s :: u) ↔ s ≠ .stray ∧ Clean u := List.forall_mem_cons

@[simp] theorem clean_append {u v : List Symbol} : Clean (u ++ v) ↔ Clean u ∧ Clean v :=
  List.forall_mem_append

@[simp] theorem clean_chars (cs : List Char) : Clean (cs.map .char) := by
  intro s hs
  obtain ⟨c, -, rfl⟩ := List.mem_map.mp hs
  exact char_ne_stray c

/-- Symbols without stray bytes are a text. -/
theorem Clean.exists_text {u : List Symbol} (h : Clean u) : ∃ t, ofString t = u := by
  induction u with
  | nil => exact ⟨"", rfl⟩
  | cons s u ih =>
    obtain ⟨hs, hu⟩ := clean_cons.mp h
    obtain ⟨t, rfl⟩ := ih hu
    cases s with
    | stray => exact absurd rfl hs
    | char c => exact ⟨.ofList (c :: t.toList), by simp [ofString]⟩

end Symbol

/-! ## Strings -/

/-- Four symbols are at least four bytes. -/
theorem shortOfFourBytes_of_length {u : List Symbol} (h : 4 ≤ u.length) :
    shortOfFourBytes u = false := by
  have hsize : ∀ s : Symbol, 1 ≤ s.size := by
    intro s
    cases s with
    | char c => exact c.utf8Size_pos
    | stray => exact Nat.le_refl 1
  match u, h with
  | a :: b :: c :: d :: rest, _ =>
    have := hsize a
    have := hsize b
    have := hsize c
    have := hsize d
    unfold shortOfFourBytes
    rw [decide_eq_false_iff_not]
    simp only [List.take_succ_cons, List.take_zero, List.foldl_cons, List.foldl_nil]
    omega

/-- The digits of an escape and the closing quote are still to come. -/
theorem length_of_scanPieces_hex {u : List Symbol} : ∀ {more code : Nat} {found pieces : List Piece}
    {r : List Symbol}, scanPieces (.hex more code) found u = (pieces, none, r) →
      more + 1 < u.length := by
  induction u with
  | nil => intro more code found pieces r h; simp [scanPieces] at h
  | cons s u ih =>
    intro more code found pieces r h
    cases s with
    | stray => simp [scanPieces] at h
    | char c =>
      rw [scanPieces] at h
      split at h
      · cases h
      · split at h
        · cases u with
          | nil => simp [scanPieces] at h
          | cons s u => simp
        · have := ih h
          rw [List.length_cons]
          omega

/-- Pieces that were found stay. -/
theorem mem_scanPieces {p : Piece} {u : List Symbol} : ∀ {state : StringState} {found : List Piece},
    p ∈ found → p ∈ (scanPieces state found u).1 := by
  intro state found hp
  fun_induction scanPieces state found u <;> simp_all

/-- A string that was closed can be cut out. -/
theorem scanPieces_excerpt {state : StringState} {found : List Piece} {w : List Symbol}
    {pieces : List Piece} {r : List Symbol} (h : scanPieces state found w = (pieces, none, r)) :
    ∃ u, w = u ++ r ∧ scanPieces state found u = (pieces, none, []) ∧
      (.stray ∉ pieces → Symbol.Clean u) := by
  induction w generalizing state found with
  | nil => simp [scanPieces] at h
  | cons s w ih =>
    -- one symbol and the excerpt of what follows it
    have hcons : ∀ {state' : StringState} {found' : List Piece},
        scanPieces state' found' w = (pieces, none, r) →
        (∀ u, w = u ++ r → scanPieces state' found' u = (pieces, none, []) →
          scanPieces state found (s :: u) = (pieces, none, [])) →
        (.stray ∉ pieces → s ≠ .stray) →
        ∃ u, s :: w = u ++ r ∧ scanPieces state found u = (pieces, none, []) ∧
          (.stray ∉ pieces → Symbol.Clean u) := by
      intro state' found' hrest hstep hs
      obtain ⟨u, rfl, halone, hclean⟩ := ih hrest
      exact ⟨s :: u, rfl, hstep u rfl halone,
        fun hp => Symbol.clean_cons.mpr ⟨hs hp, hclean hp⟩⟩
    cases s with
    | stray =>
      cases state with
      | plain =>
        rw [scanPieces] at h
        refine hcons h (fun u _ hu => hu) fun hp => absurd ?_ hp
        have hstray : .stray ∈ (scanPieces .plain (.stray :: found) w).1 :=
          mem_scanPieces List.mem_cons_self
        rwa [h] at hstray
      | escape => simp [scanPieces] at h
      | hex more code => simp [scanPieces] at h
    | char c =>
      cases state with
      | plain =>
        by_cases hq : c = '"'
        · subst hq
          cases h
          exact ⟨[.char '"'], rfl, rfl, fun _ => by simp⟩
        · rw [scanPieces, if_neg hq] at h
          split at h
          · rename_i hb
            subst hb
            exact hcons h (fun u _ hu => hu) fun _ => Symbol.char_ne_stray _
          · rename_i hb
            split at h
            · cases h
            · rename_i hc
              refine hcons h (fun u _ hu => ?_) fun _ => Symbol.char_ne_stray c
              rw [scanPieces, if_neg hq, if_neg hb, if_neg hc, hu]
      | escape =>
        rw [scanPieces] at h
        split at h
        · rename_i hu'
          split at h
          · cases h
          · refine hcons h (fun u _ hu => ?_) fun _ => Symbol.char_ne_stray c
            have hlong := length_of_scanPieces_hex hu
            rw [scanPieces, if_pos hu', shortOfFourBytes_of_length (by omega)]
            exact hu
        · rename_i hu'
          split at h
          · rename_i d hd
            refine hcons h (fun u _ hu => ?_) fun _ => Symbol.char_ne_stray c
            rw [scanPieces, if_neg hu', hd]
            exact hu
          · cases h
      | hex more code =>
        rw [scanPieces] at h
        split at h
        · cases h
        · rename_i d hd
          cases more with
          | zero =>
            refine hcons h (fun u _ hu => ?_) fun _ => Symbol.char_ne_stray c
            rw [scanPieces, hd]
            exact hu
          | succ more =>
            refine hcons h (fun u _ hu => ?_) fun _ => Symbol.char_ne_stray c
            rw [scanPieces, hd]
            exact hu

/-- A string with a stray byte cannot be taken apart. -/
theorem Piece.stray_not_mem_of_assemble {stop : Option Fault} {found : List Char} {clean : Bool}
    {pieces : List Piece} {s : String} (h : assemble stop found clean pieces = .ok s) :
    clean = true ∧ .stray ∉ pieces := by
  fun_induction assemble stop found clean pieces <;> simp_all

theorem scanString_excerpt {w : List Symbol} {token : Token String} {r : List Symbol}
    (h : scanString w = ⟨token, some r⟩) :
    ∃ u, w = u ++ r ∧ scanString u = ⟨token, some []⟩ ∧ token.skipping = none ∧
      (∀ s, token.reading = .ok s → Symbol.Clean u) := by
  obtain ⟨⟨pieces, stop, rest⟩, hs⟩ : ∃ x, scanPieces .plain [] w = x := ⟨_, rfl⟩
  simp only [scanString, hs, Scanned.mk.injEq] at h
  obtain ⟨rfl, hrest⟩ := h
  cases stop with
  | some fault => cases hrest
  | none =>
    cases hrest
    obtain ⟨u, hw, halone, hclean⟩ := scanPieces_excerpt hs
    refine ⟨u, hw, by simp only [scanString, halone]; rfl, rfl, fun s hread => hclean ?_⟩
    exact (Piece.stray_not_mem_of_assemble hread).2

/-! ## Numbers -/

/-- Digits were taken up to the first symbol that is none. -/
theorem takeDigits_excerpt {w : List Symbol} {ds : List Char} {r : List Symbol}
    (h : takeDigits w = (ds, r)) : w = ds.map .char ++ r ∧ (∀ c ∈ ds, c.isDigit = true) ∧
      ∀ c tail, r = .char c :: tail → c.isDigit = false := by
  induction w generalizing ds with
  | nil =>
    cases h
    exact ⟨rfl, List.forall_mem_nil _, nofun⟩
  | cons s w ih =>
    cases s with
    | stray =>
      cases h
      exact ⟨rfl, List.forall_mem_nil _, nofun⟩
    | char c =>
      rw [takeDigits] at h
      split at h
      · rename_i hc
        cases h
        obtain ⟨hw, hds, hr⟩ := ih rfl
        exact ⟨congrArg (.char c :: ·) hw, List.forall_mem_cons.mpr ⟨hc, hds⟩, hr⟩
      · rename_i hc
        cases h
        refine ⟨rfl, List.forall_mem_nil _, fun d tail hd => ?_⟩
        cases hd
        exact Bool.eq_false_iff.mpr hc

/-- What is read of a number is characters, and they alone give the same. -/
def Scanned.Excerpt {α : Type} (scan : List Symbol → Scanned α) (w : List Symbol) : Prop :=
  ∀ value r, scan w = ⟨value, some r⟩ →
    ∃ cs : List Char, w = cs.map .char ++ r ∧ scan (cs.map .char) = ⟨value, some []⟩

theorem scanMagnitude_excerpt (negative : Bool) (whole : List Char) (fraction : Option (List Char))
    (exponentNegative : Bool) (w : List Symbol) :
    Scanned.Excerpt (scanMagnitude negative whole fraction exponentNegative) w := by
  intro value r h
  obtain ⟨⟨ds, rest⟩, hd⟩ : ∃ x, takeDigits w = x := ⟨_, rfl⟩
  obtain ⟨hw, hds, -⟩ := takeDigits_excerpt hd
  have halone : takeDigits (ds.map .char ++ []) = (ds, []) := takeDigits_append hds nofun
  rw [List.append_nil] at halone
  simp only [scanMagnitude, hd] at h
  split at h
  · cases h
  · rename_i hne
    cases h
    refine ⟨ds, hw, ?_⟩
    simp only [scanMagnitude, halone, if_neg hne]

theorem scanExponent_excerpt (negative : Bool) (whole : List Char) (fraction : Option (List Char))
    (w : List Symbol) : Scanned.Excerpt (scanExponent negative whole fraction) w := by
  intro value r h
  have hnone : value = Numeral.token ⟨negative, whole, fraction, none⟩ → r = w →
      ∃ cs : List Char, w = cs.map .char ++ r ∧
        scanExponent negative whole fraction (cs.map .char) = ⟨value, some []⟩ := by
    rintro rfl rfl
    exact ⟨[], rfl, rfl⟩
  cases w with
  | nil => cases h; exact hnone rfl rfl
  | cons s w =>
    cases s with
    | stray => cases h; exact hnone rfl rfl
    | char c =>
      by_cases hc : c = 'e' ∨ c = 'E'
      · by_cases hsign : ∃ (sign : Bool) (tail : List Symbol),
          w = .char (if sign then '-' else '+') :: tail
        · obtain ⟨sign, tail, rfl⟩ := hsign
          rw [scanExponent_sign _ _ _ hc] at h
          obtain ⟨cs, rfl, halone⟩ := scanMagnitude_excerpt _ _ _ _ _ _ _ h
          refine ⟨c :: (if sign then '-' else '+') :: cs, rfl, ?_⟩
          rw [List.map_cons, List.map_cons, scanExponent_sign _ _ _ hc]
          exact halone
        · have hplus : ∀ tail, w ≠ .char '+' :: tail := fun tail hw => hsign ⟨false, tail, hw⟩
          have hminus : ∀ tail, w ≠ .char '-' :: tail := fun tail hw => hsign ⟨true, tail, hw⟩
          rw [scanExponent_unsigned _ _ _ hc hplus hminus] at h
          obtain ⟨cs, rfl, halone⟩ := scanMagnitude_excerpt _ _ _ _ _ _ _ h
          refine ⟨c :: cs, rfl, ?_⟩
          rw [List.map_cons, scanExponent_unsigned _ _ _ hc, halone]
          · intro tail htail
            exact hplus (tail ++ r) (by rw [htail]; rfl)
          · intro tail htail
            exact hminus (tail ++ r) (by rw [htail]; rfl)
      · simp only [scanExponent, hc, if_false] at h
        cases h
        exact hnone rfl rfl

theorem scanFraction_excerpt (negative : Bool) (whole : List Char) (w : List Symbol) :
    Scanned.Excerpt (scanFraction negative whole) w := by
  intro value r h
  have hother : ∀ w, (∀ tail, w ≠ .char '.' :: tail) →
      scanFraction negative whole w = scanExponent negative whole none w := by
    intro w hw
    unfold scanFraction
    split
    · rename_i tail
      exact absurd rfl (hw tail)
    · rfl
  by_cases hpoint : ∃ tail, w = .char '.' :: tail
  · obtain ⟨tail, rfl⟩ := hpoint
    obtain ⟨⟨ds, rest⟩, hd⟩ : ∃ x, takeDigits tail = x := ⟨_, rfl⟩
    obtain ⟨rfl, hds, hend⟩ := takeDigits_excerpt hd
    simp only [scanFraction, hd] at h
    split at h
    · cases h
    · rename_i hne
      obtain ⟨cs, rfl, halone⟩ := scanExponent_excerpt _ _ _ _ _ _ h
      refine ⟨'.' :: (ds ++ cs), by simp, ?_⟩
      rw [List.map_cons, List.map_append, scanFraction_point negative whole hds (by simpa using hne)]
      · exact halone
      · intro c tail hc
        exact hend c (tail ++ r) (by rw [hc]; rfl)
  · rw [hother w fun tail hw => hpoint ⟨tail, hw⟩] at h
    obtain ⟨cs, rfl, halone⟩ := scanExponent_excerpt _ _ _ _ _ _ h
    refine ⟨cs, rfl, ?_⟩
    rw [hother, halone]
    intro tail htail
    exact hpoint ⟨tail ++ r, by rw [htail]; rfl⟩

theorem scanNumber_excerpt (negative : Bool) (w : List Symbol) :
    Scanned.Excerpt (scanNumber negative) w := by
  intro value r h
  obtain ⟨⟨ds, rest⟩, hd⟩ : ∃ x, takeDigits w = x := ⟨_, rfl⟩
  obtain ⟨rfl, hds, hend⟩ := takeDigits_excerpt hd
  have hwhole : IsWhole ds ∧ scanFraction negative ds rest = ⟨value, some r⟩ := by
    unfold scanNumber at h
    rw [hd] at h
    split at h
    · cases h
    · rename_i heq
      cases heq
      exact ⟨⟨hds, List.cons_ne_nil _ _, .inl rfl⟩, h⟩
    · cases h
    · rename_i hne hzero hlead heq
      cases heq
      refine ⟨⟨hds, hne, .inr fun hhead => ?_⟩, h⟩
      obtain ⟨tail, rfl⟩ : ∃ tail, ds = '0' :: tail := by
        cases ds with
        | nil => cases hhead
        | cons c tail => exact ⟨tail, by rw [Option.some.inj hhead]⟩
      exact hlead _ rfl
  obtain ⟨cs, rfl, halone⟩ := scanFraction_excerpt _ _ _ _ _ hwhole.2
  refine ⟨ds ++ cs, by simp, ?_⟩
  rw [List.map_append, scanNumber_whole negative hwhole.1, halone]
  intro c tail hc
  exact hend c (tail ++ r) (by rw [hc]; rfl)

/-! ## Blanks -/

/-- Nothing but blanks. -/
def Blanks (b : List Symbol) : Prop := ∀ s ∈ b, ∃ c, IsBlank c ∧ s = .char c

theorem Blanks.clean {b : List Symbol} (h : Blanks b) : Symbol.Clean b := by
  intro s hs
  obtain ⟨c, -, rfl⟩ := h s hs
  exact nofun

namespace Scan

theorem exists_blanks (w : List Symbol) : ∃ b, Blanks b ∧ w = b ++ skipBlanks w := by
  induction w with
  | nil => exact ⟨[], List.forall_mem_nil _, rfl⟩
  | cons s w ih =>
    cases s with
    | stray => exact ⟨[], List.forall_mem_nil _, rfl⟩
    | char c =>
      rw [skipBlanks]
      split
      · rename_i hc
        obtain ⟨b, hb, hw⟩ := ih
        exact ⟨.char c :: b, List.forall_mem_cons.mpr ⟨⟨c, hc, rfl⟩, hb⟩,
          congrArg (.char c :: ·) hw⟩
      · exact ⟨[], List.forall_mem_nil _, rfl⟩

theorem skipBlanks_blanks {b : List Symbol} (hb : Blanks b) (v : List Symbol) :
    skipBlanks (b ++ v) = skipBlanks v := by
  induction b with
  | nil => rfl
  | cons s b ih =>
    obtain ⟨⟨c, hc, rfl⟩, hrest⟩ := List.forall_mem_cons.mp hb
    rw [List.cons_append, skipBlanks]
    exact (if_pos hc).trans (ih hrest)

theorem skipBlanks_skipBlanks (w : List Symbol) : skipBlanks (skipBlanks w) = skipBlanks w := by
  obtain ⟨b, hb, hw⟩ := exists_blanks w
  rw [← skipBlanks_blanks hb, ← hw]

/-- Where no blank stood before some symbols, none stands before them in another text. -/
theorem skipBlanks_start {u r : List Symbol} (hne : u ≠ []) (h : skipBlanks (u ++ r) = u ++ r)
    (v : List Symbol) : skipBlanks (u ++ v) = u ++ v := by
  cases u with
  | nil => exact absurd rfl hne
  | cons s u =>
    cases s with
    | stray => rfl
    | char c => exact skipBlanks_of_not_isBlank (not_isBlank_of_skipBlanks h) _

theorem endsNumber_blanks {b v : List Symbol} (hb : Blanks b) (hv : EndsNumber v) :
    EndsNumber (b ++ v) := by
  cases b with
  | nil => exact hv
  | cons s b =>
    obtain ⟨⟨c, hc, rfl⟩, -⟩ := List.forall_mem_cons.mp hb
    intro d tail hd
    cases hd
    rcases hc with rfl | rfl | rfl | rfl <;> decide

/-! ## Values -/

theorem literal_excerpt {d : Doc} {letters : List Char} {w : List Symbol} {found : Doc}
    {r : List Symbol} (h : literal d letters w = ⟨found, some r⟩) :
    w = letters.map .char ++ r ∧ literal d letters (letters.map .char) = ⟨found, some []⟩ := by
  induction letters generalizing w with
  | nil =>
    cases h
    exact ⟨rfl, rfl⟩
  | cons c letters ih =>
    cases w with
    | nil => cases h
    | cons s w =>
      rw [literal] at h
      split at h
      · rename_i hs
        obtain ⟨rfl, halone⟩ := ih h
        refine ⟨congrArg (· :: _) hs, ?_⟩
        rw [List.map_cons, literal, if_pos rfl]
        exact halone
      · cases h

/-- The value can be taken apart: no literal in it has a fault. -/
def Sound (d : Doc) : Prop := d.verify .value = .ok ()

/-- With so much fuel, what is read of a value can be cut out, and it is read with any fuel that
covers it. -/
def ValueExcerpt (fuel : Nat) : Prop :=
  ∀ w d r, value fuel w = ⟨d, some r⟩ → ∃ u, w = u ++ r ∧
    (∀ fuel', u.length ≤ fuel' → value fuel' u = ⟨d, some []⟩) ∧ (Sound d → Symbol.Clean u)

def ItemsExcerpt (fuel : Nat) : Prop :=
  ∀ w found stop r, items fuel w = (found, stop, some r) → ∃ u, w = u ++ r ∧
    (∀ fuel', u.length ≤ fuel' → items fuel' u = (found, stop, some [])) ∧
    (Doc.verifyItems .value stop found = .ok () → Symbol.Clean u)

def MembersExcerpt (fuel : Nat) : Prop :=
  ∀ w found stop r, members fuel w = (found, stop, some r) → ∃ u, w = u ++ r ∧
    (∀ fuel', u.length ≤ fuel' → members fuel' u = (found, stop, some [])) ∧
    (Doc.verifyMembers .value stop found = .ok () → Symbol.Clean u)

theorem verifyItems_cons {origin : Origin} {stop : Option Fault} {item : Sourced Doc}
    {rest : List (Sourced Doc)} : Doc.verifyItems origin stop (item :: rest) = .ok () ↔
      item.value.verify origin = .ok () ∧ Doc.verifyItems origin stop rest = .ok () := by
  obtain ⟨d, text⟩ := item
  rw [Doc.verifyItems, Outcome.check_bind_eq_ok_iff]

theorem verifyMembers_cons {origin : Origin} {stop : Option Fault} {name : Token String}
    {item : Sourced Doc} {rest : List (Token String × Sourced Doc)} :
    Doc.verifyMembers origin stop ((name, item) :: rest) = .ok () ↔
      (∃ s, name.reading = .ok s) ∧ item.value.verify origin = .ok () ∧
        Doc.verifyMembers origin stop rest = .ok () := by
  obtain ⟨d, text⟩ := item
  rw [Doc.verifyMembers, Outcome.bind_eq_ok_iff]
  simp only [Token.read, Outcome.mapError_eq_ok_iff, Outcome.check_bind_eq_ok_iff, exists_and_right]

/-- A value with its text can be cut out, behind blanks and in front of what ends a number. -/
theorem cite_excerpt {fuel : Nat} (hvalue : ValueExcerpt fuel) {w : List Symbol}
    {item : Sourced Doc} {r : List Symbol}
    (h : cite (skipBlanks w) (value fuel (skipBlanks w)) = ⟨item, some r⟩) :
    ∃ u, w = u ++ r ∧ (Sound item.value → Symbol.Clean u) ∧
      ∀ fuel' v, u.length ≤ fuel' → EndsNumber v →
        cite (skipBlanks (u ++ v)) (value fuel' (skipBlanks (u ++ v))) = ⟨item, some v⟩ := by
  obtain ⟨⟨d, rest⟩, hd⟩ : ∃ x, value fuel (skipBlanks w) = x := ⟨_, rfl⟩
  simp only [cite, hd, Scanned.mk.injEq] at h
  obtain ⟨rfl, rfl⟩ := h
  obtain ⟨b, hb, hw⟩ := exists_blanks w
  obtain ⟨u, hu, halone, hclean⟩ := hvalue _ _ _ hd
  have hread := halone _ (Nat.le_refl _)
  have hne : u ≠ [] := by
    rintro rfl
    cases hread
  have hstart := skipBlanks_start hne (hu ▸ skipBlanks_skipBlanks w)
  refine ⟨b ++ u, by rw [List.append_assoc, ← hu, ← hw],
    fun hs => Symbol.clean_append.mpr ⟨hb.clean, hclean hs⟩, fun fuel' v hfuel hv => ?_⟩
  rw [List.length_append] at hfuel
  have happ : value fuel' (u ++ v) = ⟨d, some ([] ++ v)⟩ :=
    value_append hread (Nat.le_trans (Nat.le_add_left _ _) hfuel) fun _ => hv
  have hcited : between (u ++ v) v = between (skipBlanks w) r := by
    rw [hu, between, between]
    simp
  rw [List.append_assoc, skipBlanks_blanks hb, hstart, happ]
  simp only [cite, List.nil_append, Option.getD_some, hcited]

/-- Items do not begin with a blank, so those in front of them stay there. -/
theorem items_start {w u r : List Symbol} {found : List (Sourced Doc)} {stop : Option Fault}
    (hu : skipBlanks w = u ++ r)
    (halone : ∀ fuel', u.length ≤ fuel' → items fuel' u = (found, stop, some [])) :
    u ≠ [] ∧ ∀ b, Blanks b → skipBlanks (b ++ u) = u := by
  have hne : u ≠ [] := by
    rintro rfl
    have hnil := halone 1 (Nat.zero_le _)
    simp [items, cite, skipBlanks, value] at hnil
  refine ⟨hne, fun b hb => ?_⟩
  rw [skipBlanks_blanks hb]
  simpa using skipBlanks_start hne (hu ▸ skipBlanks_skipBlanks w) []

theorem items_excerpt_succ {fuel : Nat} (hvalue : ValueExcerpt fuel) (hitems : ItemsExcerpt fuel) :
    ItemsExcerpt (fuel + 1) := by
  intro w found stop r h
  obtain ⟨⟨item, rest⟩, hitem⟩ :
      ∃ x, cite (skipBlanks w) (value fuel (skipBlanks w)) = x := ⟨_, rfl⟩
  simp only [items, hitem] at h
  cases rest with
  | none => cases h
  | some rest =>
  obtain ⟨u, rfl, hclean, halone⟩ := cite_excerpt hvalue hitem
  obtain ⟨b, hb, hrest⟩ := exists_blanks rest
  simp only at h
  split at h
  · cases h
  · rename_i tail hs
    cases h
    rw [hs] at hrest
    refine ⟨u ++ (b ++ [.char ']']), by simp [hrest], fun fuel' hfuel => ?_, fun hsound => ?_⟩
    · rw [List.length_append] at hfuel
      obtain ⟨fuel', rfl⟩ : ∃ n, fuel' = n + 1 := ⟨fuel' - 1, by simp at hfuel; omega⟩
      have hcite := halone fuel' (b ++ [.char ']']) (by simp at hfuel; omega)
        (endsNumber_blanks hb (endsNumber_bracket []))
      simp only [items, hcite, skipBlanks_blanks hb]
      rfl
    · simp [hclean (verifyItems_cons.mp hsound).1, hb.clean]
  · rename_i tail hs
    rw [hs] at hrest
    split at h
    · cases h
    · rename_i hnot
      obtain ⟨⟨found', stop', rest'⟩, hmore⟩ : ∃ x, items fuel (skipBlanks tail) = x := ⟨_, rfl⟩
      rw [hmore] at h
      cases h
      obtain ⟨b', hb', htail⟩ := exists_blanks tail
      obtain ⟨u', hu', halone', hclean'⟩ := hitems _ _ _ _ hmore
      refine ⟨u ++ (b ++ .char ',' :: (b' ++ u')), by simp [hrest, ← hu', ← htail],
        fun fuel' hfuel => ?_, fun hsound => ?_⟩
      · simp only [List.length_append, List.length_cons] at hfuel
        obtain ⟨fuel', rfl⟩ : ∃ n, fuel' = n + 1 := ⟨fuel' - 1, by omega⟩
        have hcite := halone fuel' (b ++ .char ',' :: (b' ++ u')) (by omega)
          (endsNumber_blanks hb (endsNumber_comma _))
        have hnext := (items_start hu' halone').2 b' hb'
        have hcomma : skipBlanks (.char ',' :: (b' ++ u')) = .char ',' :: (b' ++ u') :=
          skipBlanks_of_not_isBlank (by decide) _
        simp only [items, hcite, skipBlanks_blanks hb, hcomma, hnext]
        split
        · exact (hnot _ hu').elim
        · rw [halone' fuel' (by omega)]
      · obtain ⟨hfirst, hothers⟩ := verifyItems_cons.mp hsound
        simp [hclean hfirst, hb.clean, hb'.clean, hclean' hothers]
  · cases h

/-- A member can be cut out, its name and its colon in front of the value. -/
theorem member_excerpt {fuel : Nat} (hvalue : ValueExcerpt fuel) {w afterName colon : List Symbol}
    {name : Token String} {item : Sourced Doc} {r : List Symbol}
    (hname : scanString w = ⟨name, some afterName⟩)
    (hcolon : skipBlanks afterName = .char ':' :: colon)
    (hitem : cite (skipBlanks colon) (value fuel (skipBlanks colon)) = ⟨item, some r⟩) :
    ∃ u, w = u ++ r ∧
      ((∃ s, name.reading = .ok s) → Sound item.value → Symbol.Clean u) ∧
      ∀ fuel' v, u.length ≤ fuel' → EndsNumber v → ∃ afterName' colon',
        scanString (u ++ v) = ⟨name, some afterName'⟩ ∧
        skipBlanks afterName' = .char ':' :: colon' ∧
        cite (skipBlanks colon') (value fuel' (skipBlanks colon')) = ⟨item, some v⟩ := by
  obtain ⟨n, rfl, hnameAlone, -, hnameClean⟩ := scanString_excerpt hname
  obtain ⟨b, hb, hafter⟩ := exists_blanks afterName
  obtain ⟨u, rfl, hclean, halone⟩ := cite_excerpt hvalue hitem
  rw [hcolon] at hafter
  refine ⟨n ++ (b ++ .char ':' :: u), by simp [hafter], ?_, fun fuel' v hfuel hv => ?_⟩
  · rintro ⟨s, hread⟩ hsound
    simp [hnameClean s hread, hclean hsound, hb.clean]
  · simp only [List.length_append, List.length_cons] at hfuel
    refine ⟨b ++ .char ':' :: (u ++ v), u ++ v, ?_, ?_, halone fuel' v (by omega) hv⟩
    · have happ := (scanString_append hnameAlone).2 (b ++ .char ':' :: (u ++ v))
      simpa using happ
    · rw [skipBlanks_blanks hb]
      exact skipBlanks_of_not_isBlank (by decide) _

theorem members_excerpt_succ {fuel : Nat} (hvalue : ValueExcerpt fuel)
    (hmembers : MembersExcerpt fuel) : MembersExcerpt (fuel + 1) := by
  intro w found stop r h
  obtain ⟨⟨name, afterName⟩, hname⟩ : ∃ x, scanString w = x := ⟨_, rfl⟩
  simp only [members, hname] at h
  cases afterName with
  | none => cases h
  | some afterName =>
  simp only at h
  split at h
  · cases h
  · rename_i colon hcolon
    obtain ⟨⟨item, rest⟩, hitem⟩ :
        ∃ x, cite (skipBlanks colon) (value fuel (skipBlanks colon)) = x := ⟨_, rfl⟩
    rw [hitem] at h
    cases rest with
    | none => cases h
    | some rest =>
    obtain ⟨u, rfl, hclean, halone⟩ := member_excerpt hvalue hname hcolon hitem
    obtain ⟨b, hb, hrest⟩ := exists_blanks rest
    simp only at h
    split at h
    · cases h
    · rename_i tail hs
      cases h
      rw [hs] at hrest
      refine ⟨u ++ (b ++ [.char '\x7d']), by simp [hrest], fun fuel' hfuel => ?_, fun hsound => ?_⟩
      · simp only [List.length_append, List.length_cons] at hfuel
        obtain ⟨fuel', rfl⟩ : ∃ n, fuel' = n + 1 := ⟨fuel' - 1, by omega⟩
        obtain ⟨afterName', colon', hn, hc, hi⟩ := halone fuel' (b ++ [.char '\x7d']) (by omega)
          (endsNumber_blanks hb (endsNumber_brace []))
        simp only [members, hn, hc, hi, skipBlanks_blanks hb]
        rfl
      · obtain ⟨hread, hvalueSound, -⟩ := verifyMembers_cons.mp hsound
        simp [hclean hread hvalueSound, hb.clean]
    · rename_i tail hs
      rw [hs] at hrest
      obtain ⟨b', hb', htail⟩ := exists_blanks tail
      split at h
      · cases h
      · rename_i next hnext
        rw [hnext] at htail
        obtain ⟨⟨found', stop', rest'⟩, hmore⟩ : ∃ x, members fuel next = x := ⟨_, rfl⟩
        rw [hmore] at h
        cases h
        obtain ⟨u', rfl, halone', hclean'⟩ := hmembers _ _ _ _ hmore
        refine ⟨u ++ (b ++ .char ',' :: (b' ++ .char '"' :: u')), by simp [hrest, htail],
          fun fuel' hfuel => ?_, fun hsound => ?_⟩
        · simp only [List.length_append, List.length_cons] at hfuel
          obtain ⟨fuel', rfl⟩ : ∃ n, fuel' = n + 1 := ⟨fuel' - 1, by omega⟩
          obtain ⟨afterName', colon', hn, hc, hi⟩ :=
            halone fuel' (b ++ .char ',' :: (b' ++ .char '"' :: u')) (by omega)
              (endsNumber_blanks hb (endsNumber_comma _))
          have hcomma : skipBlanks (.char ',' :: (b' ++ .char '"' :: u')) =
              .char ',' :: (b' ++ .char '"' :: u') := skipBlanks_of_not_isBlank (by decide) _
          have hquote : skipBlanks (.char '"' :: u') = .char '"' :: u' :=
            skipBlanks_of_not_isBlank (by decide) _
          simp only [members, hn, hc, hi, skipBlanks_blanks hb, hcomma, skipBlanks_blanks hb',
            hquote, halone' fuel' (by omega)]
        · obtain ⟨hread, hvalueSound, hothers⟩ := verifyMembers_cons.mp hsound
          simp [hclean hread hvalueSound, hb.clean, hb'.clean, hclean' hothers]
      · cases h
      · cases h
    · cases h
  · cases h

theorem array_excerpt {fuel : Nat} (hitems : ItemsExcerpt fuel) {w : List Symbol} {d : Doc}
    {r : List Symbol} (h : array fuel w = ⟨d, some r⟩) : ∃ u, w = u ++ r ∧
      (∀ fuel', u.length ≤ fuel' → array fuel' u = ⟨d, some []⟩) ∧ (Sound d → Symbol.Clean u) := by
  unfold array at h
  obtain ⟨b, hb, hw⟩ := exists_blanks w
  split at h
  · cases h
  · rename_i tail hs
    cases h
    rw [hs] at hw
    refine ⟨b ++ [.char ']'], by simp [hw], fun fuel' _ => ?_, fun _ => by simp [hb.clean]⟩
    unfold array
    rw [skipBlanks_blanks hb]
    rfl
  · rename_i hempty hend
    obtain ⟨⟨found, stop, rest⟩, hmore⟩ : ∃ x, items fuel (skipBlanks w) = x := ⟨_, rfl⟩
    rw [hmore] at h
    cases h
    obtain ⟨u, hu, halone, hclean⟩ := hitems _ _ _ _ hmore
    obtain ⟨hne, hstart⟩ := items_start hu halone
    refine ⟨b ++ u, by rw [List.append_assoc, ← hu, ← hw], fun fuel' hfuel => ?_, fun hsound => ?_⟩
    · rw [List.length_append] at hfuel
      unfold array
      rw [hstart b hb]
      split
      · exact absurd rfl hne
      · exact (hend _ hu).elim
      · rw [halone fuel' (by omega)]
    · have hfound : Doc.verifyItems .value stop found = .ok () := hsound
      simp [hb.clean, hclean hfound]

theorem object_excerpt {fuel : Nat} (hmembers : MembersExcerpt fuel) {w : List Symbol} {d : Doc}
    {r : List Symbol} (h : object fuel w = ⟨d, some r⟩) : ∃ u, w = u ++ r ∧
      (∀ fuel', u.length ≤ fuel' → object fuel' u = ⟨d, some []⟩) ∧ (Sound d → Symbol.Clean u) := by
  unfold object at h
  obtain ⟨b, hb, hw⟩ := exists_blanks w
  split at h
  · cases h
  · rename_i tail hs
    cases h
    rw [hs] at hw
    refine ⟨b ++ [.char '\x7d'], by simp [hw], fun fuel' _ => ?_, fun _ => by simp [hb.clean]⟩
    unfold object
    rw [skipBlanks_blanks hb]
    rfl
  · rename_i tail hs
    rw [hs] at hw
    obtain ⟨⟨found, stop, rest⟩, hmore⟩ : ∃ x, members fuel tail = x := ⟨_, rfl⟩
    rw [hmore] at h
    cases h
    obtain ⟨u, rfl, halone, hclean⟩ := hmembers _ _ _ _ hmore
    have hquote : skipBlanks (b ++ .char '"' :: u) = .char '"' :: u := by
      rw [skipBlanks_blanks hb]
      exact skipBlanks_of_not_isBlank (by decide) _
    refine ⟨b ++ .char '"' :: u, by simp [hw], fun fuel' hfuel => ?_, fun hsound => ?_⟩
    · simp only [List.length_append, List.length_cons] at hfuel
      unfold object
      simp only [hquote, halone fuel' (by omega)]
    · have hfound : Doc.verifyMembers .value stop found = .ok () := hsound
      simp [hb.clean, hclean hfound]
  · cases h

theorem string_excerpt {w : List Symbol} {d : Doc} {r : List Symbol}
    (h : string w = ⟨d, some r⟩) :
    ∃ u, w = u ++ r ∧ string u = ⟨d, some []⟩ ∧ (Sound d → Symbol.Clean u) := by
  obtain ⟨⟨token, rest⟩, hs⟩ : ∃ x, scanString w = x := ⟨_, rfl⟩
  simp only [string, hs, Scanned.mk.injEq] at h
  obtain ⟨rfl, rfl⟩ := h
  obtain ⟨u, hw, halone, -, hclean⟩ := scanString_excerpt hs
  refine ⟨u, hw, by simp only [string, halone], fun hsound => ?_⟩
  obtain ⟨s, hread, -⟩ := Outcome.map_eq_ok_iff.mp hsound
  exact hclean s (Outcome.mapError_eq_ok_iff.mp hread)

theorem number_excerpt {negative : Bool} {w : List Symbol} {d : Doc} {r : List Symbol}
    (h : number negative w = ⟨d, some r⟩) :
    ∃ cs : List Char, w = cs.map .char ++ r ∧ number negative (cs.map .char) = ⟨d, some []⟩ := by
  obtain ⟨⟨token, rest⟩, hs⟩ : ∃ x, scanNumber negative w = x := ⟨_, rfl⟩
  simp only [number, hs, Scanned.mk.injEq] at h
  obtain ⟨rfl, rfl⟩ := h
  obtain ⟨cs, hw, halone⟩ := scanNumber_excerpt _ _ _ _ hs
  exact ⟨cs, hw, by simp only [number, halone]⟩

theorem value_excerpt_succ {fuel : Nat} (hitems : ItemsExcerpt fuel)
    (hmembers : MembersExcerpt fuel) : ValueExcerpt (fuel + 1) := by
  intro w d r h
  cases w with
  | nil => cases h
  | cons s w =>
  cases s with
  | stray => cases h
  | char c =>
  -- the first character decides how the excerpt is read, too
  have hcons : (∃ u, w = u ++ r ∧ (∀ fuel', u.length ≤ fuel' →
        value (fuel' + 1) (.char c :: u) = ⟨d, some []⟩) ∧ (Sound d → Symbol.Clean u)) →
      ∃ u, .char c :: w = u ++ r ∧ (∀ fuel', u.length ≤ fuel' → value fuel' u = ⟨d, some []⟩) ∧
        (Sound d → Symbol.Clean u) := by
    rintro ⟨u, rfl, halone, hclean⟩
    refine ⟨.char c :: u, rfl, fun fuel' hfuel => ?_, fun hsound => ?_⟩
    · rw [List.length_cons] at hfuel
      obtain ⟨fuel', rfl⟩ : ∃ n, fuel' = n + 1 := ⟨fuel' - 1, by omega⟩
      exact halone fuel' (by omega)
    · exact Symbol.clean_cons.mpr ⟨Symbol.char_ne_stray _, hclean hsound⟩
  cases opening c with
  | literal d' letters heq =>
    rw [heq] at h
    obtain ⟨hw, halone⟩ := literal_excerpt h
    exact hcons ⟨_, hw, fun fuel' _ => (heq _ _).trans halone, fun _ => Symbol.clean_chars _⟩
  | string heq =>
    rw [heq] at h
    obtain ⟨u, hw, halone, hclean⟩ := string_excerpt h
    exact hcons ⟨u, hw, fun fuel' _ => (heq _ _).trans halone, hclean⟩
  | minus heq =>
    rw [heq] at h
    obtain ⟨cs, hw, halone⟩ := number_excerpt h
    exact hcons ⟨_, hw, fun fuel' _ => (heq _ _).trans halone, fun _ => Symbol.clean_chars _⟩
  | digit heq =>
    rw [heq] at h
    obtain ⟨cs, hw, halone⟩ := number_excerpt h
    cases cs with
    | nil => cases halone
    | cons c' cs =>
      cases hw
      exact hcons ⟨_, rfl, fun fuel' _ => (heq _ _).trans halone, fun _ => Symbol.clean_chars _⟩
  | array heq =>
    rw [heq] at h
    obtain ⟨u, hw, halone, hclean⟩ := array_excerpt hitems h
    exact hcons ⟨u, hw, fun fuel' hfuel => (heq _ _).trans (halone fuel' hfuel), hclean⟩
  | object heq =>
    rw [heq] at h
    obtain ⟨u, hw, halone, hclean⟩ := object_excerpt hmembers h
    exact hcons ⟨u, hw, fun fuel' hfuel => (heq _ _).trans (halone fuel' hfuel), hclean⟩
  | nothing heq =>
    rw [heq] at h
    cases h

theorem scan_excerpt (fuel : Nat) :
    ValueExcerpt fuel ∧ ItemsExcerpt fuel ∧ MembersExcerpt fuel := by
  induction fuel with
  | zero =>
    refine ⟨fun w d r h => ?_, fun w found stop r h => ?_, fun w found stop r h => ?_⟩
    · rw [value] at h; cases h
    · rw [items] at h; cases h
    · rw [members] at h; cases h
  | succ fuel ih =>
    obtain ⟨hvalue, hitems, hmembers⟩ := ih
    exact ⟨value_excerpt_succ hitems hmembers, items_excerpt_succ hvalue hitems,
      members_excerpt_succ hvalue hmembers⟩

/-- What is read of a value can be cut out. No byte strays in it if the value can be taken
apart. -/
theorem value_excerpt {fuel : Nat} {w : List Symbol} {d : Doc} {r : List Symbol}
    (h : value fuel w = ⟨d, some r⟩) : ∃ u, w = u ++ r ∧
      (∀ fuel', u.length ≤ fuel' → value fuel' u = ⟨d, some []⟩) ∧ (Sound d → Symbol.Clean u) :=
  (scan_excerpt fuel).1 w d r h

end Scan

end ContextProtocol
