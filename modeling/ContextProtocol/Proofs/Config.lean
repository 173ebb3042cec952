import ContextProtocol.Message.Handshake
import ContextProtocol.Proofs.Validated
import Mathlib

/-!
# Where a configuration comes from

A configuration is taken from two variables or from a document. What a variable holds is a text of
any kind, and the size is taken from it when the text **writes** one, with blanks around it at will.
Nothing else is taken over, so the rules of a configuration cannot be broken that way; a document
that breaks them is refused. The handshake asks for no more than these rules give.

* `Text.Trims`: a text without the blanks around it;
* `Numeral.DigitsWrite`: the number that digits write;
* `Config.WritesSize`: the texts that write a size;
* `Config.FromVariables`: what a configuration says where two variables have been looked up;
* `Config.Loaded`: the configurations of both sources.

Results:
* `Text.trims_iff`, `Numeral.digitsWrite_iff`: the functions find what is described.
* `size?_eq_some_iff`, `version?_eq_some_iff`: when a variable is taken over.
* `fromVariables_fromLookup`: what is taken over from two variables.
* `check_of_ofToml`: what is taken over from a document.
* `loaded_opens`: each of these configurations obeys the rules and opens a connection.
-/
namespace ContextProtocol

namespace Text

/-- The first text is the second with blanks around it, and the second neither begins nor ends with
one. -/
structure Trims (text core : List Char) : Prop where
  split : ∃ before after, text = before ++ (core ++ after) ∧
    (∀ c ∈ before, isBlank c = true) ∧ ∀ c ∈ after, isBlank c = true
  first : ∀ c ∈ core.head?, isBlank c = false
  last : ∀ c ∈ core.getLast?, isBlank c = false

theorem dropWhile_blanks {before rest : List Char} (hbefore : ∀ c ∈ before, isBlank c = true)
    (hrest : ∀ c ∈ rest.head?, isBlank c = false) : (before ++ rest).dropWhile isBlank = rest := by
  rw [List.dropWhile_append_of_pos hbefore]
  cases rest with
  | nil => rfl
  | cons c rest => exact List.dropWhile_cons_of_neg (by simp [hrest c rfl])

theorem Trims.trim_eq {text core : List Char} (h : Trims text core) : trim text = core := by
  obtain ⟨⟨before, after, rfl, hbefore, hafter⟩, hfirst, hlast⟩ := h
  cases core with
  | nil =>
    rw [trim_eq_nil_iff, List.nil_append, List.forall_mem_append]
    exact ⟨hbefore, hafter⟩
  | cons c core =>
    have hback : (c :: core ++ after).reverse.dropWhile isBlank = (c :: core).reverse := by
      rw [List.reverse_append]
      refine dropWhile_blanks (by simpa using hafter) ?_
      rw [List.head?_reverse]
      exact hlast
    have hfront : ∀ d ∈ (c :: core ++ after).head?, isBlank d = false := hfirst
    rw [trim, dropWhile_blanks hbefore hfront, hback, List.reverse_reverse]

theorem not_isBlank_of_head_dropWhile {text : List Char} {c : Char}
    (h : c ∈ (text.dropWhile isBlank).head?) : isBlank c = false := by
  have hstop := List.head?_dropWhile_not isBlank text
  rw [h] at hstop
  exact hstop

theorem trims_trim (text : List Char) : Trims text (trim text) := by
  have hback : text.dropWhile isBlank =
      trim text ++ ((text.dropWhile isBlank).reverse.takeWhile isBlank).reverse := by
    rw [trim, ← List.reverse_append, List.takeWhile_append_dropWhile, List.reverse_reverse]
  have hblank (l : List Char) : ∀ c ∈ l.takeWhile isBlank, isBlank c = true :=
    fun _ => List.mem_takeWhile_imp
  constructor
  · refine ⟨text.takeWhile isBlank, ((text.dropWhile isBlank).reverse.takeWhile isBlank).reverse,
      ?_, hblank text, fun c hc => hblank _ c (List.mem_reverse.mp hc)⟩
    rw [← hback, List.takeWhile_append_dropWhile]
  · intro c hc
    have hhead : c ∈ (text.dropWhile isBlank).head? := by
      rw [hback, List.head?_append, hc]
      rfl
    exact not_isBlank_of_head_dropWhile hhead
  · intro c hc
    rw [trim, List.getLast?_reverse] at hc
    exact not_isBlank_of_head_dropWhile hc

theorem trims_iff {text core : List Char} : Trims text core ↔ trim text = core :=
  ⟨Trims.trim_eq, fun h => h ▸ trims_trim text⟩

end Text

namespace Numeral

/-- The digits, of which there is at least one, write the number. -/
inductive DigitsWrite : List Char → Nat → Prop where
  | digit {d : Nat} (hd : d < 10) : DigitsWrite [d.digitChar] d
  | snoc {digits : List Char} {n d : Nat} (h : DigitsWrite digits n) (hd : d < 10) :
      DigitsWrite (digits ++ [d.digitChar]) (10 * n + d)

theorem ofDigits_snoc (digits : List Char) (c : Char) :
    ofDigits (digits ++ [c]) = 10 * ofDigits digits + (c.toNat - '0'.toNat) :=
  List.foldl_append ..

theorem exists_digitChar {c : Char} (h : c.isDigit = true) : ∃ d < 10, d.digitChar = c := by
  obtain ⟨hlow, hhigh⟩ := Char.isDigit_iff_toNat.mp h
  have hd : c.toNat - '0'.toNat < 10 := by
    have hspan : '9'.toNat = '0'.toNat + 9 := rfl
    omega
  refine ⟨c.toNat - '0'.toNat, hd, Char.toNat_inj.mp ?_⟩
  rw [Nat.toNat_digitChar_of_lt_ten hd]
  exact Nat.add_sub_cancel' hlow

theorem toNat_digitChar_sub {d : Nat} (hd : d < 10) : d.digitChar.toNat - '0'.toNat = d :=
  Nat.toNat_digitChar_sub_48_of_lt_ten hd

theorem digitsWrite_iff {digits : List Char} {n : Nat} : DigitsWrite digits n ↔
    digits ≠ [] ∧ digits.all Char.isDigit = true ∧ ofDigits digits = n := by
  constructor
  · intro h
    induction h with
    | digit hd =>
      refine ⟨List.cons_ne_nil _ _, ?_, ?_⟩
      · simp [Nat.isDigit_digitChar, hd]
      · exact (Nat.zero_add _).trans (toNat_digitChar_sub hd)
    | snoc h hd ih =>
      obtain ⟨hne, hall, hvalue⟩ := ih
      refine ⟨by simp, ?_, ?_⟩
      · simp [hall, Nat.isDigit_digitChar, hd]
      · rw [ofDigits_snoc, hvalue, toNat_digitChar_sub hd]
  · rintro ⟨hne, hall, rfl⟩
    induction digits using List.reverseRecOn with
    | nil => exact absurd rfl hne
    | append_singleton digits c ih =>
      rw [List.all_append, Bool.and_eq_true] at hall
      obtain ⟨hdigits, hc⟩ := hall
      obtain ⟨d, hd, rfl⟩ := exists_digitChar (by simpa using hc)
      rw [ofDigits_snoc, toNat_digitChar_sub hd]
      by_cases hnil : digits = []
      · subst hnil
        exact (Nat.zero_add d).symm ▸ .digit hd
      · exact .snoc (ih hnil hdigits) hd

end Numeral

namespace Config

/-- But for the blanks around it, the text is the digits of a number from 1 to `2 ^ 64 - 1`, and may
have a plus sign before them. -/
def WritesSize (text : String) (n : Nat) : Prop :=
  ∃ core digits, Text.Trims text.toList core ∧ (core = digits ∨ core = '+' :: digits) ∧
    Numeral.DigitsWrite digits n ∧ 1 ≤ n ∧ n ≤ 2 ^ 64 - 1

/-- The configuration says what the variables say: each of them is taken over where it makes sense,
and leaves the default otherwise. -/
structure FromVariables (lookup : String → Option String) (c : Config) : Prop where
  size : ∀ text n, lookup maxMessageSizeVariable = some text → WritesSize text n →
    c.maxMessageSize.toNat = n
  sizeDefault : (∀ text, lookup maxMessageSizeVariable = some text → ∀ n, ¬ WritesSize text n) →
    c.maxMessageSize = defaultMaxMessageSize
  version : ∀ text version, lookup protocolVersionVariable = some text → version ≠ "" →
    Text.Trims text.toList version.toList → c.protocolVersion = version
  versionDefault : (∀ text, lookup protocolVersionVariable = some text →
    Text.Trims text.toList []) → c.protocolVersion = defaultProtocolVersion

/-- The configurations that variables and documents give. -/
inductive Loaded (c : Config) : Prop where
  | lookup (lookup : String → Option String) (h : fromLookup lookup = c)
  | document (document : String) (h : ofToml document = .ok c)
  | file (bytes : ByteArray) (h : ofBytes bytes = .ok c)

/-- A text without the plus sign that it may begin with. -/
def unsigned : List Char → List Char
  | '+' :: rest => rest
  | text => text

theorem eq_unsigned (text : List Char) : text = unsigned text ∨ text = '+' :: unsigned text := by
  unfold unsigned
  split
  · exact .inr rfl
  · exact .inl rfl

theorem unsigned_eq {core digits : List Char} (h : core = digits ∨ core = '+' :: digits)
    (hdigits : digits.all Char.isDigit = true) : unsigned core = digits := by
  rcases h with rfl | rfl
  · unfold unsigned
    split
    · cases hdigits
    · rfl
  · rfl

theorem size?_eq_some_iff {text : String} {n : UInt64} :
    size? text = some n ↔ WritesSize text n.toNat := by
  have hsize : size? text =
      if unsigned (Text.trim text.toList) ≠ [] ∧
          (unsigned (Text.trim text.toList)).all Char.isDigit ∧
          0 < Numeral.ofDigits (unsigned (Text.trim text.toList)) ∧
          Numeral.ofDigits (unsigned (Text.trim text.toList)) < UInt64.size
        then some (.ofNat (Numeral.ofDigits (unsigned (Text.trim text.toList)))) else none := rfl
  rw [hsize, Option.ite_none_right_eq_some, Option.some.injEq]
  constructor
  · rintro ⟨⟨hne, hall, hpos, hlt⟩, rfl⟩
    refine ⟨_, _, Text.trims_trim _, eq_unsigned _, Numeral.digitsWrite_iff.mpr ⟨hne, hall, ?_⟩, ?_⟩
    all_goals rw [UInt64.toNat_ofNat_of_lt' hlt]
    exact ⟨hpos, Nat.le_sub_one_of_lt hlt⟩
  · rintro ⟨core, digits, hcore, hsign, hwrites, hpos, hle⟩
    obtain ⟨hne, hall, hvalue⟩ := Numeral.digitsWrite_iff.mp hwrites
    rw [hcore.trim_eq, unsigned_eq hsign hall, hvalue]
    exact ⟨⟨hne, hall, hpos, n.toNat_lt⟩, UInt64.ofNat_toNat⟩

theorem version?_eq_some_iff {text version : String} :
    version? text = some version ↔ version ≠ "" ∧ Text.Trims text.toList version.toList := by
  rw [Text.trims_iff, version?]
  split
  · rename_i htrim
    rw [htrim]
    refine ⟨nofun, fun ⟨hne, h⟩ => absurd ?_ hne⟩
    exact String.toList_eq_nil_iff.mp h.symm
  · rename_i cs hne
    rw [Option.some.injEq]
    constructor
    · rintro rfl
      exact ⟨fun h => hne (by simpa using h), String.toList_ofList.symm⟩
    · rintro ⟨-, h⟩
      rw [h, String.ofList_toList]

theorem version?_eq_none_iff {text : String} :
    version? text = none ↔ Text.Trims text.toList [] := by
  rw [Text.trims_iff, version?]
  split
  · rename_i htrim
    exact iff_of_true rfl htrim
  · rename_i cs hne
    exact iff_of_false nofun hne

theorem size?_of_writes {text : String} {n : Nat} (h : WritesSize text n) :
    ∃ size, size? text = some size ∧ size.toNat = n := by
  have hlt : n < UInt64.size := by
    obtain ⟨core, digits, -, -, -, -, hle⟩ := h
    exact Nat.lt_of_le_sub_one (by decide) hle
  have hsize : (UInt64.ofNat n).toNat = n := UInt64.toNat_ofNat_of_lt' hlt
  exact ⟨.ofNat n, size?_eq_some_iff.mpr (hsize.symm ▸ h), hsize⟩

/-- Each field comes from its variable, or is the default where that has no sense. -/
theorem fromVariables_fromLookup (lookup : String → Option String) :
    FromVariables lookup (fromLookup lookup) where
  size text n htext hn := by
    obtain ⟨size, hsize, rfl⟩ := size?_of_writes hn
    rw [fromLookup, htext, Option.bind_some, hsize, Option.getD_some]
  sizeDefault h := by
    have hnone : (lookup maxMessageSizeVariable).bind size? = none := by
      rw [Option.eq_none_iff_forall_ne_some]
      intro n hn
      obtain ⟨text, htext, hsize⟩ := Option.bind_eq_some_iff.mp hn
      exact h text htext _ (size?_eq_some_iff.mp hsize)
    rw [fromLookup, hnone, Option.getD_none]
  version text version htext hne hversion := by
    rw [fromLookup, htext, Option.bind_some, version?_eq_some_iff.mpr ⟨hne, hversion⟩,
      Option.getD_some]
  versionDefault h := by
    have hnone : (lookup protocolVersionVariable).bind version? = none := by
      rw [Option.bind_eq_none_iff]
      exact fun text htext => version?_eq_none_iff.mpr (h text htext)
    rw [fromLookup, hnone, Option.getD_none]

/-- A document is held against the rules at the end. -/
theorem check_of_ofToml {document : String} {c : Config} (h : ofToml document = .ok c) :
    c.check = .ok () := by
  obtain ⟨entries, -, h⟩ := Outcome.bind_eq_ok_iff.mp h
  split at h
  · cases h
  · obtain ⟨config, -, h⟩ := Outcome.bind_eq_ok_iff.mp h
    obtain ⟨hrules, rfl⟩ := Outcome.check_bind_ok_iff.mp h
    exact hrules

theorem Loaded.check {c : Config} (h : c.Loaded) : c.check = .ok () := by
  cases h with
  | lookup lookup h => exact h ▸ check_fromLookup lookup
  | document document h => exact check_of_ofToml h
  | file bytes h =>
    unfold ofBytes at h
    split at h
    · cases h
    · exact check_of_ofToml h

/-- An opening that takes its version from a configuration asks for no more than the rules of the
configuration give. -/
theorem new_ofConfig {c : Config} (h : c.check = .ok ()) {info : Implementation}
    (hinfo : Valid info) :
    (InitializeRequest.new info [.ofConfig c]).result = .ok ⟨c.protocolVersion, .none, info⟩ := by
  have hversion : checkNonEmpty "protocolVersion" c.protocolVersion = .ok () :=
    (checkNonEmpty_eq_ok_iff ..).mpr ((check_eq_ok_iff c).mp h).2
  have hrules : validate info = .ok () := hinfo
  refine build_eq_ok_iff.mpr ⟨?_, ?_⟩
  · show (checkNonEmpty "protocolVersion" c.protocolVersion >>= fun _ => _) >>= _ = _
    rw [hversion]
    rfl
  · show (checkNonEmpty "protocolVersion" c.protocolVersion >>= fun _ => _) = _
    rw [hversion, hrules]
    rfl

/-- Whatever two variables hold, they give a configuration that obeys the rules and says what they
say, each of its fields from one of them alone. A document that gives a configuration gives one that
obeys the rules. And each of these configurations opens a connection, in the version it names. -/
theorem loaded_opens :
    (∀ lookup, (fromLookup lookup).check = .ok () ∧ FromVariables lookup (fromLookup lookup)) ∧
    (∀ lookup lookup',
      (lookup maxMessageSizeVariable = lookup' maxMessageSizeVariable →
        (fromLookup lookup).maxMessageSize = (fromLookup lookup').maxMessageSize) ∧
      (lookup protocolVersionVariable = lookup' protocolVersionVariable →
        (fromLookup lookup).protocolVersion = (fromLookup lookup').protocolVersion)) ∧
    (∀ document c, ofToml document = .ok c → c.check = .ok ()) ∧
    ∀ c : Config, c.Loaded → ∀ info : Implementation, Valid info →
      (InitializeRequest.new info [.ofConfig c]).result =
        .ok ⟨c.protocolVersion, .none, info⟩ := by
  refine ⟨fun lookup => ⟨check_fromLookup lookup, fromVariables_fromLookup lookup⟩,
    fun lookup lookup' => ⟨fun h => ?_, fun h => ?_⟩, fun document c => check_of_ofToml,
    fun c hc info => new_ofConfig hc.check⟩
  · rw [fromLookup, fromLookup, h]
  · rw [fromLookup, fromLookup, h]

/-- A size with a sign, zeros and blanks is taken over, and a blank version is not. A document sets
the version alone. -/
theorem loaded_opens_signed :
    let lookup (name : String) : Option String :=
      if name = maxMessageSizeVariable then some " +042\n" else some "\t "
    let info : Implementation := ⟨"client", "1"⟩
    WritesSize " +042\n" 42 ∧ (fromLookup lookup).maxMessageSize.toNat = 42 ∧
      Text.Trims "\t ".toList [] ∧
      (fromLookup lookup).protocolVersion = defaultProtocolVersion ∧
      ofToml "protocol_version = '2'" = .ok ⟨defaultMaxMessageSize, "2"⟩ ∧ Valid info ∧
      (InitializeRequest.new info [.ofConfig ⟨defaultMaxMessageSize, "2"⟩]).result =
        .ok ⟨"2", .none, info⟩ := by
  intro lookup info
  have hsize : WritesSize " +042\n" 42 :=
    ⟨['+', '0', '4', '2'], ['0', '4', '2'], Text.trims_iff.mpr (by decide), .inr rfl,
      .snoc (d := 2) (.snoc (d := 4) (.digit (d := 0) (by decide)) (by decide)) (by decide),
      by decide, by decide⟩
  have hblank : Text.Trims "\t ".toList [] := Text.trims_iff.mpr (by decide)
  have hdocument : ofToml "protocol_version = '2'" = .ok ⟨defaultMaxMessageSize, "2"⟩ := by
    cbv
  obtain ⟨hlookup, -, -, hopens⟩ := loaded_opens
  obtain ⟨-, hfrom⟩ := hlookup lookup
  refine ⟨hsize, hfrom.size _ 42 rfl hsize, hblank, hfrom.versionDefault fun text htext => ?_,
    hdocument, rfl, hopens _ (.document _ hdocument) info rfl⟩
  have hempty : text = "\t " := (Option.some.inj htext).symm
  exact hempty ▸ hblank

end Config
end ContextProtocol
