import ContextProtocol.Config.Toml
import ContextProtocol.Shape.Record
import ContextProtocol.Text.Basic

/-!
# Configuration

How long a message may be and which version of the protocol is spoken.

* `Config.fromLookup`: from two variables. What they say counts only if it makes sense, so the
  result is always sound (`check_fromLookup`); `Config.ignored` reports what was passed over;
* `Config.ofToml`, `Config.ofBytes`: from a document, which is refused as a whole;
* `Config.check`: the rules of a configuration.
-/
namespace ContextProtocol

/-- The greatest length of a message in bytes, and the version of the protocol. -/
structure Config where
  maxMessageSize : UInt64
  protocolVersion : String
  deriving BEq, DecidableEq, Repr

/-- Why there is no configuration. -/
inductive ConfigError where
  /-- There is no text. -/
  | unreadable
  /-- The text is no configuration. -/
  | malformed
  /-- The configuration breaks a rule. -/
  | invalid (reason : String)
  deriving DecidableEq, Repr

namespace Config

def defaultProtocolVersion : String := "2024-11-05"

def defaultMaxMessageSize : UInt64 := 10 * 1024 * 1024

def default : Config := ⟨defaultMaxMessageSize, defaultProtocolVersion⟩

def withMaxMessageSize (c : Config) (size : UInt64) : Config := { c with maxMessageSize := size }

def withProtocolVersion (c : Config) (version : String) : Config :=
  { c with protocolVersion := version }

/-- A message may have a byte, and the version has a name. -/
def check (c : Config) : Except ConfigError Unit :=
  if c.maxMessageSize = 0 then .error (.invalid "max_message_size must be positive")
  else if c.protocolVersion.isEmpty then .error (.invalid "protocol_version must not be empty")
  else .ok ()

theorem check_eq_ok_iff (c : Config) :
    c.check = .ok () ↔ c.maxMessageSize ≠ 0 ∧ c.protocolVersion ≠ "" := by
  unfold check
  split
  · simp_all
  · split <;> simp_all

/-- The name of the variable that holds the greatest length. -/
def maxMessageSizeVariable : String := "MCPWIRE_MAX_MESSAGE_SIZE"

/-- The name of the variable that holds the version. -/
def protocolVersionVariable : String := "MCPWIRE_PROTOCOL_VERSION"

/-- A positive decimal number below `2 ^ 64`, which may have a plus sign and blanks around it. -/
def size? (text : String) : Option UInt64 :=
  let digits :=
    match Text.trim text.toList with
    | '+' :: rest => rest
    | text => text
  let n := Numeral.ofDigits digits
  if digits ≠ [] ∧ digits.all Char.isDigit ∧ 0 < n ∧ n < UInt64.size then some (.ofNat n) else none

/-- A text without the blanks around it, if anything is left. -/
def version? (text : String) : Option String :=
  match Text.trim text.toList with
  | [] => none
  | cs => some (.ofList cs)

/-- The configuration of two variables. A variable that says nothing sensible leaves the default. -/
def fromLookup (lookup : String → Option String) : Config where
  maxMessageSize := ((lookup maxMessageSizeVariable).bind size?).getD defaultMaxMessageSize
  protocolVersion := ((lookup protocolVersionVariable).bind version?).getD defaultProtocolVersion

/-- What is reported about the variables that say nothing sensible. -/
def ignored (lookup : String → Option String) : List Event :=
  let size :=
    match lookup maxMessageSizeVariable with
    | none => []
    | some text =>
      if (size? text).isSome then []
      else [.config ("ignoring " ++ maxMessageSizeVariable ++ "=" ++ Text.quoted text ++
        ": expected a positive integer")]
  let version :=
    match lookup protocolVersionVariable with
    | none => []
    | some text =>
      if (version? text).isSome then []
      else [.config ("ignoring empty " ++ protocolVersionVariable)]
  size ++ version

theorem size?_ne_zero {text : String} {n : UInt64} (h : size? text = some n) : n ≠ 0 := by
  unfold size? at h
  simp only [Option.ite_none_right_eq_some, Option.some.injEq] at h
  obtain ⟨⟨-, -, hpos, hlt⟩, rfl⟩ := h
  intro h0
  have := congrArg UInt64.toNat h0
  simp [UInt64.toNat_ofNat, Nat.mod_eq_of_lt hlt] at this
  omega

theorem version?_ne_empty {text v : String} (h : version? text = some v) : v ≠ "" := by
  unfold version? at h
  split at h
  · simp at h
  · rename_i cs hne
    simp only [Option.some.injEq] at h
    subst h
    intro h
    apply hne
    simpa using congrArg String.toList h

/-- Whatever the variables hold, the configuration obeys the rules. -/
theorem check_fromLookup (lookup : String → Option String) :
    (fromLookup lookup).check = .ok () := by
  rw [check_eq_ok_iff]
  constructor
  · unfold fromLookup
    cases h : (lookup maxMessageSizeVariable).bind size? with
    | none => exact show defaultMaxMessageSize ≠ 0 by decide
    | some n =>
      obtain ⟨text, -, hn⟩ := Option.bind_eq_some_iff.1 h
      simpa [h] using size?_ne_zero hn
  · unfold fromLookup
    cases h : (lookup protocolVersionVariable).bind version? with
    | none => exact show defaultProtocolVersion ≠ "" by decide
    | some v =>
      obtain ⟨text, -, hv⟩ := Option.bind_eq_some_iff.1 h
      simpa [h] using version?_ne_empty hv

/-- The entry of the greatest length. -/
def maxMessageSizeEntry : String := "max_message_size"

/-- The entry of the version. -/
def protocolVersionEntry : String := "protocol_version"

/-- The configuration with an entry of a document; `none` if the entry does not belong there. -/
def setEntry (c : Config) (name : String) (value : Toml.Scalar) : Option Config :=
  match value with
  | .integer i =>
    if name = maxMessageSizeEntry ∧ 0 ≤ i then some (c.withMaxMessageSize (.ofNat i.toNat))
    else none
  | .string s => if name = protocolVersionEntry then some (c.withProtocolVersion s) else none

/-- The configuration of a document: an entry for each of its parts, or none for the default. -/
def ofToml (document : String) : Except ConfigError Config := do
  let entries ← (Toml.entries? document).elim (.error .malformed) .ok
  if ¬ (entries.map (·.1)).Nodup then .error .malformed
  let config ← (entries.foldlM (fun c e => setEntry c e.1 e.2) default).elim (.error .malformed) .ok
  config.check
  return config

/-- The configuration of a document in UTF-8. -/
def ofBytes (bytes : ByteArray) : Except ConfigError Config :=
  match String.fromUTF8? bytes with
  | none => .error .unreadable
  | some document => ofToml document

def record : Record Config where
  name := "WireConfig"
  columns := [UInt64, String]
  fields := .cons (.defaulted maxMessageSizeEntry .size defaultMaxMessageSize) <|
    .cons (.defaulted protocolVersionEntry .string defaultProtocolVersion) .nil
  exact := true
  ofRow := fun (maxMessageSize, protocolVersion, ()) => ⟨maxMessageSize, protocolVersion⟩
  toRow c := (c.maxMessageSize, c.protocolVersion, ())
  ofRow_toRow _ := rfl

/-- Configurations in JSON, whatever the rules say. -/
def codec : Codec Config := record.codec

instance : Message Config := ⟨codec⟩

end Config

/-- The wording of a configuration that breaks a rule. The others have none of their own. -/
def ConfigError.message? : ConfigError → Option String
  | .invalid reason => some ("invalid config: " ++ reason)
  | _ => none

end ContextProtocol
