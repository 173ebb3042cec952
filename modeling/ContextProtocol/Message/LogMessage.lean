import ContextProtocol.Message.Envelope

/-!
# Log messages

A client sets the least level it wants to see, and a server sends messages of that level or above.

* `LoggingLevel`: the eight levels, and the coarser severities of a log (`ofSeverity`);
* `SetLevelRequest`: the least level;
* `LoggingMessageNotification`: a message, which is any value but `null`.
-/
namespace ContextProtocol

/-- How serious a log message is. -/
inductive LoggingLevel where
  | debug
  | info
  | notice
  | warning
  | error
  | critical
  | alert
  | emergency
  deriving DecidableEq, Repr

namespace LoggingLevel

def text : LoggingLevel → String
  | .debug => "debug"
  | .info => "info"
  | .notice => "notice"
  | .warning => "warning"
  | .error => "error"
  | .critical => "critical"
  | .alert => "alert"
  | .emergency => "emergency"

/-- The levels, the least serious one first. -/
def all : List LoggingLevel :=
  [.debug, .info, .notice, .warning, .error, .critical, .alert, .emergency]

def codec : Codec LoggingLevel := .word (all.map fun l => (l.text, l))

instance : Message LoggingLevel := ⟨codec⟩

/-- The place of a level among the others. -/
def rank : LoggingLevel → Nat
  | .debug => 0
  | .info => 1
  | .notice => 2
  | .warning => 3
  | .error => 4
  | .critical => 5
  | .alert => 6
  | .emergency => 7

instance : Ord LoggingLevel := ⟨fun a b => compare a.rank b.rank⟩

/-- The severity of a log record of the level. -/
def severity : LoggingLevel → Severity
  | .debug => .debug
  | .info | .notice => .info
  | .warning => .warn
  | .error | .critical | .alert | .emergency => .error

/-- The level of a log record. -/
def ofSeverity : Severity → LoggingLevel
  | .trace | .debug => .debug
  | .info => .info
  | .warn => .warning
  | .error => .error

end LoggingLevel

/-- The wish for messages of a level and above. -/
structure SetLevelRequest where
  level : LoggingLevel
  deriving BEq, DecidableEq

namespace SetLevelRequest

def record : Record SetLevelRequest where
  name := "SetLevelParams"
  columns := [LoggingLevel]
  fields := .cons (.required "level" LoggingLevel.codec) .nil
  exact := false
  ofRow := fun (level, ()) => ⟨level⟩
  toRow r := (r.level, ())
  ofRow_toRow _ := rfl

instance : Envelope SetLevelRequest Empty where
  method := "logging/setLevel"
  params := record.codec
  apply _ step := nomatch step
  validate _ := .ok ()

end SetLevelRequest

/-- A log message of a server. -/
structure LoggingMessageNotification where
  level : LoggingLevel
  logger : Option String
  data : Json
  deriving BEq

/-- A step in the construction of a log message. -/
inductive LoggingStep where
  | logger (name : String)

namespace LoggingMessageNotification

def record : Record LoggingMessageNotification where
  name := "LoggingMessageParams"
  columns := [LoggingLevel, Option String, Json]
  fields :=
    .cons (.required "level" LoggingLevel.codec) <|
    .cons (.optional "logger" .string) <|
    .cons (.defaulted "data" .json .null) .nil
  exact := false
  ofRow := fun (level, logger, data, ()) => ⟨level, logger, data⟩
  toRow n := (n.level, n.logger, n.data, ())
  ofRow_toRow _ := rfl

/-- There is a message. -/
def checkData : Json → Except ConstructionError Unit
  | .null => .error ⟨"data", "must not be null"⟩
  | _ => .ok ()

instance : Envelope LoggingMessageNotification LoggingStep where
  method := "notifications/message"
  params := record.codec
  apply n
    | .logger name => do
      checkNonEmpty "logger" name
      return { n with logger := some name }
  validate n := do
    checkData n.data
    match n.logger with
    | none => .ok ()
    | some name => checkNonEmpty "logger" name

def new (level : LoggingLevel) (data : Json) (steps : List LoggingStep) :
    Traced ConstructionError LoggingMessageNotification :=
  build ⟨level, none, data⟩ steps

/-- The message is of the level or above. -/
def passes (n : LoggingMessageNotification) (least : LoggingLevel) : Bool :=
  least.rank ≤ n.level.rank

end LoggingMessageNotification

end ContextProtocol
