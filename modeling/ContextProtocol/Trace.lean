/-!
# Events and traced results

A computation of this library never writes a log: it returns the **events** it would report beside
its outcome, so a caller may show them, count them or drop them.

* `Event`: severity, target and text of one report;
* `Traced`: the events of a computation, in order, and its result. A failed computation keeps the
  events reported before the failure.

The outcome of a traced computation never depends on its events: `result_bind` says that `result`
turns sequencing of traced computations into sequencing of plain ones.
-/
namespace ContextProtocol

/-- How much attention an event asks for. -/
inductive Severity where
  | trace
  | debug
  | info
  | warn
  | error
  deriving DecidableEq, Repr

def Severity.text : Severity → String
  | .trace => "TRACE"
  | .debug => "DEBUG"
  | .info => "INFO"
  | .warn => "WARN"
  | .error => "ERROR"

/-- One report: its severity, the component it comes from and its text. -/
structure Event where
  severity : Severity
  target : String
  text : String
  deriving DecidableEq, Repr

namespace Event

/-- A decision taken while a tagged payload is read. -/
def codec (text : String) : Event := ⟨.debug, "mcpwire::codec", text⟩

/-- The size of a message at the entry points. -/
def wire (text : String) : Event := ⟨.trace, "mcpwire::wire", text⟩

/-- A construction that was refused. -/
def build (text : String) : Event := ⟨.debug, "mcpwire::build", text⟩

/-- A configuration value that was ignored. -/
def config (text : String) : Event := ⟨.warn, "mcpwire::config", text⟩

end Event

/-- The outcome of a computation together with the events it reported, in order. -/
structure Traced (ε α : Type) where
  events : List Event
  result : Except ε α

namespace Traced

variable {ε ε' α β : Type}

/-- An outcome that reports nothing. -/
def ofExcept (result : Except ε α) : Traced ε α := ⟨[], result⟩

/-- A failure that reports nothing. -/
def fail (error : ε) : Traced ε α := ⟨[], .error error⟩

/-- Reports one event. -/
def report (event : Event) : Traced ε Unit := ⟨[event], .ok ()⟩

/-- A failure and the event that announces it. -/
def refuse (event : Event) (error : ε) : Traced ε α := ⟨[event], .error error⟩

protected def bind (x : Traced ε α) (f : α → Traced ε β) : Traced ε β :=
  match x with
  | ⟨events, .error e⟩ => ⟨events, .error e⟩
  | ⟨events, .ok a⟩ => ⟨events ++ (f a).events, (f a).result⟩

instance : Monad (Traced ε) where
  pure a := ⟨[], .ok a⟩
  bind := Traced.bind

instance : MonadLift (Except ε) (Traced ε) where
  monadLift := ofExcept

/-- The same events, with a failure put into other words. -/
def mapError (f : ε → ε') (x : Traced ε α) : Traced ε' α := ⟨x.events, x.result.mapError f⟩

/-- The same outcome without its events. -/
def silent (x : Traced ε α) : Traced ε α := ⟨[], x.result⟩

@[simp] theorem result_pure (a : α) : (pure a : Traced ε α).result = .ok a := rfl

@[simp] theorem result_ofExcept (r : Except ε α) : (ofExcept r).result = r := rfl

@[simp] theorem result_liftM (r : Except ε α) :
    (liftM r : Traced ε α).result = r := rfl

@[simp] theorem result_fail (e : ε) : (fail e : Traced ε α).result = .error e := rfl

@[simp] theorem result_refuse (v : Event) (e : ε) :
    (refuse v e : Traced ε α).result = .error e := rfl

@[simp] theorem result_report (v : Event) : (report v : Traced ε Unit).result = .ok () := rfl

@[simp] theorem result_mapError (f : ε → ε') (x : Traced ε α) :
    (x.mapError f).result = x.result.mapError f := rfl

/-- Events have no influence on what a sequence of computations returns. -/
@[simp] theorem result_bind (x : Traced ε α) (f : α → Traced ε β) :
    (x >>= f).result = (x.result >>= fun a => (f a).result) := by
  rcases x with ⟨events, _ | a⟩ <;> rfl

@[simp] theorem result_map (x : Traced ε α) (f : α → β) :
    (f <$> x).result = f <$> x.result := by
  rcases x with ⟨events, _ | a⟩ <;> rfl

@[simp] theorem events_pure (a : α) : (pure a : Traced ε α).events = [] := rfl

end Traced

end ContextProtocol
