import ContextProtocol.Message.Envelope

/-!
# Progress reports

A request may carry a token, and reports under this token say how far its work has come: a number,
and, if it is known, the number at the end.

* `RequestMeta`: the token of a request;
* `ProgressNotification`: a report.
-/
namespace ContextProtocol

/-- What a request says about itself. -/
structure RequestMeta where
  progressToken : Option ProgressToken
  deriving BEq, DecidableEq

namespace RequestMeta

def record : Record RequestMeta where
  name := "RequestMeta"
  columns := [Option ProgressToken]
  fields := .cons (.optional "progressToken" Identifier.tokenCodec) .nil
  exact := false
  ofRow := fun (progressToken, ()) => ⟨progressToken⟩
  toRow m := (m.progressToken, ())
  ofRow_toRow _ := rfl

end RequestMeta

/-- How far the work of a request has come. -/
structure ProgressNotification where
  progressToken : ProgressToken
  progress : Float
  total : Option Float
  message : Option String
  deriving BEq

/-- A step in the construction of a report. -/
inductive ProgressStep where
  | total (total : Float)
  | message (text : String)

namespace ProgressNotification

def record : Record ProgressNotification where
  name := "ProgressParams"
  columns := [ProgressToken, Float, Option Float, Option String]
  fields :=
    .cons (.required "progressToken" Identifier.tokenCodec) <|
    .cons (.required "progress" .float) <|
    .cons (.optional "total" .float) <|
    .cons (.optional "message" .string) .nil
  exact := false
  ofRow := fun (progressToken, progress, total, message, ()) =>
    ⟨progressToken, progress, total, message⟩
  toRow n := (n.progressToken, n.progress, n.total, n.message, ())
  ofRow_toRow _ := rfl

/-- Progress is finite and not negative. -/
def checkProgress (progress : Float) : Except ConstructionError Unit :=
  if progress.isFinite = false ∨ progress < 0 then
    .error (.outOfRange "progress" progress "a non-negative number")
  else .ok ()

/-- A total is finite, positive and not below the progress. -/
def checkTotal (progress total : Float) : Except ConstructionError Unit :=
  if total.isFinite = false ∨ total ≤ 0 then
    .error (.outOfRange "total" total "a positive number")
  else if total < progress then
    .error ⟨"total", "progress " ++ Decimal.reason progress ++ " exceeds total " ++
      Decimal.reason total⟩
  else .ok ()

instance : Envelope ProgressNotification ProgressStep where
  method := "notifications/progress"
  params := record.codec
  apply n
    | .total total => do
      checkTotal n.progress total
      return { n with total := some total }
    | .message text => do
      checkNonEmpty "message" text
      return { n with message := some text }
  validate n := do
    checkProgress n.progress
    match n.total with
    | none => .ok ()
    | some total => checkTotal n.progress total

/-- The progress is checked before any step is taken. -/
def new (token : ProgressToken) (progress : Float) (steps : List ProgressStep) :
    Traced ConstructionError ProgressNotification := do
  checkProgress progress
  build ⟨token, progress, none, none⟩ steps

def start (token : ProgressToken) : Traced ConstructionError ProgressNotification := new token 0 []

def complete (token : ProgressToken) : Traced ConstructionError ProgressNotification :=
  new token 100 []

/-- A report from 0 to 100. -/
def percentage (token : ProgressToken) (percentage : Float) :
    Traced ConstructionError ProgressNotification := do
  checkRange "percentage" percentage 0 100
  new token percentage []

/-- A report in whole items, of which there is at least one. -/
def withItems (token : ProgressToken) (completed total : UInt64) :
    Traced ConstructionError ProgressNotification :=
  if total = 0 then .fail ⟨"total", "must be positive"⟩
  else if total < completed then
    .fail ⟨"completed", toString completed.toNat ++ " exceeds the " ++ toString total.toNat ++
      " items"⟩
  else new token (Decimal.ofInt completed.toNat) [.total (Decimal.ofInt total.toNat)]

/-- The part of the work that is done, if the total is known. -/
def fraction (n : ProgressNotification) : Option Float := n.total.map (n.progress / ·)

end ProgressNotification

end ContextProtocol
