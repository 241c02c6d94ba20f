import TreeCheck.Analyzer

namespace TreeCheck

/-- A state, and the contexts that have been entered. -/
structure Session where
  logger : Logger
  traceTypes : Bool := false
  state : State := {}
  /-- The type that a return must have here. -/
  context : Option Ty := none
  /-- The contexts around this one, innermost first. -/
  outer : List (Option Ty) := []

namespace Session

inductive Step where
  | visit (node : Node)
  | typeOf (node : Node)
  | declare (symbol : Symbol)
  | enter (type : Ty)
  | leave

/-- What a step gives. -/
inductive Answer where
  | checked
  | type (type : Ty)
  | symbol (symbol : Symbol)
  | context (type : Option Ty)
deriving DecidableEq, Repr

/-- The outcome of a step and its log. -/
structure Reply where
  outcome : Except Finding Answer
  log : Text := ""

/-- Ends a step: the state is kept whatever the outcome, and the types settled in the step are
logged if they are traced. -/
def settle (s : Session) (outcome : Except Finding Answer) (state : State) : Reply × Session :=
  let entries := if s.traceTypes then state.trace.map Typed.entry else []
  ({ outcome, log := s.logger.writeAll entries }, { s with state })

/-- Runs a check on the state of the session. -/
def check {α : Type} (s : Session) (check : Check α) (answer : α → Answer) : Reply × Session :=
  match check { s.state with trace := [] } with
  | .ok value state => s.settle (.ok (answer value)) state
  | .error finding state => s.settle (.error finding) state

def step (s : Session) : Step → Reply × Session
  | .visit node => s.check (Check.visit s.context node) fun _ => .checked
  | .typeOf node => s.check (Check.typeOf node) .type
  | .declare symbol => s.check (Check.declare symbol) fun _ => .symbol symbol
  | .enter type =>
    ({ outcome := .ok (.context (some type)) },
      { s with context := some type, outer := s.context :: s.outer })
  | .leave =>
    match s.outer with
    | [] => ({ outcome := .ok (.context s.context) }, s)
    | context :: outer => ({ outcome := .ok (.context context) }, { s with context, outer })

end Session

end TreeCheck
