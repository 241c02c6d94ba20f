import TreeCheck.Proofs.Check.Simulation
import TreeCheck.Proofs.Check.Stepwise

namespace TreeCheck.Check

variable {link : Link}

/-- What the link of two walks over positions has to bear: each of their steps, and a finding that
both come to. -/
structure Link.Bears (link : Link) (vs : List Visit) : Prop where
  finding : ∀ f, link.finding f f
  count : ∀ counter, Simulates link Eq (count counter) (count counter)
  note : ∀ typed : Typed, Simulates link Eq
    (modify fun s => { s with trace := s.trace ++ [typed] } : Check Unit)
    (modify fun s => { s with trace := s.trace ++ [typed] })
  require : ∀ v ∈ vs, ∀ name ∈ v.uses, ∀ span,
    Simulates link Eq (require name span) (require name span)
  declare : ∀ symbol ∈ declared vs, Simulates link Eq (declare symbol) (declare symbol)

/-- That a check ends alike from linked states is kept by sequencing. -/
theorem Link.Bears.stepwise {vs : List Visit} (h : link.Bears vs) :
    Stepwise (fun check => Simulates link Eq check check) vs where
  pure _ := .pure rfl
  throw f := .throw (h.finding f)
  bind hc hn := hc.bind_eq hn
  count counter _ := h.count counter
  note := h.note
  require := h.require
  declare symbol hs := (h.declare symbol hs).bind_eq fun _ => h.count .var

theorem Link.Bears.layered {vs : List Visit} (h : link.Bears vs) (span : Option Span) :
    link.Layered span span where
  defect _ := h.finding _
  mismatch := h.finding _
  count := h.count .op
  note := h.note

theorem typeOf_alike (n : Node) (h : link.Bears (visits .expression n)) :
    Simulates link Eq (typeOf n) (typeOf n) :=
  typeOf_stepwise n h.stepwise

/-- Two walks over a tree end alike if the link bears its positions. -/
theorem visit_alike (context : Option Ty) (n : Node)
    (h : link.Bears (visits (.statement context) n)) :
    Simulates link Eq (visit context n) (visit context n) :=
  visit_stepwise context n h.stepwise

/-- The second state differs from the first in its trace at most. -/
def untraced : Link where
  state s t := t.scope = s.scope ∧ t.usage = s.usage
  finding := Eq

/-- No step of a walk reads the trace. -/
theorem untraced_bears (vs : List Visit) : untraced.Bears vs where
  finding f := rfl
  count counter s t hs := .ok rfl ⟨hs.1, congrArg (Usage.add · counter 1) hs.2⟩
  note typed s t hs := .ok rfl hs
  require v _ name _ span s t hs := by
    unfold require
    rw [hs.1]
    cases s.scope.require name span with
    | ok type => exact .ok rfl hs
    | error f => exact .error rfl hs
  declare symbol _ s t hs := by
    unfold declare
    rw [hs.1]
    cases s.scope.declare symbol with
    | ok scope => exact .ok rfl ⟨rfl, hs.2⟩
    | error f => exact .error rfl hs

end TreeCheck.Check
