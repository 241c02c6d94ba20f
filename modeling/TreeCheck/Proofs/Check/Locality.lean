import TreeCheck.Proofs.Check.Alike
import TreeCheck.Proofs.Check.Sessions
import TreeCheck.Proofs.Check.Weakening
import TreeCheck.Tree.Build

namespace TreeCheck

/-- The scopes agree on the names that the positions use. -/
def Scope.Agree (vs : List Visit) (scope other : Scope) : Prop :=
  ∀ v ∈ vs, ∀ name ∈ v.uses, other.lookup name = scope.lookup name

instance (vs : List Visit) (scope other : Scope) : Decidable (Scope.Agree vs scope other) :=
  inferInstanceAs (Decidable (∀ v ∈ vs, ∀ name ∈ v.uses, other.lookup name = scope.lookup name))

namespace Check

variable {vs : List Visit} {s s' : State}

/-- Both runs have moved alike since they started, and their scopes still agree. -/
def agreeing (vs : List Visit) (s s' : State) : Link where
  state t t' := Scope.Agree vs t.scope t'.scope ∧ State.MovesAlike s t s' t'
  finding := Eq

/-- A name that a position uses is known to both runs with one type, or to neither. -/
theorem require_agreeing {v : Visit} {name : Text} (hv : v ∈ vs) (hn : name ∈ v.uses)
    (span : Option Span) :
    Simulates (agreeing vs s s') Eq (require name span) (require name span) := by
  intro t t' hs
  have hname := hs.1 v hv name hn
  cases hfound : t.scope.lookup name with
  | none =>
    rw [require_of_none hfound, require_of_none (hname.trans hfound)]
    exact .error rfl hs
  | some type =>
    rw [require_of_some hfound, require_of_some (hname.trans hfound)]
    exact .ok rfl hs

/-- Positions that declare nothing leave the scopes as they are. -/
theorem agreeing_bears (h : declared vs = []) : (agreeing vs s s').Bears vs where
  finding _ := rfl
  count counter _ _ hs := .ok rfl ⟨hs.1, hs.2.count counter⟩
  note typed _ _ hs := .ok rfl ⟨hs.1, hs.2.note typed⟩
  require _ hv _ hn span := require_agreeing hv hn span
  declare symbol hm := by
    rw [h] at hm
    cases hm

/-- Two checks of an expression in scopes that agree on the names that it reads. -/
theorem typeOf_agreeing (n : Node) (s s' : State)
    (h : Scope.Agree (visits .expression n) s.scope s'.scope) :
    (agreeing (visits .expression n) s s').Ends Eq (typeOf n s) (typeOf n s') :=
  typeOf_alike n (agreeing_bears (declared_expression n)) s s' ⟨h, .refl s s'⟩

end Check

namespace Session

/-- An expression has the same type, or meets with the same finding, in any two sessions that agree
on the names that it reads, whatever other names, counters, functions around and logs they have; and
each counter moves by the same amount in both. -/
theorem step_typeOf_local (n : Node) (s s' : Session)
    (h : Scope.Agree (visits .expression n) s.state.scope s'.state.scope) :
    (s'.step (.typeOf n)).1.outcome = (s.step (.typeOf n)).1.outcome ∧
    ∀ k, (s'.step (.typeOf n)).2.state.usage.get k - s'.state.usage.get k =
      (s.step (.typeOf n)).2.state.usage.get k - s.state.usage.get k := by
  have hends := Check.typeOf_agreeing n { s.state with trace := [] } { s'.state with trace := [] } h
  simp only [step, check]
  generalize Check.typeOf n { s.state with trace := [] } = first at hends ⊢
  generalize Check.typeOf n { s'.state with trace := [] } = second at hends ⊢
  cases hends with
  | ok hv hmoves =>
    subst hv
    exact ⟨rfl, hmoves.2.usage⟩
  | error hf hmoves =>
    cases hf
    exact ⟨rfl, hmoves.2.usage⟩

/-- A sum of two numbers and of a truth value, in a bare session and in one that has a further name in
front, the names the other way round, some operators counted and a function around it. The sum of the
numbers is counted in both, and both refuse the rest; where the truth value is a number both accept
it. -/
theorem step_typeOf_local_sum :
    let sum := Node.addExpr [Node.reference "x", Node.intValue 1] ["+"]
    let n := Node.addExpr [sum, Node.reference "y"] ["+"]
    let bare (type : Ty) : Session := {
      logger := { component := "session" }
      state := { scope := ⟨[{ name := "x", type := .number }, { name := "y", type }]⟩ } }
    let other (type : Ty) : Session := {
      logger := { component := "other" }, traceTypes := true, context := some .bool
      state := {
        scope := ⟨[{ name := "z", type := .bool }, { name := "y", type },
          { name := "x", type := .number }]⟩
        usage := { op := 5, var := 3 } } }
    (∀ type, Scope.Agree (visits .expression n) (bare type).state.scope (other type).state.scope) ∧
    ((other .bool).step (.typeOf n)).1.outcome = .error ⟨.expressionType, none⟩ ∧
    ((other .bool).step (.typeOf n)).2.state.usage.op = 6 ∧
    ((other .number).step (.typeOf n)).1.outcome = .ok (.type .number) ∧
    ((other .number).step (.typeOf n)).2.state.usage.op = 7 := by
  intro sum n bare other
  have hagree (type : Ty) :
      Scope.Agree (visits .expression n) (bare type).state.scope (other type).state.scope := by
    cases type <;> decide
  obtain ⟨hbool, hboolOp⟩ := step_typeOf_local n (bare .bool) (other .bool) (hagree .bool)
  obtain ⟨hnumber, hnumberOp⟩ := step_typeOf_local n (bare .number) (other .number) (hagree .number)
  have hcounted : ((other .bool).step (.typeOf n)).2.state.usage.op - 5 = 1 := hboolOp .op
  have hcounted' : ((other .number).step (.typeOf n)).2.state.usage.op - 5 = 2 := hnumberOp .op
  refine ⟨hagree, hbool, ?_, hnumber, ?_⟩
  · omega
  · omega

end Session

end TreeCheck
