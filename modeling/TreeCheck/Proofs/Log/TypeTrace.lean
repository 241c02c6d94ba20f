import TreeCheck.Proofs.Check.Sessions
import TreeCheck.Proofs.Check.Trace
import TreeCheck.Proofs.Log.RunLog

namespace TreeCheck

/-- Every record of a type reaches the lowest level. -/
theorem Logger.shows_typed {l : Logger} (h : l.accepts .debug = true) (typed : List Typed) :
    Shows (l.writeAll (typed.map Typed.entry)) (typed.map l.typedRecord) := by
  have hordinary : ∀ e ∈ typed.map Typed.entry, e.Ordinary := by
    intro e he
    obtain ⟨t, -, rfl⟩ := List.mem_map.mp he
    exact Analyzer.ordinary_typed t
  have hall : (typed.map l.typedRecord).filter l.minimum.reached = typed.map l.typedRecord := by
    rw [List.filter_eq_self]
    intro record hr
    obtain ⟨t, -, rfl⟩ := List.mem_map.mp hr
    rw [typedRecord, reached_record]
    exact h
  have hshows := shows_writeAll (l := l) hordinary
  rwa [shown_typed, hall] at hshows

namespace Check

variable {n : Node} {s t : State}

/-- A check of an expression that stops leaves the scope alone as well. -/
theorem typeOf_error_scope {f : Finding} (h : typeOf n s = .error f t) : t.scope = s.scope :=
  ((typeOf_effect n).error h).scope_eq

/-- A check that stops has no record of the expression itself, so it has records of some of the nodes
only. -/
theorem typeOf_error_records {f : Finding} (h : typeOf n s = .error f t) :
    ∃ part rest, postorder .expression n = part ++ rest ∧ rest ≠ [] ∧ Recorded s part t := by
  obtain ⟨part, ⟨rest, hsplit⟩, hrecorded⟩ := (typeOf_records_all n).error h
  refine ⟨part, rest, hsplit.symm, ?_, hrecorded⟩
  intro hnil
  have hmem : n ∈ part := by
    rw [hnil, List.append_nil] at hsplit
    rw [hsplit, postorder_eq]
    simp
  obtain ⟨type, htype⟩ := hrecorded.hasType n hmem
  rw [typeOf_error_scope h] at htype
  obtain ⟨u, hu⟩ := (typeOf_agrees n s type).mpr htype
  rw [h] at hu
  cases hu

end Check

namespace Session

variable {α : Type} {s : Session} {c : Check α} {answer : α → Answer} {t : State}

theorem check_ok {a : α} (h : c { s.state with trace := [] } = .ok a t) :
    s.check c answer = s.settle (.ok (answer a)) t := by
  rw [check, h]

theorem check_error {f : Finding} (h : c { s.state with trace := [] } = .error f t) :
    s.check c answer = s.settle (.error f) t := by
  rw [check, h]

/-- The record has the kind of the node, and the type that the node is given in the session. -/
structure Tells (s : Session) (n : Node) (t : Typed) : Prop where
  kind : t.kind = n.kind
  type : (s.step (.typeOf n)).1.outcome = .ok (.type t.type)

/-- A type in the scope of the session is the one that the session answers. -/
theorem tells_of_describes {n : Node} {typed : Typed} (h : typed.Describes s.state.scope n) :
    s.Tells n typed := by
  obtain ⟨t, ht⟩ := (Check.typeOf_agrees n { s.state with trace := [] } typed.type).mpr h.type
  refine ⟨h.kind, ?_⟩
  rw [step, check_ok ht]
  rfl

/-- What the check of an expression has recorded is told by the trace that it leaves. -/
theorem tells_trace {nodes : List Node} (h : Check.Recorded { s.state with trace := [] } nodes t)
    (hscope : t.scope = s.state.scope) : List.Forall₂ s.Tells nodes t.trace := by
  obtain ⟨records, htrace, hall⟩ := h.trace
  rw [htrace, List.nil_append]
  refine hall.imp fun n typed hd => tells_of_describes ?_
  rwa [hscope] at hd

/-- With types traced, and at the lowest level, the log of an expression has one record for each node
that its check descends into, in postorder, and each record tells the kind of its node and the type
that this node is given in the session. If the check stops, the log has the records of a first part
of these nodes, and not of all. -/
theorem step_typeOf_traced (n : Node) (s : Session) (htrace : s.traceTypes = true)
    (hlevel : s.logger.accepts .debug = true) :
    (postorder .expression n).Perm ((visits .expression n).map Visit.node) ∧
    ∃ typed : List Typed,
      Shows (s.step (.typeOf n)).1.log (typed.map s.logger.typedRecord) ∧
      (∀ answer, (s.step (.typeOf n)).1.outcome = .ok answer →
        List.Forall₂ s.Tells (postorder .expression n) typed) ∧
      ∀ f, (s.step (.typeOf n)).1.outcome = .error f →
        ∃ part rest, postorder .expression n = part ++ rest ∧ rest ≠ [] ∧
          List.Forall₂ s.Tells part typed := by
  refine ⟨postorder_perm .expression n, ?_⟩
  have hlog (outcome : Except Finding Answer) (t : State) :
      Shows (s.settle outcome t).1.log (t.trace.map s.logger.typedRecord) := by
    rw [settle, htrace, if_pos rfl]
    exact Logger.shows_typed hlevel t.trace
  rw [step]
  cases h : Check.typeOf n { s.state with trace := [] } with
  | ok type t =>
    have hscope := Check.typeOf_scope h
    rw [check_ok h]
    refine ⟨t.trace, hlog _ t, ?_, ?_⟩
    · intro answer _
      exact tells_trace ((Check.typeOf_records_all n).ok h) hscope
    · intro f hf
      cases hf
  | error f t =>
    obtain ⟨part, rest, hsplit, hne, hrecorded⟩ := Check.typeOf_error_records h
    have hscope := Check.typeOf_error_scope h
    rw [check_error h]
    refine ⟨t.trace, hlog _ t, ?_, ?_⟩
    · intro answer ha
      cases ha
    · intro _ _
      exact ⟨part, rest, hsplit, hne, tells_trace hrecorded hscope⟩

/-- A sum of a name, a number and a truth value stops at the truth value, with the number after it
left out; a sum of the name and the number has a record of either before its own. -/
theorem step_typeOf_traced_sum :
    let s : Session := {
      logger := { component := "session", minimum := .debug }, traceTypes := true
      state := { scope := ⟨[{ name := "x", type := .number }]⟩ } }
    let x := Node.reference "x"
    let one := Node.intValue 1
    let sum := Node.addExpr [x, one] ["+"]
    let mixed := Node.addExpr [x, Node.boolValue true, one] ["+", "+"]
    s.traceTypes = true ∧ s.logger.accepts .debug = true ∧
    (∃ a b c : Typed, s.Tells x a ∧ s.Tells one b ∧ s.Tells sum c ∧
      Shows (s.step (.typeOf sum)).1.log ([a, b, c].map s.logger.typedRecord)) ∧
    ∃ f part rest typed, (s.step (.typeOf mixed)).1.outcome = .error f ∧
      [x, Node.boolValue true, one, mixed] = part ++ rest ∧ rest ≠ [] ∧
      List.Forall₂ s.Tells part typed ∧
      Shows (s.step (.typeOf mixed)).1.log (typed.map s.logger.typedRecord) := by
  intro s x one sum mixed
  refine ⟨rfl, rfl, ?_, ?_⟩
  · obtain ⟨-, typed, hshows, hok, -⟩ := step_typeOf_traced sum s rfl rfl
    have htold : List.Forall₂ s.Tells [x, one, sum] typed := hok _ rfl
    cases htold with
    | cons ha htold =>
      cases htold with
      | cons hb htold =>
        cases htold with
        | cons hc hnil =>
          cases hnil
          exact ⟨_, _, _, ha, hb, hc, hshows⟩
  · obtain ⟨-, typed, hshows, -, herror⟩ := step_typeOf_traced mixed s rfl rfl
    obtain ⟨part, rest, hsplit, hne, htold⟩ := herror _ rfl
    exact ⟨_, part, rest, typed, rfl, hsplit, hne, htold, hshows⟩

end Session

end TreeCheck
