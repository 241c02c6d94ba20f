import TreeCheck.Proofs.Check.Coverage
import TreeCheck.Proofs.Check.Stepwise
import TreeCheck.Session

namespace TreeCheck

/-- Names are declared once. -/
def Scope.Distinct (s : Scope) : Prop := (s.symbols.map Symbol.name).Nodup

theorem Scope.contains_iff {s : Scope} {name : Text} :
    s.contains name ↔ name ∈ s.symbols.map Symbol.name := by
  simp [contains, find?, List.find?_isSome]

/-- A scope stays distinct when a name is added that it does not have. -/
theorem Scope.Distinct.concat {s : Scope} {symbol : Symbol} (h : s.Distinct)
    (hnew : ¬ s.contains symbol.name) : Distinct ⟨s.symbols ++ [symbol]⟩ := by
  rw [Scope.contains_iff] at hnew
  unfold Distinct at h ⊢
  rw [List.map_append, List.map_singleton, List.nodup_append]
  refine ⟨h, by simp, fun name hname other hother heq => hnew ?_⟩
  rwa [← List.mem_singleton.mp hother, ← heq]

/-- The number of declared names that are not counted. -/
def State.uncounted (s : State) : Int := s.scope.size - s.usage.get .var

/-- What has happened between two states: names have been added at the end and are still distinct,
counters have gone up, and this many more names are not counted. -/
structure State.Grows (uncounted : Int) (s t : State) : Prop where
  distinct : s.scope.Distinct → t.scope.Distinct
  symbols : s.scope.symbols <+: t.scope.symbols
  usage : ∀ k, s.usage.get k ≤ t.usage.get k
  uncounted : t.uncounted = s.uncounted + uncounted

namespace State.Grows

variable {s t u : State} {a b : Int}

/-- The scope is the same, and so is the counter of declarations. -/
theorem of_scope_eq (hscope : t.scope = s.scope) (husage : ∀ k, s.usage.get k ≤ t.usage.get k)
    (hvar : t.usage.get .var = s.usage.get .var) : Grows 0 s t where
  distinct h := hscope ▸ h
  symbols := hscope ▸ List.prefix_refl _
  usage := husage
  uncounted := by
    rw [State.uncounted, State.uncounted, hscope, hvar]
    omega

theorem refl (s : State) : Grows 0 s s := of_scope_eq rfl (fun _ => Int.le_refl _) rfl

theorem trans (h : Grows a s t) (h' : Grows b t u) : Grows (a + b) s u where
  distinct hs := h'.distinct (h.distinct hs)
  symbols := h.symbols.trans h'.symbols
  usage k := Int.le_trans (h.usage k) (h'.usage k)
  uncounted := by
    rw [h'.uncounted, h.uncounted]
    omega

end State.Grows

namespace Check

variable {α β : Type} {s t : State}

theorem declare_ok {symbol : Symbol} {a : Unit} (h : declare symbol s = .ok a t) :
    s.Grows 1 t := by
  unfold declare Scope.declare at h
  by_cases hs : s.scope.contains symbol.name
  · simp [hs] at h
  · simp only [hs] at h
    cases h
    refine ⟨fun hdistinct => hdistinct.concat hs, List.prefix_append _ _,
      fun _ => Int.le_refl _, ?_⟩
    simp only [State.uncounted, Scope.size, List.length_append, List.length_singleton]
    omega

theorem declare_error {symbol : Symbol} {f : Finding} (h : declare symbol s = .error f t) :
    t = s := by
  unfold declare Scope.declare at h
  by_cases hs : s.scope.contains symbol.name
  · simp only [hs, if_true] at h
    cases h
    rfl
  · simp [hs] at h

/-- Only declarations are counted under `var`. -/
theorem count_ok {counter : Counter} {a : Unit} (h : count counter s = .ok a t) :
    s.Grows (if counter = .var then -1 else 0) t := by
  cases h
  refine ⟨id, List.prefix_refl _, fun k => ?_, ?_⟩
  · cases counter <;> cases k <;> simp only [Usage.add, Usage.get] <;> omega
  · cases counter <;> simp [State.uncounted, Usage.add, Usage.get]
    omega

section Idle

variable {cost : Counter → Nat}

/-- A success keeps within the bounds of a failure. -/
theorem Reached.toStopped {entries : List (Option Symbol)} (h : Reached s entries cost t) :
    Stopped s entries cost t := by
  refine ⟨⟨entries, List.prefix_refl entries, h.symbols⟩, fun k => ?_⟩
  have hk := h.usage k
  omega

theorem Stopped.scope_eq (h : Stopped s [] cost t) : t.scope = s.scope := by
  obtain ⟨part, hpart, hsymbols⟩ := h.symbols
  rw [List.prefix_nil.mp hpart, List.append_nil] at hsymbols
  exact congrArg Scope.mk ((List.map_inj_right fun _ _ heq => Option.some.inj heq).mp hsymbols)

theorem Stopped.usage_eq (h : Stopped s [] cost t) {counter : Counter} (hcost : cost counter = 0) :
    t.usage.get counter = s.usage.get counter := by
  have hk := h.usage counter
  omega

theorem Stopped.grows (h : Stopped s [] cost t) (hvar : cost .var = 0) : s.Grows 0 t :=
  .of_scope_eq h.scope_eq (fun k => (h.usage k).1) (h.usage_eq hvar)

end Idle

/-- However the check ends, every name that it has added is counted. -/
structure Accounted (check : Check α) : Prop where
  ok : ∀ {s t a}, check s = .ok a t → s.Grows 0 t
  error : ∀ {s t f}, check s = .error f t → s.Grows 0 t

namespace Accounted

theorem pure (a : α) : Accounted (Pure.pure a : Check α) where
  ok {s t b} h := by
    cases h
    exact .refl s
  error h := by cases h

theorem throw (f : Finding) : Accounted (throw f : Check α) where
  ok h := by cases h
  error {s t g} h := by
    cases h
    exact .refl s

theorem bind {check : Check α} {next : α → Check β} (hc : Accounted check)
    (hn : ∀ a, Accounted (next a)) : Accounted (check >>= next) where
  ok h := by
    obtain ⟨a, u, ha, hb⟩ := bind_eq_ok.mp h
    exact (hc.ok ha).trans ((hn a).ok hb)
  error h := by
    rcases bind_eq_error.mp h with ha | ⟨a, u, ha, hb⟩
    · exact hc.error ha
    · exact (hc.ok ha).trans ((hn a).error hb)

theorem count {counter : Counter} (h : counter ≠ .var) : Accounted (Check.count counter) where
  ok hc := by
    have hgrows := count_ok hc
    rwa [if_neg h] at hgrows
  error hc := by cases hc

theorem note (typed : Typed) :
    Accounted (modify fun s => { s with trace := s.trace ++ [typed] } : Check Unit) where
  ok h := by
    cases h
    exact .of_scope_eq rfl (fun _ => Int.le_refl _) rfl
  error h := by cases h

/-- The name is added first and counted next, and the counting cannot fail. -/
theorem declare (symbol : Symbol) :
    Accounted (do Check.declare symbol; Check.count .var) where
  ok h := by
    obtain ⟨a, u, hd, hc⟩ := bind_eq_ok.mp h
    exact (declare_ok hd).trans (count_ok hc)
  error {s t f} h := by
    rcases bind_eq_error.mp h with hd | ⟨a, u, hd, hc⟩
    · rw [declare_error hd]
      exact .refl s
    · cases hc

/-- A check that neither declares anything nor counts a declaration. -/
theorem of_effect {check : Check α} {cost : Counter → Nat} (h : Effect check [] cost)
    (hvar : cost .var = 0) : Accounted check where
  ok hc := (h.ok hc).toStopped.grows hvar
  error hc := (h.error hc).grows hvar

end Accounted

theorem accounted_stepwise (vs : List Visit) : Stepwise Accounted vs where
  pure := .pure
  throw := .throw
  bind := .bind
  count _ hk := .count hk
  note := .note
  require _ _ name _ span := .of_effect (Effect.require name span) rfl
  declare symbol _ := .declare symbol

theorem typeOf_effect (n : Node) : Effect (typeOf n) [] (costOf (visits .expression n)) := by
  have h := typeOf_covers n
  rwa [Covers, entriesOf, filter_declares_expression, List.map_nil] at h

/-- Expressions count as operators or not at all. -/
theorem costOf_expression (n : Node) {counter : Counter} (h : counter ≠ .op) :
    costOf (visits .expression n) counter = 0 := by
  rw [costOf, List.countP_eq_zero]
  intro v hv
  simp [Visit.counts, visits_expression_place n v hv, h]

theorem typeOf_accounted (n : Node) : Accounted (typeOf n) :=
  typeOf_stepwise n (accounted_stepwise _)

theorem visit_accounted (context : Option Ty) (n : Node) : Accounted (visit context n) :=
  visit_stepwise context n (accounted_stepwise _)

/-- A reading of the counters in which only operators have moved. -/
theorem usage_eq_of_op {u v : Usage} (h : ∀ k, k ≠ .op → v.get k = u.get k) :
    v = { u with op := v.op } := by
  have hvar := h .var (by decide)
  have hloop := h .loop (by decide)
  have hbranch := h .branch (by decide)
  have hfunc := h .func (by decide)
  simp only [Usage.get] at hvar hloop hbranch hfunc
  cases v
  simp_all

end Check

namespace Session

/-- Takes steps in turn. -/
def run (s : Session) : List Step → List Reply × Session
  | [] => ([], s)
  | step :: rest =>
    let (reply, s) := s.step step
    let (replies, s) := s.run rest
    (reply :: replies, s)

/-- The step declared a name directly and was not refused. -/
def declaredDirectly : Step → Reply → Bool
  | .declare _, reply => reply.outcome.toBool
  | _, _ => false

/-- How many of the steps declared a name directly. -/
def directCount (steps : List Step) (replies : List Reply) : Nat :=
  (steps.zip replies).countP fun (step, reply) => declaredDirectly step reply

section Steps

variable {α : Type}

/-- A check is made on the state of the session, and the state it ends in is kept. -/
theorem check_cases (s : Session) (c : Check α) (answer : α → Answer) :
    (∃ a t, c { s.state with trace := [] } = .ok a t ∧
      (s.check c answer).1.outcome = .ok (answer a) ∧
      (s.check c answer).2 = { s with state := t }) ∨
    ∃ f t, c { s.state with trace := [] } = .error f t ∧
      (s.check c answer).1.outcome = .error f ∧ (s.check c answer).2 = { s with state := t } := by
  unfold check
  cases h : c { s.state with trace := [] } with
  | ok a t => exact .inl ⟨a, t, rfl, rfl, rfl⟩
  | error f t => exact .inr ⟨f, t, rfl, rfl, rfl⟩

theorem grows_check {c : Check α} (h : Check.Accounted c) (s : Session) (answer : α → Answer) :
    s.state.Grows 0 (s.check c answer).2.state := by
  have hstart : s.state.Grows 0 { s.state with trace := [] } :=
    .of_scope_eq rfl (fun _ => Int.le_refl _) rfl
  rcases check_cases s c answer with ⟨a, t, hc, -, hs⟩ | ⟨f, t, hc, -, hs⟩
  · rw [hs]
    exact hstart.trans (h.ok hc)
  · rw [hs]
    exact hstart.trans (h.error hc)

/-- What one step does: a name that it adds is counted unless the step declares it directly. -/
theorem grows_step (s : Session) (step : Step) :
    s.state.Grows (if declaredDirectly step (s.step step).1 then 1 else 0)
      (s.step step).2.state := by
  cases step with
  | visit node => exact grows_check (Check.visit_accounted s.context node) s _
  | typeOf node => exact grows_check (Check.typeOf_accounted node) s _
  | declare symbol =>
    have hstart : s.state.Grows 0 { s.state with trace := [] } :=
      .of_scope_eq rfl (fun _ => Int.le_refl _) rfl
    rw [step, declaredDirectly]
    rcases check_cases s (Check.declare symbol) fun _ => .symbol symbol with
      ⟨a, t, hc, hreply, hs⟩ | ⟨f, t, hc, hreply, hs⟩
    · rw [hreply, hs]
      exact hstart.trans (Check.declare_ok hc)
    · rw [hreply, hs, Check.declare_error hc]
      exact hstart
  | enter type => exact .refl s.state
  | leave =>
    have hstate : (s.step .leave).2.state = s.state := by
      rw [step]
      split <;> rfl
    rw [hstate]
    exact .refl s.state

theorem directCount_cons (step : Step) (reply : Reply) (steps : List Step) (replies : List Reply) :
    directCount (step :: steps) (reply :: replies) =
      directCount steps replies + if declaredDirectly step reply then 1 else 0 := by
  rw [directCount, List.zip_cons_cons, List.countP_cons]
  rfl

/-- What a whole run does. -/
theorem grows_run (s : Session) (steps : List Step) :
    s.state.Grows (directCount steps (s.run steps).1) (s.run steps).2.state := by
  induction steps generalizing s with
  | nil => exact .refl s.state
  | cons step rest ih =>
    have hrun := (grows_step s step).trans (ih (s.step step).2)
    have hcount : ((directCount (step :: rest) (s.run (step :: rest)).1 : Nat) : Int) =
        (if declaredDirectly step (s.step step).1 then 1 else 0) +
          directCount rest ((s.step step).2.run rest).1 := by
      rw [run, directCount_cons]
      split <;> omega
    rw [hcount]
    exact hrun

/-- Checking an expression moves the counter of operators and nothing else; the types that are
settled on the way are noted. -/
theorem step_typeOf (s : Session) (n : Node) : ∃ op trace, (s.step (.typeOf n)).2 =
    { s with state := { s.state with usage := { s.state.usage with op }, trace } } := by
  obtain ⟨t, hstopped, hs⟩ : ∃ t, Check.Stopped { s.state with trace := [] } []
      (Check.costOf (visits .expression n)) t ∧ (s.step (.typeOf n)).2 = { s with state := t } := by
    rcases check_cases s (Check.typeOf n) .type with ⟨a, t, hc, -, hs⟩ | ⟨f, t, hc, -, hs⟩
    · exact ⟨t, ((Check.typeOf_effect n).ok hc).toStopped, hs⟩
    · exact ⟨t, (Check.typeOf_effect n).error hc, hs⟩
  have hscope : t.scope = s.state.scope := hstopped.scope_eq
  have husage : t.usage = { s.state.usage with op := t.usage.op } :=
    Check.usage_eq_of_op fun k hk => hstopped.usage_eq (Check.costOf_expression n hk)
  refine ⟨t.usage.op, t.trace, ?_⟩
  rw [hs]
  obtain ⟨scope, usage, trace⟩ := t
  cases hscope
  exact congrArg (fun usage => { s with state := ⟨s.state.scope, usage, trace⟩ }) husage

end Steps

/-- After any steps, refused ones among them, the declared names are distinct, and those that no
declaration of a tree accounts for are as many as the steps that declared a name directly. A
further step adds names at the end and lets no counter fall, and one that checks an expression
changes the counter of operators only. -/
theorem run_accounts (logger : Logger) (traceTypes : Bool) (steps : List Step) :
    let start : Session := { logger, traceTypes }
    let s := (start.run steps).2
    (s.state.scope.symbols.map Symbol.name).Nodup ∧
    s.state.scope.size - s.state.usage.get .var = directCount steps (start.run steps).1 ∧
    (∀ step, s.state.scope.symbols <+: (s.step step).2.state.scope.symbols ∧
      ∀ k, s.state.usage.get k ≤ (s.step step).2.state.usage.get k) ∧
    ∀ n, ∃ op trace, (s.step (.typeOf n)).2 =
      { s with state := { s.state with usage := { s.state.usage with op }, trace } } := by
  intro start s
  have hrun := grows_run start steps
  have hempty : start.state.uncounted = 0 := rfl
  refine ⟨hrun.distinct List.nodup_nil, ?_, fun step => ?_, step_typeOf s⟩
  · have huncounted := hrun.uncounted
    rw [hempty, Int.zero_add] at huncounted
    exact huncounted
  · exact ⟨(grows_step s step).symbols, (grows_step s step).usage⟩

end Session

end TreeCheck
