import TreeCheck.Proofs.Check.Admission
import TreeCheck.Proofs.Check.Simulation
import TreeCheck.Proofs.Check.Stepwise

namespace TreeCheck

/-- The wider scope has the names of the other with the same types, and the positions declare none of
its further names. -/
structure Scope.Widens (vs : List Visit) (scope wider : Scope) : Prop where
  kept : ∀ name type, scope.lookup name = some type → wider.lookup name = some type
  fresh : ∀ symbol ∈ declared vs,
    scope.lookup symbol.name = none → wider.lookup symbol.name = none

theorem Scope.lookup_concat (scope : Scope) (symbol : Symbol) (name : Text) :
    lookup ⟨scope.symbols ++ [symbol]⟩ name =
      (scope.lookup name).or (if symbol.name = name then some symbol.type else none) := by
  rw [lookup_append]
  congr 1
  by_cases hname : symbol.name = name <;> simp [lookup, find?, hname]

/-- A name that is new to the wider scope may be added to both. -/
theorem Scope.Widens.concat {vs : List Visit} {scope wider : Scope} {symbol : Symbol}
    (h : Widens vs scope wider) (hnew : wider.lookup symbol.name = none) :
    Widens vs ⟨scope.symbols ++ [symbol]⟩ ⟨wider.symbols ++ [symbol]⟩ where
  kept name type hname := by
    rw [lookup_concat] at hname ⊢
    cases hscope : scope.lookup name with
    | some found =>
      rw [h.kept name found hscope]
      rwa [hscope] at hname
    | none =>
      rw [hscope, Option.none_or] at hname
      split at hname
      · next heq =>
        subst heq
        rw [hnew, if_pos rfl]
        exact hname
      · cases hname
  fresh other ho hother := by
    rw [lookup_concat, Option.or_eq_none_iff] at hother ⊢
    exact ⟨h.fresh other ho hother.1, hother.2⟩

/-- What happened from `s` to `t` happened from `s'` to `t'`: the same names were added at the end,
every counter moved by the same amount, and the same types were noted. -/
structure State.MovesAlike (s t s' t' : State) : Prop where
  symbols : ∃ added, t.scope.symbols = s.scope.symbols ++ added ∧
    t'.scope.symbols = s'.scope.symbols ++ added
  usage : ∀ k, t'.usage.get k - s'.usage.get k = t.usage.get k - s.usage.get k
  trace : ∃ noted, t.trace = s.trace ++ noted ∧ t'.trace = s'.trace ++ noted

theorem State.MovesAlike.refl (s s' : State) : MovesAlike s s s' s' :=
  ⟨⟨[], by simp, by simp⟩, fun k => by omega, ⟨[], by simp, by simp⟩⟩

theorem Usage.get_add (u : Usage) (counter k : Counter) (amount : Int) :
    (u.add counter amount).get k = u.get k + if k = counter then amount else 0 := by
  cases counter <;> cases k <;> simp [add, get]

section Moves

variable {s t s' t' : State}

/-- Both runs count. -/
theorem State.MovesAlike.count (h : MovesAlike s t s' t') (counter : Counter) :
    MovesAlike s { t with usage := t.usage.add counter 1 }
      s' { t' with usage := t'.usage.add counter 1 } := by
  refine ⟨h.symbols, fun k => ?_, h.trace⟩
  have hk := h.usage k
  rw [Usage.get_add, Usage.get_add]
  omega

/-- Both runs note a type. -/
theorem State.MovesAlike.note (h : MovesAlike s t s' t') (typed : Typed) :
    MovesAlike s { t with trace := t.trace ++ [typed] }
      s' { t' with trace := t'.trace ++ [typed] } := by
  obtain ⟨noted, ht, ht'⟩ := h.trace
  refine ⟨h.symbols, h.usage, noted ++ [typed], ?_, ?_⟩
  · simp [ht]
  · simp [ht']

end Moves

namespace Check

variable {α β : Type} {vs : List Visit} {s s' : State}

/-- Both runs have moved alike since they started, and the second still knows more names. -/
def widening (vs : List Visit) (s s' : State) : Link where
  state t t' := Scope.Widens vs t.scope t'.scope ∧ State.MovesAlike s t s' t'
  finding := Eq

/-- From linked states the check ends alike, unless the first run stops at a name that it does not
know. -/
def Follows (link : Link) (check : Check α) : Prop :=
  ∀ t t', link.state t t' →
    (∃ name span u, check t = .error ⟨.undefined name, span⟩ u) ∨
      link.Ends Eq (check t) (check t')

theorem Follows.bind {link : Link} {check : Check α} {next : α → Check β}
    (hc : Follows link check) (hn : ∀ a, Follows link (next a)) :
    Follows link (check >>= next) := by
  intro t t' hs
  rcases hc t t' hs with ⟨name, span, u, hu⟩ | hends
  · exact .inl ⟨name, span, u, bind_of_error hu⟩
  · generalize ht : check t = first at hends
    generalize ht' : check t' = second at hends
    cases hends with
    | ok hv hs =>
      subst hv
      rw [bind_of_ok ht, bind_of_ok ht']
      exact hn _ _ _ hs
    | error hf hs =>
      rw [bind_of_error ht, bind_of_error ht']
      exact .inr (.error hf hs)

theorem count_follows (counter : Counter) : Follows (widening vs s s') (count counter) := by
  intro t t' ⟨hwidens, hmoves⟩
  exact .inr (.ok rfl ⟨hwidens, hmoves.count counter⟩)

theorem note_follows (typed : Typed) : Follows (widening vs s s')
    (modify fun s => { s with trace := s.trace ++ [typed] } : Check Unit) := by
  intro t t' ⟨hwidens, hmoves⟩
  exact .inr (.ok rfl ⟨hwidens, hmoves.note typed⟩)

/-- A name that the first run knows has its type in the second one. -/
theorem require_follows (name : Text) (span : Option Span) :
    Follows (widening vs s s') (require name span) := by
  intro t t' hs
  cases hname : t.scope.lookup name with
  | none => exact .inl ⟨name, span, t, require_of_none hname⟩
  | some type =>
    rw [require_of_some hname, require_of_some (hs.1.kept name type hname)]
    exact .inr (.ok rfl hs)

/-- A name that the tree declares is known to both runs or to neither. -/
theorem declare_follows {symbol : Symbol} (hm : symbol ∈ declared vs) :
    Follows (widening vs s s') (declare symbol) := by
  intro t t' hs
  cases hname : t.scope.lookup symbol.name with
  | some type =>
    rw [declare_of_some hname, declare_of_some (hs.1.kept symbol.name type hname)]
    exact .inr (.error rfl hs)
  | none =>
    have hnew : t'.scope.lookup symbol.name = none := hs.1.fresh symbol hm hname
    obtain ⟨added, ht, ht'⟩ := hs.2.symbols
    rw [declare_of_none hname, declare_of_none hnew]
    refine .inr (.ok rfl ⟨hs.1.concat hnew, ⟨added ++ [symbol], ?_, ?_⟩, hs.2.usage, hs.2.trace⟩)
    · simp [ht]
    · simp [ht']

theorem follows_stepwise (vs : List Visit) (s s' : State) :
    Stepwise (Follows (widening vs s s')) vs where
  pure _ _ _ hs := .inr (.ok rfl hs)
  throw _ _ _ hs := .inr (.error rfl hs)
  bind := Follows.bind
  count counter _ := count_follows counter
  note := note_follows
  require _ _ name _ := require_follows name
  declare _ hm := (declare_follows hm).bind fun _ => count_follows .var

/-- A check that succeeds still does so in a wider scope, and one that stops at anything but an
undefined name stops at the same finding. Either way the names that it adds and their order, what it
adds to each counter and the types that it notes are the same. -/
theorem visit_weakens (context : Option Ty) (n : Node) (s s' : State)
    (h : Scope.Widens (visits (.statement context) n) s.scope s'.scope) :
    (∀ t, visit context n s = .ok () t →
      ∃ t', visit context n s' = .ok () t' ∧ State.MovesAlike s t s' t') ∧
    ∀ f t, visit context n s = .error f t → f.diagnostic.code.text ≠ "S001" →
      ∃ t', visit context n s' = .error f t' ∧ State.MovesAlike s t s' t' := by
  have hfollows := visit_stepwise context n (follows_stepwise _ s s') s s'
    ⟨h, State.MovesAlike.refl s s'⟩
  constructor
  · intro t ht
    rw [ht] at hfollows
    rcases hfollows with ⟨name, span, u, hu⟩ | hends
    · cases hu
    · generalize visit context n s' = other at hends ⊢
      cases hends with
      | ok _ hs => exact ⟨_, rfl, hs.2⟩
  · intro f t ht hcode
    rw [ht] at hfollows
    rcases hfollows with ⟨name, span, u, hu⟩ | hends
    · cases hu
      exact absurd rfl hcode
    · generalize visit context n s' = other at hends ⊢
      cases hends with
      | error hf hs =>
        cases hf
        exact ⟨_, rfl, hs.2⟩

/-- A number declared in a branch and a truth value declared in a function are accepted with a
further name in front of the scope as without it, and so is the refusal to set one to the other. -/
theorem visit_weakens_function :
    let branch := Node.ifStmt (Node.compExpr (Node.reference "z") "<" (Node.intValue 3))
      [Node.block [Node.declaration "num" "x", Node.assignStmt "x" (Node.reference "z")]]
    let function := Node.functionStmt "bool" "f"
      [Node.declaration "bool" "y", Node.returnStmt (Node.reference "y")]
    let accepted := Node.program [branch, function]
    let refused := Node.program [branch, function, Node.assignStmt "x" (Node.reference "y")]
    let s : State := { scope := ⟨[{ name := "z", type := .number }]⟩ }
    let s' : State :=
      { scope := ⟨[{ name := "w", type := .bool }, { name := "z", type := .number }]⟩ }
    (∀ n ∈ [accepted, refused],
      Scope.Widens (visits (.statement none) n) s.scope s'.scope) ∧
    (∃ t t', visit none accepted s = .ok () t ∧ visit none accepted s' = .ok () t' ∧
      State.MovesAlike s t s' t') ∧
    ∃ f t t', visit none refused s = .error f t ∧ f.diagnostic.code.text = "S005" ∧
      visit none refused s' = .error f t' ∧ State.MovesAlike s t s' t' := by
  intro branch function accepted refused s s'
  have hwidens : ∀ n ∈ [accepted, refused],
      Scope.Widens (visits (.statement none) n) s.scope s'.scope := by
    intro n hn
    refine ⟨fun name type hname => ?_, ?_⟩
    · have hmem := Scope.lookup_isSome.mp (Option.isSome_iff_exists.mpr ⟨type, hname⟩)
      obtain rfl : name = "z" := List.mem_singleton.mp hmem
      exact hname
    · simp only [List.mem_cons, List.not_mem_nil, or_false] at hn
      rcases hn with rfl | rfl <;> decide
  obtain ⟨t, ht⟩ : ∃ t, visit none accepted s = .ok () t := ⟨_, rfl⟩
  obtain ⟨t', ht', hmoves⟩ :=
    (visit_weakens none accepted s s' (hwidens _ (by simp))).1 t ht
  obtain ⟨f, u, hu, hcode⟩ : ∃ f u, visit none refused s = .error f u ∧
    f.diagnostic.code.text = "S005" := ⟨_, _, rfl, rfl⟩
  obtain ⟨u', hu', hrefused⟩ :=
    (visit_weakens none refused s s' (hwidens _ (by simp))).2 f u hu (by simp [hcode])
  exact ⟨hwidens, ⟨t, t', ht, ht', hmoves⟩, f, u, u', hu, hcode, hu', hrefused⟩

end Check

end TreeCheck
