import TreeCheck.Proofs.Check.Admission
import TreeCheck.Proofs.Check.Stepwise

namespace TreeCheck.Check

variable {α β : Type}

/-- How a check that gave `a` and added names ends on a state that has these names already: it gives
the same if there are none, and otherwise the first one is refused. The scope stays as it is. -/
structure Again (check : Check α) (a : α) (added : List Symbol) (s : State) : Prop where
  accepted : added = [] → ∃ t, check s = .ok a t ∧ t.scope = s.scope
  refused : ∀ first ∈ added.head?,
    ∃ t, check s = .error ⟨.redeclared first.name, first.span⟩ t ∧ t.scope = s.scope

/-- What a check adds when it succeeds decides how it ends on every state that has these names and
those that it started with. -/
def Replays (check : Check α) : Prop :=
  ∀ s t a, check s = .ok a t → ∃ added, t.scope.symbols = s.scope.symbols ++ added ∧
    ∀ u : State, Extends u.scope.lookup s.scope →
      (∀ symbol ∈ added, (u.scope.lookup symbol.name).isSome) → Again check a added u

namespace Replays

/-- A step that leaves the scope alone. -/
theorem of_unchanged {check : Check α}
    (h : ∀ s t a, check s = .ok a t → t.scope = s.scope ∧
      ∀ u : State, Extends u.scope.lookup s.scope → ∃ v, check u = .ok a v ∧ v.scope = u.scope) :
    Replays check := by
  intro s t a ha
  obtain ⟨hscope, hagain⟩ := h s t a ha
  refine ⟨[], by simp [hscope], fun u hu _ => ⟨fun _ => hagain u hu, fun first hf => ?_⟩⟩
  cases hf

theorem pure (a : α) : Replays (Pure.pure a : Check α) := by
  apply of_unchanged
  intro s t b h
  cases h
  exact ⟨rfl, fun u _ => ⟨u, rfl, rfl⟩⟩

theorem throw (f : Finding) : Replays (throw f : Check α) := by
  intro s t a h
  cases h

theorem count (counter : Counter) : Replays (Check.count counter) := by
  apply of_unchanged
  intro s t a h
  cases h
  exact ⟨rfl, fun u _ => ⟨_, rfl, rfl⟩⟩

theorem note (typed : Typed) :
    Replays (modify fun s => { s with trace := s.trace ++ [typed] } : Check Unit) := by
  apply of_unchanged
  intro s t a h
  cases h
  exact ⟨rfl, fun u _ => ⟨_, rfl, rfl⟩⟩

theorem require (name : Text) (span : Option Span) : Replays (Check.require name span) := by
  apply of_unchanged
  intro s t type h
  cases hname : s.scope.lookup name with
  | none =>
    rw [require_of_none hname] at h
    cases h
  | some found =>
    rw [require_of_some hname] at h
    cases h
    exact ⟨rfl, fun u hu => ⟨u, require_of_some (hu name type hname), rfl⟩⟩

theorem declare (symbol : Symbol) : Replays (Check.declare symbol) := by
  intro s t a h
  cases hname : s.scope.lookup symbol.name with
  | some type =>
    rw [declare_of_some hname] at h
    cases h
  | none =>
    rw [declare_of_none hname] at h
    cases h
    refine ⟨[symbol], rfl, fun u _ hadded => ⟨fun hnil => ?_, fun first hfirst => ?_⟩⟩
    · cases hnil
    · cases hfirst
      obtain ⟨type, htype⟩ := Option.isSome_iff_exists.mp (hadded symbol List.mem_cons_self)
      exact ⟨u, declare_of_some htype, rfl⟩

/-- The second check is reached again only if the first one added nothing, and then it finds the scope
as it was before. -/
theorem bind {check : Check α} {next : α → Check β} (hc : Replays check)
    (hn : ∀ a, Replays (next a)) : Replays (check >>= next) := by
  intro s t b h
  obtain ⟨a, m, ha, hb⟩ := bind_eq_ok.mp h
  obtain ⟨first, hfirst, hagain⟩ := hc s m a ha
  obtain ⟨second, hsecond, hnext⟩ := hn a m t b hb
  refine ⟨first ++ second, by rw [hsecond, hfirst, List.append_assoc], fun u hu hadded => ?_⟩
  have hcheck : Again check a first u :=
    hagain u hu fun symbol hs => hadded symbol (List.mem_append_left second hs)
  cases first with
  | nil =>
    obtain ⟨v, hv, hscope⟩ := hcheck.accepted rfl
    have hm : m.scope = s.scope := congrArg Scope.mk (by simpa using hfirst)
    have hrest : Again (next a) b second v := by
      apply hnext
      · rwa [hscope, hm]
      · rwa [hscope]
    refine ⟨fun hnil => ?_, fun symbol hs => ?_⟩
    · obtain ⟨w, hw, hsame⟩ := hrest.accepted hnil
      exact ⟨w, (bind_of_ok hv).trans hw, hsame.trans hscope⟩
    · obtain ⟨w, hw, hsame⟩ := hrest.refused symbol hs
      exact ⟨w, (bind_of_ok hv).trans hw, hsame.trans hscope⟩
  | cons symbol rest =>
    obtain ⟨v, hv, hscope⟩ := hcheck.refused symbol rfl
    refine ⟨fun hnil => ?_, fun other hother => ?_⟩
    · cases hnil
    · cases hother
      exact ⟨v, bind_of_error hv, hscope⟩

/-- The state that a check left has the names that it added and those that it started with. -/
theorem again {check : Check α} {s t : State} {a : α} (hc : Replays check)
    (h : check s = .ok a t) :
    ∃ added, t.scope.symbols = s.scope.symbols ++ added ∧ Again check a added t := by
  obtain ⟨added, hadded, hagain⟩ := hc s t a h
  refine ⟨added, hadded, hagain t (fun name type hname => ?_) fun symbol hs => ?_⟩
  · have happend := Scope.lookup_append s.scope.symbols added name
    rw [← hadded, hname, Option.some_or] at happend
    exact happend
  · rw [Scope.lookup_isSome, hadded]
    exact List.mem_map_of_mem (List.mem_append_right _ hs)

end Replays

theorem replays_stepwise (vs : List Visit) : Stepwise Replays vs where
  pure := Replays.pure
  throw := Replays.throw
  bind := Replays.bind
  count counter _ := Replays.count counter
  note := Replays.note
  require _ _ name _ := Replays.require name
  declare symbol _ := (Replays.declare symbol).bind fun _ => Replays.count .var

/-- Made again on the state that it left, a check leaves the scope as it is. If the tree declares
nothing, it is accepted and every counter moves as it did before; otherwise the name of the first
declaration in the tree is refused, and nothing else is found before it. -/
theorem visit_again (context : Option Ty) (n : Node) (s t : State)
    (h : visit context n s = .ok () t) :
    ((visits (.statement context) n).find? Visit.declares = none →
      ∃ u, visit context n t = .ok () u ∧ u.scope = t.scope ∧
        ∀ k, u.usage.get k - t.usage.get k = t.usage.get k - s.usage.get k) ∧
    ∀ v, (visits (.statement context) n).find? Visit.declares = some v →
      ∃ symbol f u, v.node.symbol? = some symbol ∧ visit context n t = .error f u ∧
        f.diagnostic.code.text = "S003" ∧
        f.diagnostic.data = [(("name" : Text), some (Json.str symbol.name))] ∧
        f.diagnostic.span = symbol.span ∧ u.scope = t.scope := by
  have hreached := (visit_covers context n).ok h
  obtain ⟨added, hadded, hagain⟩ := (visit_stepwise context n (replays_stepwise _)).again h
  have hentries : added.map some = entriesOf (visits (.statement context) n) := by
    have hsymbols := hreached.symbols
    rw [hadded, List.map_append] at hsymbols
    exact List.append_cancel_left hsymbols
  rw [entriesOf] at hentries
  constructor
  · intro hnone
    have hfilter : (visits (.statement context) n).filter Visit.declares = [] :=
      List.filter_eq_nil_iff.mpr (List.find?_eq_none.mp hnone)
    rw [hfilter] at hentries
    obtain ⟨u, hu, hscope⟩ := hagain.accepted (List.map_eq_nil_iff.mp hentries)
    refine ⟨u, hu, hscope, fun k => ?_⟩
    have hfirst := hreached.usage k
    have hsecond := ((visit_covers context n).ok hu).usage k
    omega
  · intro v hv
    obtain ⟨rest, hfilter⟩ : ∃ rest,
        (visits (.statement context) n).filter Visit.declares = v :: rest := by
      rw [← List.head?_filter] at hv
      exact List.head?_eq_some_iff.mp hv
    rw [hfilter, List.map_cons] at hentries
    cases added with
    | nil => cases hentries
    | cons symbol others =>
      obtain ⟨hsymbol, -⟩ := List.cons.inj hentries
      obtain ⟨u, hu, hscope⟩ := hagain.refused symbol rfl
      exact ⟨symbol, _, u, hsymbol.symm, hu, rfl, rfl, rfl, hscope⟩

/-- A loop that declares nothing is accepted twice and counts for two operators each time. Of two
declarations the one in the function of the branch comes first and is refused, behind the loop and
the condition, which pass again. -/
theorem visit_again_nested :
    let smaller := Node.compExpr (Node.reference "z") "<" (Node.intValue 3)
    let loop := Node.whileStmt smaller
      [Node.assignStmt "z" (Node.addExpr [Node.reference "z", Node.intValue 1] ["+"])]
    let inner : Node := { Node.declaration "bool" "x" with span := some (.ofPosition .origin) }
    let branch := Node.ifStmt smaller
      [Node.functionStmt "num" "f" [Node.block [inner], Node.returnStmt (Node.reference "z")]]
    let n := Node.program [loop, branch, Node.declaration "num" "y"]
    let s : State := { scope := ⟨[{ name := "z", type := .number }]⟩ }
    (∃ t u, visit none loop s = .ok () t ∧ visit none loop t = .ok () u ∧ u.scope = t.scope ∧
      u.usage.get .op - t.usage.get .op = 2) ∧
    ∃ t f u, visit none n s = .ok () t ∧ visit none n t = .error f u ∧
      f.diagnostic.code.text = "S003" ∧ f.diagnostic.data = [(("name" : Text), some (Json.str "x"))] ∧
      f.diagnostic.span = inner.span ∧ u.scope = t.scope := by
  intro smaller loop inner branch n s
  constructor
  · obtain ⟨t, ht, hop⟩ : ∃ t, visit none loop s = .ok () t ∧
      t.usage.get .op - s.usage.get .op = 2 := ⟨_, rfl, rfl⟩
    obtain ⟨u, hu, hscope, husage⟩ := (visit_again none loop s t ht).1 rfl
    exact ⟨t, u, ht, hu, hscope, (husage .op).trans hop⟩
  · obtain ⟨t, ht⟩ : ∃ t, visit none n s = .ok () t := ⟨_, rfl⟩
    obtain ⟨symbol, f, u, hsymbol, hu, hcode, hdata, hspan, hscope⟩ :=
      (visit_again none n s t ht).2 ⟨.statement (some .number), inner⟩ rfl
    cases hsymbol
    exact ⟨t, f, u, ht, hu, hcode, hdata, hspan, hscope⟩

end TreeCheck.Check
