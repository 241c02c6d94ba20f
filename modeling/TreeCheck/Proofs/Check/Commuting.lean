import TreeCheck.Proofs.Check.Admission

namespace TreeCheck

/-- The names that are read, assigned or declared at the position. -/
def Visit.mentions (v : Visit) : List Text := v.uses ++ (declared [v]).map Symbol.name

/-- No name that one list of positions declares occurs in the other. -/
structure Independent (vs ws : List Visit) : Prop where
  left : ∀ symbol ∈ declared vs, ∀ w ∈ ws, symbol.name ∉ w.mentions
  right : ∀ symbol ∈ declared ws, ∀ v ∈ vs, symbol.name ∉ v.mentions

namespace Scope

theorem lookup_after_eq (scope : Scope) (vs : List Visit) (name : Text) :
    (scope.after vs).lookup name = (scope.lookup name).or (lookup ⟨declared vs⟩ name) :=
  lookup_append scope.symbols (declared vs) name

theorem lookup_declared_of_not_mem {vs : List Visit} {name : Text}
    (h : name ∉ (declared vs).map Symbol.name) : lookup ⟨declared vs⟩ name = none :=
  lookup_eq_none.mpr h

/-- Declarations of other names do not matter to a name. -/
theorem lookup_after_of_not_mem {scope : Scope} {vs : List Visit} {name : Text}
    (h : name ∉ (declared vs).map Symbol.name) :
    (scope.after vs).lookup name = scope.lookup name := by
  rw [lookup_after_eq, lookup_declared_of_not_mem h, Option.or_none]

end Scope

/-- Positions are ready in two scopes alike that agree on the names that occur. -/
theorem ready_congr {scope other : Scope} {vs : List Visit}
    (h : ∀ v ∈ vs, ∀ name ∈ v.mentions, scope.lookup name = other.lookup name) :
    Ready scope vs ↔ Ready other vs := by
  induction vs generalizing scope other with
  | nil => exact Iff.rfl
  | cons v rest ih =>
    have hv := h v List.mem_cons_self
    have huses : ∀ name ∈ v.uses, scope.lookup name = other.lookup name :=
      fun name hn => hv name (List.mem_append_left _ hn)
    have hnew : ∀ symbol ∈ declared [v], scope.lookup symbol.name = other.lookup symbol.name :=
      fun symbol hs => hv symbol.name (List.mem_append_right _ (List.mem_map_of_mem hs))
    -- the scopes still agree on the names that occur later, whatever the position declares
    have hrest : Ready (scope.after [v]) rest ↔ Ready (other.after [v]) rest := by
      refine ih fun w hw name hn => ?_
      rw [Scope.lookup_after_eq, Scope.lookup_after_eq, h w (List.mem_cons_of_mem v hw) name hn]
    rw [Ready, Ready, hrest]
    refine and_congr_right fun _ => and_congr ?_ (and_congr ?_ Iff.rfl)
    · exact forall₂_congr fun name hn => by rw [huses name hn]
    · exact forall₂_congr fun symbol hs => by rw [hnew symbol hs]

section Independent

variable {env : Text → Option Ty} {scope : Scope} {vs ws : List Visit}

theorem Independent.symm (h : Independent vs ws) : Independent ws vs := ⟨h.right, h.left⟩

theorem Independent.disjoint (h : Independent vs ws) :
    ∀ name ∈ (declared vs).map Symbol.name, name ∉ (declared ws).map Symbol.name := by
  intro name hv hw
  obtain ⟨symbol, hs, rfl⟩ := List.mem_map.mp hv
  obtain ⟨other, ho, heq⟩ := List.mem_map.mp hw
  obtain ⟨w, hmem, hw⟩ := mem_declared.mp ho
  exact h.left symbol hs w hmem (heq ▸ List.mem_append_right _ (List.mem_map_of_mem hw))

/-- Positions fit behind independent ones just as they fit without them. -/
theorem Independent.fits_after (h : Independent vs ws) :
    Fits env (scope.after vs) ws ↔ Fits env scope ws := by
  have hready : Ready (scope.after vs) ws ↔ Ready scope ws := by
    refine ready_congr fun w hw name hn => Scope.lookup_after_of_not_mem fun hd => ?_
    obtain ⟨symbol, hs, rfl⟩ := List.mem_map.mp hd
    exact h.left symbol hs w hw hn
  unfold Fits
  rw [hready]

theorem Independent.fits_comm (h : Independent vs ws) :
    Fits env scope (vs ++ ws) ↔ Fits env scope (ws ++ vs) := by
  rw [fits_append, fits_append, h.fits_after, h.symm.fits_after, and_comm]

/-- The two orders leave the same types of names. -/
theorem Independent.lookup_comm (h : Independent vs ws) (name : Text) :
    (scope.after (vs ++ ws)).lookup name = (scope.after (ws ++ vs)).lookup name := by
  rw [Scope.lookup_after_eq, Scope.lookup_after_eq, declared_append, declared_append,
    Scope.lookup_append, Scope.lookup_append]
  by_cases hv : name ∈ (declared vs).map Symbol.name
  · rw [Scope.lookup_declared_of_not_mem (h.disjoint name hv), Option.or_none, Option.none_or]
  · rw [Scope.lookup_declared_of_not_mem hv, Option.or_none, Option.none_or]

end Independent

namespace Check

variable {context : Option Ty} {a b : Node} {s t : State}

/-- Two statements in turn are accepted exactly if their positions fit, one list after the other. -/
theorem gives_visit_visit {env : Text → Option Ty}
    (he : Extends env (s.scope.after
      (visits (.statement context) a ++ visits (.statement context) b))) :
    Gives (do visit context a; visit context b) s () ↔
      Fits env s.scope (visits (.statement context) a ++ visits (.statement context) b) := by
  rw [Scope.after_append] at he
  rw [fits_append, ← visit_admits context a s env he.before]
  refine gives_bind_unit fun u hu => ?_
  rw [← visit_scope hu] at he ⊢
  exact visit_admits context b u env he

/-- What two statements in turn leave behind. -/
theorem visit_visit_ok (h : (do visit context a; visit context b : Check Unit) s = .ok () t) :
    t.scope = s.scope.after (visits (.statement context) a ++ visits (.statement context) b) ∧
    ∀ k, t.usage.get k = s.usage.get k + costOf (visits (.statement context) a) k +
      costOf (visits (.statement context) b) k := by
  obtain ⟨_, u, ha, hb⟩ := bind_eq_ok.mp h
  constructor
  · rw [Scope.after_append, ← visit_scope ha, ← visit_scope hb]
  · intro k
    rw [((visit_covers context b).ok hb).usage k, ((visit_covers context a).ok ha).usage k]

/-- Two statements can change places if neither declares a name that occurs in the other: both
orders are accepted or neither is, and they leave the same counters and the same names with the same
types, the names in another order. -/
theorem visit_commutes (context : Option Ty) (a b : Node) (s : State)
    (h : Independent (visits (.statement context) a) (visits (.statement context) b)) :
    ((∃ t, (do visit context a; visit context b : Check Unit) s = .ok () t) ↔
      ∃ t, (do visit context b; visit context a : Check Unit) s = .ok () t) ∧
    ∀ t u, (do visit context a; visit context b : Check Unit) s = .ok () t →
      (do visit context b; visit context a : Check Unit) s = .ok () u →
      t.usage = u.usage ∧ (∀ name, t.scope.lookup name = u.scope.lookup name) ∧
        t.scope.symbols.Perm u.scope.symbols := by
  constructor
  · -- one table serves both orders, since they leave the same types of names
    let vs := visits (.statement context) a
    let ws := visits (.statement context) b
    let env := (s.scope.after (vs ++ ws)).lookup
    have hab : Gives (do visit context a; visit context b) s () ↔ Fits env s.scope (vs ++ ws) :=
      gives_visit_visit fun name type hl => hl
    have hba : Gives (do visit context b; visit context a) s () ↔ Fits env s.scope (ws ++ vs) :=
      gives_visit_visit fun name type hl => (h.lookup_comm name).trans hl
    exact hab.trans (h.fits_comm.trans hba.symm)
  · intro t u ht hu
    obtain ⟨hscope, husage⟩ := visit_visit_ok ht
    obtain ⟨hscope', husage'⟩ := visit_visit_ok hu
    refine ⟨Usage.eq_of_get fun k => ?_, fun name => ?_, ?_⟩
    · rw [husage k, husage' k]
      omega
    · rw [hscope, hscope', h.lookup_comm]
    · rw [hscope, hscope', Scope.after, Scope.after, declared_append, declared_append]
      exact List.perm_append_comm.append_left _

/-- A branch declares and sets a number; a function declares a truth value, compares a number that
stands in the scope with it in a loop, and returns it. The names stand in the order of the
statements. -/
theorem visit_commutes_branch :
    let a := Node.ifStmt (Node.boolValue true)
      [Node.block [Node.declaration "num" "x", Node.assignStmt "x" (Node.reference "z")]]
    let b := Node.functionStmt "bool" "f"
      [Node.declaration "bool" "y",
        Node.whileStmt (Node.compExpr (Node.reference "z") "<" (Node.intValue 3)) [],
        Node.returnStmt (Node.reference "y")]
    let s : State := { scope := ⟨[{ name := "z", type := .number }]⟩ }
    Independent (visits (.statement none) a) (visits (.statement none) b) ∧
    ∃ t u, (do visit none a; visit none b : Check Unit) s = .ok () t ∧
      (do visit none b; visit none a : Check Unit) s = .ok () u ∧
      t.scope.symbols.map Symbol.name = (["z", "x", "y"] : List Text) ∧
      u.scope.symbols.map Symbol.name = (["z", "y", "x"] : List Text) ∧
      t.usage = u.usage ∧ t.scope.symbols.Perm u.scope.symbols := by
  intro a b s
  have h : Independent (visits (.statement none) a) (visits (.statement none) b) :=
    ⟨by decide, by decide⟩
  obtain ⟨t, ht, htnames⟩ : ∃ t, (do visit none a; visit none b : Check Unit) s = .ok () t ∧
    t.scope.symbols.map Symbol.name = (["z", "x", "y"] : List Text) := ⟨_, rfl, rfl⟩
  obtain ⟨u, hu, hunames⟩ : ∃ u, (do visit none b; visit none a : Check Unit) s = .ok () u ∧
    u.scope.symbols.map Symbol.name = (["z", "y", "x"] : List Text) := ⟨_, rfl, rfl⟩
  obtain ⟨husage, -, hperm⟩ := (visit_commutes none a b s h).2 t u ht hu
  exact ⟨h, t, u, ht, hu, htnames, hunames, husage, hperm⟩

end Check

end TreeCheck
