import Mathlib.Data.List.Basic
import TreeCheck.Proofs.Tree.Nodes
import TreeCheck.Tree.Walk

namespace TreeCheck

/-- A walk that stops at these roles does not go below nodes of the kind. -/
def Kind.IsCut (stop : List Role) (kind : Kind) : Prop := kind = .identifier ∨ kind.role ∈ stop

instance (stop : List Role) (kind : Kind) : Decidable (kind.IsCut stop) :=
  inferInstanceAs (Decidable (_ ∨ _))

/-- Every kind has a visit of its own, but for the expressions, which share one. -/
theorem Kind.visitName_role (kind : Kind) :
    kind.role.visitName =
      if kind.isExpression then "visitExpression" else "visit" ++ kind.name := by
  cases kind <;> rfl

theorem Walker.skips_iff (w : Walker) (kind : Kind) :
    w.skips kind.role = true ↔ kind.IsCut w.stop := by
  have hname : kind.role = .identifier ↔ kind = .identifier := by
    cases kind <;> simp [Kind.role]
  simp [skips, Kind.IsCut, hname]

namespace Node

/-- The node to which a path leads. -/
def at? (n : Node) : List Nat → Option Node
  | [] => some n
  | index :: path => n.children[index]?.bind fun c => c.at? path

/-- A walk that stops at these roles comes to a node at the end of a path: none of the nodes above it
is cut. -/
structure Reaches (stop : List Role) (n : Node) (path : List Nat) (m : Node) : Prop where
  found : n.at? path = some m
  uncut : ∀ above, above <+: path → above ≠ path →
    ∀ a, n.at? above = some a → ¬ a.kind.IsCut stop

mutual

/-- The tree without what is below the nodes at which it is cut. -/
def pruned (stop : List Role) : Node → Node
  | ⟨kind, children, value, ops, span⟩ =>
    ⟨kind, if kind.IsCut stop then [] else prunedAll stop children, value, ops, span⟩

def prunedAll (stop : List Role) : List Node → List Node
  | [] => []
  | node :: rest => pruned stop node :: prunedAll stop rest

end

mutual

/-- The nodes that a walk comes to, each one with its path. -/
def route (stop : List Role) : Node → List (List Nat × Node)
  | ⟨kind, children, value, ops, span⟩ =>
    ([], ⟨kind, children, value, ops, span⟩) ::
      if kind.IsCut stop then [] else routeFrom stop 0 children

/-- Those from children that are counted from an index. -/
def routeFrom (stop : List Role) (index : Nat) : List Node → List (List Nat × Node)
  | [] => []
  | node :: rest =>
    (route stop node).map (Prod.map (index :: ·) id) ++ routeFrom stop (index + 1) rest

end

section Equations

variable {stop : List Role}

theorem prunedAll_eq (list : List Node) : prunedAll stop list = list.map (pruned stop) := by
  induction list with
  | nil => rfl
  | cons node rest ih => rw [prunedAll, ih, List.map_cons]

theorem pruned_eq (n : Node) : n.pruned stop =
    { n with children := if n.kind.IsCut stop then [] else n.children.map (pruned stop) } := by
  obtain ⟨kind, children, value, ops, span⟩ := n
  rw [pruned, prunedAll_eq]

theorem route_eq (n : Node) : n.route stop =
    ([], n) :: if n.kind.IsCut stop then [] else routeFrom stop 0 n.children := by
  obtain ⟨kind, children, value, ops, span⟩ := n
  rw [route]

/-- The nodes of a route are those of the routes of the children, one after the other. -/
theorem map_snd_routeFrom (index : Nat) (list : List Node) :
    (routeFrom stop index list).map Prod.snd =
      list.flatMap fun c => (c.route stop).map Prod.snd := by
  induction list generalizing index with
  | nil => rfl
  | cons c rest ih =>
    rw [routeFrom, List.map_append, ih, List.flatMap_cons, List.map_map]
    rfl

end Equations

section Paths

variable {stop : List Role} {n m : Node} {index : Nat} {path : List Nat}

theorem reaches_nil : n.Reaches stop [] m ↔ m = n := by
  constructor
  · intro h
    have hfound := h.found
    rw [at?] at hfound
    exact (Option.some.inj hfound).symm
  · intro h
    subst h
    refine ⟨rfl, fun above habove hne => ?_⟩
    exact absurd (List.prefix_nil.mp habove) hne

/-- One step down is possible from a node at which nothing is cut. -/
theorem reaches_cons : n.Reaches stop (index :: path) m ↔
    ¬ n.kind.IsCut stop ∧ ∃ c, n.children[index]? = some c ∧ c.Reaches stop path m := by
  constructor
  · intro h
    obtain ⟨c, hc, hm⟩ := Option.bind_eq_some_iff.mp h.found
    have hroot : ¬ n.kind.IsCut stop :=
      h.uncut [] (List.nil_prefix) (List.cons_ne_nil _ _).symm n rfl
    refine ⟨hroot, c, hc, hm, fun above habove hne a ha => ?_⟩
    apply h.uncut (index :: above) ((List.cons_prefix_cons).mpr ⟨rfl, habove⟩)
    · intro heq
      exact hne (List.cons.inj heq).2
    · rw [at?, hc]
      exact ha
  · intro h
    obtain ⟨hroot, c, hc, hreach⟩ := h
    have hbelow (rest : List Nat) : n.at? (index :: rest) = c.at? rest := by
      rw [at?, hc]
      rfl
    refine ⟨(hbelow path).trans hreach.found, fun above habove hne a ha => ?_⟩
    cases above with
    | nil =>
      rw [at?] at ha
      obtain rfl := Option.some.inj ha
      exact hroot
    | cons first rest =>
      obtain ⟨rfl, hrest⟩ := List.cons_prefix_cons.mp habove
      apply hreach.uncut rest hrest
      · intro heq
        exact hne (congrArg _ heq)
      · rw [← hbelow]
        exact ha

theorem mem_routeFrom (list : List Node) (start : Nat) (path : List Nat) :
    (path, m) ∈ routeFrom stop start list ↔ ∃ index rest c, path = (start + index) :: rest ∧
      list[index]? = some c ∧ (rest, m) ∈ c.route stop := by
  induction list generalizing start with
  | nil => simp [routeFrom]
  | cons c others ih =>
    rw [routeFrom, List.mem_append, ih]
    constructor
    · intro h
      rcases h with h | ⟨index, rest, d, hpath, hd, hm⟩
      · obtain ⟨⟨rest, m'⟩, hm, heq⟩ := List.mem_map.mp h
        cases heq
        exact ⟨0, rest, c, rfl, rfl, hm⟩
      · refine ⟨index + 1, rest, d, ?_, hd, hm⟩
        rw [hpath]
        congr 1
        omega
    · intro h
      obtain ⟨index, rest, d, hpath, hd, hm⟩ := h
      cases index with
      | zero =>
        obtain rfl := Option.some.inj hd
        exact .inl (List.mem_map.mpr ⟨(rest, m), hm, by rw [hpath]; rfl⟩)
      | succ index =>
        refine .inr ⟨index, rest, d, ?_, hd, hm⟩
        rw [hpath]
        congr 1
        omega

/-- The route has every node to which a walk comes. -/
theorem mem_route (n : Node) (path : List Nat) :
    (path, m) ∈ n.route stop ↔ n.Reaches stop path m := by
  induction n using childInduction generalizing path with
  | step n ih =>
    rw [route_eq, List.mem_cons]
    cases path with
    | nil =>
      have hnone : ([], m) ∉ (if n.kind.IsCut stop then [] else routeFrom stop 0 n.children) := by
        split
        · exact List.not_mem_nil
        · rw [mem_routeFrom]
          simp
      rw [reaches_nil]
      simp [hnone]
    | cons index path =>
      rw [reaches_cons]
      by_cases hcut : n.kind.IsCut stop
      · simp [hcut]
      · rw [if_neg hcut, mem_routeFrom]
        constructor
        · intro h
          rcases h with h | ⟨i, rest, c, hpath, hc, hm⟩
          · cases h
          · obtain ⟨hi, rfl⟩ := List.cons.inj hpath
            obtain rfl : index = i := by omega
            exact ⟨hcut, c, hc, (ih c (List.mem_of_getElem? hc) path).mp hm⟩
        · intro h
          obtain ⟨-, c, hc, hm⟩ := h
          refine .inr ⟨index, path, c, by rw [Nat.zero_add], hc, ?_⟩
          exact (ih c (List.mem_of_getElem? hc) path).mpr hm

/-- The paths of a route are in order. -/
def InOrder (route : List (List Nat × Node)) : Prop :=
  (route.map Prod.fst).Pairwise (List.Lex (· < ·))

/-- A child's paths keep their order below its parent. -/
theorem InOrder.below {route : List (List Nat × Node)} (h : InOrder route) (index : Nat) :
    InOrder (route.map (Prod.map (index :: ·) id)) := by
  unfold InOrder at h ⊢
  rw [List.pairwise_map] at h ⊢
  rw [List.pairwise_map]
  exact h.imp fun hlt => List.Lex.cons hlt

theorem routeFrom_inOrder (list : List Node) (h : ∀ c ∈ list, InOrder (c.route stop))
    (start : Nat) : InOrder (routeFrom stop start list) := by
  induction list generalizing start with
  | nil => exact .nil
  | cons c rest ih =>
    have hfirst := (h c List.mem_cons_self).below start
    have hrest := ih (fun d hd => h d (List.mem_cons_of_mem _ hd)) (start + 1)
    unfold InOrder at hfirst hrest ⊢
    rw [routeFrom, List.map_append, List.pairwise_append]
    refine ⟨hfirst, hrest, fun path hpath other hother => ?_⟩
    -- What comes from the first child has its number, and the others have greater ones.
    obtain ⟨⟨_, m⟩, hm, rfl⟩ := List.mem_map.mp hpath
    obtain ⟨⟨below, m⟩, -, heq⟩ := List.mem_map.mp hm
    obtain ⟨⟨_, m'⟩, hm', rfl⟩ := List.mem_map.mp hother
    obtain ⟨index, below', d, hother', -⟩ := (mem_routeFrom rest (start + 1) _).mp hm'
    cases heq
    simp only [hother']
    apply List.Lex.rel
    omega

theorem route_inOrder (n : Node) : InOrder (n.route stop) := by
  induction n using childInduction with
  | step n ih =>
    rw [route_eq]
    split
    · exact List.pairwise_singleton _ _
    · unfold InOrder
      rw [List.map_cons, List.pairwise_cons]
      refine ⟨fun path hpath => ?_, routeFrom_inOrder n.children ih 0⟩
      obtain ⟨⟨_, m⟩, hm, rfl⟩ := List.mem_map.mp hpath
      obtain ⟨index, below, c, heq, -⟩ := (mem_routeFrom n.children 0 _).mp hm
      simp only [heq]
      exact List.Lex.nil

end Paths

/-- The nodes of the pruned tree, in preorder, are those of the route. -/
theorem nodes_pruned (stop : List Role) (n : Node) :
    (n.pruned stop).nodes = ((n.route stop).map Prod.snd).map (pruned stop) := by
  induction n using childInduction with
  | step n ih =>
    rw [nodes_eq, route_eq, List.map_cons, List.map_cons]
    congr 1
    by_cases hcut : n.kind.IsCut stop
    · simp [pruned_eq, hcut]
    · have hchildren : (n.pruned stop).children = n.children.map (pruned stop) := by
        simp [pruned_eq, hcut]
      rw [hchildren, if_neg hcut, map_snd_routeFrom, List.flatMap_map, List.map_flatMap]
      exact List.flatMap_congr ih

end Node

namespace Walker

theorem walkAll_eq (w : Walker) (list : List Node) : w.walkAll list = list.flatMap w.walk := by
  induction list with
  | nil => rfl
  | cons node rest ih => rw [walkAll, ih, List.flatMap_cons]

theorem walk_eq (w : Walker) (n : Node) : w.walk n =
    w.tell n ++ if n.kind.IsCut w.stop then [] else n.children.flatMap w.walk := by
  obtain ⟨kind, children, value, ops, span⟩ := n
  rw [walk, walkAll_eq]
  simp only [skips_iff]

/-- The walker is told of the nodes of the route, one after the other. -/
theorem walk_eq_route (w : Walker) (n : Node) :
    w.walk n = ((n.route w.stop).map Prod.snd).flatMap w.tell := by
  induction n using Node.childInduction with
  | step n ih =>
    rw [walk_eq, Node.route_eq, List.map_cons, List.flatMap_cons]
    congr 1
    by_cases hcut : n.kind.IsCut w.stop
    · simp [hcut]
    · rw [if_neg hcut, if_neg hcut, Node.map_snd_routeFrom, List.flatMap_assoc]
      exact List.flatMap_congr ih

/-- A walk is the preorder of the tree that is left when everything below names and below the roles
at which it stops is cut off: it comes to the nodes above which nothing is cut, each one once and in
the order of the paths, and visits each in the one role of its kind. If it tells of the nodes that
it reaches, it does so right before the visit. -/
theorem walk_pruned_preorder (stop : List Role) (n : Node) :
    (∀ kind : Kind, kind.role.visitName =
      if kind.isExpression then "visitExpression" else "visit" ++ kind.name) ∧
    ∃ route : List (List Nat × Node),
      (∀ path m, (path, m) ∈ route ↔ n.Reaches stop path m) ∧ Node.InOrder route ∧
      (n.pruned stop).nodes = route.map (fun stage => stage.2.pruned stop) ∧
      walk { stop } n = route.map (fun stage => .visited stage.2.kind.role stage.2) ∧
      walk { stop, announce := true } n = route.flatMap fun stage =>
        [.reached stage.2, .visited stage.2.kind.role stage.2] := by
  refine ⟨Kind.visitName_role, n.route stop, fun path m => Node.mem_route n path,
    Node.route_inOrder n, ?_, ?_, ?_⟩
  · rw [Node.nodes_pruned, List.map_map]
    rfl
  · rw [walk_eq_route, List.flatMap_map, List.map_eq_flatMap]
    rfl
  · rw [walk_eq_route, List.flatMap_map]
    rfl

end Walker

end TreeCheck
