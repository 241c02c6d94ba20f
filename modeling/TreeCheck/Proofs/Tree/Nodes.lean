import TreeCheck.Tree.Basic

namespace TreeCheck.Node

/-- A property of all nodes holds if it passes from the children of a node to the node. -/
@[elab_as_elim]
theorem childInduction {motive : Node → Prop}
    (step : ∀ n : Node, (∀ c ∈ n.children, motive c) → motive n) : ∀ n, motive n
  | ⟨kind, children, value, ops, span⟩ =>
    step ⟨kind, children, value, ops, span⟩ fun c _hc => childInduction step c
termination_by n => sizeOf n
decreasing_by
  have hlt : sizeOf c < sizeOf children := List.sizeOf_lt_of_mem _hc
  simp only [Node.mk.sizeOf_spec]
  omega

mutual

/-- All nodes of a tree, in preorder. -/
def nodes : Node → List Node
  | ⟨kind, children, value, ops, span⟩ => ⟨kind, children, value, ops, span⟩ :: nodesAll children

def nodesAll : List Node → List Node
  | [] => []
  | node :: rest => nodes node ++ nodesAll rest

end

theorem nodesAll_eq (list : List Node) : nodesAll list = list.flatMap nodes := by
  induction list with
  | nil => rfl
  | cons node rest ih => rw [nodesAll, ih, List.flatMap_cons]

theorem nodes_eq (n : Node) : n.nodes = n :: n.children.flatMap nodes := by
  obtain ⟨kind, children, value, ops, span⟩ := n
  rw [nodes, nodesAll_eq]

theorem mem_nodes_self (n : Node) : n ∈ n.nodes := by
  rw [nodes_eq]
  exact List.mem_cons_self

theorem nodes_child_subset {n c : Node} (hc : c ∈ n.children) : c.nodes ⊆ n.nodes := by
  intro m hm
  rw [nodes_eq, List.mem_cons, List.mem_flatMap]
  exact .inr ⟨c, hc, hm⟩

theorem length_le_flatMap_nodes (list : List Node) :
    list.length ≤ (list.flatMap nodes).length := by
  induction list with
  | nil => exact Nat.le_refl 0
  | cons n rest ih =>
    have hn : 0 < n.nodes.length := List.length_pos_of_mem n.mem_nodes_self
    rw [List.flatMap_cons, List.length_append, List.length_cons]
    omega

theorem length_children_lt (n : Node) : n.children.length < n.nodes.length := by
  rw [nodes_eq, List.length_cons]
  exact Nat.lt_succ_of_le (length_le_flatMap_nodes n.children)

end TreeCheck.Node
