import Mathlib.Algebra.Order.BigOperators.Group.List
import Mathlib.Algebra.Order.Ring.Nat
import Mathlib.Data.List.Flatten

/-!
# Breadth-first traversals

A loop over a queue of nodes that enqueues the children of every node it takes.
In a hierarchy, whose nodes are larger than their children together, the loop
ends; it visits every node under those it begins with, as often as it stands
there.
-/

structure Hierarchy (Node : Type*) where
  children : Node → List Node
  bounded : ∃ size : Node → Nat, ∀ d, ((children d).map size).sum < size d

namespace Hierarchy

variable {Node State : Type*} (h : Hierarchy Node)

noncomputable def size : Node → Nat := h.bounded.choose

theorem size_children (d : Node) : ((h.children d).map h.size).sum < h.size d :=
  h.bounded.choose_spec d

theorem size_lt {c d : Node} (hc : c ∈ h.children d) : h.size c < h.size d :=
  (List.le_sum_of_mem (List.mem_map_of_mem hc)).trans_lt (h.size_children d)

theorem size_queue (d : Node) (queue : List Node) :
    ((queue ++ h.children d).map h.size).sum < ((d :: queue).map h.size).sum := by
  have hlt := h.size_children d
  simp only [List.map_append, List.sum_append, List.map_cons, List.sum_cons]
  omega

def traverse (visit : State → Node → State) : (queue : List Node) → State → State
  | [], s => s
  | d :: queue, s => traverse visit (queue ++ h.children d) (visit s d)
termination_by queue => (queue.map h.size).sum
decreasing_by exact h.size_queue d queue

def visited : (queue : List Node) → List Node
  | [] => []
  | d :: queue => d :: visited (queue ++ h.children d)
termination_by queue => (queue.map h.size).sum
decreasing_by exact h.size_queue d queue

def nodes (d : Node) : List Node :=
  d :: (h.children d).attach.flatMap fun c => nodes c.1
termination_by h.size d
decreasing_by exact h.size_lt c.2

theorem nodes_eq (d : Node) : h.nodes d = d :: (h.children d).flatMap h.nodes := by
  rw [nodes, List.flatMap_subtype (g := h.nodes) fun _ _ => rfl, List.unattach_attach]

theorem mem_nodes_self (d : Node) : d ∈ h.nodes d := by
  rw [nodes_eq]
  exact List.mem_cons_self

theorem traverse_eq_foldl (visit : State → Node → State) (queue : List Node) (s : State) :
    h.traverse visit queue s = (h.visited queue).foldl visit s := by
  induction queue using visited.induct h generalizing s with
  | case1 => rw [traverse, visited, List.foldl_nil]
  | case2 d queue ih => rw [traverse, visited, List.foldl_cons, ih]

theorem perm_visited (queue : List Node) :
    (h.visited queue).Perm (queue.flatMap h.nodes) := by
  induction queue using visited.induct h with
  | case1 => rw [visited, List.flatMap_nil]
  | case2 d queue ih =>
    rw [visited, List.flatMap_cons, nodes_eq, List.cons_append]
    refine List.Perm.cons d (ih.trans ?_)
    rw [List.flatMap_append]
    exact List.perm_append_comm

/-- Beginning with one node, the loop takes it first, and then those under it. -/
theorem visited_singleton (d : Node) :
    ∃ rest, h.visited [d] = d :: rest ∧ rest.Perm ((h.children d).flatMap h.nodes) :=
  ⟨h.visited (h.children d), by rw [visited, List.nil_append], h.perm_visited (h.children d)⟩

end Hierarchy
