import Mathlib.Algebra.BigOperators.Group.Finset.Basic
import Mathlib.Algebra.Order.BigOperators.Group.Finset

/-!
# Closures by a worklist

A stack of nodes to visit and the nodes visited.  A node that comes up for the
first time puts its successors on the stack.
-/

namespace Aburi.Lib

open Finset

variable {Node : Type} [DecidableEq Node]

/-- The last successor is visited first; `none` means that the fuel ran out. -/
def closure (next : Node → List Node) : ℕ → List Node → List Node → Option (List Node)
  | 0, _, _ => none
  | _ + 1, visited, [] => some visited
  | fuel + 1, visited, node :: stack =>
    if node ∈ visited then closure next fuel visited stack
    else closure next fuel (node :: visited) ((next node).reverse ++ stack)

/-- The successors that the nodes of a finite set can still put on the stack. -/
def pendingWeight (next : Node → List Node) (nodes : Finset Node) (visited : List Node) : ℕ :=
  ∑ node ∈ nodes.filter (· ∉ visited), (next node).length

theorem pendingWeight_visit {next : Node → List Node} {nodes : Finset Node}
    {visited : List Node} {node : Node} (leaves : node ∉ nodes → next node = [])
    (fresh : node ∉ visited) :
    (next node).length + pendingWeight next nodes (node :: visited) =
      pendingWeight next nodes visited := by
  have erased : nodes.filter (· ∉ node :: visited) = (nodes.filter (· ∉ visited)).erase node := by
    ext other
    simp only [mem_filter, mem_erase, List.mem_cons, not_or]
    tauto
  rw [pendingWeight, erased, pendingWeight]
  by_cases known : node ∈ nodes
  · exact add_sum_erase _ (fun node => (next node).length)
      (Finset.mem_filter.mpr ⟨known, fresh⟩)
  · have outside : node ∉ nodes.filter (· ∉ visited) :=
      fun member => known (Finset.mem_filter.mp member).1
    rw [erase_eq_of_notMem outside, leaves known]
    exact Nat.zero_add _

/-- A search ends when only the nodes of a finite set have successors. -/
theorem closure_ends {next : Node → List Node} {nodes : Finset Node}
    (leaves : ∀ node, node ∉ nodes → next node = []) {fuel : ℕ} {visited stack : List Node}
    (enough : stack.length + pendingWeight next nodes visited < fuel) :
    ∃ found, ∀ more, fuel ≤ more → closure next more visited stack = some found := by
  induction fuel generalizing visited stack with
  | zero => exact absurd enough (Nat.not_lt_zero _)
  | succ fuel ih =>
    -- a step and the rest of the search
    have step : ∀ {visited' stack' : List Node},
        (∀ more, closure next (more + 1) visited stack = closure next more visited' stack') →
        stack'.length + pendingWeight next nodes visited' < fuel →
        ∃ found, ∀ more, fuel + 1 ≤ more → closure next more visited stack = some found := by
      intro visited' stack' same smaller
      obtain ⟨found, ends⟩ := ih smaller
      refine ⟨found, fun more atLeast => ?_⟩
      cases more with
      | zero => exact absurd atLeast (Nat.not_succ_le_zero _)
      | succ more =>
        rw [same]
        exact ends more (Nat.le_of_succ_le_succ atLeast)
    cases stack with
    | nil =>
      refine ⟨visited, fun more atLeast => ?_⟩
      cases more with
      | zero => exact absurd atLeast (Nat.not_succ_le_zero _)
      | succ more => rfl
    | cons node stack =>
      rw [List.length_cons] at enough
      by_cases seen : node ∈ visited
      · apply step (fun more => by rw [closure, if_pos seen])
        omega
      · have visit := pendingWeight_visit (leaves node) seen
        apply step (fun more => by rw [closure, if_neg seen])
        rw [List.length_append, List.length_reverse]
        omega

end Aburi.Lib
