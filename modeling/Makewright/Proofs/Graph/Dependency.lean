import Makewright.Graph.Basic
import Makewright.Proofs.Order.Walk
import Mathlib.Data.List.Nodup

/-!
# Dependencies between the nodes of a graph

The nodes of a graph, their declarations and the relation that the declarations make on targets. As
a graph has one node for each target, looking a target up and having its node among the nodes are
the same thing (`node?_eq_some_iff`).
-/

set_option autoImplicit false

namespace Makewright.Graph

open Relation

variable {g : Graph}

/-- The node of `a` lists `b` as a dependency. -/
def DependsOn (g : Graph) (a b : Target) : Prop :=
  ∃ node ∈ g.nodes, node.target = a ∧ b ∈ node.dependencies

/-- There is a path of one or more dependencies from `a` to `b`. -/
def Reaches (g : Graph) : Target → Target → Prop :=
  TransGen g.DependsOn

/-- A closed path of dependencies through at least two targets, none of which it meets twice before
it closes. -/
structure IsCycle (g : Graph) (cycle : List Target) : Prop where
  closed : cycle.head? = cycle.getLast?
  several : 2 ≤ cycle.dropLast.length
  nodup : cycle.dropLast.Nodup
  linked : cycle.IsChain g.DependsOn

/-- The list holds the nodes that a target reaches, each once and behind everything it reaches
itself. -/
structure IsClosure (g : Graph) (target : Target) (closure : List Node) : Prop where
  subset : closure ⊆ g.nodes
  mem_iff : ∀ t, t ∈ closure.map Node.target ↔ g.Reaches target t
  nodup : (closure.map Node.target).Nodup
  layered : Layered g.Reaches (closure.map Node.target)

theorem mem_targets {t : Target} : t ∈ g.targets ↔ ∃ node ∈ g.nodes, node.target = t :=
  List.mem_map

/-- Two nodes of a graph with one target are one node. -/
theorem eq_of_target_eq {a b : Node} (ha : a ∈ g.nodes) (hb : b ∈ g.nodes)
    (h : a.target = b.target) : a = b :=
  List.inj_on_of_nodup_map g.distinctTargets ha hb h

theorem node?_eq_some_iff {t : Target} {node : Node} :
    g.node? t = some node ↔ node ∈ g.nodes ∧ node.target = t := by
  constructor
  · intro h
    exact ⟨List.mem_of_find?_eq_some h, by simpa using List.find?_some h⟩
  · rintro ⟨hmem, rfl⟩
    have hsome : (g.node? node.target).isSome := by
      rw [node?, List.find?_isSome]
      exact ⟨node, hmem, by simp⟩
    obtain ⟨found, hfound⟩ := Option.isSome_iff_exists.1 hsome
    have htarget : found.target = node.target := by simpa using List.find?_some hfound
    rw [hfound, eq_of_target_eq (List.mem_of_find?_eq_some hfound) hmem htarget]

/-- A declared target has its node. -/
theorem exists_node? {t : Target} (h : t ∈ g.targets) : ∃ node, g.node? t = some node := by
  obtain ⟨node, hnode, rfl⟩ := mem_targets.1 h
  exact ⟨node, node?_eq_some_iff.2 ⟨hnode, rfl⟩⟩

theorem isDeclared_iff {t : Target} : Order.IsDeclared g.declarations t ↔ t ∈ g.targets := by
  simp [Order.IsDeclared, declarations, targets]

theorem lookup_declarations (t : Target) :
    g.declarations.lookup t = (g.node? t).map Node.dependencies := by
  unfold declarations node?
  induction g.nodes with
  | nil => rfl
  | cons node rest ih =>
    rw [List.map_cons, List.lookup_cons, List.find?_cons, BEq.comm]
    cases node.target == t with
    | true => rfl
    | false => exact ih

theorem order_dependsOn_iff {a b : Target} :
    Order.DependsOn g.declarations a b ↔ g.DependsOn a b := by
  rw [Order.DependsOn, Order.Declarations.listed, lookup_declarations, DependsOn]
  constructor
  · intro h
    cases hnode : g.node? a with
    | none => simp [hnode] at h
    | some node =>
      obtain ⟨hmem, htarget⟩ := node?_eq_some_iff.1 hnode
      exact ⟨node, hmem, htarget, by simpa [hnode] using h⟩
  · rintro ⟨node, hmem, htarget, hb⟩
    simpa [node?_eq_some_iff.2 ⟨hmem, htarget⟩] using hb

theorem order_dependsOn_eq : Order.DependsOn g.declarations = g.DependsOn := by
  funext a b
  exact propext order_dependsOn_iff

/-- No target lists itself. -/
theorem DependsOn.irrefl (t : Target) : ¬ g.DependsOn t t := by
  rintro ⟨node, -, rfl, hmem⟩
  exact node.irreflexive hmem

/-! ## The nodes of some targets -/

theorem mem_nodesOf {ts : List Target} {node : Node} :
    node ∈ g.nodesOf ts ↔ node ∈ g.nodes ∧ node.target ∈ ts := by
  rw [nodesOf, List.mem_filterMap]
  constructor
  · rintro ⟨t, ht, hnode⟩
    obtain ⟨hmem, rfl⟩ := node?_eq_some_iff.1 hnode
    exact ⟨hmem, ht⟩
  · rintro ⟨hmem, ht⟩
    exact ⟨node.target, ht, node?_eq_some_iff.2 ⟨hmem, rfl⟩⟩

/-- The nodes of declared targets have these targets, in the same order. -/
theorem map_target_nodesOf {ts : List Target} (h : ts ⊆ g.targets) :
    (g.nodesOf ts).map Node.target = ts := by
  induction ts with
  | nil => rfl
  | cons t rest ih =>
    obtain ⟨node, hnode⟩ := exists_node? (h List.mem_cons_self)
    have hrest := ih fun u hu => h (List.mem_cons_of_mem t hu)
    rw [nodesOf, List.filterMap_cons, hnode]
    change node.target :: (g.nodesOf rest).map Node.target = t :: rest
    rw [hrest, (node?_eq_some_iff.1 hnode).2]

end Makewright.Graph
