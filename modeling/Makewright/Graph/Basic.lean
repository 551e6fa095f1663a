import Makewright.Graph.Order
import Makewright.Node.LinkInputs

/-!
# Build graphs

A build graph holds the nodes of one generation pass in the order of their declaration. The result
of the last successful walk is kept until a node is added, so that asking for the dependencies of
many targets walks once.
-/

set_option autoImplicit false

namespace Makewright

/-- Nodes in the order of their declaration, one for each target, and the result of the last walk
over them. -/
structure Graph where
  nodes : List Node
  distinctTargets : (nodes.map Node.target).Nodup
  resolution : Option Resolution

namespace Graph

/-- The graph without nodes. -/
def empty : Graph := ⟨[], .nil, none⟩

instance : Inhabited Graph := ⟨empty⟩

/-- The node of a target. -/
def node? (g : Graph) (target : Target) : Option Node :=
  g.nodes.find? fun node => node.target == target

/-- The graph has a node for the target. -/
def contains (g : Graph) (target : Target) : Bool :=
  (g.node? target).isSome

/-- The targets of the graph in the order of their declaration. -/
def targets (g : Graph) : List Target :=
  g.nodes.map Node.target

/-- The targets with what they depend on. -/
def declarations (g : Graph) : Order.Declarations :=
  g.nodes.map fun node => (node.target, node.dependencies)

/-- Declare one more node, unless its target is declared; what is known about the order is
forgotten. -/
def declare (g : Graph) (node : Node) : Graph :=
  if h : node.target ∈ g.targets then g
  else
    ⟨g.nodes ++ [node], by
      rw [List.map_append]
      exact nodup_append_singleton g.distinctTargets h, none⟩

/-- The nodes of some targets. -/
def nodesOf (g : Graph) (targets : List Target) : List Node :=
  targets.filterMap g.node?

/-- Walk over the graph and keep the result. -/
def settle (g : Graph) : Except BuildError Resolution × Graph :=
  match Order.walk g.declarations with
  | .ok r => (.ok r, { g with resolution := some r })
  | .error e => (.error e, g)

/-- All nodes, each behind everything it depends on. -/
def resolve (g : Graph) : Except BuildError (List Node) × Graph :=
  let (outcome, settled) := g.settle
  (outcome.map fun r => settled.nodesOf r.order, settled)

/-- Everything that a target depends on, directly or through others, each behind what it depends on
itself. It walks only if nothing is known about the order. -/
def dependenciesOf (g : Graph) (target : Target) : Except BuildError (List Node) × Graph :=
  let (outcome, settled) : Except BuildError Resolution × Graph :=
    match g.resolution with
    | some r => (.ok r, g)
    | none => g.settle
  let answer : Except BuildError (List Node) := do
    let r ← outcome
    match r.closure? target with
    | some closure => .ok (settled.nodesOf closure)
    | none => .error .unknownName
  (answer, settled)

/-- What a target hands to the link command of a dependent, in one language. -/
def objectsOf (g : Graph) (dirs : GeneratedDirs) (target : Target) (language : Language) :
    Except BuildError FileSet :=
  match g.node? target with
  | some node =>
    Node.objectFiles dirs g.node? language g.nodes.length node FileSet.empty
  | none => .error .unknownName

end Graph

end Makewright
