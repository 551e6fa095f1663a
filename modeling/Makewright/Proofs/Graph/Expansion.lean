import Makewright.Proofs.Graph.Coherent
import Makewright.Proofs.Order.Expansion

/-!
# A graph answers with plain expansions

The closures and the order of a graph without cycles, whose dependencies are declared, are what
plain expansion of the targets gives, though the walk takes every target once. As the expansion of a
target depends on what the targets list and not on the order in which they are declared, neither
does a closure.
-/

set_option autoImplicit false

namespace Makewright.Graph

variable {g other : Graph} {r : Resolution} {t : Target}

/-- What stands below a target if the dependencies that are listed are followed all the way down,
each with what stands below it in front, and of repeated targets the first one counts. -/
def expand (g : Graph) (target : Target) : List Target :=
  g.declarations.expand target

/-- A graph whose dependencies are declared and have no cycle can be walked. -/
theorem exists_walk (hdeclared : ∀ a b, g.DependsOn a b → b ∈ g.targets)
    (hacyclic : ∀ t, ¬ g.Reaches t t) : ∃ r, Order.walk g.declarations = .ok r := by
  cases hwalk : Order.walk g.declarations with
  | ok r => exact ⟨r, rfl⟩
  | error e =>
    rcases error_of_walk hwalk with ⟨c, -, hcycle⟩ | ⟨t, d, -, -, hdepends, hnot⟩
    · obtain ⟨t, ht⟩ := hcycle.exists_reaches
      exact absurd ht (hacyclic t)
    · exact absurd (hdeclared t d hdepends) hnot

/-! ## Answers and orders -/

theorem expand_eq_below (hwalk : Order.walk g.declarations = .ok r) (ht : t ∈ g.targets) :
    g.expand t = r.below t :=
  (Order.finished_of_walk hwalk).expand_eq_below ((mem_order_iff hwalk).2 ht)

/-- The expansion of a target holds targets of the graph. -/
theorem expand_subset (hwalk : Order.walk g.declarations = .ok r) (ht : t ∈ g.targets) :
    g.expand t ⊆ g.targets := by
  rw [expand_eq_below hwalk ht]
  exact below_subset hwalk ht

theorem Coherent.dependenciesOf_eq_expand (hg : g.Coherent)
    (hwalk : Order.walk g.declarations = .ok r) (ht : t ∈ g.targets) :
    (g.dependenciesOf t).1 = .ok (g.nodesOf (g.expand t)) := by
  rw [hg.dependenciesOf_of_walk hwalk, answerFrom_of_mem hwalk ht, expand_eq_below hwalk ht]

/-- The order is what the expansions of all targets make, each with its target behind it. -/
theorem order_eq_expand (hwalk : Order.walk g.declarations = .ok r) :
    r.order = distinct (g.targets.flatMap fun t => g.expand t ++ [t]) := by
  have hkeys : g.declarations.map Prod.fst = g.targets := by
    simp [declarations, targets]
  rw [Order.order_eq_of_walk hwalk, hkeys]
  rfl

/-! ## The order of declarations does not matter -/

theorem node?_of_perm (hperm : other.nodes.Perm g.nodes) (t : Target) :
    other.node? t = g.node? t := by
  refine Option.ext fun node => ?_
  rw [node?_eq_some_iff, node?_eq_some_iff, hperm.mem_iff]

theorem mem_targets_of_perm (hperm : other.nodes.Perm g.nodes) :
    t ∈ other.targets ↔ t ∈ g.targets :=
  (hperm.map Node.target).mem_iff

theorem listed_of_perm (hperm : other.nodes.Perm g.nodes) (t : Target) :
    other.declarations.listed t = g.declarations.listed t := by
  rw [Order.Declarations.listed, Order.Declarations.listed, lookup_declarations,
    lookup_declarations, node?_of_perm hperm]

theorem dependsOn_of_perm (hperm : other.nodes.Perm g.nodes) : other.DependsOn = g.DependsOn := by
  funext a b
  simp [DependsOn, hperm.mem_iff]

/-- The same nodes in another order make the same expansions. -/
theorem expand_of_perm (hwalk : Order.walk g.declarations = .ok r)
    (hperm : other.nodes.Perm g.nodes) {s : Resolution}
    (hother : Order.walk other.declarations = .ok s) : other.expand = g.expand := by
  -- there is only one way to expand, and the other graph lists the same dependencies
  refine (Order.unfolds_iff hwalk other.expand).1 fun t => ?_
  rw [← listed_of_perm hperm]
  exact Order.expand_eq hother t

/-- The same nodes in another order give the same closures. -/
theorem Coherent.dependenciesOf_of_perm (hg : g.Coherent) (hother : other.Coherent)
    (hwalk : Order.walk g.declarations = .ok r) (hperm : other.nodes.Perm g.nodes) (t : Target) :
    (other.dependenciesOf t).1 = (g.dependenciesOf t).1 := by
  obtain ⟨hdeclared, hacyclic⟩ := acyclic_of_walk hwalk
  -- the other graph has the same dependencies, so it can be walked as well
  obtain ⟨s, hs⟩ : ∃ s, Order.walk other.declarations = .ok s := by
    refine exists_walk ?_ ?_
    · intro a b hab
      rw [dependsOn_of_perm hperm] at hab
      exact (mem_targets_of_perm hperm).2 (hdeclared a b hab)
    · intro u hu
      rw [Reaches, dependsOn_of_perm hperm] at hu
      exact hacyclic u hu
  by_cases ht : t ∈ g.targets
  · rw [hother.dependenciesOf_eq_expand hs ((mem_targets_of_perm hperm).2 ht),
      hg.dependenciesOf_eq_expand hwalk ht, expand_of_perm hwalk hperm hs]
    have hnodes : other.node? = g.node? := funext (node?_of_perm hperm)
    rw [nodesOf, nodesOf, hnodes]
  · rw [hother.dependenciesOf_of_walk hs, hg.dependenciesOf_of_walk hwalk,
      answerFrom_of_not_mem hwalk ht,
      answerFrom_of_not_mem hs fun hthere => ht ((mem_targets_of_perm hperm).1 hthere)]

/-! ## Results -/

/-- In a graph without cycles whose dependencies are declared, plain expansion is well defined. The
closure of every target is its expansion, the order that resolving gives is made of the expansions
of all targets, each with its target behind it, and declaring the nodes in another order changes no
closure. The graphs have to be coherent, as graphs are whatever has been done with them. -/
theorem resolve_expands (hg : g.Coherent) (hdeclared : ∀ a b, g.DependsOn a b → b ∈ g.targets)
    (hacyclic : ∀ t, ¬ g.Reaches t t) :
    (∀ f : Target → List Target,
      (∀ t, f t = distinct ((g.declarations.listed t).flatMap fun d => f d ++ [d])) ↔
        f = g.expand) ∧
    (∀ t ∈ g.targets, ∃ closure, (g.dependenciesOf t).1 = .ok closure ∧ closure ⊆ g.nodes ∧
      closure.map Node.target = g.expand t) ∧
    (∃ nodes, g.resolve.1 = .ok nodes ∧ nodes ⊆ g.nodes ∧
      nodes.map Node.target = distinct (g.targets.flatMap fun t => g.expand t ++ [t])) ∧
    ∀ other : Graph, other.Coherent → other.nodes.Perm g.nodes →
      ∀ t, (other.dependenciesOf t).1 = (g.dependenciesOf t).1 := by
  obtain ⟨r, hwalk⟩ := exists_walk hdeclared hacyclic
  have hsubset : ∀ ts, g.nodesOf ts ⊆ g.nodes := fun ts node hnode => (mem_nodesOf.1 hnode).1
  refine ⟨Order.unfolds_iff hwalk, ?_, ?_, ?_⟩
  · intro t ht
    exact ⟨_, hg.dependenciesOf_eq_expand hwalk ht, hsubset _,
      map_target_nodesOf (expand_subset hwalk ht)⟩
  · rcases g.resolve_cases with ⟨s, hs, hresolve⟩ | ⟨e, he, -⟩
    · refine ⟨_, congrArg Prod.fst hresolve, hsubset _, ?_⟩
      rw [map_target_nodesOf (order_subset hs), order_eq_expand hs]
    · cases hwalk.symm.trans he
  · intro other hother hperm t
    exact hg.dependenciesOf_of_perm hother hwalk hperm t

/-- What stands below the top of the diamond is the base, found through the left, and then the left
and the right. The diamond upside down answers the same. -/
theorem resolve_expands_diamond :
    diamond.expand ⟨"", "top"⟩ = [⟨"", "base"⟩, ⟨"", "left"⟩, ⟨"", "right"⟩] ∧
    (∃ closure, (diamond.dependenciesOf ⟨"", "top"⟩).1 = .ok closure ∧ closure ⊆ diamond.nodes ∧
      closure.map Node.target = diamond.expand ⟨"", "top"⟩) ∧
    ∀ other : Graph, other.Coherent → other.nodes = diamond.nodes.reverse →
      ∀ t, (other.dependenciesOf t).1 = (diamond.dependenciesOf t).1 := by
  have hcoherent : diamond.Coherent := coherent_of_resolution_eq_none rfl
  obtain ⟨r, hwalk⟩ : ∃ r, Order.walk diamond.declarations = .ok r := ⟨_, rfl⟩
  obtain ⟨hdeclared, hacyclic⟩ := acyclic_of_walk hwalk
  obtain ⟨-, hanswers, -, hsame⟩ := resolve_expands hcoherent hdeclared hacyclic
  refine ⟨by decide, hanswers _ (by decide), fun other hother hreverse => ?_⟩
  exact hsame other hother (hreverse ▸ diamond.nodes.reverse_perm)

end Makewright.Graph
