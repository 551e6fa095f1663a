import Makewright.Proofs.Generation.Rendering
import Makewright.Proofs.Makefile.WorkOrder
import Makewright.Proofs.Node.Prerequisites

/-!
# Complete prerequisites

In a Makefile that a graph is rendered as, every rule names what its commands read among its
prerequisites, and a rule with commands waits, at once or through other rules, for the headers, the
executables and the stamps of every node that its node reaches (`Complete`). So no order in which
the rules may be carried out runs a command ahead of something that it needs.
-/

set_option autoImplicit false

namespace Makewright

open Makefile Relation

variable {g settled : Graph} {node : Node} {nodes closure : List Node} {dirs : GeneratedDirs}
  {closureOf : Target → Except BuildError (List Node)} {ctx : Context} {m : Makefile}

namespace Makefile

/-- The rule of a recipe is there and complete: it names what its commands read, and if it has
commands, it waits for the files that the nodes reached by its node make build steps wait for. -/
structure Complete (m : Makefile) (g : Graph) (dirs : GeneratedDirs) (node : Node)
    (recipe : Recipe) : Prop where
  rule_mem : recipe.rule ∈ m.rules
  operands : recipe.operands ⊆ recipe.rule.prerequisites
  waits : recipe.lines ≠ [] → ∀ d ∈ g.nodes, g.Reaches node.target d.target →
    ∀ r ∈ (d.dependencyFiles dirs).map Prod.fst, TransGen m.Waits recipe.target r.fullPath

/-- The recipes that a node contributes have their rules in the Makefile. -/
theorem Assembled.rule_mem (hm : Assembled ctx nodes closureOf m) (hnode : node ∈ nodes)
    {recipe : Recipe} (hrecipe : recipe ∈ emitted ctx.workspace.settings.dirs closureOf node) :
    recipe.rule ∈ m.rules := by
  rw [hm.rules, List.cons_append]
  refine List.mem_cons_of_mem _ (List.mem_append_left _ ?_)
  exact List.mem_flatMap.2 ⟨node, hnode, List.mem_map_of_mem hrecipe⟩

/-- Every file that the install commands copy is a prerequisite of the install rule. -/
theorem installRecipe_operands (dirs : GeneratedDirs) (nodes : List Node) :
    (installRecipe dirs nodes).operands ⊆ (installRecipe dirs nodes).prerequisites := by
  intro path hpath
  obtain ⟨words, hwords, hread⟩ := List.mem_flatMap.1 hpath
  obtain ⟨node, hnode, hpart⟩ := List.mem_flatMap.1 hwords
  exact List.mem_flatMap.2 ⟨node, hnode, Node.installOperands_subset hpart hread⟩

/-- A file that a node makes build steps wait for is one of those that the closures of its
dependents collect. -/
theorem mem_collectDependencyFiles_of_reaches (hclosure : g.IsClosure node.target closure)
    {d : Node} (hd : d ∈ g.nodes) (hreach : g.Reaches node.target d.target) {r : Resource}
    (hr : r ∈ (d.dependencyFiles dirs).map Prod.fst) :
    r.fullPath ∈ (Node.collectDependencyFiles dirs closure).paths := by
  obtain ⟨next, hnext, htarget⟩ := List.mem_map.1 ((hclosure.mem_iff d.target).2 hreach)
  obtain rfl := Graph.eq_of_target_eq (hclosure.subset hnext) hd htarget
  exact FileSet.mem_paths.2 ⟨r, Node.mem_collectDependencyFiles.2 ⟨next, hnext, hr⟩, rfl⟩

end Makefile

namespace Loading

/-- Whenever rendering gives a text, every rule of a node is complete, and every file that the
install commands copy is a prerequisite of the install rule. -/
theorem render_complete {loading after : Loading} {text : String}
    (hrender : render ctx loading = .ok text after) :
    ∃ m nodes, loading.graph.resolve = (.ok nodes, after.graph) ∧
      ofGraph ctx loading.graph = (.ok m, after.graph) ∧ text = m.serialize ∧
      (∀ node ∈ loading.graph.nodes, ∃ closure recipes,
        after.graph.dependenciesOf node.target = (.ok closure, after.graph) ∧
        node.recipes ctx.workspace.settings.dirs closure = .ok recipes ∧
        ∀ recipe ∈ recipes, Complete m loading.graph ctx.workspace.settings.dirs node recipe) ∧
      m.install = (installRecipe ctx.workspace.settings.dirs nodes).rule ∧
      (installRecipe ctx.workspace.settings.dirs nodes).operands ⊆ m.install.prerequisites := by
  obtain ⟨m, hgraph, htext⟩ := made_of_render hrender
  obtain ⟨nodes, hresolve, hm⟩ := assembled_of_ofGraph hgraph
  refine ⟨m, nodes, hresolve, hgraph, htext, ?_, hm.install, ?_⟩
  · intro node hnode
    obtain ⟨closure, recipes, hanswer, hclosure, hrecipes⟩ :=
      Graph.exists_recipes_of_resolve hresolve ctx.workspace.settings.dirs hnode
    -- the recipes of the node are the ones that its rules are made of
    have hrule : ∀ recipe ∈ recipes, recipe.rule ∈ m.rules := by
      intro recipe hrecipe
      refine hm.rule_mem ((Graph.perm_of_resolve hresolve).symm.subset hnode) ?_
      rw [emitted_eq (congrArg Prod.fst hanswer) hrecipes]
      exact hrecipe
    refine ⟨closure, recipes, hanswer, hrecipes, ?_⟩
    intro recipe hrecipe
    refine ⟨hrule recipe hrecipe, ?_, ?_⟩
    · intro path hpath
      exact Recipe.mem_rule_prerequisites.2 (Node.operands_subset hrecipes hrecipe hpath)
    · -- what a node in the closure offers is waited for, through other recipes if need be
      intro hlines d hd hreach r hr
      refine Node.waits_dependencyFiles hrecipes ?_
        (mem_collectDependencyFiles_of_reaches hclosure hd hreach hr) hrecipe hlines
      intro other hother name hname
      refine ⟨other.rule, List.mem_append_left _ (hrule other hother), rfl, ?_⟩
      exact Recipe.mem_rule_prerequisites.2 hname
  · intro path hpath
    rw [hm.install]
    exact Recipe.mem_rule_prerequisites.2 (installRecipe_operands _ _ hpath)

/-- The executable and the library of the sample are rendered with complete rules. -/
theorem render_complete_sample :
    ∃ text after, render sampleContext sampleLoading = .ok text after ∧
      ∃ m nodes, sampleLoading.graph.resolve = (.ok nodes, after.graph) ∧
        ofGraph sampleContext sampleLoading.graph = (.ok m, after.graph) ∧ text = m.serialize ∧
        (∀ node ∈ sampleLoading.graph.nodes, ∃ closure recipes,
          after.graph.dependenciesOf node.target = (.ok closure, after.graph) ∧
          node.recipes sampleContext.workspace.settings.dirs closure = .ok recipes ∧
          ∀ recipe ∈ recipes,
            Complete m sampleLoading.graph sampleContext.workspace.settings.dirs node recipe) ∧
        m.install = (installRecipe sampleContext.workspace.settings.dirs nodes).rule ∧
        (installRecipe sampleContext.workspace.settings.dirs nodes).operands ⊆
          m.install.prerequisites :=
  ⟨_, _, rfl, render_complete rfl⟩

end Loading

end Makewright
