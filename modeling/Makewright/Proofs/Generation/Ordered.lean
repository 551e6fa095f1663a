import Makewright.Proofs.Generation.Rendering

/-!
# The order of the rules in a Makefile

The rules of a Makefile come in dependency order (`Ordered`): all but the rule `all` wait for
sources and for targets of rules in front of them, so that nothing dangles (`Ordered.dangling`). For
a graph of standard nodes that resolves, rendering either fails because the target of a rule is
repeated or gives a Makefile in this order.
-/

set_option autoImplicit false

namespace Makewright

open Makefile

variable {g settled : Graph} {node : Node} {nodes closure : List Node} {dirs : GeneratedDirs}
  {closureOf : Target → Except BuildError (List Node)} {ctx : Context}

namespace Makefile

/-- The rules come in dependency order: every rule but `all` waits for sources and for targets of
rules in front of it, and the rules `all` and `install` wait for targets of rules. -/
structure Ordered (m : Makefile) (sources : List String) : Prop where
  rules : ∀ front rule back, m.rules = front ++ rule :: back → rule.target ≠ allTarget →
    ∀ name ∈ rule.prerequisites, name ∈ sources ∨ name ∈ front.map Rule.target
  all : ∀ rule ∈ m.rules, rule.target = allTarget → ∀ name ∈ rule.prerequisites, name ∈ m.targets
  install : ∀ name ∈ m.install.prerequisites, name ∈ m.targets

/-- What the recipes of a node wait for is provided by the nodes in front of it. -/
theorem Closures.ready (h : Closures g nodes closureOf) {front back : List Node}
    (hsplit : nodes = front ++ node :: back) (hclosure : g.IsClosure node.target closure) :
    Node.Ready (fun name => name ∈ nodes.flatMap Node.inputFiles ∨
      name ∈ front.flatMap (Node.ruleTargets dirs)) dirs node closure := by
  refine ⟨?_, ?_⟩
  · intro path hpath
    exact Or.inl (List.mem_flatMap.2 ⟨node, by simp [hsplit], hpath⟩)
  · intro next hnext r hr
    have hfront := hclosure.mem_front h.layered h.perm.subset hsplit hnext
    rcases Node.offered_provided hr with hinput | htarget
    · exact Or.inl (List.mem_flatMap.2 ⟨next, by simp [hsplit, hfront], hinput⟩)
    · exact Or.inr (List.mem_flatMap.2 ⟨next, hfront, htarget⟩)

/-- The rules of the nodes are grounded in the sources. -/
theorem Closures.grounded (h : Closures g nodes closureOf) (dirs : GeneratedDirs)
    (hstandard : ∀ node ∈ nodes, node.IsStandard) :
    Grounded (· ∈ nodes.flatMap Node.inputFiles)
      (nodes.flatMap fun node => (emitted dirs closureOf node).map Recipe.rule) := by
  refine Grounded.flatMap ?_
  intro front node back hsplit
  have hnode : node ∈ nodes := by simp [hsplit]
  have hfront : ∀ other ∈ front, Writable dirs closureOf other := by
    intro other hother
    exact h.writable other (by simp [hsplit, hother])
  have hmem := h.perm.subset hnode
  obtain ⟨closure, recipes, hclosure, hisClosure, hrecipes⟩ := h.exists_recipes dirs hmem
  rw [emitted_eq hclosure hrecipes, flatMap_emitted_targets hfront]
  -- the closure of the node stands in front of it, and so do the rules that make what it offers
  exact Node.recipes_grounded (hstandard node hnode) (hisClosure.serves hmem)
    (h.ready hsplit hisClosure) hrecipes

theorem Assembled.targets_eq {m : Makefile} (hm : Assembled ctx nodes closureOf m)
    (h : Closures g nodes closureOf) :
    m.targets = plannedTargets ctx.workspace.settings.dirs nodes := by
  rw [targets, hm.rules, List.map_append, List.map_cons, flatMap_emitted_targets h.writable]
  rfl

/-- A Makefile that is assembled from closures has its rules in order. -/
theorem Assembled.ordered {m : Makefile} (hm : Assembled ctx nodes closureOf m)
    (h : Closures g nodes closureOf) (hstandard : ∀ node ∈ nodes, node.IsStandard) :
    Ordered m (nodes.flatMap Node.inputFiles) := by
  have hprovided : ∀ node ∈ nodes, node.ruleTargets ctx.workspace.settings.dirs ⊆ m.targets := by
    intro node hnode t ht
    rw [hm.targets_eq h]
    exact List.mem_append_left _ (List.mem_cons_of_mem _ (List.mem_flatMap.2 ⟨node, hnode, ht⟩))
  have hrules := hm.rules
  rw [List.cons_append] at hrules
  have hclean : ∀ name ∈ (cleanRule ctx.workspace.settings).prerequisites,
      name ∈ nodes.flatMap Node.inputFiles ∨ name ∈ (nodes.flatMap fun node =>
        (emitted ctx.workspace.settings.dirs closureOf node).map Recipe.rule).map Rule.target :=
    fun name hname => absurd hname List.not_mem_nil
  -- behind `all`, the rules of the nodes and then `clean` are in order
  have hgrounded := (h.grounded ctx.workspace.settings.dirs hstandard).append_singleton hclean
  have hnodup := hm.admissible.nodup
  rw [targets, hrules, List.map_cons, List.nodup_cons] at hnodup
  refine ⟨?_, ?_, ?_⟩
  · intro front rule back hsplit hne name hname
    rw [hrules] at hsplit
    cases front with
    | nil =>
      obtain ⟨rfl, -⟩ := List.cons_eq_cons.1 hsplit
      exact absurd rfl hne
    | cons first others =>
      obtain ⟨-, hsplit⟩ := List.cons_eq_cons.1 hsplit
      refine (hgrounded.mem_before hsplit hname).imp_right ?_
      exact List.mem_cons_of_mem _
  · intro rule hrule htarget name hname
    rw [hrules] at hrule
    rcases List.mem_cons.1 hrule with rfl | hrest
    · obtain ⟨node, hnode, rfl⟩ := List.mem_map.1 (mem_distinct.1 hname)
      exact hprovided node hnode Node.userTarget_mem_ruleTargets
    · -- the targets are distinct, so no other rule is called `all`
      have hother := List.mem_map_of_mem (f := Rule.target) hrest
      rw [htarget] at hother
      exact absurd hother hnodup.1
  · intro name hname
    rw [hm.install, Recipe.mem_rule_prerequisites] at hname
    obtain ⟨node, hnode, hpart⟩ := List.mem_flatMap.1 hname
    exact hprovided node hnode (Node.installPart_subset hpart)

/-- Nothing dangles in a Makefile whose rules are in order. -/
theorem Ordered.dangling {m : Makefile} {sources : List String} (h : Ordered m sources) :
    m.dangling sources = [] := by
  refine dangling_eq_nil ?_
  intro rule hrule name hname
  rcases List.mem_append.1 hrule with hrule | hinstall
  · by_cases htarget : rule.target = allTarget
    · exact Or.inr (h.all rule hrule htarget name hname)
    · obtain ⟨front, back, hsplit⟩ := List.append_of_mem hrule
      refine (h.rules front rule back hsplit htarget name hname).imp_right ?_
      intro hfront
      rw [targets, hsplit, List.map_append]
      exact List.mem_append_left _ hfront
  · rw [List.mem_singleton.1 hinstall] at hname
    exact Or.inr (h.install name hname)

/-- The Makefile of some standard nodes is there and in order, unless the target of a rule is
repeated or a kind is not registered. -/
theorem ofNodes_ends (ctx : Context) (h : Closures g nodes closureOf)
    (hstandard : ∀ node ∈ nodes, node.IsStandard) :
    Ends (fun m => Assembled ctx nodes closureOf m ∧ Ordered m (nodes.flatMap Node.inputFiles))
      (fun e => Repeats (plannedTargets ctx.workspace.settings.dirs nodes) e ∨
        Unregistered ctx.registry nodes e)
      (ofNodes ctx nodes closureOf) := by
  unfold ofNodes
  refine Ends.bind ((assemble_ends h.writable).mono ?_ fun _ he => he)
  intro m hm
  have hordered := hm.ordered h hstandard
  rw [hordered.dangling]
  exact ⟨hm, hordered⟩

end Makefile

/-! ## Rendering -/

namespace Loading

variable {loading : Loading}

/-- For a graph of standard nodes that resolves, every look-up on the way to the rules succeeds.
Then either the target of a rule is repeated, which rendering reports, or the Makefile has its rules
in order. -/
theorem render_ordered (ctx : Context) (loading : Loading)
    (hresolve : loading.graph.resolve = (.ok nodes, settled))
    (hstandard : ∀ node ∈ loading.graph.nodes, node.IsStandard)
    (hkinds : ∀ node ∈ loading.graph.nodes, ctx.registry.contains node.kind) :
    (∀ node ∈ loading.graph.nodes, ∃ closure rules,
      settled.dependenciesOf node.target = (.ok closure, settled) ∧
        node.rules ctx.workspace.settings.dirs closure = .ok rules) ∧
    ((∃ t, FirstRepeated (plannedTargets ctx.workspace.settings.dirs nodes) t ∧
        render ctx loading =
          .error (.plain (.repeatedRule t)) { loading with graph := settled }) ∨
      ∃ m after, ofGraph ctx loading.graph = (.ok m, settled) ∧
        render ctx loading = .ok m.serialize after ∧
        m.targets = plannedTargets ctx.workspace.settings.dirs nodes ∧ Admissible m.targets ∧
        Ordered m (nodes.flatMap Node.inputFiles)) := by
  have hclosures := closures_of_resolve hresolve
  have hsubset := hclosures.perm.subset
  refine ⟨?_, ?_⟩
  · intro node hnode
    obtain ⟨closure, recipes, hclosure, -, hrecipes⟩ :=
      Graph.exists_recipes_of_resolve hresolve ctx.workspace.settings.dirs hnode
    refine ⟨closure, recipes.map Recipe.rule, hclosure, ?_⟩
    rw [Node.rules, hrecipes]
    rfl
  · have hends := ofNodes_ends ctx hclosures fun node h => hstandard node (hsubset h)
    have hgraph := ofGraph_eq ctx hresolve
    cases hmake : ofNodes ctx nodes fun target => (settled.dependenciesOf target).1 with
    | ok m =>
      obtain ⟨hm, hordered⟩ := hends.of_eq_ok hmake
      rw [hmake] at hgraph
      obtain ⟨after, hafter, -⟩ := render_of_ok hgraph
      exact Or.inr ⟨m, after, hgraph, hafter, hm.targets_eq hclosures, hm.admissible, hordered⟩
    | error e =>
      rw [hmake] at hgraph
      -- all kinds are registered, so only a repeated target is left
      rcases hends.of_eq_error hmake with ⟨t, rfl, ht⟩ | ⟨node, hnode, hunregistered, -⟩
      · exact Or.inl ⟨t, ht, render_of_error hgraph⟩
      · rw [hkinds node (hsubset hnode)] at hunregistered
        cases hunregistered

/-- The executable and the library make a Makefile with its rules in order. -/
theorem render_ordered_sample :
    ∃ nodes settled, sampleLoading.graph.resolve = (.ok nodes, settled) ∧
      ∃ m after, ofGraph sampleContext sampleLoading.graph = (.ok m, settled) ∧
        render sampleContext sampleLoading = .ok m.serialize after ∧
        Ordered m (nodes.flatMap Node.inputFiles) := by
  refine ⟨_, _, rfl, ?_⟩
  obtain ⟨-, hrepeated | hmade⟩ :=
    render_ordered sampleContext sampleLoading rfl (by decide) (by decide)
  · obtain ⟨t, ht, -⟩ := hrepeated
    exact absurd ⟨by decide, by decide⟩ ht.not_admissible
  · obtain ⟨m, after, hm, hafter, -, -, hordered⟩ := hmade
    exact ⟨m, after, hm, hafter, hordered⟩

end Loading

end Makewright
