import Makewright.Proofs.Generation.Ordered
import Makewright.Proofs.Generation.Selection
import Makewright.Proofs.Makefile.WorkOrder

/-!
# Cycles in a Makefile

Whatever a rule of a Makefile waits for is a declared file or the target of a rule that is worked
off in front of it (`Assembled.grounded`). So the rules of a graph that renders have no cycle as
long as no declared file is also the target of a rule that is worked off later (`render_acyclic`).
Nothing keeps a target from declaring such a file: a library may list its own name among its
headers, and then it waits for itself (`generate_loop`).
-/

set_option autoImplicit false

namespace Makewright

open Makefile Relation

variable {g settled : Graph} {node : Node} {nodes : List Node}
  {closureOf : Target → Except BuildError (List Node)} {ctx : Context} {m : Makefile}

namespace Makefile

/-- The rules wait for declared files and for targets of rules in front of them, when the rule `all`
stands behind the others. -/
theorem Assembled.grounded (hm : Assembled ctx nodes closureOf m) (h : Closures g nodes closureOf)
    (hstandard : ∀ node ∈ nodes, node.IsStandard) :
    Grounded (· ∈ nodes.flatMap Node.inputFiles) m.workOrder := by
  have hrules := hm.rules
  rw [List.cons_append] at hrules
  have hinstall : m.install.target = installTarget := by
    rw [hm.install]
    rfl
  rw [workOrder_eq hrules rfl hm.admissible hinstall]
  have hprovided : ∀ node ∈ nodes, ∀ name ∈ node.ruleTargets ctx.workspace.settings.dirs,
      name ∈ (nodes.flatMap fun node =>
        (emitted ctx.workspace.settings.dirs closureOf node).map Recipe.rule).map Rule.target := by
    intro node hnode name hname
    rw [flatMap_emitted_targets h.writable]
    exact List.mem_flatMap.2 ⟨node, hnode, hname⟩
  -- the rules of the nodes, then `clean`, then `install`, and `all` behind them
  refine Grounded.append_singleton (Grounded.append_singleton
    ((h.grounded ctx.workspace.settings.dirs hstandard).append_singleton ?_) ?_) ?_
  · intro name hname
    exact absurd hname List.not_mem_nil
  · intro name hname
    rw [hm.install, Recipe.mem_rule_prerequisites] at hname
    obtain ⟨node, hnode, hpart⟩ := List.mem_flatMap.1 hname
    refine Or.inr ?_
    rw [List.map_append]
    exact List.mem_append_left _ (hprovided node hnode name (Node.installPart_subset hpart))
  · intro name hname
    obtain ⟨node, hnode, rfl⟩ := List.mem_map.1 (mem_distinct.1 hname)
    refine Or.inr ?_
    rw [List.map_append, List.map_append]
    refine List.mem_append_left _ (List.mem_append_left _ ?_)
    exact hprovided node hnode _ Node.userTarget_mem_ruleTargets

/-- A kind that is found is registered. -/
theorem contains_of_find {registry : Registry} {kind : String} {target : Option Target}
    {nodeClass : NodeClass} (h : registry.find kind target = .ok nodeClass) :
    registry.contains kind := by
  by_contra hnot
  have hnone : registry.classes.lookup kind = none := by
    rw [List.lookup_eq_none_iff]
    intro entry hentry
    rw [bne_iff_ne]
    rintro rfl
    exact hnot (List.contains_iff_mem.2 (List.mem_map_of_mem hentry))
  simp [Registry.find, hnone] at h

/-- The head blocks are written only if the kinds of all nodes are registered. -/
theorem registered_of_addKindHeads {seen : List String} {start : Makefile}
    (h : addKindHeads ctx seen nodes start = .ok m) :
    ∀ node ∈ nodes, node.kind ∈ seen ∨ ctx.registry.contains node.kind := by
  induction nodes generalizing seen start with
  | nil => exact fun _ hnode => absurd hnode List.not_mem_nil
  | cons first rest ih =>
    unfold addKindHeads at h
    by_cases hseen : first.kind ∈ seen
    · rw [if_pos hseen] at h
      exact List.forall_mem_cons.2 ⟨Or.inl hseen, ih h⟩
    · rw [if_neg hseen] at h
      obtain ⟨nodeClass, hfind, hrest⟩ := exists_of_bind_eq_ok h
      have hfirst := contains_of_find hfind
      refine List.forall_mem_cons.2 ⟨Or.inr hfirst, ?_⟩
      intro node hnode
      rcases ih hrest node hnode with hmem | hregistered
      · rcases List.mem_append.1 hmem with hmem | hmem
        · exact Or.inl hmem
        · rw [List.mem_singleton.1 hmem]
          exact Or.inr hfirst
      · exact Or.inr hregistered

/-- The nodes of a Makefile that is made with the standard kinds are standard. -/
theorem standard_of_ofNodes (hregistry : ctx.registry = .standard)
    (h : ofNodes ctx nodes closureOf = .ok m) : ∀ node ∈ nodes, node.IsStandard := by
  obtain ⟨start, hstart, -⟩ := exists_of_bind_eq_ok (assemble_of_ofNodes h)
  intro node hnode
  rcases registered_of_addKindHeads hstart node hnode with hmem | hregistered
  · exact absurd hmem List.not_mem_nil
  · rw [hregistry] at hregistered
    exact List.contains_iff_mem.1 hregistered

end Makefile

namespace Loading

/-- In the Makefile of a graph that renders with the standard kinds, every cycle of rules that wait
for each other has a misplaced step: one from a rule to a declared file that a rule makes which is
not worked off in front of it. So there is no cycle if nothing waits for such a file. -/
theorem render_acyclic {loading after : Loading} {text : String}
    (hregistry : ctx.registry = .standard) (hrender : render ctx loading = .ok text after) :
    ∃ m nodes, loading.graph.resolve = (.ok nodes, after.graph) ∧
      ofGraph ctx loading.graph = (.ok m, after.graph) ∧ text = m.serialize ∧
      (∀ t, ¬ TransGen
        (fun a b => m.Waits a b ∧ ¬ m.Misplaced (nodes.flatMap Node.inputFiles) a b) t t) ∧
      ((∀ a b, m.Waits a b → ¬ m.Misplaced (nodes.flatMap Node.inputFiles) a b) →
        ∀ t, ¬ TransGen m.Waits t t) := by
  obtain ⟨m, hgraph, htext⟩ := made_of_render hrender
  obtain ⟨nodes, hresolve, hm⟩ := assembled_of_ofGraph hgraph
  have hclosures := closures_of_resolve hresolve
  have hmade := ofGraph_eq ctx hresolve
  rw [hgraph, Prod.mk.injEq] at hmade
  have hgrounded := hm.grounded hclosures (standard_of_ofNodes hregistry hmade.1.symm)
  have hnodup : m.workTargets.Nodup := by
    refine workTargets_nodup hm.rules rfl hm.admissible ?_
    rw [hm.install]
    rfl
  have hplaced := acyclic_of_grounded hgrounded hnodup
  refine ⟨m, nodes, hresolve, hgraph, htext, hplaced, ?_⟩
  intro hnone t hcycle
  exact hplaced t (hcycle.lift id fun a b hwaits => ⟨hwaits, hnone a b hwaits⟩)

/-- The sample renders, and no cycle leads through its rules but at a misplaced step. -/
theorem render_acyclic_sample :
    ∃ text after, sampleContext.registry = .standard ∧
      render sampleContext sampleLoading = .ok text after ∧
      ∃ m nodes, sampleLoading.graph.resolve = (.ok nodes, after.graph) ∧
        ofGraph sampleContext sampleLoading.graph = (.ok m, after.graph) ∧ text = m.serialize ∧
        (∀ t, ¬ TransGen
          (fun a b => m.Waits a b ∧ ¬ m.Misplaced (nodes.flatMap Node.inputFiles) a b) t t) ∧
        ((∀ a b, m.Waits a b → ¬ m.Misplaced (nodes.flatMap Node.inputFiles) a b) →
          ∀ t, ¬ TransGen m.Waits t t) :=
  ⟨_, _, rfl, rfl, render_acyclic rfl rfl⟩

/-- A session at the start of a pass over a workspace with one build file. It declares a library
that lists its own name among its headers. -/
def loopSession : Session :=
  .new ⟨⟨[(["work"], .directory),
    (["work", "BUILD.toml"], .file ("[[targets]]\nkind = 'cc_library'\nname = 'point'\n" ++
      "sources = ['point.c']\nheaders = ['point']\n"))]⟩, []⟩ []

/-- The library is generated with rules that wait for each other: its object waits for the header,
which is the name of the rule for the library, and that rule waits for the object. -/
theorem generate_loop :
    ∃ text after g m settled, sampleContext.registry = .standard ∧
      sampleContext.generate [] [""] loopSession = .ok text after ∧
      sampleContext.Makes loopSession [] [""] g m settled ∧ text = m.serialize ∧
      TransGen m.Waits "point" "point" := by
  have hmakes : ∃ g m settled, sampleContext.Makes loopSession [] [""] g m settled ∧
      m.Waits "point" ".gen-obj/point.c.o" ∧ m.Waits ".gen-obj/point.c.o" "point" := by
    have hwaits : sampleContext.checkMade loopSession [] [""] (fun _ m =>
        decide (m.Waits "point" ".gen-obj/point.c.o" ∧
          m.Waits ".gen-obj/point.c.o" "point")) = true := by
      decide +kernel
    obtain ⟨g, -, m, settled, -, hmakes, hwaits⟩ := Context.exists_makes_of_check hwaits
    exact ⟨g, m, settled, hmakes, of_decide_eq_true hwaits⟩
  obtain ⟨g, m, settled, hmakes, huser, hobject⟩ := hmakes
  obtain ⟨after, hgenerate⟩ := Context.generate_eq_ok_iff.2 ⟨g, m, settled, hmakes, rfl⟩
  exact ⟨_, after, g, m, settled, rfl, hgenerate, hmakes, rfl, .tail (.single huser) hobject⟩

end Loading

end Makewright
