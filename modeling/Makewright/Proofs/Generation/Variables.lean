import Makewright.Proofs.Generation.Flags
import Makewright.Proofs.Generation.HeadLines
import Makewright.Proofs.Node.Variables

/-!
# Variables are defined before they are used

A Makefile that is rendered from nodes of the standard kinds starts with its head lines, in which
every definition fits behind the ones in front of it. The lines of every node behind them refer to
variables that are defined there, and to the name of make itself (`Loading.render_defines_first`).
-/

set_option autoImplicit false

namespace Makewright

open Make Makefile

variable {ctx : Context} {s : Settings} {node : Node} {nodes : List Node} {m : Makefile}

namespace Makefile

/-- The lines of the recipes of a node and of what it adds to the install rule. -/
def linesOf (dirs : GeneratedDirs) (closureOf : Target → Except BuildError (List Node))
    (node : Node) : List (List Word) :=
  (emitted dirs closureOf node).flatMap Recipe.lines ++ (node.installPart dirs).2

/-- What stands in front of the rules of the Makefile defines what is used: the definitions there
fit behind each other, every line of a node refers to names that are defined or to the name of make,
and if there are shared libraries, both compilers get their flag at last. These lines are read if
the settings can be expanded, and so is the whole text then, if it is made of words. -/
structure DefinesFirst (m : Makefile) (ctx : Context) (g settled : Graph)
    (front : List (List Char)) : Prop where
  opens : m.OpensWith front
  ordered : Definition.Scoped written [] m.definitions
  speaks : ∀ node ∈ g.nodes,
    ∀ words ∈ linesOf ctx.workspace.settings.dirs (fun t => (settled.dependenciesOf t).1) node,
      Speaks (node.givenWords ctx.workspace.settings.dirs)
        ("MAKE" :: m.definitions.map Definition.name) words
  flags : (∃ node ∈ g.nodes, node.kind = "cc_shared_library") → ∀ given reading,
    front.foldlM Reading.line ⟨given, []⟩ = some reading →
      ∀ name ∈ ["CFLAGS", "CXXFLAGS"], EndsWithFlag (reading.values.get name)
  reads : SettingsExpand ctx.workspace.settings → ∀ given, ∃ values,
    front.foldlM Reading.line ⟨given, []⟩ = some ⟨values, []⟩ ∧
      (ctx.workspace.settings.dirs.Named isVerbatim → (∀ node ∈ g.nodes, node.Legible) →
        Make.read given m.serialize.toList = some (m.reading values))

/-- What a node refers to is defined in the head blocks of its kind and that of the workspace. -/
theorem Fronted.defines (h : Fronted s nodes m) (hs : s.Unbroken) (hnode : node ∈ nodes) :
    node.body.variables ⊆ "MAKE" :: m.definitions.map Definition.name := by
  have hblock : ∀ head ∈ m.heads, (definitionsIn head.2).map Definition.name ⊆
      "MAKE" :: m.definitions.map Definition.name := by
    intro head hhead name hname
    obtain ⟨d, hd, rfl⟩ := List.mem_map.1 hname
    refine List.mem_cons_of_mem _ (List.mem_map_of_mem ?_)
    rw [definitions_eq]
    exact List.mem_flatMap.2 ⟨head, hhead, hd⟩
  have hheads : ∀ head ∈ node.heads s, (definitionsIn head.2).map Definition.name ⊆
      "MAKE" :: m.definitions.map Definition.name := fun head hhead =>
    hblock head ((h.mem_heads head).2 (.inr ⟨node, hnode, hhead⟩))
  -- the kinds share the block of the workspace, and those that compile that of the toolchain
  have hdestination : "DESTDIR" ∈ "MAKE" :: m.definitions.map Definition.name := by
    have hworkspace := hblock _ ((h.mem_heads _).2 (.inl rfl))
    rw [definitionsIn_workspace hs] at hworkspace
    exact hworkspace (by simp [workspaceDefinitions])
  have htoolchain : ∀ c, node.body.compilation? = some c →
      ["CC", "CXX", "CFLAGS", "CXXFLAGS", "CPPFLAGS", "LDFLAGS"] ⊆
        "MAKE" :: m.definitions.map Definition.name := by
    intro c hc
    have hcompile := hheads _ (Node.compileBlock_mem_heads hc)
    rwa [definitionsIn_compile hs] at hcompile
  cases hbody : node.body with
  | library c =>
    refine List.Subset.trans ?_ (htoolchain c (by rw [hbody]; rfl))
    simp [Body.variables]
  | binary c =>
    have hbinary : binaryBlock ∈ node.heads s := by
      rw [Node.heads, Node.kind, hbody]
      exact List.mem_cons_of_mem _ List.mem_cons_self
    have hplace := hheads _ hbinary
    rw [definitionsIn_binary] at hplace
    refine List.Subset.trans ?_ (List.append_subset.2
      ⟨htoolchain c (by rw [hbody]; rfl), List.cons_subset.2 ⟨hdestination, hplace⟩⟩)
    simp [Body.variables, binaryDefinitions]
  | sharedLibrary c spec =>
    have hshared : sharedBlock ∈ node.heads s := by
      rw [Node.sharedBlock_mem_heads_iff, Node.kind, hbody]
      rfl
    have hplace := hheads _ hshared
    rw [definitionsIn_shared] at hplace
    refine List.Subset.trans ?_ (List.append_subset.2
      ⟨htoolchain c (by rw [hbody]; rfl), List.cons_subset.2 ⟨hdestination, hplace⟩⟩)
    simp [Body.variables, sharedAdditions, sharedDefinitions]
  | autoconf spec => simp [Body.variables]
  | listing prerequisites => exact List.nil_subset _

end Makefile

namespace Loading

/-- Whatever nodes of the standard kinds are rendered, and in which order, the text starts with the
definitions of the variables that the lines of the nodes use. -/
theorem render_defines_first {loading after : Loading} {text : String}
    (hrender : render ctx loading = .ok text after) (hregistry : ctx.registry = .standard)
    (hsettings : ctx.workspace.settings.Unbroken) :
    ∃ m nodes front, loading.graph.resolve = (.ok nodes, after.graph) ∧
      Assembled ctx nodes (fun t => (after.graph.dependenciesOf t).1) m ∧ text = m.serialize ∧
      m.DefinesFirst ctx loading.graph after.graph front := by
  obtain ⟨m, hgraph, rfl⟩ := made_of_render hrender
  obtain ⟨nodes, hresolve, hm⟩ := assembled_of_ofGraph hgraph
  rw [ofGraph_eq ctx hresolve, Prod.mk.injEq] at hgraph
  have hmade := hgraph.1
  have hclosures := closures_of_resolve hresolve
  have hfronted := fronted_of_assemble hregistry (assemble_of_ofNodes hmade)
  have hfront := hfronted.stacked.isFront hsettings
  obtain ⟨front, hopens⟩ := exists_opensWith hfronted.header (by decide) (by decide) hfront
  refine ⟨m, nodes, front, hresolve, hm, rfl, hopens, hfronted.stacked.scoped hsettings, ?_, ?_, ?_⟩
  · intro node hnode words hwords
    have hmem : node ∈ nodes := hclosures.perm.symm.subset hnode
    have hknown := hfronted.defines hsettings hmem
    rcases List.mem_append.1 hwords with hwords | hwords
    · obtain ⟨recipe, hrecipe, hwords⟩ := List.mem_flatMap.1 hwords
      obtain ⟨closure, recipes, hclosure, hrecipes⟩ := hclosures.writable node hmem
      rw [emitted_eq hclosure hrecipes] at hrecipe
      exact (Node.speaks_recipes hrecipes recipe hrecipe words hwords).mono hknown
    · exact (Node.speaks_installPart _ node words hwords).mono hknown
  · -- a shared library among the nodes brings its block, whose flags come at the end
    rintro ⟨node, hnode, hkind⟩ given reading hreading
    have hshared : sharedBlock ∈ m.heads := (hfronted.mem_heads _).2
      (.inr ⟨node, hclosures.perm.symm.subset hnode, Node.sharedBlock_mem_heads_iff.2 hkind⟩)
    rw [hopens.foldlM_line] at hreading
    obtain ⟨values, hvalues, rfl⟩ := Option.map_eq_some_iff.1 hreading
    exact hfronted.stacked.endsWithFlag hshared hvalues
  · intro hexpand given
    obtain ⟨values, hvalues⟩ := hfronted.stacked.exists_foldlM_heads hsettings hexpand given
    refine ⟨values, ?_, fun hdirs hnodes => ?_⟩
    · rw [hopens.foldlM_line, ← foldlM_heads fun head hhead line hline =>
        (hfront head hhead line hline).2, hvalues]
    · refine read_serialize (legible_of_ofNodes hregistry hclosures hdirs hnodes hmade ?_) hvalues
      exact fun head hhead line hline => (hfront head hhead line hline).1

/-- The variables of the sample, which has a shared library, are defined before they are used. -/
theorem render_defines_first_sample :
    ∃ text after, render sampleContext sampleLoading = .ok text after ∧
      sampleContext.registry = .standard ∧ sampleContext.workspace.settings.Unbroken ∧
      ∃ m nodes front, sampleLoading.graph.resolve = (.ok nodes, after.graph) ∧
        Assembled sampleContext nodes (fun t => (after.graph.dependenciesOf t).1) m ∧
        text = m.serialize ∧ m.DefinesFirst sampleContext sampleLoading.graph after.graph front := by
  have hsettings : sampleContext.workspace.settings.Unbroken := by decide
  exact ⟨_, _, rfl, rfl, hsettings, render_defines_first rfl rfl hsettings⟩

end Loading

end Makewright
