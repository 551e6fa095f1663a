import Makewright.Proofs.Generation.Acyclic
import Makewright.Proofs.Generation.Complete
import Makewright.Proofs.Generation.Linking
import Makewright.Proofs.Node.Built

/-!
# What a package waits for

A package with its own configure script waits for the executables and the stamps of all nodes that
it reaches. A shared library does not make build steps wait for the file that it links, so a package
waits for the outputs of a shared library that it reaches if that library is linked into an
executable which the package reaches as well, and otherwise only if a declared file happens to be
made by a rule (`render_awaits`). A package that depends on nothing but a shared library is
configured without waiting for it (`render_unawaited`).
-/

set_option autoImplicit false

namespace Makewright

open Makefile Relation

variable {g settled : Graph} {a b d node : Node} {nodes closure : List Node} {dirs : GeneratedDirs}
  {closureOf : Target → Except BuildError (List Node)} {ctx : Context} {m : Makefile}
  {name x y : String} {r : Resource}

/-! ## The nodes whose rules a package waits for -/

namespace Node

/-- A shared library is linked into an executable that the package reaches. -/
def LinkedBelow (g : Graph) (a d : Node) : Prop :=
  ∃ b ∈ g.nodes, b.IsBinary ∧ g.Reaches a.target b.target ∧ LinksShared g b d

/-- The package may wait for what the rules of a node make. -/
structure BuiltFor (g : Graph) (a node : Node) : Prop where
  reached : node = a ∨ g.Reaches a.target node.target
  linked : node.IsShared → LinkedBelow g a node

/-- The package may wait for a file: it is declared, or made by a node that is built for the
package. -/
def Awaited (g : Graph) (dirs : GeneratedDirs) (a : Node) (name : String) : Prop :=
  ∃ node ∈ g.nodes, name ∈ node.inputFiles ∨ BuiltFor g a node ∧ name ∈ node.ruleTargets dirs

theorem BuiltFor.reaches (h : BuiltFor g a b) (hbelow : g.Reaches b.target d.target) :
    g.Reaches a.target d.target := by
  rcases h.reached with rfl | hreached
  · exact hbelow
  · exact hreached.trans hbelow

/-- What a shared library or an executable is linked against is linked below the package. -/
theorem BuiltFor.linksShared (ha : a.IsAutoconf) (hb : b ∈ g.nodes) (h : BuiltFor g a b)
    (hlinks : b.IsBinary ∨ b.IsShared) (hshared : LinksShared g b d) : LinkedBelow g a d := by
  rcases hlinks with hbinary | hlinks
  · refine ⟨b, hb, hbinary, h.reached.resolve_left ?_, hshared⟩
    rintro rfl
    obtain ⟨c, hbody⟩ := hbinary
    obtain ⟨spec, hbody'⟩ := ha
    rw [hbody] at hbody'
    cases hbody'
  · obtain ⟨executable, hmem, hbinary, hreach, habove⟩ := h.linked hlinks
    exact ⟨executable, hmem, hbinary, hreach, habove.trans hshared⟩

/-- The package may wait for whatever the recipes of a node that is built for it wait for. -/
theorem BuiltFor.awaited (hg : ∀ n ∈ g.nodes, n.WellRead) (ha : a.IsAutoconf)
    (hnode : node ∈ g.nodes) (h : BuiltFor g a node) (hclosure : g.IsClosure node.target closure)
    (hrequires : Requires dirs node closure name) : Awaited g dirs a name := by
  cases hrequires with
  | input hinput => exact ⟨node, hnode, .inl hinput⟩
  | own hown => exact ⟨node, hnode, .inr ⟨h, hown⟩⟩
  | dependency hfile =>
    obtain ⟨r, hr, rfl⟩ := FileSet.mem_paths.1 hfile
    obtain ⟨next, hnext, hr⟩ := mem_collectDependencyFiles.1 hr
    have hbelow := (hclosure.mem_iff next.target).1 (List.mem_map_of_mem hnext)
    refine ⟨next, hclosure.subset hnext, ?_⟩
    rcases dependencyFiles_provided hr with hinput | ⟨hshared, htarget⟩
    · exact .inl hinput
    · exact .inr ⟨⟨.inr (h.reaches hbelow), fun h => absurd h hshared⟩, htarget⟩
  | @link c inputs hlinks hc hinputs hfile =>
    obtain ⟨r, hr, rfl⟩ := FileSet.mem_paths.1 hfile
    obtain ⟨⟨r, tag⟩, hentry, rfl⟩ := List.mem_map.1 hr
    rcases (mem_entries_linkInputs hg hnode hclosure hc hinputs).1 hentry with
      ⟨source, ⟨next, c', hnext, hc', hsource⟩, -, rfl⟩ | ⟨next, hshared, -, rfl⟩
    · -- an object of the node itself or of a library below it
      have htarget : (Compilation.objectFor dirs source).fullPath ∈ next.ruleTargets dirs :=
        object_mem_ruleTargets hc' hsource
      rcases hnext with rfl | ⟨⟨c'', hlibrary⟩, hpath⟩
      · exact ⟨next, hnode, .inr ⟨h, htarget⟩⟩
      · refine ⟨next, hpath.mem, .inr ⟨⟨.inr (h.reaches (hpath.reaches hnode)), ?_⟩, htarget⟩⟩
        rintro ⟨c, spec, hbody⟩
        rw [hbody] at hlibrary
        cases hlibrary
    · -- the name of a shared library
      refine ⟨next, hshared.2.mem, .inr ⟨⟨.inr (h.reaches (hshared.2.reaches hnode)), ?_⟩, ?_⟩⟩
      · exact fun _ => h.linksShared ha hnode hlinks hshared
      · obtain ⟨c, spec, hbody⟩ := hshared.1
        refine outputs_mem_ruleTargets ?_
        rw [outputs, hbody, ← linkName_eq dirs next.target spec]
        exact List.getLastD_mem_cons

end Node

open Node

namespace Makefile

/-! ## Rules and recipes -/

theorem Assembled.nodup (hm : Assembled ctx nodes closureOf m) : m.workTargets.Nodup := by
  refine workTargets_nodup hm.rules rfl hm.admissible ?_
  rw [hm.install]
  rfl

/-- A node has its closure and its recipes, and the rules of the recipes are in the Makefile. -/
theorem Assembled.exists_recipes (hm : Assembled ctx nodes closureOf m)
    (h : Closures g nodes closureOf) (hnode : node ∈ g.nodes) :
    ∃ closure recipes, g.IsClosure node.target closure ∧
      node.recipes ctx.workspace.settings.dirs closure = .ok recipes ∧
      ∀ recipe ∈ recipes, recipe.rule ∈ m.allRules := by
  obtain ⟨closure, recipes, hanswer, hclosure, hrecipes⟩ :=
    h.exists_recipes ctx.workspace.settings.dirs hnode
  refine ⟨closure, recipes, hclosure, hrecipes, fun recipe hrecipe => ?_⟩
  refine List.mem_append_left _ (hm.rule_mem (h.perm.symm.subset hnode) ?_)
  rwa [emitted_eq hanswer hrecipes]

theorem waits_of_recipe {recipe : Recipe} (hrule : recipe.rule ∈ m.allRules)
    (hname : name ∈ recipe.prerequisites) : m.Waits recipe.target name :=
  ⟨recipe.rule, hrule, rfl, Recipe.mem_rule_prerequisites.2 hname⟩

/-- Only one rule makes what a recipe of a node makes. -/
theorem Assembled.exists_recipe_of_waits (hm : Assembled ctx nodes closureOf m)
    {recipes : List Recipe} (hrecipes : node.recipes dirs closure = .ok recipes)
    (hrules : ∀ recipe ∈ recipes, recipe.rule ∈ m.allRules) (hx : x ∈ node.ruleTargets dirs)
    (hwaits : m.Waits x y) : ∃ recipe ∈ recipes, y ∈ recipe.prerequisites := by
  rw [← recipes_targets hrecipes] at hx
  obtain ⟨recipe, hrecipe, rfl⟩ := List.mem_map.1 hx
  obtain ⟨rule, hrule, htarget, hname⟩ := hwaits
  obtain rfl := List.inj_on_of_nodup_map hm.nodup (mem_workOrder.2 hrule)
    (mem_workOrder.2 (hrules recipe hrecipe)) htarget
  exact ⟨recipe, hrecipe, Recipe.mem_rule_prerequisites.1 hname⟩

/-- Two nodes do not make one file. -/
theorem Assembled.eq_of_mem_ruleTargets (hm : Assembled ctx nodes closureOf m)
    (h : Closures g nodes closureOf) (ha : a ∈ g.nodes) (hb : b ∈ g.nodes)
    (hname : name ∈ a.ruleTargets ctx.workspace.settings.dirs)
    (hname' : name ∈ b.ruleTargets ctx.workspace.settings.dirs) : a = b := by
  have hnodup := hm.admissible.nodup
  rw [hm.targets_eq h, plannedTargets] at hnodup
  have hnodes := (List.nodup_cons.1 (List.nodup_append.1 hnodup).1).2
  have hsymm : Std.Symm (Function.onFun List.Disjoint
      (ruleTargets ctx.workspace.settings.dirs)) := ⟨fun _ _ hapart => List.disjoint_symm hapart⟩
  by_contra hne
  exact (List.nodup_flatMap.1 hnodes).2.forall (h.perm.symm.subset ha) (h.perm.symm.subset hb) hne
    hname hname'

/-! ## What is waited for -/

/-- A package waits for whatever the nodes that it reaches make build steps wait for. -/
theorem Assembled.waits_dependencyFile (hm : Assembled ctx nodes closureOf m)
    (h : Closures g nodes closureOf) (ha : a ∈ g.nodes) (hautoconf : a.IsAutoconf)
    (hd : d ∈ g.nodes) (hreach : g.Reaches a.target d.target)
    (hr : r ∈ (d.dependencyFiles ctx.workspace.settings.dirs).map Prod.fst) :
    m.Waits (AutoconfSpec.stamp ctx.workspace.settings.dirs a.target).fullPath r.fullPath := by
  obtain ⟨closure, recipes, hclosure, hrecipes, hrules⟩ := hm.exists_recipes h ha
  obtain ⟨spec, hbody⟩ := hautoconf
  have hstamp : a.stampRecipe ctx.workspace.settings.dirs spec closure ∈ recipes := by
    rw [Node.recipes, hbody] at hrecipes
    cases hrecipes
    exact List.mem_cons_self
  exact waits_of_recipe (hrules _ hstamp)
    (mem_collectDependencyFiles_of_reaches hclosure hd hreach hr)

/-- An executable waits for the names of the shared libraries that it is linked against. -/
theorem Assembled.waits_linkName (hm : Assembled ctx nodes closureOf m)
    (h : Closures g nodes closureOf) (hg : ∀ n ∈ g.nodes, n.WellRead) (hb : b ∈ g.nodes)
    (hbinary : b.IsBinary) (hlinks : LinksShared g b d) :
    m.Waits (executable ctx.workspace.settings.dirs b.target).fullPath
      (d.target.generated ctx.workspace.settings.dirs.pkgfileDir
        (SharedSpec.baseName d.target)).fullPath := by
  obtain ⟨closure, recipes, hclosure, hrecipes, hrules⟩ := hm.exists_recipes h hb
  obtain ⟨c, hbody⟩ := hbinary
  rw [Node.recipes, hbody] at hrecipes
  obtain ⟨inputs, hinputs, hwritten⟩ := exists_of_bind_eq_ok hrecipes
  cases hwritten
  have hentry := (mem_entries_linkInputs hg hb hclosure (by rw [hbody]; rfl) hinputs).2
    (.inr ⟨d, hlinks, rfl, rfl⟩)
  have hinput := FileSet.mem_paths.2 ⟨_, List.mem_map_of_mem (f := Prod.fst) hentry, rfl⟩
  exact waits_of_recipe (hrules (b.linkBinary _ inputs closure) (by simp))
    (List.mem_append_left _ hinput)

/-- A package waits for the outputs of the executables and packages that it reaches, and for those
of the shared libraries that are linked below it. -/
theorem Assembled.waits_output (hm : Assembled ctx nodes closureOf m)
    (h : Closures g nodes closureOf) (hg : ∀ n ∈ g.nodes, n.WellRead) (ha : a ∈ g.nodes)
    (hautoconf : a.IsAutoconf) (hd : d ∈ g.nodes) (hreach : g.Reaches a.target d.target)
    (hlinked : d.IsShared → LinkedBelow g a d)
    (hr : r ∈ d.outputs ctx.workspace.settings.dirs) :
    TransGen m.Waits (AutoconfSpec.stamp ctx.workspace.settings.dirs a.target).fullPath
      r.fullPath := by
  have hfile : ∀ {n r}, n ∈ g.nodes → g.Reaches a.target n.target → n.IsBinary ∨ n.IsAutoconf →
      r ∈ n.outputs ctx.workspace.settings.dirs →
      m.Waits (AutoconfSpec.stamp ctx.workspace.settings.dirs a.target).fullPath r.fullPath := by
    intro n r hn hreach hkind hr
    rw [outputs_eq_dependencyFiles hkind] at hr
    exact hm.waits_dependencyFile h ha hautoconf hn hreach hr
  cases hg d hd with
  | library hbody =>
    rw [outputs, hbody] at hr
    exact absurd hr List.not_mem_nil
  | binary hbody => exact .single (hfile hd hreach (.inl ⟨_, hbody⟩) hr)
  | sharedLibrary hbody =>
    have hshared : d.IsShared := ⟨_, _, hbody⟩
    obtain ⟨b, hb, hbinary, hbelow, hlinks⟩ := hlinked hshared
    have hexecutable : executable ctx.workspace.settings.dirs b.target ∈
        b.outputs ctx.workspace.settings.dirs := by
      obtain ⟨c, hbody⟩ := hbinary
      simp [outputs, hbody]
    obtain ⟨closure, recipes, -, hrecipes, hrules⟩ := hm.exists_recipes h hd
    -- from the stamp to the executable, to the name of the library and along its links
    have hname : TransGen m.Waits _ _ :=
      .tail (.single (hfile hb hbelow (.inl hbinary) hexecutable))
        (hm.waits_linkName h hg hb hbinary hlinks)
    refine hname.trans_left (reaches_outputs hrecipes ?_ hshared hr)
    exact fun recipe hrecipe _ hname => waits_of_recipe (hrules recipe hrecipe) hname
  | autoconf hbody => exact .single (hfile hd hreach (.inr ⟨_, hbody⟩) hr)

/-- If no rule makes a declared file, then a package waits for nothing but what it may wait for. -/
theorem Assembled.awaited_of_waits (hm : Assembled ctx nodes closureOf m)
    (h : Closures g nodes closureOf) (hg : ∀ n ∈ g.nodes, n.WellRead) (ha : a ∈ g.nodes)
    (hautoconf : a.IsAutoconf)
    (hplain : ∀ rule ∈ m.allRules, rule.target ∉ nodes.flatMap Node.inputFiles)
    (hwaits : TransGen m.Waits
      (AutoconfSpec.stamp ctx.workspace.settings.dirs a.target).fullPath name) :
    Awaited g ctx.workspace.settings.dirs a name := by
  -- one step: a rule that makes an awaited name waits only for awaited names
  have hstep : ∀ {x y}, m.Waits x y → Awaited g ctx.workspace.settings.dirs a x →
      Awaited g ctx.workspace.settings.dirs a y := by
    rintro x y hwaits ⟨node, hnode, hinput | ⟨hbuilt, hx⟩⟩
    · obtain ⟨rule, hrule, rfl, -⟩ := hwaits
      exact absurd (List.mem_flatMap.2 ⟨node, h.perm.symm.subset hnode, hinput⟩)
        (hplain rule hrule)
    · obtain ⟨closure, recipes, hclosure, hrecipes, hrules⟩ := hm.exists_recipes h hnode
      obtain ⟨recipe, hrecipe, hy⟩ := hm.exists_recipe_of_waits hrecipes hrules hx hwaits
      exact hbuilt.awaited hg hautoconf hnode hclosure
        (requires_of_mem (hg node hnode) hrecipes hrecipe hy)
  -- the stamp itself is made by the node
  have hstart : Awaited g ctx.workspace.settings.dirs a
      (AutoconfSpec.stamp ctx.workspace.settings.dirs a.target).fullPath := by
    obtain ⟨spec, hbody⟩ := hautoconf
    refine ⟨a, ha, .inr ⟨⟨.inl rfl, ?_⟩, outputs_mem_ruleTargets (by simp [outputs, hbody])⟩⟩
    rintro ⟨c, spec', hbody'⟩
    rw [hbody] at hbody'
    cases hbody'
  induction hwaits with
  | single hfirst => exact hstep hfirst hstart
  | tail _ hlast ih => exact hstep hlast ih

/-- If no rule makes a declared file, a package waits for an output of a shared library only if the
library is linked below it. -/
theorem Assembled.linkedBelow_of_waits (hm : Assembled ctx nodes closureOf m)
    (h : Closures g nodes closureOf) (hg : ∀ n ∈ g.nodes, n.WellRead) (ha : a ∈ g.nodes)
    (hautoconf : a.IsAutoconf)
    (hplain : ∀ rule ∈ m.allRules, rule.target ∉ nodes.flatMap Node.inputFiles)
    (hd : d ∈ g.nodes) (hr : r ∈ d.outputs ctx.workspace.settings.dirs)
    (hwaits : TransGen m.Waits
      (AutoconfSpec.stamp ctx.workspace.settings.dirs a.target).fullPath r.fullPath) :
    d.IsShared → LinkedBelow g a d := by
  have hmade := outputs_mem_ruleTargets hr
  obtain ⟨next, hnext, hinput | ⟨hbuilt, htarget⟩⟩ :=
    hm.awaited_of_waits h hg ha hautoconf hplain hwaits
  · obtain ⟨closure, recipes, -, hrecipes, hrules⟩ := hm.exists_recipes h hd
    rw [← recipes_targets hrecipes] at hmade
    obtain ⟨recipe, hrecipe, htarget⟩ := List.mem_map.1 hmade
    refine absurd ?_ (hplain recipe.rule (hrules recipe hrecipe))
    rw [Recipe.rule_target, htarget]
    exact List.mem_flatMap.2 ⟨next, h.perm.symm.subset hnext, hinput⟩
  · obtain rfl := hm.eq_of_mem_ruleTargets h hnext hd htarget hmade
    exact hbuilt.linked

end Makefile

namespace Loading

/-- In the Makefile of a graph of nodes that have been read, a package waits for the outputs of
every executable and every package that it reaches. It waits for the outputs of a shared library
that it reaches if the library is linked into an executable that the package reaches, and in no
other case as long as no rule makes a declared file. -/
theorem render_awaits {loading after : Loading} {text : String}
    (hread : ∀ n ∈ loading.graph.nodes, n.IsRead ctx.workspace.settings)
    (hrender : render ctx loading = .ok text after) :
    ∃ m nodes, loading.graph.resolve = (.ok nodes, after.graph) ∧
      ofGraph ctx loading.graph = (.ok m, after.graph) ∧ text = m.serialize ∧
      ∀ a ∈ loading.graph.nodes, a.IsAutoconf →
        ∀ d ∈ loading.graph.nodes, loading.graph.Reaches a.target d.target →
          ∀ r ∈ d.outputs ctx.workspace.settings.dirs,
            ((d.IsShared → LinkedBelow loading.graph a d) → TransGen m.Waits
              (AutoconfSpec.stamp ctx.workspace.settings.dirs a.target).fullPath r.fullPath) ∧
            ((∀ rule ∈ m.allRules, rule.target ∉ nodes.flatMap Node.inputFiles) →
              TransGen m.Waits
                (AutoconfSpec.stamp ctx.workspace.settings.dirs a.target).fullPath r.fullPath →
              d.IsShared → LinkedBelow loading.graph a d) := by
  obtain ⟨m, hgraph, htext⟩ := made_of_render hrender
  obtain ⟨nodes, hresolve, hm⟩ := assembled_of_ofGraph hgraph
  have hclosures := closures_of_resolve hresolve
  have hg : ∀ n ∈ loading.graph.nodes, n.WellRead := fun n hn => (hread n hn).wellRead
  refine ⟨m, nodes, hresolve, hgraph, htext, ?_⟩
  intro a ha hautoconf d hd hreach r hr
  refine ⟨fun hlinked => ?_, fun hplain hwaits => ?_⟩
  · exact hm.waits_output hclosures hg ha hautoconf hd hreach hlinked hr
  · exact hm.linkedBelow_of_waits hclosures hg ha hautoconf hplain hd hr hwaits

/-- A package that depends on the executable of the sample. -/
def fullPackage : Node :=
  ⟨⟨"", "full"⟩, [⟨"", "draw"⟩], [], .autoconf ⟨[], [], [], "."⟩, by decide⟩

/-- A package that depends on the shared library of the sample only. -/
def barePackage : Node :=
  ⟨⟨"", "bare"⟩, [⟨"shapes", "area"⟩], [], .autoconf ⟨[], [], [], "."⟩, by decide⟩

/-- The sample with the two packages. -/
def packagesLoading : Loading :=
  ⟨⟨sampleLoading.graph.nodes ++ [fullPackage, barePackage], by decide, none⟩, .new default []⟩

/-- The description of a package with one dependency. -/
def packageDescription (name dependency : String) : Description :=
  ⟨"autoconf", ⟨"", name⟩, [(.string "kind", .string "autoconf"), (.string "name", .string name),
    (.string "dependencies", .string dependency)], none⟩

theorem isRead_packages :
    ∀ n ∈ packagesLoading.graph.nodes, n.IsRead sampleContext.workspace.settings := by
  refine List.forall_mem_append.2 ⟨isRead_sample, List.forall_mem_cons.2 ⟨?_,
    List.forall_mem_singleton.2 ?_⟩⟩
  · exact ⟨packageDescription "full" ":draw", .autoconf, _, rfl, rfl, .complete _⟩
  · exact ⟨packageDescription "bare" "//shapes:area", .autoconf, _, rfl, rfl, .complete _⟩

theorem fullPackage_mem : fullPackage ∈ packagesLoading.graph.nodes :=
  List.mem_append_right _ List.mem_cons_self

theorem barePackage_mem : barePackage ∈ packagesLoading.graph.nodes :=
  List.mem_append_right _ (List.mem_cons_of_mem _ List.mem_cons_self)

theorem sampleSharedLibrary_mem : sampleSharedLibrary ∈ packagesLoading.graph.nodes :=
  List.mem_append_left _ (List.mem_cons_of_mem _ List.mem_cons_self)

/-- The stamp of the package that depends on the shared library only, and the headers below it. -/
def bareFiles : List String :=
  [".gen-files/bare.done", "shapes/point.h", "shapes/area.h"]

/-- The sample is rendered, and these files wait for nothing but each other. -/
theorem render_packages :
    ∃ m after, render sampleContext packagesLoading = .ok m.serialize after ∧
      ofGraph sampleContext packagesLoading.graph = (.ok m, after.graph) ∧
      ∀ rule ∈ m.allRules, rule.target ∈ bareFiles → rule.prerequisites ⊆ bareFiles := by
  have hclosed : (ofGraph sampleContext packagesLoading.graph).1.toOption.any (fun m => decide
      (∀ rule ∈ m.allRules, rule.target ∈ bareFiles → rule.prerequisites ⊆ bareFiles)) = true := by
    decide +kernel
  obtain ⟨m, hm, hclosed⟩ := (Option.any_eq_true _ _).1 hclosed
  rcases hgraph : ofGraph sampleContext packagesLoading.graph with ⟨outcome, settled⟩
  rw [hgraph] at hm
  obtain rfl : outcome = .ok m := eq_ok_of_toOption hm
  obtain ⟨after, hrender, rfl⟩ := render_of_ok hgraph
  exact ⟨m, after, hrender, rfl, of_decide_eq_true hclosed⟩

/-- The package that depends on the executable waits for the file that the shared library links. -/
theorem render_awaits_sample :
    ∃ text after, (∀ n ∈ packagesLoading.graph.nodes, n.IsRead sampleContext.workspace.settings) ∧
      render sampleContext packagesLoading = .ok text after ∧
      ∃ m, ofGraph sampleContext packagesLoading.graph = (.ok m, after.graph) ∧
        LinkedBelow packagesLoading.graph fullPackage sampleSharedLibrary ∧
        TransGen m.Waits ".gen-files/full.done" ".gen-pkg/shapes/libarea.so.1.2.3" := by
  obtain ⟨_, after, hrender, -⟩ := render_packages
  refine ⟨_, after, isRead_packages, hrender, ?_⟩
  obtain ⟨m, nodes, -, hgraph, -, hawaits⟩ := render_awaits isRead_packages hrender
  obtain ⟨program, hprogram, hbinary, htarget, hlists⟩ : ∃ n ∈ packagesLoading.graph.nodes,
      n.IsBinary ∧ n.target = ⟨"", "draw"⟩ ∧ sampleSharedLibrary.target ∈ n.dependencies :=
    ⟨_, List.mem_cons_self, ⟨_, rfl⟩, rfl, List.mem_cons_self⟩
  have hbelow : packagesLoading.graph.Reaches fullPackage.target program.target :=
    .single ⟨fullPackage, fullPackage_mem, rfl, htarget ▸ List.mem_cons_self⟩
  have hlinked : LinkedBelow packagesLoading.graph fullPackage sampleSharedLibrary :=
    ⟨program, hprogram, hbinary, hbelow, ⟨_, _, rfl⟩, sampleSharedLibrary,
      ⟨sampleSharedLibrary_mem, hlists⟩, .refl⟩
  refine ⟨m, hgraph, hlinked, ?_⟩
  have hwaits := (hawaits fullPackage fullPackage_mem ⟨_, rfl⟩ sampleSharedLibrary
    sampleSharedLibrary_mem (.tail hbelow ⟨program, hprogram, rfl, hlists⟩) _
    List.mem_cons_self).1 fun _ => hlinked
  have hstamp : (AutoconfSpec.stamp sampleContext.workspace.settings.dirs
      fullPackage.target).fullPath = ".gen-files/full.done" := by decide +kernel
  rwa [hstamp] at hwaits

/-- The package that depends on the shared library only does not wait for the file that it links. -/
theorem render_unawaited :
    ∃ text after m, render sampleContext packagesLoading = .ok text after ∧
      ofGraph sampleContext packagesLoading.graph = (.ok m, after.graph) ∧ text = m.serialize ∧
      barePackage ∈ packagesLoading.graph.nodes ∧ barePackage.IsAutoconf ∧
      sampleSharedLibrary ∈ packagesLoading.graph.nodes ∧ sampleSharedLibrary.IsShared ∧
      packagesLoading.graph.Reaches barePackage.target sampleSharedLibrary.target ∧
      ∃ r ∈ sampleSharedLibrary.outputs sampleContext.workspace.settings.dirs,
        ¬ TransGen m.Waits
          (AutoconfSpec.stamp sampleContext.workspace.settings.dirs barePackage.target).fullPath
          r.fullPath := by
  obtain ⟨m, after, hrender, hgraph, hclosed⟩ := render_packages
  refine ⟨_, after, m, hrender, hgraph, rfl, barePackage_mem, ⟨_, rfl⟩, sampleSharedLibrary_mem,
    ⟨_, _, rfl⟩,
    .single ⟨barePackage, barePackage_mem, rfl, List.mem_cons_self⟩, _, List.mem_cons_self, ?_⟩
  -- from the stamp nothing but the headers is met
  have hstays : ∀ {x y}, x ∈ bareFiles → m.Waits x y → y ∈ bareFiles := by
    rintro x y hx ⟨rule, hrule, rfl, hname⟩
    exact hclosed rule hrule hx hname
  have hmet : ∀ {name}, TransGen m.Waits ".gen-files/bare.done" name → name ∈ bareFiles := by
    intro name hwaits
    induction hwaits with
    | single hfirst => exact hstays List.mem_cons_self hfirst
    | tail _ hlast ih => exact hstays ih hlast
  have hstamp : (AutoconfSpec.stamp sampleContext.workspace.settings.dirs
      barePackage.target).fullPath = ".gen-files/bare.done" := by decide +kernel
  rw [hstamp]
  exact fun hwaits => absurd (hmet hwaits) (by decide +kernel)

end Loading

end Makewright
