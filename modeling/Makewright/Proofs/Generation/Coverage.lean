import Makewright.Proofs.Generation.Complete
import Makewright.Proofs.Generation.Linking

/-!
# Making everything

Making `all` carries out every rule of a Makefile but `clean` and `install`
(`Loading.render_covers`). The rule `all` waits for the rule of every target, and that rule for what
the target produces. The objects of an executable and of a shared library are not among its
products: their rules are reached through the link, which takes in all objects of the node itself,
because every source is written in C or in C++ (`Node.ownObject_mem_linkInputs`).
-/

set_option autoImplicit false

namespace Makewright

open Makefile Relation

variable {g : Graph} {node : Node} {nodes closure : List Node} {dirs : GeneratedDirs}
  {recipes : List Recipe} {ctx : Context}

namespace Node

/-- One of the recipes for the first name waits for the second one. -/
def Uses (recipes : List Recipe) (a b : String) : Prop :=
  ∃ recipe ∈ recipes, recipe.target = a ∧ b ∈ recipe.prerequisites

/-- The rule of a target waits for its products. -/
theorem uses_output (outputs : List Resource) (h : node.userRecipe outputs ∈ recipes)
    {r : Resource} (hr : r ∈ outputs) : Uses recipes node.userTarget r.fullPath :=
  ⟨_, h, rfl, List.mem_map_of_mem hr⟩

/-- What a compile rule makes is an object. -/
theorem exists_object_of_mem {c : Compilation} {recipe : Recipe}
    (h : recipe ∈ compileRecipes dirs c closure) :
    ∃ r ∈ (c.objects dirs).toList, recipe.target = r.fullPath := by
  obtain ⟨entry, hentry, rfl⟩ := List.mem_map.1 h
  exact ⟨_, mem_objects.2 ⟨entry, hentry, rfl⟩, rfl⟩

/-- Every own object of a node is among its link inputs: it comes from a source with a language that
the link goes through the dependencies for. -/
theorem ownObject_mem_linkInputs (hg : ∀ n ∈ g.nodes, n.WellRead) (hnode : node ∈ g.nodes)
    (hclosure : g.IsClosure node.target closure) {c : Compilation}
    (hc : node.body.compilation? = some c) {inputs : FileSet}
    (hinputs : linkInputs dirs node c closure = .ok inputs) {r : Resource}
    (hr : r ∈ (c.objects dirs).toList) : r.fullPath ∈ inputs.paths := by
  obtain ⟨⟨source, tag⟩, hentry, rfl⟩ := mem_objects.1 hr
  have hsource : LinksSource g node source :=
    ⟨node, c, .inl rfl, hc, List.mem_map.2 ⟨_, hentry, rfl⟩⟩
  have htag := ((hg node hnode).isTagged hc).ofSource? hentry
  have hlinked : LinkedWith g dirs node (Compilation.objectFor dirs source) tag :=
    .inl ⟨source, hsource, htag, rfl⟩
  have hmem := (mem_entries_linkInputs hg hnode hclosure hc hinputs).2 hlinked
  exact FileSet.mem_paths.2 ⟨_, List.mem_map.2 ⟨_, hmem, rfl⟩, rfl⟩

/-- Every recipe of a node is reached from the rule of its target. -/
theorem reaches_of_recipes (hrecipes : node.recipes dirs closure = .ok recipes)
    (hown : ∀ c inputs, node.body.compilation? = some c →
      linkInputs dirs node c closure = .ok inputs →
      ∀ r ∈ (c.objects dirs).toList, r.fullPath ∈ inputs.paths) :
    ∀ recipe ∈ recipes, ReflTransGen (Uses recipes) node.userTarget recipe.target := by
  cases written_of_recipes hrecipes with
  | library hbody =>
    simp only [List.forall_mem_append, List.forall_mem_singleton]
    refine ⟨fun recipe hrecipe => ?_, .refl⟩
    obtain ⟨r, hr, htarget⟩ := exists_object_of_mem hrecipe
    exact htarget ▸ .single (uses_output _ (List.mem_append_right _ List.mem_cons_self) hr)
  | @binary c inputs hbody hlink =>
    have hc : node.body.compilation? = some c := by rw [hbody]; rfl
    have hproduct : Uses (compileRecipes dirs c closure ++ [node.linkBinary dirs inputs closure,
        node.userRecipe [executable dirs node.target]]) node.userTarget
          (executable dirs node.target).fullPath :=
      uses_output [executable dirs node.target] (by simp) List.mem_cons_self
    simp only [List.forall_mem_append, List.forall_mem_cons]
    refine ⟨fun recipe hrecipe => ?_, .single hproduct, .refl, by simp⟩
    -- an object is reached through the executable
    obtain ⟨r, hr, htarget⟩ := exists_object_of_mem hrecipe
    refine htarget ▸ .tail (.single hproduct)
      ⟨node.linkBinary dirs inputs closure, by simp, rfl, ?_⟩
    exact List.mem_append_left _ (hown c inputs hc hlink r hr)
  | @sharedLibrary c spec inputs hbody hlink =>
    have hc : node.body.compilation? = some c := by rw [hbody]; rfl
    have hproduct : ∀ r ∈ spec.outputs dirs node.target,
        Uses (compileRecipes dirs c closure ++ [node.linkShared dirs spec inputs closure]
          ++ aliasRecipes (spec.linked dirs node.target) (spec.aliases dirs node.target)
          ++ [node.userRecipe (spec.outputs dirs node.target)]) node.userTarget r.fullPath :=
      fun r hr => uses_output _ (List.mem_append_right _ List.mem_cons_self) hr
    have hlinked := hproduct _ List.mem_cons_self
    simp only [List.forall_mem_append, List.forall_mem_singleton]
    refine ⟨⟨⟨fun recipe hrecipe => ?_, .single hlinked⟩, fun recipe hrecipe => ?_⟩, .refl⟩
    · -- an object is reached through the library
      obtain ⟨r, hr, htarget⟩ := exists_object_of_mem hrecipe
      refine htarget ▸ .tail (.single hlinked)
        ⟨node.linkShared dirs spec inputs closure, by simp, rfl, ?_⟩
      exact List.mem_append_left _ (List.mem_append_left _ (hown c inputs hc hlink r hr))
    · -- every symbolic link is a product
      have htarget : recipe.target ∈ (spec.aliases dirs node.target).map Resource.fullPath := by
        rw [← aliasRecipes_targets (spec.linked dirs node.target)]
        exact List.mem_map_of_mem hrecipe
      obtain ⟨r, hr, htarget⟩ := List.mem_map.1 htarget
      exact htarget ▸ .single (hproduct r (List.mem_cons_of_mem _ hr))
  | @autoconf spec hbody =>
    have hproduct : Uses [node.stampRecipe dirs spec closure,
        node.userRecipe [AutoconfSpec.stamp dirs node.target]] node.userTarget
          (AutoconfSpec.stamp dirs node.target).fullPath :=
      uses_output [AutoconfSpec.stamp dirs node.target] (by simp) List.mem_cons_self
    simp only [List.forall_mem_cons]
    exact ⟨.single hproduct, .refl, by simp⟩
  | listing hbody =>
    simp only [List.forall_mem_singleton]
    exact .refl

end Node

namespace Loading

/-- Whenever nodes that have been read are rendered to a text, every rule but `clean` and `install`
is reached from the rule `all` through what the rules wait for. -/
theorem render_covers {loading after : Loading} {text : String}
    (hrender : render ctx loading = .ok text after)
    (hread : ∀ node ∈ loading.graph.nodes, node.IsRead ctx.workspace.settings) :
    ∃ m, ofGraph ctx loading.graph = (.ok m, after.graph) ∧ text = m.serialize ∧
      ∀ rule ∈ m.allRules, rule.target ∉ ["clean", installTarget] →
        ReflTransGen m.Waits allTarget rule.target := by
  obtain ⟨m, hgraph, htext⟩ := made_of_render hrender
  obtain ⟨nodes, hresolve, hm⟩ := assembled_of_ofGraph hgraph
  refine ⟨m, hgraph, htext, fun rule hrule hother => ?_⟩
  have hwell : ∀ n ∈ loading.graph.nodes, n.WellRead := fun n hn => (hread n hn).wellRead
  have hperm := Graph.perm_of_resolve hresolve
  rw [allRules, hm.rules] at hrule
  simp only [List.mem_append, List.mem_cons, List.mem_flatMap, List.mem_map, List.not_mem_nil,
    or_false] at hrule
  rcases hrule with ((rfl | ⟨node, hnode, recipe, hrecipe, rfl⟩) | rfl) | rfl
  · exact .refl
  · have hmem : node ∈ loading.graph.nodes := hperm.subset hnode
    obtain ⟨closure, recipes, hanswer, hclosure, hrecipes⟩ :=
      Graph.exists_recipes_of_resolve hresolve ctx.workspace.settings.dirs hmem
    have hemitted : emitted ctx.workspace.settings.dirs
        (fun t => (after.graph.dependenciesOf t).1) node = recipes :=
      emitted_eq (congrArg Prod.fst hanswer) hrecipes
    have hreaches := Node.reaches_of_recipes hrecipes (fun c inputs hc hlink r hr =>
      Node.ownObject_mem_linkInputs hwell hmem hclosure hc hlink hr) recipe (hemitted ▸ hrecipe)
    -- the rule `all` waits for the rule of the target, and the rules are those of the recipes
    refine ReflTransGen.head ?_ (hreaches.lift id ?_)
    · refine ⟨Rule.start allTarget (nodes.map Node.userTarget), ?_, rfl, ?_⟩
      · rw [allRules, hm.rules]
        simp
      · exact mem_distinct.2 (List.mem_map_of_mem hnode)
    · rintro a b ⟨other, hotherRecipe, rfl, hwaits⟩
      refine ⟨other.rule, List.mem_append_left _ (hm.rule_mem hnode ?_), rfl, ?_⟩
      · rw [hemitted]
        exact hotherRecipe
      · exact Recipe.mem_rule_prerequisites.2 hwaits
  · exact absurd List.mem_cons_self hother
  · refine absurd ?_ hother
    rw [hm.install]
    exact List.mem_cons_of_mem _ List.mem_cons_self

/-- The rules of the sample are all reached, those of the objects and of the symbolic links among
them. -/
theorem render_covers_sample :
    ∃ text after, render sampleContext sampleLoading = .ok text after ∧
      (∀ node ∈ sampleLoading.graph.nodes, node.IsRead sampleContext.workspace.settings) ∧
      ∃ m, ofGraph sampleContext sampleLoading.graph = (.ok m, after.graph) ∧
        text = m.serialize ∧
        ∀ rule ∈ m.allRules, rule.target ∉ ["clean", installTarget] →
          ReflTransGen m.Waits allTarget rule.target :=
  ⟨_, _, rfl, Node.isRead_sample, render_covers rfl Node.isRead_sample⟩

end Loading

end Makewright
