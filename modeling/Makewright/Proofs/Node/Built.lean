import Makewright.Proofs.Graph.LinkPaths
import Makewright.Proofs.Node.Prerequisites

/-!
# What a node builds

The outputs of a node are the files that its recipes build for use: the executable, the linked file
with the symbolic links to it, or the stamp. Whoever waits for the last symbolic link waits for the
whole chain (`reaches_outputs`). In turn, a recipe waits for nothing without a reason, which lies in
the node, in its closure or in its link command (`requires_of_mem`).
-/

set_option autoImplicit false

namespace Makewright.Node

open Relation

variable {g : Graph} {dirs : GeneratedDirs} {node : Node} {closure : List Node}
  {recipes : List Recipe} {recipe : Recipe} {r : Resource} {name : String}

/-- The node is an executable. -/
def IsBinary (node : Node) : Prop :=
  ∃ c, node.body = .binary c

/-- The node is a package with its own configure script. -/
def IsAutoconf (node : Node) : Prop :=
  ∃ spec, node.body = .autoconf spec

/-- The files that the recipes of a node build for use. -/
def outputs (dirs : GeneratedDirs) (node : Node) : List Resource :=
  match node.body with
  | .binary _ => [executable dirs node.target]
  | .sharedLibrary _ spec => spec.outputs dirs node.target
  | .autoconf _ => [AutoconfSpec.stamp dirs node.target]
  | .library _ | .listing _ => []

/-! ## Outputs -/

/-- The outputs are made by recipes of the node. -/
theorem outputs_mem_ruleTargets (h : r ∈ node.outputs dirs) :
    r.fullPath ∈ node.ruleTargets dirs := by
  unfold outputs at h
  unfold ruleTargets
  cases hbody : node.body with
  | library c => simp [hbody] at h
  | binary c =>
    simp only [hbody, List.mem_singleton] at h ⊢
    simp [h]
  | sharedLibrary c spec =>
    simp only [hbody] at h ⊢
    exact List.mem_append_left _ (List.mem_append_right _ (List.mem_map_of_mem h))
  | autoconf spec =>
    simp only [hbody, List.mem_singleton] at h ⊢
    simp [h]
  | listing prerequisites => simp [hbody] at h

/-- The objects of the sources are made by recipes of the node. -/
theorem object_mem_ruleTargets {c : Compilation} (hc : node.body.compilation? = some c)
    {source : Resource} (hsource : source ∈ c.sources) :
    (Compilation.objectFor dirs source).fullPath ∈ node.ruleTargets dirs := by
  have hobject : (Compilation.objectFor dirs source).fullPath ∈
      c.sources.entries.map fun entry => (Compilation.objectFor dirs entry.1).fullPath := by
    obtain ⟨entry, hentry, rfl⟩ := List.mem_map.1 hsource
    exact List.mem_map.2 ⟨entry, hentry, rfl⟩
  unfold ruleTargets
  cases hbody : node.body with
  | library c' | binary c' | sharedLibrary c' spec =>
    rw [hbody] at hc
    obtain rfl := Option.some.inj hc
    simp [hobject]
  | autoconf spec | listing prerequisites =>
    rw [hbody] at hc
    cases hc

/-- An executable and a package make build steps wait for all that they build. -/
theorem outputs_eq_dependencyFiles (h : node.IsBinary ∨ node.IsAutoconf) :
    node.outputs dirs = (node.dependencyFiles dirs).map Prod.fst := by
  rcases h with ⟨c, hbody⟩ | ⟨spec, hbody⟩ <;> simp [outputs, dependencyFiles, hbody]

/-- A file that a node makes build steps wait for is an input of it, or it is made by a node that is
no shared library. -/
theorem dependencyFiles_provided (h : r ∈ (node.dependencyFiles dirs).map Prod.fst) :
    r.fullPath ∈ node.inputFiles ∨ ¬ node.IsShared ∧ r.fullPath ∈ node.ruleTargets dirs := by
  have hprovided := offered_provided (List.mem_append_left (node.linkable dirs) h)
  refine hprovided.elim .inl fun htarget => ?_
  unfold dependencyFiles at h
  unfold IsShared
  cases hbody : node.body with
  | library c | binary c | autoconf spec | listing prerequisites =>
    exact .inr ⟨by simp, htarget⟩
  | sharedLibrary c spec =>
    -- a shared library makes build steps wait for its headers only
    simp only [hbody] at h
    have hheader : r.fullPath ∈ c.headers.paths := FileSet.mem_paths.2 ⟨r, h, rfl⟩
    simp [inputFiles, hbody, Compilation.inputFiles, hheader]

/-- The file at the end of a chain of symbolic links leads to all files of the chain. -/
theorem aliasRecipes_reaches {R : String → String → Prop} {previous : Resource}
    {links : List Resource}
    (hR : ∀ recipe ∈ aliasRecipes previous links, ∀ name ∈ recipe.prerequisites,
      R recipe.target name)
    (hr : r ∈ previous :: links) :
    ReflTransGen R (links.getLastD previous).fullPath r.fullPath := by
  induction links generalizing previous r with
  | nil => rw [List.mem_singleton.1 hr, List.getLastD_nil]
  | cons link rest ih =>
    have hlink : R link.fullPath previous.fullPath :=
      hR _ List.mem_cons_self previous.fullPath List.mem_cons_self
    have hrest : ∀ {r}, r ∈ link :: rest →
        ReflTransGen R (rest.getLastD link).fullPath r.fullPath :=
      ih fun other hother => hR other (List.mem_cons_of_mem _ hother)
    rw [List.getLastD_cons]
    rcases List.mem_cons.1 hr with rfl | hr
    · exact (hrest List.mem_cons_self).tail hlink
    · exact hrest hr

/-- The name that dependents link against leads to all outputs of a shared library. -/
theorem reaches_outputs {R : String → String → Prop}
    (h : node.recipes dirs closure = .ok recipes)
    (hR : ∀ recipe ∈ recipes, ∀ name ∈ recipe.prerequisites, R recipe.target name)
    (hshared : node.IsShared) (hr : r ∈ node.outputs dirs) :
    ReflTransGen R
      (node.target.generated dirs.pkgfileDir (SharedSpec.baseName node.target)).fullPath
      r.fullPath := by
  obtain ⟨c, spec, hbody⟩ := hshared
  have houtputs : r ∈ spec.outputs dirs node.target := by simpa [outputs, hbody] using hr
  cases written_of_recipes h with
  | @sharedLibrary c' spec' inputs hbody' hlink =>
    obtain ⟨rfl, rfl⟩ := Body.sharedLibrary.inj (hbody.symm.trans hbody')
    rw [← linkName_eq dirs node.target spec]
    refine aliasRecipes_reaches (fun recipe hrecipe => hR recipe ?_) houtputs
    simp [hrecipe]
  | library hbody' | binary hbody' hlink | autoconf hbody' | listing hbody' =>
    rw [hbody] at hbody'
    cases hbody'

/-! ## Prerequisites -/

/-- Why a recipe of a node waits for a name: it is an input of the node, one of its recipes makes
it, the closure makes build steps wait for it, or it is an input of the link command. -/
inductive Requires (dirs : GeneratedDirs) (node : Node) (closure : List Node) (name : String) : Prop
  | input (h : name ∈ node.inputFiles)
  | own (h : name ∈ node.ruleTargets dirs)
  | dependency (h : name ∈ (collectDependencyFiles dirs closure).paths)
  | link {c : Compilation} {inputs : FileSet} (hlinks : node.IsBinary ∨ node.IsShared)
      (hc : node.body.compilation? = some c)
      (hinputs : linkInputs dirs node c closure = .ok inputs) (h : name ∈ inputs.paths)

theorem compileRecipes_prerequisites {c : Compilation}
    (hrecipe : recipe ∈ compileRecipes dirs c closure) (hname : name ∈ recipe.prerequisites) :
    name ∈ c.inputFiles ∨ name ∈ (collectDependencyFiles dirs closure).paths := by
  obtain ⟨⟨source, language⟩, hsource, rfl⟩ := List.mem_map.1 hrecipe
  simp only [compileRecipe, List.cons_append, List.nil_append, List.mem_cons, List.mem_append]
    at hname
  rcases hname with rfl | hheader | hwaits
  · have hmem : source ∈ c.sources.toList := List.mem_map_of_mem (f := Prod.fst) hsource
    exact .inl (List.mem_append_left _ (FileSet.mem_paths.2 ⟨source, hmem, rfl⟩))
  · exact .inl (List.mem_append_right _ hheader)
  · exact .inr hwaits

theorem aliasRecipes_prerequisites {previous : Resource} {links : List Resource}
    (hrecipe : recipe ∈ aliasRecipes previous links) (hname : name ∈ recipe.prerequisites) :
    ∃ r ∈ previous :: links, r.fullPath = name := by
  induction links generalizing previous with
  | nil => exact absurd hrecipe List.not_mem_nil
  | cons link rest ih =>
    rcases List.mem_cons.1 hrecipe with rfl | hrest
    · exact ⟨previous, List.mem_cons_self, (List.mem_singleton.1 hname).symm⟩
    · obtain ⟨r, hr, hpath⟩ := ih hrest
      exact ⟨r, List.mem_cons_of_mem _ hr, hpath⟩

/-- A recipe that compiles waits for inputs of the node and for what the closure makes it wait
for. -/
theorem Requires.compile {c : Compilation} (hinputs : c.inputFiles ⊆ node.inputFiles)
    (hrecipe : recipe ∈ compileRecipes dirs c closure) (hname : name ∈ recipe.prerequisites) :
    Requires dirs node closure name :=
  (compileRecipes_prerequisites hrecipe hname).elim (fun h => .input (hinputs h)) .dependency

/-- The recipe for everything that a node produces waits for outputs. -/
theorem Requires.user {outputs : List Resource}
    (houtput : ∀ {r}, r ∈ outputs → r.fullPath = name → Requires dirs node closure name)
    (hname : name ∈ (node.userRecipe outputs).prerequisites) : Requires dirs node closure name := by
  obtain ⟨file, hfile, hpath⟩ := List.mem_map.1 hname
  exact houtput hfile hpath

/-- Every prerequisite of a recipe has a reason. -/
theorem requires_of_mem (hnode : node.WellRead) (h : node.recipes dirs closure = .ok recipes)
    (hrecipe : recipe ∈ recipes) (hname : name ∈ recipe.prerequisites) :
    Requires dirs node closure name := by
  have houtput : ∀ {r}, r ∈ node.outputs dirs → r.fullPath = name →
      Requires dirs node closure name :=
    fun hr hpath => .own (hpath ▸ outputs_mem_ruleTargets hr)
  cases written_of_recipes h with
  | @library c hbody =>
    simp only [List.mem_append, List.mem_singleton] at hrecipe
    rcases hrecipe with hcompile | rfl
    · exact .compile (by simp [inputFiles, hbody]) hcompile hname
    · obtain ⟨object, hobject, rfl⟩ := List.mem_map.1 hname
      refine .own ?_
      rw [← recipes_targets h, List.map_append]
      exact List.mem_append_left _ (object_mem_targets hobject)
  | @binary c inputs hbody hlink =>
    simp only [List.mem_append, List.mem_cons, List.not_mem_nil, or_false] at hrecipe
    rcases hrecipe with hcompile | rfl | rfl
    · exact .compile (by simp [inputFiles, hbody]) hcompile hname
    · rcases List.mem_append.1 hname with hinput | hwaits
      · exact .link (.inl ⟨c, hbody⟩) (by rw [hbody]; rfl) hlink hinput
      · exact .dependency hwaits
    · exact .user (fun hr => houtput (by simpa [outputs, hbody] using hr)) hname
  | @sharedLibrary c spec inputs hbody hlink =>
    simp only [List.mem_append, List.mem_singleton] at hrecipe
    rcases hrecipe with ((hcompile | rfl) | halias) | rfl
    · exact .compile (by simp [inputFiles, hbody]) hcompile hname
    · simp only [linkShared, List.mem_append] at hname
      rcases hname with (hinput | hwaits) | hsymbols
      · exact .link (.inr ⟨c, spec, hbody⟩) (by rw [hbody]; rfl) hlink hinput
      · exact .dependency hwaits
      · refine .input ?_
        rw [inputFiles, hbody]
        exact List.mem_append_right _ hsymbols
    · obtain ⟨file, hfile, hpath⟩ := aliasRecipes_prerequisites halias hname
      exact houtput (by simpa [outputs, hbody, SharedSpec.outputs] using hfile) hpath
    · exact .user (fun hr => houtput (by simpa [outputs, hbody] using hr)) hname
  | @autoconf spec hbody =>
    simp only [List.mem_cons, List.not_mem_nil, or_false] at hrecipe
    rcases hrecipe with rfl | rfl
    · exact .dependency hname
    · exact .user (fun hr => houtput (by simpa [outputs, hbody] using hr)) hname
  | listing hbody =>
    cases hnode with
    | library hbody' | binary hbody' | sharedLibrary hbody' | autoconf hbody' =>
      rw [hbody] at hbody'
      cases hbody'

/-! ## Nodes on the way to a link -/

theorem ReachesThrough.reaches {via : Node → Prop} {a b : Node} (ha : a ∈ g.nodes)
    (h : ReachesThrough g via a b) : g.Reaches a.target b.target := by
  obtain ⟨first, hfirst, hpath⟩ := h
  induction hpath with
  | refl => exact .single ⟨a, ha, rfl, hfirst.2⟩
  | @tail x y hpath hlast ih =>
    have hx : x ∈ g.nodes := ReachesThrough.mem ⟨first, hfirst, hpath⟩
    exact ih.tail ⟨x, hx, rfl, hlast.2.2⟩

/-- Who is linked against a shared library is linked against all that this one is linked against. -/
theorem LinksShared.trans {a b c : Node} (h : LinksShared g a b) (h' : LinksShared g b c) :
    LinksShared g a c := by
  obtain ⟨hb, first, hfirst, hpath⟩ := h
  obtain ⟨hc, next, hnext, hpath'⟩ := h'
  exact ⟨hc, first, hfirst, hpath.trans (.head ⟨.inr hb, hnext⟩ hpath')⟩

end Makewright.Node
