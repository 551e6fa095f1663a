import Makewright.Proofs.Graph.LinkPaths

/-!
# What a link command takes in

In a graph of nodes that have been read, the link command of an executable or a shared library takes
in the objects of its own sources, those of every library that it reaches through libraries, and
every shared library that it reaches through libraries and shared libraries, each once and nothing
else (`links_exactly`). It calls the linker for C++ exactly if one of the objects comes from a C++
source.
-/

set_option autoImplicit false

namespace Makewright

variable {g settled : Graph} {dirs : GeneratedDirs} {node : Node} {nodes closure : List Node}

/-- The file that a word names to be read without an option in front of it. -/
def Word.input? : Word → Option Resource
  | .file r option => if option.isEmpty then some r else none
  | .plain _ | .flag _ | .sibling _ | .tree _ => none

namespace Recipe

/-- The files that the commands take in without an option in front of them. -/
def inputs (recipe : Recipe) : List Resource :=
  recipe.lines.flatMap (·.filterMap Word.input?)

/-- The one command behind the line that makes a directory calls a program. -/
def Calls (recipe : Recipe) (program : String) : Prop :=
  ∃ words, recipe.lines = [makeOwnDir, .plain program :: words]

end Recipe

namespace Node

/-- The file that a node links. -/
def linkedFile? (dirs : GeneratedDirs) (node : Node) : Option Resource :=
  match node.body with
  | .binary _ => some (executable dirs node.target)
  | .sharedLibrary _ spec => some (spec.linked dirs node.target)
  | .library _ | .autoconf _ | .listing _ => none

/-- What a recipe takes in is exactly what a node is linked with: the objects of its own sources,
the objects of the libraries that it reaches through libraries, and the shared libraries that it
reaches through libraries and shared libraries, each once. The linker is the one for C++ exactly if
one of the objects comes from a C++ source. -/
structure LinksExactly (g : Graph) (dirs : GeneratedDirs) (node : Node) (recipe : Recipe) :
    Prop where
  nodup : (recipe.inputs.map Resource.fullPath).Nodup
  mem_inputs : ∀ r, r ∈ recipe.inputs ↔
    (∃ source, LinksSource g node source ∧ r = Compilation.objectFor dirs source) ∨
      ∃ next, LinksShared g node next ∧
        r = next.target.generated dirs.pkgfileDir (SharedSpec.baseName next.target)
  calls_cxx : recipe.Calls "$(CXX)" ↔
    ∃ source, LinksSource g node source ∧ Language.ofSource? source.path = some .cxx
  calls_cc : recipe.Calls "$(CC)" ↔
    ¬ ∃ source, LinksSource g node source ∧ Language.ofSource? source.path = some .cxx

theorem linkBinary_inputs (inputs : FileSet) :
    (linkBinary dirs node inputs closure).inputs = inputs.toList := by
  simp [linkBinary, Recipe.inputs, List.filterMap_cons, makeOwnDir, linkTail, Word.input?,
    Function.comp_def]

theorem linkShared_inputs (spec : SharedSpec) (inputs : FileSet) :
    (linkShared dirs node spec inputs closure).inputs = inputs.toList := by
  simp [linkShared, Recipe.inputs, List.filterMap_cons, makeOwnDir, linkTail, Word.input?,
    Function.comp_def]

/-- A source that is compiled for the link of a node has a language. -/
theorem LinksSource.exists_tag (hg : ∀ n ∈ g.nodes, n.WellRead) (hnode : node ∈ g.nodes)
    {source : Resource} (h : LinksSource g node source) :
    ∃ tag, Language.ofSource? source.path = some tag := by
  obtain ⟨next, c, hnext, hc, hsource⟩ := h
  have hmem : next ∈ g.nodes := by
    rcases hnext with rfl | ⟨-, hpath⟩
    · exact hnode
    · exact hpath.mem
  obtain ⟨⟨source, tag⟩, hentry, rfl⟩ := List.mem_map.1 hsource
  exact ⟨tag, ((hg next hmem).isTagged hc).ofSource? hentry⟩

theorem calls_iff {recipe : Recipe} {words : List Word} {program other : String}
    (hlines : recipe.lines = [makeOwnDir, .plain program :: words]) :
    recipe.Calls other ↔ program = other := by
  simp [Recipe.Calls, hlines]

/-- A recipe that takes in the link inputs and calls the linker for them links exactly. -/
theorem linksExactly_of_linkInputs (hg : ∀ n ∈ g.nodes, n.WellRead) (hnode : node ∈ g.nodes)
    (hclosure : g.IsClosure node.target closure) {c : Compilation}
    (hc : node.body.compilation? = some c) {inputs : FileSet}
    (hinputs : linkInputs dirs node c closure = .ok inputs)
    (hobjects : Path.isAbsolute dirs.objectDir = false)
    (hpackages : Path.isAbsolute dirs.pkgfileDir = false) {recipe : Recipe} {words : List Word}
    (hrecipe : recipe.inputs = inputs.toList)
    (hlines : recipe.lines = [makeOwnDir, .plain (linker inputs) :: words]) :
    LinksExactly g dirs node recipe := by
  have hentries : ∀ r tag, (r, tag) ∈ inputs.entries ↔ LinkedWith g dirs node r tag :=
    fun r tag => mem_entries_linkInputs hg hnode hclosure hc hinputs
  have hmem : ∀ r, r ∈ inputs.toList ↔ ∃ tag, LinkedWith g dirs node r tag := by
    intro r
    simp only [← hentries]
    exact List.mem_map.trans (by simp)
  -- the names of shared libraries have no language
  have hcxx : .cxx ∈ inputs.languages ↔
      ∃ source, LinksSource g node source ∧ Language.ofSource? source.path = some .cxx := by
    rw [FileSet.mem_languages]
    constructor
    · rintro ⟨r, hr⟩
      rcases (hentries r .cxx).1 hr with ⟨source, hsource, htag, -⟩ | ⟨next, -, hnone, -⟩
      · exact ⟨source, hsource, htag⟩
      · cases hnone
    · rintro ⟨source, hsource, htag⟩
      exact ⟨_, (hentries _ .cxx).2 (Or.inl ⟨source, hsource, htag, rfl⟩)⟩
  refine ⟨?_, ?_, ?_, ?_⟩
  · -- files of one path are one file
    rw [hrecipe]
    refine List.Nodup.map_on ?_ inputs.nodup
    intro r hr other hother hpath
    obtain ⟨tag, hlinked⟩ := (hmem r).1 hr
    obtain ⟨tag', hlinked'⟩ := (hmem other).1 hother
    exact hlinked.isLinkFile.eq_of_fullPath hobjects hpackages hlinked'.isLinkFile hpath
  · intro r
    rw [hrecipe, hmem]
    constructor
    · rintro ⟨tag, ⟨source, hsource, -, hobject⟩ | ⟨next, hnext, -, hname⟩⟩
      · exact Or.inl ⟨source, hsource, hobject⟩
      · exact Or.inr ⟨next, hnext, hname⟩
    · rintro (⟨source, hsource, hobject⟩ | ⟨next, hnext, hname⟩)
      · obtain ⟨tag, htag⟩ := hsource.exists_tag hg hnode
        exact ⟨tag, Or.inl ⟨source, hsource, htag, hobject⟩⟩
      · exact ⟨.none, Or.inr ⟨next, hnext, rfl, hname⟩⟩
  · rw [calls_iff hlines, ← hcxx]
    simp [linker]
  · rw [calls_iff hlines, ← hcxx]
    simp [linker]

/-- A node that links has a recipe for its link, whose inputs are its link inputs. -/
theorem exists_linkRecipe (hresolve : g.resolve = (.ok nodes, settled)) (hnode : node ∈ g.nodes)
    {file : Resource} (hfile : node.linkedFile? dirs = some file) :
    ∃ closure recipes recipe c inputs words,
      settled.dependenciesOf node.target = (.ok closure, settled) ∧
      g.IsClosure node.target closure ∧ node.recipes dirs closure = .ok recipes ∧
      recipe ∈ recipes ∧ recipe.target = file.fullPath ∧ node.body.compilation? = some c ∧
      linkInputs dirs node c closure = .ok inputs ∧ recipe.inputs = inputs.toList ∧
      recipe.lines = [makeOwnDir, .plain (linker inputs) :: words] := by
  obtain ⟨closure, recipes, hanswer, hclosure, hrecipes⟩ :=
    Graph.exists_recipes_of_resolve hresolve dirs hnode
  unfold linkedFile? at hfile
  cases written_of_recipes hrecipes with
  | library hbody => simp [hbody] at hfile
  | @binary c inputs hbody hlink =>
    simp only [hbody, Option.some.injEq] at hfile
    subst hfile
    exact ⟨closure, _, linkBinary dirs node inputs closure, c, inputs, _, hanswer, hclosure,
      hrecipes, by simp, rfl, by rw [hbody]; rfl, hlink, linkBinary_inputs inputs, rfl⟩
  | @sharedLibrary c spec inputs hbody hlink =>
    simp only [hbody, Option.some.injEq] at hfile
    subst hfile
    exact ⟨closure, _, linkShared dirs node spec inputs closure, c, inputs, _, hanswer, hclosure,
      hrecipes, by simp, rfl, by rw [hbody]; rfl, hlink, linkShared_inputs spec inputs, rfl⟩
  | autoconf hbody => simp [hbody] at hfile
  | listing hbody => simp [hbody] at hfile

/-- In a graph that resolves, whose nodes have been read, every executable and every shared library
has a rule that links exactly what belongs to it. -/
theorem links_exactly {data : List (Value × Value)} {settings : Settings}
    (hsettings : Settings.ofMap data = .ok settings)
    (hread : ∀ n ∈ g.nodes, n.IsRead settings) (hresolve : g.resolve = (.ok nodes, settled)) :
    ∀ node ∈ g.nodes, ∀ file, node.linkedFile? settings.dirs = some file →
      ∃ closure recipes recipe, settled.dependenciesOf node.target = (.ok closure, settled) ∧
        node.recipes settings.dirs closure = .ok recipes ∧ recipe ∈ recipes ∧
        recipe.target = file.fullPath ∧ LinksExactly g settings.dirs node recipe := by
  intro node hnode file hfile
  have hg : ∀ n ∈ g.nodes, n.WellRead := fun n hn => (hread n hn).wellRead
  obtain ⟨hobjects, hpackages⟩ := Settings.isAbsolute_dirs hsettings
  obtain ⟨closure, recipes, recipe, c, inputs, words, hanswer, hclosure, hrecipes, hmem, htarget,
    hc, hinputs, hrecipe, hlines⟩ := exists_linkRecipe hresolve hnode hfile
  refine ⟨closure, recipes, recipe, hanswer, hrecipes, hmem, htarget, ?_⟩
  exact linksExactly_of_linkInputs hg hnode hclosure hc hinputs hobjects hpackages hrecipe hlines

/-- The description of a compiled target with one source. -/
def sampleDescription (kind : String) (target : Target) (source : String)
    (attributes : List (String × String)) : Description :=
  ⟨kind, target,
    ([("kind", kind), ("name", target.name), ("sources", source)] ++ attributes).map
      fun (key, text) => (.string key, .string text), none⟩

/-- All nodes of the sample are what descriptions of them read as. -/
theorem isRead_sample :
    ∀ n ∈ Loading.sampleLoading.graph.nodes,
      n.IsRead Loading.sampleContext.workspace.settings := by
  refine List.forall_mem_cons.2 ⟨?_, List.forall_mem_cons.2 ⟨?_, List.forall_mem_singleton.2 ?_⟩⟩
  · exact ⟨sampleDescription "cc_binary" ⟨"", "draw"⟩ "draw.c" [("dependencies", "//shapes:area")],
      .binary, _, rfl, rfl, .complete _⟩
  · exact ⟨sampleDescription "cc_shared_library" ⟨"shapes", "area"⟩ "area.c"
      [("headers", "area.h"), ("dependencies", ":point"), ("version", "1.2.3"),
        ("install_strip_prefix", "/"), ("exported_symbols", "area.map")],
      .sharedLibrary, _, rfl, rfl, .complete _⟩
  · exact ⟨sampleDescription "cc_library" ⟨"shapes", "point"⟩ "point.c" [("headers", "point.h")],
      .library, _, rfl, rfl, .complete _⟩

/-- The executable of the sample is linked exactly. -/
theorem links_exactly_sample :
    ∃ nodes settled, Settings.ofMap [] = .ok Loading.sampleContext.workspace.settings ∧
      (∀ n ∈ Loading.sampleLoading.graph.nodes,
        n.IsRead Loading.sampleContext.workspace.settings) ∧
      Loading.sampleLoading.graph.resolve = (.ok nodes, settled) ∧
      ∃ node ∈ Loading.sampleLoading.graph.nodes, ∃ file,
        node.linkedFile? Loading.sampleContext.workspace.settings.dirs = some file ∧
        ∃ closure recipes recipe, settled.dependenciesOf node.target = (.ok closure, settled) ∧
          node.recipes Loading.sampleContext.workspace.settings.dirs closure = .ok recipes ∧
          recipe ∈ recipes ∧ recipe.target = file.fullPath ∧
          LinksExactly Loading.sampleLoading.graph
            Loading.sampleContext.workspace.settings.dirs node recipe := by
  have hsettings : Settings.ofMap [] = .ok Loading.sampleContext.workspace.settings := rfl
  refine ⟨_, _, hsettings, isRead_sample, rfl, _, List.mem_cons_self, _, rfl, ?_⟩
  exact links_exactly hsettings isRead_sample rfl _ List.mem_cons_self _ rfl

end Node

end Makewright
