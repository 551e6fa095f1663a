import Makewright.Proofs.Generation.Linking
import Makewright.Proofs.Graph.LinkOrder

/-!
# The order of a link command

The inputs of a link command stand in the order in which the walks for C and for C++ come to them.
So the objects of C++ sources stand behind every shared library, and an object of a C source or a
shared library stands in front of a shared library that it depends on exactly if the walk for C is
not overtaken on the way to it (`links_in_order`).
-/

set_option autoImplicit false

namespace Makewright

variable {g settled : Graph} {dirs : GeneratedDirs} {node : Node} {nodes closure : List Node}
  {r : Resource} {tag : Language}

namespace Node

/-- The file is an input of the link of a node that belongs to the node `next`: the object of a
source of the node itself or of a library that it reaches through libraries, or the name of a shared
library that it reaches through libraries and shared libraries. -/
def Contributes (g : Graph) (dirs : GeneratedDirs) (node next : Node) (r : Resource)
    (tag : Language) : Prop :=
  next.Yields dirs r tag ∧
    (next = node ∧ tag ≠ .none ∨ ReachesThrough g (Passes tag) node next ∧ next.Passes tag)

/-- The order of the inputs in a recipe that links a node. Objects of C++ sources stand behind all
shared libraries. Any other input of a node stands in front of a shared library that this node
depends on exactly if it is an object of the linked node itself, or the walk to it is not overtaken
by the shared library. -/
structure LinksInOrder (g : Graph) (dirs : GeneratedDirs) (node : Node) (recipe : Recipe) :
    Prop where
  cxx_last : ∀ next shared r, Contributes g dirs node next r .cxx → LinksShared g node shared →
    [shared.sharedName dirs, r].Sublist recipe.inputs
  before_iff : ∀ next shared r tag, Contributes g dirs node next r tag → tag ≠ .cxx →
    LinksShared g next shared → r ≠ shared.sharedName dirs →
    LinksShared g node shared ∧ ([r, shared.sharedName dirs].Sublist recipe.inputs ↔
      tag = .c ∧ node.Yields dirs r .c ∨
        ¬ Overtaken g dirs r tag shared node.dependencies)

/-- What a node depends on that is linked is linked as well. -/
theorem LinksShared.of_contributes {next shared : Node}
    (hnext : Contributes g dirs node next r tag) (h : LinksShared g next shared) :
    LinksShared g node shared := by
  rcases hnext.2 with ⟨rfl, -⟩ | ⟨⟨first, hfirst, hpath⟩, hpasses⟩
  · exact h
  · obtain ⟨hshared, after, hafter, hrest⟩ := h
    have hstep : ∀ x y, x.Passes tag ∧ Lists g x y → (x.IsLibrary ∨ x.IsShared) ∧ Lists g x y :=
      fun x y hxy => ⟨passes_none_iff.1 hxy.1.none, hxy.2⟩
    have hfront := Relation.ReflTransGen.mono hstep _ _ hpath
    exact ⟨hshared, first, hfirst, hfront.trans (.head (hstep next after ⟨hpasses, hafter⟩) hrest)⟩

/-- What the dependencies of a node contribute is handed on by one of them. -/
theorem Contributes.exists_handsOn {next : Node} (h : Contributes g dirs node next r tag) :
    next = node ∧ tag ≠ .none ∨
      ∃ d ∈ g.nodes, d.target ∈ node.dependencies ∧ d.HandsOn g dirs r tag := by
  obtain ⟨hyields, hself | ⟨⟨first, ⟨hmem, hlisted⟩, hpath⟩, hpasses⟩⟩ := h
  · exact Or.inl hself
  · exact Or.inr ⟨first, hmem, hlisted, next, hpath, hpasses, hyields⟩

/-- An object of another node that is not in C++, or the name of a shared library, is handed on by a
dependency. -/
theorem Contributes.exists_dependency {next : Node} (h : Contributes g dirs node next r tag)
    (htag : tag ≠ .cxx) (hown : ¬ (tag = .c ∧ node.Yields dirs r .c)) :
    ∃ d ∈ g.nodes, d.target ∈ node.dependencies ∧ d.HandsOn g dirs r tag := by
  rcases h.exists_handsOn with ⟨rfl, hobject⟩ | hfrom
  · refine absurd ?_ hown
    cases tag with
    | c => exact ⟨rfl, h.1⟩
    | cxx => exact absurd rfl htag
    | none => exact absurd rfl hobject
  · exact hfrom

/-- What belongs to some node among the inputs of a link is linked. -/
theorem Contributes.linkedWith {next : Node} (h : Contributes g dirs node next r tag) :
    LinkedWith g dirs node r tag := by
  obtain ⟨⟨c, source, hc, hsource, htag, hobject⟩ | ⟨hshared, rfl, hname⟩, hwhere⟩ := h
  · have hne : tag ≠ .none := fun h => ofSource?_ne_none _ (h ▸ htag)
    refine Or.inl ⟨source, ⟨next, c, ?_, hc, hsource⟩, htag, hobject⟩
    rcases hwhere with ⟨hself, -⟩ | ⟨hpath, hpasses⟩
    · exact Or.inl hself
    · exact Or.inr ⟨(passes_iff hne).1 hpasses, (ReachesThrough.congr fun n => passes_iff hne).1 hpath⟩
  · obtain ⟨-, hne⟩ | ⟨hpath, -⟩ := hwhere
    · exact absurd rfl hne
    · exact Or.inr ⟨next, ⟨hshared, (ReachesThrough.congr fun n => passes_none_iff).1 hpath⟩, rfl,
        hname⟩

/-- The entries of the link inputs are those that the two walks come to, each at its first
appearance. -/
theorem entries_linkInputs (hg : ∀ n ∈ g.nodes, n.WellRead) (hnode : node ∈ g.nodes)
    (hclosure : g.IsClosure node.target closure) {c : Compilation}
    (hc : node.body.compilation? = some c) {inputs : FileSet}
    (hinputs : linkInputs dirs node c closure = .ok inputs) :
    inputs.entries = distinct
      (handed dirs (indexOf closure) .c (closure.length + 1) (node.asLibrary c) ++
        handed dirs (indexOf closure) .cxx (closure.length + 1) (node.asLibrary c)) := by
  have hlibrary : (node.asLibrary c).WellRead := (hg node hnode).asLibrary hc
  rw [linkInputs_eq (hclosure.serves hnode), Except.ok.injEq, ← FileSet.insertAll_append]
    at hinputs
  rw [← hinputs]
  refine FileSet.entries_insertAll (isFunctional_isLinkFile dirs)
    (fun e he => absurd he List.not_mem_nil) fun e he => ?_
  rcases List.mem_append.1 he with hcWalk | hcxxWalk
  · exact isLinkFile_of_mem_handed hg (indexes_indexOf hclosure) hlibrary hcWalk
  · exact isLinkFile_of_mem_handed hg (indexes_indexOf hclosure) hlibrary hcxxWalk

/-- What the walk for C comes to first stands in front. -/
theorem sublist_of_meetsFirst (hg : ∀ n ∈ g.nodes, n.WellRead) (hnode : node ∈ g.nodes)
    (hclosure : g.IsClosure node.target closure) {c : Compilation}
    (hc : node.body.compilation? = some c) {inputs : FileSet}
    (hinputs : linkInputs dirs node c closure = .ok inputs) {a b : Resource × Language}
    (hb : b ∈ inputs.entries) (hne : a ≠ b)
    (hmeets : MeetsFirst
      (handed dirs (indexOf closure) .c (closure.length + 1) (node.asLibrary c)) a b) :
    [a.1, b.1].Sublist inputs.toList := by
  have hfirst : MeetsFirst inputs.entries a b := by
    rw [entries_linkInputs hg hnode hclosure hc hinputs]
    exact (hmeets.append_right _).distinct
  exact (hfirst.sublist hb hne).map Prod.fst

/-- A recipe that takes in the link inputs takes them in in order. -/
theorem linksInOrder_of_linkInputs (hg : ∀ n ∈ g.nodes, n.WellRead) (hnode : node ∈ g.nodes)
    (hclosure : g.IsClosure node.target closure) {c : Compilation}
    (hc : node.body.compilation? = some c) {inputs : FileSet}
    (hinputs : linkInputs dirs node c closure = .ok inputs) {recipe : Recipe}
    (hrecipe : recipe.inputs = inputs.toList) : LinksInOrder g dirs node recipe := by
  have hmem : ∀ {r tag}, LinkedWith g dirs node r tag → (r, tag) ∈ inputs.entries :=
    fun h => (mem_entries_linkInputs hg hnode hclosure hc hinputs).2 h
  have hbefore : ∀ {a b}, b ∈ inputs.entries → a ≠ b →
      MeetsFirst (handed dirs (indexOf closure) .c (closure.length + 1) (node.asLibrary c)) a b →
      [a.1, b.1].Sublist recipe.inputs :=
    fun hb hne hmeets => hrecipe ▸ sublist_of_meetsFirst hg hnode hclosure hc hinputs hb hne hmeets
  have hsupplied := ((hclosure.serves hnode).asLibrary c).supplied
  have hindex : Indexes g (indexOf closure) := indexes_indexOf hclosure
  have hwellRead := hg node hnode
  constructor
  · intro next shared r hnext hshared
    -- the walk for C comes to every shared library and to no object of a C++ source
    refine hbefore (a := (shared.sharedName dirs, .none)) (hmem hnext.linkedWith) (by simp)
      (.of_mem ?_ ?_)
    · exact (mem_handed_shared hg hindex hsupplied (hwellRead.isTagged hc) (by decide)).2
        ⟨shared, hshared, rfl⟩
    · rw [mem_handed_object hg hindex hsupplied hwellRead hc (by decide)]
      rintro ⟨htag, -⟩
      cases htag
  · intro next shared r tag hnext htag hdepends hne
    have hshared : LinksShared g node shared := .of_contributes hnext hdepends
    have hname : (shared.sharedName dirs, .none) ∈ inputs.entries :=
      hmem (Or.inr ⟨shared, hshared, rfl, rfl⟩)
    have hpair : (r, tag) ≠ (shared.sharedName dirs, .none) := fun h => hne (congrArg Prod.fst h)
    refine ⟨hshared, ?_⟩
    by_cases hown : tag = .c ∧ node.Yields dirs r .c
    · refine iff_of_true (hbefore hname hpair (meetsFirst_handed_own ?_)) (Or.inl hown)
      exact meetsFirst_ownHanded ((mem_ownObjects_iff hwellRead hc).2 hown)
    · -- the file comes from a dependency, so the order of the dependencies decides
      have hfrom := hnext.exists_dependency htag hown
      have hall : SuppliedAll (indexOf closure) closure.length node.dependencies := hsupplied
      rw [or_iff_right hown]
      constructor
      · intro hsublist hovertaken
        refine not_sublist_of_nodup (hrecipe ▸ inputs.nodup) hsublist ?_
        refine hbefore (hmem hnext.linkedWith) hpair.symm ?_
        refine (hovertaken.meetsFirst hg hindex htag hall).append_left ?_
        exact fun hmem => hown ((mem_ownObjects_iff hwellRead hc).1 hmem)
      · intro hovertaken
        refine hbefore hname hpair ?_
        refine (meetsFirst_handedBelow hg hindex htag hall hfrom hovertaken).append_left ?_
        intro hmem
        cases (mem_ownObjects.1 hmem).1

/-- In a graph that resolves, whose nodes have been read, every executable and every shared library
has a rule that links exactly what belongs to it. Among its inputs, the objects of C++ sources stand
behind all shared libraries, and any other file of a node stands in front of a shared library that
this node depends on exactly if the shared library does not overtake it. -/
theorem links_in_order {data : List (Value × Value)} {settings : Settings}
    (hsettings : Settings.ofMap data = .ok settings)
    (hread : ∀ n ∈ g.nodes, n.IsRead settings) (hresolve : g.resolve = (.ok nodes, settled)) :
    ∀ node ∈ g.nodes, ∀ file, node.linkedFile? settings.dirs = some file →
      ∃ closure recipes recipe, settled.dependenciesOf node.target = (.ok closure, settled) ∧
        node.recipes settings.dirs closure = .ok recipes ∧ recipe ∈ recipes ∧
        recipe.target = file.fullPath ∧ LinksExactly g settings.dirs node recipe ∧
        LinksInOrder g settings.dirs node recipe := by
  intro node hnode file hfile
  have hg : ∀ n ∈ g.nodes, n.WellRead := fun n hn => (hread n hn).wellRead
  obtain ⟨hobjects, hpackages⟩ := Settings.isAbsolute_dirs hsettings
  obtain ⟨closure, recipes, recipe, c, inputs, words, hanswer, hclosure, hrecipes, hmem, htarget,
    hc, hinputs, hrecipe, hlines⟩ := exists_linkRecipe hresolve hnode hfile
  refine ⟨closure, recipes, recipe, hanswer, hrecipes, hmem, htarget, ?_, ?_⟩
  · exact linksExactly_of_linkInputs hg hnode hclosure hc hinputs hobjects hpackages hrecipe hlines
  · exact linksInOrder_of_linkInputs hg hnode hclosure hc hinputs hrecipe

/-- The executable of the sample is linked in order. -/
theorem links_in_order_sample :
    ∃ nodes settled, Settings.ofMap [] = .ok Loading.sampleContext.workspace.settings ∧
      (∀ n ∈ Loading.sampleLoading.graph.nodes,
        n.IsRead Loading.sampleContext.workspace.settings) ∧
      Loading.sampleLoading.graph.resolve = (.ok nodes, settled) ∧
      ∃ node ∈ Loading.sampleLoading.graph.nodes, ∃ file,
        node.linkedFile? Loading.sampleContext.workspace.settings.dirs = some file ∧
        ∃ closure recipes recipe, settled.dependenciesOf node.target = (.ok closure, settled) ∧
          node.recipes Loading.sampleContext.workspace.settings.dirs closure = .ok recipes ∧
          recipe ∈ recipes ∧ recipe.target = file.fullPath ∧
          LinksExactly Loading.sampleLoading.graph
            Loading.sampleContext.workspace.settings.dirs node recipe ∧
          LinksInOrder Loading.sampleLoading.graph
            Loading.sampleContext.workspace.settings.dirs node recipe := by
  have hsettings : Settings.ofMap [] = .ok Loading.sampleContext.workspace.settings := rfl
  refine ⟨_, _, hsettings, isRead_sample, rfl, _, List.mem_cons_self, _, rfl, ?_⟩
  exact links_in_order hsettings isRead_sample rfl _ List.mem_cons_self _ rfl

/-- An executable with a C++ source that depends on the shared library of the sample. -/
def mixedNode : Node :=
  ⟨⟨"", "sketch"⟩, [⟨"shapes", "area"⟩], [],
    .binary ⟨.ofList [⟨"", "sketch.cc"⟩] .cxx, .empty, [], []⟩, by decide⟩

/-- The sample with that executable. -/
def mixedGraph : Graph :=
  ⟨[mixedNode, Loading.sampleSharedLibrary, Loading.sampleLibrary], by decide, none⟩

/-- The object of the executable stands behind the shared library that it depends on. -/
theorem links_out_of_order :
    ∃ nodes settled closure recipes recipe,
      (∀ n ∈ mixedGraph.nodes, n.IsRead Loading.sampleContext.workspace.settings) ∧
      mixedGraph.resolve = (.ok nodes, settled) ∧
      settled.dependenciesOf mixedNode.target = (.ok closure, settled) ∧
      mixedNode.recipes Loading.sampleContext.workspace.settings.dirs closure = .ok recipes ∧
      recipe ∈ recipes ∧ recipe.target = ".gen-pkg/sketch" ∧ recipe.Calls "$(CXX)" ∧
      Contributes mixedGraph Loading.sampleContext.workspace.settings.dirs mixedNode mixedNode
        ⟨".gen-obj", "sketch.cc.o"⟩ .cxx ∧
      LinksShared mixedGraph mixedNode Loading.sampleSharedLibrary ∧
      ¬ [⟨".gen-obj", "sketch.cc.o"⟩, Loading.sampleSharedLibrary.sharedName
        Loading.sampleContext.workspace.settings.dirs].Sublist recipe.inputs := by
  have hread : ∀ n ∈ mixedGraph.nodes, n.IsRead Loading.sampleContext.workspace.settings := by
    have hsample := List.forall_mem_cons.1 isRead_sample
    refine List.forall_mem_cons.2 ⟨?_, hsample.2⟩
    exact ⟨sampleDescription "cc_binary" ⟨"", "sketch"⟩ "sketch.cc"
      [("dependencies", "//shapes:area")], .binary, _, rfl, rfl, .complete _⟩
  refine ⟨_, _, _, _, _, hread, rfl, rfl, rfl, List.mem_cons_of_mem _ List.mem_cons_self, rfl,
    ⟨_, rfl⟩, ?_, ?_, by decide⟩
  · refine ⟨Or.inl ⟨_, ⟨"", "sketch.cc"⟩, rfl, by decide, rfl, rfl⟩, Or.inl ⟨rfl, by decide⟩⟩
  · exact ⟨⟨_, _, rfl⟩, _, ⟨List.mem_cons_of_mem _ List.mem_cons_self, List.mem_cons_self⟩, .refl⟩

end Node

end Makewright
