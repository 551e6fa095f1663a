import Makewright.Proofs.Generation.Rendering
import Makewright.Proofs.Node.LinkFiles

/-!
# What is handed along paths of dependencies

What a node hands to the link command of a dependent, described by the paths that it takes. A node
passes on what lies behind it by its kind and by the tag of the entry, so an entry is handed on
exactly along the paths whose nodes all pass it (`mem_handed_iff`). The link inputs of a node are
then the files that it is linked with (`mem_entries_linkInputs`): objects come through libraries,
and shared libraries come through libraries and shared libraries.
-/

set_option autoImplicit false

namespace Makewright

open Relation

variable {g settled : Graph} {dirs : GeneratedDirs} {node : Node} {nodes closure : List Node}
  {index : NodeIndex} {language tag : Language} {r : Resource}

/-! ## Paths through nodes -/

namespace Node

/-- The node is a library. -/
def IsLibrary (node : Node) : Prop :=
  ∃ c, node.body = .library c

/-- The node is a shared library. -/
def IsShared (node : Node) : Prop :=
  ∃ c spec, node.body = .sharedLibrary c spec

/-- The node lists another one of the graph as a dependency. -/
def Lists (g : Graph) (a b : Node) : Prop :=
  b ∈ g.nodes ∧ b.target ∈ a.dependencies

/-- There is a path of one or more dependencies from one node to another, and all nodes between the
two have some property. -/
def ReachesThrough (g : Graph) (via : Node → Prop) (a b : Node) : Prop :=
  ∃ first, Lists g a first ∧ ReflTransGen (fun x y => via x ∧ Lists g x y) first b

/-- The source is compiled for the link of a node: it is one of its own sources or one of a library
that the node reaches through libraries. -/
def LinksSource (g : Graph) (node : Node) (source : Resource) : Prop :=
  ∃ next c, (next = node ∨ next.IsLibrary ∧ ReachesThrough g IsLibrary node next) ∧
    next.body.compilation? = some c ∧ source ∈ c.sources

/-- The node is linked against a shared library, which it reaches through libraries and shared
libraries. -/
def LinksShared (g : Graph) (node next : Node) : Prop :=
  next.IsShared ∧ ReachesThrough g (fun n => n.IsLibrary ∨ n.IsShared) node next

/-! ## What nodes pass on -/

/-- A node of a standard kind passes what its dependencies hand on with some tag. -/
def Passes (tag : Language) (node : Node) : Prop :=
  match node.body with
  | .library _ => True
  | .sharedLibrary .. => tag = .none
  | .binary _ | .autoconf _ | .listing _ => False

/-- What a node hands on without its dependencies. -/
def ownHanded (dirs : GeneratedDirs) (language : Language) (node : Node) :
    List (Resource × Language) :=
  match node.body with
  | .library c => ownObjects dirs language c
  | .sharedLibrary _ spec => [(spec.linkName dirs node.target, .none)]
  | .binary _ | .autoconf _ | .listing _ => []

/-- What is looked up in the index is a node of the graph with that target. -/
def Indexes (g : Graph) (index : NodeIndex) : Prop :=
  ∀ t next, index t = some next → next ∈ g.nodes ∧ next.target = t

/-- What is looked up in a closure is a node of the graph. -/
theorem indexes_indexOf {t : Target} (h : g.IsClosure t closure) :
    Indexes g (indexOf closure) := by
  intro u next hnext
  exact ⟨h.subset (List.mem_of_find?_eq_some hnext), by simpa using List.find?_some hnext⟩

theorem mem_handedBelow {handed : Node → List (Resource × Language)} {ds : List Target}
    {entry : Resource × Language} :
    entry ∈ handedBelow index handed ds ↔
      ∃ d ∈ ds, ∃ next, index d = some next ∧ entry ∈ handed next := by
  rw [handedBelow, List.mem_flatMap]
  constructor
  · rintro ⟨d, hd, hentry⟩
    cases hnext : index d with
    | none => simp [hnext] at hentry
    | some next => exact ⟨d, hd, next, hnext, by simpa [hnext] using hentry⟩
  · rintro ⟨d, hd, next, hnext, hentry⟩
    exact ⟨d, hd, by simpa [hnext] using hentry⟩

theorem linkName_eq (dirs : GeneratedDirs) (target : Target) (spec : SharedSpec) :
    spec.linkName dirs target = target.generated dirs.pkgfileDir (SharedSpec.baseName target) := by
  unfold SharedSpec.linkName SharedSpec.aliases SharedSpec.linked SharedSpec.linkedName
  cases spec.version with
  | none => rfl
  | some v => rfl

/-- The objects with a tag are those of the sources in that language, if the sources are tagged. -/
theorem mem_objects_entries {c : Compilation} (hsources : c.sources.IsTagged) :
    (r, tag) ∈ (c.objects dirs).entries ↔ ∃ source ∈ c.sources,
      Language.ofSource? source.path = some tag ∧ r = Compilation.objectFor dirs source := by
  have hlinkFiles : ∀ e ∈ c.sources.entries.map fun entry =>
      (Compilation.objectFor dirs entry.1, entry.2), IsLinkFile dirs e.1 e.2 := by
    intro e he
    obtain ⟨entry, hentry, rfl⟩ := List.mem_map.1 he
    exact .object (hsources.ofSource? hentry)
  have hempty : ∀ e ∈ FileSet.empty.entries, IsLinkFile dirs e.1 e.2 :=
    fun e he => absurd he List.not_mem_nil
  -- no two tags come with one object, so the set keeps every entry
  have hentries : (r, tag) ∈ (c.objects dirs).entries ↔
      (r, tag) ∈ FileSet.empty.entries ∨ (r, tag) ∈ c.sources.entries.map fun entry =>
        (Compilation.objectFor dirs entry.1, entry.2) :=
    FileSet.mem_entries_insertAll (isFunctional_isLinkFile dirs) hempty hlinkFiles
  rw [hentries]
  constructor
  · rintro (hnone | hmem)
    · exact absurd hnone List.not_mem_nil
    · obtain ⟨⟨source, tag'⟩, hsource, heq⟩ := List.mem_map.1 hmem
      cases heq
      have hmem : source ∈ c.sources := List.mem_map_of_mem (f := Prod.fst) hsource
      exact ⟨source, hmem, hsources.ofSource? hsource, rfl⟩
  · rintro ⟨source, hsource, htag, rfl⟩
    obtain ⟨⟨source, tag'⟩, hentry, rfl⟩ := List.mem_map.1 hsource
    obtain rfl := Option.some.inj ((hsources.ofSource? hentry).symm.trans htag)
    exact Or.inr (List.mem_map.2 ⟨(source, tag'), hentry, rfl⟩)

theorem mem_ownObjects {c : Compilation} :
    (r, tag) ∈ ownObjects dirs language c ↔
      tag = language ∧ (r, language) ∈ (c.objects dirs).entries := by
  rw [ownObjects, List.mem_map]
  constructor
  · rintro ⟨object, hobject, heq⟩
    cases heq
    exact ⟨rfl, FileSet.mem_withTag.1 hobject⟩
  · rintro ⟨rfl, hobject⟩
    exact ⟨r, FileSet.mem_withTag.2 hobject, rfl⟩

/-- What a node hands on as its own are link inputs. -/
theorem isLinkFile_of_mem_ownHanded (hnode : node.WellRead)
    (h : (r, tag) ∈ ownHanded dirs language node) : IsLinkFile dirs r tag := by
  unfold ownHanded at h
  cases hnode with
  | library hbody hsources =>
    rw [hbody] at h
    obtain ⟨rfl, hobject⟩ := mem_ownObjects.1 h
    obtain ⟨source, -, htag, rfl⟩ := (mem_objects_entries hsources).1 hobject
    exact .object htag
  | binary hbody _ =>
    rw [hbody] at h
    exact absurd h List.not_mem_nil
  | @sharedLibrary c spec hbody _ =>
    rw [hbody] at h
    cases List.mem_singleton.1 h
    rw [linkName_eq]
    exact .shared node.target
  | autoconf hbody =>
    rw [hbody] at h
    exact absurd h List.not_mem_nil

/-- One step of the recursion: a node hands on its own entries and passes those that lie behind
it. -/
theorem mem_handed_succ {fuel : Nat} (hnode : node.WellRead)
    (hbelow : ∀ e ∈ handedBelow index (handed dirs index language fuel) node.dependencies,
      IsLinkFile dirs e.1 e.2) :
    (r, tag) ∈ handed dirs index language (fuel + 1) node ↔
      (r, tag) ∈ ownHanded dirs language node ∨ node.Passes tag ∧
        (r, tag) ∈ handedBelow index (handed dirs index language fuel) node.dependencies := by
  rw [handed]
  unfold ownHanded Passes
  cases hnode with
  | library hbody _ => simp [hbody]
  | binary hbody _ => simp [hbody]
  | sharedLibrary hbody _ =>
    -- the tags of what is inherited survive in the set, as no resource comes with two of them
    have hempty : ∀ e ∈ FileSet.empty.entries, IsLinkFile dirs e.1 e.2 :=
      fun e he => absurd he List.not_mem_nil
    have hinherited : (r, tag) ∈ (FileSet.empty.insertAll
        (handedBelow index (handed dirs index language fuel) node.dependencies)).entries ↔ _ :=
      FileSet.mem_entries_insertAll (isFunctional_isLinkFile dirs) hempty hbelow
    simp only [hbody, List.mem_cons, List.mem_filter, hinherited]
    simp [FileSet.empty, and_comm]
  | autoconf hbody => simp [hbody]

/-- Whatever a node hands on is a link input. -/
theorem isLinkFile_of_mem_handed (hg : ∀ n ∈ g.nodes, n.WellRead) (hindex : Indexes g index)
    {fuel : Nat} (hnode : node.WellRead) {entry : Resource × Language}
    (h : entry ∈ handed dirs index language fuel node) : IsLinkFile dirs entry.1 entry.2 := by
  induction fuel generalizing node entry with
  | zero => exact absurd h List.not_mem_nil
  | succ fuel ih =>
    have hbelow : ∀ e ∈ handedBelow index (handed dirs index language fuel) node.dependencies,
        IsLinkFile dirs e.1 e.2 := by
      intro e he
      obtain ⟨d, -, next, hnext, he⟩ := mem_handedBelow.1 he
      exact ih (hg next (hindex d next hnext).1) he
    rcases (mem_handed_succ hnode hbelow).1 h with hown | ⟨-, hpassed⟩
    · exact isLinkFile_of_mem_ownHanded hnode hown
    · exact hbelow entry hpassed

/-- With enough fuel, an entry is handed on exactly along the paths whose nodes all pass it. -/
theorem mem_handed_iff (hg : ∀ n ∈ g.nodes, n.WellRead) (hindex : Indexes g index) {fuel : Nat}
    (hsupplied : Supplied index fuel node) (hnode : node.WellRead) :
    (r, tag) ∈ handed dirs index language fuel node ↔
      ∃ next, ReflTransGen (fun x y => x.Passes tag ∧ Lists g x y) node next ∧
        (r, tag) ∈ ownHanded dirs language next := by
  -- the paths are as long as the fuel lasts, and it lasts for all of them
  induction fuel generalizing node with
  | zero => exact absurd hsupplied id
  | succ fuel ih =>
    have hbelow : ∀ e ∈ handedBelow index (handed dirs index language fuel) node.dependencies,
        IsLinkFile dirs e.1 e.2 := by
      intro e he
      obtain ⟨d, -, next, hnext, he⟩ := mem_handedBelow.1 he
      exact isLinkFile_of_mem_handed hg hindex (hg next (hindex d next hnext).1) he
    rw [mem_handed_succ hnode hbelow, mem_handedBelow]
    constructor
    · rintro (hown | ⟨hpasses, d, hd, first, hfirst, hentry⟩)
      · exact ⟨node, .refl, hown⟩
      · obtain ⟨hmem, rfl⟩ := hindex d first hfirst
        obtain ⟨found, hfound, hsuppliedFound⟩ := hsupplied first.target hd
        rw [hfirst, Option.some.injEq] at hfound
        subst hfound
        obtain ⟨next, hpath, hown⟩ := (ih hsuppliedFound (hg first hmem)).1 hentry
        exact ⟨next, .head ⟨hpasses, hmem, hd⟩ hpath, hown⟩
    · rintro ⟨next, hpath, hown⟩
      rcases ReflTransGen.cases_head_iff.1 hpath with rfl | ⟨first, ⟨hpasses, hmem, hd⟩, hpath⟩
      · exact Or.inl hown
      · obtain ⟨found, hfound, hsuppliedFound⟩ := hsupplied first.target hd
        obtain ⟨hfoundMem, htarget⟩ := hindex _ found hfound
        obtain rfl := Graph.eq_of_target_eq hfoundMem hmem htarget
        refine Or.inr ⟨hpasses, _, hd, found, hfound, ?_⟩
        exact (ih hsuppliedFound (hg found hmem)).2 ⟨next, hpath, hown⟩

theorem passes_iff (htag : tag ≠ .none) : node.Passes tag ↔ node.IsLibrary := by
  unfold Passes IsLibrary
  cases node.body <;> simp [htag]

theorem passes_none_iff : node.Passes .none ↔ node.IsLibrary ∨ node.IsShared := by
  unfold Passes IsLibrary IsShared
  cases node.body <;> simp

/-- Seen as a library, a node hands on its own objects and what comes along the paths from it. -/
theorem mem_handed_asLibrary (hg : ∀ n ∈ g.nodes, n.WellRead) (hindex : Indexes g index)
    {fuel : Nat} {c : Compilation} (hsupplied : Supplied index fuel (node.asLibrary c))
    (hsources : c.sources.IsTagged) :
    (r, tag) ∈ handed dirs index language fuel (node.asLibrary c) ↔
      (r, tag) ∈ ownObjects dirs language c ∨
        ∃ next, ReachesThrough g (Passes tag) node next ∧
          (r, tag) ∈ ownHanded dirs language next := by
  rw [mem_handed_iff hg hindex hsupplied (.library rfl hsources)]
  constructor
  · rintro ⟨next, hpath, hown⟩
    rcases ReflTransGen.cases_head_iff.1 hpath with rfl | ⟨first, ⟨-, hfirst⟩, hpath⟩
    · exact Or.inl hown
    · exact Or.inr ⟨next, ⟨first, hfirst, hpath⟩, hown⟩
  · rintro (hown | ⟨next, ⟨first, hfirst, hpath⟩, hown⟩)
    · exact ⟨node.asLibrary c, .refl, hown⟩
    · exact ⟨next, .head ⟨trivial, hfirst⟩ hpath, hown⟩

theorem ReachesThrough.congr {via via' : Node → Prop} (h : ∀ n, via n ↔ via' n) {a b : Node} :
    ReachesThrough g via a b ↔ ReachesThrough g via' a b := by
  rw [funext fun n => propext (h n)]

theorem ReachesThrough.mem {via : Node → Prop} {a b : Node} (h : ReachesThrough g via a b) :
    b ∈ g.nodes := by
  obtain ⟨first, hfirst, hpath⟩ := h
  cases hpath with
  | refl => exact hfirst.1
  | tail _ hlast => exact hlast.2.1

/-- Only libraries hand on objects of their own. -/
theorem mem_ownHanded_object (htag : tag ≠ .none) :
    (r, tag) ∈ ownHanded dirs language node ↔
      ∃ c, node.body = .library c ∧ (r, tag) ∈ ownObjects dirs language c := by
  unfold ownHanded
  cases node.body <;> simp [htag]

/-- Only shared libraries hand on files that are no objects: themselves, under their names without
a version. -/
theorem mem_ownHanded_shared (hlanguage : language ≠ .none) :
    (r, .none) ∈ ownHanded dirs language node ↔
      node.IsShared ∧
        r = node.target.generated dirs.pkgfileDir (SharedSpec.baseName node.target) := by
  unfold ownHanded IsShared
  cases node.body with
  | library c => simp [mem_ownObjects, hlanguage.symm]
  | sharedLibrary c spec => simp [linkName_eq]
  | binary c => simp
  | autoconf spec => simp
  | listing prerequisites => simp

/-- The objects that a node takes in, in one language, are those of the sources in that language
that are compiled for its link. -/
theorem mem_handed_object (hg : ∀ n ∈ g.nodes, n.WellRead) (hindex : Indexes g index)
    {fuel : Nat} {c : Compilation} (hsupplied : Supplied index fuel (node.asLibrary c))
    (hnode : node.WellRead) (hc : node.body.compilation? = some c) (htag : tag ≠ .none) :
    (r, tag) ∈ handed dirs index language fuel (node.asLibrary c) ↔
      tag = language ∧ ∃ source, LinksSource g node source ∧
        Language.ofSource? source.path = some tag ∧ r = Compilation.objectFor dirs source := by
  have hsources := hnode.isTagged hc
  rw [mem_handed_asLibrary hg hindex hsupplied hsources, mem_ownObjects]
  constructor
  · rintro (⟨rfl, hobject⟩ | ⟨next, hpath, hown⟩)
    · obtain ⟨source, hsource, hlanguage, rfl⟩ := (mem_objects_entries hsources).1 hobject
      exact ⟨rfl, source, ⟨node, c, Or.inl rfl, hc, hsource⟩, hlanguage, rfl⟩
    · obtain ⟨c', hbody, hobject⟩ := (mem_ownHanded_object htag).1 hown
      obtain ⟨rfl, hobject⟩ := mem_ownObjects.1 hobject
      have hc' : next.body.compilation? = some c' := by
        rw [hbody]
        rfl
      have htagged := (hg next hpath.mem).isTagged hc'
      obtain ⟨source, hsource, hlanguage, rfl⟩ := (mem_objects_entries htagged).1 hobject
      have hlibraries := (ReachesThrough.congr fun n => passes_iff htag).1 hpath
      refine ⟨rfl, source, ⟨next, c', ?_, hc', hsource⟩, hlanguage, rfl⟩
      exact Or.inr ⟨⟨c', hbody⟩, hlibraries⟩
  · rintro ⟨rfl, source, ⟨next, c', hnext, hc', hsource⟩, hlanguage, rfl⟩
    -- a source of the binary itself, and one of a library that it reaches through libraries
    rcases hnext with rfl | ⟨⟨c'', hbody⟩, hpath⟩
    · obtain rfl := Option.some.inj (hc.symm.trans hc')
      exact Or.inl ⟨rfl, (mem_objects_entries hsources).2 ⟨source, hsource, hlanguage, rfl⟩⟩
    · have htagged := (hg next hpath.mem).isTagged hc'
      have hobject : (Compilation.objectFor dirs source, tag) ∈ (c'.objects dirs).entries :=
        (mem_objects_entries htagged).2 ⟨source, hsource, hlanguage, rfl⟩
      rw [hbody] at hc'
      obtain rfl := Option.some.inj hc'
      refine Or.inr ⟨next, (ReachesThrough.congr fun n => passes_iff htag).2 hpath, ?_⟩
      exact (mem_ownHanded_object htag).2 ⟨c'', hbody, mem_ownObjects.2 ⟨rfl, hobject⟩⟩

/-- The other files that a node takes in are the shared libraries that it is linked against. -/
theorem mem_handed_shared (hg : ∀ n ∈ g.nodes, n.WellRead) (hindex : Indexes g index)
    {fuel : Nat} {c : Compilation} (hsupplied : Supplied index fuel (node.asLibrary c))
    (hsources : c.sources.IsTagged) (hlanguage : language ≠ .none) :
    (r, .none) ∈ handed dirs index language fuel (node.asLibrary c) ↔
      ∃ next, LinksShared g node next ∧
        r = next.target.generated dirs.pkgfileDir (SharedSpec.baseName next.target) := by
  rw [mem_handed_asLibrary hg hindex hsupplied hsources, mem_ownObjects]
  constructor
  · rintro (⟨hnone, -⟩ | ⟨next, hpath, hown⟩)
    · exact absurd hnone.symm hlanguage
    · obtain ⟨hshared, rfl⟩ := (mem_ownHanded_shared hlanguage).1 hown
      exact ⟨next, ⟨hshared, (ReachesThrough.congr fun n => passes_none_iff).1 hpath⟩, rfl⟩
  · rintro ⟨next, ⟨hshared, hpath⟩, rfl⟩
    refine Or.inr ⟨next, (ReachesThrough.congr fun n => passes_none_iff).2 hpath, ?_⟩
    exact (mem_ownHanded_shared hlanguage).2 ⟨hshared, rfl⟩

/-! ## The inputs of a link command -/

/-- The objects and the shared libraries that a node is linked with. -/
def LinkedWith (g : Graph) (dirs : GeneratedDirs) (node : Node) (r : Resource) (tag : Language) :
    Prop :=
  (∃ source, LinksSource g node source ∧ Language.ofSource? source.path = some tag ∧
    r = Compilation.objectFor dirs source) ∨
  ∃ next, LinksShared g node next ∧ tag = .none ∧
    r = next.target.generated dirs.pkgfileDir (SharedSpec.baseName next.target)

theorem LinkedWith.isLinkFile (h : LinkedWith g dirs node r tag) : IsLinkFile dirs r tag := by
  rcases h with ⟨source, -, htag, rfl⟩ | ⟨next, -, rfl, rfl⟩
  · exact .object htag
  · exact .shared next.target

theorem ofSource?_ne_none (path : String) : Language.ofSource? path ≠ some .none := by
  unfold Language.ofSource?
  split <;> simp

/-- Going through the dependencies for C and for C++ gives all files that the node is linked
with. -/
theorem linkedWith_iff (hg : ∀ n ∈ g.nodes, n.WellRead) (hindex : Indexes g index) {fuel : Nat}
    {c : Compilation} (hsupplied : Supplied index fuel (node.asLibrary c))
    (hnode : node.WellRead) (hc : node.body.compilation? = some c) :
    LinkedWith g dirs node r tag ↔
      (r, tag) ∈ handed dirs index .c fuel (node.asLibrary c) ∨
        (r, tag) ∈ handed dirs index .cxx fuel (node.asLibrary c) := by
  unfold LinkedWith
  cases tag with
  | none =>
    rw [mem_handed_shared hg hindex hsupplied (hnode.isTagged hc) (by decide),
      mem_handed_shared hg hindex hsupplied (hnode.isTagged hc) (by decide), or_self]
    simp [ofSource?_ne_none]
  | c =>
    rw [mem_handed_object hg hindex hsupplied hnode hc (by decide),
      mem_handed_object hg hindex hsupplied hnode hc (by decide)]
    simp
  | cxx =>
    rw [mem_handed_object hg hindex hsupplied hnode hc (by decide),
      mem_handed_object hg hindex hsupplied hnode hc (by decide)]
    simp

/-- The entries of the link inputs are exactly the files that the node is linked with. -/
theorem mem_entries_linkInputs (hg : ∀ n ∈ g.nodes, n.WellRead) (hnode : node ∈ g.nodes)
    (hclosure : g.IsClosure node.target closure) {c : Compilation}
    (hc : node.body.compilation? = some c) {inputs : FileSet}
    (hinputs : linkInputs dirs node c closure = .ok inputs) :
    (r, tag) ∈ inputs.entries ↔ LinkedWith g dirs node r tag := by
  have hserves := hclosure.serves hnode
  have hindex : Indexes g (indexOf closure) := indexes_indexOf hclosure
  have hlinkFiles : ∀ language, ∀ e ∈ handed dirs (indexOf closure) language (closure.length + 1)
      (node.asLibrary c), IsLinkFile dirs e.1 e.2 :=
    fun language e he => isLinkFile_of_mem_handed hg hindex ((hg node hnode).asLibrary hc) he
  have hempty : ∀ e ∈ FileSet.empty.entries, IsLinkFile dirs e.1 e.2 :=
    fun e he => absurd he List.not_mem_nil
  have hfirst : ∀ e ∈ (FileSet.empty.insertAll (handed dirs (indexOf closure) .c
      (closure.length + 1) (node.asLibrary c))).entries, IsLinkFile dirs e.1 e.2 := by
    intro e he
    rcases FileSet.mem_of_mem_entries_insertAll he with hnone | hmem
    · exact hempty e hnone
    · exact hlinkFiles .c e hmem
  rw [linkInputs_eq hserves, Except.ok.injEq] at hinputs
  rw [← hinputs, FileSet.mem_entries_insertAll (isFunctional_isLinkFile dirs) hfirst
      (hlinkFiles .cxx), FileSet.mem_entries_insertAll (isFunctional_isLinkFile dirs) hempty
      (hlinkFiles .c)]
  rw [linkedWith_iff hg hindex (hserves.asLibrary c).supplied (hg node hnode) hc]
  simp [FileSet.empty]

end Node

end Makewright
