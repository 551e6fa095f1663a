import Makewright.Proofs.FileSet
import Makewright.Proofs.Node.Recipes
import Makewright.Proofs.Path
import Makewright.Registry

/-!
# What reading establishes

Settings that have been read name relative directories for generated files. A node that was read
from a description of a standard kind is of that kind, and every source of it is tagged with the
language that its extension names (`IsRead.wellRead`). A path with such an extension ends in a
component that names a file, so the tag of a source can be told from its last component alone.
-/

set_option autoImplicit false

namespace Makewright

variable {settings : Settings} {d : Description} {node : Node}

/-! ## Settings -/

namespace Settings

theorem isAbsolute_directory {entries : List (Value × Value)} {key default directory : String}
    (h : Settings.directory entries key default = .ok directory) :
    Path.isAbsolute directory = false := by
  obtain ⟨value, -, h⟩ := exists_of_bind_eq_ok h
  simp only at h
  split_ifs at h with hrefused
  rw [Except.ok.injEq] at h
  rw [← h]
  simp only [Bool.or_eq_true, not_or, Bool.not_eq_true] at hrefused
  exact hrefused.1

/-- The directories for objects and for packages are relative. -/
theorem isAbsolute_dirs {data : List (Value × Value)} (h : ofMap data = .ok settings) :
    Path.isAbsolute settings.dirs.objectDir = false ∧
      Path.isAbsolute settings.dirs.pkgfileDir = false := by
  obtain ⟨globals, -, h⟩ := exists_of_bind_eq_ok h
  obtain ⟨dirs, hdirs, h⟩ := exists_of_bind_eq_ok h
  obtain ⟨toolchain, -, h⟩ := exists_of_bind_eq_ok h
  cases h
  obtain ⟨entries, -, hdirs⟩ := exists_of_bind_eq_ok hdirs
  obtain ⟨objectDir, hobjects, hdirs⟩ := exists_of_bind_eq_ok hdirs
  obtain ⟨genfileDir, -, hdirs⟩ := exists_of_bind_eq_ok hdirs
  obtain ⟨sourceDir, -, hdirs⟩ := exists_of_bind_eq_ok hdirs
  obtain ⟨pkgfileDir, hpackages, hdirs⟩ := exists_of_bind_eq_ok hdirs
  cases hdirs
  exact ⟨isAbsolute_directory hobjects, isAbsolute_directory hpackages⟩

end Settings

/-! ## Sources and their languages -/

namespace Language

variable {front part : List Char} {tag : Language}

/-- The language of a source depends on its last component only. -/
theorem ofSource?_append (hfront : Path.IsFront front) (hpart : '/' ∉ part) :
    ofSource? (String.ofList (front ++ part)) = ofSource? (String.ofList part) := by
  have hempty : Path.IsFront [] := Or.inl rfl
  have hbasename := Path.basename_append hempty hpart
  rw [List.nil_append] at hbasename
  unfold ofSource? Path.extension
  rw [Path.basename_append hfront hpart, hbasename]

/-- The last component of a source names a file. -/
theorem exists_plain_of_ofSource? {path : String} (h : ofSource? path = some tag) :
    ∃ front part, path = String.ofList (front ++ part) ∧ Path.IsFront front ∧ Path.IsPlain part ∧
      ofSource? (String.ofList part) = some tag := by
  obtain ⟨front, part, hpath, hfront, hpart⟩ := Path.exists_front path.toList
  have hpath' : path = String.ofList (front ++ part) := by
    rw [← hpath, String.ofList_toList]
  have htag : ofSource? (String.ofList part) = some tag := by
    rw [← ofSource?_append hfront hpart, ← hpath', h]
  -- the components that name directories have no extension
  have hne : ∀ directory, ofSource? (String.ofList directory) = Option.none → part ≠ directory := by
    rintro directory hnone rfl
    rw [hnone] at htag
    cases htag
  exact ⟨front, part, hpath', hfront, ⟨hne [] rfl, hne ['.'] rfl, hne Path.up rfl, hpart⟩, htag⟩

/-- A source keeps its language in normal form. -/
theorem ofSource?_normalize {path : String} (h : ofSource? path = some tag) :
    ofSource? (Path.normalize path) = some tag := by
  obtain ⟨front, part, rfl, hfront, hpart, htag⟩ := exists_plain_of_ofSource? h
  obtain ⟨directory, hdirectory, hnormal⟩ := Path.exists_directory hfront
  rw [Path.normalize, String.toList_ofList, hnormal part hpart,
    ofSource?_append hdirectory.isFront hpart.noSlash, htag]

/-- A source keeps its language behind a directory. -/
theorem ofSource?_join {a path : String} (h : ofSource? path = some tag) :
    ofSource? (Path.join a path) = some tag := by
  obtain ⟨front, part, rfl, hfront, hpart, htag⟩ := exists_plain_of_ofSource? h
  rw [Path.join_append hpart.noSlash, ofSource?_append (Path.isFront_join hfront) hpart.noSlash,
    htag]

end Language

/-- Every member is a source tagged with the language that its extension names. -/
def FileSet.IsTagged (s : FileSet) : Prop :=
  ∀ entry ∈ s.entries, Language.ofSource? entry.1.path = some entry.2

theorem FileSet.IsTagged.ofSource? {s : FileSet} (h : s.IsTagged) {source : Resource}
    {tag : Language} (hsource : (source, tag) ∈ s.entries) :
    Language.ofSource? source.path = some tag :=
  h (source, tag) hsource

namespace Description

theorem ofSource?_of_packageResource {path key : String} {r : Resource} {tag : Language}
    (h : d.packageResource path key = .ok r) (htag : Language.ofSource? path = some tag) :
    Language.ofSource? r.path = some tag := by
  unfold packageResource at h
  simp only at h
  split_ifs at h with hleaves
  rw [Except.ok.injEq] at h
  rw [← h]
  exact Language.ofSource?_normalize (Language.ofSource?_normalize (Language.ofSource?_join htag))

theorem isTagged_of_addSource {sources after : FileSet} {path : String}
    (h : d.addSource sources path = .ok after) (hsources : sources.IsTagged) : after.IsTagged := by
  unfold addSource at h
  cases htag : Language.ofSource? path with
  | none => simp [htag] at h
  | some tag =>
    simp only [htag] at h
    obtain ⟨r, hr, h⟩ := exists_of_bind_eq_ok h
    cases h
    intro entry hentry
    rcases FileSet.mem_of_mem_insert hentry with hold | rfl
    · exact hsources entry hold
    · exact ofSource?_of_packageResource hr htag

/-- The sources and the headers of a compilation are added one after the other. -/
theorem exists_of_readCompilation {c : Compilation} {ldflags : List String}
    (h : d.readCompilation settings = .ok (c, ldflags)) :
    ∃ sources headers : List String,
      sources.foldlM d.addSource FileSet.empty = .ok c.sources ∧
      headers.foldlM d.addHeader FileSet.empty = .ok c.headers := by
  obtain ⟨paths, -, h⟩ := exists_of_bind_eq_ok h
  obtain ⟨sources, hsources, h⟩ := exists_of_bind_eq_ok h
  obtain ⟨headerPaths, -, h⟩ := exists_of_bind_eq_ok h
  obtain ⟨headers, hheaders, h⟩ := exists_of_bind_eq_ok h
  obtain ⟨cflags, -, h⟩ := exists_of_bind_eq_ok h
  obtain ⟨cxxflags, -, h⟩ := exists_of_bind_eq_ok h
  obtain ⟨flags, -, h⟩ := exists_of_bind_eq_ok h
  cases h
  exact ⟨paths, headerPaths, hsources, hheaders⟩

theorem isTagged_of_readCompilation {c : Compilation} {ldflags : List String}
    (h : d.readCompilation settings = .ok (c, ldflags)) : c.sources.IsTagged := by
  obtain ⟨paths, -, hsources, -⟩ := exists_of_readCompilation h
  refine invariant_of_foldlM ?_ hsources fun entry hentry => absurd hentry List.not_mem_nil
  intro s path after hs hafter
  exact isTagged_of_addSource hafter hs

/-- A shared library is read if all that it consists of is read. -/
theorem readSharedLibrary_eq_ok_iff : d.readSharedLibrary settings = .ok node ↔
    ∃ dependencies c ldflags version stripDir symbols,
      d.readCommon settings sharedAttributes = .ok dependencies ∧
      d.readCompilation settings = .ok (c, ldflags) ∧
      d.readVersion settings = .ok version ∧ d.readStripDir settings = .ok stripDir ∧
      d.readExportedSymbols settings = .ok symbols ∧
      node = ⟨d.target, dependencies.items, ldflags,
        .sharedLibrary c ⟨version, stripDir, symbols⟩, dependencies.irreflexive⟩ := by
  constructor
  · intro h
    obtain ⟨dependencies, hcommon, h⟩ := exists_of_bind_eq_ok h
    obtain ⟨⟨c, ldflags⟩, hcompilation, h⟩ := exists_of_bind_eq_ok h
    obtain ⟨version, hversion, h⟩ := exists_of_bind_eq_ok h
    obtain ⟨stripDir, hstrip, h⟩ := exists_of_bind_eq_ok h
    obtain ⟨symbols, hsymbols, h⟩ := exists_of_bind_eq_ok h
    exact ⟨dependencies, c, ldflags, version, stripDir, symbols, hcommon, hcompilation, hversion,
      hstrip, hsymbols, (Except.ok.inj h).symm⟩
  · rintro ⟨dependencies, c, ldflags, version, stripDir, symbols, hcommon, hcompilation, hversion,
      hstrip, hsymbols, rfl⟩
    unfold readSharedLibrary
    rw [hcommon, hcompilation, hversion, hstrip, hsymbols]
    rfl

end Description

/-! ## Nodes -/

/-- The node is the outcome of a reading, with whatever directory a fetcher provides if the reading
awaits one. -/
inductive Reading.Gives : Reading → Node → Prop
  | complete (node : Node) : Gives (.complete node) node
  | finish (identifier : String) (finish : String → Node) (directory : String) :
    Gives (.awaiting identifier finish) (finish directory)

/-- The node is what a description reads as, under the class that is registered for its kind. -/
def Node.IsReadFrom (registry : Registry) (settings : Settings) (d : Description) (node : Node) :
    Prop :=
  ∃ nodeClass reading, registry.find d.kind (some d.target) = .ok nodeClass ∧
    nodeClass.read settings d = .ok reading ∧ reading.Gives node

/-- The node is what some description of a standard kind reads as. -/
def Node.IsRead (settings : Settings) (node : Node) : Prop :=
  ∃ d, node.IsReadFrom .standard settings d

namespace Node

/-- What a node can be once it has been read as one of the standard kinds. -/
inductive WellRead (node : Node) : Prop
  | library {c : Compilation} (hbody : node.body = .library c) (hsources : c.sources.IsTagged)
  | binary {c : Compilation} (hbody : node.body = .binary c) (hsources : c.sources.IsTagged)
  | sharedLibrary {c : Compilation} {spec : SharedSpec} (hbody : node.body = .sharedLibrary c spec)
      (hsources : c.sources.IsTagged)
  | autoconf {spec : AutoconfSpec} (hbody : node.body = .autoconf spec)

/-- The class of a kind is one of those that the registry lists. -/
theorem mem_classes_of_find {registry : Registry} {kind : String} {target : Option Target}
    {nodeClass : NodeClass} (h : registry.find kind target = .ok nodeClass) :
    nodeClass ∈ registry.classes.map Prod.snd := by
  unfold Registry.find at h
  cases hlookup : registry.classes.lookup kind with
  | none => simp [hlookup] at h
  | some found =>
    simp only [hlookup, Except.ok.injEq] at h
    obtain ⟨before, after, hclasses, -⟩ := List.lookup_eq_some_iff.1 hlookup
    rw [hclasses, ← h]
    simp

theorem gives_of_complete {x : Except BuildError Node} {reading : Reading}
    (h : Reading.complete <$> x = .ok reading) (hgives : reading.Gives node) : x = .ok node := by
  cases x with
  | error e => cases h
  | ok found =>
    cases h
    cases hgives
    rfl

/-- The node belongs to the target of the description, and every dependency of it is named by a
reference that is read in the package of the target. -/
structure Follows (node : Node) (d : Description) : Prop where
  target : node.target = d.target
  named : ∀ dependency ∈ node.dependencies, ∃ reference,
    Target.parse reference d.target.package = .ok dependency

theorem named_of_readCommon {allowed : List String} {dependencies : Dependencies d.target}
    (h : d.readCommon settings allowed = .ok dependencies) :
    ∀ dependency ∈ dependencies.items, ∃ reference,
      Target.parse reference d.target.package = .ok dependency := by
  let inv (known : Dependencies d.target) : Prop := ∀ dependency ∈ known.items, ∃ reference,
    Target.parse reference d.target.package = .ok dependency
  have hnone : inv .none := nofun
  obtain ⟨⟨⟩, -, h⟩ := exists_of_bind_eq_ok h
  obtain ⟨references, -, h⟩ := exists_of_bind_eq_ok h
  refine invariant_of_foldlM ?_ h hnone
  intro known reference after hknown hafter dependency hdependency
  unfold Description.addDependency at hafter
  cases hparse : Target.parse reference d.target.package with
  | error e => simp [hparse] at hafter
  | ok t =>
    simp only [hparse] at hafter
    split_ifs at hafter
    cases hafter
    rcases mem_addOnce.1 hdependency with hold | rfl
    · exact hknown dependency hold
    · exact ⟨reference, hparse⟩

theorem readLibrary_spec (h : d.readLibrary settings = .ok node) :
    node.Follows d ∧ node.WellRead := by
  obtain ⟨dependencies, hcommon, h⟩ := exists_of_bind_eq_ok h
  obtain ⟨⟨c, ldflags⟩, hcompilation, h⟩ := exists_of_bind_eq_ok h
  cases h
  exact ⟨⟨rfl, named_of_readCommon hcommon⟩,
    .library rfl (Description.isTagged_of_readCompilation hcompilation)⟩

theorem readBinary_spec (h : d.readBinary settings = .ok node) :
    node.Follows d ∧ node.WellRead := by
  obtain ⟨dependencies, hcommon, h⟩ := exists_of_bind_eq_ok h
  obtain ⟨⟨c, ldflags⟩, hcompilation, h⟩ := exists_of_bind_eq_ok h
  cases h
  exact ⟨⟨rfl, named_of_readCommon hcommon⟩,
    .binary rfl (Description.isTagged_of_readCompilation hcompilation)⟩

theorem readSharedLibrary_spec (h : d.readSharedLibrary settings = .ok node) :
    node.Follows d ∧ node.WellRead := by
  obtain ⟨dependencies, c, ldflags, _, _, _, hcommon, hcompilation, -, -, -, rfl⟩ :=
    Description.readSharedLibrary_eq_ok_iff.1 h
  exact ⟨⟨rfl, named_of_readCommon hcommon⟩,
    .sharedLibrary rfl (Description.isTagged_of_readCompilation hcompilation)⟩

/-- Where a package with its own configure script has its sources: at an address, in a directory
that the description names, or in the package itself. `finish` makes the node of their directory. -/
inductive FindsSources (settings : Settings) (d : Description) (finish : String → Node) :
    Reading → Prop
  | remote {url : String} {revision : Option String}
    (hurl : d.optional settings "source_url" = .ok (some url))
    (hrevision : d.optional settings "source_revision" = .ok revision) :
    FindsSources settings d finish (.awaiting (Description.remoteIdentifier url revision) finish)
  | named {path : String} {directory : Resource}
    (hurl : d.optional settings "source_url" = .ok none)
    (hdirectory : d.packageResource path "source" = .ok directory) :
    FindsSources settings d finish (.complete (finish directory.fullPath))
  | own (hurl : d.optional settings "source_url" = .ok none) :
    FindsSources settings d finish
      (.complete (finish (if d.target.package.isEmpty then "." else d.target.package)))

theorem findsSources_of_readAutoconf {reading : Reading}
    (h : d.readAutoconf settings = .ok reading) : ∃ dependencies args env makeTargets,
      d.readCommon settings autoconfAttributes = .ok dependencies ∧
      FindsSources settings d (fun sourceDir => ⟨d.target, dependencies.items, [],
        .autoconf ⟨args, env, makeTargets, sourceDir⟩, dependencies.irreflexive⟩) reading := by
  obtain ⟨dependencies, hcommon, h⟩ := exists_of_bind_eq_ok h
  obtain ⟨args, -, h⟩ := exists_of_bind_eq_ok h
  obtain ⟨env, -, h⟩ := exists_of_bind_eq_ok h
  obtain ⟨makeTargets, -, h⟩ := exists_of_bind_eq_ok h
  obtain ⟨url, hurl, h⟩ := exists_of_bind_eq_ok h
  obtain ⟨revision, hrevision, h⟩ := exists_of_bind_eq_ok h
  obtain ⟨source, -, h⟩ := exists_of_bind_eq_ok h
  refine ⟨dependencies, args, env, makeTargets, hcommon, ?_⟩
  -- an address goes with no path, and without one there may be no revision
  cases url with
  | some url =>
    cases source with
    | some path => cases h
    | none =>
      cases h
      exact .remote hurl hrevision
  | none =>
    simp only at h
    by_cases hsome : revision.isSome
    · rw [if_pos hsome] at h
      cases h
    rw [if_neg hsome] at h
    cases source with
    | some path =>
      obtain ⟨directory, hdirectory, h⟩ := exists_of_bind_eq_ok h
      cases h
      exact .named hurl hdirectory
    | none =>
      cases h
      exact .own hurl

/-- What a package with its own configure script reads as. Its source directory is what a fetcher
provides, if there is a URL, and otherwise what the description names or the package. -/
theorem exists_of_readAutoconf {reading : Reading} (h : d.readAutoconf settings = .ok reading)
    (hgives : reading.Gives node) : ∃ dependencies args env makeTargets sourceDir,
      d.readCommon settings autoconfAttributes = .ok dependencies ∧
      node = ⟨d.target, dependencies.items, [], .autoconf ⟨args, env, makeTargets, sourceDir⟩,
        dependencies.irreflexive⟩ ∧
      (d.optional settings "source_url" = .ok none →
        (∃ path directory, d.packageResource path "source" = .ok directory ∧
          sourceDir = directory.fullPath) ∨
        sourceDir = if d.target.package.isEmpty then "." else d.target.package) := by
  obtain ⟨dependencies, args, env, makeTargets, hcommon, hsources⟩ :=
    findsSources_of_readAutoconf h
  refine ⟨dependencies, args, env, makeTargets, ?_⟩
  cases hsources with
  | remote hurl hrevision =>
    -- the sources are fetched, so nothing is said of their directory
    cases hgives
    refine ⟨_, hcommon, rfl, fun hnone => ?_⟩
    rw [hurl] at hnone
    cases hnone
  | named hurl hdirectory =>
    cases hgives
    exact ⟨_, hcommon, rfl, fun _ => .inl ⟨_, _, hdirectory, rfl⟩⟩
  | own hurl =>
    cases hgives
    exact ⟨_, hcommon, rfl, fun _ => .inr rfl⟩

/-- Whatever directory a fetcher provides, the node is a package with its own configure script. -/
theorem readAutoconf_spec {reading : Reading} (h : d.readAutoconf settings = .ok reading)
    (hgives : reading.Gives node) : node.Follows d ∧ node.WellRead := by
  obtain ⟨dependencies, args, env, makeTargets, sourceDir, hcommon, rfl, -⟩ :=
    exists_of_readAutoconf h hgives
  exact ⟨⟨rfl, named_of_readCommon hcommon⟩, .autoconf rfl⟩

theorem readListing_spec (h : d.readListing settings = .ok node) : node.Follows d := by
  obtain ⟨dependencies, hcommon, h⟩ := exists_of_bind_eq_ok h
  obtain ⟨prerequisites, -, h⟩ := exists_of_bind_eq_ok h
  cases h
  exact ⟨rfl, named_of_readCommon hcommon⟩

/-- A node that is read follows its description. -/
theorem follows_of_read {nodeClass : NodeClass} {reading : Reading}
    (h : nodeClass.read settings d = .ok reading) (hgives : reading.Gives node) :
    node.Follows d := by
  cases nodeClass with
  | library => exact (readLibrary_spec (gives_of_complete h hgives)).1
  | binary => exact (readBinary_spec (gives_of_complete h hgives)).1
  | sharedLibrary => exact (readSharedLibrary_spec (gives_of_complete h hgives)).1
  | autoconf => exact (readAutoconf_spec h hgives).1
  | abstract => cases h
  | listing | listingFactory => exact readListing_spec (gives_of_complete h hgives)

theorem IsReadFrom.follows {registry : Registry} (h : node.IsReadFrom registry settings d) :
    node.Follows d := by
  obtain ⟨nodeClass, reading, -, hread, hgives⟩ := h
  exact follows_of_read hread hgives

/-- A node that has been read is of a standard kind, and its sources are tagged with the languages
of their extensions. -/
theorem IsRead.wellRead (h : node.IsRead settings) : node.WellRead := by
  obtain ⟨d, nodeClass, reading, hfind, hread, hgives⟩ := h
  have hstandard := mem_classes_of_find hfind
  simp only [Registry.standard, List.map_cons, List.map_nil, List.mem_cons, List.not_mem_nil,
    or_false] at hstandard
  rcases hstandard with rfl | rfl | rfl | rfl
  · exact (readLibrary_spec (gives_of_complete hread hgives)).2
  · exact (readBinary_spec (gives_of_complete hread hgives)).2
  · exact (readSharedLibrary_spec (gives_of_complete hread hgives)).2
  · exact (readAutoconf_spec hread hgives).2

theorem WellRead.isTagged (h : node.WellRead) {c : Compilation}
    (hc : node.body.compilation? = some c) : c.sources.IsTagged := by
  cases h with
  | library hbody hsources | binary hbody hsources | sharedLibrary hbody hsources =>
    rw [hbody] at hc
    cases hc
    exact hsources
  | autoconf hbody =>
    rw [hbody] at hc
    cases hc

theorem WellRead.asLibrary (h : node.WellRead) {c : Compilation}
    (hc : node.body.compilation? = some c) : (node.asLibrary c).WellRead :=
  .library rfl (h.isTagged hc)

end Node

end Makewright
