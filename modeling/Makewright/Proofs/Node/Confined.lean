import Makewright.Proofs.Downward
import Makewright.Proofs.Graph.Description
import Makewright.Proofs.Node.Generates

/-!
# Where the files of a node are

The sources, the headers and the other inputs of a node that was read are files of the workspace:
their paths are tidy, so no component of them leads upward (`Node.IsReadFrom.confined`). The files
that it generates lie strictly below the directories for generated files
(`Node.Confined.isMadeBelow`), if these are directories below the root of the workspace.
-/

set_option autoImplicit false

namespace Makewright

open Makewright.Path

variable {dirs : GeneratedDirs} {settings : Settings} {registry : Registry} {d : Description}
  {node : Node}

namespace Path

/-- The path is relative, and no component of it leads upward. -/
def StaysInside (path : String) : Prop :=
  isAbsolute path = false ∧ up ∉ components path.toList

instance (path : String) : Decidable (StaysInside path) :=
  inferInstanceAs (Decidable (_ ∧ _))

/-- The path leads on from the directory `front`, by components that each name a file or a
directory. -/
def IsBelow (front path : String) : Prop :=
  ∃ rest, rest ≠ [] ∧ IsTidy rest ∧ path.toList = front.toList ++ '/' :: rest

/-- The path is in normal form and leads to a directory below the one that it is seen from. -/
structure IsInner (path : String) : Prop where
  normal : Path.normalize path = path
  relative : isAbsolute path = false
  inside : startsUpward path = false
  ne_dot : path ≠ "."

theorem IsTidy.isAbsolute_eq {path : String} (h : IsTidy path.toList) :
    isAbsolute path = false := by
  simpa [isAbsolute] using h.head?_ne

theorem IsTidy.staysInside {path : String} (h : IsTidy path.toList) : StaysInside path :=
  ⟨h.isAbsolute_eq, fun hup => (h.isPlain up hup).ne_up rfl⟩

/-- An inner path leads down, and it is its own normal form. -/
theorem IsInner.leadsDown {path : String} (h : IsInner path) : LeadsDown path := by
  have hnormal : normalizeList path.toList = path.toList := by
    rw [← String.toList_ofList (l := normalizeList path.toList)]
    exact congrArg String.toList h.normal
  have htidy := isTidy_normalizeList (rootSlashes_of_isAbsolute h.relative)
  rw [hnormal] at htidy
  refine (htidy h.inside ?_).leadsDown ?_
  · exact fun hdot => h.ne_dot (String.toList_injective hdot)
  · rintro rfl
    exact normalizeList_ne_nil _ hnormal

/-- The normal form of a relative path that does not lead upward is tidy. -/
theorem isTidy_normalize {path : String} (h : isAbsolute path = false)
    (hup : startsUpward (Path.normalize path) = false) (hdot : Path.normalize path ≠ ".") :
    IsTidy (Path.normalize path).toList := by
  rw [startsUpward, Path.normalize, String.toList_ofList] at hup
  rw [Path.normalize, String.toList_ofList]
  apply isTidy_normalizeList (rootSlashes_of_isAbsolute h) hup
  intro hsingle
  exact hdot (by rw [Path.normalize, hsingle])

/-- A path behind a tidy one stands behind a slash, unless there is nothing in front of it. -/
theorem IsTidy.toList_join {front path : String} (hfront : IsTidy front.toList)
    (h : isAbsolute path = false) : (join front path).toList =
      if front = "" then path.toList else front.toList ++ '/' :: path.toList := by
  have hlast := hfront.getLast?_ne
  have hhead : path.toList.head? ≠ some '/' := by simpa [isAbsolute] using h
  rw [Path.toList_join, if_neg hhead]
  by_cases hempty : front = ""
  · simp [hempty]
  · rw [if_neg hempty, if_neg]
    simp [hempty, hlast]

theorem IsTidy.isTidy_join {front path : String} (hfront : IsTidy front.toList)
    (h : IsTidy path.toList) (hne : path ≠ "") : IsTidy (join front path).toList := by
  rw [hfront.toList_join h.isAbsolute_eq]
  split_ifs with hempty
  · exact h
  · apply hfront.append _ h
    · rwa [Ne, String.toList_eq_nil_iff]
    · rwa [Ne, String.toList_eq_nil_iff]

theorem isAbsolute_join {front path : String} (hfront : IsTidy front.toList)
    (h : isAbsolute path = false) : isAbsolute (join front path) = false := by
  have hjoin := hfront.toList_join h
  rw [isAbsolute, hjoin]
  split_ifs with hempty
  · exact h
  · have hhead := hfront.head?_ne
    cases hlist : front.toList with
    | nil => exact absurd (String.toList_eq_nil_iff.1 hlist) hempty
    | cons c rest =>
      rw [hlist] at hhead
      simpa using hhead

end Path

/-- The directories for generated files lie below the root of the workspace. -/
structure GeneratedDirs.Inner (dirs : GeneratedDirs) : Prop where
  objectDir : IsInner dirs.objectDir
  genfileDir : IsInner dirs.genfileDir
  pkgfileDir : IsInner dirs.pkgfileDir

/-- The directories for generated files lead down. -/
structure GeneratedDirs.LeadDown (dirs : GeneratedDirs) : Prop where
  objectDir : LeadsDown dirs.objectDir
  genfileDir : LeadsDown dirs.genfileDir
  pkgfileDir : LeadsDown dirs.pkgfileDir

/-- Inner directories are in normal form. -/
theorem GeneratedDirs.Inner.normalize_eq (h : dirs.Inner) :
    ∀ directory ∈ [dirs.objectDir, dirs.genfileDir, dirs.pkgfileDir],
      Path.normalize directory = directory := by
  simp only [List.forall_mem_cons]
  exact ⟨h.objectDir.normal, h.genfileDir.normal, h.pkgfileDir.normal, by simp⟩

theorem GeneratedDirs.Inner.leadDown (h : dirs.Inner) : dirs.LeadDown :=
  ⟨h.objectDir.leadsDown, h.genfileDir.leadsDown, h.pkgfileDir.leadsDown⟩

/-! ## Files of the workspace -/

/-- The resource is a file of the source tree that is named by a tidy path. -/
structure Resource.IsSource (r : Resource) : Prop where
  root_eq : r.root = ""
  ne_empty : r.path ≠ ""
  isTidy : IsTidy r.path.toList

theorem Resource.IsSource.fullPath_eq {r : Resource} (h : r.IsSource) : r.fullPath = r.path := by
  simp [Resource.fullPath, h.root_eq]

/-- A source with the mark of an object behind it is tidy. -/
theorem Resource.IsSource.isTidy_object {r : Resource} (h : r.IsSource) :
    IsTidy (r.path ++ ".o").toList := by
  have hne : r.path.toList ≠ [] := by
    rw [Ne, String.toList_eq_nil_iff]
    exact h.ne_empty
  rw [String.toList_append]
  exact h.isTidy.append_mark hne (by decide) (c := 'o') (by decide) (by decide)

/-- A file with a tidy path lies below the directory that it is put in. -/
theorem isBelow_ofRootPath {root path : String} (hroot : LeadsDown root) (h : IsTidy path.toList)
    (hne : path ≠ "") :
    IsBelow (Path.normalize root) (Resource.ofRootPath root path).fullPath := by
  have hlist : path.toList ≠ [] := by rwa [Ne, String.toList_eq_nil_iff]
  obtain ⟨htidy, hempty⟩ := hroot.isTidy
  have hsettled : components (Path.normalize root).toList = settledComponents root.toList := by
    rw [Path.normalize, String.toList_ofList, components_normalizeList hroot.rootSlashes_eq]
  have hrootNe : (Path.normalize root).toList ≠ [] := by rwa [Ne, String.toList_eq_nil_iff]
  refine ⟨path.toList, hlist, h, ?_⟩
  rw [Resource.toList_fullPath hroot.relative h hne, ← hsettled,
    Path.intercalate_append (htidy.components_ne_nil hrootNe) (h.components_ne_nil hlist),
    ← htidy.eq_intercalate, ← h.eq_intercalate]

/-- A path relative to a tidy package names a file of the workspace, or it is refused. -/
theorem Description.isSource_of_packageResource (hpackage : IsTidy d.target.package.toList)
    {path key : String} {r : Resource} (h : d.packageResource path key = .ok r) :
    r.IsSource := by
  unfold packageResource at h
  simp only at h
  split_ifs at h with hleaves
  simp only [Bool.or_eq_true, decide_eq_true_eq, not_or, Bool.not_eq_true] at hleaves
  obtain ⟨⟨habsolute, hdot⟩, hup⟩ := hleaves
  have htidy := isTidy_normalize (isAbsolute_join hpackage habsolute) hup hdot
  have hne := normalize_ne_empty (join d.target.package path)
  rw [Except.ok.injEq] at h
  rw [← h]
  refine ⟨rfl, ?_, ?_⟩
  · exact normalize_ne_empty _
  · change IsTidy (Path.normalize (Path.normalize _)).toList
    rwa [htidy.normalize_eq hne]

/-! ## Nodes -/

/-- The package of a node is tidy, its name names a file, and so do the paths of its sources and of
all other inputs. -/
structure Node.Confined (node : Node) : Prop where
  package : IsTidy node.target.package.toList
  name : IsPlain node.target.name.toList
  sources : ∀ c, node.body.compilation? = some c → ∀ r ∈ c.sources.toList, r.IsSource
  inputs : ∀ path ∈ node.inputFiles, IsTidy path.toList

namespace Description

variable (hpackage : IsTidy d.target.package.toList)

include hpackage

theorem isSource_of_readCompilation {c : Compilation} {ldflags : List String}
    (h : d.readCompilation settings = .ok (c, ldflags)) :
    ∀ r ∈ c.sources.toList ++ c.headers.toList, r.IsSource := by
  -- every file that is added is one of the workspace
  have hinsert : ∀ {s : FileSet} {r : Resource} {tag : Language}, r.IsSource →
      (∀ other ∈ s.toList, other.IsSource) → ∀ other ∈ (s.insert r tag).toList,
        other.IsSource := by
    intro s r tag hr hs other hother
    rw [FileSet.toList_insert, mem_addOnce] at hother
    rcases hother with hold | rfl
    · exact hs other hold
    · exact hr
  obtain ⟨paths, headerPaths, hsources, hheaders⟩ := exists_of_readCompilation h
  let inv (s : FileSet) : Prop := ∀ r ∈ s.toList, r.IsSource
  have hempty : inv FileSet.empty := nofun
  have hsource : ∀ s path after, inv s → d.addSource s path = .ok after → inv after := by
    intro s path after hs hafter
    unfold addSource at hafter
    cases htag : Language.ofSource? path with
    | none => simp [htag] at hafter
    | some tag =>
      simp only [htag] at hafter
      obtain ⟨r, hr, hafter⟩ := exists_of_bind_eq_ok hafter
      cases hafter
      exact hinsert (isSource_of_packageResource hpackage hr) hs
  have hheader : ∀ s path after, inv s → d.addHeader s path = .ok after → inv after := by
    intro s path after hs hafter
    obtain ⟨r, hr, hafter⟩ := exists_of_bind_eq_ok hafter
    cases hafter
    exact hinsert (isSource_of_packageResource hpackage hr) hs
  exact List.forall_mem_append.2
    ⟨invariant_of_foldlM hsource hsources hempty, invariant_of_foldlM hheader hheaders hempty⟩

theorem isSource_of_readExportedSymbols {symbols : Option Resource}
    (h : d.readExportedSymbols settings = .ok symbols) : ∀ r ∈ symbols.toList, r.IsSource := by
  obtain ⟨path, -, h⟩ := exists_of_bind_eq_ok h
  cases path with
  | none =>
    cases h
    nofun
  | some path =>
    cases hr : d.packageResource path "exported_symbols" with
    | error e => simp [hr] at h
    | ok r =>
      simp only [hr] at h
      cases h
      simpa using isSource_of_packageResource hpackage hr

end Description

namespace Node

theorem isTidy_of_mem_paths {s : FileSet} (h : ∀ r ∈ s.toList, r.IsSource) :
    ∀ path ∈ s.paths, IsTidy path.toList := by
  intro path hpath
  obtain ⟨r, hr, rfl⟩ := FileSet.mem_paths.1 hpath
  rw [(h r hr).fullPath_eq]
  exact (h r hr).isTidy

/-- What is compiled for a node are files of the workspace. -/
theorem confined_of_compilation (hname : IsPlain node.target.name.toList)
    (hnode : IsTidy node.target.package.toList) {c : Compilation}
    (hc : ∀ other, node.body.compilation? = some other → other = c)
    (hfiles : ∀ r ∈ c.sources.toList ++ c.headers.toList, r.IsSource)
    (hinputs : ∀ path ∈ node.inputFiles, path ∈ c.inputFiles ∨ IsTidy path.toList) :
    node.Confined := by
  obtain ⟨hsources, hheaders⟩ := List.forall_mem_append.1 hfiles
  refine ⟨hnode, hname, ?_, ?_⟩
  · intro other hother
    rw [hc other hother]
    exact hsources
  · intro path hpath
    rcases hinputs path hpath with hpath | htidy
    · rcases List.mem_append.1 hpath with hpath | hpath
      · exact isTidy_of_mem_paths hsources path hpath
      · exact isTidy_of_mem_paths hheaders path hpath
    · exact htidy

/-- Nothing is compiled for a node. -/
theorem confined_of_none (hname : IsPlain node.target.name.toList)
    (hnode : IsTidy node.target.package.toList) (hc : node.body.compilation? = none)
    (hinputs : node.inputFiles = []) : node.Confined :=
  ⟨hnode, hname, by simp [hc], by simp [hinputs]⟩

/-- The source directory of a package with its own configure script stays inside the workspace,
unless the sources are fetched. -/
theorem staysInside_of_readAutoconf (hpackage : IsTidy d.target.package.toList)
    {reading : Reading} (h : d.readAutoconf settings = .ok reading)
    (hgives : reading.Gives node) : ∃ spec, node.body = .autoconf spec ∧
      (d.optional settings "source_url" = .ok none → StaysInside spec.sourceDir) := by
  obtain ⟨dependencies, args, env, makeTargets, sourceDir, -, rfl, hlocal⟩ :=
    exists_of_readAutoconf h hgives
  refine ⟨_, rfl, fun hnone => ?_⟩
  rcases hlocal hnone with ⟨path, directory, hdirectory, rfl⟩ | rfl
  · have hsource := Description.isSource_of_packageResource hpackage hdirectory
    rw [hsource.fullPath_eq]
    exact hsource.isTidy.staysInside
  · -- the package itself, which is written as a dot at the root
    dsimp only
    split_ifs
    · decide
    · exact hpackage.staysInside

/-- A node that is read from the description of a target with a tidy package, which is named like a
file, is confined to the workspace, and so is the directory of its sources unless they are
fetched. -/
theorem IsReadFrom.confined (h : node.IsReadFrom registry settings d)
    (hpackage : IsTidy d.target.package.toList) (hname : IsPlain d.target.name.toList) :
    node.Confined ∧ ∀ spec, node.body = .autoconf spec →
      d.optional settings "source_url" = .ok none → StaysInside spec.sourceDir := by
  have hnode := hpackage
  rw [← h.follows.target] at hname hnode
  obtain ⟨nodeClass, reading, -, hread, hgives⟩ := h
  cases nodeClass with
  | library | binary =>
    have hcomplete := gives_of_complete hread hgives
    obtain ⟨dependencies, -, hcomplete⟩ := exists_of_bind_eq_ok hcomplete
    obtain ⟨⟨c, ldflags⟩, hc, hcomplete⟩ := exists_of_bind_eq_ok hcomplete
    cases hcomplete
    refine ⟨?_, nofun⟩
    exact confined_of_compilation hname hnode (by simp [Body.compilation?])
      (Description.isSource_of_readCompilation hpackage hc) fun _ => .inl
  | sharedLibrary =>
    obtain ⟨_, c, _, _, _, symbols, -, hc, -, -, hsymbols, rfl⟩ :=
      Description.readSharedLibrary_eq_ok_iff.1 (gives_of_complete hread hgives)
    refine ⟨?_, nofun⟩
    refine confined_of_compilation hname hnode (by simp [Body.compilation?])
      (Description.isSource_of_readCompilation hpackage hc) ?_
    -- the file of exported symbols is an input besides
    intro path hpath
    refine (List.mem_append.1 hpath).imp_right fun hsymbol => ?_
    obtain ⟨r, hr, rfl⟩ := List.mem_map.1 hsymbol
    have hsource := Description.isSource_of_readExportedSymbols hpackage hsymbols r hr
    rw [hsource.fullPath_eq]
    exact hsource.isTidy
  | autoconf =>
    obtain ⟨spec, hbody, hinside⟩ := staysInside_of_readAutoconf hpackage hread hgives
    refine ⟨?_, ?_⟩
    · exact confined_of_none hname hnode (by simp [hbody, Body.compilation?])
        (by simp [inputFiles, hbody])
    · intro other hother hlocal
      obtain rfl := Body.autoconf.inj (hbody.symm.trans hother)
      exact hinside hlocal
  | abstract => cases hread
  | listing | listingFactory =>
    have hcomplete := gives_of_complete hread hgives
    obtain ⟨dependencies, -, hcomplete⟩ := exists_of_bind_eq_ok hcomplete
    obtain ⟨prerequisites, -, hcomplete⟩ := exists_of_bind_eq_ok hcomplete
    cases hcomplete
    exact ⟨confined_of_none hname hnode rfl rfl, nofun⟩

end Node

/-! ## What a confined node generates -/

namespace Node

/-- The path lies below the normal form of one of the directories for generated files. -/
def IsMadeBelow (dirs : GeneratedDirs) (path : String) : Prop :=
  ∃ directory ∈ [dirs.objectDir, dirs.genfileDir, dirs.pkgfileDir],
    IsBelow (Path.normalize directory) path

namespace Confined

variable (h : node.Confined)

include h

/-- A name of a target that is named like a file is a name like that of a file. -/
theorem isPlain_of_names {name : String} (hname : node.target.Names name) :
    IsPlain name.toList := by
  cases hname with
  | self => exact h.name
  | build =>
    refine .of_mark ?_ (c := 'b') ?_ (by decide)
    · simp [h.name.noSlash]
    · simp
  | done =>
    refine .of_mark ?_ (c := 'd') ?_ (by decide)
    · simp [h.name.noSlash]
    · simp
  | library hname => exact SharedSpec.isPlain_of_mem_names h.name.noSlash hname

/-- Whatever a node generates, but for the rule of its target, lies below the directories for
generated files. -/
theorem isMadeBelow (hdirs : dirs.LeadDown) {path : String} (hpath : node.Generates dirs path) :
    path = node.userTarget ∨ IsMadeBelow dirs path := by
  have hroots : ∀ root ∈ [dirs.objectDir, dirs.genfileDir, dirs.pkgfileDir], LeadsDown root := by
    simp only [List.forall_mem_cons]
    exact ⟨hdirs.objectDir, hdirs.genfileDir, hdirs.pkgfileDir, by simp⟩
  cases hpath with
  | rule => exact .inl rfl
  | object hc hr =>
    have hsource := h.sources _ hc _ hr
    exact .inr ⟨dirs.objectDir, by simp,
      isBelow_ofRootPath hdirs.objectDir hsource.isTidy_object (by simp)⟩
  | @file root name hroot hname =>
    have hplain := h.isPlain_of_names hname
    have hne : name ≠ "" := fun hempty => hplain.ne_nil (String.toList_eq_nil_iff.2 hempty)
    exact .inr ⟨root, hroot, isBelow_ofRootPath (hroots root hroot)
      (h.package.isTidy_join hplain.isTidy hne) (join_ne_empty _ hne)⟩

end Confined

end Node

end Makewright
