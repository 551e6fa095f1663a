import Makewright.FileSet
import Makewright.Settings
import Makewright.Text.Digit

/-!
# Nodes

A node is a target after its description has been read. The `Body` says what kind of thing it builds
and holds what that kind needs. The functions here name the files that a node produces; all of them
lie in the directories for generated files, at the package of the target.
-/

set_option autoImplicit false

namespace Makewright

/-- What is compiled for a target: its sources with their languages, its headers and its flags. -/
structure Compilation where
  sources : FileSet
  headers : FileSet
  cflags : List String
  cxxflags : List String

/-- A number of a version as it is written: a row of decimal digits. -/
abbrev VersionNumber := {text : String // Text.isUnsigned text.toList}

/-- The three numbers of a version. -/
structure Version where
  major : VersionNumber
  minor : VersionNumber
  release : VersionNumber
  deriving DecidableEq, Repr

/-- What a shared library adds to a compilation: its version, if it has one, the leading directory
that its installed place leaves out, and the file that lists the exported symbols. -/
structure SharedSpec where
  version : Option Version
  stripDir : String
  exportedSymbols : Option Resource
  deriving DecidableEq, Repr

/-- How a package with its own configure script is built. -/
structure AutoconfSpec where
  configureArgs : List String
  configureEnv : List (String × String)
  makeTargets : List String
  sourceDir : String
  deriving DecidableEq, Repr

/-- What kind of thing a node builds. A `listing` builds nothing and waits for the files that it
lists. -/
inductive Body where
  | library (c : Compilation)
  | binary (c : Compilation)
  | sharedLibrary (c : Compilation) (spec : SharedSpec)
  | autoconf (spec : AutoconfSpec)
  | listing (prerequisites : List String)

/-- Targets that a target may depend on: any but itself. -/
structure Dependencies (target : Target) where
  items : List Target
  irreflexive : target ∉ items

namespace Dependencies

variable {target : Target}

/-- No dependencies. -/
def none : Dependencies target := ⟨[], List.not_mem_nil⟩

/-- One more dependency, unless it is there. -/
def add (known : Dependencies target) (dependency : Target) (h : dependency ≠ target) :
    Dependencies target :=
  ⟨addOnce known.items dependency, by
    rw [mem_addOnce]
    rintro (hknown | heq)
    · exact known.irreflexive hknown
    · exact h heq.symm⟩

end Dependencies

/-- A target that has been read. It does not depend on itself. -/
structure Node where
  target : Target
  dependencies : List Target
  ldflags : List String
  body : Body
  irreflexive : target ∉ dependencies

/-- The name of the kind under which the head of the Makefile for a body is looked up. -/
def Body.kind : Body → String
  | .library _ => "cc_library"
  | .binary _ => "cc_binary"
  | .sharedLibrary .. => "cc_shared_library"
  | .autoconf _ => "autoconf"
  | .listing _ => "stray"

/-- The compilation of a body that compiles. -/
def Body.compilation? : Body → Option Compilation
  | .library c | .binary c | .sharedLibrary c _ => some c
  | .autoconf _ | .listing _ => none

/-- The file that a target generates under a directory and a name of its own. -/
def Target.generated (target : Target) (root name : String) : Resource :=
  Resource.ofRootPath root (Path.join target.package name)

namespace Compilation

/-- The object compiled from a source. -/
def objectFor (dirs : GeneratedDirs) (source : Resource) : Resource :=
  Resource.ofRootPath dirs.objectDir (source.path ++ ".o")

/-- The objects of all sources, with the languages of the sources. -/
def objects (dirs : GeneratedDirs) (c : Compilation) : FileSet :=
  FileSet.empty.insertAll (c.sources.entries.map fun (source, tag) => (objectFor dirs source, tag))

/-- The workspace files that the rules of a compilation read. -/
def inputFiles (c : Compilation) : List String :=
  c.sources.paths ++ c.headers.paths

end Compilation

namespace SharedSpec

/-- The name of the library without a version. -/
def baseName (target : Target) : String :=
  "lib" ++ target.name ++ ".so"

/-- The name that programs linked against the library look for. -/
def soname (target : Target) (spec : SharedSpec) : String :=
  match spec.version with
  | none => baseName target
  | some v => baseName target ++ "." ++ v.major.val

/-- The name of the linked file. -/
def linkedName (target : Target) (spec : SharedSpec) : String :=
  match spec.version with
  | none => baseName target
  | some v =>
    baseName target ++ "." ++ v.major.val ++ "." ++ v.minor.val ++ "." ++ v.release.val

/-- The linked file. -/
def linked (dirs : GeneratedDirs) (target : Target) (spec : SharedSpec) : Resource :=
  target.generated dirs.pkgfileDir (spec.linkedName target)

/-- The symbolic links made after the link, each pointing at the file before it. -/
def aliases (dirs : GeneratedDirs) (target : Target) (spec : SharedSpec) : List Resource :=
  match spec.version with
  | none => []
  | some _ =>
    [target.generated dirs.pkgfileDir (spec.soname target),
     target.generated dirs.pkgfileDir (baseName target)]

/-- The linked file and the symbolic links. -/
def outputs (dirs : GeneratedDirs) (target : Target) (spec : SharedSpec) : List Resource :=
  spec.linked dirs target :: spec.aliases dirs target

/-- The output that dependents link against, which is the last one. -/
def linkName (dirs : GeneratedDirs) (target : Target) (spec : SharedSpec) : Resource :=
  (spec.aliases dirs target).getLastD (spec.linked dirs target)

/-- The directory for libraries in the tree that is installed to. -/
def libDir : String := "$(DESTDIR)$(LIBDIR)"

/-- The directory that a file is installed to: its own directory without the leading part that the
library leaves out, below the directory for libraries. -/
def installDir (spec : SharedSpec) (file : Resource) : String :=
  let directory :=
    if !spec.stripDir.isEmpty && Path.isAtOrBelow spec.stripDir file.dirname then
      String.ofList
        ((file.dirname.toList.drop spec.stripDir.toList.length).dropWhile (· == '/'))
    else file.dirname
  if directory.isEmpty then libDir else Path.join libDir directory

end SharedSpec

namespace AutoconfSpec

/-- The file whose presence says that the package is built. -/
def stamp (dirs : GeneratedDirs) (target : Target) : Resource :=
  target.generated dirs.genfileDir (target.name ++ ".done")

/-- The directory that the package installs into. -/
def outputDir (dirs : GeneratedDirs) (target : Target) : Resource :=
  target.generated dirs.genfileDir target.name

/-- The directory that the package is built in. -/
def buildDir (dirs : GeneratedDirs) (target : Target) : Resource :=
  target.generated dirs.objectDir (target.name ++ ".build")

end AutoconfSpec

namespace Node

/-- The kind of a node. -/
def kind (node : Node) : String :=
  node.body.kind

/-- The name of the rule that builds everything a node produces. -/
def userTarget (node : Node) : String :=
  node.target.fullPath

/-- The executable of a target. -/
def executable (dirs : GeneratedDirs) (target : Target) : Resource :=
  target.generated dirs.pkgfileDir target.name

/-- The workspace files that the rules of a node read. -/
def inputFiles (node : Node) : List String :=
  match node.body with
  | .library c | .binary c => c.inputFiles
  | .sharedLibrary c spec => c.inputFiles ++ spec.exportedSymbols.toList.map Resource.fullPath
  | .autoconf _ | .listing _ => []

/-- The files that the build steps of a dependent have to wait for. -/
def dependencyFiles (dirs : GeneratedDirs) (node : Node) : List (Resource × Language) :=
  match node.body with
  | .library c | .sharedLibrary c _ => c.headers.entries
  | .binary _ => [(executable dirs node.target, .none)]
  | .autoconf _ => [(AutoconfSpec.stamp dirs node.target, .none)]
  | .listing _ => []

/-- The files that a build step waits for because of the nodes it depends on. -/
def collectDependencyFiles (dirs : GeneratedDirs) (nodes : List Node) : FileSet :=
  nodes.foldl (fun files node => files.insertAll (node.dependencyFiles dirs)) FileSet.empty

/-- The linker flags of a node and of the nodes it depends on, each flag once. -/
def collectLdflags (node : Node) (closure : List Node) : List String :=
  distinct ((node :: closure).flatMap Node.ldflags)

end Node

end Makewright
