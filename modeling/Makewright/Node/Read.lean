import Makewright.Description
import Makewright.Node.Basic
import Makewright.Text.Digit

/-!
# Reading nodes from descriptions

One reader for each kind of node. A reader first refuses attributes that the kind does not know,
then reads the dependencies and then its own attributes in a fixed order, so that of several faults
the same one is always reported.

Reading touches nothing outside the description, with one exception: a package whose sources lie at
a remote place needs a directory that a fetcher provides. Such a reading ends in `Reading.awaiting`
with the identifier of the sources and the node that any answer makes.
-/

set_option autoImplicit false

namespace Makewright

/-- The outcome of reading a description. -/
inductive Reading where
  | complete (node : Node)
  | awaiting (identifier : String) (finish : String → Node)

/-- The attributes that every kind knows. -/
def commonAttributes : List String := ["kind", "name", "dependencies"]

/-- The attributes of everything that compiles. -/
def compilationAttributes : List String :=
  commonAttributes ++ ["sources", "headers", "cflags", "cxxflags", "ldflags"]

/-- The attributes of a shared library. -/
def sharedAttributes : List String :=
  compilationAttributes ++
    ["version", "major_version", "minor_version", "release_version", "install_strip_prefix",
     "exported_symbols"]

/-- The attributes of a package with its own configure script. -/
def autoconfAttributes : List String :=
  commonAttributes ++
    ["configure_args", "configure_env", "make_targets", "source", "source_url", "source_revision"]

/-- The attributes of a listing. -/
def listingAttributes : List String := commonAttributes ++ ["prerequisites"]

namespace Description

variable (settings : Settings) (d : Description)

/-- Add one reference to the dependencies read so far, once for each target it may name. -/
def addDependency (known : Dependencies d.target) (reference : String) :
    Except BuildError (Dependencies d.target) :=
  match Target.parse reference d.target.package with
  | .error e => .error (d.fault "dependencies" (.badReference e))
  | .ok dependency =>
    if h : dependency = d.target then .error (d.fault "dependencies" .dependsOnItself)
    else .ok (known.add dependency h)

/-- The declared dependencies, each once, in the order of their first mention. -/
def dependencies : Except BuildError (Dependencies d.target) := do
  let references ← d.strings settings "dependencies"
  references.foldlM d.addDependency .none

/-- Refuse unknown attributes and read the dependencies. -/
def readCommon (allowed : List String) : Except BuildError (Dependencies d.target) := do
  d.checkKnown allowed
  d.dependencies settings

/-- The workspace file at a path relative to the package of the target. -/
def packageResource (path key : String) : Except BuildError Resource :=
  let joined := Path.normalize (Path.join d.target.package path)
  if Path.isAbsolute path || joined = "." || Path.startsUpward joined then
    .error (d.fault key (.leavesWorkspace path))
  else .ok (Resource.ofRootPath "" joined)

/-- Add one source with its language. -/
def addSource (sources : FileSet) (path : String) : Except BuildError FileSet :=
  match Language.ofSource? path with
  | none => .error (d.fault "sources" (.unsupportedSource path))
  | some tag => do
    let source ← d.packageResource path "sources"
    .ok (sources.insert source tag)

/-- Add one header. -/
def addHeader (headers : FileSet) (path : String) : Except BuildError FileSet := do
  let header ← d.packageResource path "headers"
  .ok (headers.insert header .none)

/-- Read what is compiled, and the linker flags. -/
def readCompilation : Except BuildError (Compilation × List String) := do
  let sources ← (← d.strings settings "sources").foldlM d.addSource FileSet.empty
  let headers ← (← d.strings settings "headers").foldlM d.addHeader FileSet.empty
  let cflags ← d.strings settings "cflags"
  let cxxflags ← d.strings settings "cxxflags"
  let ldflags ← d.strings settings "ldflags"
  .ok (⟨sources, headers, cflags, cxxflags⟩, ldflags)

/-- A text as a number of a version, if it is a row of digits. -/
def numberOf? (text : String) : Option VersionNumber :=
  if h : Text.isUnsigned text.toList then some ⟨text, h⟩ else none

/-- The number that stands for a missing minor or release number. -/
def zero : VersionNumber := ⟨"0", rfl⟩

/-- A version written as three numbers with dots between them. -/
def versionOf? (text : String) : Option Version :=
  match text.toList.splitOn '.' with
  | [major, minor, release] => do
    let major ← numberOf? (String.ofList major)
    let minor ← numberOf? (String.ofList minor)
    let release ← numberOf? (String.ofList release)
    some ⟨major, minor, release⟩
  | _ => none

/-- A version number that may be missing; it is refused if it is given and is not a row of
digits. -/
def checkNumber (key : String) : Option String → Except BuildError (Option VersionNumber)
  | some text =>
    match numberOf? text with
    | some number => .ok (some number)
    | none => .error (d.fault key (.notUnsigned text))
  | none => .ok none

/-- The version: written as one text, or as up to three numbers of which the first is needed. -/
def readVersion : Except BuildError (Option Version) := do
  let combined ← d.optional settings "version"
  let major ← d.optional settings "major_version"
  let minor ← d.optional settings "minor_version"
  let release ← d.optional settings "release_version"
  match combined with
  | some text =>
    if major.isSome || minor.isSome || release.isSome then
      .error (d.fault "version" .combinedWithParts)
    else
      match versionOf? text with
      | some v => .ok (some v)
      | none => .error (d.fault "version" (.notVersion text))
  | none =>
    let major ← d.checkNumber "major_version" major
    let minor ← d.checkNumber "minor_version" minor
    let release ← d.checkNumber "release_version" release
    match major with
    | some m => .ok (some ⟨m, minor.getD zero, release.getD zero⟩)
    | none =>
      if minor.isSome then .error (d.fault "minor_version" .requiresMajor)
      else if release.isSome then .error (d.fault "release_version" .requiresMajor)
      else .ok none

/-- The leading directory that the installed place leaves out. It has to be the package of the
target or a directory above it; without the attribute it is the whole package. -/
def readStripDir : Except BuildError String := do
  match ← d.optional settings "install_strip_prefix" with
  | none => .ok d.target.package
  | some text =>
    let bare := Text.strip (· == '/') text
    let normal := Path.normalize (if bare.isEmpty then "." else bare)
    let front := if normal = "." then "" else normal
    if front.isEmpty || Path.isAtOrBelow front d.target.package then .ok front
    else .error (d.fault "install_strip_prefix" (.notFrontOfPackage front d.target.package))

/-- The file that lists the exported symbols. -/
def readExportedSymbols : Except BuildError (Option Resource) := do
  match ← d.optional settings "exported_symbols" with
  | none => .ok none
  | some path => some <$> d.packageResource path "exported_symbols"

/-- Read a library. -/
def readLibrary : Except BuildError Node := do
  let dependencies ← d.readCommon settings compilationAttributes
  let (compilation, ldflags) ← d.readCompilation settings
  .ok ⟨d.target, dependencies.items, ldflags, .library compilation, dependencies.irreflexive⟩

/-- Read an executable. -/
def readBinary : Except BuildError Node := do
  let dependencies ← d.readCommon settings compilationAttributes
  let (compilation, ldflags) ← d.readCompilation settings
  .ok ⟨d.target, dependencies.items, ldflags, .binary compilation, dependencies.irreflexive⟩

/-- Read a shared library. -/
def readSharedLibrary : Except BuildError Node := do
  let dependencies ← d.readCommon settings sharedAttributes
  let (compilation, ldflags) ← d.readCompilation settings
  let version ← d.readVersion settings
  let stripDir ← d.readStripDir settings
  let symbols ← d.readExportedSymbols settings
  .ok ⟨d.target, dependencies.items, ldflags,
    .sharedLibrary compilation ⟨version, stripDir, symbols⟩, dependencies.irreflexive⟩

/-- The identifier under which a fetcher knows some remote sources. -/
def remoteIdentifier (url : String) : Option String → String
  | some revision => url ++ "#" ++ revision
  | none => url

/-- Read a package with its own configure script. -/
def readAutoconf : Except BuildError Reading := do
  let dependencies ← d.readCommon settings autoconfAttributes
  let args ← d.strings settings "configure_args"
  let env ← d.table settings "configure_env"
  let makeTargets ← d.strings settings "make_targets"
  let url ← d.optional settings "source_url"
  let revision ← d.optional settings "source_revision"
  let source ← d.optional settings "source"
  let finish (sourceDir : String) : Node :=
    ⟨d.target, dependencies.items, [], .autoconf ⟨args, env, makeTargets, sourceDir⟩,
      dependencies.irreflexive⟩
  match url, source with
  | some _, some _ => .error (d.fault "source" .combinedWithUrl)
  | some url, none => .ok (.awaiting (remoteIdentifier url revision) finish)
  | none, source =>
    if revision.isSome then .error (d.fault "source_revision" .requiresUrl)
    else
      match source with
      | some path => do
        let directory ← d.packageResource path "source"
        .ok (.complete (finish directory.fullPath))
      | none =>
        .ok (.complete (finish (if d.target.package.isEmpty then "." else d.target.package)))

/-- Read a listing. -/
def readListing : Except BuildError Node := do
  let dependencies ← d.readCommon settings listingAttributes
  let prerequisites ← d.strings settings "prerequisites"
  .ok ⟨d.target, dependencies.items, [], .listing prerequisites, dependencies.irreflexive⟩

end Description

end Makewright
